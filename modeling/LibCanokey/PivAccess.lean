import LibCanokey.PivManagement

/-! # Selection and authentication around a target

The wrapper that selects PIV, authenticates as its access says and then drives a target
machine, for any target. -/
namespace PivAccess

open BigEndian ListTraversal ProtocolError ProtocolApdu ProtocolConversation ProtocolOperation
open CompatProfile PivCommand PivManagement

inductive Access where
  | existing
  | none
  | pin (pin : Pin)
  | management (auth : ManagementAuthentication)
  | pinAndManagement (pin : Pin) (management : ManagementAuthentication)

def Access.isExisting : Access → Bool
  | .existing => true
  | _ => false

def Access.managementOf : Access → Option ManagementAuthentication
  | .management auth => some auth
  | .pinAndManagement _ auth => some auth
  | _ => Option.none

def Access.pinOf : Access → Option Pin
  | .pin secret => some secret
  | .pinAndManagement secret _ => some secret
  | _ => Option.none

inductive Stage where
  | begin
  | select
  | management
  | pin
  | target
  deriving DecidableEq, Repr

structure Selected (σ : Type*) where
  stage : Stage
  explicitLe : Bool
  management : Option ManagementMachine
  pin : Option Pin
  target : σ

variable {σ : Type*} {T : Type}

def Selected.targetNext (M : Machine σ T) (s : Selected σ) (response : Option ResponseData) :
    Except Error (Action T) × Selected σ :=
  ((M.next s.target response).1, { s with target := (M.next s.target response).2 })

def Selected.targetOrPin (M : Machine σ T) (s : Selected σ) :
    Except Error (Action T) × Selected σ :=
  match s.pin with
  | some pin => (.ok (.command (verifyPin pin)), { s with pin := none, stage := .pin })
  | none => { s with stage := .target }.targetNext M none

/-- The key and the challenge are dropped before the target runs. -/
def Selected.managementNext (cipher : BlockCipher) (M : Machine σ T) (s : Selected σ)
    (response : Option ResponseData) : Except Error (Action T) × Selected σ :=
  match s.management with
  | none => (.error (.new .protocolViolation), s)
  | some m =>
    match m.next cipher response with
    | (.error e, m) => (.error e, { s with management := some m })
    | (.ok (.command c), m) => (.ok (.command c), { s with management := some m })
    | (.ok (.done ()), _) => { s with management := none }.targetOrPin M

def Selected.selectNext (cipher : BlockCipher) (M : Machine σ T) (s : Selected σ)
    (response : Option ResponseData) : Except Error (Action T) × Selected σ :=
  match response with
  | none => (.error (.new .protocolViolation), s)
  | some r =>
    match r.ensureSuccess .select with
    | .error e => (.error e, s)
    | .ok () =>
      if s.management.isSome then { s with stage := .management }.managementNext cipher M none
      else s.targetOrPin M

def Selected.pinNext (M : Machine σ T) (s : Selected σ) (response : Option ResponseData) :
    Except Error (Action T) × Selected σ :=
  match response with
  | none => (.error (.new .protocolViolation), s)
  | some r =>
    match requireAuth r .pin with
    | .error e => (.error e, s)
    | .ok () =>
      if r.data ≠ [] then (.error invalid, s)
      else { s with stage := .target }.targetNext M none

def Selected.step (cipher : BlockCipher) (M : Machine σ T) (s : Selected σ)
    (response : Option ResponseData) : Except Error (Action T) × Selected σ :=
  match s.stage with
  | .begin => (.ok (.command PivCommand.select), { s with stage := .select })
  | .select => s.selectNext cipher M response
  | .management => s.managementNext cipher M response
  | .pin => s.pinNext M response
  | .target => s.targetNext M response

def explicitAction (legacy : Bool) : Action T → Action T
  | .command c => .command (explicitLe legacy c)
  | .done value => .done value

def Selected.next (cipher : BlockCipher) (M : Machine σ T) (s : Selected σ)
    (response : Option ResponseData) : Except Error (Action T) × Selected σ :=
  ((s.step cipher M response).1.map (explicitAction s.explicitLe), (s.step cipher M response).2)

def Selected.progress (M : Machine σ T) (s : Selected σ) : Option T :=
  if s.stage = .target then M.progress s.target else none

def Selected.takeProgress (M : Machine σ T) (s : Selected σ) : Option T × Selected σ :=
  if s.stage = .target then
    ((M.takeProgress s.target).1, { s with target := (M.takeProgress s.target).2 })
  else (none, s)

def selectedMachine (cipher : BlockCipher) (M : Machine σ T) : Machine (Selected σ) T where
  next := Selected.next cipher M
  progress := Selected.progress M
  takeProgress := Selected.takeProgress M

def Access.validateSelect (access : Access) (options : OperationOptions) : Except Error Unit :=
  if access.isExisting then .ok () else validateCommand PivCommand.select options

def Access.validateManagement (access : Access) (profile : DeviceProfile)
    (options : OperationOptions) : Except Error Unit :=
  match access.managementOf with
  | some auth => auth.validate profile options
  | Option.none => .ok ()

def Access.validatePin (access : Access) (options : OperationOptions) : Except Error Unit :=
  match access.pinOf with
  | some secret => validateCommand (verifyPin secret) options
  | Option.none => .ok ()

def Access.preflight (access : Access) (profile : DeviceProfile) (options : OperationOptions) :
    Except Error Unit := do
  require profile
  let _ ← options.validate
  access.validateSelect options
  access.validateManagement profile options
  access.validatePin options

def Selected.new (legacy : Bool) (access : Access) (target : σ) : Selected σ :=
  { stage := if access.isExisting then .target else .begin
    explicitLe := legacy
    management := access.managementOf.map .new
    pin := access.pinOf
    target := target }

def withAccess (profile : DeviceProfile) (access : Access) (target : σ)
    (options : OperationOptions) : Except Error (Operation (Selected σ) T) :=
  match access.preflight profile options with
  | .error e => .error e
  | .ok () =>
    Operation.fromMachine (Selected.new profile.legacyExplicitLe access target) options

def authenticateManagementKey (profile : DeviceProfile) (auth : ManagementAuthentication)
    (selecting : Bool) (options : OperationOptions) :
    Except Error (Operation (Selected ManagementMachine) Unit) := do
  require profile
  auth.validate profile options
  withAccess profile (if selecting then .none else .existing) (.new auth) options

theorem withAccess_eq_ok {profile : DeviceProfile} {access : Access} {target : σ}
    {options : OperationOptions} {op : Operation (Selected σ) T} :
    withAccess profile access target options = .ok op ↔
      access.preflight profile options = .ok () ∧
        Operation.fromMachine (Selected.new profile.legacyExplicitLe access target) options =
          .ok op := by
  rw [withAccess]
  cases access.preflight profile options with
  | error e => simp
  | ok u => simp

end PivAccess
