import LibCanokey.PivAccess
import LibCanokey.PivProtection

/-! # PIV writes

Object and certificate writes and the replacement of the management key, alone or together
with the protected copy that the host keeps in PRINTED. -/
namespace PivWrite

open BigEndian ListTraversal ProtocolError ProtocolApdu ProtocolConversation ProtocolOperation
open ProtocolTlv ProtocolTlvFields CompatProfile PivCommand PivManagement PivAccess PivProtection

inductive ManagementTouchPolicy where
  | never
  | always
  deriving DecidableEq, Repr

def mutation (r : ResponseData) : Except Error MutationResult := do
  r.ensureSuccess .command
  if r.data ≠ [] then .error malformed else .ok unchanged

def requireManagement : Access → Except Error Unit
  | .existing | .management _ | .pinAndManagement _ _ => .ok ()
  | .none | .pin _ => .error (.new .invalidArgument)

/-- Older firmware expects the complete object selector in the first fragment, whose header
takes six bytes. -/
def checkSelector (command : LogicalCommand) (id : ObjectId) (options : OperationOptions) :
    Except Error LogicalCommand :=
  if command.allowChaining ∧ options.exchange.maxCommandBytes - 6 < id.asBytes.length + 2 then
    .error (.new .limitExceeded)
  else .ok command

def putCommand (profile : DeviceProfile) (id : ObjectId) (data : Bytes)
    (options : OperationOptions) : Except Error LogicalCommand := do
  require profile
  (profile.capability .objectWrites).require
  let _ ← options.validate
  let writer ← pushTags (.new options.limits.maxInputBytes)
    [([0x5c], id.asBytes), ([0x53], data)]
  checkSelector
    { cmd 0xdb 0x3f 0xff writer.bytes .absent with
      allowChaining := (profile.capability .objectWriteChaining).support == .supported }
    id options

def prepareWriteObject (profile : DeviceProfile) (id : ObjectId) (data : Bytes)
    (options : OperationOptions) : Except Error (Sequence MutationResult) := do
  let command ← putCommand profile id data options
  prepare command options mutation

/-- A written operation over a prepared sequence. -/
abbrev Writing := Operation (Selected (Sequence MutationResult)) MutationResult

def writeObject (profile : DeviceProfile) (id : ObjectId) (data : Bytes) (access : Access)
    (options : OperationOptions) : Except Error Writing := do
  requireManagement access
  let target ← prepareWriteObject profile id data options
  withAccess profile access target options

def requireRetired (profile : DeviceProfile) : Slot → Except Error Unit
  | .retired _ => (profile.capability .retiredSlots).require
  | _ => .ok ()

def prepareWriteCertificate (profile : DeviceProfile) (slot : Slot) (der : Bytes)
    (options : OperationOptions) : Except Error (Sequence MutationResult) :=
  if der = [] then .error (.new .invalidArgument)
  else do
    requireRetired profile slot
    let writer ← pushTags (.new options.limits.maxInputBytes)
      [([0x70], der), ([0x71], [0]), ([0xfe], [])]
    prepareWriteObject profile (.certificate slot) writer.bytes options

def writeCertificate (profile : DeviceProfile) (slot : Slot) (der : Bytes) (access : Access)
    (options : OperationOptions) : Except Error Writing := do
  requireManagement access
  let target ← prepareWriteCertificate profile slot der options
  withAccess profile access target options

def prepareDeleteCertificate (profile : DeviceProfile) (slot : Slot)
    (options : OperationOptions) : Except Error (Sequence MutationResult) := do
  (profile.capability .certificateDeletion).require
  prepareWriteObject profile (.certificate slot) [] options

def deleteCertificate (profile : DeviceProfile) (slot : Slot) (access : Access)
    (options : OperationOptions) : Except Error Writing := do
  requireManagement access
  let target ← prepareDeleteCertificate profile slot options
  withAccess profile access target options

/-- The container is parsed and wrapped again by the write. -/
def writeObjectContainer (profile : DeviceProfile) (id : ObjectId) (container : Bytes)
    (access : Access) (options : OperationOptions) : Except Error Writing := do
  requireManagement access
  if container.length > options.limits.maxInputBytes then .error (.new .limitExceeded)
  else
    let value ← sole (.new container { maxValueBytes := options.limits.maxInputBytes })
      (fun field => field.tag.value == 0x53) (.new .invalidArgument)
    let sequence ← prepareWriteObject profile id value.value options
    withAccess profile access sequence options

def prepareSetManagementKey (profile : DeviceProfile) (key : ManagementKey)
    (touch : ManagementTouchPolicy) (options : OperationOptions) :
    Except Error (Sequence MutationResult) := do
  require profile
  (profile.managementKeySupport key.algorithm).require
  if touch = .always ∧ key.algorithm ≠ .aes192 then .error (.new .unsupportedFeature)
  else prepare (key.replacementCommand (touch == .always)) options mutation

structure RotateManagement where
  stage : ℕ
  protecting : Bool
  replacement : Sequence MutationResult
  authentication : ManagementMachine
  printedWrite : Sequence MutationResult

abbrev RotateTurn := Except Error (Action MutationResult) × RotateManagement

def RotateManagement.printedNext (s : RotateManagement) (response : Option ResponseData) :
    RotateTurn :=
  ((s.printedWrite.next response).1,
    { s with printedWrite := (s.printedWrite.next response).2 })

def RotateManagement.authenticationNext (cipher : BlockCipher) (s : RotateManagement)
    (response : Option ResponseData) : RotateTurn :=
  match s.authentication.next cipher response with
  | (.error e, m) => (.error e, { s with authentication := m })
  | (.ok (.command c), m) => (.ok (.command c), { s with authentication := m })
  | (.ok (.done ()), m) => { s with authentication := m, stage := 5 }.printedNext none

/-- A protected key is authenticated anew and written to PRINTED after its replacement. -/
def RotateManagement.replacementNext (cipher : BlockCipher) (s : RotateManagement)
    (response : Option ResponseData) : RotateTurn :=
  match s.replacement.next response with
  | (.error e, m) => (.error e, { s with replacement := m })
  | (.ok (.command c), m) => (.ok (.command c), { s with replacement := m })
  | (.ok (.done result), m) =>
    if ¬ s.protecting then (.ok (.done result), { s with replacement := m })
    else { s with replacement := m, stage := 4 }.authenticationNext cipher none

def storedKey (r : ResponseData) : Except Error Bytes := do
  r.ensureSuccess .command
  protectedManagementKeyFromObject r.data

def RotateManagement.printedRead (cipher : BlockCipher) (s : RotateManagement)
    (r : ResponseData) : RotateTurn :=
  match storedKey r with
  | .error e => (.error e, s)
  | .ok _ => { s with stage := 3 }.replacementNext cipher none

/-- Absent ADMIN DATA leaves the flag as it is. -/
def protection (before : Bool) (r : ResponseData) : Except Error Bool :=
  if r.status.raw = 0x6a82 ∨ r.status.raw = 0x6a88 then .ok before
  else do
    r.ensureSuccess .command
    let policy ← ManagementProtection.fromAdminObject r.data
    .ok policy.protectsManagementKey

def RotateManagement.adminRead (cipher : BlockCipher) (s : RotateManagement)
    (r : ResponseData) : RotateTurn :=
  match protection s.protecting r with
  | .error e => (.error e, s)
  | .ok true =>
    (.ok (.command (getData .printed)), { s with protecting := true, stage := 2 })
  | .ok false => { s with protecting := false, stage := 3 }.replacementNext cipher none

/-- `ok_or_else(|| Error::new(ErrorKind::ProtocolViolation))?` around a turn. -/
def RotateManagement.answered (s : RotateManagement) (response : Option ResponseData)
    (turn : ResponseData → RotateTurn) : RotateTurn :=
  match response with
  | none => (.error (.new .protocolViolation), s)
  | some r => turn r

def RotateManagement.next (cipher : BlockCipher) (s : RotateManagement)
    (response : Option ResponseData) : RotateTurn :=
  match s.stage with
  | 0 => (.ok (.command (getData .adminData)), { s with stage := 1 })
  | 1 => s.answered response (s.adminRead cipher)
  | 2 => s.answered response (s.printedRead cipher)
  | 3 => s.replacementNext cipher response
  | 4 => s.authenticationNext cipher response
  | 5 => s.printedNext response
  | _ => (.error stateError, s)

/-- What `set_management_key` runs: the replacement alone or the rotation. -/
inductive Replacing where
  | plain (replacement : Sequence MutationResult)
  | rotating (rotation : RotateManagement)

def Replacing.next (cipher : BlockCipher) (s : Replacing) (response : Option ResponseData) :
    Except Error (Action MutationResult) × Replacing :=
  match s with
  | .plain replacement => ((replacement.next response).1, .plain (replacement.next response).2)
  | .rotating rotation =>
    ((rotation.next cipher response).1, .rotating (rotation.next cipher response).2)

def replacing (cipher : BlockCipher) : Machine Replacing MutationResult where
  next := Replacing.next cipher

/-- The value of PRINTED that holds a key. -/
def printedValue (key : ManagementKey) : Bytes := [0x88, 26, 0x89, 24] ++ key.bytes

def prepareRotation (profile : DeviceProfile) (key : ManagementKey)
    (replacement : Sequence MutationResult) (options : OperationOptions) :
    Except Error RotateManagement := do
  let printedWrite ← prepareWriteObject profile .printed (printedValue key) options
  (ManagementAuthentication.external key).validate profile options
  .ok
    { stage := 0
      replacement := replacement
      printedWrite := printedWrite
      authentication := .new (.external key)
      protecting := false }

/-- The target of `set_management_key`. -/
def prepareReplacing (profile : DeviceProfile) (key : ManagementKey)
    (touch : ManagementTouchPolicy) (updateProtected : Bool) (options : OperationOptions) :
    Except Error Replacing := do
  let replacement ← prepareSetManagementKey profile key touch options
  if ¬ updateProtected then .ok (.plain replacement)
  else (prepareRotation profile key replacement options).map .rotating

def setManagementKey (profile : DeviceProfile) (key : ManagementKey)
    (touch : ManagementTouchPolicy) (updateProtected : Bool) (access : Access)
    (options : OperationOptions) :
    Except Error (Operation (Selected Replacing) MutationResult) := do
  requireManagement access
  let target ← prepareReplacing profile key touch updateProtected options
  withAccess profile access target options

end PivWrite
