import LibCanokey.PivMetadata
import LibCanokey.PivProtection

/-! # PIN-managed protection

The machine that reads the protection objects, authenticates with the stored management key
and blocks the PUK when asked to. -/
namespace PivPinManaged

open BigEndian ProtocolError ProtocolApdu ProtocolConversation ProtocolOperation ProtocolTlv
open CompatProfile PivCommand PivManagement PivAccess PivMetadata PivProtection

inductive Stage where
  | begin
  | admin
  | puk
  | printed
  | managementMetadata
  | authentication
  | change
  | confirm
  deriving DecidableEq, Repr

/-- The eight digits that a blocked PUK is left with. -/
abbrev Replacement := {bytes : Bytes // bytes.length = 8}

structure PinManaged where
  stage : Stage
  profile : DeviceProfile
  options : OperationOptions
  replacement : Option Replacement
  key : Option Bytes
  authentication : Option ManagementMachine
  attempts : ℕ
  known : Bool

def PinManaged.metadata (s : PinManaged) (response : ResponseData)
    (reference : MetadataReference) : Except Error Metadata := do
  response.ensureSuccess .command
  decode s.profile reference response.data s.options.limits.maxTotalResponseBytes

def PinManaged.result (s : PinManaged) : Except Error (Action Bytes) × PinManaged :=
  match s.key with
  | none => (.error malformed, s)
  | some key => (.ok (.done key), { s with key := none })

/-- A number in decimal, with zeros to eight digits. -/
def eightDigits (n : ℕ) : Bytes :=
  ((Nat.toDigits 10 n).leftpad 8 '0').map fun c => UInt8.ofNat c.toNat

/-- Another string of digits, one that the replacement is not. -/
def bump : Bytes → Bytes
  | [] => []
  | b :: rest => (if b = 0x39 then 0x30 else b + 1) :: rest

def conditionsNotSatisfied : Error := (Error.new .conditionsNotSatisfied).atPhase .command

/-- Distinct wrong guesses, and a wrong PUK of its own once the PUK is known. -/
def PinManaged.change (s : PinManaged) : Except Error (Action Bytes) × PinManaged :=
  if s.attempts ≥ 32 then (.error conditionsNotSatisfied, s)
  else match s.replacement with
    | none => (.error malformed, s)
    | some replacement =>
      let old := if s.known then bump replacement.1 else eightDigits s.attempts
      (.ok (.command (PivCommand.change 0x24 0x81 old replacement.1)),
        { s with attempts := s.attempts + 1, stage := .change })

def PinManaged.authenticationNext (cipher : BlockCipher) (s : PinManaged)
    (response : Option ResponseData) : Except Error (Action Bytes) × PinManaged :=
  match s.authentication with
  | none => (.error malformed, s)
  | some m =>
    match m.next cipher response with
    | (.error e, m) => (.error e, { s with authentication := some m })
    | (.ok (.command c), m) => (.ok (.command c), { s with authentication := some m })
    | (.ok (.done ()), _) =>
      if s.replacement.isSome then { s with authentication := none }.change
      else { s with authentication := none }.result

def adminPolicy (response : ResponseData) : Except Error Unit := do
  response.ensureSuccess .command
  let policy ← ManagementProtection.fromAdminObject response.data
  if ¬ policy.claimsBlockedPuk ∨ ¬ policy.protectsManagementKey then
    .error ((Error.new .notFound).atPhase .parsing)
  else .ok ()

def PinManaged.adminNext (s : PinManaged) (response : ResponseData) :
    Except Error (Action Bytes) × PinManaged :=
  match adminPolicy response with
  | .error e => (.error e, s)
  | .ok () => (.ok (.command (PivCommand.metadata .puk)), { s with stage := .puk })

/-- The retries left of the PUK. -/
def PinManaged.remaining (s : PinManaged) (response : ResponseData) : Except Error UInt8 := do
  let metadata ← s.metadata response .puk
  match metadata.fields.retries with
  | none => .error malformed
  | some (_, remaining) => .ok remaining

def PinManaged.pukNext (s : PinManaged) (response : ResponseData) :
    Except Error (Action Bytes) × PinManaged :=
  match s.remaining response with
  | .error e => (.error e, s)
  | .ok remaining =>
    if remaining = 0 then
      (.ok (.command (getData .printed)), { s with replacement := none, stage := .printed })
    else if s.replacement.isNone then (.error conditionsNotSatisfied, s)
    else (.ok (.command (getData .printed)), { s with stage := .printed })

def PinManaged.confirmNext (s : PinManaged) (response : ResponseData) :
    Except Error (Action Bytes) × PinManaged :=
  match s.remaining response with
  | .error e => (.error e, s)
  | .ok remaining => if remaining ≠ 0 then (.error conditionsNotSatisfied, s) else s.result

def printedKey (response : ResponseData) : Except Error Bytes := do
  response.ensureSuccess .command
  protectedManagementKeyFromObject response.data

def PinManaged.printedNext (s : PinManaged) (response : ResponseData) :
    Except Error (Action Bytes) × PinManaged :=
  match printedKey response with
  | .error e => (.error e, s)
  | .ok key =>
    (.ok (.command (PivCommand.metadata .management)),
      { s with key := some key, stage := .managementMetadata })

/-- A card without management metadata holds a triple-DES key. -/
def PinManaged.algorithm (s : PinManaged) (response : ResponseData) :
    Except Error ManagementKeyAlgorithm :=
  if response.status.raw = 0x6d00 ∨ response.status.raw = 0x6a81 ∨
      response.status.raw = 0x6a88 ∨ response.status.raw = 0x6a82 then .ok .tdes
  else do
    let metadata ← s.metadata response .management
    if metadata.fields.algorithmId = some 3 then .ok .tdes
    else if metadata.fields.algorithmId = some 10 then .ok .aes192
    else .error (.new .unsupportedAlgorithm)

/-- `key.as_ref().ok_or_else(invalid)?`. -/
def PinManaged.storedKey (s : PinManaged) : Except Error Bytes :=
  match s.key with
  | none => .error malformed
  | some key => .ok key

def PinManaged.external (s : PinManaged) (response : ResponseData) :
    Except Error ManagementAuthentication := do
  let algorithm ← s.algorithm response
  let key ← ManagementKey.fromBytes algorithm (← s.storedKey)
  let auth := ManagementAuthentication.external key
  auth.validate s.profile s.options
  .ok auth

def PinManaged.managementMetadataNext (cipher : BlockCipher) (s : PinManaged)
    (response : ResponseData) : Except Error (Action Bytes) × PinManaged :=
  match s.external response with
  | .error e => (.error e, s)
  | .ok auth =>
    { s with authentication := some (.new auth), stage := .authentication }.authenticationNext
      cipher none

def PinManaged.changeNext (s : PinManaged) (response : ResponseData) :
    Except Error (Action Bytes) × PinManaged :=
  if response.data ≠ [] then (.error malformed, s)
  else if response.status.raw = 0x9000 then { s with known := true }.change
  else if response.status.raw = 0x6983 ∨ response.status.raw = 0x63c0 then
    (.ok (.command (PivCommand.metadata .puk)), { s with stage := .confirm })
  else if response.status.raw &&& 0xfff0 = 0x63c0 then s.change
  else match requireAuth response .puk with
    | .error e => (.error e, s)
    | .ok () => s.change

def PinManaged.answered (cipher : BlockCipher) (s : PinManaged) (response : ResponseData) :
    Except Error (Action Bytes) × PinManaged :=
  match s.stage with
  | .admin => s.adminNext response
  | .puk => s.pukNext response
  | .confirm => s.confirmNext response
  | .printed => s.printedNext response
  | .managementMetadata => s.managementMetadataNext cipher response
  | .change => s.changeNext response
  | .begin | .authentication => (.error stateError, s)

def PinManaged.next (cipher : BlockCipher) (s : PinManaged) (response : Option ResponseData) :
    Except Error (Action Bytes) × PinManaged :=
  match s.stage with
  | .begin => (.ok (.command (getData .adminData)), { s with stage := .admin })
  | .authentication => s.authenticationNext cipher response
  | _ =>
    match response with
    | none => (.error malformed, s)
    | some response => s.answered cipher response

def pinManagedMachine (cipher : BlockCipher) : Machine PinManaged Bytes where
  next := PinManaged.next cipher

def digit (b : UInt8) : UInt8 := 0x30 + b % 10

def Replacement.ofBytes (bytes : Bytes) : Except Error Replacement :=
  if h : bytes.length = 8 then .ok ⟨bytes.map digit, by simp [h]⟩
  else .error (.new .invalidArgument)

def replacementOf : Option Bytes → Except Error (Option Replacement)
  | none => .ok none
  | some bytes => (Replacement.ofBytes bytes).map some

def PinManaged.new (profile : DeviceProfile) (options : OperationOptions)
    (replacement : Option Replacement) : PinManaged :=
  { stage := .begin
    profile := profile
    options := options
    replacement := replacement
    key := none
    authentication := none
    attempts := 0
    known := false }

def pinManaged (profile : DeviceProfile) (blockPuk : Option Bytes) (access : Access)
    (options : OperationOptions) : Except Error (Operation (Selected PinManaged) Bytes) := do
  require profile
  (profile.capability .metadata).require
  let replacement ← replacementOf blockPuk
  withAccess profile access (.new profile options replacement) options

example : eightDigits 31 = [0x30, 0x30, 0x30, 0x30, 0x30, 0x30, 0x33, 0x31] := by decide

end PivPinManaged
