import LibCanokey.PivWrite
import LibCanokey.Utf16Text

/-! # PIV configuration and key lifecycle

Container names, moves and deletions of keys, the retry reset, the algorithm configuration,
attestation and the reset of the applet. -/
namespace PivConfiguration

open BigEndian ProtocolError ProtocolApdu ProtocolConversation ProtocolOperation ProtocolTlv
open CompatProfile PivCommand PivAccess PivWrite

inductive ContainerNameReference where
  | key (slot : Slot)
  | attestation
  deriving DecidableEq

def ContainerNameReference.reference : ContainerNameReference → UInt8
  | .key slot => slot.reference
  | .attestation => 0xf9

def ContainerNameReference.slot : ContainerNameReference → Option Slot
  | .key slot => some slot
  | .attestation => none

def requireSlot (profile : DeviceProfile) : Option Slot → Except Error Unit
  | some slot => (profile.pivSlotSupport slot.reference).require
  | none => .ok ()

def checked (profile : DeviceProfile) (feature : Capability) (slot : Option Slot) :
    Except Error Unit := do
  require profile
  (profile.capability feature).require
  requireSlot profile slot

def ContainerNameReference.check (reference : ContainerNameReference) (profile : DeviceProfile) :
    Except Error Unit :=
  checked profile .containerNames reference.slot

/-- The little-endian pairs of `chunks_exact(2)`. -/
def utf16Units : Bytes → List ℕ
  | low :: high :: rest => (high.toNat * 256 + low.toNat) :: utf16Units rest
  | _ => []

/-- `char::decode_utf16`, where one unpaired surrogate is enough to refuse the text. -/
def decodeUtf16 : List ℕ → Option (List Char)
  | [] => some []
  | unit :: rest =>
    if unit < 0xd800 ∨ 0xdfff < unit then (decodeUtf16 rest).map (Char.ofNat unit :: ·)
    else if 0xdc00 ≤ unit then none
    else match rest with
      | [] => none
      | low :: rest =>
        if low < 0xdc00 ∨ 0xdfff < low then none
        else (decodeUtf16 rest).map
          (Char.ofNat (0x10000 + (unit - 0xd800) * 0x400 + (low - 0xdc00)) :: ·)

def nul : Char := Char.ofNat 0

def validName (data : Bytes) : Bool :=
  data.length ≤ 78 && data.length % 2 == 0 &&
    (decodeUtf16 (utf16Units data)).any fun text => !text.contains nul

/-- At most 78 bytes of UTF-16LE without NUL and without unpaired surrogates. -/
structure ContainerName where
  utf16le : Bytes
  valid : validName utf16le = true
  deriving DecidableEq

def ContainerName.fromUtf16le (data : Bytes) : Except Error ContainerName :=
  if h : validName data = true then .ok ⟨data, h⟩ else .error (.new .invalidArgument)

/-- `u16::to_le_bytes`. -/
def toLeBytes (unit : ℕ) : Bytes := [UInt8.ofNat unit, UInt8.ofNat (unit / 256)]

def ContainerName.fromText (text : String) : Except Error ContainerName :=
  if (Utf16Text.encode text.toList).length > 39 then .error (.new .invalidArgument)
  else ContainerName.fromUtf16le ((Utf16Text.encode text.toList).flatMap toLeBytes)

/-- `String::from_utf16_lossy` of the units. -/
def ContainerName.text (name : ContainerName) : String :=
  String.ofList (Utf16Text.lossy (utf16Units name.utf16le))

def command (ins p1 p2 : UInt8) (data : Bytes) (read : Bool) : LogicalCommand :=
  { cmd ins p1 p2 data (if read then .exact 256 else .absent) with correctLe := read }

def nameReply (r : ResponseData) : Except Error ContainerName := do
  r.ensureSuccess .command
  match ContainerName.fromUtf16le r.data with
  | .error _ => .error malformed
  | .ok name => .ok name

def prepareReadName (profile : DeviceProfile) (slot : ContainerNameReference)
    (options : OperationOptions) : Except Error (Sequence ContainerName) := do
  slot.check profile
  prepare (command 0xf5 0 slot.reference [] true) options nameReply

def readContainerName (profile : DeviceProfile) (slot : ContainerNameReference) (access : Access)
    (options : OperationOptions) :
    Except Error (Operation (Selected (Sequence ContainerName)) ContainerName) := do
  let target ← prepareReadName profile slot options
  withAccess profile access target options

/-- An empty name is cleared by the five-byte form, whose Le a 6Cxx never corrects. -/
def setNameCommand (slot : ContainerNameReference) (name : ContainerName) : LogicalCommand :=
  if name.utf16le = [] then
    { command 0xf5 1 slot.reference name.utf16le false with le := .exact 256 }
  else command 0xf5 1 slot.reference name.utf16le false

def prepareSetName (profile : DeviceProfile) (slot : ContainerNameReference)
    (name : ContainerName) (options : OperationOptions) :
    Except Error (Sequence MutationResult) := do
  slot.check profile
  prepare (setNameCommand slot name) options mutation

def setContainerName (profile : DeviceProfile) (slot : ContainerNameReference)
    (name : ContainerName) (access : Access) (options : OperationOptions) :
    Except Error Writing := do
  requireManagement access
  let target ← prepareSetName profile slot name options
  withAccess profile access target options

/-- A move needs another supported slot to move to. -/
def checkTarget (profile : DeviceProfile) (source : Slot) : Option Slot → Except Error Unit
  | none => .ok ()
  | some target => do
    (profile.pivSlotSupport target.reference).require
    if target = source then .error (.new .invalidArgument) else .ok ()

def targetReference : Option Slot → UInt8
  | none => 0xff
  | some slot => slot.reference

def prepareMoveDelete (profile : DeviceProfile) (source : Slot) (target : Option Slot)
    (options : OperationOptions) : Except Error (Sequence MutationResult) := do
  checked profile .keyMoveDelete (some source)
  checkTarget profile source target
  prepare (command 0xf6 (targetReference target) source.reference [] false) options mutation

def moveKey (profile : DeviceProfile) (source target : Slot) (access : Access)
    (options : OperationOptions) : Except Error Writing := do
  requireManagement access
  let op ← prepareMoveDelete profile source (some target) options
  withAccess profile access op options

def deleteKey (profile : DeviceProfile) (slot : Slot) (access : Access)
    (options : OperationOptions) : Except Error Writing := do
  requireManagement access
  let target ← prepareMoveDelete profile slot none options
  withAccess profile access target options

def prepareRetryReset (profile : DeviceProfile) (pin puk : UInt8) (options : OperationOptions) :
    Except Error (Sequence MutationResult) := do
  checked profile .retryReset none
  if ¬ (1 ≤ pin ∧ pin ≤ 15) ∨ ¬ (1 ≤ puk ∧ puk ≤ 15) then .error (.new .invalidArgument)
  else prepare (command 0xfa pin puk [] false) options mutation

/-- The reset needs both authentications. -/
def requirePinAndManagement : Access → Except Error Unit
  | .pinAndManagement _ _ | .existing => .ok ()
  | _ => .error (.new .invalidArgument)

def resetPinPukRetries (profile : DeviceProfile) (pinRetries pukRetries : UInt8) (access : Access)
    (options : OperationOptions) : Except Error Writing := do
  requirePinAndManagement access
  let target ← prepareRetryReset profile pinRetries pukRetries options
  withAccess profile access target options

/-- A mutation after which the profile is stale. -/
def reprobe (r : ResponseData) : Except Error MutationResult := do
  let _ ← mutation r
  .ok ⟨.reprobeRequired⟩

/-- Identifiers that an enabled configuration must not assign. -/
def fixedIds : List UInt8 := [0, 0x0a, 0x07, 0x11, 0x14, 0xff]

def prepareConfig (profile : DeviceProfile) (config : AlgorithmConfig)
    (options : OperationOptions) : Except Error (Sequence MutationResult) := do
  checked profile .algorithmConfigWrite none
  if config.raw.length ≠ 10 ∨
      (config.enabled ∧ (config.raw.drop 1).any fun b => fixedIds.contains b) then
    .error (.new .invalidArgument)
  else prepare (command 0xee 2 0 config.raw false) options reprobe

def setAlgorithmConfig (profile : DeviceProfile) (config : AlgorithmConfig) (access : Access)
    (options : OperationOptions) : Except Error Writing := do
  requireManagement access
  let target ← prepareConfig profile config options
  withAccess profile access target options

def attestReply (r : ResponseData) : Except Error Bytes := do
  r.ensureSuccess .command
  if r.data = [] then .error malformed else .ok r.data

def prepareAttest (profile : DeviceProfile) (slot : Slot) (options : OperationOptions) :
    Except Error (Sequence Bytes) := do
  checked profile .attestation (some slot)
  prepare { command 0xf9 slot.reference 0 [] true with correctLe := false } options attestReply

def attest (profile : DeviceProfile) (slot : Slot) (selecting : Bool)
    (options : OperationOptions) : Except Error (Operation (Selected (Sequence Bytes)) Bytes) := do
  let target ← prepareAttest profile slot options
  withAccess profile (if selecting then .none else .existing) target options

def resetPiv (profile : DeviceProfile) (options : OperationOptions) : Except Error Writing := do
  checked profile .pivReset none
  let target ← prepare (command 0xfb 0 0 [] false) options reprobe
  withAccess profile .none target options

end PivConfiguration
