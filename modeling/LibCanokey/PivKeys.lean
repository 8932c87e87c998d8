import LibCanokey.PivMetadata
import LibCanokey.PivWrite

/-! # Key generation and import

Key parameters with explicit policies, typed private material and the operations that
generate, import or require the absence of a key. -/
namespace PivKeys

open BigEndian CheckedCursor ListTraversal ProtocolError ProtocolApdu ProtocolConversation
open ProtocolOperation ProtocolTlv ProtocolTlvFields CompatProfile KeyPublicKey PivCommand
open PivAccess PivMetadata PivWrite

structure KeyParameters where
  slot : Slot
  algorithm : Algorithm
  pinPolicy : PinPolicy := .default
  touchPolicy : TouchPolicy := .default
  deriving DecidableEq

structure PrivateKeyMaterial where
  algorithm : Algorithm
  fields : Bytes
  deriving DecidableEq

/-- Whether the curve crates accept the bytes as a scalar of the algorithm's curve. -/
abbrev ScalarCheck := Algorithm → Bytes → Bool

/-- One component under its position, padded to the width. -/
def pushComponent (width : ℕ) (writer : TlvWriter) (component : Bytes × ℕ) :
    Except Error TlvWriter :=
  if component.1 = [] ∨ component.1.length > width ∨ component.1.all (· == 0) then
    .error (.new .invalidArgument)
  else
    pushTag writer [UInt8.ofNat component.2 + 1]
      (List.replicate (width - component.1.length) 0 ++ component.1)

def PrivateKeyMaterial.rsaCrt (algorithm : Algorithm) (p q dP dQ qInv : Bytes) :
    Except Error PrivateKeyMaterial :=
  match rsaLen algorithm with
  | none => .error (.new .unsupportedAlgorithm)
  | some len => do
    let writer ← [p, q, dP, dQ, qInv].zipIdx.foldlM (pushComponent (len / 2)) (.new 1400)
    .ok ⟨algorithm, writer.bytes⟩

def PrivateKeyMaterial.field (algorithm : Algorithm) (tag : UInt8) (bytes : Bytes) (len : ℕ) :
    Except Error PrivateKeyMaterial :=
  if bytes.length ≠ len then .error (.new .invalidArgument)
  else do
    let writer ← pushTag (.new (len + 2)) [tag] bytes
    .ok ⟨algorithm, writer.bytes⟩

/-- Every algorithm with a curve width has a scalar check. -/
def PrivateKeyMaterial.ecScalar (scalar : ScalarCheck) (algorithm : Algorithm) (bytes : Bytes) :
    Except Error PrivateKeyMaterial :=
  if curveLen algorithm ≠ some bytes.length ∨ ¬ scalar algorithm bytes then
    .error (.new .invalidArgument)
  else PrivateKeyMaterial.field algorithm 0x06 bytes bytes.length

def PrivateKeyMaterial.ed25519Seed (bytes : Bytes) : Except Error PrivateKeyMaterial :=
  PrivateKeyMaterial.field .ed25519 0x07 bytes 32

def PrivateKeyMaterial.x25519Key (bytes : Bytes) : Except Error PrivateKeyMaterial :=
  PrivateKeyMaterial.field .x25519 0x08 bytes 32

def PrivateKeyMaterial.mldsa65Seed (bytes : Bytes) : Except Error PrivateKeyMaterial :=
  PrivateKeyMaterial.field .mlDsa65 0x09 bytes 32

def PrivateKeyMaterial.mlkem768Seed (bytes : Bytes) : Except Error PrivateKeyMaterial :=
  PrivateKeyMaterial.field .mlKem768 0x0a bytes 64

/-- `ok_or_else(|| Error::new(ErrorKind::CapabilityUnknown))`. -/
def knownId : Option UInt8 → Except Error UInt8
  | none => .error (.new .capabilityUnknown)
  | some id => .ok id

def keyId (profile : DeviceProfile) (slot : Slot) (algorithm : Algorithm) : Except Error UInt8 := do
  require profile
  (profile.pivSlotSupport slot.reference).require
  (profile.keyAlgorithmSupport algorithm).require
  knownId (profile.algorithmWireId algorithm)

/-- An explicit policy needs the firmware that knows policies. -/
def requirePolicies (profile : DeviceProfile) (parameters : KeyParameters) : Except Error Unit :=
  if parameters.pinPolicy ≠ .default ∨ parameters.touchPolicy ≠ .default then
    (profile.capability .metadata).require
  else .ok ()

def policyFields (parameters : KeyParameters) : List (Bytes × Bytes) :=
  (if parameters.pinPolicy ≠ .default then [([0xaa], [parameters.pinPolicy.wire])] else []) ++
    if parameters.touchPolicy ≠ .default then [([0xab], [parameters.touchPolicy.wire])] else []

def policies (profile : DeviceProfile) (parameters : KeyParameters) (writer : TlvWriter) :
    Except Error TlvWriter := do
  requirePolicies profile parameters
  pushTags writer (policyFields parameters)

def keyCommand (ins p1 p2 : UInt8) (data : Bytes) : LogicalCommand :=
  { cmd ins p1 p2 data .absent with allowChaining := true, allowExtended := true }

def generated (algorithm : Algorithm) (limit : ℕ) (r : ResponseData) : Except Error PublicKey := do
  r.ensureSuccess .command
  let field ← sole (.new r.data { maxValueBytes := limit })
    (fun field => field.tag.value == 0x7f49) malformed
  PublicKey.fromTlv algorithm field.value limit

def generateCommand (slot : Slot) (data : Bytes) : LogicalCommand :=
  { keyCommand 0x47 0 slot.reference data with allowChaining := false }

def prepareGenerateKey (profile : DeviceProfile) (parameters : KeyParameters)
    (options : OperationOptions) : Except Error (Sequence PublicKey) := do
  let id ← keyId profile parameters.slot parameters.algorithm
  let fields ← pushTag (.new options.limits.maxInputBytes) [0x80] [id]
  let fields ← policies profile parameters fields
  let data ← pushTag (.new options.limits.maxInputBytes) [0xac] fields.bytes
  prepare (generateCommand parameters.slot data.bytes) options
    (generated parameters.algorithm options.limits.maxTotalResponseBytes)

def generateKey (profile : DeviceProfile) (parameters : KeyParameters) (access : Access)
    (options : OperationOptions) :
    Except Error (Operation (Selected (Sequence PublicKey)) PublicKey) := do
  requireManagement access
  let target ← prepareGenerateKey profile parameters options
  withAccess profile access target options

def prepareImportKey (profile : DeviceProfile) (parameters : KeyParameters)
    (material : PrivateKeyMaterial) (options : OperationOptions) :
    Except Error (Sequence MutationResult) :=
  if material.algorithm ≠ parameters.algorithm then .error (.new .invalidArgument)
  else do
    let id ← keyId profile parameters.slot parameters.algorithm
    let policy ← policies profile parameters (.new options.limits.maxInputBytes)
    if (checkedAdd material.fields.length policy.bytes.length).all
        (· > options.limits.maxInputBytes) then .error (.new .limitExceeded)
    else
      prepare (keyCommand 0xfe id parameters.slot.reference (material.fields ++ policy.bytes))
        options mutation

def importKey (profile : DeviceProfile) (parameters : KeyParameters)
    (material : PrivateKeyMaterial) (access : Access) (options : OperationOptions) :
    Except Error Writing := do
  requireManagement access
  let target ← prepareImportKey profile parameters material options
  withAccess profile access target options

/-- Only an empty 6A82 or 6A88 means that the slot holds no key. -/
def absence (r : ResponseData) : Except Error Unit :=
  if r.status.isSuccess then .error ((Error.new .conditionsNotSatisfied).atPhase .command)
  else if r.status.raw = 0x6a82 ∨ r.status.raw = 0x6a88 then
    if r.data = [] then .ok () else .error malformed
  else r.ensureSuccess .command

def requireEmptyKeySlot (profile : DeviceProfile) (slot : Slot) (access : Access)
    (options : OperationOptions) : Except Error (Operation (Selected (Sequence Unit)) Unit) := do
  (profile.pivSlotSupport slot.reference).require
  let sequence ← prepare (metadata (.key slot)) options absence
  withAccess profile access sequence options

end PivKeys
