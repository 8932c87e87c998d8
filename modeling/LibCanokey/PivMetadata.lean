import LibCanokey.KeyPublicKey
import LibCanokey.PivAccess

/-! # PIV metadata

Metadata records with every field of a reply, their decoder and the two reads that return
observations of the applet. -/
namespace PivMetadata

open BigEndian ProtocolError ProtocolApdu ProtocolConversation ProtocolOperation ProtocolTlv
open ProtocolTlvFields CompatProfile KeyPublicKey PivCommand PivAccess

inductive KnownOrUnknown (α : Type) where
  | known (value : α)
  | unknown (byte : UInt8)
  deriving DecidableEq, Repr

inductive PinPolicy where
  | default
  | never
  | once
  | always
  deriving DecidableEq, Repr

inductive TouchPolicy where
  | default
  | never
  | always
  | cached
  deriving DecidableEq, Repr

inductive KeyOrigin where
  | notPresent
  | generated
  | imported
  deriving DecidableEq, Repr

def PinPolicy.wire : PinPolicy → UInt8
  | .default => 0
  | .never => 1
  | .once => 2
  | .always => 3

def TouchPolicy.wire : TouchPolicy → UInt8
  | .default => 0
  | .never => 1
  | .always => 2
  | .cached => 3

def pinPolicy (value : UInt8) : KnownOrUnknown PinPolicy :=
  if value = 0 then .known .default
  else if value = 1 then .known .never
  else if value = 2 then .known .once
  else if value = 3 then .known .always
  else .unknown value

def touchPolicy (value : UInt8) : KnownOrUnknown TouchPolicy :=
  if value = 0 then .known .default
  else if value = 1 then .known .never
  else if value = 2 then .known .always
  else if value = 3 then .known .cached
  else .unknown value

def keyOrigin (value : UInt8) : KnownOrUnknown KeyOrigin :=
  if value = 0 then .known .notPresent
  else if value = 1 then .known .generated
  else if value = 2 then .known .imported
  else .unknown value

def defaultFlag (value : UInt8) : KnownOrUnknown Bool :=
  if value = 0 then .known false else if value = 1 then .known true else .unknown value

structure MetadataField where
  tag : Tag
  value : Bytes
  deriving DecidableEq

structure MetadataFields where
  raw : Bytes := []
  algorithmId : Option UInt8 := none
  pinPolicy : Option (KnownOrUnknown PinPolicy) := none
  touchPolicy : Option (KnownOrUnknown TouchPolicy) := none
  origin : Option (KnownOrUnknown KeyOrigin) := none
  isDefault : Option (KnownOrUnknown Bool) := none
  /-- Configured total and remaining. -/
  retries : Option (UInt8 × UInt8) := none
  publicKeyTlv : Option Bytes := none
  publicKey : Option PublicKey := none
  unknownFields : List MetadataField := []
  deriving DecidableEq

inductive Metadata where
  | key (slot : Slot) (fields : MetadataFields)
  | pin (fields : MetadataFields)
  | puk (fields : MetadataFields)
  | management (fields : MetadataFields)
  deriving DecidableEq

def Metadata.fields : Metadata → MetadataFields
  | .key _ fields => fields
  | .pin fields => fields
  | .puk fields => fields
  | .management fields => fields

/-- The fields read so far and the known tags among them. -/
structure Scan where
  fields : MetadataFields := {}
  seen : List ℕ := []

/-- The length each known field must have; a public key may have any. -/
def expectedLength (tag : ℕ) (value : Bytes) : ℕ :=
  if tag = 2 ∨ tag = 6 then 2 else if tag = 4 then value.length else 1

def MetadataFields.store (fields : MetadataFields) (tag : Tag) (value : Bytes) : MetadataFields :=
  match tag.value with
  | 1 => { fields with algorithmId := some (value.getD 0 0) }
  | 2 =>
    { fields with
      pinPolicy := some (PivMetadata.pinPolicy (value.getD 0 0))
      touchPolicy := some (PivMetadata.touchPolicy (value.getD 1 0)) }
  | 3 => { fields with origin := some (keyOrigin (value.getD 0 0)) }
  | 4 => { fields with publicKeyTlv := some value }
  | 5 => { fields with isDefault := some (defaultFlag (value.getD 0 0)) }
  | 6 => { fields with retries := some (value.getD 0 0, value.getD 1 0) }
  | _ => { fields with unknownFields := fields.unknownFields ++ [⟨tag, value⟩] }

def Scan.take (scan : Scan) (field : Tlv) : Except Error Scan :=
  if 1 ≤ field.tag.value ∧ field.tag.value ≤ 6 then
    if field.tag.value ∈ scan.seen then .error malformed
    else if field.value.length ≠ expectedLength field.tag.value field.value then .error malformed
    else .ok ⟨scan.fields.store field.tag field.value, field.tag.value :: scan.seen⟩
  else .ok { scan with fields := scan.fields.store field.tag field.value }

/-- The public key of a key record, where its algorithm is known. -/
def MetadataFields.decodeKey (fields : MetadataFields) (profile : DeviceProfile) (limit : ℕ) :
    Except Error MetadataFields :=
  match fields.algorithmId, fields.publicKeyTlv with
  | some id, some bytes =>
    match profile.algorithmFromWireId id with
    | some algorithm => do
      let key ← PublicKey.fromTlv algorithm bytes limit
      .ok { fields with publicKey := some key }
    | none => .ok fields
  | _, _ => .ok fields

def decode (profile : DeviceProfile) (reference : MetadataReference) (data : Bytes) (limit : ℕ) :
    Except Error Metadata := do
  let scan ← readFields Scan.take (.new data { maxValueBytes := limit }) {}
  if data = [] then .error malformed
  else match reference with
    | .key slot =>
      let fields ← scan.fields.decodeKey profile limit
      .ok (.key slot { fields with raw := data })
    | .pin => .ok (.pin { scan.fields with raw := data })
    | .puk => .ok (.puk { scan.fields with raw := data })
    | .management => .ok (.management { scan.fields with raw := data })

def MetadataReference.isKey : MetadataReference → Bool
  | .key _ => true
  | _ => false

/-- Legacy firmware answers 6900 for an empty key slot. -/
def metadataReply (profile : DeviceProfile) (reference : MetadataReference) (limit : ℕ)
    (r : ResponseData) : Except Error Metadata :=
  if profile.legacyEmptyKeyMetadata ∧ MetadataReference.isKey reference ∧ r.status.raw = 0x6900
  then
    .error { Error.status r.status .command none with kind := .notFound }
  else do
    r.ensureSuccess .command
    decode profile reference r.data limit

def requireKeySlot (profile : DeviceProfile) : MetadataReference → Except Error Unit
  | .key slot => (profile.pivSlotSupport slot.reference).require
  | _ => .ok ()

def prepareGetMetadata (profile : DeviceProfile) (reference : MetadataReference)
    (options : OperationOptions) : Except Error (Sequence Metadata) := do
  require profile
  (profile.capability .metadata).require
  requireKeySlot profile reference
  prepare (metadata reference) options
    (metadataReply profile reference options.limits.maxTotalResponseBytes)

def getMetadata (profile : DeviceProfile) (reference : MetadataReference) (access : Access)
    (options : OperationOptions) :
    Except Error (Operation (Selected (Sequence Metadata)) Metadata) :=
  do
  let target ← prepareGetMetadata profile reference options
  withAccess profile access target options

def prepareReadAlgorithmConfig (profile : DeviceProfile) (options : OperationOptions) :
    Except Error (Sequence AlgorithmConfig) := do
  profile.algorithmConfigReadSupport.require
  prepare algorithmConfig options fun r => do
    r.ensureSuccess .command
    AlgorithmConfig.parse r.data

/-- An access that authenticates nothing with the management key and asserts nothing. -/
def withoutManagement : Access → Bool
  | .none => true
  | .pin _ => true
  | _ => false

/-- Firmware 3.0.x protects this read. -/
def readAlgorithmConfig (profile : DeviceProfile) (access : Access) (options : OperationOptions) :
    Except Error (Operation (Selected (Sequence AlgorithmConfig)) AlgorithmConfig) := do
  let target ← prepareReadAlgorithmConfig profile options
  if (profile.capability .pivProtectedAlgorithmConfigRead).support = .supported ∧
      withoutManagement access then
    .error (.new .securityStatusNotSatisfied)
  else withAccess profile access target options

end PivMetadata
