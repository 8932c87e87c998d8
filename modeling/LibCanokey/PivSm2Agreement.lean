import LibCanokey.PivStreaming

/-! # SM2 key agreement

Agreement with pre-exchanged peer keys. An initiator reads the policy of its key before it lets
the card make an ephemeral key. -/
namespace PivSm2Agreement

open BigEndian CheckedCursor ProtocolError ProtocolApdu ProtocolConversation ProtocolOperation
open ProtocolTlv ProtocolTlvFields CompatProfile PivCommand PivAccess PivMetadata PivKeys
open PivPrivate PivStreaming

inductive Sm2Role where
  | initiator
  | responder
  deriving DecidableEq, Repr

structure Sm2AgreementInput where
  role : Sm2Role
  peerStatic : Bytes
  peerEphemeral : Bytes
  userId : Option Bytes
  peerId : Option Bytes
  keyLen : UInt16
  deriving DecidableEq, Repr

def Sm2AgreementInput.inputLen (input : Sm2AgreementInput) : ℕ :=
  saturatingAdd
    (saturatingAdd (saturatingAdd input.peerStatic.length input.peerEphemeral.length)
      (input.userId.elim 0 List.length))
    (input.peerId.elim 0 List.length)

structure Sm2Agreement where
  ephemeralPublic : Bytes
  key : Bytes
  deriving DecidableEq, Repr

def sm2Point (point : PointCheck) (bytes : Bytes) : Bool :=
  bytes.length == 65 && bytes.head? == some 4 && point .sm2 bytes

/-- A chained first command would select signing. -/
def agreementCommand (id : UInt8) (slot : Slot) (data : Bytes) : LogicalCommand :=
  { keyCommand 0x87 id slot.reference data with allowChaining := false, allowExtended := false }

def ga (id : UInt8) (slot : Slot) (inner : Bytes) (options : OperationOptions) :
    Except Error LogicalCommand := do
  let outer ← pushTag (.new options.limits.maxInputBytes) [0x7c] inner
  validateCommand (agreementCommand id slot outer.bytes) options
  .ok (agreementCommand id slot outer.bytes)

/-- The values of exactly the given tags, in order. -/
def readTags : List UInt8 → TlvReader → Except Error (List Bytes)
  | [], reader =>
    match reader.next with
    | .error e => .error e
    | .ok (none, _) => .ok []
    | .ok (some _, _) => .error malformed
  | tag :: tags, reader =>
    match reader.next with
    | .error e => .error e
    | .ok (none, _) => .error malformed
    | .ok (some field, rest) =>
      if field.tag.value ≠ tag.toNat then .error malformed
      else (readTags tags rest).map (field.value :: ·)

def fields (r : ResponseData) (tags : List UInt8) (limit : ℕ) : Except Error (List Bytes) := do
  r.ensureSuccess .command
  let outer ← sole (.newBer r.data { maxValueBytes := limit })
    (fun field => field.tag.value == 0x7c) malformed
  let inner ← outer.children
  readTags tags inner

structure AgreementMachine where
  preflight : Option (Sequence Metadata)
  first : Option LogicalCommand
  finish : Option LogicalCommand
  ephemeral : Option Bytes
  role : Sm2Role
  keyLen : ℕ
  limit : ℕ

abbrev AgreementTurn := Except Error (Action Sm2Agreement) × AgreementMachine

/-- The one value of a reply. -/
def soleValue (r : ResponseData) (limit : ℕ) : Except Error Bytes := do
  let values ← fields r [0x82] limit
  .ok (values.getD 0 [])

def ephemeralPoint (point : PointCheck) (limit : ℕ) (r : ResponseData) : Except Error Bytes := do
  let ephemeral ← soleValue r limit
  if sm2Point point ephemeral then .ok ephemeral else .error malformed

/-- The card's first answer to an initiator holds its ephemeral point. -/
def AgreementMachine.exchanged (point : PointCheck) (s : AgreementMachine) (r : ResponseData) :
    AgreementTurn :=
  match ephemeralPoint point s.limit r with
  | .error e => (.error e, s)
  | .ok ephemeral =>
    match s.finish with
    | none => (.error malformed, { s with ephemeral := some ephemeral })
    | some finish =>
      (.ok (.command finish), { s with ephemeral := some ephemeral, finish := none })

/-- A responder's answer holds its point and the key. -/
def responderResult (r : ResponseData) (limit : ℕ) : Except Error Sm2Agreement := do
  let values ← fields r [0x82, 0x85] limit
  .ok ⟨values.getD 0 [], values.getD 1 []⟩

def checkAgreement (point : PointCheck) (keyLen : ℕ) (result : Sm2Agreement) :
    Except Error Sm2Agreement :=
  if ¬ sm2Point point result.ephemeralPublic ∨ result.key.length ≠ keyLen then .error malformed
  else .ok result

def AgreementMachine.responderNext (point : PointCheck) (s : AgreementMachine)
    (r : ResponseData) : AgreementTurn :=
  match responderResult r s.limit with
  | .error e => (.error e, s)
  | .ok result => ((checkAgreement point s.keyLen result).map .done, s)

/-- The key agreed with the ephemeral point that the card sent before. -/
def AgreementMachine.initiatorNext (point : PointCheck) (s : AgreementMachine)
    (ephemeral : Bytes) (r : ResponseData) : AgreementTurn :=
  match soleValue r s.limit with
  | .error e => (.error e, s)
  | .ok key =>
    ((checkAgreement point s.keyLen ⟨ephemeral, key⟩).map .done, { s with ephemeral := none })

def AgreementMachine.answered (point : PointCheck) (s : AgreementMachine) (r : ResponseData) :
    AgreementTurn :=
  match s.role, s.ephemeral with
  | .responder, _ => s.responderNext point r
  | .initiator, none => s.exchanged point r
  | .initiator, some ephemeral => s.initiatorNext point ephemeral r

def AgreementMachine.commandNext (point : PointCheck) (s : AgreementMachine)
    (response : Option ResponseData) : AgreementTurn :=
  match s.first with
  | some first => (.ok (.command first), { s with first := none })
  | none =>
    match response with
    | none => (.error (.new .protocolViolation), s)
    | some r => s.answered point r

/-- VERIFY before the second command would destroy the state of the agreement. -/
def agreementPolicy (metadata : Metadata) : Except Error Unit :=
  match metadata.fields.pinPolicy with
  | some (.known .never) | some (.known .once) => .ok ()
  | some (.known .always) => .error (.new .unsupportedFeature)
  | _ => .error (.new .capabilityUnknown)

def AgreementMachine.next (point : PointCheck) (s : AgreementMachine)
    (response : Option ResponseData) : AgreementTurn :=
  match s.preflight with
  | none => s.commandNext point response
  | some preflight =>
    match preflight.next response with
    | (.error e, preflight) => (.error e, { s with preflight := some preflight })
    | (.ok (.command c), preflight) =>
      (.ok (.command c), { s with preflight := some preflight })
    | (.ok (.done metadata), preflight) =>
      match agreementPolicy metadata with
      | .error e => (.error e, { s with preflight := some preflight })
      | .ok () => { s with preflight := none }.commandNext point none

def agreementMachine (point : PointCheck) : Machine AgreementMachine Sm2Agreement where
  next := AgreementMachine.next point

def agreementSlot : Slot → Bool
  | .keyManagement | .retired _ => true
  | _ => false

def checkInput (point : PointCheck) (slot : Slot) (input : Sm2AgreementInput)
    (options : OperationOptions) : Except Error Unit := do
  if ¬ agreementSlot slot ∨ ¬ sm2Point point input.peerStatic ∨
      ¬ sm2Point point input.peerEphemeral ∨ ¬ (1 ≤ input.keyLen ∧ input.keyLen ≤ 128) then
    .error invalidArgument
  else
    identity input.userId
    identity input.peerId
    if input.inputLen > options.limits.maxInputBytes then .error limitExceeded else .ok ()

/-- The peer's keys, its identity and the length of the key. -/
def exchangeFields (input : Sm2AgreementInput) : List (Bytes × Bytes) :=
  [([0x86], input.peerStatic), ([0x87], input.peerEphemeral)] ++
    identityField 0x88 input.peerId ++ [([0x89], toBeBytes 2 input.keyLen.toNat)]

/-- The identity of a responder goes with the only command it sends. -/
def ownIdentity (input : Sm2AgreementInput) : List (Bytes × Bytes) :=
  match input.role with
  | .responder => identityField 0x80 input.userId
  | .initiator => []

def finishCommand (id : UInt8) (slot : Slot) (input : Sm2AgreementInput)
    (options : OperationOptions) : Except Error LogicalCommand := do
  let exp ← pushTags (.new options.limits.maxInputBytes) (exchangeFields input)
  let inner ← pushTags (.new options.limits.maxInputBytes)
    (ownIdentity input ++ [([0x82], []), ([0x85], exp.bytes)])
  ga id slot inner.bytes options

def AgreementMachine.new (input : Sm2AgreementInput) (options : OperationOptions)
    (preflight : Option (Sequence Metadata)) (first : LogicalCommand)
    (finish : Option LogicalCommand) : AgreementMachine :=
  { preflight := preflight
    first := some first
    finish := finish
    ephemeral := none
    role := input.role
    keyLen := input.keyLen.toNat
    limit := options.limits.maxTotalResponseBytes }

def initiatorMachine (profile : DeviceProfile) (id : UInt8) (slot : Slot)
    (input : Sm2AgreementInput) (finish : LogicalCommand) (options : OperationOptions) :
    Except Error AgreementMachine := do
  let inner ← pushTags (.new options.limits.maxInputBytes)
    (identityField 0x80 input.userId ++ [([0x82], [])])
  let preflight ← prepareGetMetadata profile (.key slot) options
  let first ← ga id slot inner.bytes options
  .ok (.new input options (some preflight) first (some finish))

def prepareAgreement (point : PointCheck) (profile : DeviceProfile) (slot : Slot)
    (input : Sm2AgreementInput) (options : OperationOptions) : Except Error AgreementMachine := do
  let _ ← options.validate
  (profile.capability .sm2Agreement).require
  let id ← keyId profile slot .sm2
  checkInput point slot input options
  let finish ← finishCommand id slot input options
  match input.role with
  | .initiator => initiatorMachine profile id slot input finish options
  | .responder => .ok (.new input options none finish none)

def agreeSm2 (point : PointCheck) (profile : DeviceProfile) (slot : Slot)
    (input : Sm2AgreementInput) (access : Access) (options : OperationOptions) :
    Except Error (Operation (Selected AgreementMachine) Sm2Agreement) := do
  let target ← prepareAgreement point profile slot input options
  withAccess profile access target options

end PivSm2Agreement
