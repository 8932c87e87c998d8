import LibCanokey.PivPrivate

/-! # Streaming signatures

Full-message signing in an explicitly selected mode. The SM2 mode is chosen by a chained first
frame, so its outer tag is sent alone. -/
namespace PivStreaming

open BigEndian CheckedCursor ProtocolError ProtocolApdu ProtocolConversation ProtocolOperation
open ProtocolTlv ProtocolTlvFields CompatProfile PivCommand PivAccess PivKeys PivPrivate

inductive StreamingSignInput where
  | mlDsa65 (message : Bytes)
  | ed25519Randomized (message : Bytes)
  | sm2 (message : Bytes) (userId : Option Bytes)
  deriving DecidableEq, Repr

def StreamingSignInput.algorithm : StreamingSignInput → Algorithm
  | .mlDsa65 _ => .mlDsa65
  | .ed25519Randomized _ => .ed25519
  | .sm2 _ _ => .sm2

def StreamingSignInput.message : StreamingSignInput → Bytes
  | .mlDsa65 message | .ed25519Randomized message | .sm2 message _ => message

def StreamingSignInput.userId : StreamingSignInput → Option Bytes
  | .sm2 _ userId => userId
  | _ => none

def StreamingSignInput.inputLen : StreamingSignInput → ℕ
  | .mlDsa65 message | .ed25519Randomized message => message.length
  | .sm2 message userId => saturatingAdd message.length (userId.elim 0 List.length)

structure StreamingMachine where
  initial : Option LogicalCommand
  awaitingPrefix : Bool
  target : Sequence Signature

def StreamingMachine.targetNext (s : StreamingMachine) (response : Option ResponseData) :
    Except Error (Action Signature) × StreamingMachine :=
  ((s.target.next response).1, { s with target := (s.target.next response).2 })

/-- The prefix must be acknowledged by an empty 9000. -/
def acknowledged (response : Option ResponseData) : Except Error Unit :=
  match response with
  | none => .error (.new .protocolViolation)
  | some r => do
    r.ensureSuccess .conversation
    if r.data ≠ [] then .error (conversationError .protocolViolation) else .ok ()

def StreamingMachine.next (s : StreamingMachine) (response : Option ResponseData) :
    Except Error (Action Signature) × StreamingMachine :=
  match s.initial with
  | some command => (.ok (.command command), { s with initial := none, awaitingPrefix := true })
  | none =>
    if s.awaitingPrefix then
      match acknowledged response with
      | .error e => (.error e, s)
      | .ok () => { s with awaitingPrefix := false }.targetNext none
    else s.targetNext response

def streaming : Machine StreamingMachine Signature where
  next := StreamingMachine.next

def maxStreamingMessage : ℕ := 65520

/-- The randomized Ed25519 mode has an identifier of its own. -/
def wireMode (algorithm : Algorithm) (id : UInt8) : UInt8 :=
  if algorithm = .ed25519 then 0xff else id

/-- An optional identity of 1 to 32 bytes. -/
def identity : Option Bytes → Except Error Unit
  | none => .ok ()
  | some id => if id = [] ∨ id.length > 32 then .error invalidArgument else .ok ()

def identityField (tag : UInt8) : Option Bytes → List (Bytes × Bytes)
  | none => []
  | some id => [([tag], id)]

def streamingTemplate (input : StreamingSignInput) (options : OperationOptions) :
    Except Error Bytes := do
  identity input.userId
  let inner ← pushTags (.new (min options.limits.maxInputBytes 65535))
    (identityField 0x80 input.userId ++ [([0x82], []), ([0x81], input.message)])
  let outer ← pushTag (.new options.limits.maxInputBytes) [0x7c] inner.bytes
  .ok outer.bytes

/-- The outer tag alone, as a chained frame. -/
def prefixCommand (id : UInt8) (slot : Slot) : LogicalCommand :=
  { keyCommand 0x87 id slot.reference [0x7c] with
    header := ⟨0x10, 0x87, id, slot.reference⟩
    allowChaining := false
    allowExtended := false
    continuation := .none }

def streamingPrefix (algorithm : Algorithm) (id : UInt8) (slot : Slot)
    (options : OperationOptions) : Except Error (Option LogicalCommand) :=
  if algorithm = .sm2 then do
    validateCommand (prefixCommand id slot) options
    .ok (some (prefixCommand id slot))
  else .ok none

/-- What is left to send after the prefix. -/
def remainingTemplate (algorithm : Algorithm) (template : Bytes) : Bytes :=
  if algorithm = .sm2 then template.drop 1 else template

def streamingCommand (id : UInt8) (slot : Slot) (data : Bytes) : LogicalCommand :=
  { keyCommand 0x87 id slot.reference data with allowExtended := false }

def streamingEncoding (algorithm : Algorithm) : SignatureEncoding :=
  if algorithm = .sm2 then .p1363 else .raw

def streamingTarget (der : EcDer) (algorithm : Algorithm) (id : UInt8) (slot : Slot)
    (template : Bytes) (options : OperationOptions) : Except Error StreamingMachine := do
  let initial ← streamingPrefix algorithm id slot options
  let target ← prepare (streamingCommand id slot (remainingTemplate algorithm template)) options
    (parseSignature der algorithm (streamingEncoding algorithm)
      options.limits.maxTotalResponseBytes)
  .ok { initial := initial, awaitingPrefix := false, target := target }

def prepareSignStreaming (der : EcDer) (profile : DeviceProfile) (slot : Slot)
    (input : StreamingSignInput) (options : OperationOptions) :
    Except Error StreamingMachine := do
  let _ ← options.validate
  (profile.streamingSigningSupport input.algorithm).require
  let id ← keyId profile slot input.algorithm
  if input.inputLen > min options.limits.maxInputBytes maxStreamingMessage then
    .error limitExceeded
  else
    let template ← streamingTemplate input options
    streamingTarget der input.algorithm (wireMode input.algorithm id) slot template options

def signStreaming (der : EcDer) (profile : DeviceProfile) (slot : Slot)
    (input : StreamingSignInput) (access : Access) (options : OperationOptions) :
    Except Error (Operation (Selected StreamingMachine) Signature) := do
  let target ← prepareSignStreaming der profile slot input options
  withAccess profile access target options

end PivStreaming
