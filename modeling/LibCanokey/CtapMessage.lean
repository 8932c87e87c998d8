import LibCanokey.CtapValue
import LibCanokey.ProtocolOperation

/-! # CTAP messages over ISO 7816

SELECT and the message command, the sequence of the two that a typed operation runs, the CTAP
status byte and the authentication of messages with a token. SHA-256 and HMAC-SHA-256 are
uninterpreted. -/
namespace CtapMessage

open BigEndian ListTraversal ProtocolError ProtocolApdu ProtocolConversation ProtocolOperation
open CtapCbor

def fido2Aid : Bytes := [0xa0, 0x00, 0x00, 0x06, 0x47, 0x2f, 0x00, 0x01]

def select : LogicalCommand :=
  { header := ⟨0x00, 0xa4, 0x04, 0x00⟩, data := fido2Aid, le := .absent }

def msg (message : Bytes) : LogicalCommand :=
  { header := ⟨0x80, 0x10, 0x00, 0x00⟩
    data := message
    le := .absent
    allowChaining := true
    allowExtended := true
    continuation := .iso7816 0x80 }

structure CtapStatus where
  raw : UInt8
  deriving DecidableEq, Repr

def CtapStatus.isSuccess (status : CtapStatus) : Bool := status.raw == 0x00

def CtapStatus.kind (status : CtapStatus) : ErrorKind :=
  if status.raw ∈ ([0x31, 0x37] : Bytes) then .invalidPin
  else if status.raw ∈ ([0x32, 0x34] : Bytes) then .pinBlocked
  else if status.raw = 0x33 then .authenticationFailed
  else if status.raw ∈ ([0x35, 0x36] : Bytes) then .securityStatusNotSatisfied
  else if status.raw ∈ ([0x2e, 0x22] : Bytes) then .notFound
  else if status.raw ∈ ([0x19, 0x27, 0x2d, 0x2f, 0x30, 0x3b] : Bytes) then .conditionsNotSatisfied
  else if status.raw = 0x26 then .unsupportedAlgorithm
  else if status.raw ∈ ([0x2b, 0x2c] : Bytes) then .unsupportedFeature
  else if status.raw ∈ ([0x15, 0x18, 0x28, 0x39] : Bytes) then .limitExceeded
  else if status.raw ∈ ([0x11, 0x12, 0x14] : Bytes) then .protocolViolation
  else .unexpectedStatusWord

/-- `into_error` as the failure it is used for. -/
def CtapStatus.ensure (status : CtapStatus) (phase : Phase) : Except Error Unit :=
  if status.isSuccess then .ok ()
  else .error { (Error.new status.kind).atPhase phase with applicationStatus := some status.raw }

theorem ensure_eq_ok {status : CtapStatus} {phase : Phase} :
    status.ensure phase = .ok () ↔ status = ⟨0x00⟩ := by
  obtain ⟨raw⟩ := status
  by_cases hraw : raw = 0x00
  · simp [CtapStatus.ensure, CtapStatus.isSuccess, hraw]
  · simp [CtapStatus.ensure, CtapStatus.isSuccess, hraw]

structure CtapResponse where
  status : CtapStatus
  payload : Bytes
  deriving DecidableEq

/-- The reassembled response as its status byte and payload. -/
def splitStatus (response : ResponseData) : Except Error CtapResponse := do
  response.ensureSuccess .command
  match response.data with
  | [] => .error invalid
  | status :: payload => .ok ⟨⟨status⟩, payload⟩

variable {T : Type}

def typed (response : CtapResponse) (parse : Bytes → Except Error T) : Except Error T := do
  response.status.ensure .command
  parse response.payload

def emptyPayload (bytes : Bytes) : Except Error Unit :=
  if bytes = [] then .ok () else .error invalid

/-- The decoded payload of a response. -/
def decoded (bytes : Bytes) : Except Error Value :=
  match parse bytes with
  | .ok value => .ok value
  | .error (.refused e) => .error e
  | .error .panicked => .error invalid

structure Request where
  command : LogicalCommand
  phase : Phase

/-- Requests answered in order; the last answer goes to the parser, which is used once. -/
structure Sequence (T : Type) where
  pending : List Request
  current : Option Phase
  parse : Option (ResponseData → Except Error T)

def Sequence.pop (s : Sequence T) : Except Error (Action T) × Sequence T :=
  match s.pending with
  | [] => (.error (.new .protocolViolation), s)
  | req :: rest =>
    (.ok (.command req.command), { s with pending := rest, current := some req.phase })

def Sequence.finish (s : Sequence T) (response : ResponseData) :
    Except Error (Action T) × Sequence T :=
  match s.parse with
  | none => (.error stateError, s)
  | some parse => ((parse response).map .done, { s with parse := none })

def Sequence.next (s : Sequence T) (response : Option ResponseData) :
    Except Error (Action T) × Sequence T :=
  match response with
  | none => s.pop
  | some response =>
    if s.pending = [] then s.finish response
    else match s.current with
      | none => (.error (.new .protocolViolation), s)
      | some phase =>
        if response.status.isSuccess then s.pop
        else (.error (.status response.status phase none), s)

def sequence (T : Type) : Machine (Sequence T) T where
  next := Sequence.next

def checkedMessage (message : Bytes) (options : OperationOptions) : Except Error Unit :=
  if message = [] then .error (.new .invalidArgument)
  else if message.length > options.limits.maxInputBytes then .error (.new .limitExceeded)
  else .ok ()

/-- SELECT, then one message whose response a typed parser reads. -/
def selectThen (message : Bytes) (options : OperationOptions)
    (parse : CtapResponse → Except Error T) : Except Error (Operation (Sequence T) T) := do
  let options ← options.validate
  checkedMessage message options
  validateCommand select options
  validateCommand (msg message) options
  Operation.fromMachine
    ⟨[⟨select, .select⟩, ⟨msg message, .command⟩], none,
      some fun response => do parse (← splitStatus response)⟩ options

/-- SHA-256 and HMAC-SHA-256, of which only the length of the output is used. -/
structure Hashes where
  sha256 : Bytes → {b : Bytes // b.length = 32}
  hmac : Bytes → Bytes → {b : Bytes // b.length = 32}

inductive PinUvAuthProtocol where
  | v1
  | v2
  deriving DecidableEq, Repr

def PinUvAuthProtocol.toU8 : PinUvAuthProtocol → UInt8
  | .v1 => 1
  | .v2 => 2

def authenticate (hashes : Hashes) (protocol : PinUvAuthProtocol) (key message : Bytes) : Bytes :=
  let key := if protocol = .v2 ∧ key.length > 32 then key.take 32 else key
  let tag := (hashes.hmac key message).1
  if protocol = .v1 then tag.take 16 else tag

structure PinToken where
  token : Bytes

def PinToken.authenticate (hashes : Hashes) (token : PinToken) (protocol : PinUvAuthProtocol)
    (message : Bytes) : Bytes :=
  CtapMessage.authenticate hashes protocol token.token message

theorem length_authenticate (hashes : Hashes) (token : PinToken) (protocol : PinUvAuthProtocol)
    (message : Bytes) : (token.authenticate hashes protocol message).length ≤ 32 := by
  have htag (key : Bytes) := (hashes.hmac key message).2
  rw [PinToken.authenticate, CtapMessage.authenticate]
  split_ifs <;> simp [htag]

def uint (n : ℕ) : Value := .unsigned (UInt64.ofNat n)

end CtapMessage
