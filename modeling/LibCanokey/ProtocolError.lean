import Mathlib.Data.Nat.Basic

/-! # Structured protocol failures

The error record of the protocol crate and its status classification. Message texts are
derived from `kind` and `phase` alone, so they are not carried. -/
namespace ProtocolError

/-- Raw SW1/SW2, SW1 in the high byte. -/
structure StatusWord where
  raw : UInt16
  deriving DecidableEq, Repr

def StatusWord.isSuccess (sw : StatusWord) : Bool := sw.raw == 0x9000

inductive ErrorKind where
  | invalidArgument
  | invalidPin
  | invalidResponse
  | protocolViolation
  | limitExceeded
  | authenticationFailed
  | deviceAuthenticationFailed
  | pinBlocked
  | securityStatusNotSatisfied
  | conditionsNotSatisfied
  | notFound
  | unsupportedDevice
  | unsupportedFeature
  | unsupportedAlgorithm
  | capabilityUnknown
  | unsupportedProtocolVersion
  | unexpectedStatusWord
  | operationStateError
  deriving DecidableEq, Repr

inductive Phase where
  | construction
  | select
  | command
  | authentication
  | parsing
  | conversation
  deriving DecidableEq, Repr

inductive SecretReference where
  | pin
  | puk
  | managementKey
  | adminPin
  | oathAccess
  | pw1Sign
  | pw1Other
  | pw3
  | resetCode
  deriving DecidableEq, Repr

structure Error where
  kind : ErrorKind
  phase : Phase
  statusWord : Option StatusWord
  applicationStatus : Option UInt8
  reference : Option SecretReference
  retriesRemaining : Option UInt8
  deriving DecidableEq, Repr

def Error.new (kind : ErrorKind) : Error := ⟨kind, .construction, none, none, none, none⟩

/-- `Error::at`; the source's name is a keyword here. -/
def Error.atPhase (e : Error) (phase : Phase) : Error := { e with phase := phase }

def SecretReference.isPin : SecretReference → Bool
  | .pin | .puk | .adminPin | .pw1Sign | .pw1Other | .pw3 | .resetCode => true
  | .managementKey | .oathAccess => false

/-- The arms are tried in the order of the source. -/
def statusKind (sw : StatusWord) (phase : Phase) (reference : Option SecretReference) :
    ErrorKind :=
  if sw.raw = 0x6983 ∧ reference.any SecretReference.isPin then .pinBlocked
  else if sw.raw = 0x6982 then .securityStatusNotSatisfied
  else if sw.raw = 0x6985 then .conditionsNotSatisfied
  else if (sw.raw = 0x6a82 ∨ sw.raw = 0x6a88) ∧ phase = .select then .unsupportedDevice
  else if sw.raw = 0x6a82 ∨ sw.raw = 0x6a88 then .notFound
  else if sw.raw = 0x6d00 ∨ sw.raw = 0x6e00 then .unsupportedFeature
  else if sw.raw &&& 0xfff0 = 0x63c0 ∧ reference.isSome then .authenticationFailed
  else .unexpectedStatusWord

def Error.status (sw : StatusWord) (phase : Phase) (reference : Option SecretReference) :
    Error :=
  { kind := statusKind sw phase reference
    phase := phase
    statusWord := some sw
    applicationStatus := none
    reference := reference
    retriesRemaining :=
      if reference.any SecretReference.isPin ∧ sw.raw &&& 0xfff0 = 0x63c0 then
        some (sw.raw &&& 15).toUInt8
      else none }

end ProtocolError
