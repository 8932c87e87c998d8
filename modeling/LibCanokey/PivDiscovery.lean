import LibCanokey.PivRandom

/-! # Discovery of a PIV application

The probes of a selected transaction, which need no profile, and the empty VERIFY, whose answer
says what is known of the PIN. -/
namespace PivDiscovery

open BigEndian ListTraversal ProtocolError ProtocolApdu ProtocolConversation ProtocolOperation
open ProtocolTlv CompatProfile PivCommand PivRandom

variable {T : Type}

def single (command : LogicalCommand) (phase : Phase) (options : OperationOptions)
    (parse : ResponseData → Except Error T) : Except Error (Operation (Sequence T) T) := do
  let options ← options.validate
  validateCommand command options
  Operation.fromMachine ⟨[request command phase none], none, some parse⟩ options

def selectApplication (options : OperationOptions) :
    Except Error (Operation (Sequence Bytes) Bytes) :=
  single { select with le := .exact 256 } .select options fun response => do
    response.ensureSuccess .select
    .ok response.data

def readVersionSelected (options : OperationOptions) :
    Except Error (Operation (Sequence Bytes) Bytes) :=
  single version .command options fun response => do
    let _ ← versionReply response
    .ok response.data

def readConfigurationSelected (options : OperationOptions) :
    Except Error (Operation (Sequence AlgorithmConfig) AlgorithmConfig) :=
  single algorithmConfig .command options fun response => do
    response.ensureSuccess .command
    (AlgorithmConfig.parse response.data).mapError fun e => e.atPhase .parsing

/-- What is not observed is unknown. -/
structure PinStatus where
  verified : Option Bool
  retriesRemaining : Option UInt8
  retriesTotal : Option UInt8
  blocked : Bool
  deriving DecidableEq, Repr

def readPinStatus (r : ResponseData) : Except Error PinStatus :=
  if r.data ≠ [] then .error (.new .invalidResponse)
  else if r.status.raw = 0x9000 then .ok ⟨some true, none, none, false⟩
  else if r.status.raw = 0x6983 then .ok ⟨some false, some 0, none, true⟩
  else if r.status.raw &&& 0xfff0 = 0x63c0 then
    .ok ⟨some false, some (r.status.raw &&& 15).toUInt8, none, false⟩
  else .error (authError r.status .pin)

def getPinStatus (profile : DeviceProfile) (options : OperationOptions) :
    Except Error (Operation (Sequence PinStatus) PinStatus) := do
  require profile
  make profile (selected pinStatus) options readPinStatus

def getPinStatusSelected (options : OperationOptions) :
    Except Error (Operation (Sequence PinStatus) PinStatus) :=
  single pinStatus .command options readPinStatus

end PivDiscovery
