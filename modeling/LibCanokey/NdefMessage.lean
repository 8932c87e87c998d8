import LibCanokey.ProtocolOperation

/-! # NDEF message reads and writes

The capability container, the three machines over it and their factories, as the NDEF
crate computes them. A zeroizing buffer is its byte list. -/
namespace NdefMessage

open BigEndian ListTraversal ProtocolError ProtocolApdu ProtocolConversation ProtocolOperation

def ndefAid : Bytes := [0xd2, 0x76, 0x00, 0x00, 0x85, 0x01, 0x01]
def ccFileId : UInt16 := 0xe103
def ccLen : ℕ := 15
def chunk : ℕ := 240
def maxMessageLength : ℕ := 1022

structure NdefCapability where
  fileId : UInt16
  maxMessageLength : ℕ
  readOnly : Bool
  deriving DecidableEq, Repr

def selectApplet : LogicalCommand :=
  { header := ⟨0x00, 0xa4, 0x04, 0x00⟩, data := ndefAid, le := .absent }

def selectFile (fileId : UInt16) : LogicalCommand :=
  { header := ⟨0x00, 0xa4, 0x00, 0x0c⟩, data := toBeBytes 2 fileId.toNat, le := .absent }

def readBinary (offset : UInt16) (length : ℕ) : LogicalCommand :=
  { header := ⟨0x00, 0xb0, (offset >>> 8).toUInt8, offset.toUInt8⟩
    data := []
    le := .exact (length % 2 ^ 32) }

def updateBinary (offset : UInt16) (data : Bytes) : LogicalCommand :=
  { header := ⟨0x00, 0xd6, (offset >>> 8).toUInt8, offset.toUInt8⟩, data := data, le := .absent }

def invalidResponse : Error := (Error.new .invalidResponse).atPhase .parsing

/-- A big-endian pair at a position of the container. -/
def pairAt (data : Bytes) (i : ℕ) : ℕ := ofBeBytes ((data.drop i).take 2)

def parseCc (data : Bytes) : Except Error NdefCapability :=
  if data.length ≠ ccLen ∨ data.getD 7 0 ≠ 0x04 ∨ data.getD 8 0 ≠ 0x06 then
    .error invalidResponse
  else if pairAt data 11 < 2 then .error invalidResponse
  else .ok
    { fileId := UInt16.ofNat (pairAt data 9)
      maxMessageLength := min (pairAt data 11 - 2) maxMessageLength
      readOnly := data.getD 14 0 != 0 }

def readChunk (options : OperationOptions) : ℕ := min chunk (options.exchange.maxResponseBytes - 2)

def writeChunk (options : OperationOptions) : Except Error ℕ :=
  let size := min chunk (options.exchange.maxCommandBytes - 6)
  if size = 0 then .error (.new .limitExceeded) else .ok size

inductive ReadStep where
  | selectApplet
  | selectCc
  | readCc
  | selectNdef
  | readNlen
  | message
  deriving DecidableEq, Repr

/-- One turn of a machine that takes in a response, if any, and then issues a command. -/
def turn {σ T : Type} (absorb : σ → ResponseData → Except Error (Option T × σ))
    (command : σ → Except Error LogicalCommand) (m : σ) :
    Option ResponseData → Except Error (Action T) × σ
  | none => ((command m).map .command, m)
  | some r =>
    match absorb m r with
    | .error e => (.error e, m)
    | .ok (some value, m) => (.ok (.done value), m)
    | .ok (none, m) => ((command m).map .command, m)

structure CapabilityMachine where
  step : ReadStep
  deriving DecidableEq, Repr

def CapabilityMachine.command (m : CapabilityMachine) : Except Error LogicalCommand :=
  match m.step with
  | .selectApplet => .ok NdefMessage.selectApplet
  | .selectCc => .ok (selectFile ccFileId)
  | .readCc => .ok (readBinary 0 ccLen)
  | _ => .error (.new .protocolViolation)

def CapabilityMachine.absorb (m : CapabilityMachine) (r : ResponseData) :
    Except Error (Option NdefCapability × CapabilityMachine) :=
  match m.step with
  | .selectApplet => do
    r.ensureSuccess .select
    .ok (none, { m with step := .selectCc })
  | .selectCc => do
    r.ensureSuccess .command
    .ok (none, { m with step := .readCc })
  | .readCc => do
    r.ensureSuccess .command
    .ok (some (← parseCc r.data), m)
  | _ => .error (.new .protocolViolation)

def capabilityMachine : Machine CapabilityMachine NdefCapability where
  next := turn CapabilityMachine.absorb CapabilityMachine.command

structure ReadMachine where
  step : ReadStep
  chunk : ℕ
  fileId : UInt16
  maxMessage : ℕ
  offset : ℕ
  remaining : ℕ
  bytes : Bytes
  deriving DecidableEq, Repr

def ReadMachine.command (m : ReadMachine) : LogicalCommand :=
  match m.step with
  | .selectApplet => NdefMessage.selectApplet
  | .selectCc => selectFile ccFileId
  | .readCc => readBinary 0 ccLen
  | .selectNdef => selectFile m.fileId
  | .readNlen => readBinary 0 2
  | .message => readBinary (UInt16.ofNat m.offset) (min m.remaining m.chunk)

def ReadMachine.absorb (m : ReadMachine) (r : ResponseData) :
    Except Error (Option Bytes × ReadMachine) :=
  match m.step with
  | .selectApplet => do
    r.ensureSuccess .select
    .ok (none, { m with step := .selectCc })
  | .selectCc => do
    r.ensureSuccess .command
    .ok (none, { m with step := .readCc })
  | .readCc => do
    r.ensureSuccess .command
    let capability ← parseCc r.data
    .ok (none,
      { m with
        fileId := capability.fileId
        maxMessage := capability.maxMessageLength
        step := .selectNdef })
  | .selectNdef => do
    r.ensureSuccess .command
    .ok (none, { m with step := .readNlen })
  | .readNlen => do
    r.ensureSuccess .command
    if r.data.length ≠ 2 then .error invalidResponse
    else if ofBeBytes r.data > m.maxMessage then .error invalidResponse
    else
      let m' := { m with remaining := ofBeBytes r.data, offset := 2, step := .message }
      if ofBeBytes r.data = 0 then .ok (some [], m') else .ok (none, m')
  | .message => do
    r.ensureSuccess .command
    let want := min m.remaining m.chunk
    if r.data.length ≠ want then .error invalidResponse
    else
      let m' :=
        { m with
          bytes := m.bytes ++ r.data
          remaining := m.remaining - want
          offset := m.offset + want }
      if m.remaining - want = 0 then .ok (some m'.bytes, { m' with bytes := [] })
      else .ok (none, m')

def readMachine : Machine ReadMachine Bytes where
  next := turn ReadMachine.absorb fun m => .ok m.command

inductive WriteStep where
  | selectApplet
  | selectCc
  | readCc
  | selectNdef
  | zeroLength
  | message
  | finalLength
  deriving DecidableEq, Repr

structure WriteMachine where
  step : WriteStep
  message : Bytes
  chunk : ℕ
  fileId : UInt16
  offset : ℕ
  deriving DecidableEq, Repr

/-- The length of the chunk at the current offset. -/
def WriteMachine.take (m : WriteMachine) : ℕ := min (m.message.length - m.offset) m.chunk

def WriteMachine.command (m : WriteMachine) : LogicalCommand :=
  match m.step with
  | .selectApplet => NdefMessage.selectApplet
  | .selectCc => selectFile ccFileId
  | .readCc => readBinary 0 ccLen
  | .selectNdef => selectFile m.fileId
  | .zeroLength => updateBinary 0 [0, 0]
  | .message =>
    updateBinary (2 + UInt16.ofNat m.offset) ((m.message.drop m.offset).take m.take)
  | .finalLength => updateBinary 0 (toBeBytes 2 m.message.length)

def WriteMachine.absorb (m : WriteMachine) (r : ResponseData) :
    Except Error (Option Unit × WriteMachine) :=
  match m.step with
  | .selectApplet => do
    r.ensureSuccess .select
    .ok (none, { m with step := .selectCc })
  | .selectCc => do
    r.ensureSuccess .command
    .ok (none, { m with step := .readCc })
  | .readCc => do
    r.ensureSuccess .command
    let capability ← parseCc r.data
    if capability.readOnly then
      .error ((Error.new .securityStatusNotSatisfied).atPhase .command)
    else if m.message.length > capability.maxMessageLength then
      .error ((Error.new .limitExceeded).atPhase .command)
    else .ok (none, { m with fileId := capability.fileId, step := .selectNdef })
  | .selectNdef => do
    r.ensureSuccess .command
    .ok (none, { m with step := .zeroLength })
  | .zeroLength => do
    r.ensureSuccess .command
    .ok (none, { m with step := if m.message.isEmpty then .finalLength else .message })
  | .message => do
    r.ensureSuccess .command
    let offset := m.offset + m.take
    .ok (none,
      { m with
        offset := offset
        step := if offset = m.message.length then .finalLength else .message })
  | .finalLength => do
    r.ensureSuccess .command
    .ok (some (), m)

def writeMachine : Machine WriteMachine Unit where
  next := turn WriteMachine.absorb fun m => .ok m.command

def readCapability (options : OperationOptions) :
    Except Error (Operation CapabilityMachine NdefCapability) := do
  let options ← options.validate
  if options.limits.maxTotalResponseBytes < ccLen ∨ options.limits.maxExchanges < 3 then
    .error (.new .limitExceeded)
  else
    validateCommand (readBinary 0 ccLen) options
    Operation.fromMachine { step := .selectApplet } options

def ReadMachine.initial (chunk : ℕ) : ReadMachine :=
  { step := .selectApplet
    chunk := chunk
    fileId := 0
    maxMessage := maxMessageLength
    offset := 0
    remaining := 0
    bytes := [] }

def readMessage (options : OperationOptions) : Except Error (Operation ReadMachine Bytes) := do
  let options ← options.validate
  if options.limits.maxTotalResponseBytes < ccLen + 2 + maxMessageLength then
    .error (.new .limitExceeded)
  else if options.limits.maxExchanges < 5 + divCeil maxMessageLength (readChunk options) then
    .error (.new .limitExceeded)
  else
    validateCommand (readBinary 0 ccLen) options
    Operation.fromMachine (ReadMachine.initial (readChunk options)) options

def WriteMachine.initial (message : Bytes) (chunk : ℕ) : WriteMachine :=
  { step := .selectApplet, message := message, chunk := chunk, fileId := 0, offset := 0 }

def validateFirstChunk (message : Bytes) (size : ℕ) (options : OperationOptions) :
    Except Error Unit :=
  if message ≠ [] then
    validateCommand (updateBinary 2 (message.take (min message.length size))) options
  else .ok ()

def writeMessage (message : Bytes) (options : OperationOptions) :
    Except Error (Operation WriteMachine Unit) := do
  let options ← options.validate
  if message.length > maxMessageLength then .error (.new .invalidArgument)
  else
    let size ← writeChunk options
    if options.limits.maxExchanges < 6 + divCeil message.length size ∨
        options.limits.maxTotalResponseBytes < ccLen then
      .error (.new .limitExceeded)
    else
      validateCommand (readBinary 0 ccLen) options
      validateCommand (updateBinary 0 [0, 0]) options
      validateFirstChunk message size options
      Operation.fromMachine (WriteMachine.initial message size) options

theorem turn_command {σ T : Type} {absorb : σ → ResponseData → Except Error (Option T × σ)}
    {command : σ → LogicalCommand} {m m' : σ} {input : Option ResponseData} {c : LogicalCommand}
    (h : turn absorb (fun m => .ok (command m)) m input = (.ok (.command c), m')) :
    c = command m' ∧
      (input = none ∧ m' = m ∨ ∃ r, input = some r ∧ absorb m r = .ok (none, m')) := by
  cases input with
  | none =>
    cases h
    exact ⟨rfl, Or.inl ⟨rfl, rfl⟩⟩
  | some r =>
    simp only [turn] at h
    rcases ha : absorb m r with e | ⟨_ | v, m₁⟩ <;> rw [ha] at h <;> cases h
    exact ⟨rfl, Or.inr ⟨r, rfl, ha⟩⟩

theorem turn_done {σ T : Type} {absorb : σ → ResponseData → Except Error (Option T × σ)}
    {command : σ → LogicalCommand} {m m' : σ} {input : Option ResponseData} {value : T}
    (h : turn absorb (fun m => .ok (command m)) m input = (.ok (.done value), m')) :
    ∃ r, input = some r ∧ absorb m r = .ok (some value, m') := by
  cases input with
  | none => cases h
  | some r =>
    simp only [turn] at h
    rcases ha : absorb m r with e | ⟨_ | v, m₁⟩ <;> rw [ha] at h <;> cases h
    exact ⟨r, rfl, ha⟩

theorem WriteMachine.next_command {m m' : WriteMachine} {input : Option ResponseData}
    {c : LogicalCommand} (h : writeMachine.next m input = (.ok (.command c), m')) :
    c = m'.command ∧
      (input = none ∧ m' = m ∨ ∃ r, input = some r ∧ m.absorb r = .ok (none, m')) :=
  @turn_command _ _ WriteMachine.absorb WriteMachine.command m m' input c h

theorem WriteMachine.next_done {m m' : WriteMachine} {input : Option ResponseData} {u : Unit}
    (h : writeMachine.next m input = (.ok (.done u), m')) :
    ∃ r, input = some r ∧ m.absorb r = .ok (some u, m') :=
  @turn_done _ _ WriteMachine.absorb WriteMachine.command m m' input u h

theorem ReadMachine.next_command {m m' : ReadMachine} {input : Option ResponseData}
    {c : LogicalCommand} (h : readMachine.next m input = (.ok (.command c), m')) :
    c = m'.command ∧
      (input = none ∧ m' = m ∨ ∃ r, input = some r ∧ m.absorb r = .ok (none, m')) :=
  @turn_command _ _ ReadMachine.absorb ReadMachine.command m m' input c h

theorem parseCc_max {data : Bytes} {capability : NdefCapability}
    (h : parseCc data = .ok capability) : capability.maxMessageLength ≤ maxMessageLength := by
  simp only [parseCc] at h
  split_ifs at h
  cases h
  exact Nat.min_le_right _ _

theorem parseCc_length {data : Bytes} {capability : NdefCapability}
    (h : parseCc data = .ok capability) : data.length = ccLen := by
  simp only [parseCc] at h
  split_ifs at h with hbad
  push Not at hbad
  exact hbad.1

theorem writeChunk_eq_ok {options : OperationOptions} {size : ℕ}
    (h : writeChunk options = .ok size) :
    size = min chunk (options.exchange.maxCommandBytes - 6) ∧ 0 < size := by
  simp only [writeChunk] at h
  split_ifs at h with hzero
  cases h
  exact ⟨rfl, Nat.pos_of_ne_zero hzero⟩

theorem writeMessage_eq_ok {message : Bytes} {options : OperationOptions}
    {op : Operation WriteMachine Unit} (h : writeMessage message options = .ok op) :
    options.Valid ∧ message.length ≤ maxMessageLength ∧ ∃ size, writeChunk options = .ok size ∧
      6 + divCeil message.length size ≤ options.limits.maxExchanges ∧
      ccLen ≤ options.limits.maxTotalResponseBytes ∧
      validateCommand (readBinary 0 ccLen) options = .ok () ∧
      validateCommand (updateBinary 0 [0, 0]) options = .ok () ∧
      validateFirstChunk message size options = .ok () ∧
      Operation.fromMachine (.initial message size) options = .ok op := by
  obtain ⟨options', hv, hrest⟩ := bind_eq_ok.mp h
  obtain ⟨hvalid, heq⟩ := validate_eq_ok.mp hv
  clear h
  rename' hrest => h
  subst heq
  split_ifs at h with hlen
  obtain ⟨size, hsize, h⟩ := bind_eq_ok.mp h
  split_ifs at h with hbudget
  obtain ⟨_, hcc, h⟩ := bind_eq_ok.mp h
  obtain ⟨_, hz, h⟩ := bind_eq_ok.mp h
  obtain ⟨_, hc, h⟩ := bind_eq_ok.mp h
  exact ⟨hvalid, Nat.le_of_not_lt hlen, size, hsize, by omega, by omega, hcc, hz, hc, h⟩

theorem readMessage_eq_ok {options : OperationOptions} {op : Operation ReadMachine Bytes}
    (h : readMessage options = .ok op) :
    options.Valid ∧ ccLen + 2 + maxMessageLength ≤ options.limits.maxTotalResponseBytes ∧
      5 + divCeil maxMessageLength (readChunk options) ≤ options.limits.maxExchanges ∧
      validateCommand (readBinary 0 ccLen) options = .ok () ∧
      Operation.fromMachine (.initial (readChunk options)) options = .ok op := by
  obtain ⟨options', hv, hrest⟩ := bind_eq_ok.mp h
  obtain ⟨hvalid, heq⟩ := validate_eq_ok.mp hv
  clear h
  subst heq
  split_ifs at hrest with htotal hbudget
  obtain ⟨_, hcc, hop⟩ := bind_eq_ok.mp hrest
  exact ⟨hvalid, Nat.le_of_not_lt htotal, Nat.le_of_not_lt hbudget, hcc, hop⟩

end NdefMessage
