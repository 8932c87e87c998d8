import LibCanokey.CtapSubcommand

/-! # The serialized large-blob array

The messages of authenticatorLargeBlobs and the machines that read the whole array and
replace it by prebuilt fragments. -/
namespace CtapLargeBlob

open BigEndian ListTraversal ProtocolError ProtocolConversation ProtocolOperation
open CtapCbor CtapMessage CtapFields CtapSubcommand

def maxLargeBlobArrayBytes : ℕ := 4096

def minLargeBlobArrayBytes : ℕ := 17

def defaultMaxFragmentLength : ℕ := 1024

def readResponseOverhead : ℕ := 16

def writeMessageOverhead : ℕ := 64

/-- `0C {1: length, 3: offset}`. -/
def getMessage (offset length : ℕ) : Except Error Bytes := do
  let body ← encode (fieldMap [(1, uint length), (3, uint offset)])
  .ok (0x0c :: body)

/-- `u32::to_le_bytes`. -/
def toLeBytes32 (n : ℕ) : Bytes := (toBeBytes 4 n).reverse

def macInput (hashes : Hashes) (fragment : Bytes) (offset : ℕ) : Bytes :=
  List.replicate 32 0xff ++ [0x0c, 0x00] ++ toLeBytes32 offset ++ (hashes.sha256 fragment).1

def setFields (fragment : Bytes) (offset : ℕ) (total : Option ℕ)
    (auth : Option (Bytes × PinUvAuthProtocol)) : List (ℕ × Value) :=
  [(2, .bytes fragment), (3, uint offset)] ++ total.toList.map (fun total => (4, uint total)) ++
    auth.toList.flatMap fun auth => [(5, .bytes auth.1), (6, uint auth.2.toU8.toNat)]

/-- The authentication parameter of a fragment, whose offset must fit 32 bits. -/
def fragmentAuth (hashes : Hashes) (fragment : Bytes) (offset : ℕ)
    (token : Option (PinToken × PinUvAuthProtocol)) :
    Except Error (Option (Bytes × PinUvAuthProtocol)) :=
  match token with
  | none => .ok none
  | some (token, protocol) =>
    if offset < 2 ^ 32 then
      .ok (some (token.authenticate hashes protocol (macInput hashes fragment offset), protocol))
    else .error (.new .invalidArgument)

/-- `0C {2: fragment, 3: offset, 4?: length, 5?: pinUvAuthParam, 6?: pinUvAuthProtocol}`. -/
def setMessage (hashes : Hashes) (fragment : Bytes) (offset : ℕ) (total : Option ℕ)
    (token : Option (PinToken × PinUvAuthProtocol)) : Except Error Bytes := do
  let auth ← fragmentAuth hashes fragment offset token
  let body ← encode (fieldMap (setFields fragment offset total auth))
  .ok (0x0c :: body)

def parseConfig (bytes : Bytes) : Except Error Bytes := do
  let value ← decoded bytes
  required ((← required (value.mapGetInt 1)).asBytes)

inductive Stage where
  | select
  | exchange
  deriving DecidableEq, Repr

structure ReadArray where
  stage : Stage
  chunk : ℕ
  offset : ℕ
  remainingReads : ℕ
  buffer : Bytes

def ReadArray.readCommand (s : ReadArray) : Except Error (Action Bytes) :=
  (getMessage s.offset s.chunk).map fun message => .command (msg message)

def ReadArray.selectNext (s : ReadArray) (response : Option ResponseData) :
    Except Error (Action Bytes) × ReadArray :=
  match response with
  | none => (.ok (.command select), s)
  | some r =>
    match r.ensureSuccess .select with
    | .error e => (.error e, s)
    | .ok () => (s.readCommand, { s with stage := .exchange })

/-- The substring of a response, of the length asked for at most. -/
def ReadArray.substring (s : ReadArray) (response : ResponseData) : Except Error Bytes := do
  let split ← splitStatus response
  split.status.ensure .command
  let bytes ← parseConfig split.payload
  if bytes.length > s.chunk then .error invalid
  else if s.buffer.length + bytes.length > maxLargeBlobArrayBytes then .error limit
  else .ok bytes

def ReadArray.exchangeNext (s : ReadArray) (response : ResponseData) :
    Except Error (Action Bytes) × ReadArray :=
  match s.substring response with
  | .error e => (.error e, s)
  | .ok bytes =>
    let s := { s with buffer := s.buffer ++ bytes }
    if bytes.length < s.chunk then (.ok (.done s.buffer), { s with buffer := [] })
    else if s.remainingReads = 0 then (.error limit, s)
    else
      let s := { s with remainingReads := s.remainingReads - 1, offset := s.offset + s.chunk }
      (s.readCommand, s)

def ReadArray.next (s : ReadArray) (response : Option ResponseData) :
    Except Error (Action Bytes) × ReadArray :=
  match s.stage, response with
  | .select, response => s.selectNext response
  | .exchange, none => (.error (.new .protocolViolation), s)
  | .exchange, some response => s.exchangeNext response

def reading : Machine ReadArray Bytes where
  next := ReadArray.next

structure WriteArray where
  stage : Stage
  messages : List Bytes

def WriteArray.nextFragment (s : WriteArray) : Except Error (Action Unit) × WriteArray :=
  match s.messages with
  | [] => (.ok (.done ()), s)
  | message :: rest => (.ok (.command (msg message)), { s with messages := rest })

def WriteArray.selectNext (s : WriteArray) (response : Option ResponseData) :
    Except Error (Action Unit) × WriteArray :=
  match response with
  | none => (.ok (.command select), s)
  | some r =>
    match r.ensureSuccess .select with
    | .error e => (.error e, s)
    | .ok () => { s with stage := .exchange }.nextFragment

def acknowledged (response : ResponseData) : Except Error Unit := do
  let split ← splitStatus response
  split.status.ensure .command
  if split.payload ≠ [] then .error invalid else .ok ()

def WriteArray.exchangeNext (s : WriteArray) (response : ResponseData) :
    Except Error (Action Unit) × WriteArray :=
  match acknowledged response with
  | .error e => (.error e, s)
  | .ok () => s.nextFragment

def WriteArray.next (s : WriteArray) (response : Option ResponseData) :
    Except Error (Action Unit) × WriteArray :=
  match s.stage, response with
  | .select, response => s.selectNext response
  | .exchange, none => (.error (.new .protocolViolation), s)
  | .exchange, some response => s.exchangeNext response

def writing : Machine WriteArray Unit where
  next := WriteArray.next

def withinInput (message : Bytes) (options : OperationOptions) : Except Error Unit :=
  if message.length > options.limits.maxInputBytes then .error (.new .limitExceeded) else .ok ()

def readChunkLength (options : OperationOptions) : ℕ :=
  min defaultMaxFragmentLength (options.exchange.maxResponseBytes - readResponseOverhead)

def ReadArray.new (options : OperationOptions) : ReadArray :=
  { stage := .select
    chunk := readChunkLength options
    offset := 0
    remainingReads := options.limits.maxExchanges - 1
    buffer := [] }

def readArray (options : OperationOptions) : Except Error (Operation ReadArray Bytes) := do
  let options ← options.validate
  let chunk := readChunkLength options
  if chunk = 0 then .error (.new .limitExceeded)
  else do
    let message ← getMessage 0 chunk
    withinInput message options
    let last ← getMessage (maxLargeBlobArrayBytes + chunk) chunk
    validateCommand (msg message) options
    validateCommand (msg last) options
    validateCommand select options
    Operation.fromMachine (.new options) options

def readChunk (offset length : ℕ) (options : OperationOptions) :
    Except Error (Operation (Sequence Bytes) Bytes) :=
  if length = 0 ∨ length > defaultMaxFragmentLength then .error (.new .invalidArgument)
  else do
    let message ← getMessage offset length
    selectThen message options fun response => typed response parseConfig

def fragmentLength (options : OperationOptions) : ℕ :=
  min defaultMaxFragmentLength (options.limits.maxInputBytes - writeMessageOverhead)

/-- One pass of the fragment loop. -/
def fragmentMessage (hashes : Hashes) (options : OperationOptions) (total : ℕ)
    (token : Option (PinToken × PinUvAuthProtocol)) (chunk : Bytes) (offset : ℕ) :
    Except Error Bytes := do
  let first := if offset = 0 then some total else none
  let message ← setMessage hashes chunk offset first token
  withinInput message options
  validateCommand (msg message) options
  .ok message

def fragmentMessages (hashes : Hashes) (options : OperationOptions) (total : ℕ)
    (token : Option (PinToken × PinUvAuthProtocol)) : List Bytes → ℕ → Except Error (List Bytes)
  | [], _ => .ok []
  | chunk :: chunks, offset => do
    let message ← fragmentMessage hashes options total token chunk offset
    let messages ← fragmentMessages hashes options total token chunks (offset + chunk.length)
    .ok (message :: messages)

/-- `data.chunks(fragment)`. -/
def fragments (fragment : ℕ) (data : Bytes) : List Bytes :=
  chunks fragment (divCeil data.length fragment) data

def writeArray (hashes : Hashes) (data : Bytes) (token : Option (PinToken × PinUvAuthProtocol))
    (options : OperationOptions) : Except Error (Operation WriteArray Unit) :=
  if ¬ (minLargeBlobArrayBytes ≤ data.length ∧ data.length ≤ maxLargeBlobArrayBytes) then
    .error (.new .invalidArgument)
  else do
    let options ← options.validate
    let fragment := fragmentLength options
    if fragment = 0 then .error (.new .limitExceeded)
    else do
      let messages ←
        fragmentMessages hashes options data.length token (fragments fragment data) 0
      if messages.length > options.limits.maxExchanges - 1 then .error (.new .limitExceeded)
      else do
        validateCommand select options
        Operation.fromMachine ⟨.select, messages⟩ options

/-- The bytes of the authentication entries of a fragment. -/
def authBytes : Option (Bytes × PinUvAuthProtocol) → Bytes
  | none => []
  | some (auth, protocol) => 5 :: byteString auth ++ [6, protocol.toU8]

def uintBytes (n : ℕ) : Bytes := head [] 0 (UInt64.ofNat n)

def setBody (fragment : Bytes) (offset : ℕ) (total : Option ℕ)
    (auth : Option (Bytes × PinUvAuthProtocol)) : Bytes :=
  head [] 5 (UInt64.ofNat (setFields fragment offset total auth).length) ++
    (2 :: byteString fragment ++ 3 :: uintBytes offset ++ keyed 4 (total.map uintBytes) ++
      authBytes auth)

/-- A fragment message always encodes. -/
theorem encode_setFields (fragment : Bytes) (offset : ℕ) (total : Option ℕ)
    (auth : Option (Bytes × PinUvAuthProtocol)) :
    encode (fieldMap (setFields fragment offset total auth)) =
      .ok (setBody fragment offset total auth) := by
  have hproto (protocol : PinUvAuthProtocol) :
      encodeInto 63 (uint protocol.toU8.toNat) [] = .ok [protocol.toU8] := by
    rw [encode_uint_small (protocol_small protocol), UInt8.ofNat_toNat]
  have hset : encodeInto 63 (.bytes fragment) [] = .ok (byteString fragment) := rfl
  have hoffset : encodeInto 63 (uint offset) [] = .ok (uintBytes offset) := rfl
  apply (encodeInto_fieldMap (by cases total <;> cases auth <;> simp [setFields])
    (by cases total <;> cases auth <;> simp [setFields])).mpr
  refine ⟨_, ?_, rfl⟩
  rw [setFields, fields_append]
  refine ⟨2 :: byteString fragment ++ 3 :: uintBytes offset ++ keyed 4 (total.map uintBytes),
    authBytes auth, ?_, ?_, rfl⟩
  · rw [fields_append]
    refine ⟨2 :: byteString fragment ++ 3 :: uintBytes offset, _, ?_, ?_, rfl⟩
    · have h : Fields 63 [(2, Value.bytes fragment), (3, uint offset)]
          (2 :: byteString fragment ++ (3 :: uintBytes offset ++ [])) :=
        .cons hset (.cons hoffset .nil)
      rwa [List.append_nil] at h
    · cases total with
      | none => exact .nil
      | some total => exact (fields_singleton rfl).mpr rfl
  · cases auth with
    | none => exact .nil
    | some auth =>
      have h : Fields 63 [(5, Value.bytes auth.1), (6, uint auth.2.toU8.toNat)]
          (5 :: byteString auth.1 ++ (6 :: [auth.2.toU8] ++ [])) :=
        .cons rfl (.cons (hproto auth.2) .nil)
      exact h

end CtapLargeBlob
