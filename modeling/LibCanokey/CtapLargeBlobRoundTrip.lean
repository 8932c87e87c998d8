import LibCanokey.CtapLargeBlobUpload
import LibCanokey.ProtocolAcceptance

/-! # Large-blob reads after writes

The write completes against the device and replaces its array at the last message; a read
completes with the array. Both need no more exchanges and bytes than counted here. -/
namespace CtapLargeBlobRoundTrip

open BigEndian CheckedCursor ListTraversal ProtocolError ProtocolConversation ProtocolOperation
open ProtocolTranscript ProtocolSession ProtocolDelivery ProtocolAcceptance
open CtapCbor CtapCborLanguage CtapCborEncoder CtapMessage CtapFields CtapReading
open CtapSubcommand CtapLargeBlob
open CtapLargeBlobFirmware CtapLargeBlobUpload

theorem accepted_of_validate {c : LogicalCommand} {options : OperationOptions}
    (h : validateCommand c options = .ok ()) : ∃ k, ConversationState.new c options = .ok k :=
  (validateCommand_eq_ok.mp h).2

section write

variable {fw : Firmware} {device : Device} {data : Bytes} {options : OperationOptions}

/-- The exchanges of a whole write; each message is answered by its status byte. -/
def writeExchanges (options : OperationOptions) (messages : List Bytes) : ℕ :=
  exchangesOf options select 0 +
    (messages.map fun message => exchangesOf options (msg message) 1).sum

/-- The answer to a message that the device takes. -/
theorem message_answers {message : Bytes} {device' : Device} {payload : Bytes}
    (hnew : ∃ k, ConversationState.new (msg message) options = .ok k)
    (h : device.message fw message = (payload, device'))
    (hpage : min payload.length 256 + 2 ≤ options.exchange.maxResponseBytes) :
    ∃ k, Answers (fidoApplet fw) options device (msg message) k ⟨payload, ⟨0x9000⟩⟩ device'
      (exchangesOf options (msg message) payload.length) := by
  have happlet := applet_msg fw device message
  rw [h] at happlet
  exact (msg_relayed message).answers rfl hnew happlet hpage rfl

theorem select_answers (hvalid : options.Valid)
    (hnew : ∃ k, ConversationState.new select options = .ok k) :
    ∃ k, Answers (fidoApplet fw) options device select k ⟨[], ⟨0x9000⟩⟩ device
      (exchangesOf options select 0) := by
  have hresp := hvalid.response
  have hpage : min ([] : Bytes).length 256 + 2 ≤ options.exchange.maxResponseBytes := by
    simp only [List.length_nil, Nat.zero_min]
    omega
  exact select_relayed.answers rfl hnew (applet_select fw device) hpage rfl

/-- The induction is on the messages after the open one. -/
theorem writing_served (hvalid : options.Valid) {message : Bytes} {rest : List Bytes}
    (hnew : ∀ m ∈ message :: rest, ∃ k, ConversationState.new (msg m) options = .ok k)
    (h : Stored fw device data (message :: rest)) :
    Served writing (fidoApplet fw) options ⟨.exchange, rest⟩ device (msg message)
      ((message :: rest).map fun m => exchangesOf options (msg m) 1).sum (rest.length + 1) (.ok ())
      (device.after fw (message :: rest)) := by
  have hpage : min ([0x00] : Bytes).length 256 + 2 ≤ options.exchange.maxResponseBytes :=
    hvalid.response
  induction rest generalizing message device with
  | nil =>
    obtain ⟨k, hanswers⟩ := message_answers (hnew message List.mem_cons_self) h.head hpage
    exact .done hanswers rfl
  | cons next rest ih =>
    obtain ⟨k, hanswers⟩ := message_answers (hnew message List.mem_cons_self) h.head hpage
    have hrest := ih (fun m hm => hnew m (List.mem_cons_of_mem _ hm)) h.tail
    have hn : writing.next ⟨.exchange, next :: rest⟩ (some ⟨[0x00], ⟨0x9000⟩⟩) =
        (.ok (.command (msg next)), ⟨.exchange, rest⟩) := rfl
    have hserved := Served.more hanswers hn hrest
    rw [List.map_cons, List.sum_cons, List.length_cons, Nat.add_comm (rest.length + 1)]
    exact hserved

/-- Within its budgets the write completes, and the device has the new array. -/
theorem write_execute {messages : List Bytes} {op : Operation WriteArray Unit}
    (hvalid : options.Valid) (hop : Operation.fromMachine ⟨.select, messages⟩ options = .ok op)
    (hne : messages ≠ []) (hselect : ∃ k, ConversationState.new select options = .ok k)
    (hnew : ∀ m ∈ messages, ∃ k, ConversationState.new (msg m) options = .ok k)
    (h : Stored fw device data messages)
    (he : writeExchanges options messages ≤ options.limits.maxExchanges)
    (hb : messages.length ≤ min usizeMax options.limits.maxTotalResponseBytes) :
    Ends (execute writing (fidoApplet fw) op device).1 (.ok ()) ∧
      (execute writing (fidoApplet fw) op device).2.array = data := by
  obtain ⟨message, rest, rfl⟩ := List.exists_cons_of_ne_nil hne
  obtain ⟨k, hanswers⟩ := @select_answers fw device options hvalid hselect
  have hn : writing.next ⟨.select, message :: rest⟩ (some ⟨[], ⟨0x9000⟩⟩) =
      (.ok (.command (msg message)), ⟨.exchange, rest⟩) := rfl
  have hserved := Served.more hanswers hn (writing_served hvalid hnew h)
  obtain ⟨hend, hdevice⟩ := execute_served hop rfl hserved he (by simpa using hb)
  rw [hdevice]
  exact ⟨hend, h.committed⟩

end write

section read

variable {fw : Firmware} {device : Device} {options : OperationOptions}

/-- The message and the answer of the read at an offset. -/
def readMessage (chunk offset : ℕ) : Bytes := 0x0c :: getBody offset chunk

def readAnswer (array : Bytes) (chunk offset : ℕ) : Bytes :=
  0x00 :: readPayload ((array.drop offset).take chunk)

/-- What so many full reads and the last one cost, from an offset on. -/
def readsCost (cost : ℕ → ℕ) (chunk : ℕ) : ℕ → ℕ → ℕ
  | 0, offset => cost offset
  | count + 1, offset => cost offset + readsCost cost chunk count (offset + chunk)

def readExchanges (options : OperationOptions) (array : Bytes) : ℕ :=
  let chunk := readChunkLength options
  exchangesOf options select 0 +
    readsCost
      (fun offset => exchangesOf options (msg (readMessage chunk offset))
        (readAnswer array chunk offset).length)
      chunk (array.length / chunk) 0

def readBytes (options : OperationOptions) (array : Bytes) : ℕ :=
  let chunk := readChunkLength options
  readsCost (fun offset => (readAnswer array chunk offset).length) chunk (array.length / chunk) 0

theorem readChunkLength_le (options : OperationOptions) :
    readChunkLength options ≤ defaultMaxFragmentLength ∧
      readChunkLength options ≤ options.exchange.maxResponseBytes - readResponseOverhead :=
  ⟨Nat.min_le_left _ _, Nat.min_le_right _ _⟩

theorem readArray_eq_ok {op : Operation ReadArray Bytes} (h : readArray options = .ok op) :
    options.Valid ∧ 0 < readChunkLength options ∧
      (∃ k, ConversationState.new (msg (readMessage (readChunkLength options)
        (maxLargeBlobArrayBytes + readChunkLength options))) options = .ok k) ∧
      (∃ k, ConversationState.new select options = .ok k) ∧
      Operation.fromMachine (.new options) options = .ok op := by
  obtain ⟨o, ho, hbuilt⟩ := bind_eq_ok.mp h
  obtain ⟨hvalid, rfl⟩ := validate_eq_ok.mp ho
  dsimp only at hbuilt
  split_ifs at hbuilt with hzero
  obtain ⟨message, _, hbuilt⟩ := bind_eq_ok.mp hbuilt
  obtain ⟨_, _, hbuilt⟩ := bind_eq_ok.mp hbuilt
  obtain ⟨last, hlast, hbuilt⟩ := bind_eq_ok.mp hbuilt
  obtain ⟨_, _, hbuilt⟩ := bind_eq_ok.mp hbuilt
  obtain ⟨_, hvalidLast, hbuilt⟩ := bind_eq_ok.mp hbuilt
  obtain ⟨_, hselect, hbuilt⟩ := bind_eq_ok.mp hbuilt
  have heq := Except.ok.inj ((getMessage_eq _ _).symm.trans hlast)
  rw [← heq] at hvalidLast
  exact ⟨hvalid, Nat.pos_of_ne_zero hzero, accepted_of_validate hvalidLast,
    accepted_of_validate hselect, hbuilt⟩

theorem length_uintBytes {n : ℕ} (hlow : 256 ≤ n) (hup : n < 2 ^ 16) :
    (uintBytes n).length = 3 := by
  have hhead := head_length [] (by decide : 0 < 8) (show n < 2 ^ 64 by omega)
  change uintBytes n = [] ++ shortestHead 0 n at hhead
  rw [hhead, List.nil_append, shortestHead, if_neg (by omega), if_neg (by omega), if_pos hup]
  rfl

/-- The read past the end of the array has the longest message. -/
theorem length_readMessage_le (options : OperationOptions) {offset : ℕ}
    (hoffset : offset ≤ maxLargeBlobArrayBytes) :
    (readMessage (readChunkLength options) offset).length ≤
      (readMessage (readChunkLength options)
        (maxLargeBlobArrayBytes + readChunkLength options)).length := by
  have hchunk := (readChunkLength_le options).1
  simp only [maxLargeBlobArrayBytes, defaultMaxFragmentLength] at hoffset hchunk ⊢
  have hoff := length_head_le (by decide : 0 < 8) (show offset < 2 ^ 16 by omega)
  have hmost := @length_uintBytes (4096 + readChunkLength options) (by omega) (by omega)
  change (uintBytes offset).length ≤ 3 at hoff
  simp only [readMessage, getBody, List.cons_append, List.length_cons, List.length_append, hmost]
  omega

/-- A read within the array is accepted where the one past its end is. -/
theorem read_accepted (hvalid : options.Valid) {offset : ℕ}
    (hoffset : offset ≤ maxLargeBlobArrayBytes)
    (hlast : ∃ k, ConversationState.new (msg (readMessage (readChunkLength options)
      (maxLargeBlobArrayBytes + readChunkLength options))) options = .ok k) :
    ∃ k, ConversationState.new (msg (readMessage (readChunkLength options) offset)) options =
      .ok k :=
  @new_of_shorter (msg _) options hvalid rfl _ (length_readMessage_le options hoffset) hlast

theorem length_readAnswer_le {array : Bytes} {offset : ℕ} :
    (readAnswer array (readChunkLength options) offset).length ≤ readChunkLength options + 6 := by
  have hchunk := (readChunkLength_le options).1
  have htake : ((array.drop offset).take (readChunkLength options)).length ≤
      readChunkLength options := List.length_take_le _ _
  have hsmall : defaultMaxFragmentLength < 2 ^ 16 := by decide
  have := length_readPayload_le (Nat.lt_of_le_of_lt (Nat.le_trans htake hchunk) hsmall)
  simp only [readAnswer, List.length_cons]
  omega

/-- What the reader makes of the answer at its offset. -/
theorem substring_readAnswer {array : Bytes} (harray : array.length ≤ maxLargeBlobArrayBytes)
    {s : ReadArray} (hchunk : s.chunk ≤ defaultMaxFragmentLength)
    (hbuffer : s.buffer = array.take s.offset) (hoffset : s.offset ≤ array.length) :
    s.substring ⟨readAnswer array s.chunk s.offset, ⟨0x9000⟩⟩ =
      .ok ((array.drop s.offset).take s.chunk) := by
  have hsmall : defaultMaxFragmentLength < 2 ^ 16 := by decide
  have htake : ((array.drop s.offset).take s.chunk).length ≤ s.chunk := List.length_take_le _ _
  have hdrop : ((array.drop s.offset).take s.chunk).length ≤ array.length - s.offset := by
    rw [List.length_take, List.length_drop]
    exact Nat.min_le_right _ _
  have hlen : s.buffer.length = s.offset := by
    rw [hbuffer, List.length_take]
    omega
  have hconfig := parseConfig_readPayload
    (Nat.lt_of_le_of_lt (Nat.le_trans htake hchunk) hsmall)
  refine bind_eq_ok.mpr ⟨⟨⟨0x00⟩, readPayload ((array.drop s.offset).take s.chunk)⟩, rfl, ?_⟩
  refine bind_eq_ok.mpr ⟨(), rfl, ?_⟩
  refine bind_eq_ok.mpr ⟨_, hconfig, ?_⟩
  rw [if_neg (Nat.not_lt_of_le htake), if_neg (by omega)]

theorem readCommand_eq (s : ReadArray) :
    s.readCommand = .ok (.command (msg (readMessage s.chunk s.offset))) := by
  rw [ReadArray.readCommand, getMessage_eq]
  rfl

/-- A reader that holds the array up to its offset. -/
structure Reads (options : OperationOptions) (array : Bytes) (s : ReadArray) : Prop where
  stage : s.stage = .exchange
  chunk : s.chunk = readChunkLength options
  buffer : s.buffer = array.take s.offset
  within : s.offset ≤ array.length

theorem Reads.next {array : Bytes} {s : ReadArray} (h : Reads options array s)
    (harray : array.length ≤ maxLargeBlobArrayBytes) :
    reading.next s (some ⟨readAnswer array s.chunk s.offset, ⟨0x9000⟩⟩) =
      let bytes := (array.drop s.offset).take s.chunk
      let s := { s with buffer := s.buffer ++ bytes }
      if bytes.length < s.chunk then (.ok (.done s.buffer), { s with buffer := [] })
      else if s.remainingReads = 0 then (.error limit, s)
      else
        let s := { s with remainingReads := s.remainingReads - 1, offset := s.offset + s.chunk }
        (s.readCommand, s) := by
  have hsub := substring_readAnswer harray (h.chunk ▸ (readChunkLength_le options).1) h.buffer
    h.within
  simp only [reading, ReadArray.next, h.stage, ReadArray.exchangeNext, hsub]

theorem read_answers {s : ReadArray} (hvalid : options.Valid) (h : Reads options device.array s)
    (harray : device.array.length ≤ maxLargeBlobArrayBytes)
    (hlast : ∃ k, ConversationState.new (msg (readMessage (readChunkLength options)
      (maxLargeBlobArrayBytes + readChunkLength options))) options = .ok k)
    (hpos : 0 < readChunkLength options) :
    ∃ k, Answers (fidoApplet fw) options device (msg (readMessage s.chunk s.offset)) k
      ⟨readAnswer device.array s.chunk s.offset, ⟨0x9000⟩⟩ device
      (exchangesOf options (msg (readMessage s.chunk s.offset))
        (readAnswer device.array s.chunk s.offset).length) := by
  have hchunk := readChunkLength_le options
  have hmost : maxLargeBlobArrayBytes < 2 ^ 16 := by decide
  have hreads : device.message fw (readMessage s.chunk s.offset) =
      (readAnswer device.array s.chunk s.offset, device) :=
    message_reads (h.chunk ▸ hchunk.1) h.within (by omega)
  have hlen := @length_readAnswer_le options device.array s.offset
  rw [h.chunk] at hreads ⊢
  apply message_answers (read_accepted hvalid (Nat.le_trans h.within harray) hlast) hreads
  simp only [readResponseOverhead] at hchunk
  omega

/-- The induction is on the full reads still to come. -/
theorem reading_served (hvalid : options.Valid) (hpos : 0 < readChunkLength options)
    (harray : device.array.length ≤ maxLargeBlobArrayBytes)
    (hlast : ∃ k, ConversationState.new (msg (readMessage (readChunkLength options)
      (maxLargeBlobArrayBytes + readChunkLength options))) options = .ok k)
    {count : ℕ} {s : ReadArray} (h : Reads options device.array s)
    (hlow : s.offset + count * s.chunk ≤ device.array.length)
    (hup : device.array.length < s.offset + (count + 1) * s.chunk)
    (hreads : count ≤ s.remainingReads) :
    Served reading (fidoApplet fw) options s device (msg (readMessage s.chunk s.offset))
      (readsCost (fun offset => exchangesOf options (msg (readMessage s.chunk offset))
        (readAnswer device.array s.chunk offset).length) s.chunk count s.offset)
      (readsCost (fun offset => (readAnswer device.array s.chunk offset).length) s.chunk count
        s.offset) (.ok device.array) device := by
  induction count generalizing s with
  | zero =>
    obtain ⟨k, hanswers⟩ := @read_answers fw device options s hvalid h harray hlast hpos
    have hshort : ((device.array.drop s.offset).take s.chunk).length < s.chunk := by
      rw [List.length_take, List.length_drop]
      omega
    have hwhole : s.buffer ++ (device.array.drop s.offset).take s.chunk = device.array := by
      have hrest : (device.array.drop s.offset).take s.chunk = device.array.drop s.offset := by
        apply List.take_of_length_le
        rw [List.length_drop]
        omega
      rw [hrest, h.buffer, List.take_append_drop]
    have hn := h.next harray
    simp only [hshort, if_true, hwhole] at hn
    exact .done hanswers hn
  | succ count ih =>
    obtain ⟨k, hanswers⟩ := @read_answers fw device options s hvalid h harray hlast hpos
    rw [Nat.succ_mul] at hlow hup
    rw [Nat.succ_mul] at hup
    have hfull : ¬ ((device.array.drop s.offset).take s.chunk).length < s.chunk := by
      rw [List.length_take, List.length_drop]
      omega
    have hremaining : ¬ s.remainingReads = 0 := by omega
    have hn := h.next harray
    simp only [hfull, if_false, hremaining, readCommand_eq] at hn
    have hnext : Reads options device.array
        { s with
          buffer := s.buffer ++ (device.array.drop s.offset).take s.chunk
          remainingReads := s.remainingReads - 1
          offset := s.offset + s.chunk } := by
      refine ⟨h.stage, h.chunk, ?_, by dsimp only; omega⟩
      dsimp only
      rw [h.buffer, List.take_add]
    refine .more hanswers hn (ih hnext ?_ ?_ ?_)
    · dsimp only
      omega
    · rw [Nat.succ_mul]
      dsimp only
      omega
    · dsimp only
      omega

theorem le_readsCost {cost : ℕ → ℕ} {most chunk count offset : ℕ}
    (hcost : ∀ offset ≤ most, 1 ≤ cost offset) (h : offset + count * chunk ≤ most) :
    count + 1 ≤ readsCost cost chunk count offset := by
  induction count generalizing offset with
  | zero => exact hcost offset (by omega)
  | succ count ih =>
    rw [Nat.succ_mul] at h
    have hrest := @ih (offset + chunk) (by omega)
    have hfirst := hcost offset (by omega)
    rw [readsCost]
    omega

theorem exchangesOf_pos {c : LogicalCommand} (h : ∃ k, ConversationState.new c options = .ok k)
    (answer : ℕ) : 1 ≤ exchangesOf options c answer := by
  obtain ⟨k, hk⟩ := h
  have : k.frames.length = k.pending.length + 1 := rfl
  simp only [exchangesOf, hk]
  omega

/-- Within its budgets the read returns the array. -/
theorem read_execute {op : Operation ReadArray Bytes} (hop : readArray options = .ok op)
    (harray : device.array.length ≤ maxLargeBlobArrayBytes)
    (he : readExchanges options device.array ≤ options.limits.maxExchanges)
    (hb : readBytes options device.array ≤ min usizeMax options.limits.maxTotalResponseBytes) :
    Ends (execute reading (fidoApplet fw) op device).1 (.ok device.array) := by
  obtain ⟨hvalid, hpos, hlast, hselect, hmachine⟩ := readArray_eq_ok hop
  have hdiv := Nat.div_add_mod device.array.length (readChunkLength options)
  have hmod := Nat.mod_lt device.array.length hpos
  rw [Nat.mul_comm] at hdiv
  obtain ⟨k, hanswers⟩ := @select_answers fw device options hvalid hselect
  have hcount := @le_readsCost
    (fun offset => exchangesOf options (msg (readMessage (readChunkLength options) offset))
      (readAnswer device.array (readChunkLength options) offset).length)
    device.array.length (readChunkLength options)
    (device.array.length / readChunkLength options) 0
    (fun offset hoffset => exchangesOf_pos
      (read_accepted hvalid (Nat.le_trans hoffset harray) hlast) _) (by omega)
  have hone := exchangesOf_pos hselect 0
  simp only [readExchanges] at he
  have hreads : Reads options device.array { ReadArray.new options with stage := .exchange } :=
    ⟨rfl, rfl, rfl, Nat.zero_le _⟩
  have hlow : 0 + device.array.length / readChunkLength options * readChunkLength options ≤
      device.array.length := by omega
  have hup : device.array.length <
      0 + (device.array.length / readChunkLength options + 1) * readChunkLength options := by
    rw [Nat.succ_mul]
    omega
  have hbudget : device.array.length / readChunkLength options ≤
      options.limits.maxExchanges - 1 := by omega
  have hrest :=
    @reading_served fw device options hvalid hpos harray hlast _ _ hreads hlow hup hbudget
  have hfirst : reading.next (.new options) (some ⟨[], ⟨0x9000⟩⟩) =
      ({ ReadArray.new options with stage := .exchange }.readCommand,
        { ReadArray.new options with stage := .exchange }) := rfl
  rw [readCommand_eq] at hfirst
  have hserved := Served.more hanswers hfirst hrest
  refine (execute_served hmachine rfl hserved he ?_).1
  rw [List.length_nil, Nat.zero_add]
  exact hb

end read

/-! ## The round trip -/

/-- The prebuilt messages are the array, piece by piece, and only the first one announces its
length. -/
structure Fragmented (options : OperationOptions) (data : Bytes) (messages : List Bytes) :
    Prop where
  cut : ∃ pieces : List Bytes, pieces.flatten = data ∧ (∀ piece ∈ pieces, piece ≠ []) ∧
    pieces.length = messages.length ∧
    ∀ i message, messages[i]? = some message → ∃ piece, pieces[i]? = some piece ∧
      Carries message piece (pieces.take i).flatten.length
        (if i = 0 then some data.length else none)
  fits : ∀ message ∈ messages, message.length ≤ options.limits.maxInputBytes

/-- Whatever the limits, no pass of the fragment loop is refused for the size of its message. -/
def Unlimited (hashes : Hashes) (data : Bytes) (token : Option (PinToken × PinUvAuthProtocol)) :
    Prop :=
  ∀ (options : OperationOptions) (i : ℕ) (piece message : Bytes), 0 < fragmentLength options →
    (fragments (fragmentLength options) data)[i]? = some piece →
    setMessage hashes piece ((fragments (fragmentLength options) data).take i).flatten.length
      (announced ((fragments (fragmentLength options) data).take i).flatten.length data.length)
      token = .ok message →
    withinInput message options = .ok ()

/-- A write and a later read, against a device that may lose the last frames of either. -/
structure WriteThenRead (fw : Firmware) (device : Device) (data : Bytes)
    (token : Option (PinToken × PinUvAuthProtocol)) (options : OperationOptions)
    (op : Operation WriteArray Unit) (messages : List Bytes) : Prop where
  fragmented : Fragmented options data messages
  unlimited : Unlimited fw.hashes data token
  stored : Stored fw device data messages
  stopped : ∀ calls frames, frames <+: (recorded writing op calls).frames →
    (recorded writing op calls).commands <+: writeCommands messages ∧
    ∃ done, done <+: (recorded writing op calls).commands ∧
      (delivered (fidoApplet fw) { applet := device } frames).applet =
        performed (fidoApplet fw) device done ∧
      (delivered (fidoApplet fw) { applet := device } frames).applet.array =
        if done = writeCommands messages then data else device.array
  completes : writeExchanges options messages ≤ options.limits.maxExchanges →
    messages.length ≤ min usizeMax options.limits.maxTotalResponseBytes →
    Ends (execute writing (fidoApplet fw) op device).1 (.ok ()) ∧
      (execute writing (fidoApplet fw) op device).2.array = data
  returns : ∀ ropts r device', device'.array = data → readArray ropts = .ok r →
    readExchanges ropts data ≤ ropts.limits.maxExchanges →
    readBytes ropts data ≤ min usizeMax ropts.limits.maxTotalResponseBytes →
    Ends (execute reading (fidoApplet fw) r device').1 (.ok data)

theorem writeArray_eq_ok {hashes : Hashes} {data : Bytes}
    {token : Option (PinToken × PinUvAuthProtocol)} {options : OperationOptions}
    {op : Operation WriteArray Unit} (h : writeArray hashes data token options = .ok op) :
    (minLargeBlobArrayBytes ≤ data.length ∧ data.length ≤ maxLargeBlobArrayBytes) ∧
      options.Valid ∧ 0 < fragmentLength options ∧
      ∃ messages, Built hashes options data.length token 0
          (fragments (fragmentLength options) data) messages ∧
        messages.length ≤ options.limits.maxExchanges - 1 ∧
        (∃ k, ConversationState.new select options = .ok k) ∧
        Operation.fromMachine ⟨.select, messages⟩ options = .ok op := by
  simp only [writeArray] at h
  split_ifs at h with hlen
  obtain ⟨o, ho, hbuilt⟩ := bind_eq_ok.mp h
  obtain ⟨hvalid, rfl⟩ := validate_eq_ok.mp ho
  split_ifs at hbuilt with hzero
  obtain ⟨messages, hmessages, hbuilt⟩ := bind_eq_ok.mp hbuilt
  split_ifs at hbuilt with hcount
  obtain ⟨_, hselect, hbuilt⟩ := bind_eq_ok.mp hbuilt
  exact ⟨hlen, hvalid, Nat.pos_of_ne_zero hzero, messages, fragmentMessages_built hmessages,
    Nat.le_of_not_lt hcount, accepted_of_validate hselect, hbuilt⟩

section roundTrip

variable {data : Bytes} {options : OperationOptions}

theorem flatten_take_le (pieces : List Bytes) (i : ℕ) :
    (pieces.take i).flatten.length ≤ pieces.flatten.length := by
  have h := congrArg (fun l : List Bytes => l.flatten.length) (List.take_append_drop i pieces)
  simp only [List.flatten_append, List.length_append] at h
  omega

theorem unlimited (hashes : Hashes) (token : Option (PinToken × PinUvAuthProtocol))
    (hlen : minLargeBlobArrayBytes ≤ data.length ∧ data.length ≤ maxLargeBlobArrayBytes) :
    Unlimited hashes data token := by
  intro options i piece message hpos hi hset
  have hne : data ≠ [] := by
    rintro rfl
    exact absurd hlen.1 (by decide)
  have hpieces := fragments_pieces hne hpos
  have hshort := hpieces.short piece (List.mem_of_getElem? hi)
  have hoffset := flatten_take_le (fragments (fragmentLength options) data) i
  rw [hpieces.flatten] at hoffset
  have hmost : maxLargeBlobArrayBytes < 2 ^ 16 := by decide
  have hfrag : fragmentLength options ≤ defaultMaxFragmentLength := Nat.min_le_left _ _
  have hroom : fragmentLength options ≤ options.limits.maxInputBytes - writeMessageOverhead :=
    Nat.min_le_right _ _
  have hdefault : defaultMaxFragmentLength < 2 ^ 16 := by decide
  have hmessage := length_setMessage_le (by omega) (by omega) (by omega) hset
  exact if_neg (by omega)

/-- Only the first offset is zero. -/
theorem announced_first {pieces : List Bytes} (hne : ∀ piece ∈ pieces, piece ≠ []) {i : ℕ}
    (hi : i < pieces.length) (size : ℕ) :
    announced (pieces.take i).flatten.length size = if i = 0 then some size else none := by
  cases i with
  | zero => rfl
  | succ i =>
    cases pieces with
    | nil => simp at hi
    | cons piece pieces =>
      have hpos := List.length_pos_iff.mpr (hne piece List.mem_cons_self)
      rw [announced, if_neg, if_neg (Nat.succ_ne_zero i)]
      rw [List.take_succ_cons, List.flatten_cons, List.length_append]
      omega

theorem built_fragmented {hashes : Hashes} {token : Option (PinToken × PinUvAuthProtocol)}
    {pieces messages : List Bytes}
    (h : Built hashes options data.length token 0 pieces messages)
    (hpieces : Pieces options data pieces) (hlen : data.length ≤ maxLargeBlobArrayBytes) :
    Fragmented options data messages := by
  have hmost : maxLargeBlobArrayBytes < 2 ^ 16 := by decide
  refine ⟨⟨pieces, hpieces.flatten, hpieces.nonempty, h.length, ?_⟩, fun m hm => (h.valid m hm).1⟩
  intro i message hi
  have hend : 0 + pieces.flatten.length ≤ data.length := by
    rw [hpieces.flatten, Nat.zero_add]
  obtain ⟨piece, hpiece, hcarries⟩ := h.carries (by omega) hend hi
  refine ⟨piece, hpiece, ?_⟩
  rw [Nat.zero_add, announced_first hpieces.nonempty (List.getElem?_eq_some_iff.mp hpiece).1]
    at hcarries
  exact hcarries

end roundTrip

/-- A write of an array with its trailer, under the token the device wants: the messages divide
it, the device takes each and commits at the last, and a later read returns it. -/
theorem large_blob_write_then_read {fw : Firmware} {device : Device} {data : Bytes}
    {token : Option (PinToken × PinUvAuthProtocol)} {options : OperationOptions}
    {op : Operation WriteArray Unit} (h : writeArray fw.hashes data token options = .ok op)
    (htrailer : IntegrityTrailer fw.hashes data) (hpin : Authorized device token) :
    ∃ messages, op.machine = some ⟨.select, messages⟩ ∧
      WriteThenRead fw device data token options op messages := by
  obtain ⟨hlen, hvalid, hpos, messages, hbuilt, _, hselect, hop⟩ := writeArray_eq_ok h
  have hne : data ≠ [] := by
    rintro rfl
    exact absurd hlen.1 (by decide)
  have hpieces := fragments_pieces hne hpos
  have hsome : fragments (fragmentLength options) data ≠ [] := by
    intro hnil
    have := hpieces.flatten
    rw [hnil] at this
    exact hne this.symm
  have hshort : ∀ piece ∈ fragments (fragmentLength options) data,
      piece ≠ [] ∧ piece.length ≤ defaultMaxFragmentLength := fun piece hpiece =>
    ⟨hpieces.nonempty piece hpiece, Nat.le_trans (hpieces.short piece hpiece)
      (Nat.min_le_left _ _)⟩
  have hcont : Continues device 0 data.length [] := ⟨rfl, fun hnil => absurd rfl hnil⟩
  have hstored := hbuilt.stored hlen hshort hsome
    (by rw [List.nil_append]; exact hpieces.flatten) rfl htrailer hpin hcont
  have hmessages : messages ≠ [] := by
    intro hnil
    have := hbuilt.length
    rw [hnil] at this
    exact hsome (List.eq_nil_of_length_eq_zero this)
  refine ⟨messages, ?_, built_fragmented hbuilt hpieces hlen.2, unlimited fw.hashes token hlen,
    hstored, fun calls frames hframes => ⟨writing_commands hop calls,
      writing_delivered hop hstored calls hframes⟩,
    write_execute hvalid hop hmessages hselect
      (fun m hm => accepted_of_validate (hbuilt.valid m hm).2) hstored, ?_⟩
  · simp only [Operation.fromMachine, validate_eq_ok.mpr ⟨hvalid, rfl⟩] at hop
    cases hop
    rfl
  · rintro ropts r device' rfl hr he hb
    exact read_execute hr hlen.2 he hb

/-! ## Small arrays on a device with a PIN -/

/-- The byte 7 and its trailer. -/
def sevenArray : Bytes := 7 :: toBeBytes 16 0xca358758f6d27e6cf45272937977a748

/-- Fragments of ten bytes. -/
def narrowInput : OperationOptions := { limits := { maxInputBytes := 74 } }

def blobToken : PinToken := ⟨List.replicate 32 7⟩

/-- SHA-256 on the contents of some arrays and on the fragments of the first. -/
def blobDigests : List (Bytes × ℕ) :=
  [([7], 0xca358758f6d27e6cf45272937977a748fd88391db679ceda7dc7bf1f005ee879),
    ([8], 0xbeead77994cf573341ec17b58bbf7eb34d2711c993c1d976b128b3188dc1829a),
    ([9], 0x2b4c342f5433ebe591a1da77e013d1b72475562d48578dca8b84bac6651c3cb9),
    ([1, 1, 1, 1], 0x27ecd0a598e76f8a2fd264d427df0a119903e8eae384e478902541756f089dd1),
    (sevenArray.take 10, 0x92f6acc013666163a9b35049f278f464b1f0fa6a0deb54fe570b45bfb68c8e5a),
    (sevenArray.drop 10, 0x5abb9a5d93ee61e05c3e6bde480d9fb6672b4ace9ac7f6be0afb2a4c2c26a4a5)]

/-- What the token authenticates a fragment of that digest at an offset by. -/
def blobMessage (offset digest : ℕ) : Bytes :=
  List.replicate 32 0xff ++ [0x0c, 0x00] ++ toLeBytes32 offset ++ toBeBytes 32 digest

/-- HMAC-SHA-256 on both fragments. -/
def blobTags : List ((Bytes × Bytes) × ℕ) :=
  [((blobToken.token,
        blobMessage 0 0x92f6acc013666163a9b35049f278f464b1f0fa6a0deb54fe570b45bfb68c8e5a),
      0x56f8ae9d55eb460dcd892d03eb45a9fc17126d14260ae91a10dbed8d8e06c6fc),
    ((blobToken.token,
        blobMessage 10 0x5abb9a5d93ee61e05c3e6bde480d9fb6672b4ace9ac7f6be0afb2a4c2c26a4a5),
      0x885093411019b4a3d2957b9367485a806d1d8f5775887d7aa2488b9d7b7bcf64)]

def blobHashes : Hashes where
  sha256 b := ⟨toBeBytes 32 ((blobDigests.lookup b).getD 0), length_toBeBytes 32 _⟩
  hmac key message :=
    ⟨toBeBytes 32 ((blobTags.lookup (key, message)).getD 0), length_toBeBytes 32 _⟩

def pinDevice : Device := { array := [], pin := some blobToken }

/-- The smallest array with contents, written in two fragments under the PIN of the device, which
checks the tag of each. -/
theorem large_blob_write_then_read_seven : ∃ op messages,
    writeArray blobHashes sevenArray (some (blobToken, .v2)) narrowInput = .ok op ∧
    IntegrityTrailer blobHashes sevenArray ∧ messages.length = 2 ∧
    WriteThenRead ⟨blobHashes, 1024, Nat.le_refl _⟩ pinDevice sevenArray (some (blobToken, .v2))
      narrowInput op messages := by
  have h : writeArray blobHashes sevenArray (some (blobToken, .v2)) narrowInput = .ok _ := rfl
  have htrailer : IntegrityTrailer blobHashes sevenArray := by decide +kernel
  have hpin : Authorized pinDevice (some (blobToken, .v2)) := by
    rintro _ ⟨⟩
    exact ⟨_, rfl⟩
  obtain ⟨messages, hmachine, hround⟩ :=
    @large_blob_write_then_read ⟨blobHashes, 1024, Nat.le_refl _⟩ _ _ _ _ _ h htrailer hpin
  have htwo : messages.length = 2 := by
    cases hmachine
    rfl
  exact ⟨_, messages, h, htrailer, htwo, hround⟩

end CtapLargeBlobRoundTrip
