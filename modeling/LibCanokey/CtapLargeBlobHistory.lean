import LibCanokey.CrashStores
import LibCanokey.CtapLargeBlobRoundTrip
import LibCanokey.ProtocolInterruption

/-! # Histories of the large-blob array

Writes and reads of any options follow each other on one device, and each of them may stop after
any exchange. A write that stops early leaves its fragments in the temporary file and never in the
array: the array is the one before it or its own, and the next write begins the file again. -/
namespace CtapLargeBlobHistory

open BigEndian ListTraversal ProtocolError ProtocolConversation ProtocolOperation
open ProtocolTranscript ProtocolSession ProtocolDelivery ProtocolInterruption CrashStores
open CtapCbor CtapMessage CtapLargeBlob CtapLargeBlobFirmware CtapLargeBlobUpload
open CtapLargeBlobRoundTrip

/-- The array that a device holds. -/
def content (device : Device) : Unit → Bytes := fun _ => device.array

/-- What a torn write can leave: the array before, or its own. -/
def left (old new v : Bytes) : Prop := v = old ∨ v = new

/-- What a host does with the array until it is done or stops. -/
inductive Session where
  | write (data : Bytes) (token : Option (PinToken × PinUvAuthProtocol))
      (options : OperationOptions) (stop : Stop)
  | read (options : OperationOptions) (stop : Stop)

/-- The device after a session, and what the host has learned. -/
def hold (fw : Firmware) (device : Device) : Session → Device × Option (Event Unit Bytes)
  | .write data token options stop =>
    match writeArray fw.hashes data token options with
    | .error _ => (device, none)
    | .ok op =>
      ((interrupted writing (fidoApplet fw) op device stop).2,
        some (if (interrupted writing (fidoApplet fw) op device stop).1.state = .completed
          then .wrote () data else .torn () data))
  | .read options stop =>
    match readArray options with
    | .error _ => (device, none)
    | .ok op =>
      ((interrupted reading (fidoApplet fw) op device stop).2,
        (interrupted reading (fidoApplet fw) op device stop).1.result.toOption.map (.read ()))

section calls

variable {fw : Firmware} {options : OperationOptions} {device device' : Device} {message : Bytes}
  {c : LogicalCommand} {r : ResponseData}

theorem calls_select (h : Calls (fidoApplet fw) options device select r device') :
    r = ⟨[], ⟨0x9000⟩⟩ ∧ device' = device := by
  obtain ⟨le, _, hcall⟩ := h
  cases hcall
  exact ⟨rfl, rfl⟩

theorem calls_msg (h : Calls (fidoApplet fw) options device (msg message) r device') :
    r = ⟨(device.message fw message).1, ⟨0x9000⟩⟩ ∧ device' = (device.message fw message).2 := by
  obtain ⟨le, _, hcall⟩ := h
  cases hcall
  exact ⟨rfl, rfl⟩

theorem relayed_carriable (hc : c = select ∨ ∃ message, c = msg message) :
    Carriable (fidoApplet fw) options device c := by
  have hstatus : is61 (0x9000 : UInt16) = false ∧ is6c (0x9000 : UInt16) = false := by decide
  rcases hc with rfl | ⟨message, rfl⟩
  · refine ⟨select_relayed.header, select_relayed.continuation, ?_⟩
    intro r a' hcall
    rw [(calls_select hcall).1]
    exact hstatus
  · refine ⟨(msg_relayed message).header, (msg_relayed message).continuation, ?_⟩
    intro r a' hcall
    rw [(calls_msg hcall).1]
    exact hstatus

end calls

section fragments

variable {fw : Firmware} {options : OperationOptions} {data received fragment message : Bytes}
  {pieces messages : List Bytes} {token : Option (PinToken × PinUvAuthProtocol)}
  {device : Device} {offset size : ℕ}

theorem continues_file (hsize : minLargeBlobArrayBytes ≤ size ∧ size ≤ maxLargeBlobArrayBytes)
    (hcont : Continues device offset size received) :
    device.file offset (announced offset size) = .ok ⟨size, received⟩ := by
  rw [Device.file]
  by_cases hzero : offset = 0
  · have hnil : received = [] := by
      apply List.eq_nil_of_length_eq_zero
      rw [← hcont.1, hzero]
    rw [if_pos hzero, announced, if_pos hzero, hnil, opened, if_neg (by omega),
      if_neg (by omega)]
  · have hne : received ≠ [] := by
      intro hnil
      apply hzero
      rw [hcont.1, hnil, List.length_nil]
    rw [if_neg hzero, announced, if_neg hzero, Device.continued, hcont.2 hne]
    exact if_pos hcont.1

theorem authorize_refuses {r : BlobRequest} {status : UInt8}
    (h : device.authorize fw fragment r = .error status) : status ≠ 0x00 := by
  simp only [Device.authorize] at h
  split at h
  · cases h
  · split at h
    · split_ifs at h
      cases h
      decide
    · cases h
      decide

theorem store_refuses {upload : Upload} {status : UInt8}
    (h : device.store fw upload = .error status) : status ≠ 0x00 := by
  simp only [Device.store] at h
  split_ifs at h
  cases h
  decide

/-- What the device does with the next fragment of its file, whoever sends it. -/
theorem message_fragment (hsize : minLargeBlobArrayBytes ≤ size ∧ size ≤ maxLargeBlobArrayBytes)
    (hoffset : offset < 2 ^ 16) (hfragment : fragment.length ≤ defaultMaxFragmentLength)
    (hcont : Continues device offset size received)
    (h : setMessage fw.hashes fragment offset (announced offset size) token = .ok message) :
    (∃ status, status ≠ 0x00 ∧ device.message fw message = ([status], device)) ∨
      ∃ device', device.store fw ⟨size, received ++ fragment⟩ = .ok device' ∧
        device.message fw message = ([0x00], device') := by
  obtain ⟨auth, hauth, hlen, rfl⟩ := setMessage_eq_ok h
  have hmost : maxLargeBlobArrayBytes < 2 ^ 16 := by decide
  have hfrag : defaultMaxFragmentLength < 2 ^ 16 := by decide
  obtain ⟨_, hparse⟩ := parse_setBody (show fragment.length < 2 ^ 16 by omega) hoffset
    (announced_lt (show size < 2 ^ 16 by omega)) hlen
  generalize hr : (⟨none, some fragment, offset, announced offset size, auth.map Prod.fst,
    auth.map fun auth => auth.2.toU8.toNat⟩ : BlobRequest) = r at hparse
  have hset : device.set fw fragment r =
      (device.authorize fw fragment r >>= fun _ =>
        device.store fw ⟨size, received ++ fragment⟩) := by
    rw [Device.set, if_neg (Nat.not_lt_of_le (Nat.le_trans hfragment fw.covers)), ← hr,
      continues_file hsize hcont]
    rfl
  have hblobs : device.largeBlobs fw (setBody fragment offset (announced offset size) auth) =
      (device.set fw fragment r).map fun device => ([], device) := by
    rw [Device.largeBlobs, hparse, ← hr]
    rfl
  have hrefused {status : UInt8} (hs : device.set fw fragment r = .error status) :
      device.message fw (0x0c :: setBody fragment offset (announced offset size) auth) =
        ([status], device) := by
    simp only [Device.message, List.head?_cons, if_true, List.tail_cons, hblobs, hs, Except.map]
  cases hpass : device.authorize fw fragment r with
  | error status =>
    refine Or.inl ⟨status, authorize_refuses hpass, hrefused ?_⟩
    rw [hset, hpass]
    rfl
  | ok _ =>
    cases hstore : device.store fw ⟨size, received ++ fragment⟩ with
    | error status =>
      refine Or.inl ⟨status, store_refuses hstore, hrefused ?_⟩
      rw [hset, hpass]
      exact hstore
    | ok device' =>
      have hs : device.set fw fragment r = .ok device' := by
        rw [hset, hpass]
        exact hstore
      refine Or.inr ⟨device', rfl, ?_⟩
      simp only [Device.message, List.head?_cons, if_true, List.tail_cons, hblobs, hs, Except.map]

/-- A device that has the fragments before those left in its file. -/
structure Awaits (fw : Firmware) (options : OperationOptions) (data : Bytes)
    (token : Option (PinToken × PinUvAuthProtocol)) (received : Bytes)
    (pieces messages : List Bytes) (device : Device) : Prop where
  size : minLargeBlobArrayBytes ≤ data.length ∧ data.length ≤ maxLargeBlobArrayBytes
  built : Built fw.hashes options data.length token received.length pieces messages
  short : ∀ piece ∈ pieces, piece ≠ [] ∧ piece.length ≤ defaultMaxFragmentLength
  whole : received ++ pieces.flatten = data
  continues : Continues device received.length data.length received

/-- How a device takes a fragment, of which `rest` are still to come. -/
inductive Taken (fw : Firmware) (options : OperationOptions) (data : Bytes)
    (token : Option (PinToken × PinUvAuthProtocol)) (message : Bytes) (rest : List Bytes)
    (device : Device) : Prop where
  | refused (status : UInt8) (hs : status ≠ 0x00)
      (h : device.message fw message = ([status], device))
  | collected (received : Bytes) (pieces : List Bytes) (device' : Device) (hne : rest ≠ [])
      (h : device.message fw message = ([0x00], device')) (harray : device'.array = device.array)
      (hawaits : Awaits fw options data token received pieces rest device')
  | committed (device' : Device) (hrest : rest = [])
      (h : device.message fw message = ([0x00], device')) (harray : device'.array = data)

theorem Awaits.taken
    (h : Awaits fw options data token received pieces (message :: messages) device) :
    Taken fw options data token message messages device := by
  obtain ⟨hsize, hbuilt, hpieces, hdata, hcont⟩ := h
  cases hbuilt with
  | @cons _ piece _ pieces _ hset _ _ rest =>
  obtain ⟨⟨hpiece, hshort⟩, hothers⟩ := List.forall_mem_cons.mp hpieces
  have hpos := List.length_pos_iff.mpr hpiece
  have htotal := congrArg List.length hdata
  rw [List.flatten_cons] at hdata
  simp only [List.flatten_cons, List.length_append] at htotal
  have hmost : maxLargeBlobArrayBytes < 2 ^ 16 := by decide
  rcases message_fragment hsize (by omega) hshort hcont hset with
    ⟨status, hs, hmessage⟩ | ⟨device', hstore, hmessage⟩
  · exact .refused status hs hmessage
  · have hlen : (received ++ piece).length = received.length + piece.length :=
      List.length_append
    by_cases hlast : pieces = []
    · subst hlast
      cases rest
      rw [List.flatten_nil, List.append_nil] at hdata
      rw [Device.store, if_neg (by rw [hdata]; exact Nat.lt_irrefl _)] at hstore
      split_ifs at hstore
      cases hstore
      exact .committed _ rfl hmessage hdata
    · have hmore : 0 < pieces.flatten.length := by
        obtain ⟨next, others, rfl⟩ := List.exists_cons_of_ne_nil hlast
        have := List.length_pos_iff.mpr (hothers next List.mem_cons_self).1
        rw [List.flatten_cons, List.length_append]
        omega
      rw [Device.store, if_pos (show (received ++ piece).length < data.length by omega)] at hstore
      cases hstore
      have hrest : messages ≠ [] := by
        intro hnil
        apply hlast
        apply List.eq_nil_of_length_eq_zero
        rw [rest.length, hnil, List.length_nil]
      rw [← hlen] at rest
      rw [← List.append_assoc] at hdata
      exact .collected (received ++ piece) pieces _ hrest hmessage rfl
        ⟨hsize, rest, hothers, hdata, rfl, fun _ => rfl⟩

end fragments

section writers

variable {fw : Firmware} {options : OperationOptions} {data : Bytes}
  {token : Option (PinToken × PinUvAuthProtocol)} {array : Bytes} {device device' : Device}
  {cs : List LogicalCommand} {c : LogicalCommand} {rs : List ResponseData} {m m' : WriteArray}
  {r : ResponseData} {messages : List Bytes}

theorem acknowledged_taken : acknowledged ⟨[0x00], ⟨0x9000⟩⟩ = .ok () := rfl

theorem acknowledged_refused {status : UInt8} (h : status ≠ 0x00) :
    ∃ e, acknowledged ⟨[status], ⟨0x9000⟩⟩ = .error e := by
  cases hack : acknowledged ⟨[status], ⟨0x9000⟩⟩ with
  | error e => exact ⟨e, rfl⟩
  | ok _ =>
    obtain ⟨split, hsplit, hack⟩ := bind_eq_ok.mp hack
    obtain ⟨_, hensure, _⟩ := bind_eq_ok.mp hack
    have hread : splitStatus ⟨[status], ⟨0x9000⟩⟩ = .ok ⟨⟨status⟩, []⟩ := rfl
    cases hread.symm.trans hsplit
    have hzero : status = 0x00 := congrArg CtapStatus.raw (ensure_eq_ok.mp hensure)
    exact absurd hzero h

/-- Where a writer and the device are, before the writer's command. -/
inductive Writes (fw : Firmware) (options : OperationOptions) (data : Bytes)
    (token : Option (PinToken × PinUvAuthProtocol)) (array : Bytes) (m : WriteArray)
    (c : LogicalCommand) (device : Device) : Prop where
  | selecting (pieces : List Bytes) (hs : m.stage = .select) (hc : c = select)
      (harray : device.array = array) (hne : m.messages ≠ [])
      (h : Awaits fw options data token [] pieces m.messages device)
  | sending (message received : Bytes) (pieces : List Bytes) (hs : m.stage = .exchange)
      (hc : c = msg message) (harray : device.array = array)
      (h : Awaits fw options data token received pieces (message :: m.messages) device)

/-- What an answer of the device leaves behind. -/
inductive Written (fw : Firmware) (options : OperationOptions) (data : Bytes)
    (token : Option (PinToken × PinUvAuthProtocol)) (array : Bytes) (device : Device) :
    Except Error (Action Unit) × WriteArray → Prop where
  | failed (e : Error) (m' : WriteArray) (harray : device.array = array) :
      Written fw options data token array device (.error e, m')
  | went (c' : LogicalCommand) (m' : WriteArray)
      (h : Writes fw options data token array m' c' device) :
      Written fw options data token array device (.ok (.command c'), m')
  | ended (m' : WriteArray) (harray : device.array = data) :
      Written fw options data token array device (.ok (.done ()), m')

theorem Writes.command (h : Writes fw options data token array m c device) :
    c = select ∨ ∃ message, c = msg message := by
  cases h with
  | selecting pieces hs hc => exact Or.inl hc
  | sending message received pieces hs hc => exact Or.inr ⟨message, hc⟩

theorem Writes.kept (h : Writes fw options data token array m c device) :
    device.array = array := by
  cases h with
  | selecting pieces hs hc harray => exact harray
  | sending message received pieces hs hc harray => exact harray

/-- The fragments left are sent on. -/
theorem nextFragment_written {received : Bytes} {pieces : List Bytes} (hs : m.stage = .exchange)
    (hne : m.messages ≠ []) (harray : device.array = array)
    (h : Awaits fw options data token received pieces m.messages device) :
    Written fw options data token array device m.nextFragment := by
  obtain ⟨stage, messages⟩ := m
  obtain ⟨message, rest, rfl⟩ := List.exists_cons_of_ne_nil hne
  exact .went (msg message) _ (.sending message received pieces hs rfl harray h)

theorem Writes.next (h : Writes fw options data token array m c device)
    (hcall : Calls (fidoApplet fw) options device c r device') :
    Written fw options data token array device' (writing.next m (some r)) := by
  cases h with
  | selecting pieces hs hc harray hne h =>
    subst hc
    obtain ⟨rfl, rfl⟩ := calls_select hcall
    have hn : writing.next m (some ⟨[], ⟨0x9000⟩⟩) =
        { m with stage := .exchange }.nextFragment := by
      simp only [writing, WriteArray.next, hs]
      rfl
    rw [hn]
    exact nextFragment_written rfl hne harray h
  | sending message received pieces hs hc harray h =>
    subst hc
    obtain ⟨rfl, rfl⟩ := calls_msg hcall
    have hn (payload : Bytes) : writing.next m (some ⟨payload, ⟨0x9000⟩⟩) =
        m.exchangeNext ⟨payload, ⟨0x9000⟩⟩ := by
      simp only [writing, WriteArray.next, hs]
    rw [hn]
    cases h.taken with
    | refused status hstatus hmessage =>
      obtain ⟨e, hack⟩ := acknowledged_refused hstatus
      rw [hmessage, WriteArray.exchangeNext, hack]
      exact .failed e m harray
    | collected received pieces device' hne hmessage hsame hawaits =>
      rw [hmessage, WriteArray.exchangeNext, acknowledged_taken]
      exact nextFragment_written hs hne (hsame.trans harray) hawaits
    | committed device' hrest hmessage hdata =>
      rw [hmessage, WriteArray.exchangeNext, acknowledged_taken, WriteArray.nextFragment, hrest]
      exact .ended m hdata

/-- A writer before its first command. -/
structure Opens (fw : Firmware) (options : OperationOptions) (data : Bytes)
    (token : Option (PinToken × PinUvAuthProtocol)) (device : Device) (messages : List Bytes) :
    Prop where
  nonempty : messages ≠ []
  awaits : ∃ pieces, Awaits fw options data token [] pieces messages device

theorem writer_writes (ho : Opens fw options data token device messages)
    (ht : Trace writing ⟨.select, messages⟩ (cs ++ [c]) rs m)
    (hr : Replies (fidoApplet fw) options device cs rs device') :
    Writes fw options data token device.array m c device' := by
  refine @asked_invariant _ _ _ writing (fidoApplet fw) options _ device
    (fun _ m c device' => Writes fw options data token device.array m c device')
    ?_ ?_ cs c rs m device' ht hr
  · intro c m hn
    cases hn
    obtain ⟨pieces, h⟩ := ho.awaits
    exact .selecting pieces rfl rfl rfl ho.nonempty h
  · intro cs m c device₁ r device₂ c' m' h hcall hn
    have hwritten := h.next hcall
    rw [hn] at hwritten
    cases hwritten with
    | went _ _ h => exact h

theorem writer_talks (ho : Opens fw options data token device messages) :
    Talks writing (fidoApplet fw) options ⟨.select, messages⟩ device := by
  intro cs c rs m device' ht hr
  exact relayed_carriable (writer_writes ho ht hr).command

/-- A writer that has stopped has left the array or has replaced it. -/
theorem writer_stopped (ho : Opens fw options data token device messages)
    (ht : Trace writing ⟨.select, messages⟩ (cs ++ [c]) rs m)
    (hr : Replies (fidoApplet fw) options device cs rs device' ∨
      ∃ r, Replies (fidoApplet fw) options device (cs ++ [c]) (rs ++ [r]) device') :
    left device.array data device'.array := by
  rcases hr with hr | ⟨r, hr⟩
  · exact Or.inl (writer_writes ho ht hr).kept
  · obtain ⟨rs', r', device₁, hrs, hr', hcall⟩ := hr.last
    obtain ⟨rfl, _⟩ := List.append_inj' hrs rfl
    have hwritten := (writer_writes ho ht hr').next hcall
    generalize writing.next m (some r') = result at hwritten
    cases hwritten with
    | failed e m' harray => exact Or.inl harray
    | went c' m' h => exact Or.inl h.kept
    | ended m' harray => exact Or.inr harray

/-- A writer that is done has replaced the array. -/
theorem writer_done (ho : Opens fw options data token device messages) {u : Unit}
    (ht : LastTurn writing ⟨.select, messages⟩ (.ok (.done u)) cs rs m')
    (hr : Replies (fidoApplet fw) options device cs rs device') : device'.array = data := by
  cases ht with
  | opening h => cases h
  | @answering cs rs m m' r ht hn =>
    obtain ⟨own, c, rfl, _⟩ := ht.last
    obtain ⟨rs', r', device₁, hrs, hr', hcall⟩ := hr.last
    obtain ⟨rfl, hsame⟩ := List.append_inj' hrs rfl
    cases hsame
    have hwritten := (writer_writes ho ht hr').next hcall
    rw [hn] at hwritten
    cases hwritten with
    | ended _ harray => exact harray

theorem writeArray_opens {op : Operation WriteArray Unit}
    (h : writeArray fw.hashes data token options = .ok op) (device : Device) :
    ∃ messages, Operation.fromMachine ⟨.select, messages⟩ options = .ok op ∧
      Opens fw options data token device messages := by
  obtain ⟨hlen, _, hpos, messages, hbuilt, _, _, hop⟩ := writeArray_eq_ok h
  have hne : data ≠ [] := by
    rintro rfl
    exact absurd hlen.1 (by decide)
  have hpieces := fragments_pieces hne hpos
  have hshort : ∀ piece ∈ fragments (fragmentLength options) data,
      piece ≠ [] ∧ piece.length ≤ defaultMaxFragmentLength := fun piece hpiece =>
    ⟨hpieces.nonempty piece hpiece, Nat.le_trans (hpieces.short piece hpiece)
      (Nat.min_le_left _ _)⟩
  have hwhole : [] ++ (fragments (fragmentLength options) data).flatten = data :=
    hpieces.flatten
  refine ⟨messages, hop, ?_, _, ⟨hlen, hbuilt, hshort, hwhole, rfl, fun hnil => absurd rfl hnil⟩⟩
  rintro rfl
  apply hne
  have hzero := List.eq_nil_of_length_eq_zero hbuilt.length
  rw [← hpieces.flatten, hzero, List.flatten_nil]

/-- Wherever a write stops, the array is the one before or its own. -/
theorem interrupted_write {op : Operation WriteArray Unit}
    (hop : writeArray fw.hashes data token options = .ok op) (device : Device) (stop : Stop) :
    left device.array data (interrupted writing (fidoApplet fw) op device stop).2.array ∧
      ((interrupted writing (fidoApplet fw) op device stop).1.state = .completed →
        (interrupted writing (fidoApplet fw) op device stop).2.array = data) := by
  obtain ⟨messages, hmade, ho⟩ := writeArray_opens hop device
  have hatomic := interrupted_stands hmade (writer_talks ho) stop
  constructor
  · rcases hatomic.applet with hsame | ⟨cs, c, rs, m, ht, hr⟩
    · exact Or.inl (by rw [hsame])
    · exact writer_stopped ho ht hr
  · intro hs
    obtain ⟨cs, rs, m, u, ht, hr, _⟩ := hatomic.done hs
    exact writer_done ho ht hr

theorem write_shows (device : Device) (stop : Stop) :
    Shows left (content device) (hold fw device (.write data token options stop)).2
      (content (hold fw device (.write data token options stop)).1) := by
  cases hop : writeArray fw.hashes data token options with
  | error e =>
    simp only [hold, hop]
    exact .nothing
  | ok op =>
    simp only [hold, hop]
    obtain ⟨hleft, hdone⟩ := interrupted_write hop device stop
    generalize interrupted writing (fidoApplet fw) op device stop = result at hleft hdone ⊢
    have hupdate {v : Bytes} (hv : result.2.array = v) :
        content result.2 = Function.update (content device) () v := by
      funext _
      simpa [content] using hv
    by_cases hs : result.1.state = .completed
    · rw [if_pos hs, hupdate (hdone hs)]
      exact .event (.wrote () data)
    · rw [if_neg hs, hupdate rfl]
      exact .event (.torn () data _ hleft)

end writers

section readers

variable {fw : Firmware} {options : OperationOptions} {device device' : Device}
  {cs : List LogicalCommand} {c : LogicalCommand} {rs : List ResponseData} {m m' : ReadArray}
  {r : ResponseData} {v : Bytes}

/-- Where a reader is, before its command. -/
inductive Asks (options : OperationOptions) (array : Bytes) (m : ReadArray) (c : LogicalCommand) :
    Prop where
  | selecting (hm : m = .new options) (hc : c = select)
  | asking (h : Reads options array m) (hc : c = msg (readMessage m.chunk m.offset))

/-- What an answer of the device leaves behind. -/
inductive Answered (options : OperationOptions) (array : Bytes) :
    Except Error (Action Bytes) × ReadArray → Prop where
  | failed (e : Error) (m' : ReadArray) : Answered options array (.error e, m')
  | went (c' : LogicalCommand) (m' : ReadArray) (h : Asks options array m' c') :
      Answered options array (.ok (.command c'), m')
  | ended (m' : ReadArray) : Answered options array (.ok (.done array), m')

theorem Asks.command {array : Bytes} (h : Asks options array m c) :
    c = select ∨ ∃ message, c = msg message := by
  cases h with
  | selecting hm hc => exact Or.inl hc
  | asking h hc => exact Or.inr ⟨_, hc⟩

theorem readCommand_answered {array : Bytes} (h : Reads options array m) :
    Answered options array (m.readCommand, m) := by
  rw [readCommand_eq]
  exact .went _ m (.asking h rfl)

/-- What a reader does with the bytes of the array at its offset. -/
theorem Reads.answered {array : Bytes} (h : Reads options array m)
    (harray : array.length ≤ maxLargeBlobArrayBytes) :
    Answered options array
      (reading.next m (some ⟨readAnswer array m.chunk m.offset, ⟨0x9000⟩⟩)) := by
  rw [h.next harray]
  dsimp only
  have hlen : ((array.drop m.offset).take m.chunk).length =
      min m.chunk (array.length - m.offset) := by
    rw [List.length_take, List.length_drop]
  by_cases hshort : ((array.drop m.offset).take m.chunk).length < m.chunk
  · have hwhole : m.buffer ++ (array.drop m.offset).take m.chunk = array := by
      have hrest : (array.drop m.offset).take m.chunk = array.drop m.offset := by
        apply List.take_of_length_le
        rw [List.length_drop]
        omega
      rw [hrest, h.buffer, List.take_append_drop]
    rw [if_pos hshort, hwhole]
    exact .ended _
  · rw [if_neg hshort]
    by_cases hzero : m.remainingReads = 0
    · rw [if_pos hzero]
      exact .failed _ _
    · rw [if_neg hzero]
      have hwithin := h.within
      apply readCommand_answered
      refine ⟨h.stage, h.chunk, ?_, by dsimp only; omega⟩
      dsimp only
      rw [h.buffer, List.take_add]

theorem Asks.next (h : Asks options device.array m c)
    (harray : device.array.length ≤ maxLargeBlobArrayBytes)
    (hcall : Calls (fidoApplet fw) options device c r device') :
    device' = device ∧ Answered options device.array (reading.next m (some r)) := by
  cases h with
  | selecting hm hc =>
    subst hm hc
    obtain ⟨rfl, rfl⟩ := calls_select hcall
    refine ⟨rfl, ?_⟩
    have hn : reading.next (.new options) (some ⟨[], ⟨0x9000⟩⟩) =
        ({ ReadArray.new options with stage := .exchange }.readCommand,
          { ReadArray.new options with stage := .exchange }) := rfl
    rw [hn]
    exact readCommand_answered ⟨rfl, rfl, rfl, Nat.zero_le _⟩
  | asking h hc =>
    subst hc
    have hmost : maxLargeBlobArrayBytes < 2 ^ 16 := by decide
    have hreads : device.message fw (readMessage m.chunk m.offset) =
        (readAnswer device.array m.chunk m.offset, device) :=
      message_reads (h.chunk ▸ (readChunkLength_le options).1) h.within (by omega)
    obtain ⟨rfl, rfl⟩ := calls_msg hcall
    rw [hreads]
    exact ⟨rfl, Reads.answered h harray⟩

theorem reader_asks (harray : device.array.length ≤ maxLargeBlobArrayBytes)
    (ht : Trace reading (.new options) (cs ++ [c]) rs m)
    (hr : Replies (fidoApplet fw) options device cs rs device') :
    device' = device ∧ Asks options device.array m c := by
  refine @asked_invariant _ _ _ reading (fidoApplet fw) options _ device
    (fun _ m c device' => device' = device ∧ Asks options device.array m c)
    ?_ ?_ cs c rs m device' ht hr
  · intro c m hn
    cases hn
    exact ⟨rfl, .selecting rfl rfl⟩
  · rintro cs m c device₁ r device₂ c' m' ⟨rfl, h⟩ hcall hn
    obtain ⟨hsame, hanswered⟩ := h.next harray hcall
    rw [hn] at hanswered
    cases hanswered with
    | went _ _ h => exact ⟨hsame, h⟩

theorem reader_talks (harray : device.array.length ≤ maxLargeBlobArrayBytes) :
    Talks reading (fidoApplet fw) options (.new options) device := by
  intro cs c rs m device' ht hr
  exact relayed_carriable (reader_asks harray ht hr).2.command

/-- A reader leaves the device as it is, wherever it stops. -/
theorem reader_stopped (harray : device.array.length ≤ maxLargeBlobArrayBytes)
    (ht : Trace reading (.new options) (cs ++ [c]) rs m)
    (hr : Replies (fidoApplet fw) options device cs rs device' ∨
      ∃ r, Replies (fidoApplet fw) options device (cs ++ [c]) (rs ++ [r]) device') :
    device' = device := by
  rcases hr with hr | ⟨r, hr⟩
  · exact (reader_asks harray ht hr).1
  · obtain ⟨rs', r', device₁, hrs, hr', hcall⟩ := hr.last
    obtain ⟨rfl, _⟩ := List.append_inj' hrs rfl
    obtain ⟨rfl, h⟩ := reader_asks harray ht hr'
    exact (h.next harray hcall).1

/-- A reader that is done returns the array. -/
theorem reader_done (harray : device.array.length ≤ maxLargeBlobArrayBytes)
    (ht : LastTurn reading (.new options) (.ok (.done v)) cs rs m')
    (hr : Replies (fidoApplet fw) options device cs rs device') :
    v = device.array ∧ device' = device := by
  cases ht with
  | opening h => cases h
  | @answering cs rs m m' r ht hn =>
    obtain ⟨own, c, rfl, _⟩ := ht.last
    obtain ⟨rs', r', device₁, hrs, hr', hcall⟩ := hr.last
    obtain ⟨rfl, hsame⟩ := List.append_inj' hrs rfl
    cases hsame
    obtain ⟨rfl, h⟩ := reader_asks harray ht hr'
    obtain ⟨hkept, hanswered⟩ := h.next harray hcall
    rw [hn] at hanswered
    cases hanswered with
    | ended _ => exact ⟨rfl, hkept⟩

/-- Wherever a read stops, the device is as it was, and what the read returns is the array. -/
theorem interrupted_read {op : Operation ReadArray Bytes} (hop : readArray options = .ok op)
    (harray : device.array.length ≤ maxLargeBlobArrayBytes) (stop : Stop) :
    (interrupted reading (fidoApplet fw) op device stop).2 = device ∧
      ((interrupted reading (fidoApplet fw) op device stop).1.state = .completed →
        (interrupted reading (fidoApplet fw) op device stop).1.result = .ok device.array) := by
  obtain ⟨_, _, _, _, hmade⟩ := readArray_eq_ok hop
  have hatomic := interrupted_stands hmade (@reader_talks fw options device harray) stop
  constructor
  · rcases hatomic.applet with hsame | ⟨cs, c, rs, m, ht, hr⟩
    · exact hsame
    · exact reader_stopped harray ht hr
  · intro hs
    obtain ⟨cs, rs, m, v, ht, hr, hout⟩ := hatomic.done hs
    rw [Operation.result, if_neg (not_not.mpr hs), hout, (reader_done harray ht hr).1]

theorem read_shows (harray : device.array.length ≤ maxLargeBlobArrayBytes) (stop : Stop) :
    Shows left (content device) (hold fw device (.read options stop)).2
      (content (hold fw device (.read options stop)).1) := by
  cases hop : readArray options with
  | error e =>
    simp only [hold, hop]
    exact .nothing
  | ok op =>
    simp only [hold, hop]
    obtain ⟨hsame, hdone⟩ := @interrupted_read fw options device op hop harray stop
    generalize interrupted reading (fidoApplet fw) op device stop = result at hsame hdone ⊢
    rw [hsame]
    by_cases hs : result.1.state = .completed
    · rw [hdone hs]
      exact .event (.read ())
    · have hresult : result.1.result = .error stateError := if_pos hs
      rw [hresult]
      exact .nothing

end readers

/-- No session leaves an array that a reader could not hold. -/
theorem hold_bounded {fw : Firmware} {device : Device}
    (h : device.array.length ≤ maxLargeBlobArrayBytes) (session : Session) :
    (hold fw device session).1.array.length ≤ maxLargeBlobArrayBytes := by
  cases session with
  | write data token options stop =>
    cases hop : writeArray fw.hashes data token options with
    | error e =>
      simp only [hold, hop]
      exact h
    | ok op =>
      simp only [hold, hop]
      rcases (interrupted_write hop device stop).1 with hsame | hnew
      · rw [hsame]
        exact h
      · rw [hnew]
        exact (writeArray_eq_ok hop).1.2
  | read options stop =>
    cases hop : readArray options with
    | error e =>
      simp only [hold, hop]
      exact h
    | ok op =>
      simp only [hold, hop, (interrupted_read hop h stop).1, h]

/-- Over any sessions with it, each stopped anywhere, a device is a store of arrays that survives
them, and no write is ever seen in part. -/
theorem array_serves (fw : Firmware) {device : Device}
    (h : device.array.length ≤ maxLargeBlobArrayBytes) (sessions : List Session) :
    Serves left (content device) (logged (hold fw) device sessions).2
      (content (logged (hold fw) device sessions).1) := by
  refine (logged_run (I := fun device => device.array.length ≤ maxLargeBlobArrayBytes)
    (fun device e hd => hold_bounded hd e) ?_ h sessions).2.serves
  intro device e hd
  cases e with
  | write data token options stop => exact write_shows device stop
  | read options stop => exact read_shows hd stop

/-- An array of this byte and its trailer. -/
def arrayOf (b : UInt8) : Bytes := b :: (blobHashes.sha256 [b]).1.take 16

/-- The second write stops between its two fragments; of the third only the last answer is lost,
and the fourth has no trailer. -/
def tornSessions : List Session :=
  [.write sevenArray none narrowInput ⟨20, false⟩, .read {} ⟨20, false⟩,
    .write (arrayOf 8) none narrowInput ⟨2, false⟩, .read {} ⟨20, false⟩,
    .write (arrayOf 9) none narrowInput ⟨2, true⟩, .read {} ⟨20, false⟩,
    .write (List.replicate 20 1) none narrowInput ⟨20, false⟩, .read {} ⟨20, false⟩]

theorem array_serves_torn :
    Serves left (content { array := [] })
      (logged (hold ⟨blobHashes, 1024, Nat.le_refl _⟩) { array := [] } tornSessions).2
      (content (logged (hold ⟨blobHashes, 1024, Nat.le_refl _⟩) { array := [] } tornSessions).1) ∧
    (logged (hold ⟨blobHashes, 1024, Nat.le_refl _⟩) { array := [] } tornSessions).2 =
      [.wrote () sevenArray, .read () sevenArray, .torn () (arrayOf 8), .read () sevenArray,
        .torn () (arrayOf 9), .read () (arrayOf 9), .torn () (List.replicate 20 1),
        .read () (arrayOf 9)] :=
  ⟨array_serves _ (by decide) tornSessions, by decide +kernel⟩

end CtapLargeBlobHistory
