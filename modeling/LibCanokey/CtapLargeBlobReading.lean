import LibCanokey.CtapLargeBlobRoundTrip
import LibCanokey.ProtocolCompletion
import LibCanokey.ProtocolStages

/-! # Reading the whole large-blob array

The reader asks for contiguous pieces of one length. It returns what they hold once one of them
is short, and stops with an error at the array bound or at the end of its budget. -/
namespace CtapLargeBlobReading

open BigEndian CheckedCursor ListTraversal ProtocolError ProtocolConversation ProtocolOperation
open ProtocolTranscript ProtocolStages ProtocolSession ProtocolDelivery ProtocolCompletion
open ProtocolAcceptance CtapCbor CtapMessage CtapFields CtapSubcommand CtapLargeBlob
open CtapLargeBlobFirmware CtapLargeBlobUpload CtapLargeBlobRoundTrip

variable {options : OperationOptions}

/-- SELECT, then so many reads at contiguous offsets. -/
def readCommands (options : OperationOptions) (n : ℕ) : List LogicalCommand :=
  select :: (List.range n).map fun i =>
    msg (readMessage (readChunkLength options) (i * readChunkLength options))

theorem readCommands_succ (options : OperationOptions) (n : ℕ) :
    readCommands options (n + 1) = readCommands options n ++
      [msg (readMessage (readChunkLength options) (n * readChunkLength options))] := by
  rw [readCommands, List.range_succ, List.map_append, List.map_singleton]
  rfl

theorem length_readCommands (options : OperationOptions) (n : ℕ) :
    (readCommands options n).length = n + 1 := by
  simp [readCommands]

/-- A successful answer and its substring. -/
def Fragment (r : ResponseData) (bytes : Bytes) : Prop :=
  ∃ payload, splitStatus r = .ok ⟨⟨0x00⟩, payload⟩ ∧ parseConfig payload = .ok bytes

theorem Fragment.unique {r : ResponseData} {bytes bytes' : Bytes} (h : Fragment r bytes)
    (h' : Fragment r bytes') : bytes = bytes' := by
  obtain ⟨payload, hsplit, hparse⟩ := h
  obtain ⟨payload', hsplit', hparse'⟩ := h'
  cases hsplit.symm.trans hsplit'
  cases hparse.symm.trans hparse'
  rfl

section reader

variable {s s' : ReadArray} {r : ResponseData} {bytes : Bytes}

theorem substring_of_fragment (h : Fragment r bytes) :
    s.substring r = if bytes.length > s.chunk then .error invalid
      else if s.buffer.length + bytes.length > maxLargeBlobArrayBytes then .error limit
      else .ok bytes := by
  obtain ⟨payload, hsplit, hparse⟩ := h
  simp only [ReadArray.substring, hsplit]
  change (parseConfig payload >>= _) = _
  rw [hparse]
  rfl

theorem substring_eq_ok :
    s.substring r = .ok bytes ↔ Fragment r bytes ∧ bytes.length ≤ s.chunk ∧
      s.buffer.length + bytes.length ≤ maxLargeBlobArrayBytes := by
  constructor
  · intro h
    obtain ⟨⟨status, payload⟩, hsplit, hstatus⟩ := bind_eq_ok.mp h
    obtain ⟨_, hsuccess, hconfig⟩ := bind_eq_ok.mp hstatus
    obtain ⟨b, hparse, hlimits⟩ := bind_eq_ok.mp hconfig
    split_ifs at hlimits with hchunk hbuffer
    cases hlimits
    have hzero : status = ⟨0x00⟩ := ensure_eq_ok.mp hsuccess
    subst hzero
    exact ⟨⟨payload, hsplit, hparse⟩, Nat.le_of_not_lt hchunk, Nat.le_of_not_lt hbuffer⟩
  · rintro ⟨hfragment, hchunk, hbuffer⟩
    rw [substring_of_fragment hfragment, if_neg (Nat.not_lt_of_le hchunk),
      if_neg (Nat.not_lt_of_le hbuffer)]

/-- A fragment that leaves the reader going. -/
structure Continues (s : ReadArray) (r : ResponseData) (bytes : Bytes) : Prop where
  fragment : Fragment r bytes
  full : bytes.length = s.chunk
  bounded : s.buffer.length + bytes.length ≤ maxLargeBlobArrayBytes
  budget : 0 < s.remainingReads

/-- A fragment that ends the array. -/
structure Finishes (s : ReadArray) (r : ResponseData) (bytes : Bytes) : Prop where
  fragment : Fragment r bytes
  short : bytes.length < s.chunk
  bounded : s.buffer.length + bytes.length ≤ maxLargeBlobArrayBytes

theorem exchangeNext_of_ok (h : s.substring r = .ok bytes) :
    s.exchangeNext r =
      let s := { s with buffer := s.buffer ++ bytes }
      if bytes.length < s.chunk then (.ok (.done s.buffer), { s with buffer := [] })
      else if s.remainingReads = 0 then (.error limit, s)
      else
        let s := { s with remainingReads := s.remainingReads - 1, offset := s.offset + s.chunk }
        (.ok (.command (msg (readMessage s.chunk s.offset))), s) := by
  simp only [ReadArray.exchangeNext, h, readCommand_eq]

theorem exchangeNext_command {c : LogicalCommand}
    (h : s.exchangeNext r = (.ok (.command c), s')) :
    ∃ bytes, Continues s r bytes ∧ c = msg (readMessage s.chunk (s.offset + s.chunk)) ∧
      s' = { s with
        buffer := s.buffer ++ bytes
        remainingReads := s.remainingReads - 1
        offset := s.offset + s.chunk } := by
  cases hsub : s.substring r with
  | error e =>
    simp only [ReadArray.exchangeNext, hsub] at h
    cases h
  | ok bytes =>
    obtain ⟨hfragment, hchunk, hbuffer⟩ := substring_eq_ok.mp hsub
    rw [exchangeNext_of_ok hsub] at h
    dsimp only at h
    split_ifs at h with hshort hbudget
    · cases h
    · cases h
    · cases h
      exact ⟨bytes, ⟨hfragment, Nat.le_antisymm hchunk (Nat.le_of_not_lt hshort), hbuffer,
        Nat.pos_of_ne_zero hbudget⟩, rfl, rfl⟩

theorem exchangeNext_done {value : Bytes} (h : s.exchangeNext r = (.ok (.done value), s')) :
    ∃ bytes, Finishes s r bytes ∧ value = s.buffer ++ bytes := by
  cases hsub : s.substring r with
  | error e =>
    simp only [ReadArray.exchangeNext, hsub] at h
    cases h
  | ok bytes =>
    obtain ⟨hfragment, _, hbuffer⟩ := substring_eq_ok.mp hsub
    rw [exchangeNext_of_ok hsub] at h
    dsimp only at h
    split_ifs at h with hshort hbudget
    · cases h
      exact ⟨bytes, ⟨hfragment, hshort, hbuffer⟩, rfl⟩
    · cases h
    · cases h

/-- Whatever the answer, the buffer keeps the bound. -/
theorem exchangeNext_bounded (hs : s.buffer.length ≤ maxLargeBlobArrayBytes) :
    (s.exchangeNext r).2.buffer.length ≤ maxLargeBlobArrayBytes := by
  cases hsub : s.substring r with
  | error e =>
    simp only [ReadArray.exchangeNext, hsub]
    exact hs
  | ok bytes =>
    obtain ⟨_, _, hbuffer⟩ := substring_eq_ok.mp hsub
    rw [← List.length_append] at hbuffer
    rw [exchangeNext_of_ok hsub]
    dsimp only
    split_ifs
    · exact Nat.zero_le _
    · exact hbuffer
    · exact hbuffer

/-- A full fragment goes on within the bounds and fails past them. -/
theorem exchangeNext_full (hfragment : Fragment r bytes) (hfull : bytes.length = s.chunk) :
    Continues s r bytes ∨ (s.exchangeNext r).1 = .error limit := by
  by_cases hbuffer : s.buffer.length + bytes.length ≤ maxLargeBlobArrayBytes
  · by_cases hbudget : s.remainingReads = 0
    · right
      have hsub := (@substring_eq_ok s r bytes).mpr ⟨hfragment, Nat.le_of_eq hfull, hbuffer⟩
      rw [exchangeNext_of_ok hsub]
      simp only [hfull, Nat.lt_irrefl, hbudget, if_true, if_false]
    · exact Or.inl ⟨hfragment, hfull, hbuffer, Nat.pos_of_ne_zero hbudget⟩
  · right
    have hsub : s.substring r = .error limit := by
      rw [substring_of_fragment hfragment, if_neg (by omega), if_pos (by omega)]
    simp only [ReadArray.exchangeNext, hsub]

theorem Continues.next (h : Continues s r bytes) :
    s.exchangeNext r = (.ok (.command (msg (readMessage s.chunk (s.offset + s.chunk)))),
      { s with
        buffer := s.buffer ++ bytes
        remainingReads := s.remainingReads - 1
        offset := s.offset + s.chunk }) := by
  have hfull := h.full
  have hbudget := h.budget
  rw [exchangeNext_of_ok (substring_eq_ok.mpr ⟨h.fragment, Nat.le_of_eq h.full, h.bounded⟩)]
  dsimp only
  rw [if_neg (by omega), if_neg (by omega)]

end reader

/-- A reader that has full pieces and has begun the read after them. -/
structure Gathered (options : OperationOptions) (pieces : List Bytes) (s : ReadArray) : Prop where
  stage : s.stage = .exchange
  chunk : s.chunk = readChunkLength options
  offset : s.offset = pieces.length * readChunkLength options
  reads : s.remainingReads + pieces.length = options.limits.maxExchanges - 1
  full : ∀ piece ∈ pieces, piece.length = readChunkLength options
  buffer : s.buffer = pieces.flatten
  bounded : s.buffer.length ≤ maxLargeBlobArrayBytes

theorem length_flatten_full {pieces : List Bytes} {size : ℕ}
    (h : ∀ piece ∈ pieces, piece.length = size) : pieces.flatten.length = pieces.length * size := by
  induction pieces with
  | nil => rw [List.flatten_nil, List.length_nil, List.length_nil, Nat.zero_mul]
  | cons piece pieces ih =>
    have hrest := ih fun p hp => h p (List.mem_cons_of_mem _ hp)
    rw [List.flatten_cons, List.length_append, h piece List.mem_cons_self, hrest, List.length_cons,
      Nat.succ_mul, Nat.add_comm]

theorem Gathered.length {pieces : List Bytes} {s : ReadArray} (h : Gathered options pieces s) :
    s.buffer.length = s.offset := by
  rw [h.buffer, length_flatten_full h.full, h.offset]

theorem gathered_nil (options : OperationOptions) :
    Gathered options [] { ReadArray.new options with stage := .exchange } := by
  refine ⟨rfl, rfl, ?_, rfl, ?_, rfl, Nat.zero_le _⟩
  · rw [List.length_nil, Nat.zero_mul]
    rfl
  · intro piece hpiece
    cases hpiece

/-- The step of a run: one more full piece. -/
theorem Gathered.continues {pieces : List Bytes} {s : ReadArray} {r : ResponseData} {bytes : Bytes}
    (h : Gathered options pieces s) (hc : Continues s r bytes) :
    Gathered options (pieces ++ [bytes]) { s with
      buffer := s.buffer ++ bytes
      remainingReads := s.remainingReads - 1
      offset := s.offset + s.chunk } := by
  have hreads := h.reads
  have hbudget := hc.budget
  refine ⟨h.stage, h.chunk, ?_, ?_, ?_, ?_, ?_⟩
  · rw [List.length_append, List.length_singleton, Nat.succ_mul, ← h.offset, h.chunk]
  · rw [List.length_append, List.length_singleton]
    dsimp only
    omega
  · intro piece hpiece
    rcases List.mem_append.mp hpiece with hpiece | hpiece
    · exact h.full piece hpiece
    · rw [List.mem_singleton.mp hpiece, hc.full, h.chunk]
  · dsimp only
    rw [List.flatten_append, ← h.buffer, List.flatten_singleton]
  · rw [List.length_append]
    exact hc.bounded

/-- The commands, responses and state of a reader before its last turn. -/
inductive ReadStages (options : OperationOptions) :
    List LogicalCommand → List ResponseData → ReadArray → Prop where
  | selecting : ReadStages options (readCommands options 0) [] (.new options)
  | reading {pieces : List Bytes} {selected : ResponseData} {rs : List ResponseData}
      {s : ReadArray} (h : Gathered options pieces s) (hrs : List.Forall₂ Fragment rs pieces) :
      ReadStages options (readCommands options (pieces.length + 1)) (selected :: rs) s

theorem next_new (options : OperationOptions) :
    reading.next (.new options) none = (.ok (.command select), .new options) := rfl

/-- The answer to SELECT is an error or the way to the first read. -/
theorem next_selected (options : OperationOptions) (r : ResponseData) :
    (∃ e, reading.next (.new options) (some r) = (.error e, .new options)) ∨
      reading.next (.new options) (some r) =
        (.ok (.command (msg (readMessage (readChunkLength options) 0))),
          { ReadArray.new options with stage := .exchange }) := by
  change (∃ e, (ReadArray.new options).selectNext (some r) = _) ∨
    (ReadArray.new options).selectNext (some r) = _
  simp only [ReadArray.selectNext]
  cases r.ensureSuccess .select with
  | error e => exact Or.inl ⟨e, rfl⟩
  | ok u =>
    right
    rw [readCommand_eq]
    rfl

theorem described (options : OperationOptions) :
    Described reading (.new options) (ReadStages options) := by
  constructor
  · intro c s h
    cases h
    exact .selecting
  · intro cs rs s r c s' h hn
    cases h with
    | selecting =>
      rcases next_selected options r with ⟨e, h⟩ | h
      · cases h.symm.trans hn
      · cases h.symm.trans hn
        have hfirst := @ReadStages.reading options [] r [] _ (gathered_nil options) .nil
        rw [List.length_nil, readCommands_succ, Nat.zero_mul] at hfirst
        exact hfirst
    | @reading pieces selected rs s hg hrs =>
      simp only [CtapLargeBlob.reading, ReadArray.next, hg.stage] at hn
      obtain ⟨bytes, hc, rfl, rfl⟩ := exchangeNext_command hn
      have hnext := @ReadStages.reading options _ selected _ _ (hg.continues hc)
        (forall₂_concat hrs hc.fragment)
      have hoffset : s.offset + s.chunk = (pieces.length + 1) * readChunkLength options := by
        rw [hg.chunk, hg.offset, Nat.succ_mul]
      rw [List.length_append, List.length_singleton, readCommands_succ, ← hoffset, ← hg.chunk]
        at hnext
      exact hnext

/-- A returned array: the full pieces and the short one that ended it, in as many reads. -/
structure Returned (options : OperationOptions) (cs : List LogicalCommand)
    (rs : List ResponseData) (array : Bytes) : Prop where
  pieces : ∃ (full : List Bytes) (short : Bytes) (selected : ResponseData)
    (given : List ResponseData), rs = selected :: given ∧
    List.Forall₂ Fragment given (full ++ [short]) ∧
    (∀ piece ∈ full, piece.length = readChunkLength options) ∧
    short.length < readChunkLength options ∧ array = (full ++ [short]).flatten
  bounded : array.length ≤ maxLargeBlobArrayBytes
  reads : cs = readCommands options (array.length / readChunkLength options + 1)

theorem returned {cs : List LogicalCommand} {rs : List ResponseData} {array : Bytes}
    {s : ReadArray} (h : LastTurn reading (.new options) (.ok (.done array)) cs rs s) :
    Returned options cs rs array := by
  cases h with
  | opening h => cases h
  | @answering cs rs s _ r ht hn =>
    cases (described options).trace ht with
    | selecting =>
      rcases next_selected options r with ⟨e, h⟩ | h
      · cases h.symm.trans hn
      · cases h.symm.trans hn
    | @reading pieces selected rs s hg hrs =>
      simp only [CtapLargeBlob.reading, ReadArray.next, hg.stage] at hn
      obtain ⟨bytes, hf, rfl⟩ := exchangeNext_done hn
      have hshort := hf.short
      have hbounded := hf.bounded
      have hlen := hg.length
      have hpos : 0 < readChunkLength options := by
        rw [← hg.chunk]
        omega
      have hcount : (s.buffer ++ bytes).length / readChunkLength options = pieces.length := by
        rw [List.length_append, hlen, hg.offset]
        rw [hg.chunk] at hshort
        rw [Nat.mul_comm, Nat.mul_add_div hpos, Nat.div_eq_of_lt hshort, Nat.add_zero]
      refine ⟨⟨pieces, bytes, selected, rs ++ [r], rfl, forall₂_concat hrs hf.fragment, hg.full,
        ?_, ?_⟩, ?_, ?_⟩
      · rw [← hg.chunk]
        exact hshort
      · rw [List.flatten_append, List.flatten_singleton, hg.buffer]
      · rw [List.length_append]
        exact hbounded
      · rw [hcount]

/-- Whatever the responses, the buffer keeps the bound. -/
theorem lastTurn_bounded {result : Except Error (Action Bytes)} {cs : List LogicalCommand}
    {rs : List ResponseData} {s : ReadArray} (h : LastTurn reading (.new options) result cs rs s) :
    s.buffer.length ≤ maxLargeBlobArrayBytes := by
  cases h with
  | opening h =>
    cases h
    exact Nat.zero_le _
  | @answering cs rs s _ r ht hn =>
    cases (described options).trace ht with
    | selecting =>
      rcases next_selected options r with ⟨e, h⟩ | h
      · cases h.symm.trans hn
        exact Nat.zero_le _
      · cases h.symm.trans hn
        exact Nat.zero_le _
    | @reading pieces selected rs s hg hrs =>
      simp only [CtapLargeBlob.reading, ReadArray.next, hg.stage] at hn
      have hkept := @exchangeNext_bounded s r hg.bounded
      rw [hn] at hkept
      exact hkept

/-- The reads a run can come to, within the array bound and the exchange budget. -/
theorem ReadStages.requests {cs : List LogicalCommand} {rs : List ResponseData} {s : ReadArray}
    (h : ReadStages options cs rs s) (hvalid : options.Valid)
    (hpos : 0 < readChunkLength options) :
    ∃ n, cs = readCommands options n ∧ n ≤ maxLargeBlobArrayBytes / readChunkLength options + 1 ∧
      n ≤ options.limits.maxExchanges := by
  cases h with
  | selecting => exact ⟨0, rfl, Nat.zero_le _, Nat.zero_le _⟩
  | @reading pieces selected rs s hg hrs =>
    have hbounded := hg.bounded
    have hreads := hg.reads
    rw [hg.length, hg.offset] at hbounded
    have hmost := (Nat.le_div_iff_mul_le hpos).mpr hbounded
    have hsome := hvalid.exchanges
    exact ⟨pieces.length + 1, rfl, Nat.succ_le_succ hmost, by omega⟩

/-- A command of the reader: SELECT, or a read within the array bound, no longer than the one
past its end that the constructor tries. -/
def Covered (options : OperationOptions) (c : LogicalCommand) : Prop :=
  c = select ∨ ∃ offset, c = msg (readMessage (readChunkLength options) offset) ∧
    offset ≤ maxLargeBlobArrayBytes ∧
    (readMessage (readChunkLength options) offset).length ≤
      (readMessage (readChunkLength options)
        (maxLargeBlobArrayBytes + readChunkLength options)).length

theorem readCommands_covered (hpos : 0 < readChunkLength options) {n : ℕ}
    (hn : n ≤ maxLargeBlobArrayBytes / readChunkLength options + 1) :
    ∀ c ∈ readCommands options n, Covered options c := by
  intro c hc
  rcases List.mem_cons.mp hc with rfl | hc
  · exact Or.inl rfl
  · obtain ⟨i, hi, rfl⟩ := List.mem_map.mp hc
    have hlt := List.mem_range.mp hi
    have hoffset : i * readChunkLength options ≤ maxLargeBlobArrayBytes :=
      (Nat.le_div_iff_mul_le hpos).mp (by omega)
    exact Or.inr ⟨_, rfl, hoffset, length_readMessage_le options hoffset⟩

theorem covered_accepted {op : Operation ReadArray Bytes} (h : readArray options = .ok op)
    {c : LogicalCommand} (hc : Covered options c) : Accepted options c := by
  obtain ⟨hvalid, hpos, hlast, hselect, _⟩ := readArray_eq_ok h
  rcases hc with rfl | ⟨offset, rfl, hoffset, _⟩
  · exact hselect
  · exact read_accepted hvalid hoffset hlast

/-- Every command the reader proposes is covered. -/
theorem proposal_covered {op : Operation ReadArray Bytes} (h : readArray options = .ok op)
    (calls : List Call) {call : Call} {c : LogicalCommand}
    (hc : proposal reading (recorded reading op calls).op call = some c) : Covered options c := by
  obtain ⟨hvalid, hpos, _, _, hmachine⟩ := readArray_eq_ok h
  obtain ⟨rs, s, ht⟩ := (recorded_follows reading hmachine calls).proposal hc
  obtain ⟨n, hn, hmost, _⟩ := ((described options).trace ht).requests hvalid hpos
  apply readCommands_covered hpos hmost
  rw [← hn]
  exact List.mem_append_right _ List.mem_cons_self

/-! ## Answers that end a run -/

theorem ReadStages.reading_of_length {cs : List LogicalCommand} {rs : List ResponseData}
    {s : ReadArray} (h : ReadStages options cs rs s) (hlen : 2 ≤ cs.length) :
    ∃ pieces, Gathered options pieces s := by
  cases h with
  | selecting =>
    rw [length_readCommands] at hlen
    omega
  | @reading pieces selected rs s hg hrs => exact ⟨pieces, hg⟩

/-- A reply to a read that is longer than requested fails the operation. -/
theorem overlong_fails {op : Operation ReadArray Bytes} (h : readArray options = .ok op)
    (calls : List Call) {call : Call} {r : ResponseData} {bytes : Bytes}
    (hr : answer (recorded reading op calls).op call = some r)
    (hlen : 2 ≤ (recorded reading op calls).commands.length) (hfragment : Fragment r bytes)
    (hlong : readChunkLength options < bytes.length) :
    ((recorded reading op calls).op.call reading call).1 = .step (.error invalid) ∧
      ((recorded reading op calls).op.call reading call).2.state = .failed := by
  obtain ⟨_, _, _, _, hmachine⟩ := readArray_eq_ok h
  have hfollows := recorded_follows reading hmachine calls
  have hh := answer_eq_some.mp hr
  rcases handed_state hh with ⟨_, hnone⟩ | ⟨hs, _⟩
  · cases hnone
  · obtain ⟨s, hm, ht, _⟩ := hfollows.standing.of_awaiting hs
    obtain ⟨pieces, hg⟩ := ((described options).trace ht).reading_of_length hlen
    have hsub : s.substring r = .error invalid := by
      rw [substring_of_fragment hfragment, hg.chunk, if_pos hlong]
    have hn : reading.next s (some r) = (.error invalid, s) := by
      simp only [CtapLargeBlob.reading, ReadArray.next, hg.stage, ReadArray.exchangeNext, hsub]
    exact call_failed (call_moves reading hfollows.lifecycle call) hh hm hn

/-- Full fragments run into the array bound or out of reads. The induction is on the turns, which
are more than the full pieces that still fit. -/
theorem dialogue_full {κ : Type*} {card : κ → LogicalCommand → ResponseData × κ}
    (hcard : ∀ k message, ∃ bytes, Fragment (card k (msg message)).1 bytes ∧
      bytes.length = readChunkLength options)
    {turns : ℕ} {pieces : List Bytes} {s : ReadArray} (h : Gathered options pieces s)
    (hturns : maxLargeBlobArrayBytes < s.buffer.length + turns * readChunkLength options)
    {k : κ} {r : ResponseData} {bytes : Bytes} (hfragment : Fragment r bytes)
    (hfull : bytes.length = readChunkLength options) :
    dialogue reading card turns s k (some r) = some (.error limit) := by
  induction turns generalizing pieces s k r bytes with
  | zero =>
    have hbounded := h.bounded
    omega
  | succ turns ih =>
    have hnext : reading.next s (some r) = s.exchangeNext r := by
      simp only [CtapLargeBlob.reading, ReadArray.next, h.stage]
    rw [← h.chunk] at hfull
    rw [dialogue, hnext]
    rcases exchangeNext_full hfragment hfull with hc | herror
    · rw [hc.next]
      obtain ⟨bytes', hfragment', hfull'⟩ :=
        hcard k (readMessage s.chunk (s.offset + s.chunk))
      refine ih (h.continues hc) ?_ hfragment' hfull'
      rw [List.length_append, hfull, h.chunk]
      rw [Nat.succ_mul] at hturns
      omega
    · generalize s.exchangeNext r = result at herror
      obtain ⟨reply, s'⟩ := result
      cases herror
      rfl

/-- An authenticator that always returns a full fragment is cut off after as many reads as the
array bound has full pieces, and one. -/
theorem dialogue_cut {κ : Type*} {card : κ → LogicalCommand → ResponseData × κ}
    (hselect : ∀ k, (card k select).1.status.isSuccess = true)
    (hcard : ∀ k message, ∃ bytes, Fragment (card k (msg message)).1 bytes ∧
      bytes.length = readChunkLength options)
    (hpos : 0 < readChunkLength options) {turns : ℕ}
    (hturns : maxLargeBlobArrayBytes / readChunkLength options + 3 ≤ turns) (k : κ) :
    dialogue reading card turns (.new options) k none = some (.error limit) := by
  obtain ⟨turns, rfl⟩ := Nat.exists_eq_add_of_le' (Nat.le_trans (Nat.le_add_left 2 _) hturns)
  have hreads : maxLargeBlobArrayBytes / readChunkLength options + 1 ≤ turns := by
    generalize maxLargeBlobArrayBytes / readChunkLength options = n at hturns ⊢
    omega
  rw [dialogue, next_new]
  dsimp only
  rw [dialogue]
  have hsuccess : (card k select).1.ensureSuccess .select = .ok () := by
    rw [ResponseData.ensureSuccess, if_pos (hselect k)]
  rcases next_selected options (card k select).1 with ⟨e, h⟩ | h
  · change (ReadArray.new options).selectNext (some (card k select).1) = _ at h
    simp only [ReadArray.selectNext, hsuccess, readCommand_eq] at h
    cases h
  · rw [h]
    dsimp only
    obtain ⟨bytes, hfragment, hfull⟩ :=
      hcard (card k select).2 (readMessage (readChunkLength options) 0)
    refine dialogue_full hcard (gathered_nil options) ?_ hfragment hfull
    have hmore := Nat.lt_mul_div_succ maxLargeBlobArrayBytes hpos
    rw [Nat.mul_comm] at hmore
    change _ < 0 + _
    rw [Nat.zero_add]
    exact Nat.lt_of_lt_of_le hmore (Nat.mul_le_mul_right _ hreads)

/-! ## An authenticator that clamps reads -/

section clamping

variable {κ : Type} {A : Applet κ} {I : κ → Prop} {greeting array : Bytes}

/-- An authenticator that, in the states of `I`, answers SELECT with `greeting` and a read with
what is left of `array` at its offset. -/
structure Clamping (A : Applet κ) (I : κ → Prop) (greeting array : Bytes) : Prop where
  selects : ∀ a, I a → ∃ a',
    A a ⟨select.header, select.data, select.le⟩ = (⟨greeting, ⟨0x9000⟩⟩, a') ∧ I a'
  reads : ∀ a chunk offset, I a → chunk ≤ defaultMaxFragmentLength → offset ≤ array.length →
    ∃ a', A a ⟨(msg (readMessage chunk offset)).header, readMessage chunk offset, .absent⟩ =
      (⟨readAnswer array chunk offset, ⟨0x9000⟩⟩, a') ∧ I a'

def sessionCommand (options : OperationOptions) : ℕ → LogicalCommand
  | 0 => select
  | i + 1 => msg (readMessage (readChunkLength options) (i * readChunkLength options))

def sessionResponse (options : OperationOptions) (greeting array : Bytes) : ℕ → ResponseData
  | 0 => ⟨greeting, ⟨0x9000⟩⟩
  | i + 1 =>
    ⟨readAnswer array (readChunkLength options) (i * readChunkLength options), ⟨0x9000⟩⟩

/-- SELECT, the full reads and the one that ends the array. -/
def sessionLength (options : OperationOptions) (array : Bytes) : ℕ :=
  array.length / readChunkLength options + 2

def sessionCost (options : OperationOptions) (greeting array : Bytes) (i : ℕ) : ℕ :=
  exchangesOf options (sessionCommand options i)
    (sessionResponse options greeting array i).data.length

/-- Budgets for the whole session. -/
structure Sufficient (options : OperationOptions) (greeting array : Bytes) : Prop where
  page : min greeting.length 256 + 2 ≤ options.exchange.maxResponseBytes
  exchanges : ((List.range (sessionLength options array)).map
    (sessionCost options greeting array)).sum ≤ options.limits.maxExchanges
  bytes : responseLength ((List.range (sessionLength options array)).map
    (sessionResponse options greeting array)) ≤
      min usizeMax options.limits.maxTotalResponseBytes

/-- The reader of a stored array after so many full reads. -/
def readerAt (options : OperationOptions) (array : Bytes) (i : ℕ) : ReadArray :=
  { stage := .exchange
    chunk := readChunkLength options
    offset := i * readChunkLength options
    remainingReads := options.limits.maxExchanges - 1 - i
    buffer := array.take (i * readChunkLength options) }

def sessionState (options : OperationOptions) (array : Bytes) : ℕ → ReadArray
  | 0 => .new options
  | i + 1 => readerAt options array i

theorem readerAt_reads {i : ℕ} (hi : i * readChunkLength options ≤ array.length) :
    Reads options array (readerAt options array i) := ⟨rfl, rfl, rfl, hi⟩

theorem length_piece {i : ℕ} (hi : (i + 1) * readChunkLength options ≤ array.length) :
    ((array.drop (i * readChunkLength options)).take (readChunkLength options)).length =
      readChunkLength options := by
  rw [Nat.succ_mul] at hi
  rw [List.length_take, List.length_drop]
  omega

/-- A full read goes on to the next one. -/
theorem readerAt_next (harray : array.length ≤ maxLargeBlobArrayBytes) {i : ℕ}
    (hi : (i + 1) * readChunkLength options ≤ array.length)
    (hreads : i < options.limits.maxExchanges - 1) :
    reading.next (readerAt options array i)
        (some (sessionResponse options greeting array (i + 1))) =
      (.ok (.command (sessionCommand options (i + 2))), readerAt options array (i + 1)) := by
  have hfull := @length_piece options array i hi
  have hbefore : i * readChunkLength options ≤ array.length := by
    rw [Nat.succ_mul] at hi
    omega
  have hn := (readerAt_reads hbefore).next harray
  have hlong : ¬ ((array.drop (readerAt options array i).offset).take
      (readerAt options array i).chunk).length < (readerAt options array i).chunk := by
    change ¬ ((array.drop (i * readChunkLength options)).take (readChunkLength options)).length <
      readChunkLength options
    rw [hfull]
    exact Nat.lt_irrefl _
  have hbudget : ¬ (readerAt options array i).remainingReads = 0 := by
    simp only [readerAt]
    omega
  simp only [hlong, if_false, hbudget, readCommand_eq] at hn
  simp only [readerAt, sessionResponse, sessionCommand, Nat.succ_mul, List.take_add,
    show options.limits.maxExchanges - 1 - (i + 1) =
      options.limits.maxExchanges - 1 - i - 1 by omega]
  exact hn

/-- The short read ends the array. -/
theorem readerAt_done (harray : array.length ≤ maxLargeBlobArrayBytes)
    (hpos : 0 < readChunkLength options) :
    ∃ s, reading.next (readerAt options array (array.length / readChunkLength options))
      (some (sessionResponse options greeting array
        (array.length / readChunkLength options + 1))) = (.ok (.done array), s) := by
  have hbefore := Nat.div_mul_le_self array.length (readChunkLength options)
  have hafter := Nat.lt_mul_div_succ array.length hpos
  rw [Nat.mul_comm, Nat.succ_mul] at hafter
  have hn := (readerAt_reads hbefore).next harray
  generalize array.length / readChunkLength options = n at hbefore hafter hn ⊢
  have hshort : ((array.drop (readerAt options array n).offset).take
      (readerAt options array n).chunk).length < (readerAt options array n).chunk := by
    simp only [readerAt, List.length_take, List.length_drop]
    omega
  have hwhole : (readerAt options array n).buffer ++
      (array.drop (readerAt options array n).offset).take (readerAt options array n).chunk =
        array := by
    have hrest : (array.drop (n * readChunkLength options)).take (readChunkLength options) =
        array.drop (n * readChunkLength options) := by
      apply List.take_of_length_le
      rw [List.length_drop]
      omega
    simp only [readerAt, hrest, List.take_append_drop]
  simp only [hshort, if_true, hwhole] at hn
  exact ⟨_, hn⟩

theorem div_mul_le {i : ℕ} (hi : i ≤ array.length / readChunkLength options) :
    i * readChunkLength options ≤ array.length :=
  Nat.le_trans (Nat.mul_le_mul_right _ hi) (Nat.div_mul_le_self _ _)

/-- The run of a machine whose answers are those of the stored array. -/
theorem session_turns (harray : array.length ≤ maxLargeBlobArrayBytes)
    (hpos : 0 < readChunkLength options)
    (hreads : sessionLength options array ≤ options.limits.maxExchanges) :
    ∃ s, LastTurn reading (.new options) (.ok (.done array))
      ((List.range (sessionLength options array)).map (sessionCommand options))
      ((List.range (sessionLength options array)).map (sessionResponse options greeting array))
      s := by
  obtain ⟨s, hdone⟩ := @readerAt_done options greeting array harray hpos
  simp only [sessionLength] at hreads ⊢
  have hwithin := @div_mul_le options array
  generalize array.length / readChunkLength options = n at hdone hreads hwithin ⊢
  have hstep : ∀ i < n + 1, reading.next (sessionState options array i)
      (some (sessionResponse options greeting array i)) =
        (.ok (.command (sessionCommand options (i + 1))), sessionState options array (i + 1)) := by
    intro i hi
    cases i with
    | zero =>
      have hzero :
          readerAt options array 0 = { ReadArray.new options with stage := .exchange } := by
        simp only [readerAt, Nat.zero_mul, List.take_zero, Nat.sub_zero]
        rfl
      have hfirst : reading.next (.new options) (some ⟨greeting, ⟨0x9000⟩⟩) =
          ({ ReadArray.new options with stage := .exchange }.readCommand,
            { ReadArray.new options with stage := .exchange }) := rfl
      rw [readCommand_eq, ← hzero] at hfirst
      exact hfirst
    | succ i =>
      exact readerAt_next harray (hwithin (by omega)) (by omega)
  have hopen : reading.next (.new options) none =
      (.ok (.command (sessionCommand options 0)), sessionState options array 0) := rfl
  exact ⟨s, lastTurn_indexed hopen hstep hdone⟩

/-- The authenticator answers the whole session. -/
theorem session_answered {op : Operation ReadArray Bytes} (h : readArray options = .ok op)
    (hA : Clamping A I greeting array) {a : κ} (ha : I a)
    (harray : array.length ≤ maxLargeBlobArrayBytes)
    (hpage : min greeting.length 256 + 2 ≤ options.exchange.maxResponseBytes) :
    ∃ a', Answered A options a
      ((List.range (sessionLength options array)).map (sessionCommand options))
      ((List.range (sessionLength options array)).map (sessionResponse options greeting array))
      ((List.range (sessionLength options array)).map (sessionCost options greeting array)).sum
      a' := by
  obtain ⟨hvalid, hpos, hlast, hselect, _⟩ := readArray_eq_ok h
  have hchunk := readChunkLength_le options
  have hstep : ∀ i < sessionLength options array, ∀ a, I a → ∃ k a',
      Answers A options a (sessionCommand options i) k (sessionResponse options greeting array i) a'
        (sessionCost options greeting array i) ∧ I a' := by
    intro i hi a ha
    cases i with
    | zero =>
      obtain ⟨a', hselects, hafter⟩ := hA.selects a ha
      obtain ⟨k, hanswers⟩ := select_relayed.answers rfl hselect hselects hpage rfl
      exact ⟨k, a', hanswers, hafter⟩
    | succ i =>
      have hoffset : i * readChunkLength options ≤ array.length :=
        div_mul_le (by simp only [sessionLength] at hi; omega)
      obtain ⟨a', hreads, hafter⟩ := hA.reads a _ _ ha hchunk.1 hoffset
      have hlen := @length_readAnswer_le options array (i * readChunkLength options)
      simp only [readResponseOverhead] at hchunk
      obtain ⟨k, hanswers⟩ := (msg_relayed _).answers rfl
        (read_accepted hvalid (Nat.le_trans hoffset harray) hlast) hreads
        (by dsimp only; omega) rfl
      exact ⟨k, a', hanswers, hafter⟩
  obtain ⟨a', hanswered, _⟩ := answered_indexed (I := fun _ => I) ha hstep
  exact ⟨a', hanswered⟩

theorem range_commands (options : OperationOptions) (n : ℕ) :
    (List.range (n + 1)).map (sessionCommand options) = readCommands options n := by
  rw [List.range_succ_eq_map, List.map_cons, List.map_map]
  rfl

/-- Within its budgets the reader returns the stored array. -/
theorem session_returns_array {op : Operation ReadArray Bytes} (h : readArray options = .ok op)
    (hA : Clamping A I greeting array) {a : κ} (ha : I a)
    (harray : array.length ≤ maxLargeBlobArrayBytes) (hb : Sufficient options greeting array) :
    Ends (execute reading A op a).1 (.ok array) := by
  obtain ⟨_, hpos, _, _, hmachine⟩ := readArray_eq_ok h
  obtain ⟨a', hanswered⟩ := session_answered h hA ha harray hb.page
  have hcount : sessionLength options array ≤ options.limits.maxExchanges := by
    have hlen := hanswered.length_le
    rw [List.length_map, List.length_range] at hlen
    exact Nat.le_trans hlen hb.exchanges
  obtain ⟨s, hturns⟩ := @session_turns options greeting array harray hpos hcount
  have hne : (List.range (sessionLength options array)).map (sessionCommand options) ≠ [] := by
    rw [sessionLength, range_commands]
    exact List.cons_ne_nil _ _
  exact (execute_done hmachine hturns hne hanswered hb.exchanges hb.bytes).1

/-- The firmware is such an authenticator. -/
theorem fidoApplet_clamping (fw : Firmware) (harray : array.length ≤ maxLargeBlobArrayBytes) :
    Clamping (fidoApplet fw) (fun device => device.array = array) [] array := by
  constructor
  · intro device hdevice
    exact ⟨device, applet_select fw device, hdevice⟩
  · rintro device chunk offset rfl hchunk hoffset
    have hmost : maxLargeBlobArrayBytes < 2 ^ 16 := by decide
    have hreads : device.message fw (readMessage chunk offset) =
        (readAnswer device.array chunk offset, device) :=
      message_reads hchunk hoffset (by omega)
    have happlet := applet_msg fw device (readMessage chunk offset)
    rw [hreads] at happlet
    exact ⟨device, happlet, rfl⟩

end clamping

/-! ## The whole operation -/

/-- Every run of a reader and what it comes to against authenticators that clamp reads or never
end the array. -/
structure Reader (options : OperationOptions) (op : Operation ReadArray Bytes) : Prop where
  returns : ∀ {κ : Type} (A : Applet κ) (I : κ → Prop) (greeting array : Bytes) (a : κ),
    Clamping A I greeting array → I a → array.length ≤ maxLargeBlobArrayBytes →
    Sufficient options greeting array →
    Ends (execute reading A op a).1 (.ok array) ∧
      ∃ calls, (execute reading A op a).1 = (recorded reading op calls).op ∧
        (recorded reading op calls).commands =
          readCommands options (array.length / readChunkLength options + 1)
  requests : ∀ calls, (recorded reading op calls).commands = [] ∨
    ∃ n, (recorded reading op calls).commands = readCommands options n ∧
      n ≤ maxLargeBlobArrayBytes / readChunkLength options + 1 ∧ n ≤ options.limits.maxExchanges
  returned : ∀ calls array, (recorded reading op calls).op.output = some array →
    Returned options (recorded reading op calls).commands (recorded reading op calls).responses
      array
  buffer : ∀ result cs rs s, LastTurn reading (.new options) result cs rs s →
    s.buffer.length ≤ maxLargeBlobArrayBytes
  overlong : ∀ calls call r bytes, answer (recorded reading op calls).op call = some r →
    2 ≤ (recorded reading op calls).commands.length → Fragment r bytes →
    readChunkLength options < bytes.length →
    ((recorded reading op calls).op.call reading call).1 = .step (.error invalid) ∧
      ((recorded reading op calls).op.call reading call).2.state = .failed
  cut : ∀ {κ : Type} (card : κ → LogicalCommand → ResponseData × κ) (k : κ) (turns : ℕ),
    (∀ k, (card k select).1.status.isSuccess = true) →
    (∀ k message, ∃ bytes, Fragment (card k (msg message)).1 bytes ∧
      bytes.length = readChunkLength options) →
    maxLargeBlobArrayBytes / readChunkLength options + 3 ≤ turns →
    dialogue reading card turns (.new options) k none = some (.error limit)
  endless : ∀ replies : List Bytes, options.limits.maxExchanges ≤ replies.length →
    (∀ r ∈ (recorded reading op (.start :: replies.map .advance)).responses.tail, ∀ bytes,
      Fragment r bytes → readChunkLength options ≤ bytes.length) →
    (recorded reading op (.start :: replies.map .advance)).op.state = .failed
  covered : ∀ calls call c, proposal reading (recorded reading op calls).op call = some c →
    Covered options c ∧ Accepted options c
  unrejected : ∀ calls call, rejection reading (recorded reading op calls).op call = none

theorem returned_of_output {op : Operation ReadArray Bytes} (h : readArray options = .ok op)
    {calls : List Call} {array : Bytes}
    (hout : (recorded reading op calls).op.output = some array) :
    Returned options (recorded reading op calls).commands (recorded reading op calls).responses
      array := by
  obtain ⟨_, _, _, _, hmachine⟩ := readArray_eq_ok h
  have hfollows := recorded_follows reading hmachine calls
  have hs : (recorded reading op calls).op.state = .completed := by
    apply hfollows.lifecycle.output.mp
    rw [hout]
    rfl
  obtain ⟨s, value, ht, _, hvalue⟩ := hfollows.standing.of_finished (Or.inl hs)
  cases hout.symm.trans (hvalue hs)
  exact returned ht

/-- Without a short fragment no reader completes. -/
theorem endless_fails {op : Operation ReadArray Bytes} (h : readArray options = .ok op)
    {replies : List Bytes} (hlen : options.limits.maxExchanges ≤ replies.length)
    (hlong : ∀ r ∈ (recorded reading op (.start :: replies.map .advance)).responses.tail, ∀ bytes,
      Fragment r bytes → readChunkLength options ≤ bytes.length) :
    (recorded reading op (.start :: replies.map .advance)).op.state = .failed := by
  obtain ⟨_, _, _, _, hmachine⟩ := readArray_eq_ok h
  have hstate := started_state (M := reading) hmachine replies
  have hends := not_waiting (M := reading) hmachine hlen
  have hfollows := recorded_follows reading hmachine (.start :: replies.map .advance)
  generalize recorded reading op (.start :: replies.map .advance) = run at *
  simp only [List.mem_cons, List.not_mem_nil, or_false] at hstate
  rcases hstate with hs | hs | hs
  · exact absurd hs hends
  · obtain ⟨s, value, ht, _, _⟩ := hfollows.standing.of_finished (Or.inl hs)
    obtain ⟨full, short, selected, given, hrs, hgiven, _, hshort, _⟩ := (returned ht).pieces
    rw [hrs, List.tail_cons] at hlong
    obtain ⟨r, hr, hfragment⟩ :=
      exists_of_mem_right hgiven (List.mem_append_right _ List.mem_cons_self)
    have := hlong r hr short hfragment
    omega
  · exact hs

/-- An accepted reader returns the stored array of an authenticator that clamps reads, keeps to
its bounds in every run and sends only messages that the constructor's worst case covers. -/
theorem large_blob_read {op : Operation ReadArray Bytes} (h : readArray options = .ok op) :
    Reader options op := by
  obtain ⟨hvalid, hpos, _, _, hmachine⟩ := readArray_eq_ok h
  constructor
  · intro κ A I greeting array a hA ha harray hb
    have hends := session_returns_array h hA ha harray hb
    obtain ⟨calls, hcalls⟩ := execute_recorded reading A op a
    refine ⟨hends, calls, hcalls, ?_⟩
    have hout := hends.2
    rw [hcalls] at hout
    exact (returned_of_output h hout).reads
  · intro calls
    rcases (described options).exposed hmachine calls with hnil | ⟨rs, s, _, hstages⟩
    · exact Or.inl hnil
    · exact Or.inr (hstages.requests hvalid hpos)
  · intro calls array hout
    exact returned_of_output h hout
  · intro result cs rs s ht
    exact lastTurn_bounded ht
  · intro calls call r bytes hr hlen hfragment hlong
    exact overlong_fails h calls hr hlen hfragment hlong
  · intro κ card k turns hselect hcard hturns
    exact dialogue_cut hselect hcard hpos hturns k
  · intro replies hlen hlong
    exact endless_fails h hlen hlong
  · intro calls call c hc
    have hcovered := proposal_covered h calls hc
    exact ⟨hcovered, covered_accepted h hcovered⟩
  · intro calls call
    apply rejection_eq_none
    intro c hc
    have hoptions := (recorded_follows reading hmachine calls).lifecycle.options
    rw [hoptions]
    exact covered_accepted h (proposal_covered h calls hc)

/-- Reads of ten bytes. -/
def narrowReads : OperationOptions := { exchange := { maxResponseBytes := 26 } }

/-- The byte 7 and its trailer, read in two pieces from a device with a PIN. -/
theorem large_blob_read_seven : ∃ op, readArray narrowReads = .ok op ∧ Reader narrowReads op ∧
    sessionLength narrowReads sevenArray = 3 ∧
    Ends (execute reading (fidoApplet ⟨blobHashes, 1024, Nat.le_refl _⟩) op
      { pinDevice with array := sevenArray }).1 (.ok sevenArray) := by
  have h : readArray narrowReads = .ok _ := rfl
  have hreader := large_blob_read h
  have hlen : sevenArray.length ≤ maxLargeBlobArrayBytes := by decide
  have hb : Sufficient narrowReads [] sevenArray := ⟨by decide, by decide, by decide⟩
  exact ⟨_, h, hreader, by decide,
    (hreader.returns _ _ _ _ _ (fidoApplet_clamping _ hlen) rfl hlen hb).1⟩

end CtapLargeBlobReading
