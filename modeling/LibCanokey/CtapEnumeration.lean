import LibCanokey.CtapCredentialManagement
import LibCanokey.CtapLargeBlobUpload
import LibCanokey.ProtocolCompletion
import LibCanokey.ProtocolStages

/-! # Enumerations are complete or fail

The first response reports how many entries there are; a list is returned only once it has as
many, and a report past the exchange budget fails before the first GetNext. -/
namespace CtapEnumeration

open BigEndian CheckedCursor ListTraversal ProtocolError ProtocolConversation ProtocolOperation
open ProtocolTranscript ProtocolStages ProtocolSession ProtocolDelivery ProtocolCompletion
open CtapCbor CtapMessage CtapFields CtapCredentialManagement CtapLargeBlobUpload

variable {T : Type} {s s' : Enumerate T} {r : ResponseData} {options : OperationOptions}

/-- A successful response and its CBOR payload. -/
def Carries (r : ResponseData) (value : Value) : Prop :=
  ∃ payload, splitStatus r = .ok ⟨⟨0x00⟩, payload⟩ ∧ decoded payload = .ok value

/-- An entry response. -/
def Entry (parseEntry : Value → Except Error T) (r : ResponseData) (item : T) : Prop :=
  ∃ value, Carries r value ∧ parseEntry value = .ok item

/-- A Begin response, with the number of entries and the first of them. -/
def Reports (totalKey : ℤ) (parseEntry : Value → Except Error T) (r : ResponseData)
    (total : UInt64) (item : T) : Prop :=
  ∃ value, Carries r value ∧ value.asMap.isSome = true ∧
    value.mapGetInt totalKey = some (.unsigned total) ∧ total ≠ 0 ∧ parseEntry value = .ok item

theorem Reports.total {totalKey : ℤ} {parseEntry : Value → Except Error T} {total : UInt64}
    {item : T} (h : Reports totalKey parseEntry r total item) : 0 < total.toNat := by
  obtain ⟨_, _, _, _, hzero, _⟩ := h
  apply Nat.pos_of_ne_zero
  intro h
  exact hzero (UInt64.toNat_inj.mp h)

/-- The response that there are no entries. -/
def NoEntries (r : ResponseData) : Prop := ∃ payload, splitStatus r = .ok ⟨⟨0x2e⟩, payload⟩

theorem entryResponse_eq_ok {item : T} :
    s.entryResponse r = .ok item ↔ Entry s.parseEntry r item := by
  constructor
  · intro h
    obtain ⟨⟨status, payload⟩, hsplit, h⟩ := bind_eq_ok.mp h
    obtain ⟨_, hstatus, h⟩ := bind_eq_ok.mp h
    obtain ⟨value, hvalue, hparse⟩ := bind_eq_ok.mp h
    cases ensure_eq_ok.mp hstatus
    exact ⟨value, ⟨payload, hsplit, hvalue⟩, hparse⟩
  · rintro ⟨value, ⟨payload, hsplit, hvalue⟩, hparse⟩
    have hrest := bind_eq_ok.mpr ⟨value, hvalue, hparse⟩
    exact bind_eq_ok.mpr ⟨_, hsplit, bind_eq_ok.mpr ⟨(), rfl, hrest⟩⟩

theorem beginResponse_eq_none (h : s.beginResponse r = .ok none) : NoEntries r := by
  obtain ⟨⟨⟨raw⟩, payload⟩, hsplit, h⟩ := bind_eq_ok.mp h
  dsimp only at h
  split_ifs at h with hraw
  · cases hraw
    exact ⟨payload, hsplit⟩
  · obtain ⟨_, _, h⟩ := bind_eq_ok.mp h
    obtain ⟨_, _, h⟩ := bind_eq_ok.mp h
    obtain ⟨_, _, h⟩ := bind_eq_ok.mp h
    obtain ⟨_, _, h⟩ := bind_eq_ok.mp h
    obtain ⟨_, _, h⟩ := bind_eq_ok.mp h
    split_ifs at h
    obtain ⟨_, _, h⟩ := bind_eq_ok.mp h
    cases h

theorem beginResponse_none (h : NoEntries r) : s.beginResponse r = .ok none := by
  obtain ⟨payload, hsplit⟩ := h
  exact bind_eq_ok.mpr ⟨_, hsplit, rfl⟩

theorem asUint_eq_some {value : Value} {n : UInt64} :
    value.asUint = some n ↔ value = .unsigned n := by
  cases value <;> simp [Value.asUint]

theorem beginResponse_eq_some {item : T} {remaining : ℕ} :
    s.beginResponse r = .ok (some (item, remaining)) ↔
      ∃ total, Reports s.totalKey s.parseEntry r total item ∧ remaining = total.toNat - 1 := by
  constructor
  · intro h
    obtain ⟨⟨⟨raw⟩, payload⟩, hsplit, h⟩ := bind_eq_ok.mp h
    dsimp only at h
    split_ifs at h with hraw
    · cases h
    · obtain ⟨_, hstatus, h⟩ := bind_eq_ok.mp h
      obtain ⟨value, hvalue, h⟩ := bind_eq_ok.mp h
      obtain ⟨m, hmap, h⟩ := bind_eq_ok.mp h
      obtain ⟨field, hfield, h⟩ := bind_eq_ok.mp h
      obtain ⟨total, htotal, h⟩ := bind_eq_ok.mp h
      split_ifs at h with hzero
      obtain ⟨item', hparse, h⟩ := bind_eq_ok.mp h
      cases h
      cases ensure_eq_ok.mp hstatus
      cases asUint_eq_some.mp (required_eq_ok.mp htotal)
      have hsome : value.asMap.isSome = true := by rw [required_eq_ok.mp hmap, Option.isSome_some]
      exact ⟨total, ⟨value, ⟨payload, hsplit, hvalue⟩, hsome, required_eq_ok.mp hfield, hzero,
        hparse⟩, rfl⟩
  · rintro ⟨total, ⟨value, ⟨payload, hsplit, hvalue⟩, hmap, hfield, hzero, hparse⟩, rfl⟩
    obtain ⟨m, hm⟩ := Option.isSome_iff_exists.mp hmap
    refine bind_eq_ok.mpr ⟨_, hsplit, bind_eq_ok.mpr ⟨(), rfl, bind_eq_ok.mpr ⟨value, hvalue,
      bind_eq_ok.mpr ⟨m, required_eq_ok.mpr hm, bind_eq_ok.mpr ⟨_, required_eq_ok.mpr hfield,
        bind_eq_ok.mpr ⟨total, rfl, ?_⟩⟩⟩⟩⟩⟩
    rw [if_neg hzero]
    exact bind_eq_ok.mpr ⟨item, hparse, rfl⟩

/-! ## The turns of the machine -/

/-- The machine of an operation before its first turn. -/
structure Fresh (options : OperationOptions) (s : Enumerate T) : Prop where
  stage : s.stage = .select
  bound : s.maxGetNext = options.limits.maxExchanges - 2
  items : s.items = []

/-- The machine after the Begin command. -/
def beginning (s : Enumerate T) : Enumerate T := { s with stage := .begin }

/-- The machine with some entries and the number of those to come. -/
def listing (s : Enumerate T) (items : List T) (remaining : ℕ) : Enumerate T :=
  { s with stage := .getNext, items := items, remaining := remaining }

/-- SELECT, Begin and so many GetNext. -/
def listCommands (s : Enumerate T) (n : ℕ) : List LogicalCommand :=
  select :: msg s.beginMessage :: List.replicate n (msg s.getNextMessage)

theorem listCommands_succ (s : Enumerate T) (n : ℕ) :
    listCommands s (n + 1) = listCommands s n ++ [msg s.getNextMessage] := by
  rw [listCommands, List.replicate_succ']
  rfl

theorem next_opening (h : Fresh options s) :
    (enumeration T).next s none = (.ok (.command select), s) := by
  simp only [enumeration, Enumerate.next, h.stage, Enumerate.selectNext]

theorem next_selected (h : Fresh options s) (r : ResponseData) :
    (∃ e, (enumeration T).next s (some r) = (.error e, s)) ∨
      (enumeration T).next s (some r) = (.ok (.command (msg s.beginMessage)), beginning s) := by
  simp only [enumeration, Enumerate.next, h.stage, Enumerate.selectNext]
  cases r.ensureSuccess .select with
  | error e => exact Or.inl ⟨e, rfl⟩
  | ok u => exact Or.inr rfl

theorem next_begun (s : Enumerate T) (r : ResponseData) :
    (enumeration T).next (beginning s) (some r) = (beginning s).beginNext r := rfl

theorem next_listing (s : Enumerate T) (items : List T) (remaining : ℕ) (r : ResponseData) :
    (enumeration T).next (listing s items remaining) (some r) =
      (listing s items remaining).entryNext r := rfl

/-- What a Begin response comes to. -/
theorem beginNext_reports (h : Fresh options s) {total : UInt64} {item : T}
    (hr : Reports s.totalKey s.parseEntry r total item) :
    (beginning s).beginNext r =
      if total.toNat - 1 > s.maxGetNext then
        (.error limit, { beginning s with items := [item], remaining := total.toNat - 1 })
      else if total.toNat - 1 = 0 then
        (.ok (.done [item]), { beginning s with items := [], remaining := total.toNat - 1 })
      else (.ok (.command (msg s.getNextMessage)), listing s [item] (total.toNat - 1)) := by
  have hresponse : (beginning s).beginResponse r = .ok (some (item, total.toNat - 1)) :=
    beginResponse_eq_some.mpr ⟨total, hr, rfl⟩
  simp only [Enumerate.beginNext, hresponse]
  simp only [beginning, h.items]
  rfl

/-- What an entry response comes to. -/
theorem entryNext_entry {items : List T} {remaining : ℕ} {item : T}
    (hr : Entry s.parseEntry r item) :
    (listing s items remaining).entryNext r =
      if remaining - 1 = 0 then
        (.ok (.done (items ++ [item])), { listing s items (remaining - 1) with items := [] })
      else
        (.ok (.command (msg s.getNextMessage)), listing s (items ++ [item]) (remaining - 1)) := by
  have hresponse : (listing s items remaining).entryResponse r = .ok item :=
    entryResponse_eq_ok.mpr hr
  simp only [Enumerate.entryNext, hresponse]
  rfl

theorem beginNext_command (h : Fresh options s) {c : LogicalCommand}
    (hn : (beginning s).beginNext r = (.ok (.command c), s')) :
    ∃ total item, Reports s.totalKey s.parseEntry r total item ∧ 0 < total.toNat - 1 ∧
      total.toNat - 1 ≤ s.maxGetNext ∧ c = msg s.getNextMessage ∧
      s' = listing s [item] (total.toNat - 1) := by
  rcases hb : (beginning s).beginResponse r with e | _ | ⟨item, remaining⟩
  · simp only [Enumerate.beginNext, hb] at hn
    cases hn
  · simp only [Enumerate.beginNext, hb] at hn
    cases hn
  · obtain ⟨total, hr, _⟩ := beginResponse_eq_some.mp hb
    rw [beginNext_reports h hr] at hn
    split_ifs at hn with hbound hone
    · cases hn
    · cases hn
    · cases hn
      exact ⟨total, item, hr, Nat.pos_of_ne_zero hone, Nat.le_of_not_lt hbound, rfl, rfl⟩

theorem beginNext_done (h : Fresh options s) {items : List T}
    (hn : (beginning s).beginNext r = (.ok (.done items), s')) :
    (items = [] ∧ NoEntries r) ∨
      ∃ total item, Reports s.totalKey s.parseEntry r total item ∧ total.toNat = 1 ∧
        items = [item] := by
  rcases hb : (beginning s).beginResponse r with e | _ | ⟨item, remaining⟩
  · simp only [Enumerate.beginNext, hb] at hn
    cases hn
  · simp only [Enumerate.beginNext, hb] at hn
    cases hn
    exact Or.inl ⟨rfl, beginResponse_eq_none hb⟩
  · obtain ⟨total, hr, _⟩ := beginResponse_eq_some.mp hb
    rw [beginNext_reports h hr] at hn
    split_ifs at hn with hbound hone
    · cases hn
    · cases hn
      have hpos := hr.total
      exact Or.inr ⟨total, item, hr, by omega, rfl⟩
    · cases hn

/-- A turn that goes on or is done has read an entry. -/
theorem entry_of_ok {items : List T} {remaining : ℕ} {action : Action (List T)}
    (hn : (listing s items remaining).entryNext r = (.ok action, s')) :
    ∃ item, Entry s.parseEntry r item := by
  cases he : (listing s items remaining).entryResponse r with
  | error e =>
    simp only [Enumerate.entryNext, he] at hn
    cases hn
  | ok item => exact ⟨item, entryResponse_eq_ok.mp he⟩

theorem entryNext_command {items : List T} {remaining : ℕ} {c : LogicalCommand}
    (hn : (listing s items remaining).entryNext r = (.ok (.command c), s')) :
    ∃ item, Entry s.parseEntry r item ∧ remaining - 1 ≠ 0 ∧ c = msg s.getNextMessage ∧
      s' = listing s (items ++ [item]) (remaining - 1) := by
  obtain ⟨item, hr⟩ := entry_of_ok hn
  rw [entryNext_entry hr] at hn
  split_ifs at hn with hlast
  · cases hn
  · cases hn
    exact ⟨item, hr, hlast, rfl, rfl⟩

theorem entryNext_done {items value : List T} {remaining : ℕ}
    (hn : (listing s items remaining).entryNext r = (.ok (.done value), s')) :
    ∃ item, Entry s.parseEntry r item ∧ remaining - 1 = 0 ∧ value = items ++ [item] := by
  obtain ⟨item, hr⟩ := entry_of_ok hn
  rw [entryNext_entry hr] at hn
  split_ifs at hn with hlast
  · cases hn
    exact ⟨item, hr, hlast, rfl⟩
  · cases hn

/-! ## The stages of a run -/

/-- The commands, responses and state of an enumeration before its last turn. While it lists, the
entries it has and those to come are as many as were reported, and there is one to come. -/
inductive ListStages (s₀ : Enumerate T) :
    List LogicalCommand → List ResponseData → Enumerate T → Prop where
  | selecting : ListStages s₀ [select] [] s₀
  | beginning (selected : ResponseData) :
      ListStages s₀ (listCommands s₀ 0) [selected] (beginning s₀)
  | listing (selected : ResponseData) {first : ResponseData} {given : List ResponseData}
      {total : UInt64} {item : T} {rest : List T} {remaining : ℕ}
      (hfirst : Reports s₀.totalKey s₀.parseEntry first total item)
      (hgiven : List.Forall₂ (Entry s₀.parseEntry) given rest)
      (hcount : rest.length + 1 + remaining = total.toNat) (hpos : 0 < remaining)
      (hbound : total.toNat - 1 ≤ s₀.maxGetNext) :
      ListStages s₀ (listCommands s₀ (rest.length + 1)) (selected :: first :: given)
        (listing s₀ (item :: rest) remaining)

theorem described (h : Fresh options s) : Described (enumeration T) s (ListStages s) := by
  constructor
  · intro c s' hn
    cases (next_opening h).symm.trans hn
    exact .selecting
  · intro cs rs s₁ r c s₂ hstage hn
    cases hstage with
    | selecting =>
      rcases next_selected h r with ⟨e, hs⟩ | hs
      · cases hs.symm.trans hn
      · cases hs.symm.trans hn
        exact .beginning r
    | beginning selected =>
      rw [next_begun] at hn
      obtain ⟨total, item, hr, hpos, hbound, rfl, rfl⟩ := beginNext_command h hn
      have hstage := @ListStages.listing T s selected r [] total item [] _ hr .nil
        (by rw [List.length_nil]; omega) hpos hbound
      rw [List.length_nil, listCommands_succ] at hstage
      exact hstage
    | @listing selected first given total item rest remaining hfirst hgiven hcount hpos hbound =>
      rw [next_listing] at hn
      obtain ⟨item', hr, hmore, rfl, rfl⟩ := entryNext_command hn
      have hnext : (rest ++ [item']).length + 1 + (remaining - 1) = total.toNat := by
        rw [List.length_append, List.length_singleton]
        omega
      have hstage := ListStages.listing selected hfirst (forall₂_concat hgiven hr) hnext
        (Nat.pos_of_ne_zero hmore) hbound
      rw [List.length_append, List.length_singleton, listCommands_succ] at hstage
      exact hstage

/-- A returned list: nothing after a status that there is nothing, or as many entries as were
reported. -/
inductive Listed (s₀ : Enumerate T) :
    List LogicalCommand → List ResponseData → List T → Prop where
  | nothing (selected : ResponseData) {r : ResponseData} (h : NoEntries r) :
      Listed s₀ (listCommands s₀ 0) [selected, r] []
  | entries (selected : ResponseData) {first : ResponseData} {given : List ResponseData}
      {total : UInt64} {item : T} {rest : List T}
      (hfirst : Reports s₀.totalKey s₀.parseEntry first total item)
      (hgiven : List.Forall₂ (Entry s₀.parseEntry) given rest)
      (hcount : (item :: rest).length = total.toNat) :
      Listed s₀ (listCommands s₀ (total.toNat - 1)) (selected :: first :: given) (item :: rest)

theorem listed (h : Fresh options s) {cs : List LogicalCommand} {rs : List ResponseData}
    {items : List T} {s' : Enumerate T}
    (ht : LastTurn (enumeration T) s (.ok (.done items)) cs rs s') : Listed s cs rs items := by
  cases ht with
  | opening hn => cases (next_opening h).symm.trans hn
  | @answering cs rs s₁ _ r ht hn =>
    cases (described h).trace ht with
    | selecting =>
      rcases next_selected h r with ⟨e, hs⟩ | hs
      · cases hs.symm.trans hn
      · cases hs.symm.trans hn
    | beginning selected =>
      rw [next_begun] at hn
      rcases beginNext_done h hn with ⟨rfl, hnone⟩ | ⟨total, item, hr, hone, rfl⟩
      · exact .nothing selected hnone
      · have hlist := @Listed.entries T s selected r [] total item [] hr .nil hone.symm
        rw [hone] at hlist
        exact hlist
    | @listing selected first given total item rest remaining hfirst hgiven hcount hpos hbound =>
      rw [next_listing] at hn
      obtain ⟨item', hr, hlast, rfl⟩ := entryNext_done hn
      have htotal : total.toNat = rest.length + 2 := by omega
      have hlist := Listed.entries selected hfirst (forall₂_concat hgiven hr)
        (by rw [List.length_cons, List.length_append, List.length_singleton, htotal])
      rw [htotal] at hlist
      exact hlist

/-- No list is decremented past its reported length. -/
theorem listing_remaining (h : Fresh options s) {cs : List LogicalCommand}
    {rs : List ResponseData} {s' : Enumerate T} (ht : Trace (enumeration T) s cs rs s')
    (hstage : s'.stage = .getNext) :
    0 < s'.remaining ∧ s'.remaining ≤ options.limits.maxExchanges - 2 := by
  cases (described h).trace ht with
  | selecting =>
    rw [h.stage] at hstage
    cases hstage
  | beginning selected => cases hstage
  | listing selected hfirst hgiven hcount hpos hbound =>
    refine ⟨hpos, ?_⟩
    rw [← h.bound]
    dsimp only [listing]
    omega

section run

variable {op : Operation (Enumerate T) (List T)}

theorem listed_of_output (h : Fresh options s) (hop : Operation.fromMachine s options = .ok op)
    {calls : List Call} {items : List T}
    (hout : (recorded (enumeration T) op calls).op.output = some items) :
    Listed s (recorded (enumeration T) op calls).commands
      (recorded (enumeration T) op calls).responses items := by
  have hfollows := recorded_follows (enumeration T) hop calls
  have hs : (recorded (enumeration T) op calls).op.state = .completed := by
    apply hfollows.lifecycle.output.mp
    rw [hout]
    rfl
  obtain ⟨s', value, ht, _, hvalue⟩ := hfollows.standing.of_finished (Or.inl hs)
  cases hout.symm.trans (hvalue hs)
  exact listed h ht

/-- A report past the exchange budget fails before the first GetNext. -/
theorem excess_fails (h : Fresh options s) (hop : Operation.fromMachine s options = .ok op)
    (calls : List Call) {call : Call} {total : UInt64} {item : T}
    (hr : answer (recorded (enumeration T) op calls).op call = some r)
    (hcs : (recorded (enumeration T) op calls).commands = listCommands s 0)
    (hreports : Reports s.totalKey s.parseEntry r total item)
    (hmany : options.limits.maxExchanges - 2 < total.toNat - 1) :
    ((recorded (enumeration T) op calls).op.call (enumeration T) call).1 = .step (.error limit) ∧
      ((recorded (enumeration T) op calls).op.call (enumeration T) call).2.state = .failed := by
  have hfollows := recorded_follows (enumeration T) hop calls
  have hh := answer_eq_some.mp hr
  rcases handed_state hh with ⟨_, hnone⟩ | ⟨hs, _⟩
  · cases hnone
  · obtain ⟨s', hm, ht, _⟩ := hfollows.standing.of_awaiting hs
    rw [hcs] at ht
    generalize hlist : listCommands s 0 = cs at ht
    generalize (recorded (enumeration T) op calls).responses = rs at ht
    cases (described h).trace ht with
    | selecting => cases hlist
    | beginning selected =>
      have hn := beginNext_reports h hreports
      rw [if_pos (by rw [h.bound]; exact hmany)] at hn
      exact call_failed (call_moves _ hfollows.lifecycle call) hh hm hn
    | listing => cases hlist

/-- A response that is no entry fails a list that is under way. -/
theorem interrupted_fails (h : Fresh options s) (hop : Operation.fromMachine s options = .ok op)
    (calls : List Call) {call : Call}
    (hr : answer (recorded (enumeration T) op calls).op call = some r)
    (hlen : 3 ≤ (recorded (enumeration T) op calls).commands.length)
    (hentry : ∀ item, ¬ Entry s.parseEntry r item) :
    ∃ e, ((recorded (enumeration T) op calls).op.call (enumeration T) call).1 = .step (.error e) ∧
      ((recorded (enumeration T) op calls).op.call (enumeration T) call).2.state = .failed := by
  have hfollows := recorded_follows (enumeration T) hop calls
  have hh := answer_eq_some.mp hr
  rcases handed_state hh with ⟨_, hnone⟩ | ⟨hs, _⟩
  · cases hnone
  · obtain ⟨s', hm, ht, _⟩ := hfollows.standing.of_awaiting hs
    have hcall := call_moves (enumeration T) hfollows.lifecycle call
    generalize (recorded (enumeration T) op calls).commands = cs at ht hlen
    generalize (recorded (enumeration T) op calls).responses = rs at ht
    cases (described h).trace ht with
    | selecting => exact absurd (show 3 ≤ 1 from hlen) (by decide)
    | beginning selected => exact absurd (show 3 ≤ 2 from hlen) (by decide)
    | @listing selected first given total item rest remaining hfirst hgiven hcount hpos hbound =>
      rcases he : (listing s (item :: rest) remaining).entryResponse r with e | item'
      · have hn : (enumeration T).next (listing s (item :: rest) remaining) (some r) =
            (.error e, listing s (item :: rest) remaining) := by
          rw [next_listing]
          simp only [Enumerate.entryNext, he]
        exact ⟨e, call_failed hcall hh hm hn⟩
      · exact absurd (entryResponse_eq_ok.mp he) (hentry item')

end run

/-! ## An authenticator that serves its entries -/

section serving

variable {κ : Type} {A : Applet κ} {I : ℕ → κ → Prop} {response : ℕ → ResponseData}
  {items : List T} {total : UInt64}

def sessionCommand (s : Enumerate T) : ℕ → LogicalCommand
  | 0 => select
  | 1 => msg s.beginMessage
  | _ + 2 => msg s.getNextMessage

/-- An authenticator that answers SELECT, reports its entries with the first and serves the others
in order, from one state of `I` to the next. -/
structure Serving (A : Applet κ) (I : ℕ → κ → Prop) (s : Enumerate T)
    (response : ℕ → ResponseData) (total : UInt64) (items : List T) : Prop where
  answers : ∀ i < items.length + 1, ∀ a, I i a → ∃ a',
    A a ⟨(sessionCommand s i).header, (sessionCommand s i).data, (sessionCommand s i).le⟩ =
      (response i, a') ∧ I (i + 1) a'
  status : ∀ i < items.length + 1, (response i).status = ⟨0x9000⟩
  count : items.length = total.toNat
  first : ∃ item, items[0]? = some item ∧ Reports s.totalKey s.parseEntry (response 1) total item
  rest : ∀ i item, items[i + 1]? = some item → Entry s.parseEntry (response (i + 2)) item

/-- Budgets for the whole session. -/
structure Sufficient (options : OperationOptions) (s : Enumerate T) (response : ℕ → ResponseData)
    (n : ℕ) : Prop where
  page : ∀ i < n + 1,
    min (response i).data.length 256 + 2 ≤ options.exchange.maxResponseBytes
  exchanges : ((List.range (n + 1)).map fun i =>
    exchangesOf options (sessionCommand s i) (response i).data.length).sum ≤
      options.limits.maxExchanges
  bytes : responseLength ((List.range (n + 1)).map response) ≤
    min usizeMax options.limits.maxTotalResponseBytes

def sessionState (s : Enumerate T) (items : List T) : ℕ → Enumerate T
  | 0 => s
  | 1 => beginning s
  | i + 2 => listing s (items.take (i + 1)) (items.length - (i + 1))

/-- The commands that a machine of the constructor sends are accepted. -/
structure Ready (options : OperationOptions) (s : Enumerate T) : Prop where
  fresh : Fresh options s
  accepted : ∀ i, ∃ k, ConversationState.new (sessionCommand s i) options = .ok k

theorem sessionCommand_relayed (s : Enumerate T) (i : ℕ) :
    Relayed (sessionCommand s i) ∧ (sessionCommand s i).le = .absent := by
  rcases i with _ | _ | i
  · exact ⟨select_relayed, rfl⟩
  · exact ⟨msg_relayed _, rfl⟩
  · exact ⟨msg_relayed _, rfl⟩

theorem session_next (h : Fresh options s) (hA : Serving A I s response total items)
    (hbound : items.length - 1 ≤ options.limits.maxExchanges - 2) {i : ℕ} (hi : i < items.length) :
    (enumeration T).next (sessionState s items i) (some (response i)) =
      (.ok (.command (sessionCommand s (i + 1))), sessionState s items (i + 1)) := by
  have hcount := hA.count
  rcases i with _ | _ | i
  · have hsuccess : (response 0).ensureSuccess .select = .ok () := by
      rw [ResponseData.ensureSuccess, hA.status 0 (Nat.succ_pos _)]
      rfl
    change (enumeration T).next s (some (response 0)) = _
    simp only [enumeration, Enumerate.next, h.stage, Enumerate.selectNext, hsuccess]
    rfl
  · obtain ⟨item, hitem, hreports⟩ := hA.first
    have htake : items.take 1 = [item] := by
      rw [List.take_add_one, hitem, List.take_zero, Option.toList_some, List.nil_append]
    change (enumeration T).next (beginning s) (some (response 1)) = _
    rw [next_begun, beginNext_reports h hreports, h.bound, if_neg (by omega), if_neg (by omega)]
    simp only [sessionState, sessionCommand, htake, hcount, Nat.zero_add]
  · have hget : items[i + 1]? = some items[i + 1] := List.getElem?_eq_getElem (by omega)
    have htake : items.take (i + 1 + 1) = items.take (i + 1) ++ [items[i + 1]] := by
      rw [List.take_add_one, hget, Option.toList_some]
    change (enumeration T).next (listing s _ _) (some (response (i + 2))) = _
    rw [next_listing, entryNext_entry (hA.rest i _ hget), if_neg (by omega)]
    simp only [sessionState, sessionCommand, htake, Nat.sub_sub]

/-- The last entry completes the list. -/
theorem session_done (h : Fresh options s) (hA : Serving A I s response total items)
    (hbound : items.length - 1 ≤ options.limits.maxExchanges - 2) :
    ∃ s', (enumeration T).next (sessionState s items items.length)
      (some (response items.length)) = (.ok (.done items), s') := by
  have hcount := hA.count
  obtain ⟨item, hitem, hreports⟩ := hA.first
  have hpos := hreports.total
  by_cases hone : items.length = 1
  · obtain ⟨only, rfl⟩ := List.length_eq_one_iff.mp hone
    cases hitem
    rw [List.length_singleton] at hcount hbound
    have hn := beginNext_reports h hreports
    rw [h.bound, if_neg (by omega), if_pos (by omega)] at hn
    exact ⟨_, hn⟩
  · obtain ⟨n, hn⟩ : ∃ n, items.length = n + 2 := ⟨items.length - 2, by omega⟩
    have hget : items[n + 1]? = some items[n + 1] := List.getElem?_eq_getElem (by omega)
    have hwhole : items.take (n + 1) ++ [items[n + 1]] = items := by
      have htake : items.take (n + 1 + 1) = items.take (n + 1) ++ [items[n + 1]] := by
        rw [List.take_add_one, hget, Option.toList_some]
      rw [← htake, ← hn, List.take_length]
    have hlast := @entryNext_entry T s _ (items.take (n + 1)) (items.length - (n + 1)) _
      (hA.rest n _ hget)
    rw [if_pos (by omega), hwhole] at hlast
    rw [hn]
    exact ⟨_, hlast⟩

/-- A message of the session and its answer, whatever they are cut into. -/
theorem command_answered (h : Ready options s) {i : ℕ} {r : ResponseData} {a a' : κ}
    (hanswer : A a ⟨(sessionCommand s i).header, (sessionCommand s i).data,
      (sessionCommand s i).le⟩ = (r, a'))
    (hpage : min r.data.length 256 + 2 ≤ options.exchange.maxResponseBytes)
    (hstatus : r.status = ⟨0x9000⟩) :
    ∃ k, Answers A options a (sessionCommand s i) k r a'
      (exchangesOf options (sessionCommand s i) r.data.length) := by
  obtain ⟨hrelayed, habsent⟩ := sessionCommand_relayed s i
  exact hrelayed.answers habsent (h.accepted i) hanswer hpage hstatus

/-- The authenticator answers the whole session. -/
theorem session_answered (h : Ready options s) (hA : Serving A I s response total items)
    (hb : Sufficient options s response items.length) {a : κ} (ha : I 0 a) :
    ∃ a', Answered A options a
      ((List.range (items.length + 1)).map (sessionCommand s))
      ((List.range (items.length + 1)).map response)
      ((List.range (items.length + 1)).map fun i =>
        exchangesOf options (sessionCommand s i) (response i).data.length).sum a' := by
  have hstep : ∀ i < items.length + 1, ∀ a, I i a → ∃ k a',
      Answers A options a (sessionCommand s i) k (response i) a'
        (exchangesOf options (sessionCommand s i) (response i).data.length) ∧ I (i + 1) a' := by
    intro i hi a ha
    obtain ⟨a', hanswer, hafter⟩ := hA.answers i hi a ha
    obtain ⟨k, hanswers⟩ := command_answered h hanswer (hb.page i hi) (hA.status i hi)
    exact ⟨k, a', hanswers, hafter⟩
  obtain ⟨a', hanswered, _⟩ := answered_indexed ha hstep
  exact ⟨a', hanswered⟩

/-- Within its budgets the enumeration returns every entry. -/
theorem session_returns_items (h : Ready options s) {op : Operation (Enumerate T) (List T)}
    (hop : Operation.fromMachine s options = .ok op) (hA : Serving A I s response total items)
    (hb : Sufficient options s response items.length) {a : κ} (ha : I 0 a) :
    Ends (execute (enumeration T) A op a).1 (.ok items) := by
  obtain ⟨a', hanswered⟩ := session_answered h hA hb ha
  have hcount : items.length + 1 ≤ options.limits.maxExchanges := by
    have hlen := hanswered.length_le
    rw [List.length_map, List.length_range] at hlen
    exact Nat.le_trans hlen hb.exchanges
  have hbound : items.length - 1 ≤ options.limits.maxExchanges - 2 := by omega
  obtain ⟨s', hdone⟩ := session_done h.fresh hA hbound
  have hopening : (enumeration T).next s none =
      (.ok (.command (sessionCommand s 0)), _) := next_opening h.fresh
  have hturns := lastTurn_indexed hopening (fun i hi => session_next h.fresh hA hbound hi) hdone
  have hne : (List.range (items.length + 1)).map (sessionCommand s) ≠ [] := by
    rw [List.range_succ_eq_map]
    exact List.cons_ne_nil _ _
  exact (execute_done hop hturns hne hanswered hb.exchanges hb.bytes).1

end serving

/-! ## The whole operation -/

theorem enumerate_eq_ok {beginMessage getNextMessage : Bytes} {totalKey : ℤ}
    {parseEntry : Value → Except Error T} {op : Operation (Enumerate T) (List T)}
    (h : enumerate beginMessage getNextMessage totalKey parseEntry options = .ok op) :
    ∃ s, Ready options s ∧ s.beginMessage = beginMessage ∧ s.getNextMessage = getNextMessage ∧
      s.totalKey = totalKey ∧ s.parseEntry = parseEntry ∧
      Operation.fromMachine s options = .ok op := by
  obtain ⟨o, ho, hbuilt⟩ := bind_eq_ok.mp h
  obtain ⟨_, rfl⟩ := validate_eq_ok.mp ho
  obtain ⟨_, _, hbuilt⟩ := bind_eq_ok.mp hbuilt
  obtain ⟨_, hbegin, hbuilt⟩ := bind_eq_ok.mp hbuilt
  obtain ⟨_, _, hbuilt⟩ := bind_eq_ok.mp hbuilt
  obtain ⟨_, hnext, hbuilt⟩ := bind_eq_ok.mp hbuilt
  obtain ⟨_, hselect, hbuilt⟩ := bind_eq_ok.mp hbuilt
  refine ⟨_, ⟨⟨rfl, rfl, rfl⟩, ?_⟩, rfl, rfl, rfl, rfl, hbuilt⟩
  intro i
  rcases i with _ | _ | i
  · exact (validateCommand_eq_ok.mp hselect).2
  · exact (validateCommand_eq_ok.mp hbegin).2
  · exact (validateCommand_eq_ok.mp hnext).2

/-- Every run of an enumeration. -/
structure Enumeration (options : OperationOptions) (s : Enumerate T)
    (op : Operation (Enumerate T) (List T)) : Prop where
  complete : ∀ {κ : Type} (A : Applet κ) (I : ℕ → κ → Prop) (response : ℕ → ResponseData)
    (total : UInt64) (items : List T) (a : κ), Serving A I s response total items → I 0 a →
    Sufficient options s response items.length →
    Ends (execute (enumeration T) A op a).1 (.ok items) ∧
      ∃ calls, (execute (enumeration T) A op a).1 = (recorded (enumeration T) op calls).op ∧
        (recorded (enumeration T) op calls).commands = listCommands s (items.length - 1)
  excess : ∀ calls call r total item, answer (recorded (enumeration T) op calls).op call = some r →
    (recorded (enumeration T) op calls).commands = listCommands s 0 →
    Reports s.totalKey s.parseEntry r total item →
    options.limits.maxExchanges - 2 < total.toNat - 1 →
    ((recorded (enumeration T) op calls).op.call (enumeration T) call).1 = .step (.error limit) ∧
      ∀ more, (recorded (enumeration T) op (calls ++ call :: more)).commands = listCommands s 0
  interrupted : ∀ calls call r, answer (recorded (enumeration T) op calls).op call = some r →
    3 ≤ (recorded (enumeration T) op calls).commands.length →
    (∀ item, ¬ Entry s.parseEntry r item) →
    ∃ e, ((recorded (enumeration T) op calls).op.call (enumeration T) call).1 = .step (.error e) ∧
      ((recorded (enumeration T) op calls).op.call (enumeration T) call).2.state = .failed
  returned : ∀ calls items, (recorded (enumeration T) op calls).op.output = some items →
    Listed s (recorded (enumeration T) op calls).commands
      (recorded (enumeration T) op calls).responses items
  remaining : ∀ cs rs s', Trace (enumeration T) s cs rs s' → s'.stage = .getNext →
    0 < s'.remaining ∧ s'.remaining ≤ options.limits.maxExchanges - 2

theorem Listed.commands {cs : List LogicalCommand} {rs : List ResponseData} {items : List T}
    (h : Listed s cs rs items) : cs = listCommands s (items.length - 1) := by
  cases h with
  | nothing => rfl
  | entries selected hfirst hgiven hcount => rw [hcount]

/-- Every run of a machine of the constructor. -/
theorem enumeration_runs {op : Operation (Enumerate T) (List T)} (hready : Ready options s)
    (hop : Operation.fromMachine s options = .ok op) : Enumeration options s op := by
  constructor
  · intro κ A I response total items a hA ha hb
    have hends := session_returns_items hready hop hA hb ha
    obtain ⟨calls, hcalls⟩ := execute_recorded (enumeration T) A op a
    have hout := hends.2
    rw [hcalls] at hout
    exact ⟨hends, calls, hcalls, (listed_of_output hready.fresh hop hout).commands⟩
  · intro calls call r total item hr hcs hreports hmany
    have hfails := excess_fails hready.fresh hop calls hr hcs hreports hmany
    refine ⟨hfails.1, ?_⟩
    intro more
    rw [recorded_stops hfails more, hcs]
  · intro calls call r hr hlen hentry
    exact interrupted_fails hready.fresh hop calls hr hlen hentry
  · intro calls items hout
    exact listed_of_output hready.fresh hop hout
  · intro cs rs s' ht hstage
    exact listing_remaining hready.fresh ht hstage

/-- An enumeration returns as many entries as were reported, or fails. -/
theorem enumeration_complete {beginMessage getNextMessage : Bytes} {totalKey : ℤ}
    {parseEntry : Value → Except Error T} {op : Operation (Enumerate T) (List T)}
    (h : enumerate beginMessage getNextMessage totalKey parseEntry options = .ok op) :
    ∃ s : Enumerate T, op.machine = some s ∧ s.beginMessage = beginMessage ∧
      s.getNextMessage = getNextMessage ∧ s.totalKey = totalKey ∧ s.parseEntry = parseEntry ∧
      Enumeration options s op := by
  obtain ⟨s, hready, hbegin, hnext, hkey, hparse, hop⟩ := enumerate_eq_ok h
  have hmachine : op.machine = some s := (fromMachine_created hop).2
  exact ⟨s, hmachine, hbegin, hnext, hkey, hparse, enumeration_runs hready hop⟩

/-- The responses of an authenticator with the entries 7 and 8, the first under the total. -/
def pairResponse : ℕ → ResponseData
  | 0 => ⟨[], ⟨0x9000⟩⟩
  | 1 => ⟨[0x00, 0xa2, 0x01, 0x07, 0x05, 0x02], ⟨0x9000⟩⟩
  | _ => ⟨[0x00, 0xa1, 0x01, 0x08], ⟨0x9000⟩⟩

def pairEntry (value : Value) : Except Error UInt64 := do
  required ((← required (value.mapGetInt 1)).asUint)

/-- Two entries, enumerated over the default channel. -/
theorem enumeration_complete_pair : ∃ op s, enumerate [0x0a] [0x0a] 5 pairEntry {} = .ok op ∧
    Enumeration {} s op ∧
    Ends (execute (enumeration UInt64) (fun i _ => (pairResponse i, i + 1)) op 0).1
      (.ok [7, 8]) := by
  have h : enumerate [0x0a] [0x0a] 5 pairEntry {} = .ok _ := rfl
  obtain ⟨s, _, hbegin, hnext, hkey, hparse, hruns⟩ := enumeration_complete h
  have hserves : Serving (fun i _ => (pairResponse i, i + 1)) (fun i a => a = i) s pairResponse 2
      [7, 8] := by
    refine ⟨?_, ?_, rfl, ?_, ?_⟩
    · rintro i hi a rfl
      exact ⟨a + 1, rfl, rfl⟩
    · intro i hi
      rcases i with _ | _ | i
      · rfl
      · rfl
      · rfl
    · refine ⟨7, rfl, .map [(.unsigned 1, .unsigned 7), (.unsigned 5, .unsigned 2)],
        ⟨[0xa2, 0x01, 0x07, 0x05, 0x02], rfl, rfl⟩, rfl, ?_, by decide, ?_⟩
      · rw [hkey]
        rfl
      · rw [hparse]
        rfl
    · rintro i item hitem
      rcases i with _ | i
      · cases hitem
        refine ⟨.map [(.unsigned 1, .unsigned 8)], ⟨[0xa1, 0x01, 0x08], rfl, rfl⟩, ?_⟩
        rw [hparse]
        rfl
      · simp at hitem
  have hb : Sufficient {} s pairResponse 2 := by
    refine ⟨by decide, ?_, by decide⟩
    change exchangesOf {} select 0 + (exchangesOf {} (msg s.beginMessage) 6 +
      (exchangesOf {} (msg s.getNextMessage) 4 + 0)) ≤ _
    rw [hbegin, hnext]
    decide
  exact ⟨_, s, h, hruns, (hruns.complete _ _ _ _ _ _ hserves rfl hb).1⟩

end CtapEnumeration
