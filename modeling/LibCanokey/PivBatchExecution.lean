import LibCanokey.PivAccessOrdering
import LibCanokey.PivBatchAdmission

/-! # How far a batch has got

The requests of a batch run one after another, each over its own stretch of commands and
responses. Items, failure index and byte budget follow from where the stretches end. -/
namespace PivBatchExecution

open BigEndian CheckedCursor ListTraversal ProtocolError ProtocolApdu ProtocolConversation
open ProtocolOperation ScriptedRuns ProtocolTranscript CompatProfile PivCommand PivManagement
open PivAccess PivAccessOrdering PivPrivate PivBatch PivBatchAdmission

/-- The retained bytes of the items. -/
def itemBytes (items : List BatchItem) : ℕ := (items.map BatchItem.byteLen).sum

theorem itemBytes_concat (items : List BatchItem) (item : BatchItem) :
    itemBytes (items ++ [item]) = itemBytes items + item.byteLen := by
  simp [itemBytes]

/-- Requests that ran to their values, each over its own commands and responses. -/
inductive Finished : List (Boxed BatchItem) → List BatchItem → List LogicalCommand →
    List ResponseData → Prop where
  | nothing : Finished [] [] [] []
  | request {front : List (Boxed BatchItem)} {items : List BatchItem} {cs own : List LogicalCommand}
      {rs given : List ResponseData} {b : Boxed BatchItem} {s : b.State} {item : BatchItem}
      (hf : Finished front items cs rs)
      (ht : LastTurn b.machine b.state (.ok (.done item)) own given s) :
      Finished (front ++ [b]) (items ++ [item]) (cs ++ own) (rs ++ given)

theorem Finished.length {front : List (Boxed BatchItem)} {items : List BatchItem}
    {cs : List LogicalCommand} {rs : List ResponseData} (h : Finished front items cs rs) :
    front.length = items.length := by
  induction h with
  | nothing => rfl
  | request _ _ ih => simp [ih]

/-- What a request has exposed and was answered, in the middle of its run or at its end. -/
inductive Reached (b : Boxed BatchItem) :
    List LogicalCommand → List ResponseData → Prop where
  | unstarted : Reached b [] []
  | waiting {own : List LogicalCommand} {given : List ResponseData} {s : b.State}
      (ht : Trace b.machine b.state own given s) : Reached b own given
  | stopped {result : Except Error (Action BatchItem)} {own : List LogicalCommand}
      {given : List ResponseData} {s : b.State}
      (ht : LastTurn b.machine b.state result own given s) : Reached b own given

/-- A batch waits for an answer of the request after the finished ones. -/
inductive Waiting (boxes : List (Boxed BatchItem)) (limit : ℕ) :
    List LogicalCommand → List ResponseData → BatchMachine → Prop where
  | at {front rest : List (Boxed BatchItem)} {b : Boxed BatchItem} {items : List BatchItem}
      {cs own : List LogicalCommand} {rs given : List ResponseData} {s : b.State}
      (hb : boxes = front ++ b :: rest) (hf : Finished front items cs rs)
      (ht : Trace b.machine b.state own given s) (hfit : itemBytes items ≤ limit) :
      Waiting boxes limit (cs ++ own) (rs ++ given)
        ⟨rest, some { b with state := s }, ⟨items, none⟩, itemBytes items, limit⟩

/-- What a batch is left with when it fails or finishes. -/
inductive Ended (boxes : List (Boxed BatchItem)) (limit : ℕ) :
    Except Error (Action BatchResults) → List LogicalCommand → List ResponseData →
    BatchMachine → Prop where
  | finished {items : List BatchItem} {cs : List LogicalCommand} {rs : List ResponseData}
      (hf : Finished boxes items cs rs) (hfit : itemBytes items ≤ limit) :
      Ended boxes limit (.ok (.done ⟨items, none⟩)) cs rs ⟨[], none, {}, itemBytes items, limit⟩
  | failed {front rest : List (Boxed BatchItem)} {b : Boxed BatchItem} {items : List BatchItem}
      {cs own : List LogicalCommand} {rs given : List ResponseData} {e : Error} {s : b.State}
      {bytes : ℕ} {result : Except Error (Action BatchItem)}
      (hb : boxes = front ++ b :: rest) (hf : Finished front items cs rs)
      (ht : LastTurn b.machine b.state result own given s) (hfit : itemBytes items ≤ limit) :
      Ended boxes limit (.error e) (cs ++ own) (rs ++ given)
        ⟨rest, some { b with state := s }, ⟨items, none⟩, bytes, limit⟩

/-- A turn of a batch goes on with a command, or it fails or finishes. -/
def Turned (boxes : List (Boxed BatchItem)) (limit : ℕ) (cs : List LogicalCommand)
    (rs : List ResponseData) (turn : BatchTurn) : Prop :=
  (∃ c, turn.1 = .ok (.command c) ∧ Waiting boxes limit (cs ++ [c]) rs turn.2) ∨
    ((∀ c, turn.1 ≠ .ok (.command c)) ∧ Ended boxes limit turn.1 cs rs turn.2)

/-- The turn of the loop after the running request has finished within the budget. -/
def finishLoop (limit : ℕ) (pending : List (Boxed BatchItem)) (results : BatchResults)
    (resultBytes : ℕ) : BatchTurn :=
  match pending with
  | [] => (.ok (.done results), ⟨[], none, {}, resultBytes, limit⟩)
  | next :: pending => BatchMachine.loop limit next pending results resultBytes none

/-- Everything a turn of the loop can do after the turn of the running request. -/
inductive LoopTurn (limit : ℕ) (pending : List (Boxed BatchItem)) (results : BatchResults)
    (resultBytes : ℕ) (after : Boxed BatchItem) :
    Except Error (Action BatchItem) → BatchTurn → Prop where
  | command (c : LogicalCommand) :
      LoopTurn limit pending results resultBytes after (.ok (.command c))
        (.ok (.command c), ⟨pending, some after, results, resultBytes, limit⟩)
  | failed (result : Except Error (Action BatchItem)) (e : Error) (bytes : ℕ) :
      LoopTurn limit pending results resultBytes after result
        (.error e, ⟨pending, some after, results, bytes, limit⟩)
  | done (item : BatchItem) (hfit : resultBytes + item.byteLen ≤ limit) :
      LoopTurn limit pending results resultBytes after (.ok (.done item))
        (finishLoop limit pending { results with items := results.items ++ [item] }
          (resultBytes + item.byteLen))

theorem loop_turn {limit : ℕ} {current after : Boxed BatchItem}
    {pending : List (Boxed BatchItem)} {results : BatchResults} {resultBytes : ℕ}
    {response : Option ResponseData} {result : Except Error (Action BatchItem)}
    (hn : current.next response = (result, after)) :
    LoopTurn limit pending results resultBytes after result
      (BatchMachine.loop limit current pending results resultBytes response) := by
  rw [BatchMachine.loop, hn]
  rcases result with e | c | item
  · exact .failed _ e resultBytes
  · exact .command c
  · dsimp only
    cases hadd : checkedAdd resultBytes item.byteLen with
    | none => exact .failed _ limitExceeded resultBytes
    | some total =>
      obtain ⟨rfl, _⟩ := checkedAdd_eq_some.mp hadd
      dsimp only
      split_ifs with hbig
      · exact .failed _ PivObjects.oversized _
      · exact .done item (Nat.le_of_not_lt hbig)

theorem box_next {b : Boxed BatchItem} {s s' : b.State} {response : Option ResponseData}
    {result : Except Error (Action BatchItem)} (hn : b.machine.next s response = (result, s')) :
    Boxed.next { b with state := s } response = (result, { b with state := s' }) := by
  simp only [Boxed.next, hn]

/-- One turn of the loop, up to what follows a finished request. -/
theorem next_turned {boxes front pending : List (Boxed BatchItem)} {b : Boxed BatchItem}
    {items : List BatchItem} {cs own : List LogicalCommand} {rs given : List ResponseData}
    {s s' : b.State} {response : Option ResponseData} {limit : ℕ}
    {result : Except Error (Action BatchItem)}
    (hb : boxes = front ++ b :: pending) (hf : Finished front items cs rs)
    (hfit : itemBytes items ≤ limit) (hlast : LastTurn b.machine b.state result own given s')
    (hn : Boxed.next { b with state := s } response = (result, { b with state := s' }))
    (hdone : ∀ item, result = .ok (.done item) → itemBytes (items ++ [item]) ≤ limit →
      Turned boxes limit (cs ++ own) (rs ++ given)
        (finishLoop limit pending ⟨items ++ [item], none⟩ (itemBytes (items ++ [item])))) :
    Turned boxes limit (cs ++ own) (rs ++ given)
      (BatchMachine.loop limit { b with state := s } pending ⟨items, none⟩ (itemBytes items)
        response) := by
  have hturn := @loop_turn limit _ _ pending ⟨items, none⟩ (itemBytes items) response _ hn
  generalize BatchMachine.loop limit { b with state := s } pending ⟨items, none⟩
    (itemBytes items) response = turn at hturn ⊢
  cases hturn with
  | command c =>
    refine Or.inl ⟨c, rfl, ?_⟩
    rw [List.append_assoc]
    exact .at hb hf hlast.trace hfit
  | failed _ e bytes =>
    refine Or.inr ⟨?_, .failed hb hf hlast hfit⟩
    intro c hc
    cases hc
  | done item hsum =>
    rw [← itemBytes_concat] at hsum ⊢
    exact hdone item rfl hsum

/-- The loop of one turn, by induction on the requests still pending: every request that
finishes without a command lengthens the finished ones. -/
theorem loop_turned {boxes front pending : List (Boxed BatchItem)} {b : Boxed BatchItem}
    {items : List BatchItem} {cs own : List LogicalCommand} {rs given : List ResponseData}
    {s : b.State} {response : Option ResponseData} {limit : ℕ}
    (hb : boxes = front ++ b :: pending) (hf : Finished front items cs rs)
    (hfit : itemBytes items ≤ limit)
    (ht : ∀ result s', b.machine.next s response = (result, s') →
      LastTurn b.machine b.state result own given s') :
    Turned boxes limit (cs ++ own) (rs ++ given)
      (BatchMachine.loop limit { b with state := s } pending ⟨items, none⟩ (itemBytes items)
        response) := by
  induction pending generalizing front b items cs own rs given s response with
  | nil =>
    rcases hn : b.machine.next s response with ⟨result, s'⟩
    have hlast := ht result s' hn
    apply next_turned hb hf hfit hlast (box_next hn)
    intro item hitem hsum
    subst hitem
    refine Or.inr ⟨?_, ?_⟩
    · intro c hc
      cases hc
    · rw [hb]
      exact .finished (.request hf hlast) hsum
  | cons next pending ih =>
    rcases hn : b.machine.next s response with ⟨result, s'⟩
    have hlast := ht result s' hn
    apply next_turned hb hf hfit hlast (box_next hn)
    intro item hitem hsum
    subst hitem
    have hnext : boxes = (front ++ [b]) ++ next :: pending := by
      rw [hb, List.append_assoc]
      rfl
    have hturned := @ih (front ++ [b]) next (items ++ [item]) (cs ++ own) [] (rs ++ given) []
      next.state none hnext (.request hf hlast) hsum fun _ _ h => .opening h
    rw [List.append_nil, List.append_nil] at hturned
    exact hturned

variable {boxes : List (Boxed BatchItem)} {options : OperationOptions}

theorem new_turned : Turned boxes options.limits.maxTotalResponseBytes [] []
    ((BatchMachine.new boxes options).next none) := by
  cases boxes with
  | nil =>
    refine Or.inr ⟨?_, .finished .nothing (Nat.zero_le _)⟩
    intro c hc
    cases hc
  | cons b rest =>
    have h := @loop_turned (b :: rest) [] rest b [] [] [] [] [] b.state none
      options.limits.maxTotalResponseBytes rfl .nothing (Nat.zero_le _) fun _ _ h => .opening h
    exact h

theorem waiting_turned {limit : ℕ} {cs : List LogicalCommand} {rs : List ResponseData}
    {s : BatchMachine} (h : Waiting boxes limit cs rs s) (r : ResponseData) :
    Turned boxes limit cs (rs ++ [r]) (s.next (some r)) := by
  cases h with
  | «at» hb hf ht hfit =>
    rw [List.append_assoc]
    exact loop_turned hb hf hfit fun _ _ hn => .answering ht hn

/-- A trace of the batch waits for the request after the finished ones. -/
theorem batch_trace {cs : List LogicalCommand} {rs : List ResponseData} {s : BatchMachine}
    (h : Trace batchMachine (.new boxes options) cs rs s) :
    Waiting boxes options.limits.maxTotalResponseBytes cs rs s := by
  have hgo {cs : List LogicalCommand} {rs : List ResponseData} {turn : BatchTurn}
      {c : LogicalCommand} (ht : Turned boxes options.limits.maxTotalResponseBytes cs rs turn)
      (hc : turn.1 = .ok (.command c)) :
      Waiting boxes options.limits.maxTotalResponseBytes (cs ++ [c]) rs turn.2 := by
    rcases ht with ⟨c', hc', hw⟩ | ⟨hne, _⟩
    · rw [hc'] at hc
      cases hc
      exact hw
    · exact absurd hc (hne c)
  induction h with
  | @opened c m h =>
    obtain ⟨hr, rfl⟩ := Prod.mk.inj h
    exact hgo new_turned hr
  | answered _ h ih =>
    obtain ⟨hr, rfl⟩ := Prod.mk.inj h
    exact hgo (waiting_turned ih _) hr

/-- The last turn of the batch is a turn after its finished requests. -/
theorem batch_last {result : Except Error (Action BatchResults)} {cs : List LogicalCommand}
    {rs : List ResponseData} {s : BatchMachine}
    (h : LastTurn batchMachine (.new boxes options) result cs rs s) :
    Turned boxes options.limits.maxTotalResponseBytes cs rs (result, s) := by
  cases h with
  | opening h =>
    have ht := @new_turned boxes options
    rw [show (BatchMachine.new boxes options).next none = (result, s) from h] at ht
    exact ht
  | @answering _ _ m _ r ht h =>
    have hw := waiting_turned (batch_trace ht) r
    rw [show m.next (some r) = (result, s) from h] at hw
    exact hw

section selected

variable {σ : Type*} {T : Type} {cipher : BlockCipher} {M : Machine σ T} {legacy : Bool} {t₀ : σ}

/-- Where a target stands that needs no authentication. -/
inductive PlainStage (M : Machine σ T) (legacy : Bool) (t₀ : σ) :
    List LogicalCommand → List ResponseData → Selected σ → Prop where
  | selecting : PlainStage M legacy t₀ [select] [] ⟨.select, legacy, none, none, t₀⟩
  | running {own : List LogicalCommand} {r : ResponseData} {given : List ResponseData} {t : σ}
      (hr : r.status.isSuccess = true) (ht : Trace M t₀ own given t) :
      PlainStage M legacy t₀ (select :: own) (r :: given) ⟨.target, legacy, none, none, t⟩

theorem plain_preamble {cs : List LogicalCommand} {rs : List ResponseData}
    (h : Preamble cipher .none cs rs) :
    ∃ r, r.status.isSuccess = true ∧ cs = [select] ∧ rs = [r] := by
  cases h with
  | cleared _ _ hc =>
    change Cleared cipher none cs rs at hc
    cases hc with
    | plain hr => exact ⟨_, hr, rfl, rfl⟩
  | verified hp _ => cases hp

theorem plain_staged {plain : List LogicalCommand} {rs : List ResponseData} {s : Selected σ}
    (h : Staged cipher M legacy .none t₀ plain rs s) : PlainStage M legacy t₀ plain rs s := by
  cases h with
  | selecting _ => exact .selecting
  | authenticating ha => cases ha
  | verifying hp => cases hp
  | running hp ht =>
    obtain ⟨r, hr, rfl, rfl⟩ := plain_preamble hp
    exact .running hr ht

/-- The last turn of the wrapper is its own or the target's. -/
inductive PlainLast (M : Machine σ T) (legacy : Bool) (t₀ : σ) :
    Except Error (Action T) → List LogicalCommand → List ResponseData → Selected σ → Prop where
  | own {result : Except Error (Action T)} {cs : List LogicalCommand} {rs : List ResponseData}
      {s : Selected σ} (hs : s.stage ≠ .target) (hcs : cs = [] ∨ cs = [select])
      (hr : ∀ value, result ≠ .ok (.done value)) : PlainLast M legacy t₀ result cs rs s
  | target {result : Except Error (Action T)} {own : List LogicalCommand} {r : ResponseData}
      {given : List ResponseData} {t : σ} (hr : r.status.isSuccess = true)
      (ht : LastTurn M t₀ result own given t) :
      PlainLast M legacy t₀ result (select :: own) (r :: given) ⟨.target, legacy, none, none, t⟩

theorem plain_answered {plain : List LogicalCommand} {rs : List ResponseData} {s : Selected σ}
    (h : PlainStage M legacy t₀ plain rs s) (r : ResponseData) :
    PlainLast M legacy t₀ (s.step cipher M (some r)).1 plain (rs ++ [r])
      (s.step cipher M (some r)).2 := by
  cases h with
  | selecting =>
    by_cases hr : r.status.isSuccess = true
    · have hok : r.ensureSuccess .select = .ok () := ensureSuccess_eq_ok.mpr hr
      simp only [Selected.step, Selected.selectNext, hok]
      exact .target hr (.opening rfl)
    · have hbad : r.ensureSuccess .select = .error (.status r.status .select none) := by
        simp [ResponseData.ensureSuccess, hr]
      simp only [Selected.step, Selected.selectNext, hbad]
      refine .own ?_ (Or.inr rfl) ?_
      · intro hs
        cases hs
      · intro value hv
        cases hv
  | running hr ht => exact .target hr (.answering ht rfl)

theorem plain_last {result : Except Error (Action T)} {cs : List LogicalCommand}
    {rs : List ResponseData} {s : Selected σ}
    (h : LastTurn (selectedMachine cipher M) (.new legacy .none t₀) result cs rs s) :
    ∃ plain turn, cs = plain.map (explicitLe legacy) ∧
      result = turn.map (explicitAction legacy) ∧ PlainLast M legacy t₀ turn plain rs s := by
  cases h with
  | opening h =>
    obtain ⟨hr, rfl⟩ := Prod.mk.inj h
    refine ⟨[], _, rfl, hr.symm, .own ?_ (Or.inl rfl) ?_⟩
    · intro hs
      cases hs
    · intro value hv
      cases hv
  | answering ht h =>
    obtain ⟨plain, rfl, hs⟩ := selected_trace ht
    obtain ⟨hr, rfl⟩ := Prod.mk.inj h
    rw [hs.explicit] at hr
    exact ⟨plain, _, rfl, hr.symm, plain_answered (plain_staged hs) _⟩

end selected

/-- What the caller sees of the items, by the state of the operation. -/
def shownItems (items : List BatchItem) : OperationState → Option BatchResults
  | .awaitingResponse | .completed => some ⟨items, none⟩
  | .failed => some ⟨items, some items.length⟩
  | .created | .cancelled | .resultTaken => none

/-- The finished requests, the one reached after them and what the operation shows of them. -/
inductive Executed (cipher : BlockCipher) (machines : List (Boxed BatchItem))
    (options : OperationOptions) (legacy : Bool)
    (s : Recorded (Selected BatchMachine) BatchResults) : Prop where
  | unselected (hcommands : s.commands = [] ∨ s.commands = [explicitLe legacy select])
      (hprogress : batchProgress (selectedMachine cipher batchMachine) s.op = none)
      (hstate : s.op.state ≠ .completed ∧ s.op.state ≠ .resultTaken)
  | selected {items : List BatchItem} {cs own : List LogicalCommand} {r : ResponseData}
      {rs given : List ResponseData} (hr : r.status.isSuccess = true)
      (hcommands : s.commands = (select :: (cs ++ own)).map (explicitLe legacy))
      (hresponses : s.responses = r :: (rs ++ given))
      (hfinished : Finished (machines.take items.length) items cs rs)
      (hreached : (own = [] ∧ given = []) ∨
        ∃ b, machines[items.length]? = some b ∧ Reached b own given)
      (hbytes : itemBytes items ≤ options.limits.maxTotalResponseBytes)
      (hprogress : batchProgress (selectedMachine cipher batchMachine) s.op =
        shownItems items s.op.state)
      (hstate : items.length ≤ machines.length ∧
        (items.length = machines.length ↔
          s.op.state = .completed ∨ s.op.state = .resultTaken))

theorem batchProgress_running {σ : Type*} {M : Machine σ BatchResults}
    {op : Operation σ BatchResults} (h : op.state ≠ .completed) :
    batchProgress M op = op.currentProgress M := by
  simp only [batchProgress, Operation.result]
  rw [if_pos h]

theorem progress_ended {σ : Type*} {M : Machine σ BatchResults} {options : OperationOptions}
    {history : List (Call × Reply BatchResults)} {op : Operation σ BatchResults}
    (h : Lifecycle options history op) (hs : op.state ≠ .completed)
    (hopen : ¬ (op.state = .created ∨ op.state = .awaitingResponse)) :
    batchProgress M op = op.progress := by
  have hm : op.machine = none := by
    rw [← Option.not_isSome_iff_eq_none, h.machine]
    exact hopen
  rw [batchProgress_running hs]
  simp [Operation.currentProgress, hm]

/-- The request after the finished ones. -/
theorem split_finished {front rest boxes : List (Boxed BatchItem)} {b : Boxed BatchItem}
    {items : List BatchItem} {cs : List LogicalCommand} {rs : List ResponseData}
    (hb : boxes = front ++ b :: rest) (hf : Finished front items cs rs) :
    Finished (boxes.take items.length) items cs rs ∧ boxes[items.length]? = some b ∧
      items.length < boxes.length := by
  have hlen := hf.length
  rw [← hlen, hb]
  refine ⟨?_, ?_, ?_⟩
  · rw [List.take_left]
    exact hf
  · rw [List.getElem?_append_right (Nat.le_refl _), Nat.sub_self]
    rfl
  · simp

section run

variable {cipher : BlockCipher} {machines : List (Boxed BatchItem)} {options : OperationOptions}
  {legacy : Bool} {s : Recorded (Selected BatchMachine) BatchResults}

/-- A request in the middle of its run, or stopped. -/
theorem executed_reached {front rest : List (Boxed BatchItem)} {b : Boxed BatchItem}
    {items : List BatchItem} {cs own : List LogicalCommand} {r : ResponseData}
    {rs given : List ResponseData} (hr : r.status.isSuccess = true)
    (hcommands : s.commands = (select :: (cs ++ own)).map (explicitLe legacy))
    (hresponses : s.responses = r :: (rs ++ given))
    (hb : machines = front ++ b :: rest) (hf : Finished front items cs rs)
    (hreached : Reached b own given)
    (hbytes : itemBytes items ≤ options.limits.maxTotalResponseBytes)
    (hprogress : batchProgress (selectedMachine cipher batchMachine) s.op =
      shownItems items s.op.state)
    (hstate : s.op.state ≠ .completed ∧ s.op.state ≠ .resultTaken) :
    Executed cipher machines options legacy s := by
  obtain ⟨hfinished, hnext, hlt⟩ := split_finished hb hf
  refine .selected hr hcommands hresponses hfinished (Or.inr ⟨b, hnext, hreached⟩) hbytes
    hprogress ⟨Nat.le_of_lt hlt, ?_⟩
  constructor
  · intro heq
    omega
  · rintro (h | h)
    · exact absurd h hstate.1
    · exact absurd h hstate.2

/-- The batch waits for an answer of the request it has reached. -/
theorem executed_waiting {own : List LogicalCommand} {r : ResponseData}
    {given : List ResponseData} {t : BatchMachine} (hr : r.status.isSuccess = true)
    (hcommands : s.commands = (select :: own).map (explicitLe legacy))
    (hresponses : s.responses = r :: given)
    (hw : Waiting machines options.limits.maxTotalResponseBytes own given t)
    (hprogress : batchProgress (selectedMachine cipher batchMachine) s.op =
      shownItems t.results.items s.op.state)
    (hstate : s.op.state ≠ .completed ∧ s.op.state ≠ .resultTaken) :
    Executed cipher machines options legacy s := by
  cases hw with
  | «at» hb hf ht hfit =>
    exact executed_reached hr hcommands hresponses hb hf (.waiting ht) hfit hprogress hstate

/-- The next command of the request it has reached was refused before it was exposed. -/
theorem executed_refused {own : List LogicalCommand} {c : LogicalCommand} {r : ResponseData}
    {given : List ResponseData} {t : BatchMachine} (hr : r.status.isSuccess = true)
    (hcommands : s.commands = (select :: own).map (explicitLe legacy))
    (hresponses : s.responses = r :: given)
    (hw : Waiting machines options.limits.maxTotalResponseBytes (own ++ [c]) given t)
    (hprogress : batchProgress (selectedMachine cipher batchMachine) s.op =
      shownItems t.results.items s.op.state)
    (hstate : s.op.state ≠ .completed ∧ s.op.state ≠ .resultTaken) :
    Executed cipher machines options legacy s := by
  generalize hfull : own ++ [c] = full at hw
  cases hw with
  | «at» hb hf ht hfit =>
    obtain ⟨exposed, last, rfl, hlast⟩ := ht.last
    rw [← List.append_assoc] at hfull
    obtain ⟨rfl, _⟩ := List.append_inj' hfull rfl
    exact executed_reached hr hcommands hresponses hb hf (.stopped hlast) hfit hprogress hstate

theorem Waiting.results {boxes : List (Boxed BatchItem)} {limit : ℕ} {cs : List LogicalCommand}
    {rs : List ResponseData} {t : BatchMachine} (h : Waiting boxes limit cs rs t) :
    t.results = ⟨t.results.items, none⟩ ∧
      (batchMachine.takeProgress t).1 = some ⟨t.results.items, some t.results.items.length⟩ := by
  cases h with
  | «at» => exact ⟨rfl, rfl⟩

theorem target_progress (legacy : Bool) (t : BatchMachine) :
    (selectedMachine cipher batchMachine).progress ⟨.target, legacy, none, none, t⟩ =
        some t.results ∧
      ((selectedMachine cipher batchMachine).takeProgress ⟨.target, legacy, none, none, t⟩).1 =
        (batchMachine.takeProgress t).1 :=
  ⟨rfl, rfl⟩

theorem early_progress {m : Selected BatchMachine} (h : m.stage ≠ .target) :
    (selectedMachine cipher batchMachine).progress m = none ∧
      ((selectedMachine cipher batchMachine).takeProgress m).1 = none := by
  refine ⟨?_, ?_⟩
  · simp [selectedMachine, Selected.progress, h]
  · simp [selectedMachine, Selected.takeProgress, h]

/-- A run that still may go on, was cancelled or lost its conversation: what it shows is the
progress of the machine the trace has reached. -/
theorem executed_trace {m : Selected BatchMachine}
    (ht : Trace (selectedMachine cipher batchMachine) (.new legacy .none (.new machines options))
      s.commands s.responses m)
    (hearly : m.stage ≠ .target →
      batchProgress (selectedMachine cipher batchMachine) s.op = none)
    (hlate : ∀ own given,
      Waiting machines options.limits.maxTotalResponseBytes own given m.target →
        m.stage = .target → batchProgress (selectedMachine cipher batchMachine) s.op =
          shownItems m.target.results.items s.op.state)
    (hstate : s.op.state ≠ .completed ∧ s.op.state ≠ .resultTaken) :
    Executed cipher machines options legacy s := by
  obtain ⟨plain, hplain, hstaged⟩ := selected_trace ht
  have hstage := plain_staged hstaged
  generalize hgiven : s.responses = given at hstage
  cases hstage with
  | selecting =>
    refine .unselected (Or.inr hplain) (hearly ?_) hstate
    intro h
    cases h
  | running hr htarget =>
    have hw := batch_trace htarget
    exact executed_waiting hr hplain hgiven hw (hlate _ _ hw rfl) hstate

/-- A run that failed in the machine or on a command it refused. -/
theorem executed_last {result : Except Error (Action BatchResults)} {m : Selected BatchMachine}
    (ht : LastTurn (selectedMachine cipher batchMachine)
      (.new legacy .none (.new machines options)) result s.commands s.responses m)
    (hresult : ∀ value, result ≠ .ok (.done value))
    (hprogress : batchProgress (selectedMachine cipher batchMachine) s.op =
      ((selectedMachine cipher batchMachine).takeProgress m).1)
    (hstate : s.op.state = .failed) : Executed cipher machines options legacy s := by
  have hopen : s.op.state ≠ .completed ∧ s.op.state ≠ .resultTaken := by
    rw [hstate]
    exact ⟨nofun, nofun⟩
  obtain ⟨plain, turn, hplain, hturn, hlast⟩ := plain_last ht
  generalize hgiven : s.responses = given at hlast
  cases hlast with
  | own hs hcs _ =>
    refine .unselected ?_ (hprogress.trans (early_progress hs).2) hopen
    rcases hcs with rfl | rfl
    · exact Or.inl hplain
    · exact Or.inr hplain
  | target hr htarget =>
    rw [(target_progress _ _).2] at hprogress
    rcases batch_last htarget with ⟨c, _, hw⟩ | ⟨_, hended⟩
    · refine executed_refused hr hplain hgiven hw ?_ hopen
      rw [hprogress, hw.results.2, hstate]
      rfl
    · generalize turn = final at hended hturn
      cases hended with
      | finished hf hfit => exact absurd hturn (hresult _)
      | failed hb hf hlast hfit =>
        refine executed_reached hr hplain hgiven hb hf (.stopped hlast) hfit ?_ hopen
        rw [hprogress, hstate]
        rfl

/-- A run that finished. -/
theorem executed_done {value : BatchResults} {m : Selected BatchMachine}
    (ht : LastTurn (selectedMachine cipher batchMachine)
      (.new legacy .none (.new machines options)) (.ok (.done value)) s.commands s.responses m)
    (hstate : s.op.state = .completed ∧ s.op.output = some value ∨
      s.op.state = .resultTaken ∧
        batchProgress (selectedMachine cipher batchMachine) s.op = none) :
    Executed cipher machines options legacy s := by
  obtain ⟨plain, turn, hplain, hturn, hlast⟩ := plain_last ht
  cases done_of_explicit hturn
  generalize hgiven : s.responses = given at hlast
  cases hlast with
  | own _ _ hr => exact absurd rfl (hr value)
  | target hr htarget =>
    rcases batch_last htarget with ⟨c, hc, _⟩ | ⟨_, hended⟩
    · cases hc
    · dsimp only at hended
      cases hended with
      | finished hf hfit =>
        have hlen := hf.length
        refine .selected hr (by rw [hplain, List.append_nil]) (by rw [hgiven, List.append_nil])
          ?_ (Or.inl ⟨rfl, rfl⟩) hfit ?_ ⟨Nat.le_of_eq hlen.symm, ?_⟩
        · rw [← hlen, List.take_length]
          exact hf
        · rcases hstate with ⟨hs, hout⟩ | ⟨hs, hnone⟩
          · simp [batchProgress, Operation.result, hs, hout, shownItems]
          · rw [hnone, hs]
            rfl
        · exact ⟨fun _ => hstate.imp And.left And.left, fun _ => hlen.symm⟩

/-- Every state of a run, by where its operation stands. -/
theorem follows_executed {history : List (Call × Reply BatchResults)}
    (h : Follows (selectedMachine cipher batchMachine) (.new legacy .none (.new machines options))
      options history s) : Executed cipher machines options legacy s := by
  cases h.standing with
  | created hs hm hcs hrs hp =>
    refine .unselected (Or.inl hcs) ?_ (by simp [hs])
    rw [batchProgress_running (by simp [hs])]
    simp [Operation.currentProgress, hm, hp, Selected.new, selectedMachine, Selected.progress,
      Access.isExisting]
  | awaiting m hs hm ht hp =>
    have hshown : batchProgress (selectedMachine cipher batchMachine) s.op =
        (selectedMachine cipher batchMachine).progress m := by
      rw [batchProgress_running (by simp [hs])]
      simp [Operation.currentProgress, hm, hp]
    refine executed_trace ht ?_ ?_ (by simp [hs])
    · intro hstage
      rw [hshown, (early_progress hstage).1]
    · intro own given hw hstage
      rw [hshown, hs]
      simp only [selectedMachine, Selected.progress]
      rw [if_pos hstage]
      exact congrArg some hw.results.1
  | completed m value ht hp hs =>
    apply executed_done ht
    rcases hs with hs | ⟨hs, _⟩
    · exact Or.inl hs
    · refine Or.inr ⟨hs, ?_⟩
      rw [progress_ended h.lifecycle (by simp [hs]) (by simp [hs]), hp]
  | cancelled hs hp ht =>
    have hshown : batchProgress (selectedMachine cipher batchMachine) s.op = none := by
      rw [progress_ended h.lifecycle (by simp [hs]) (by simp [hs]), hp]
    rcases ht with ⟨hcs, _⟩ | ⟨m, ht⟩
    · exact .unselected (Or.inl hcs) hshown (by simp [hs])
    · refine executed_trace ht (fun _ => hshown) ?_ (by simp [hs])
      intro own given _ _
      rw [hshown, hs]
      rfl
  | broke m hs ht hp =>
    have hshown : batchProgress (selectedMachine cipher batchMachine) s.op =
        ((selectedMachine cipher batchMachine).takeProgress m).1 := by
      rw [progress_ended h.lifecycle (by simp [hs]) (by simp [hs]), hp]
    refine executed_trace ht ?_ ?_ (by simp [hs])
    · intro hstage
      rw [hshown, (early_progress hstage).2]
    · intro own given hw hstage
      rw [hshown, hs]
      simp only [selectedMachine, Selected.takeProgress]
      rw [if_pos hstage]
      exact hw.results.2
  | failed m e hs ht he hp =>
    refine executed_last ht (fun _ hv => by cases hv) ?_ hs
    rw [progress_ended h.lifecycle (by simp [hs]) (by simp [hs]), hp]
  | rejected m c hs ht hbad hp =>
    refine executed_last ht (fun _ hv => by cases hv) ?_ hs
    rw [progress_ended h.lifecycle (by simp [hs]) (by simp [hs]), hp]

end run

/-- What an accepted batch admits, and how far it has got after any calls. -/
theorem batch_runs_in_order (P : Primitives) {profile : DeviceProfile}
    {requests : List BatchRequest} {options : OperationOptions}
    {op : Operation (Selected BatchMachine) BatchResults}
    (h : batch P profile requests options = .ok op) :
    Admitted requests ∧ ∃ machines, Prepared P profile options requests machines ∧
      ∀ calls, Executed P.cipher machines options profile.legacyExplicitLe
        (recorded (selectedMachine P.cipher batchMachine) op calls) := by
  obtain ⟨hadmitted, machines, hprepared, hop⟩ := batch_admitted h
  refine ⟨hadmitted, machines, hprepared, ?_⟩
  intro calls
  obtain ⟨_, hop⟩ := withAccess_eq_ok.mp hop
  exact follows_executed (recorded_follows _ hop calls)

/-- Everything outside the repository refuses; the requests below use none of it. -/
def refusingPrimitives : Primitives where
  cipher := PivManagementAuthentication.exampleCipher
  gunzip := fun _ => ⟨[], none⟩
  point := fun _ _ => false
  der := ⟨fun _ => none, fun _ => none, fun _ => none⟩

def examplePrefix : List BatchRequest := [.verifyPin examplePin, .getMetadata .pin]

/-- The card verifies the PIN and refuses the metadata. -/
def exampleCalls : List Call :=
  [.start, .advance [0x90, 0], .advance [0x90, 0], .advance [0x6A, 0x82]]

theorem batch_runs_in_order_refused :
    ∃ op, batch refusingPrimitives exampleProfile examplePrefix {} = .ok op ∧
      batchProgress (selectedMachine refusingPrimitives.cipher batchMachine)
        (recorded (selectedMachine refusingPrimitives.cipher batchMachine) op exampleCalls).op =
          some ⟨[.unit], some 1⟩ ∧
      Admitted examplePrefix ∧
      ∃ machines, Prepared refusingPrimitives exampleProfile {} examplePrefix machines ∧
        ∀ calls, Executed refusingPrimitives.cipher machines {} false
          (recorded (selectedMachine refusingPrimitives.cipher batchMachine) op calls) := by
  have hop : batch refusingPrimitives exampleProfile examplePrefix {} = .ok _ := rfl
  exact ⟨_, hop, rfl, batch_runs_in_order refusingPrimitives hop⟩

end PivBatchExecution
