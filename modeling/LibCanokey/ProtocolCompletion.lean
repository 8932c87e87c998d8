import LibCanokey.ProtocolSession

/-! # Whole runs against a card

A card answers the commands of a machine one by one. When its last answer leaves the machine
done, an operation over the machine ends with that value, within budgets for the whole run. -/
namespace ProtocolCompletion

open BigEndian CheckedCursor ProtocolError ProtocolConversation ProtocolOperation
open ProtocolTranscript ProtocolSession ScriptedRuns

variable {σ T κ : Type*} {M : Machine σ T} {A : Applet κ} {options : OperationOptions}

/-- The applet answers some commands in turn, over so many exchanges. -/
inductive Answered (A : Applet κ) (options : OperationOptions) :
    κ → List LogicalCommand → List ResponseData → ℕ → κ → Prop where
  | nothing (a : κ) : Answered A options a [] [] 0 a
  | command {a a' a'' : κ} {cs : List LogicalCommand} {rs : List ResponseData} {n n' : ℕ}
      {c : LogicalCommand} {k : ConversationState} {r : ResponseData}
      (h : Answered A options a cs rs n a') (hc : Answers A options a' c k r a'' n') :
      Answered A options a (cs ++ [c]) (rs ++ [r]) (n + n') a''

theorem Answered.last {a a'' : κ} {cs : List LogicalCommand} {rs : List ResponseData} {n : ℕ}
    {c : LogicalCommand} {r : ResponseData}
    (h : Answered A options a (cs ++ [c]) (rs ++ [r]) n a'') :
    ∃ a' k m n', Answered A options a cs rs m a' ∧ Answers A options a' c k r a'' n' ∧
      n = m + n' := by
  generalize hcs : cs ++ [c] = all at h
  generalize hrs : rs ++ [r] = given at h
  cases h with
  | nothing => simp at hcs
  | command h hc =>
    obtain ⟨rfl, hlast⟩ := List.append_inj' hcs rfl
    obtain ⟨rfl, hgiven⟩ := List.append_inj' hrs rfl
    cases hlast
    cases hgiven
    exact ⟨_, _, _, _, h, hc, rfl⟩

theorem Answered.append {a a' a'' : κ} {cs cs' : List LogicalCommand} {rs rs' : List ResponseData}
    {n n' : ℕ} (h : Answered A options a cs rs n a') (h' : Answered A options a' cs' rs' n' a'') :
    Answered A options a (cs ++ cs') (rs ++ rs') (n + n') a'' := by
  induction h' with
  | nothing => simpa using h
  | command _ hc ih =>
    rw [← List.append_assoc, ← List.append_assoc, ← Nat.add_assoc]
    exact .command ih hc

/-- Every command takes an exchange. -/
theorem Answered.length_le {a a' : κ} {cs : List LogicalCommand} {rs : List ResponseData} {n : ℕ}
    (h : Answered A options a cs rs n a') : cs.length ≤ n := by
  induction h with
  | nothing => exact Nat.zero_le _
  | command h hc ih =>
    have hone := hc.pos
    rw [List.length_append, List.length_singleton]
    omega

/-- The bytes of some responses. -/
def responseLength (rs : List ResponseData) : ℕ := (rs.map fun r => r.data.length).sum

theorem responseLength_concat (rs : List ResponseData) (r : ResponseData) :
    responseLength (rs ++ [r]) = responseLength rs + r.data.length := by
  simp [responseLength]

/-- What a machine goes on to after a trace is served from its first command on. The induction
follows the trace backwards, one served command at a time. -/
theorem served_trace {m₀ m : σ} {cs : List LogicalCommand} {rs : List ResponseData}
    (ht : Trace M m₀ cs rs m) {a a' a'' : κ} {init : List LogicalCommand} {c : LogicalCommand}
    (hcs : cs = init ++ [c]) {n n' b : ℕ} {out : Except Error T}
    (ha : Answered A options a init rs n a') (hs : Served M A options m a' c n' b out a'') :
    ∃ first m₁, M.next m₀ none = (.ok (.command first), m₁) ∧
      Served M A options m₁ a first (n + n') (responseLength rs + b) out a'' := by
  induction ht generalizing init c a' n n' b with
  | @opened first m h =>
    change [] ++ [first] = init ++ [c] at hcs
    obtain ⟨rfl, hc⟩ := List.append_inj' hcs rfl
    cases hc
    generalize hnil : ([] : List LogicalCommand) = cs at ha
    generalize ([] : List ResponseData) = rs at ha ⊢
    cases ha with
    | nothing =>
      refine ⟨first, m, h, ?_⟩
      rw [Nat.zero_add, responseLength, List.map_nil, List.sum_nil, Nat.zero_add]
      exact hs
    | command => simp at hnil
  | @answered cs rs m m' r c' ht h ih =>
    obtain ⟨rfl, hc⟩ := List.append_inj' hcs rfl
    cases hc
    obtain ⟨own, d, rfl, _⟩ := ht.last
    obtain ⟨a₁, k, n₁, n₂, hbefore, hlast, rfl⟩ := ha.last
    obtain ⟨first, m₁, hfirst, hserved⟩ := ih rfl hbefore (.more hlast h hs)
    refine ⟨first, m₁, hfirst, ?_⟩
    rw [responseLength_concat, Nat.add_assoc, Nat.add_assoc]
    exact hserved

/-- An operation whose machine is done after some answers ends with its value on a card that
gives them. -/
theorem execute_done {m₀ m : σ} {op : Operation σ T}
    (hop : Operation.fromMachine m₀ options = .ok op) {cs : List LogicalCommand}
    {rs : List ResponseData} {value : T} (hdone : LastTurn M m₀ (.ok (.done value)) cs rs m)
    (hne : cs ≠ []) {a a' : κ} {n : ℕ} (ha : Answered A options a cs rs n a')
    (he : n ≤ options.limits.maxExchanges)
    (hb : responseLength rs ≤ min usizeMax options.limits.maxTotalResponseBytes) :
    Ends (execute M A op a).1 (.ok value) ∧ (execute M A op a).2 = a' := by
  cases hdone with
  | opening => exact absurd rfl hne
  | answering ht h =>
    obtain ⟨own, c, rfl, _⟩ := ht.last
    obtain ⟨a₁, k, n₁, n₂, hbefore, hlast, rfl⟩ := ha.last
    obtain ⟨first, m₁, hfirst, hserved⟩ := served_trace ht rfl hbefore (.done hlast h)
    rw [responseLength_concat] at hb
    exact execute_served hop hfirst hserved he hb

section scripts

variable {command : ℕ → LogicalCommand} {response : ℕ → ResponseData}

/-- A run given turn by turn is a trace. -/
theorem trace_indexed {m₀ : σ} {state : ℕ → σ} {n : ℕ}
    (hopen : M.next m₀ none = (.ok (.command (command 0)), state 0))
    (hstep : ∀ i < n, M.next (state i) (some (response i)) =
      (.ok (.command (command (i + 1))), state (i + 1))) :
    Trace M m₀ ((List.range (n + 1)).map command) ((List.range n).map response) (state n) := by
  induction n with
  | zero => exact .opened hopen
  | succ n ih =>
    have hbefore := ih fun i hi => hstep i (Nat.lt_succ_of_lt hi)
    have hcommands : (List.range (n + 1 + 1)).map command =
        (List.range (n + 1)).map command ++ [command (n + 1)] := by
      rw [List.range_succ, List.map_append, List.map_singleton]
    have hresponses : (List.range (n + 1)).map response =
        (List.range n).map response ++ [response n] := by
      rw [List.range_succ, List.map_append, List.map_singleton]
    rw [hcommands, hresponses]
    exact .answered hbefore (hstep n (Nat.lt_succ_self n))

theorem lastTurn_indexed {m₀ m : σ} {state : ℕ → σ} {n : ℕ} {result : Except Error (Action T)}
    (hopen : M.next m₀ none = (.ok (.command (command 0)), state 0))
    (hstep : ∀ i < n, M.next (state i) (some (response i)) =
      (.ok (.command (command (i + 1))), state (i + 1)))
    (hlast : M.next (state n) (some (response n)) = (result, m)) :
    LastTurn M m₀ result ((List.range (n + 1)).map command)
      ((List.range (n + 1)).map response) m := by
  have hresponses : (List.range (n + 1)).map response =
      (List.range n).map response ++ [response n] := by
    rw [List.range_succ, List.map_append, List.map_singleton]
  rw [hresponses]
  exact .answering (trace_indexed hopen hstep) hlast

/-- An applet that keeps an invariant answers a script. -/
theorem answered_indexed {I : ℕ → κ → Prop} {cost : ℕ → ℕ} {n : ℕ} {a : κ} (h₀ : I 0 a)
    (hstep : ∀ i < n, ∀ a, I i a → ∃ k a',
      Answers A options a (command i) k (response i) a' (cost i) ∧ I (i + 1) a') :
    ∃ a', Answered A options a ((List.range n).map command) ((List.range n).map response)
      ((List.range n).map cost).sum a' ∧ I n a' := by
  induction n with
  | zero => exact ⟨a, .nothing a, h₀⟩
  | succ n ih =>
    obtain ⟨a₁, hbefore, hn⟩ := ih fun i hi => hstep i (Nat.lt_succ_of_lt hi)
    obtain ⟨k, a₂, hlast, hafter⟩ := hstep n (Nat.lt_succ_self n) a₁ hn
    refine ⟨a₂, ?_, hafter⟩
    simp only [List.range_succ, List.map_append, List.map_cons, List.map_nil, List.sum_append,
      List.sum_singleton]
    exact .command hbefore hlast

end scripts

section calls

variable {op : Operation σ T}

/-- The session with a card is a run of calls. -/
theorem session_calls (n : ℕ) (op : Operation σ T) (card : Card κ) :
    ∃ calls, (session M A n op card).1 = (run (Operation.call M) op calls).2 := by
  induction n generalizing op card with
  | zero => exact ⟨[], rfl⟩
  | succ n ih =>
    rw [session]
    cases hc : op.command with
    | error e => exact ⟨[], rfl⟩
    | ok c =>
      dsimp only
      obtain ⟨calls, hcalls⟩ := ih (op.advance M (card.exchange A c.bytes).1).2
        (card.exchange A c.bytes).2
      exact ⟨.advance (card.exchange A c.bytes).1 :: calls, hcalls⟩

theorem execute_recorded (M : Machine σ T) (A : Applet κ) (op : Operation σ T) (a : κ) :
    ∃ calls, (execute M A op a).1 = (recorded M op calls).op := by
  obtain ⟨calls, hcalls⟩ := @session_calls σ T κ M A op.options.limits.maxExchanges (op.start M).2
    { applet := a }
  refine ⟨.start :: calls, ?_⟩
  rw [recorded, (recorded_run M { op := op } (.start :: calls)).2]
  exact hcalls

theorem fromMachine_created {m₀ : σ} (hop : Operation.fromMachine m₀ options = .ok op) :
    op.state = .created ∧ op.machine = some m₀ := by
  simp only [Operation.fromMachine] at hop
  cases hv : options.validate with
  | error e =>
    rw [hv] at hop
    cases hop
  | ok o =>
    rw [hv] at hop
    cases hop
    exact ⟨rfl, rfl⟩

theorem fromMachine_valid {m₀ : σ} (hop : Operation.fromMachine m₀ options = .ok op) :
    options.Valid := by
  rw [Operation.fromMachine] at hop
  cases hv : options.validate with
  | error e =>
    rw [hv] at hop
    cases hop
  | ok o => exact (validate_eq_ok.mp hv).1

theorem advance_waits {history : List (Call × Reply T)} (hl : Lifecycle options history op)
    {bytes : Bytes} (hs : (op.call M (.advance bytes)).2.state = .awaitingResponse) :
    op.state = .awaitingResponse ∧ (op.call M (.advance bytes)).2.exchanges = op.exchanges + 1 := by
  have hmv := call_moves M hl (.advance bytes)
  generalize op.call M (.advance bytes) = result at hmv hs
  obtain ⟨reply, op'⟩ := result
  dsimp only at hmv hs ⊢
  cases hmv with
  | refused hnot => exact absurd hs hnot
  | went _ _ _ _ _ hs' => exact ⟨hs', rfl⟩
  | began _ _ _ input _ _ hh =>
    rcases handed_state hh with ⟨_, rfl⟩ | ⟨hs', _⟩
    · simp [handed] at hh
    · exact ⟨hs', rfl⟩
  | cancelled | taken | broke | done | failed | rejected => cases hs

/-- An operation that still waits has spent an exchange on every reply. The induction is on the
replies. -/
theorem waiting_exchanges {m₀ : σ} (hop : Operation.fromMachine m₀ options = .ok op)
    {replies : List Bytes}
    (hs : (recorded M op (.start :: replies.map .advance)).op.state = .awaitingResponse) :
    replies.length + 1 ≤ (recorded M op (.start :: replies.map .advance)).op.exchanges := by
  induction replies using List.reverseRecOn with
  | nil =>
    have hmv := call_moves M (fromMachine_lifecycle hop) .start
    change ((op.call M .start).2).state = .awaitingResponse at hs
    change 1 ≤ ((op.call M .start).2).exchanges
    generalize op.call M .start = result at hmv hs
    obtain ⟨reply, op'⟩ := result
    dsimp only at hmv hs ⊢
    cases hmv with
    | refused hnot => exact absurd (fromMachine_created hop).1 hnot
    | went | began => exact Nat.succ_le_succ (Nat.zero_le _)
    | cancelled | taken | broke | done | failed | rejected => cases hs
  | append_singleton replies bytes ih =>
    have hcalls : Call.start :: (replies ++ [bytes]).map Call.advance =
        (.start :: replies.map .advance) ++ [.advance bytes] := by
      rw [List.map_append, List.map_singleton, List.cons_append]
    rw [hcalls, recorded_concat] at hs ⊢
    have hl := (recorded_follows M hop (.start :: replies.map .advance)).lifecycle
    obtain ⟨hbefore, hcount⟩ := advance_waits hl hs
    have hrest := ih hbefore
    change _ ≤ ((recorded M op (.start :: replies.map .advance)).op.call M
      (.advance bytes)).2.exchanges
    rw [hcount, List.length_append, List.length_singleton]
    omega

/-- A started operation that is only advanced waits or has an outcome. -/
theorem started_state {m₀ : σ} (hop : Operation.fromMachine m₀ options = .ok op)
    (replies : List Bytes) :
    (recorded M op (.start :: replies.map .advance)).op.state ∈
      ([.awaitingResponse, .completed, .failed] : List OperationState) := by
  induction replies using List.reverseRecOn with
  | nil =>
    have hmv := call_moves M (fromMachine_lifecycle hop) .start
    change ((op.call M .start).2).state ∈ _
    generalize op.call M .start = result at hmv
    obtain ⟨reply, op'⟩ := result
    dsimp only at hmv ⊢
    cases hmv with
    | refused hnot => exact absurd (fromMachine_created hop).1 hnot
    | cancelled hc | taken _ hc => cases hc
    | went | broke | done | failed | rejected | began => simp
  | append_singleton replies bytes ih =>
    have hcalls : Call.start :: (replies ++ [bytes]).map Call.advance =
        (.start :: replies.map .advance) ++ [.advance bytes] := by
      rw [List.map_append, List.map_singleton, List.cons_append]
    rw [hcalls, recorded_concat]
    have hmv := call_moves M (recorded_follows M hop (.start :: replies.map .advance)).lifecycle
      (.advance bytes)
    change ((recorded M op (.start :: replies.map .advance)).op.call M
      (.advance bytes)).2.state ∈ _
    generalize (recorded M op (.start :: replies.map .advance)).op.call M (.advance bytes) = result
      at hmv
    obtain ⟨reply, op'⟩ := result
    dsimp only at hmv ⊢
    cases hmv with
    | refused => exact ih
    | cancelled hc | taken _ hc => cases hc
    | went | broke | done | failed | rejected | began => simp

/-- As many replies as there are exchanges end an operation. -/
theorem not_waiting {m₀ : σ} (hop : Operation.fromMachine m₀ options = .ok op)
    {replies : List Bytes} (hlen : options.limits.maxExchanges ≤ replies.length) :
    (recorded M op (.start :: replies.map .advance)).op.state ≠ .awaitingResponse := by
  intro hs
  have hspent := waiting_exchanges hop hs
  have hbudget := (recorded_follows M hop (.start :: replies.map .advance)).lifecycle.budget
  omega

end calls

end ProtocolCompletion
