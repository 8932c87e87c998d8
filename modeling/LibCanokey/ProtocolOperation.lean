import LibCanokey.CheckedCursor
import LibCanokey.ProtocolConversation

/-! # Owned operations over an arbitrary protocol machine

The record `Operation<T>` with every field, driven by a machine known only through its
methods. A method that takes the operation mutably returns the new record as well, on
its error paths too. -/
namespace ProtocolOperation

open BigEndian CheckedCursor ListTraversal ProtocolError ProtocolApdu ProtocolConversation
open ScriptedRuns

inductive Step where
  | exchange
  | done
  deriving DecidableEq, Repr

inductive OperationState where
  | created
  | awaitingResponse
  | completed
  | failed
  | cancelled
  | resultTaken
  deriving DecidableEq, Repr

inductive Action (T : Type*) where
  | command (c : LogicalCommand)
  | done (value : T)

/-- The methods of the engine trait; `next` may change the machine even when it fails. -/
structure Machine (σ T : Type*) where
  next : σ → Option ResponseData → Except Error (Action T) × σ
  progress : σ → Option T := fun _ => none
  takeProgress : σ → Option T × σ := fun s => (none, s)

structure Operation (σ T : Type*) where
  machine : Option σ
  conversation : Option ConversationState
  output : Option T
  progress : Option T
  error : Option Error
  state : OperationState
  options : OperationOptions
  exchanges : ℕ
  responseBytes : ℕ

variable {σ T : Type*}

def stateError : Error := .new .operationStateError

def Operation.fromMachine (machine : σ) (options : OperationOptions) :
    Except Error (Operation σ T) :=
  match options.validate with
  | .error e => .error e
  | .ok options => .ok
    { machine := some machine
      conversation := none
      output := none
      progress := none
      error := none
      state := .created
      options := options
      exchanges := 0
      responseBytes := 0 }

def Operation.command (op : Operation σ T) : Except Error CommandApdu :=
  if op.state ≠ .awaitingResponse then .error stateError
  else match op.conversation with
    | some c => .ok c.current
    | none => .error stateError

def Operation.result (op : Operation σ T) : Except Error T :=
  if op.state ≠ .completed then .error stateError
  else match op.output with
    | some value => .ok value
    | none => .error stateError

def Operation.currentProgress (M : Machine σ T) (op : Operation σ T) : Option T :=
  op.progress <|> op.machine.bind M.progress

def Operation.takeResult (op : Operation σ T) : Except Error T × Operation σ T :=
  if op.state ≠ .completed then (.error stateError, op)
  else match op.output with
    | none => (.error stateError, op)
    | some value => (.ok value, { op with output := none, state := .resultTaken })

def Operation.cancel (op : Operation σ T) : Operation σ T :=
  if op.state = .created ∨ op.state = .awaitingResponse then
    { op with machine := none, conversation := none, state := .cancelled }
  else op

def Operation.exchange (op : Operation σ T) : Except Error Step × Operation σ T :=
  if op.exchanges ≥ op.options.limits.maxExchanges then
    (.error (conversationError .limitExceeded), op)
  else (.ok .exchange, { op with exchanges := op.exchanges + 1, state := .awaitingResponse })

def Operation.drive (M : Machine σ T) (op : Operation σ T) (response : Option ResponseData) :
    Except Error Step × Operation σ T :=
  match op.machine with
  | none => (.error stateError, op)
  | some m =>
    match M.next m response with
    | (.error e, m) => (.error e, { op with machine := some m })
    | (.ok (.done value), _) =>
      (.ok .done,
        { op with output := some value, machine := none, conversation := none,
                  state := .completed })
    | (.ok (.command command), m) =>
      match ConversationState.new command op.options with
      | .error e => (.error e, { op with machine := some m })
      | .ok c => { op with machine := some m, conversation := some c }.exchange

/-- A failed conversation is left as it was; `record` drops it. -/
def Operation.advanceInner (M : Machine σ T) (op : Operation σ T) (bytes : Bytes) :
    Except Error Step × Operation σ T :=
  if bytes.length > op.options.exchange.maxResponseBytes then
    (.error (conversationError .limitExceeded), op)
  else match ResponseApdu.parse bytes with
    | .error e => (.error e, op)
    | .ok response =>
      match checkedAdd op.responseBytes response.data.length with
      | none => (.error (conversationError .limitExceeded), op)
      | some total =>
        if total > op.options.limits.maxTotalResponseBytes then
          (.error (conversationError .limitExceeded), { op with responseBytes := total })
        else match op.conversation with
          | none => (.error stateError, { op with responseBytes := total })
          | some c =>
            match c.advance op.options response with
            | .error e => (.error e, { op with responseBytes := total })
            | .ok (none, c) =>
              { op with responseBytes := total, conversation := some c }.exchange
            | .ok (some response, _) =>
              { op with responseBytes := total, conversation := none }.drive M (some response)

def Operation.record (M : Machine σ T) (result : Except Error Step × Operation σ T) :
    Except Error Step × Operation σ T :=
  match result with
  | (.ok step, op) => (.ok step, op)
  | (.error e, op) =>
    (.error e,
      { op with
        progress := op.machine.bind fun m => (M.takeProgress m).1
        machine := none
        conversation := none
        error := some e
        state := .failed })

def Operation.start (M : Machine σ T) (op : Operation σ T) :
    Except Error Step × Operation σ T :=
  if op.state ≠ .created then (.error stateError, op)
  else Operation.record M (op.drive M none)

def Operation.advance (M : Machine σ T) (op : Operation σ T) (bytes : Bytes) :
    Except Error Step × Operation σ T :=
  if op.state ≠ .awaitingResponse then (.error stateError, op)
  else Operation.record M (op.advanceInner M bytes)

/-- The mutating calls a caller can make, in any order. -/
inductive Call where
  | start
  | advance (bytes : Bytes)
  | cancel
  | takeResult
  deriving DecidableEq, Repr

inductive Reply (T : Type*) where
  | step (result : Except Error Step)
  | cancelled
  | taken (result : Except Error T)

def Operation.call (M : Machine σ T) (op : Operation σ T) : Call → Reply T × Operation σ T
  | .start => (.step (op.start M).1, (op.start M).2)
  | .advance bytes => (.step (op.advance M bytes).1, (op.advance M bytes).2)
  | .cancel => (.cancelled, op.cancel)
  | .takeResult => (.taken op.takeResult.1, op.takeResult.2)

/-- The machine behind a low-level conversation: one command, then its response. -/
def singleCommand : Machine (Option LogicalCommand) ResponseData where
  next command response :=
    match response, command with
    | some response, command => (.ok (.done response), command)
    | none, some c => (.ok (.command c), none)
    | none, none => (.error stateError, none)

def validateCommand (command : LogicalCommand) (options : OperationOptions) :
    Except Error Unit := do
  let options ← options.validate
  (ConversationState.new command options).map fun _ => ()

def conversation (command : LogicalCommand) (options : OperationOptions) :
    Except Error (Operation (Option LogicalCommand) ResponseData) := do
  validateCommand command options
  Operation.fromMachine (some command) options

theorem validateCommand_eq_ok {c : LogicalCommand} {options : OperationOptions} {u : Unit} :
    validateCommand c options = .ok u ↔
      options.Valid ∧ ∃ k, ConversationState.new c options = .ok k := by
  simp only [validateCommand]
  rw [bind_eq_ok]
  constructor
  · rintro ⟨o, ho, h⟩
    obtain ⟨hvalid, rfl⟩ := validate_eq_ok.mp ho
    obtain ⟨k, hk, _⟩ := map_eq_ok.mp h
    exact ⟨hvalid, k, hk⟩
  · rintro ⟨hvalid, k, hk⟩
    exact ⟨options, validate_eq_ok.mpr ⟨hvalid, rfl⟩, by rw [hk]; rfl⟩

/-- What a permitted start or advance leaves behind; `total` counts the response just
accepted. -/
inductive Driven (op : Operation σ T) (total : ℕ) :
    Except Error Step → Operation σ T → Prop where
  | exchange (m : σ) (c : ConversationState)
      (hbudget : op.exchanges < op.options.limits.maxExchanges) :
      Driven op total (.ok .exchange)
        { op with machine := some m, conversation := some c, responseBytes := total,
                  exchanges := op.exchanges + 1, state := .awaitingResponse }
  | done (value : T) :
      Driven op total (.ok .done)
        { op with machine := none, conversation := none, responseBytes := total,
                  output := some value, state := .completed }
  | failed (e : Error) (progress : Option T) (bytes : ℕ) :
      Driven op total (.error e)
        { op with machine := none, conversation := none, responseBytes := bytes,
                  progress := progress, error := some e, state := .failed }

section driven

variable {M : Machine σ T} {op : Operation σ T}

theorem exchange_driven (M : Machine σ T) (op : Operation σ T) (m : σ) (c : ConversationState)
    (total : ℕ) :
    Driven op total
      (Operation.record M (Operation.exchange { op with
        machine := some m, conversation := some c, responseBytes := total })).1
      (Operation.record M (Operation.exchange { op with
        machine := some m, conversation := some c, responseBytes := total })).2 := by
  unfold Operation.exchange
  dsimp only
  split_ifs with h
  · exact .failed _ _ _
  · exact .exchange m c (by omega)

theorem drive_driven {m : σ} (hm : op.machine = some m) (total : ℕ)
    (c : Option ConversationState) (response : Option ResponseData) :
    Driven op total
      (Operation.record M
        (Operation.drive M { op with responseBytes := total, conversation := c } response)).1
      (Operation.record M
        (Operation.drive M { op with responseBytes := total, conversation := c } response)).2 := by
  simp only [Operation.drive]
  simp only [hm]
  rcases hn : M.next m response with ⟨e | command | value, m'⟩
  · exact .failed _ _ _
  · dsimp only
    cases hc : ConversationState.new command op.options with
    | error e => exact .failed _ _ _
    | ok c => exact exchange_driven M op m' c total
  · exact .done value

theorem start_driven {m : σ} (hs : op.state = .created) (hm : op.machine = some m) :
    Driven op op.responseBytes (op.start M).1 (op.start M).2 := by
  simp only [Operation.start]
  rw [if_neg (not_not.mpr hs)]
  exact drive_driven hm op.responseBytes op.conversation none

theorem error_not_ok {α : Type*} {e : Error} :
    ¬ ∃ step, (.error e : Except Error α) = .ok step := by
  rintro ⟨step, h⟩
  cases h

/-- An accepted response is one that parsed and fitted the cumulative budget. -/
theorem advance_driven {m : σ} {c : ConversationState} (hs : op.state = .awaitingResponse)
    (hm : op.machine = some m) (hc : op.conversation = some c) (bytes : Bytes) :
    ∃ total, Driven op total (op.advance M bytes).1 (op.advance M bytes).2 ∧
      ((∃ step, (op.advance M bytes).1 = .ok step) →
        ∃ r, ResponseApdu.parse bytes = .ok r ∧ total = op.responseBytes + r.data.length ∧
          total ≤ op.options.limits.maxTotalResponseBytes) := by
  simp only [Operation.advance]
  rw [if_neg (not_not.mpr hs)]
  simp only [Operation.advanceInner]
  split_ifs with hlen
  · exact ⟨0, .failed _ _ _, fun h => absurd h error_not_ok⟩
  cases hp : ResponseApdu.parse bytes with
  | error e => exact ⟨0, .failed _ _ _, fun h => absurd h error_not_ok⟩
  | ok r =>
    dsimp only
    by_cases hadd : op.responseBytes + r.data.length ≤ usizeMax
    · simp only [checkedAdd, if_pos hadd, hc]
      split_ifs with htotal
      · exact ⟨0, .failed _ _ _, fun h => absurd h error_not_ok⟩
      · have hfit := Nat.le_of_not_lt htotal
        refine ⟨op.responseBytes + r.data.length, ?_, fun _ => ⟨r, rfl, rfl, hfit⟩⟩
        rcases ha : c.advance op.options r with e | ⟨_ | d, c'⟩
        · exact .failed _ _ _
        · have := exchange_driven M op m c' (op.responseBytes + r.data.length)
          rw [← hm] at this
          exact this
        · exact drive_driven hm _ none (some d)
    · simp only [checkedAdd, if_neg hadd]
      exact ⟨0, .failed _ _ _, fun h => absurd h error_not_ok⟩

end driven

/-- The response makes the conversation fail with `e`, and within the frame and byte
budgets the operation that owns the conversation fails with it. -/
structure EndsOperation (options : OperationOptions) (c : ConversationState) (r : ResponseApdu)
    (e : Error) : Prop where
  conversation : c.advance options r = .error e
  operation : ∀ {σ T : Type} (M : Machine σ T) (op : Operation σ T) (bytes : Bytes),
    op.state = .awaitingResponse → op.conversation = some c → op.options = options →
    ResponseApdu.parse bytes = .ok r → bytes.length ≤ options.exchange.maxResponseBytes →
    op.responseBytes + r.data.length ≤ options.limits.maxTotalResponseBytes →
    options.limits.maxTotalResponseBytes ≤ usizeMax →
    (op.advance M bytes).1 = .error e ∧ (op.advance M bytes).2.state = .failed ∧
      (op.advance M bytes).2.error = some e

theorem endsOperation {options : OperationOptions} {c : ConversationState} {r : ResponseApdu}
    {e : Error} (he : c.advance options r = .error e) : EndsOperation options c r e := by
  refine ⟨he, ?_⟩
  rintro σ T M op bytes hs hc rfl hp hlen htotal husize
  have hinner : op.advanceInner M bytes =
      (.error e, { op with responseBytes := op.responseBytes + r.data.length }) := by
    simp only [Operation.advanceInner]
    rw [if_neg (by omega), hp]
    dsimp only
    rw [checkedAdd, if_pos (by omega)]
    dsimp only
    rw [if_neg (by omega), hc]
    dsimp only
    rw [he]
  have hadv : op.advance M bytes = Operation.record M (op.advanceInner M bytes) := by
    rw [Operation.advance, if_neg (not_not.mpr hs)]
  rw [hadv, hinner]
  exact ⟨rfl, rfl, rfl⟩

/-- The calls each state permits. -/
def Call.Allowed (state : OperationState) : Call → Prop
  | .start => state = .created
  | .advance _ => state = .awaitingResponse
  | .cancel => state = .created ∨ state = .awaitingResponse
  | .takeResult => state = .completed

def Call.refusal : Call → Reply T
  | .start => .step (.error stateError)
  | .advance _ => .step (.error stateError)
  | .cancel => .cancelled
  | .takeResult => .taken (.error stateError)

theorem call_refused (M : Machine σ T) {op : Operation σ T} {call : Call}
    (h : ¬ call.Allowed op.state) : op.call M call = (call.refusal, op) := by
  cases call with
  | start =>
    have hs : op.start M = (.error stateError, op) := if_pos h
    rw [Operation.call, hs]; rfl
  | advance bytes =>
    have hs : op.advance M bytes = (.error stateError, op) := if_pos h
    rw [Operation.call, hs]; rfl
  | cancel =>
    have hs : op.cancel = op := if_neg h
    rw [Operation.call, hs]; rfl
  | takeResult =>
    have hs : op.takeResult = (.error stateError, op) := if_pos h
    rw [Operation.call, hs]; rfl

def Reply.isExchange : Reply T → Bool
  | .step (.ok .exchange) => true
  | _ => false

/-- The data bytes of an accepted response; every other call contributes nothing. -/
def acceptedData : Call × Reply T → ℕ
  | (.advance bytes, .step (.ok _)) =>
    match ResponseApdu.parse bytes with
    | .ok r => r.data.length
    | .error _ => 0
  | _ => 0

structure Lifecycle (options : OperationOptions) (history : List (Call × Reply T))
    (op : Operation σ T) : Prop where
  conversation : op.conversation.isSome = true ↔ op.state = .awaitingResponse
  machine : op.machine.isSome = true ↔ op.state = .created ∨ op.state = .awaitingResponse
  output : op.output.isSome = true ↔ op.state = .completed
  error : op.error.isSome = true ↔ op.state = .failed
  exchanges : op.exchanges = history.countP (fun entry => entry.2.isExchange)
  budget : op.exchanges ≤ options.limits.maxExchanges
  bytes : op.state ≠ .failed → op.responseBytes = (history.map acceptedData).sum
  bytes_budget : op.state ≠ .failed → op.responseBytes ≤ options.limits.maxTotalResponseBytes
  options : op.options = options

theorem fromMachine_lifecycle {m : σ} {options : OperationOptions} {op : Operation σ T}
    (h : Operation.fromMachine m options = .ok op) : Lifecycle options [] op := by
  simp only [Operation.fromMachine] at h
  cases hv : options.validate with
  | error e => rw [hv] at h; cases h
  | ok o =>
    rw [hv] at h
    obtain ⟨_, rfl⟩ := validate_eq_ok.mp hv
    cases h
    constructor <;> simp

theorem Lifecycle.idle {options : OperationOptions} {history : List (Call × Reply T)}
    {op : Operation σ T} (h : Lifecycle options history op)
    (hs : op.state = .created ∨ op.state = .awaitingResponse) :
    op.output = none ∧ op.error = none := by
  constructor
  · rw [← Option.not_isSome_iff_eq_none, h.output]
    rcases hs with hs | hs <;> simp [hs]
  · rw [← Option.not_isSome_iff_eq_none, h.error]
    rcases hs with hs | hs <;> simp [hs]

theorem driven_lifecycle {options : OperationOptions} {history : List (Call × Reply T)}
    {op op' : Operation σ T} {total : ℕ} {reply : Except Error Step} {call : Call}
    (h : Lifecycle options history op)
    (hs : op.state = .created ∨ op.state = .awaitingResponse) (hd : Driven op total reply op')
    (ht : (∃ step, reply = .ok step) →
      total = op.responseBytes + acceptedData (call, (.step reply : Reply T)) ∧
        total ≤ options.limits.maxTotalResponseBytes) :
    Lifecycle options (history ++ [(call, .step reply)]) op' := by
  obtain ⟨hout, herr⟩ := h.idle hs
  have hcount := h.exchanges
  have hbudget := h.budget
  have hopt := h.options
  have hne : op.state ≠ .failed := by rcases hs with hs | hs <;> simp [hs]
  have hbytes := h.bytes hne
  cases hd with
  | exchange m c hlt =>
    obtain ⟨ht, htle⟩ := ht ⟨_, rfl⟩
    refine ⟨by simp, by simp, by simp [hout], by simp [herr], ?_, ?_, ?_, fun _ => htle, hopt⟩
    · simp [List.countP_append, Reply.isExchange, hcount]
    · rw [hopt] at hlt; exact hlt
    · intro _
      simp [ht, hbytes]
  | done value =>
    obtain ⟨ht, htle⟩ := ht ⟨_, rfl⟩
    refine ⟨by simp, by simp, by simp, by simp [herr], ?_, hbudget, ?_, fun _ => htle, hopt⟩
    · simp [List.countP_append, Reply.isExchange, hcount]
    · intro _
      simp [ht, hbytes]
  | failed e progress bytes =>
    refine ⟨by simp, by simp, by simp [hout], by simp, ?_, hbudget, fun hf => absurd rfl hf,
      fun hf => absurd rfl hf, hopt⟩
    simp [List.countP_append, Reply.isExchange, hcount]

/-- A reply that is neither an exchange nor an acceptance only lengthens the history. -/
theorem Lifecycle.extend {options : OperationOptions} {history : List (Call × Reply T)}
    {op : Operation σ T} (h : Lifecycle options history op) (entry : Call × Reply T)
    (hx : entry.2.isExchange = false) (ha : acceptedData entry = 0) :
    Lifecycle options (history ++ [entry]) op := by
  refine { h with exchanges := ?_, bytes := ?_ }
  · simp [List.countP_append, hx, h.exchanges]
  · intro hne
    simp [ha, h.bytes hne]

theorem refusal_quiet (call : Call) :
    (call.refusal : Reply T).isExchange = false ∧
      acceptedData (call, (call.refusal : Reply T)) = 0 := by
  cases call <;> exact ⟨rfl, rfl⟩

theorem call_lifecycle (M : Machine σ T) {options : OperationOptions}
    {history : List (Call × Reply T)} {op : Operation σ T} (h : Lifecycle options history op)
    (call : Call) :
    Lifecycle options (history ++ [(call, (op.call M call).1)]) (op.call M call).2 := by
  by_cases hcall : call.Allowed op.state
  swap
  · rw [call_refused M hcall]
    exact h.extend _ (refusal_quiet call).1 (refusal_quiet call).2
  cases call with
  | start =>
    have hs : op.state = .created := hcall
    obtain ⟨m, hm⟩ := Option.isSome_iff_exists.mp (h.machine.mpr (Or.inl hs))
    have hne : op.state ≠ .failed := by simp [hs]
    exact driven_lifecycle h (Or.inl hs) (start_driven hs hm)
      fun _ => ⟨rfl, h.bytes_budget hne⟩
  | advance bytes =>
    have hs : op.state = .awaitingResponse := hcall
    obtain ⟨m, hm⟩ := Option.isSome_iff_exists.mp (h.machine.mpr (Or.inr hs))
    obtain ⟨c, hc⟩ := Option.isSome_iff_exists.mp (h.conversation.mpr hs)
    obtain ⟨total, hd, htotal⟩ := advance_driven (M := M) hs hm hc bytes
    apply driven_lifecycle h (Or.inr hs) hd
    intro hok
    obtain ⟨r, hr, ht, hle⟩ := htotal hok
    obtain ⟨step, hstep⟩ := hok
    refine ⟨?_, by rw [← h.options]; exact hle⟩
    rw [ht, hstep, acceptedData, hr]
  | cancel =>
    have hcancel : op.cancel =
        { op with machine := none, conversation := none, state := .cancelled } := if_pos hcall
    obtain ⟨hout, herr⟩ := h.idle hcall
    have hne : op.state ≠ .failed := by rcases hcall with hs | hs <;> simp [hs]
    have hx := h.extend (.cancel, .cancelled) rfl rfl
    rw [Operation.call, hcancel]
    exact ⟨by simp, by simp, by simp [hout], by simp [herr], hx.exchanges, hx.budget,
      fun _ => hx.bytes hne, fun _ => hx.bytes_budget hne, hx.options⟩
  | takeResult =>
    have hs : op.state = .completed := hcall
    obtain ⟨value, hv⟩ := Option.isSome_iff_exists.mp (h.output.mpr hs)
    have hc : op.conversation = none := by
      rw [← Option.not_isSome_iff_eq_none, h.conversation]; simp [hs]
    have hm : op.machine = none := by
      rw [← Option.not_isSome_iff_eq_none, h.machine]; simp [hs]
    have he : op.error = none := by
      rw [← Option.not_isSome_iff_eq_none, h.error]; simp [hs]
    have htake : op.takeResult =
        (.ok value, { op with output := none, state := .resultTaken }) := by
      simp only [Operation.takeResult]
      rw [if_neg (not_not.mpr hs), hv]
    have hne : op.state ≠ .failed := by simp [hs]
    have hx := h.extend (.takeResult, .taken (.ok value)) rfl rfl
    rw [Operation.call, htake]
    exact ⟨by simp [hc], by simp [hm], by simp, by simp [he], hx.exchanges, hx.budget,
      fun _ => hx.bytes hne, fun _ => hx.bytes_budget hne, hx.options⟩

def OperationState.Final (s : OperationState) : Prop :=
  s = .failed ∨ s = .cancelled ∨ s = .resultTaken

theorem final_refuses {s : OperationState} (h : s.Final) (call : Call) :
    ¬ call.Allowed s := by
  rcases h with rfl | rfl | rfl <;> cases call <;> simp [Call.Allowed]

theorem run_final (M : Machine σ T) {op : Operation σ T} (h : op.state.Final)
    (calls : List Call) : (run (Operation.call M) op calls).2 = op := by
  induction calls with
  | nil => rfl
  | cons call calls ih =>
    rw [run, call_refused M (final_refuses h call)]
    exact ih

/-- Every reachable operation, its history and what any further call can do to it. -/
theorem operation_lifecycle (M : Machine σ T) {m : σ} {options : OperationOptions}
    {op₀ : Operation σ T} (h : Operation.fromMachine m options = .ok op₀)
    (calls : List Call) :
    Lifecycle options (run (Operation.call M) op₀ calls).1 (run (Operation.call M) op₀ calls).2 ∧
    (∀ call, ¬ Call.Allowed (run (Operation.call M) op₀ calls).2.state call →
      Operation.call M (run (Operation.call M) op₀ calls).2 call =
        (call.refusal, (run (Operation.call M) op₀ calls).2)) ∧
    ((run (Operation.call M) op₀ calls).2.state.Final → ∀ later,
      (run (Operation.call M) (run (Operation.call M) op₀ calls).2 later).2 =
        (run (Operation.call M) op₀ calls).2) :=
  ⟨run_invariant (Lifecycle options) (fromMachine_lifecycle h)
      (fun _ _ call hl => call_lifecycle M hl call) calls,
    fun _ hcall => call_refused M hcall, fun hf later => run_final M hf later⟩

def selectExample : LogicalCommand := { header := ⟨0, 0xa4, 4, 0⟩, data := [1, 2], le := .absent }

/-- A one-command operation from start to result; the cancellation after it is refused. -/
theorem operation_lifecycle_single :
    ∃ op₀ history op, Operation.fromMachine (some selectExample) {} = .ok op₀ ∧
      run (Operation.call singleCommand) op₀
        [.start, .advance [7, 0x90, 0], .takeResult] = (history, op) ∧
      Lifecycle {} history op ∧ op.state = .resultTaken ∧ op.exchanges = 1 ∧
      op.responseBytes = 1 ∧ op.call singleCommand .cancel = (.cancelled, op) ∧
      (run (Operation.call singleCommand) op [.start, .cancel]).2 = op := by
  have h : (Operation.fromMachine (some selectExample) {} :
      Except Error (Operation _ ResponseData)) = .ok _ := rfl
  obtain ⟨hl, hrefused, hfinal⟩ := operation_lifecycle singleCommand h
    [.start, .advance [7, 0x90, 0], .takeResult]
  have hstate : ¬Call.Allowed .resultTaken .cancel := by rintro (h | h) <;> cases h
  exact ⟨_, _, _, h, rfl, hl, rfl, rfl, rfl, hrefused .cancel hstate,
    hfinal (Or.inr (Or.inr rfl)) _⟩

end ProtocolOperation
