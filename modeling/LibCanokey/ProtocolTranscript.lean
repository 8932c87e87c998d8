import LibCanokey.ProtocolExposure
import LibCanokey.ProtocolOperation

/-! # Transcripts of operations

The logical commands an operation has begun to expose, the complete responses its machine
was handed and the physical frames the caller saw, recorded beside any run of calls. -/
namespace ProtocolTranscript

open BigEndian CheckedCursor ProtocolError ProtocolApdu ProtocolApduDecoder
open ProtocolConversation ProtocolSegmentation ProtocolExposure ProtocolOperation ScriptedRuns

variable {σ T : Type*}

/-- The machine answered the opening turn and every response so far with a command. -/
inductive Trace (M : Machine σ T) (m₀ : σ) :
    List LogicalCommand → List ResponseData → σ → Prop where
  | opened {c : LogicalCommand} {m : σ} (h : M.next m₀ none = (.ok (.command c), m)) :
      Trace M m₀ [c] [] m
  | answered {cs : List LogicalCommand} {rs : List ResponseData} {m m' : σ} {r : ResponseData}
      {c : LogicalCommand} (ht : Trace M m₀ cs rs m)
      (h : M.next m (some r) = (.ok (.command c), m')) :
      Trace M m₀ (cs ++ [c]) (rs ++ [r]) m'

/-- The last turn of a machine, after the commands and responses of a trace. -/
inductive LastTurn (M : Machine σ T) (m₀ : σ) (result : Except Error (Action T)) :
    List LogicalCommand → List ResponseData → σ → Prop where
  | opening {m : σ} (h : M.next m₀ none = (result, m)) : LastTurn M m₀ result [] [] m
  | answering {cs : List LogicalCommand} {rs : List ResponseData} {m m' : σ} {r : ResponseData}
      (ht : Trace M m₀ cs rs m) (h : M.next m (some r) = (result, m')) :
      LastTurn M m₀ result cs (rs ++ [r]) m'

theorem LastTurn.trace {M : Machine σ T} {m₀ m : σ} {c : LogicalCommand}
    {cs : List LogicalCommand} {rs : List ResponseData}
    (h : LastTurn M m₀ (.ok (.command c)) cs rs m) : Trace M m₀ (cs ++ [c]) rs m := by
  cases h with
  | opening h => exact .opened h
  | answering ht h => exact .answered ht h

theorem Trace.last {M : Machine σ T} {m₀ m : σ} {cs : List LogicalCommand}
    {rs : List ResponseData} (h : Trace M m₀ cs rs m) :
    ∃ own c, cs = own ++ [c] ∧ LastTurn M m₀ (.ok (.command c)) own rs m := by
  cases h with
  | opened h => exact ⟨[], _, rfl, .opening h⟩
  | answered ht h => exact ⟨_, _, rfl, .answering ht h⟩

theorem Trace.length {M : Machine σ T} {m₀ m : σ} {cs : List LogicalCommand}
    {rs : List ResponseData} (h : Trace M m₀ cs rs m) : cs.length = rs.length + 1 := by
  induction h with
  | opened h => rfl
  | answered ht h ih => simp [ih]

/-- The machine and a card talking in complete commands and responses for some turns. -/
def dialogue {κ : Type*} (M : Machine σ T) (card : κ → LogicalCommand → ResponseData × κ) :
    ℕ → σ → κ → Option ResponseData → Option (Except Error T)
  | 0, _, _, _ => none
  | turns + 1, m, k, input =>
    match M.next m input with
    | (.error e, _) => some (.error e)
    | (.ok (.done value), _) => some (.ok value)
    | (.ok (.command c), m) => dialogue M card turns m (card k c).2 (some (card k c).1)

/-- The complete response that accepted bytes give the machine. -/
def completed (op : Operation σ T) (bytes : Bytes) : Option ResponseData :=
  if op.state = .awaitingResponse ∧ bytes.length ≤ op.options.exchange.maxResponseBytes then
    match ResponseApdu.parse bytes, op.conversation with
    | .ok r, some c =>
      if op.responseBytes + r.data.length ≤ min usizeMax op.options.limits.maxTotalResponseBytes
      then
        match c.advance op.options r with
        | .ok (some d, _) => some d
        | _ => none
      else none
    | _, _ => none
  else none

/-- What a call hands to the machine: the opening turn, a response, or nothing. -/
def handed (op : Operation σ T) : Call → Option (Option ResponseData)
  | .start => if op.state = .created then some none else none
  | .advance bytes => (completed op bytes).map some
  | _ => none

/-- The logical command the machine answers a call with, accepted or not. -/
def proposal (M : Machine σ T) (op : Operation σ T) (call : Call) : Option LogicalCommand :=
  match handed op call, op.machine with
  | some input, some m =>
    match (M.next m input).1 with
    | .ok (.command c) => some c
    | _ => none
  | _, _ => none

/-- The logical command whose first frame the call exposes. -/
def begun (M : Machine σ T) (op : Operation σ T) (call : Call) : Option LogicalCommand :=
  if (op.call M call).1.isExchange then proposal M op call else none

def answer (op : Operation σ T) (call : Call) : Option ResponseData := (handed op call).join

/-- The physical frame the caller can read after the call. -/
def shown (M : Machine σ T) (op : Operation σ T) (call : Call) : Option CommandApdu :=
  if (op.call M call).1.isExchange then (op.call M call).2.conversation.map (·.current) else none

/-- The error with which a command of the machine is refused as a conversation. -/
def rejection (M : Machine σ T) (op : Operation σ T) (call : Call) : Option Error :=
  match proposal M op call with
  | some c =>
    match ConversationState.new c op.options with
    | .error e => some e
    | .ok _ => none
  | none => none

theorem rejection_eq_none {M : Machine σ T} {op : Operation σ T} {call : Call}
    (h : ∀ c, proposal M op call = some c → ∃ k, ConversationState.new c op.options = .ok k) :
    rejection M op call = none := by
  cases hc : proposal M op call with
  | none => simp only [rejection, hc]
  | some c =>
    obtain ⟨k, hk⟩ := h c hc
    simp only [rejection, hc, hk]

structure Recorded (σ T : Type*) where
  op : Operation σ T
  commands : List LogicalCommand := []
  responses : List ResponseData := []
  frames : List CommandApdu := []

def Recorded.call (M : Machine σ T) (s : Recorded σ T) (call : Call) : Reply T × Recorded σ T :=
  ((s.op.call M call).1,
    { op := (s.op.call M call).2
      commands := s.commands ++ (begun M s.op call).toList
      responses := s.responses ++ (answer s.op call).toList
      frames := s.frames ++ (shown M s.op call).toList })

/-- An operation with its transcript after any calls. -/
def recorded (M : Machine σ T) (op : Operation σ T) (calls : List Call) : Recorded σ T :=
  (run (Recorded.call M) { op := op } calls).2

/-- Recording changes neither the replies nor the operation. -/
theorem recorded_run (M : Machine σ T) (s : Recorded σ T) (calls : List Call) :
    (run (Recorded.call M) s calls).1 = (run (Operation.call M) s.op calls).1 ∧
      (run (Recorded.call M) s calls).2.op = (run (Operation.call M) s.op calls).2 := by
  induction calls generalizing s with
  | nil => exact ⟨rfl, rfl⟩
  | cons call calls ih =>
    obtain ⟨hhist, hop⟩ := ih (Recorded.call M s call).2
    refine ⟨?_, hop⟩
    simp only [run, hhist]
    rfl

theorem recorded_concat (M : Machine σ T) (op : Operation σ T) (calls : List Call) (call : Call) :
    recorded M op (calls ++ [call]) = (Recorded.call M (recorded M op calls) call).2 := by
  rw [recorded, run_append, recorded]
  rfl

theorem recorded_more (M : Machine σ T) (op : Operation σ T) (calls more : List Call) :
    recorded M op (calls ++ more) = (run (Recorded.call M) (recorded M op calls) more).2 := by
  rw [recorded, run_append, recorded]

theorem recorded_append (M : Machine σ T) (op : Operation σ T) (calls more : List Call) :
    (recorded M op (calls ++ more)).op =
      (run (Operation.call M) (recorded M op calls).op more).2 := by
  rw [recorded_more]
  exact (recorded_run M (recorded M op calls) more).2

/-- Everything a call can do to an operation, by what it hands to the machine. -/
inductive Moves (M : Machine σ T) (op : Operation σ T) (call : Call) :
    Reply T → Operation σ T → Prop where
  | refused (h : ¬ call.Allowed op.state) (hh : handed op call = none) :
      Moves M op call call.refusal op
  | cancelled (hc : call = .cancel) (hs : op.state = .created ∨ op.state = .awaitingResponse) :
      Moves M op call .cancelled
        { op with machine := none, conversation := none, state := .cancelled }
  | taken (value : T) (hc : call = .takeResult) (hs : op.state = .completed)
      (hv : op.output = some value) :
      Moves M op call (.taken (.ok value)) { op with output := none, state := .resultTaken }
  | went (bytes : ℕ) (c c' : ConversationState) (r : ResponseApdu) (hh : handed op call = none)
      (hs : op.state = .awaitingResponse) (hc : op.conversation = some c)
      (hgo : c.advance op.options r = .ok (none, c'))
      (hlt : op.exchanges < op.options.limits.maxExchanges) :
      Moves M op call (.step (.ok .exchange))
        { op with conversation := some c', responseBytes := bytes,
                  exchanges := op.exchanges + 1, state := .awaitingResponse }
  | broke (bytes : ℕ) (e : Error) (hh : handed op call = none)
      (hs : op.state = .awaitingResponse) :
      Moves M op call (.step (.error e))
        { op with machine := none, conversation := none, responseBytes := bytes,
                  progress := op.machine.bind fun m => (M.takeProgress m).1,
                  error := some e, state := .failed }
  | done (bytes : ℕ) (m m' : σ) (input : Option ResponseData) (value : T)
      (hh : handed op call = some input) (hm : op.machine = some m)
      (hn : M.next m input = (.ok (.done value), m')) :
      Moves M op call (.step (.ok .done))
        { op with machine := none, conversation := none, responseBytes := bytes,
                  output := some value, state := .completed }
  | failed (bytes : ℕ) (m m' : σ) (input : Option ResponseData) (e : Error)
      (hh : handed op call = some input) (hm : op.machine = some m)
      (hn : M.next m input = (.error e, m')) :
      Moves M op call (.step (.error e))
        { op with machine := none, conversation := none, responseBytes := bytes,
                  progress := (M.takeProgress m').1, error := some e, state := .failed }
  | rejected (bytes : ℕ) (m m' : σ) (input : Option ResponseData) (c : LogicalCommand)
      (e : Error) (hh : handed op call = some input) (hm : op.machine = some m)
      (hn : M.next m input = (.ok (.command c), m'))
      (hbad : ConversationState.new c op.options = .error e ∨
        op.options.limits.maxExchanges ≤ op.exchanges) :
      Moves M op call (.step (.error e))
        { op with machine := none, conversation := none, responseBytes := bytes,
                  progress := (M.takeProgress m').1, error := some e, state := .failed }
  | began (bytes : ℕ) (m m' : σ) (input : Option ResponseData) (c : LogicalCommand)
      (k : ConversationState) (hh : handed op call = some input) (hm : op.machine = some m)
      (hn : M.next m input = (.ok (.command c), m'))
      (hnew : ConversationState.new c op.options = .ok k)
      (hlt : op.exchanges < op.options.limits.maxExchanges) :
      Moves M op call (.step (.ok .exchange))
        { op with machine := some m', conversation := some k, responseBytes := bytes,
                  exchanges := op.exchanges + 1, state := .awaitingResponse }

section moves

variable {M : Machine σ T} {op : Operation σ T} {call : Call}

/-- Handing an input to the machine. -/
theorem drive_moves {m : σ} {input : Option ResponseData} (hh : handed op call = some input)
    (hm : op.machine = some m) (bytes : ℕ) (k : Option ConversationState) :
    Moves M op call
      (.step (Operation.record M
        (Operation.drive M { op with responseBytes := bytes, conversation := k } input)).1)
      (Operation.record M
        (Operation.drive M { op with responseBytes := bytes, conversation := k } input)).2 := by
  simp only [Operation.drive]
  simp only [hm]
  rcases hn : M.next m input with ⟨e | c | value, m'⟩
  · exact .failed bytes m m' input e hh hm hn
  · dsimp only
    cases hnew : ConversationState.new c op.options with
    | error e => exact .rejected bytes m m' input c e hh hm hn (Or.inl hnew)
    | ok k' =>
      simp only [Operation.exchange]
      by_cases hlt : op.exchanges < op.options.limits.maxExchanges
      · rw [if_neg (by omega)]
        exact .began bytes m m' input c k' hh hm hn hnew hlt
      · rw [if_pos (by omega)]
        exact .rejected bytes m m' input c _ hh hm hn (Or.inr (by omega))
  · exact .done bytes m m' input value hh hm hn

theorem start_moves {m : σ} (hs : op.state = .created) (hm : op.machine = some m) :
    Moves M op .start (.step (op.start M).1) (op.start M).2 := by
  simp only [Operation.start]
  rw [if_neg (not_not.mpr hs)]
  have hh : handed op .start = some none := if_pos hs
  exact drive_moves hh hm op.responseBytes op.conversation

theorem completed_eq_some {bytes : Bytes} {d : ResponseData} :
    completed op bytes = some d ↔
      op.state = .awaitingResponse ∧ bytes.length ≤ op.options.exchange.maxResponseBytes ∧
      ∃ r c c', ResponseApdu.parse bytes = .ok r ∧ op.conversation = some c ∧
        op.responseBytes + r.data.length ≤
          min usizeMax op.options.limits.maxTotalResponseBytes ∧
        c.advance op.options r = .ok (some d, c') := by
  simp only [completed]
  constructor
  · intro h
    split_ifs at h with hs
    cases hp : ResponseApdu.parse bytes with
    | error e => rw [hp] at h; cases h
    | ok r =>
      cases hc : op.conversation with
      | none => rw [hp, hc] at h; cases h
      | some c =>
        rw [hp, hc] at h
        dsimp only at h
        split_ifs at h with hfit
        rcases ha : c.advance op.options r with e | ⟨_ | d', c'⟩
        · rw [ha] at h; cases h
        · rw [ha] at h; cases h
        · rw [ha] at h
          cases h
          exact ⟨hs.1, hs.2, r, c, c', rfl, rfl, hfit, ha⟩
  · rintro ⟨hs, hlen, r, c, c', hp, hc, hfit, ha⟩
    rw [if_pos ⟨hs, hlen⟩, hp, hc]
    dsimp only
    rw [if_pos hfit, ha]

theorem advance_moves {m : σ} {bytes : Bytes} (hs : op.state = .awaitingResponse)
    (hm : op.machine = some m) (hk : op.conversation.isSome = true) :
    Moves M op (.advance bytes) (.step (op.advance M bytes).1) (op.advance M bytes).2 := by
  obtain ⟨c, hc⟩ := Option.isSome_iff_exists.mp hk
  have hnone : (∀ d, completed op bytes ≠ some d) → handed op (.advance bytes) = none := by
    intro h
    have : completed op bytes = none := Option.eq_none_iff_forall_ne_some.mpr h
    simp [handed, this]
  simp only [Operation.advance]
  rw [if_neg (not_not.mpr hs)]
  simp only [Operation.advanceInner]
  by_cases hlen : bytes.length > op.options.exchange.maxResponseBytes
  · rw [if_pos hlen]
    apply Moves.broke op.responseBytes _ (hnone _) hs
    intro d hd
    have := (completed_eq_some.mp hd).2.1
    omega
  rw [if_neg hlen]
  cases hp : ResponseApdu.parse bytes with
  | error e =>
    apply Moves.broke op.responseBytes _ (hnone _) hs
    intro d hd
    obtain ⟨_, _, r, _, _, hr, _⟩ := completed_eq_some.mp hd
    rw [hp] at hr
    cases hr
  | ok r =>
    dsimp only
    have hover : ¬ op.responseBytes + r.data.length ≤
        min usizeMax op.options.limits.maxTotalResponseBytes →
        handed op (.advance bytes) = none := by
      intro hbig
      apply hnone
      intro d hd
      obtain ⟨_, _, r', _, _, hr, _, hfit, _⟩ := completed_eq_some.mp hd
      rw [hp] at hr
      cases hr
      exact hbig hfit
    by_cases hadd : op.responseBytes + r.data.length ≤ usizeMax
    · simp only [checkedAdd, if_pos hadd, hc]
      by_cases htotal : op.responseBytes + r.data.length > op.options.limits.maxTotalResponseBytes
      · rw [if_pos htotal]
        exact .broke _ _ (hover (by omega)) hs
      rw [if_neg htotal]
      have hstop : (∀ d c', c.advance op.options r ≠ .ok (some d, c')) →
          handed op (.advance bytes) = none := by
        intro h
        apply hnone
        intro d hd
        obtain ⟨_, _, r', k, c', hr, hk', _, ha⟩ := completed_eq_some.mp hd
        rw [hp] at hr
        cases hr
        rw [hc] at hk'
        cases hk'
        exact h d c' ha
      rcases ha : c.advance op.options r with e | ⟨_ | d, c'⟩
      · apply Moves.broke _ _ (hstop _) hs
        intro d c' h
        rw [ha] at h
        cases h
      · have hh : handed op (.advance bytes) = none := by
          apply hstop
          intro d k h
          rw [ha] at h
          cases h
        simp only [Operation.exchange]
        by_cases hlt : op.exchanges < op.options.limits.maxExchanges
        · rw [if_neg (by omega)]
          exact .went _ c c' r hh hs hc ha hlt
        · rw [if_pos (by omega)]
          exact .broke _ _ hh hs
      · have hd : completed op bytes = some d :=
          completed_eq_some.mpr ⟨hs, by omega, r, c, c', hp, hc, by omega, ha⟩
        exact drive_moves (by simp [handed, hd]) hm _ none
    · simp only [checkedAdd, if_neg hadd]
      exact .broke _ _ (hover (by omega)) hs

theorem handed_refused (h : ¬ call.Allowed op.state) : handed op call = none := by
  cases call with
  | start => exact if_neg h
  | advance bytes =>
    have : completed op bytes = none := if_neg fun hs => h hs.1
    simp [handed, this]
  | cancel => rfl
  | takeResult => rfl

/-- A call does to a well-formed operation nothing but `Moves`. -/
theorem call_moves (M : Machine σ T) {options : OperationOptions}
    {history : List (Call × Reply T)} (h : Lifecycle options history op) (call : Call) :
    Moves M op call (op.call M call).1 (op.call M call).2 := by
  by_cases hcall : call.Allowed op.state
  swap
  · rw [call_refused M hcall]
    exact .refused hcall (handed_refused hcall)
  cases call with
  | start =>
    obtain ⟨m, hm⟩ := Option.isSome_iff_exists.mp (h.machine.mpr (Or.inl hcall))
    exact start_moves hcall hm
  | advance bytes =>
    obtain ⟨m, hm⟩ := Option.isSome_iff_exists.mp (h.machine.mpr (Or.inr hcall))
    exact advance_moves hcall hm (h.conversation.mpr hcall)
  | cancel =>
    have hcancel : op.cancel =
        { op with machine := none, conversation := none, state := .cancelled } := if_pos hcall
    rw [Operation.call, hcancel]
    exact .cancelled rfl hcall
  | takeResult =>
    have hs : op.state = .completed := hcall
    obtain ⟨value, hv⟩ := Option.isSome_iff_exists.mp (h.output.mpr hs)
    have htake : op.takeResult =
        (.ok value, { op with output := none, state := .resultTaken }) := by
      simp only [Operation.takeResult]
      rw [if_neg (not_not.mpr hs), hv]
    rw [Operation.call, htake]
    exact .taken value rfl hs hv

end moves

/-- Frames shown for one logical command, the last of them in `k`. -/
structure Showing (options : OperationOptions) (command : LogicalCommand)
    (frames : List CommandApdu) (k : ConversationState) : Prop where
  shown : ∃ k₀ script, ConversationState.new command options = .ok k₀ ∧
    after (ConversationState.advance options) k₀ script = some k ∧
    frames = (waiting (ConversationState.advance options) k₀ script).map (·.current)

/-- The frames of every command in turn, the last of which is open in `k`. -/
inductive Shown (options : OperationOptions) :
    List LogicalCommand → List CommandApdu → Option ConversationState → Prop where
  | nothing : Shown options [] [] none
  | command {cs : List LogicalCommand} {fs gs : List CommandApdu} {c : LogicalCommand}
      {k₀ : Option ConversationState} {k : ConversationState} (hs : Shown options cs fs k₀)
      (hk : Showing options c gs k) : Shown options (cs ++ [c]) (fs ++ gs) (some k)

theorem Showing.first {options : OperationOptions} {c : LogicalCommand} {k : ConversationState}
    (h : ConversationState.new c options = .ok k) : Showing options c [k.current] k :=
  ⟨k, [], h, rfl, rfl⟩

/-- The last command shown was accepted as a conversation. -/
theorem Shown.accepted {options : OperationOptions} {cs : List LogicalCommand}
    {c : LogicalCommand} {fs : List CommandApdu} {k : Option ConversationState}
    (h : Shown options (cs ++ [c]) fs k) :
    ∃ k₀, ConversationState.new c options = .ok k₀ := by
  generalize hall : cs ++ [c] = all at h
  cases h with
  | nothing => simp at hall
  | command _ hk =>
    obtain ⟨_, hsame⟩ := List.append_inj' hall rfl
    cases hsame
    obtain ⟨k₀, _, hnew, _⟩ := hk.shown
    exact ⟨k₀, hnew⟩

theorem Showing.goes {options : OperationOptions} {c : LogicalCommand} {fs : List CommandApdu}
    {k k' : ConversationState} {r : ResponseApdu} (h : Showing options c fs k)
    (hgo : k.advance options r = .ok (none, k')) :
    Showing options c (fs ++ [k'.current]) k' := by
  obtain ⟨k₀, script, hnew, hafter, rfl⟩ := h.shown
  refine ⟨k₀, script ++ [r], hnew, ?_, ?_⟩
  · apply after_append_eq_some.mpr
    exact ⟨k, hafter, by rw [after_cons hgo]; rfl⟩
  · rw [waiting_concat hafter hgo]
    simp

/-- A command that is neither chained nor corrected shows one frame of its own. -/
theorem Showing.single {options : OperationOptions} {c : LogicalCommand} {cla : UInt8}
    {fs : List CommandApdu} {k : ConversationState} (hchain : c.allowChaining = false)
    (hcorrect : c.correctLe = false) (hcont : c.continuation = .iso7816 cla)
    (h : Showing options c fs k) :
    ∃ f gs, fs = f :: gs ∧ decode f.bytes = some ⟨c.header, c.data, c.le⟩ ∧
      ∀ g ∈ gs, ∃ le, decode g.bytes = some ⟨⟨cla, 0xc0, 0, 0⟩, [], le⟩ := by
  obtain ⟨k₀, script, hnew, _, rfl⟩ := h.shown
  obtain ⟨le, encoding, cmd, hclamp, hcmd, hk⟩ := new_single hchain hnew
  have hle : le = c.le := by
    obtain ⟨hrange, _⟩ := new_eq_ok hnew
    rcases clampLe_eq_ok hrange hclamp with ⟨hle, _⟩ | ⟨_, _, hcor, _⟩
    · exact hle
    · rw [hcorrect] at hcor
      cases hcor
  subst hle
  obtain ⟨shown, rest, hlog, hamo⟩ := command_exposed_at_most_once hnew script
  have hfirst : k₀.frames = [cmd] := by rw [hk]; rfl
  rw [hfirst, hcorrect, hcont] at hamo
  have hmap : (waiting (ConversationState.advance options) k₀ script).map (·.current) =
      (exposureLog options k₀ script).map Prod.fst := by
    rw [← turns_fst, exposureLog, List.map_map, List.map_map]
    rfl
  have hne : (exposureLog options k₀ script).map Prod.fst ≠ [] := by
    rw [← hmap]
    simpa using waiting_ne_nil k₀ script
  rw [hmap, hlog]
  rw [hlog] at hne
  have hall : shown.map Entry.command = [cmd] := by
    rcases List.prefix_cons_iff.mp hamo.in_order with hnil | ⟨t, ht, htail⟩
    · by_cases hrest : rest = []
      · rw [List.map_eq_nil_iff] at hnil
        rw [hnil, hrest] at hne
        exact absurd rfl hne
      · exact hamo.frames_first hrest
    · rw [ht, List.prefix_nil.mp htail]
  obtain ⟨e, hshown, hcommand⟩ := List.map_eq_singleton_iff.mp hall
  have hre : e.resend = none := by
    by_contra hsome
    have := (hamo.resend 0 e (by rw [hshown]; rfl) hsome).1
    cases this
  refine ⟨cmd, (rest.flatMap Entry.log).map Prod.fst, ?_, decode_of_encode hcmd, ?_⟩
  · simp [hshown, Entry.log, hre, hcommand]
  · intro g hg
    obtain ⟨entry, hentry, rfl⟩ := List.mem_map.mp hg
    obtain ⟨e', he', hlog'⟩ := List.mem_flatMap.mp hentry
    obtain ⟨n, hn⟩ := hamo.continuation.command e' he'
    rcases List.mem_cons.mp hlog' with rfl | hre'
    · exact ⟨_, hn⟩
    · obtain ⟨_, d, _, _, hd, hd'⟩ :=
        hamo.continuation.only_le e' he' entry.1 entry.2 (Option.mem_toList.mp hre')
      rw [hn] at hd
      cases hd
      exact ⟨_, hd'⟩

theorem Showing.filterMap {α : Type*} {options : OperationOptions} {c : LogicalCommand}
    {cla : UInt8} {fs : List CommandApdu} {k : ConversationState}
    (g : DecodedCommand → Option α)
    (hget : ∀ le, g ⟨⟨cla, 0xc0, 0, 0⟩, [], le⟩ = none) (hchain : c.allowChaining = false)
    (hcorrect : c.correctLe = false) (hcont : c.continuation = .iso7816 cla)
    (h : Showing options c fs k) :
    fs.filterMap (fun f => (decode f.bytes).bind g) = (g ⟨c.header, c.data, c.le⟩).toList := by
  obtain ⟨f, gs, rfl, hf, hgs⟩ := h.single hchain hcorrect hcont
  have hnone : gs.filterMap (fun f => (decode f.bytes).bind g) = [] := by
    apply List.filterMap_eq_nil_iff.mpr
    intro f' hf'
    obtain ⟨le', hle'⟩ := hgs f' hf'
    rw [hle', Option.bind_some, hget]
  have hone : (decode f.bytes).bind g = g ⟨c.header, c.data, c.le⟩ := by
    rw [hf, Option.bind_some]
  simp only [List.filterMap_cons, hnone, hone]
  cases g ⟨c.header, c.data, c.le⟩ <;> rfl

/-- What the frames say to a reader of single commands is what the commands say. -/
theorem Shown.filterMap {α : Type*} {options : OperationOptions} {cla : UInt8}
    {cs : List LogicalCommand} {fs : List CommandApdu} {k : Option ConversationState}
    (g : DecodedCommand → Option α)
    (hget : ∀ le, g ⟨⟨cla, 0xc0, 0, 0⟩, [], le⟩ = none) (h : Shown options cs fs k)
    (hcs : ∀ c ∈ cs, c.allowChaining = false ∧ c.correctLe = false ∧
      c.continuation = .iso7816 cla) :
    fs.filterMap (fun f => (decode f.bytes).bind g) =
      cs.filterMap fun c => g ⟨c.header, c.data, c.le⟩ := by
  induction h with
  | nothing => rfl
  | @command cs fs gs c _ _ hs hk ih =>
    obtain ⟨hchain, hcorrect, hcont⟩ := hcs c (by simp)
    rw [List.filterMap_append, List.filterMap_append,
      ih fun c' hc' => hcs c' (List.mem_append_left _ hc'),
      hk.filterMap g hget hchain hcorrect hcont]
    cases hg : g ⟨c.header, c.data, c.le⟩ <;> simp [hg]

/-- Where an operation stands, by the transcript of its machine. -/
inductive Standing (M : Machine σ T) (m₀ : σ) (cs : List LogicalCommand)
    (rs : List ResponseData) (op : Operation σ T) : Prop where
  | created (hs : op.state = .created) (hm : op.machine = some m₀) (hcs : cs = [])
      (hrs : rs = []) (hp : op.progress = none)
  | awaiting (m : σ) (hs : op.state = .awaitingResponse) (hm : op.machine = some m)
      (ht : Trace M m₀ cs rs m) (hp : op.progress = none)
  | completed (m : σ) (value : T) (ht : LastTurn M m₀ (.ok (.done value)) cs rs m)
      (hp : op.progress = none)
      (hs : op.state = .completed ∧ op.output = some value ∨
        op.state = .resultTaken ∧ op.output = none)
  | cancelled (hs : op.state = .cancelled) (hp : op.progress = none)
      (ht : cs = [] ∧ rs = [] ∨ ∃ m, Trace M m₀ cs rs m)
  | broke (m : σ) (hs : op.state = .failed) (ht : Trace M m₀ cs rs m)
      (hp : op.progress = (M.takeProgress m).1)
  | failed (m : σ) (e : Error) (hs : op.state = .failed)
      (ht : LastTurn M m₀ (.error e) cs rs m) (he : op.error = some e)
      (hp : op.progress = (M.takeProgress m).1)
  | rejected (m : σ) (c : LogicalCommand) (hs : op.state = .failed)
      (ht : LastTurn M m₀ (.ok (.command c)) cs rs m)
      (hbad : (∃ e, ConversationState.new c op.options = .error e) ∨
        op.options.limits.maxExchanges ≤ op.exchanges)
      (hp : op.progress = (M.takeProgress m).1)

/-- What holds of an operation and its transcript after any calls. -/
structure Follows (M : Machine σ T) (m₀ : σ) (options : OperationOptions)
    (history : List (Call × Reply T)) (s : Recorded σ T) : Prop where
  lifecycle : Lifecycle options history s.op
  standing : Standing M m₀ s.commands s.responses s.op
  shown : ∃ k, Shown options s.commands s.frames k ∧
    (s.op.state = .awaitingResponse → s.op.conversation = k)
  finished : (∃ call, (call, .step (.ok .done)) ∈ history) →
    s.op.state = .completed ∨ s.op.state = .resultTaken

theorem fromMachine_follows {M : Machine σ T} {m₀ : σ} {options : OperationOptions}
    {op : Operation σ T} (h : Operation.fromMachine m₀ options = .ok op) :
    Follows M m₀ options [] { op := op } := by
  have hl := fromMachine_lifecycle h
  simp only [Operation.fromMachine] at h
  cases hv : options.validate with
  | error e => rw [hv] at h; cases h
  | ok o =>
    rw [hv] at h
    cases h
    refine ⟨hl, .created rfl rfl rfl rfl rfl, ⟨none, .nothing, fun _ => rfl⟩, ?_⟩
    rintro ⟨_, h⟩
    cases h

section step

variable {M : Machine σ T} {m₀ : σ} {options : OperationOptions}
  {history : List (Call × Reply T)} {op : Operation σ T} {call : Call}
  {cs : List LogicalCommand} {rs : List ResponseData}

/-- Whatever was begun is the command list of a trace over a prefix of the responses. -/
theorem Standing.commands (h : Standing M m₀ cs rs op) :
    cs = [] ∨ ∃ rs' m, rs' <+: rs ∧ Trace M m₀ cs rs' m := by
  have hlast {result : Except Error (Action T)} {m : σ} (ht : LastTurn M m₀ result cs rs m) :
      cs = [] ∨ ∃ rs' m, rs' <+: rs ∧ Trace M m₀ cs rs' m := by
    cases ht with
    | opening _ => exact Or.inl rfl
    | answering ht _ => exact Or.inr ⟨_, _, List.prefix_append _ _, ht⟩
  cases h with
  | created _ _ hcs => exact Or.inl hcs
  | awaiting m _ _ ht => exact Or.inr ⟨rs, m, List.prefix_rfl, ht⟩
  | completed _ _ ht => exact hlast ht
  | cancelled _ _ ht =>
    rcases ht with ⟨hcs, _⟩ | ⟨m, ht⟩
    · exact Or.inl hcs
    · exact Or.inr ⟨rs, m, List.prefix_rfl, ht⟩
  | broke m _ ht => exact Or.inr ⟨rs, m, List.prefix_rfl, ht⟩
  | failed _ _ _ ht => exact hlast ht
  | rejected _ _ _ ht => exact hlast ht

theorem Standing.of_created (h : Standing M m₀ cs rs op) (hs : op.state = .created) :
    op.machine = some m₀ ∧ cs = [] ∧ rs = [] ∧ op.progress = none := by
  cases h with
  | created _ hm hcs hrs hp => exact ⟨hm, hcs, hrs, hp⟩
  | awaiting _ hs' => cases hs.symm.trans hs'
  | completed _ _ _ _ hs' => rcases hs' with ⟨hs', _⟩ | ⟨hs', _⟩ <;> cases hs.symm.trans hs'
  | cancelled hs' => cases hs.symm.trans hs'
  | broke _ hs' => cases hs.symm.trans hs'
  | failed _ _ hs' => cases hs.symm.trans hs'
  | rejected _ _ hs' => cases hs.symm.trans hs'

theorem Standing.of_finished (h : Standing M m₀ cs rs op)
    (hs : op.state = .completed ∨ op.state = .resultTaken) :
    ∃ m value, LastTurn M m₀ (.ok (.done value)) cs rs m ∧ op.progress = none ∧
      (op.state = .completed → op.output = some value) := by
  cases h with
  | completed m value ht hp hs' =>
    refine ⟨m, value, ht, hp, ?_⟩
    intro hc
    rcases hs' with ⟨_, hv⟩ | ⟨hs', _⟩
    · exact hv
    · cases hc.symm.trans hs'
  | created hs' => rcases hs with hs | hs <;> cases hs.symm.trans hs'
  | awaiting _ hs' => rcases hs with hs | hs <;> cases hs.symm.trans hs'
  | cancelled hs' => rcases hs with hs | hs <;> cases hs.symm.trans hs'
  | broke _ hs' => rcases hs with hs | hs <;> cases hs.symm.trans hs'
  | failed _ _ hs' => rcases hs with hs | hs <;> cases hs.symm.trans hs'
  | rejected _ _ hs' => rcases hs with hs | hs <;> cases hs.symm.trans hs'

theorem Standing.of_awaiting (h : Standing M m₀ cs rs op) (hs : op.state = .awaitingResponse) :
    ∃ m, op.machine = some m ∧ Trace M m₀ cs rs m ∧ op.progress = none := by
  cases h with
  | created hs' => cases hs.symm.trans hs'
  | awaiting m _ hm ht hp => exact ⟨m, hm, ht, hp⟩
  | completed _ _ _ _ hs' => rcases hs' with ⟨hs', _⟩ | ⟨hs', _⟩ <;> cases hs.symm.trans hs'
  | cancelled hs' => cases hs.symm.trans hs'
  | broke _ hs' => cases hs.symm.trans hs'
  | failed _ _ hs' => cases hs.symm.trans hs'
  | rejected _ _ hs' => cases hs.symm.trans hs'

theorem handed_state {input : Option ResponseData} (h : handed op call = some input) :
    op.state = .created ∧ input = none ∨
      op.state = .awaitingResponse ∧ ∃ r, input = some r := by
  cases call with
  | start =>
    simp only [handed] at h
    split_ifs at h with hs
    cases h
    exact Or.inl ⟨hs, rfl⟩
  | advance bytes =>
    simp only [handed, Option.map_eq_some_iff] at h
    obtain ⟨d, hd, rfl⟩ := h
    exact Or.inr ⟨(completed_eq_some.mp hd).1, d, rfl⟩
  | cancel => cases h
  | takeResult => cases h

/-- A conversation that answers has shown its frames. -/
theorem answered_pending {call : Call} {input : Option ResponseData} {k : ConversationState}
    (hh : handed op call = some input) (hs : op.state = .awaitingResponse)
    (hk : op.conversation = some k) : k.pending = [] := by
  cases call with
  | start =>
    simp only [handed, hs] at hh
    cases hh
  | advance bytes =>
    simp only [handed, Option.map_eq_some_iff] at hh
    obtain ⟨d, hd, _⟩ := hh
    obtain ⟨_, _, r, k', c', _, hk', _, ha⟩ := completed_eq_some.mp hd
    cases hk.symm.trans hk'
    obtain ⟨hfin, _⟩ := advance_finishes.mp ha
    cases hfin with
    | polled _ _ hp => exact hp
    | final hp => exact hp
  | cancel => cases hh
  | takeResult => cases hh

/-- What the machine was handed extends its trace by a last turn. -/
theorem Standing.lastTurn {input : Option ResponseData} {m m' : σ}
    {result : Except Error (Action T)} (h : Standing M m₀ cs rs op)
    (hh : handed op call = some input) (hm : op.machine = some m)
    (hn : M.next m input = (result, m')) :
    LastTurn M m₀ result cs (rs ++ (answer op call).toList) m' ∧ op.progress = none := by
  have ha : answer op call = input := by simp [answer, hh]
  rw [ha]
  rcases handed_state hh with ⟨hs, rfl⟩ | ⟨hs, r, rfl⟩
  · obtain ⟨hm₀, rfl, rfl, hp⟩ := h.of_created hs
    cases hm₀.symm.trans hm
    exact ⟨.opening hn, hp⟩
  · obtain ⟨m₁, hm₁, ht, hp⟩ := h.of_awaiting hs
    cases hm₁.symm.trans hm
    exact ⟨.answering ht hn, hp⟩

theorem quiet_of_not_exchange (h : (op.call M call).1.isExchange = false) :
    begun M op call = none ∧ shown M op call = none := by
  simp [begun, shown, h]

theorem begun_of_handed_none (h : handed op call = none) :
    begun M op call = none ∧ answer op call = none := by
  simp [begun, answer, proposal, h]

theorem begun_of_command {input : Option ResponseData} {m m' : σ} {c : LogicalCommand}
    (hx : (op.call M call).1.isExchange = true) (hh : handed op call = some input)
    (hm : op.machine = some m) (hn : M.next m input = (.ok (.command c), m')) :
    begun M op call = some c := by
  simp [begun, proposal, hx, hh, hm, hn]

theorem refusal_not_exchange (call : Call) : (call.refusal : Reply T).isExchange = false := by
  cases call <;> rfl

theorem standing_step (h : Standing M m₀ cs rs op)
    (hmv : Moves M op call (op.call M call).1 (op.call M call).2) :
    Standing M m₀ (cs ++ (begun M op call).toList) (rs ++ (answer op call).toList)
      (op.call M call).2 := by
  generalize hcall : op.call M call = result at hmv
  obtain ⟨reply, op'⟩ := result
  dsimp only at hmv ⊢
  have hquiet (hx : reply.isExchange = false) : cs ++ (begun M op call).toList = cs := by
    rw [(quiet_of_not_exchange (by rw [hcall]; exact hx)).1]
    simp
  have hsame (hh : handed op call = none) : cs ++ (begun M op call).toList = cs ∧
      rs ++ (answer op call).toList = rs := by
    obtain ⟨hb, ha⟩ := begun_of_handed_none hh
    rw [hb, ha]
    simp
  cases hmv with
  | refused _ hh =>
    rw [(hsame hh).1, (hsame hh).2]
    exact h
  | cancelled hc hs =>
    have hh : handed op call = none := by rw [hc]; rfl
    rw [(hsame hh).1, (hsame hh).2]
    rcases hs with hs | hs
    · obtain ⟨_, hcs, hrs, hp⟩ := h.of_created hs
      exact .cancelled rfl hp (Or.inl ⟨hcs, hrs⟩)
    · obtain ⟨m, _, ht, hp⟩ := h.of_awaiting hs
      exact .cancelled rfl hp (Or.inr ⟨m, ht⟩)
  | taken value hc hs hv =>
    have hh : handed op call = none := by rw [hc]; rfl
    rw [(hsame hh).1, (hsame hh).2]
    obtain ⟨m, value, ht, hp, _⟩ := h.of_finished (Or.inl hs)
    exact .completed m value ht hp (Or.inr ⟨rfl, rfl⟩)
  | went bytes c c' r hh hs hc hgo hlt =>
    rw [(hsame hh).1, (hsame hh).2]
    obtain ⟨m, hm, ht, hp⟩ := h.of_awaiting hs
    exact .awaiting m rfl hm ht hp
  | broke bytes e hh hs =>
    rw [(hsame hh).1, (hsame hh).2]
    obtain ⟨m, hm, ht, hp⟩ := h.of_awaiting hs
    exact .broke m rfl ht (by simp [hm])
  | done bytes m m' input value hh hm hn =>
    obtain ⟨ht, hp⟩ := h.lastTurn hh hm hn
    rw [hquiet rfl]
    exact .completed m' value ht hp (Or.inl ⟨rfl, rfl⟩)
  | failed bytes m m' input e hh hm hn =>
    obtain ⟨ht, _⟩ := h.lastTurn hh hm hn
    rw [hquiet rfl]
    exact .failed m' e rfl ht rfl rfl
  | rejected bytes m m' input c e hh hm hn hbad =>
    obtain ⟨ht, _⟩ := h.lastTurn hh hm hn
    rw [hquiet rfl]
    refine .rejected m' c rfl ht ?_ rfl
    rcases hbad with hbad | hbad
    · exact Or.inl ⟨e, hbad⟩
    · exact Or.inr hbad
  | began bytes m m' input c k hh hm hn hnew hlt =>
    obtain ⟨ht, hp⟩ := h.lastTurn hh hm hn
    have hb : begun M op call = some c := begun_of_command (by rw [hcall]; rfl) hh hm hn
    rw [hb]
    exact .awaiting m' rfl rfl ht.trace hp

theorem shown_step {k : Option ConversationState} {fs : List CommandApdu}
    (h : Shown op.options cs fs k) (hk : op.state = .awaitingResponse → op.conversation = k)
    (hmv : Moves M op call (op.call M call).1 (op.call M call).2) :
    ∃ k', Shown op.options (cs ++ (begun M op call).toList) (fs ++ (shown M op call).toList) k' ∧
      ((op.call M call).2.state = .awaitingResponse → (op.call M call).2.conversation = k') := by
  by_cases hx : (op.call M call).1.isExchange = true
  swap
  · have hx : (op.call M call).1.isExchange = false := by simpa using hx
    obtain ⟨hb, hs⟩ := quiet_of_not_exchange hx
    rw [hb, hs]
    refine ⟨k, by simpa using h, ?_⟩
    generalize op.call M call = result at hmv hx
    obtain ⟨reply, op'⟩ := result
    cases hmv with
    | refused => exact hk
    | went => cases hx
    | began => cases hx
    | cancelled | taken | broke | done | failed | rejected =>
      intro hs'
      cases hs'
  generalize hcall : op.call M call = result at hmv hx
  obtain ⟨reply, op'⟩ := result
  have hshown : shown M op call = op'.conversation.map (·.current) := by
    simp only [shown, hcall]
    rw [if_pos hx]
  rw [hshown]
  dsimp only at hx hmv ⊢
  cases hmv with
  | refused => exact absurd hx (by rw [refusal_not_exchange]; simp)
  | cancelled | taken | broke | done | failed | rejected => cases hx
  | went bytes c c' r hh hs hc hgo hlt =>
    have hkc := hk hs
    rw [hc] at hkc
    subst hkc
    rw [(begun_of_handed_none hh).1]
    cases h with
    | command hs hk =>
      refine ⟨some c', ?_, fun _ => rfl⟩
      simpa using Shown.command hs (hk.goes hgo)
  | began bytes m m' input c k' hh hm hn hnew hlt =>
    have hb : begun M op call = some c := begun_of_command (by rw [hcall]; exact hx) hh hm hn
    rw [hb]
    exact ⟨some k', .command h (.first hnew), fun _ => rfl⟩

/-- A finished operation stays finished, and only a finishing call replies so. -/
theorem finished_step {history : List (Call × Reply T)}
    (h : (∃ call, (call, .step (.ok .done)) ∈ history) →
      op.state = .completed ∨ op.state = .resultTaken)
    (hmv : Moves M op call (op.call M call).1 (op.call M call).2)
    (hdone : ∃ call', (call', .step (.ok .done)) ∈ history ++ [(call, (op.call M call).1)]) :
    (op.call M call).2.state = .completed ∨ (op.call M call).2.state = .resultTaken := by
  obtain ⟨call', hmem⟩ := hdone
  generalize op.call M call = result at hmv hmem
  obtain ⟨reply, op'⟩ := result
  dsimp only at hmv hmem ⊢
  rcases List.mem_append.mp hmem with hmem | hmem
  · have hs := h ⟨call', hmem⟩
    have hopen : ¬ (op.state = .created ∨ op.state = .awaitingResponse) := by
      rcases hs with hs | hs <;> simp [hs]
    have hlive {input : Option ResponseData} (hh : handed op call = some input) : False := by
      rcases handed_state hh with ⟨hs', _⟩ | ⟨hs', _⟩
      · exact hopen (Or.inl hs')
      · exact hopen (Or.inr hs')
    cases hmv with
    | refused => exact hs
    | cancelled _ hs' => exact absurd hs' hopen
    | taken => exact Or.inr rfl
    | went _ _ _ _ _ hs' => exact absurd (Or.inr hs') hopen
    | broke _ _ _ hs' => exact absurd (Or.inr hs') hopen
    | done _ _ _ _ _ hh => exact (hlive hh).elim
    | failed _ _ _ _ _ hh => exact (hlive hh).elim
    | rejected _ _ _ _ _ _ hh => exact (hlive hh).elim
    | began _ _ _ _ _ _ hh => exact (hlive hh).elim
  · have hreply : reply = .step (.ok .done) := by
      simp only [List.mem_singleton, Prod.mk.injEq] at hmem
      exact hmem.2.symm
    cases hmv with
    | done => exact Or.inl rfl
    | refused => cases call <;> cases hreply
    | cancelled | taken | went | broke | failed | rejected | began => cases hreply

theorem Follows.step {s : Recorded σ T} (h : Follows M m₀ options history s) (call : Call) :
    Follows M m₀ options (history ++ [(call, (Recorded.call M s call).1)])
      (Recorded.call M s call).2 := by
  have hmv := call_moves M h.lifecycle call
  obtain ⟨k, hsh, hk⟩ := h.shown
  have hfin := finished_step h.finished hmv
  have hl := call_lifecycle M h.lifecycle call
  rw [← h.lifecycle.options] at hsh
  obtain ⟨k', hsh', hk'⟩ := shown_step hsh hk hmv
  rw [h.lifecycle.options] at hsh'
  exact ⟨hl, standing_step h.standing hmv, ⟨k', hsh', hk'⟩, hfin⟩

end step

/-- Every run of calls, with the trace of its machine and the frames it showed. -/
theorem recorded_follows (M : Machine σ T) {m₀ : σ} {options : OperationOptions}
    {op : Operation σ T} (h : Operation.fromMachine m₀ options = .ok op) (calls : List Call) :
    Follows M m₀ options (run (Operation.call M) op calls).1 (recorded M op calls) := by
  have hrun := run_invariant (Follows M m₀ options) (fromMachine_follows h)
    (fun _ _ call hs => hs.step call) calls
  rw [(recorded_run M { op := op } calls).1] at hrun
  exact hrun

/-- A proposed command comes after a trace that it extends. -/
theorem Follows.proposal {M : Machine σ T} {m₀ : σ} {options : OperationOptions}
    {history : List (Call × Reply T)} {s : Recorded σ T} (h : Follows M m₀ options history s)
    {call : Call} {c : LogicalCommand} (hc : proposal M s.op call = some c) :
    ∃ rs m, Trace M m₀ (s.commands ++ [c]) rs m := by
  simp only [ProtocolTranscript.proposal] at hc
  split at hc
  · next input m hh hm =>
    rcases hn : M.next m input with ⟨e | c' | value, m'⟩
    · rw [hn] at hc; cases hc
    · rw [hn] at hc
      cases hc
      obtain ⟨ht, _⟩ := h.standing.lastTurn hh hm hn
      exact ⟨_, m', ht.trace⟩
    · rw [hn] at hc; cases hc
  · cases hc

/-- A call that exposes the first frame of a command started its conversation. -/
theorem begun_eq_some {M : Machine σ T} {options : OperationOptions}
    {history : List (Call × Reply T)} {op : Operation σ T} (hl : Lifecycle options history op)
    {call : Call} {c : LogicalCommand} (h : begun M op call = some c) :
    ∃ input m m' k total, handed op call = some input ∧ op.machine = some m ∧
      M.next m input = (.ok (.command c), m') ∧ ConversationState.new c op.options = .ok k ∧
      op.exchanges < op.options.limits.maxExchanges ∧
      (op.call M call).2 =
        { op with machine := some m', conversation := some k, responseBytes := total,
                  exchanges := op.exchanges + 1, state := .awaitingResponse } := by
  have hmv := call_moves M hl call
  have hx : (op.call M call).1.isExchange = true := by
    by_contra hnot
    rw [begun, if_neg hnot] at h
    cases h
  rw [begun, if_pos hx] at h
  generalize op.call M call = result at hmv hx
  obtain ⟨reply, op'⟩ := result
  dsimp only at hmv hx ⊢
  cases hmv with
  | refused => exact absurd hx (by rw [refusal_not_exchange]; simp)
  | cancelled | taken | broke | done | failed | rejected => cases hx
  | went bytes k k' r hh =>
    rw [proposal, hh] at h
    cases h
  | began bytes m m' input c' k hh hm hn hnew hlt =>
    simp only [proposal, hh, hm, hn, Option.some.injEq] at h
    subst h
    exact ⟨input, m, m', k, bytes, hh, hm, hn, hnew, hlt, rfl⟩

/-- What a call makes of the turn of its machine. -/
theorem moves_handed {M : Machine σ T} {op : Operation σ T} {call : Call}
    (hmv : Moves M op call (op.call M call).1 (op.call M call).2)
    {input : Option ResponseData} {m m' : σ} {result : Except Error (Action T)}
    (hh : handed op call = some input) (hm : op.machine = some m)
    (hn : M.next m input = (result, m')) :
    (∃ value, result = .ok (.done value)) ∨
      (∃ e, result = .error e ∧ (op.call M call).1 = .step (.error e) ∧
        (op.call M call).2.state = .failed) ∨
      ∃ c, result = .ok (.command c) ∧ ((op.call M call).1.isExchange = true ∨
        (∃ e, ConversationState.new c op.options = .error e) ∨
          op.options.limits.maxExchanges ≤ op.exchanges) := by
  generalize op.call M call = turn at hmv
  obtain ⟨reply, op'⟩ := turn
  dsimp only at hmv ⊢
  have hnone {α : Prop} (h : handed op call = none) : α := by
    rw [h] at hh
    cases hh
  have hsame {input' : Option ResponseData} {m₁ m₂ : σ} {result' : Except Error (Action T)}
      (hh' : handed op call = some input') (hm' : op.machine = some m₁)
      (hn' : M.next m₁ input' = (result', m₂)) : result = result' := by
    rw [hh] at hh'
    cases hh'
    rw [hm] at hm'
    cases hm'
    rw [hn] at hn'
    cases hn'
    rfl
  cases hmv with
  | refused _ hh' => exact hnone hh'
  | cancelled hc _ =>
    rw [hc] at hh
    cases hh
  | taken _ hc =>
    rw [hc] at hh
    cases hh
  | went _ _ _ _ hh' => exact hnone hh'
  | broke _ _ hh' => exact hnone hh'
  | done _ _ _ _ value hh' hm' hn' => exact Or.inl ⟨value, hsame hh' hm' hn'⟩
  | failed _ _ _ _ e hh' hm' hn' => exact Or.inr (Or.inl ⟨e, hsame hh' hm' hn', rfl, rfl⟩)
  | rejected _ _ _ _ c e hh' hm' hn' hbad =>
    refine Or.inr (Or.inr ⟨c, hsame hh' hm' hn', Or.inr ?_⟩)
    exact hbad.imp (fun hnew => ⟨e, hnew⟩) id
  | began _ _ _ _ c _ hh' hm' hn' => exact Or.inr (Or.inr ⟨c, hsame hh' hm' hn', Or.inl rfl⟩)

/-- A machine that fails fails its operation. -/
theorem call_failed {M : Machine σ T} {op : Operation σ T} {call : Call}
    (hmv : Moves M op call (op.call M call).1 (op.call M call).2)
    {input : Option ResponseData} {m m' : σ} {e : Error} (hh : handed op call = some input)
    (hm : op.machine = some m) (hn : M.next m input = (.error e, m')) :
    (op.call M call).1 = .step (.error e) ∧ (op.call M call).2.state = .failed := by
  rcases moves_handed hmv hh hm hn with ⟨_, h⟩ | ⟨e', h, hfailed⟩ | ⟨_, h, _⟩
  · cases h
  · cases h
    exact hfailed
  · cases h

/-- A command that the channel and the budget take is exposed. -/
theorem begun_of_accepted {M : Machine σ T} {options : OperationOptions}
    {history : List (Call × Reply T)} {op : Operation σ T} (hl : Lifecycle options history op)
    {call : Call} {input : Option ResponseData} {m m' : σ} {c : LogicalCommand}
    {k : ConversationState} (hh : handed op call = some input) (hm : op.machine = some m)
    (hn : M.next m input = (.ok (.command c), m'))
    (hnew : ConversationState.new c op.options = .ok k)
    (hroom : op.exchanges < op.options.limits.maxExchanges) : begun M op call = some c := by
  refine begun_of_command ?_ hh hm hn
  rcases moves_handed (call_moves M hl call) hh hm hn with ⟨_, h⟩ | ⟨_, h, _⟩ | ⟨c', h, hturn⟩
  · cases h
  · cases h
  · cases h
    rcases hturn with hx | ⟨e, hrefused⟩ | hfull
    · exact hx
    · cases hnew.symm.trans hrefused
    · omega

/-- A final operation records nothing more. -/
theorem recorded_final (M : Machine σ T) {s : Recorded σ T} (h : s.op.state.Final)
    (calls : List Call) : (run (Recorded.call M) s calls).2.commands = s.commands := by
  induction calls generalizing s with
  | nil => rfl
  | cons call calls ih =>
    have hcall : s.op.call M call = (call.refusal, s.op) := call_refused M (final_refuses h call)
    have hop : (Recorded.call M s call).2.op = s.op := by simp only [Recorded.call, hcall]
    have hbegun : begun M s.op call = none :=
      (quiet_of_not_exchange (by rw [hcall]; exact refusal_not_exchange call)).1
    have hcommands : (Recorded.call M s call).2.commands = s.commands := by
      simp [Recorded.call, hbegun]
    rw [run]
    dsimp only
    rw [ih (by rw [hop]; exact h), hcommands]

/-- A call that fails an operation is the last that matters to its commands. -/
theorem recorded_stops {M : Machine σ T} {op : Operation σ T} {calls : List Call} {call : Call}
    {e : Error} (h : ((recorded M op calls).op.call M call).1 = .step (.error e) ∧
      ((recorded M op calls).op.call M call).2.state = .failed) (more : List Call) :
    (recorded M op (calls ++ call :: more)).commands = (recorded M op calls).commands := by
  have hquiet : begun M (recorded M op calls).op call = none := by
    apply (quiet_of_not_exchange _).1
    rw [h.1]
    rfl
  have hcall : (Recorded.call M (recorded M op calls) call).2.commands =
      (recorded M op calls).commands := by
    simp only [Recorded.call, hquiet, Option.toList_none, List.append_nil]
  have hrun : recorded M op (calls ++ call :: more) =
      (run (Recorded.call M) (Recorded.call M (recorded M op calls) call).2 more).2 := by
    rw [recorded_more]
    rfl
  have hfinal : (Recorded.call M (recorded M op calls) call).2.op.state.Final := Or.inl h.2
  rw [hrun, recorded_final M hfinal more, hcall]

theorem answer_eq_some {op : Operation σ T} {call : Call} {r : ResponseData} :
    answer op call = some r ↔ handed op call = some (some r) := by
  rw [answer, Option.join_eq_some_iff]

/-- What every command of a machine keeps to, from an invariant of the machine. -/
theorem Trace.commands_mem {M : Machine σ T} {I : σ → Prop} {Q : LogicalCommand → Prop}
    {m₀ m : σ} {cs : List LogicalCommand} {rs : List ResponseData}
    (hstep : ∀ s input c s', I s → M.next s input = (.ok (.command c), s') → Q c ∧ I s')
    (h₀ : I m₀) (h : Trace M m₀ cs rs m) : (∀ c ∈ cs, Q c) ∧ I m := by
  induction h with
  | opened h =>
    obtain ⟨hc, hm⟩ := hstep _ _ _ _ h₀ h
    exact ⟨fun c hmem => List.mem_singleton.mp hmem ▸ hc, hm⟩
  | answered _ h ih =>
    obtain ⟨hcs, hm⟩ := ih
    obtain ⟨hc, hm'⟩ := hstep _ _ _ _ hm h
    refine ⟨?_, hm'⟩
    intro c hmem
    rcases List.mem_append.mp hmem with hmem | hmem
    · exact hcs c hmem
    · rw [List.mem_singleton.mp hmem]
      exact hc

/-- The same of every run of an operation over the machine. -/
theorem recorded_commands_mem {M : Machine σ T} {I : σ → Prop} {Q : LogicalCommand → Prop}
    {m₀ : σ} {options : OperationOptions} {op : Operation σ T}
    (hstep : ∀ s input c s', I s → M.next s input = (.ok (.command c), s') → Q c ∧ I s')
    (h₀ : I m₀) (h : Operation.fromMachine m₀ options = .ok op) (calls : List Call) :
    ∀ c ∈ (recorded M op calls).commands, Q c := by
  rcases (recorded_follows M h calls).standing.commands with hnil | ⟨rs, m, _, ht⟩
  · intro c hc
    rw [hnil] at hc
    cases hc
  · exact (ht.commands_mem hstep h₀).1

/-- A value that an operation gives out is its output. -/
theorem returned_output {op : Operation σ T} {value : T}
    (h : op.result = .ok value ∨ op.takeResult.1 = .ok value) :
    op.state = .completed ∧ op.output = some value := by
  by_cases hs : op.state = .completed
  · refine ⟨hs, ?_⟩
    cases hv : op.output with
    | none => simp [Operation.result, Operation.takeResult, hs, hv] at h
    | some v => simpa [Operation.result, Operation.takeResult, hs, hv] using h
  · simp [Operation.result, Operation.takeResult, hs] at h

end ProtocolTranscript
