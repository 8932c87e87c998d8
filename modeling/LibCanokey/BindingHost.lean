import LibCanokey.BindingRuns
import LibCanokey.ProtocolCompletion

/-! # A host in C

The loop of the example program: start, query and copy the command, exchange it, hand the
response back, until the step is no longer an exchange. Against any card it does to the
operation what the execution of the operation does, and ends. -/
namespace BindingHost

open BigEndian ListTraversal ScriptedRuns ProtocolError ProtocolApdu ProtocolApduDecoder
open ProtocolConversation ProtocolOperation ProtocolTranscript ProtocolSession
open ProtocolCompletion BindingMemory BindingErrors BindingOperations BindingRuns

variable {σ T κ : Type}

structure Host (σ T κ : Type) where
  succeeded : Bool
  error : Option CnkError
  op : CnkOperation σ T
  card : Card κ

/-- `while (step == CNK_STEP_EXCHANGE)`; the bound on the turns is never reached. -/
def exchanging (M : Machine σ T) (A : Applet κ) :
    ℕ → UInt32 → Option CnkError → CnkOperation σ T → Card κ → Host σ T κ
  | 0, _, error, op, card => ⟨false, error, op, card⟩
  | n + 1, step, error, op, card =>
    if step ≠ stepCode .exchange then ⟨step = stepCode .done, error, op, card⟩
    else match fetched (cnkOperationCommand op) with
      | none => ⟨false, error, op, card⟩
      | some command =>
        let d := cnkOperationAdvance M op (.all (card.exchange A command).1) (some step) error none
        if d.code ≠ .ok then ⟨false, d.error, d.op, (card.exchange A command).2⟩
        else exchanging M A n (d.step.getD 0) d.error d.op (card.exchange A command).2

/-- `run` of the example. -/
def runHost (M : Machine σ T) (A : Applet κ) (error : Option CnkError) (op : CnkOperation σ T)
    (card : Card κ) : Host σ T κ :=
  let d := cnkOperationStart M op (some 0) error none
  if d.code ≠ .ok then ⟨false, d.error, d.op, card⟩
  else exchanging M A (op.inner.options.limits.maxExchanges + 1) (d.step.getD 0) d.error d.op card

section replies

variable {frame : Bytes} {d : DecodedCommand}

theorem leOf_le {most : ℕ} {field : Bytes} (hmost : most ≤ 65536) (hfield : field.length ≤ 2) :
    pageLimit (leOf most field) ≤ 65536 := by
  have hword := ofBeBytes_lt field
  have hpow : 256 ^ field.length ≤ 256 ^ 2 := Nat.pow_le_pow_right (by decide) hfield
  simp only [leOf, pageLimit]
  split_ifs
  · exact hmost
  · omega

theorem caseOf_length {body : Bytes} {c : ApduCase} (h : caseOf body = some c) :
    (c = .case2S → body.length = 1) ∧ (c = .case2E → body.length = 3) := by
  rcases body with _ | ⟨lc, _ | ⟨hi, rest⟩⟩
  · cases h
    simp
  · cases h
    simp
  · simp only [caseOf] at h
    by_cases hlc : lc ≠ 0
    · rw [if_pos hlc] at h
      split_ifs at h <;> cases h <;> simp
    · rw [if_neg hlc] at h
      rcases rest with _ | ⟨lo, _ | ⟨x, rest⟩⟩
      · cases h
      · cases h
        simp
      · simp only [extendedCaseOf] at h
        split_ifs at h <;> cases h <;> simp

/-- No command asks for more than 65536 bytes. -/
theorem decode_le (h : decode frame = some d) : pageLimit d.le ≤ 65536 := by
  have hfields (body : Bytes) (c : ApduCase) (hc : caseOf body = some c) :
      pageLimit (fieldsOf body c).2 ≤ 65536 := by
    obtain ⟨hshort, hextended⟩ := caseOf_length hc
    have habsent : pageLimit .absent ≤ 65536 := by decide
    cases c with
    | case1 | case3S | case3E => exact habsent
    | case2S => exact leOf_le (by decide) (by rw [hshort rfl]; decide)
    | case4S => exact leOf_le (by decide) (by rw [List.length_drop]; omega)
    | case2E => exact leOf_le (by decide) (by rw [List.length_drop, hextended rfl])
    | case4E => exact leOf_le (by decide) (by rw [List.length_drop]; omega)
  unfold decode at h
  split at h
  · rename_i body
    obtain ⟨c, hc, rfl⟩ := Option.map_eq_some_iff.mp h
    exact hfields body c hc
  · cases h

theorem length_page (card : Card κ) (le : ℕ) : (card.page le).1.length ≤ le + 2 := by
  rw [Card.page]
  split_ifs with hfits
  · simpa [responseFrame] using hfits
  · simp [responseFrame]

theorem length_exchange (A : Applet κ) (card : Card κ) (frame : Bytes) :
    (card.exchange A frame).1.length ≤ isizeMax := by
  have hpage (card : Card κ) {le : ℕ} (hle : le ≤ 65536) :
      (card.page le).1.length ≤ isizeMax := by
    apply Nat.le_trans (length_page card le)
    apply Nat.le_trans (Nat.add_le_add_right hle 2)
    decide
  rw [Card.exchange]
  cases hd : decode frame with
  | none =>
    have hshort : (responseFrame [] 0x6700).length = 2 := rfl
    dsimp only
    rw [hshort]
    decide
  | some d =>
    dsimp only
    split_ifs
    · have hshort : (responseFrame [] 0x9000).length = 2 := rfl
      rw [hshort]
      decide
    · exact hpage _ (decode_le hd)
    · exact hpage _ (decode_le hd)

end replies

/-- What a driving call that is in its turn leaves behind. -/
inductive Stepped : Except Error Step → Operation σ T → Prop where
  | exchange {op : Operation σ T} (h : op.state = .awaitingResponse) : Stepped (.ok .exchange) op
  | done {op : Operation σ T} (h : op.state = .completed) : Stepped (.ok .done) op
  | failed {op : Operation σ T} (e : Error) (h : op.state = .failed) (he : op.error = some e) :
      Stepped (.error e) op

section turns

variable {M : Machine σ T} {A : Applet κ} {v : Inner T} {op : Operation σ T}
  {options : OperationOptions} {history : List (Call × Reply T)} {error : Option CnkError}

theorem call_stepped (hl : Lifecycle options history op) {call : Call}
    (hcall : call.Allowed op.state) {result : Except Error Step}
    (hresult : (op.call M call).1 = .step result) : Stepped result (op.call M call).2 := by
  have hmv := call_moves M hl call
  generalize op.call M call = made at hmv hresult
  obtain ⟨reply, op'⟩ := made
  dsimp only at hmv hresult ⊢
  cases hmv with
  | refused hnot => exact absurd hcall hnot
  | cancelled | taken => cases hresult
  | went | began =>
    cases hresult
    exact .exchange rfl
  | done =>
    cases hresult
    exact .done rfl
  | broke | failed | rejected =>
    cases hresult
    exact .failed _ rfl rfl

/-- What the loop has to do: exchange while the operation waits, or report that it is done. -/
inductive Turn (op : Operation σ T) : UInt32 → Prop where
  | exchange (h : op.state = .awaitingResponse) : Turn op (stepCode .exchange)
  | done (h : op.state = .completed) : Turn op (stepCode .done)

/-- A failure and what the caller's record says of it. -/
structure Told (given out : Option CnkError) (op : Operation σ T) : Prop where
  given : out.isSome = given.isSome
  failed : op.state = .failed
  error : ∃ e, op.error = some e ∧ ∀ p, out = some p → p.read = some e

theorem failureCode_ne_ok (kind : ErrorKind) : failureCode kind ≠ .ok := by
  cases kind <;> decide

/-- A driving call of the host in its turn. -/
theorem drive_turn (hl : Lifecycle options history op) (herror : writable error = true)
    {step : UInt32} {response : Option Bytes} {call : Call}
    (hcall : call = response.elim .start .advance) (hallowed : call.Allowed op.state)
    {d : Drove σ T} (hd : d = drive M ⟨v, op, false⟩ (some step) error response none) :
    d.op = ⟨v, (op.call M call).2, false⟩ ∧
      (d.code = .ok ∧ (∃ s, d.step = some s ∧ Turn (op.call M call).2 s) ∧
          writable d.error = true ∧ d.error.isSome = error.isSome ∨
        d.code ≠ .ok ∧ Told error d.error (op.call M call).2) := by
  obtain ⟨hreflects, hop⟩ := @drive_reflects _ _ M ⟨v, op, false⟩ call rfl step error herror
    response hcall
  rw [← hd] at hreflects hop
  refine ⟨hop, ?_⟩
  have hstep : ∃ result, (op.call M call).1 = .step result := by
    rw [hcall]
    cases response <;> exact ⟨_, rfl⟩
  obtain ⟨result, hresult⟩ := hstep
  have hstepped := call_stepped (M := M) hl hallowed hresult
  have hshape : (replied d).1 = ⟨d.code, d.step, d.error, none⟩ := rfl
  rw [hshape] at hreflects
  change Reflects error _ (op.call M call).1 at hreflects
  rw [hresult] at hreflects
  generalize d.code = code, d.step = told, d.error = out at hreflects ⊢
  cases hreflects with
  | went s out hout =>
    left
    obtain ⟨cleared, hclear, hsome, hfresh⟩ := writable_eq_true.mp herror
    cases hclear.symm.trans hout
    refine ⟨rfl, ⟨_, rfl, ?_⟩, ?_, hsome⟩
    · cases hstepped with
      | exchange h => exact .exchange h
      | done h => exact .done h
    · cases error with
      | none =>
        cases hout
        rfl
      | some p =>
        obtain ⟨hsize, rfl⟩ := clearError_eq_ok.mp hout
        simpa [writable] using hsize
  | failed e out hout hread =>
    right
    cases hstepped with
    | failed _ h he => exact ⟨failureCode_ne_ok _, hout, h, e, he, hread⟩

/-- The host has ended with an operation and a card. -/
structure Ended (v : Inner T) (given : Option CnkError) (host : Host σ T κ) (inner : Operation σ T)
    (card : Card κ) : Prop where
  handle : host.op = ⟨v, inner, false⟩
  card : host.card = card
  outcome : host.succeeded = true ∧ inner.state = .completed ∨
    host.succeeded = false ∧ Told given host.error inner

theorem Ended.given {given given' : Option CnkError} {host : Host σ T κ} {card : Card κ}
    (h : Ended v given host op card) (hsome : given.isSome = given'.isSome) :
    Ended v given' host op card := by
  refine ⟨h.handle, h.card, ?_⟩
  rcases h.outcome with hdone | ⟨hfailed, htold⟩
  · exact Or.inl hdone
  · exact Or.inr ⟨hfailed, htold.given.trans hsome, htold.failed, htold.error⟩

theorem session_stops (M : Machine σ T) (A : Applet κ) (n : ℕ) (card : Card κ)
    (h : op.state ≠ .awaitingResponse) : session M A n op card = (op, card) := by
  have hrefused : op.command = .error stateError := by rw [Operation.command, if_pos h]
  cases n with
  | zero => rfl
  | succ n => rw [session, hrefused]

theorem pending_command (hl : Lifecycle options history op) (h : op.state = .awaitingResponse) :
    ∃ c, op.command = .ok c := by
  obtain ⟨k, hk⟩ := Option.isSome_iff_exists.mp (hl.conversation.mpr h)
  exact ⟨k.current, by rw [Operation.command, if_neg (not_not.mpr h), hk]⟩

theorem exchanging_done (n : ℕ) (card : Card κ) (h : op.state = .completed) :
    Ended v error (exchanging M A (n + 1) (stepCode .done) error ⟨v, op, false⟩ card)
      (session M A n op card).1 (session M A n op card).2 := by
  have hover : op.state ≠ .awaitingResponse := by
    rw [h]
    decide
  have hstep : stepCode .done ≠ stepCode .exchange := by decide
  rw [session_stops M A n card hover, exchanging, if_pos hstep]
  exact ⟨rfl, rfl, Or.inl ⟨rfl, h⟩⟩

/-- The loop is the session with the card. The induction is on the exchanges that are left. -/
theorem exchanging_session {n : ℕ} (hl : Lifecycle options history op) {step : UInt32}
    (hturn : Turn op step) (herror : writable error = true) (card : Card κ)
    (hend : (session M A n op card).1.state ≠ .awaitingResponse) :
    Ended v error (exchanging M A (n + 1) step error ⟨v, op, false⟩ card) (session M A n op card).1
      (session M A n op card).2 := by
  induction n generalizing op history step error card with
  | zero =>
    cases hturn with
    | exchange h => exact absurd h hend
    | done h => exact exchanging_done 0 card h
  | succ n ih =>
    cases hturn with
    | done h => exact exchanging_done (n + 1) card h
    | exchange h =>
      obtain ⟨c, hc⟩ := pending_command hl h
      have hfetched : fetched (cnkOperationCommand ⟨v, op, false⟩) = some c.bytes := by
        rw [command_view rfl, hc]
        rfl
      rw [session, hc] at hend ⊢
      dsimp only at hend ⊢
      rw [exchanging, if_neg (not_not.mpr rfl), hfetched]
      dsimp only
      rw [cnkOperationAdvance, bytes_all (length_exchange A card c.bytes)]
      dsimp only
      obtain ⟨hop, hcase⟩ := @drive_turn _ _ M v op _ _ error hl herror (stepCode .exchange)
        (some (card.exchange A c.bytes).1) (.advance (card.exchange A c.bytes).1) rfl h _ rfl
      have hnext : (op.call M (.advance (card.exchange A c.bytes).1)).2 =
          (op.advance M (card.exchange A c.bytes).1).2 := rfl
      have hl' := call_lifecycle M hl (.advance (card.exchange A c.bytes).1)
      rw [hnext] at hop hcase hl'
      rw [hop]
      rcases hcase with ⟨hcode, ⟨s, hs, hturn⟩, hwritable, hsome⟩ | ⟨hcode, htold⟩
      · rw [if_neg (not_not.mpr hcode), hs]
        exact (ih hl' hturn hwritable _ hend).given hsome
      · have hover : (op.advance M (card.exchange A c.bytes).1).2.state ≠ .awaitingResponse := by
          rw [htold.failed]
          decide
        rw [if_pos hcode, session_stops M A n _ hover]
        exact ⟨rfl, rfl, Or.inr ⟨rfl, htold⟩⟩

theorem session_replies (hl : Lifecycle options history op) (n : ℕ) (card : Card κ) :
    ∃ replies : List Bytes,
      (session M A n op card).1 = (run (Operation.call M) op (replies.map .advance)).2 ∧
        ((session M A n op card).1.state = .awaitingResponse → replies.length = n) := by
  induction n generalizing op history card with
  | zero => exact ⟨[], rfl, fun _ => rfl⟩
  | succ n ih =>
    by_cases h : op.state = .awaitingResponse
    · obtain ⟨c, hc⟩ := pending_command hl h
      obtain ⟨replies, hsame, hlen⟩ := ih
        (call_lifecycle M hl (.advance (card.exchange A c.bytes).1)) (card.exchange A c.bytes).2
      refine ⟨(card.exchange A c.bytes).1 :: replies, ?_, ?_⟩
      · rw [session, hc]
        exact hsame
      · rw [session, hc]
        exact fun hwaits => congrArg (· + 1) (hlen hwaits)
    · rw [session_stops M A (n + 1) card h]
      exact ⟨[], rfl, fun hwaits => absurd hwaits h⟩

/-- As many exchanges as the budget allows leave no operation waiting. -/
theorem session_over {m₀ : σ} (hop : Operation.fromMachine m₀ options = .ok op) (card : Card κ) :
    (session M A options.limits.maxExchanges (op.start M).2 card).1.state ≠ .awaitingResponse := by
  intro hwaits
  have hl := call_lifecycle M (fromMachine_lifecycle hop) .start
  obtain ⟨replies, hsame, hlen⟩ :=
    session_replies (A := A) hl options.limits.maxExchanges card
  have hover := @not_waiting _ _ M options _ _ hop replies (Nat.le_of_eq (hlen hwaits).symm)
  rw [recorded, (recorded_run M { op := op } (.start :: replies.map .advance)).2] at hover
  exact hover (hsame ▸ hwaits)

/-- What the host has when its loop has ended. -/
structure Hosted (M : Machine σ T) (A : Applet κ) (v : Inner T) (given : Option CnkError)
    (op : Operation σ T) (a : κ) (host : Host σ T κ) : Prop where
  handle : host.op = ⟨v, (execute M A op a).1, false⟩
  card : host.card.applet = (execute M A op a).2
  result : ∀ value, (execute M A op a).1.output = some value → host.succeeded = true ∧
    fetched (cnkOperationResultCopyBytes host.op) = v.bytes.bind fun get => get value
  succeeded : host.succeeded = true → ∃ value, (execute M A op a).1.output = some value
  failed : host.succeeded = false → Told given host.error (execute M A op a).1

/-- The loop of the example program does what an execution does, ends, and learns its outcome:
the bytes of the result through the getter, or the error from its own record. -/
theorem host_execute {m₀ : σ} (hop : Operation.fromMachine m₀ options = .ok op)
    (herror : writable error = true) (a : κ) :
    Hosted M A v error op a (runHost M A error ⟨v, op, false⟩ { applet := a }) := by
  have hl := fromMachine_lifecycle hop
  have hcreated := (fromMachine_created hop).1
  have hended : Ended v error (runHost M A error ⟨v, op, false⟩ { applet := a })
      (execute M A op a).1
      (session M A op.options.limits.maxExchanges (op.start M).2 { applet := a }).2 := by
    have hover := session_over (M := M) (A := A) hop { applet := a }
    rw [← hl.options] at hover
    obtain ⟨hhandle, hcase⟩ := @drive_turn _ _ M v op _ _ error hl herror 0 none .start rfl
      hcreated _ rfl
    have hl' := call_lifecycle M hl .start
    have hnext : (op.call M .start).2 = (op.start M).2 := rfl
    rw [hnext] at hhandle hcase hl'
    rw [runHost, cnkOperationStart, hhandle, execute]
    rcases hcase with ⟨hcode, ⟨s, hs, hturn⟩, hwritable, hsome⟩ | ⟨hcode, htold⟩
    · rw [if_neg (not_not.mpr hcode), hs]
      exact (exchanging_session hl' hturn hwritable _ hover).given hsome
    · have hstops : (op.start M).2.state ≠ .awaitingResponse := by
        rw [htold.failed]
        decide
      rw [if_pos hcode, session_stops M A _ _ hstops]
      exact ⟨rfl, rfl, Or.inr ⟨rfl, htold⟩⟩
  obtain ⟨calls, hcalls⟩ := execute_recorded M A op a
  have hlife := (recorded_follows M hop calls).lifecycle
  rw [← hcalls] at hlife
  constructor
  · exact hended.handle
  · rw [hended.card]
    rfl
  · intro value hout
    have hdone := hlife.output.mp (Option.isSome_iff_exists.mpr ⟨value, hout⟩)
    have hresult : (execute M A op a).1.result = .ok value := by
      rw [Operation.result, if_neg (not_not.mpr hdone), hout]
    refine ⟨?_, ?_⟩
    · rcases hended.outcome with ⟨hsucceeded, _⟩ | ⟨_, htold⟩
      · exact hsucceeded
      · cases hdone.symm.trans htold.failed
    · rw [hended.handle, bytes_view rfl, hresult]
      rfl
  · intro hsucceeded
    rcases hended.outcome with ⟨_, hdone⟩ | ⟨hfailed, _⟩
    · exact Option.isSome_iff_exists.mp (hlife.output.mpr hdone)
    · rw [hsucceeded] at hfailed
      cases hfailed
  · intro hfailed
    rcases hended.outcome with ⟨hsucceeded, _⟩ | ⟨_, htold⟩
    · rw [hfailed] at hsucceeded
      cases hsucceeded
    · exact htold

end turns

/-- A selected PIV application answers with its version. -/
def versionApplet : Applet Unit := fun a _ => (⟨[6, 0, 2], ⟨0x9000⟩⟩, a)

theorem host_execute_version : ∃ op,
    PivDiscovery.readVersionSelected { limits := { maxExchanges := 2 } } = .ok op ∧
    Hosted (PivCommand.sequence Bytes) versionApplet .object (some { structSize := 24 }) op ()
      (runHost (PivCommand.sequence Bytes) versionApplet (some { structSize := 24 })
        ⟨.object, op, false⟩ { applet := () }) ∧
    fetched (cnkOperationResultCopyBytes (runHost (PivCommand.sequence Bytes) versionApplet
      (some { structSize := 24 }) ⟨.object, op, false⟩ { applet := () }).op) = some [6, 0, 2] := by
  obtain ⟨op, hop⟩ : ∃ op,
      PivDiscovery.readVersionSelected { limits := { maxExchanges := 2 } } = .ok op := ⟨_, rfl⟩
  have hmade : Operation.fromMachine
      ⟨[PivCommand.request PivCommand.version .command none], none,
        some fun response => do
          let _ ← PivRandom.versionReply response
          .ok response.data⟩ { limits := { maxExchanges := 2 } } = .ok op := hop
  refine ⟨op, hop, host_execute hmade (by decide) (), ?_⟩
  cases hop
  rfl

end BindingHost
