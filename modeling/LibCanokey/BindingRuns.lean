import LibCanokey.BindingOperations

/-! # Handles over whole runs

The calls of a caller in any order, well formed or not, returning or unwinding. As long as no
call unwinds, a handle shows exactly the operation that the same calls leave behind. -/
namespace BindingRuns

open BigEndian ListTraversal ScriptedRuns ProtocolError ProtocolConversation ProtocolOperation
open ProtocolApdu ProtocolTranscript BindingMemory BindingErrors BindingOperations

/-- The calls that can change a handle, with what is behind the caller's pointers. -/
inductive CCall (σ T : Type) where
  | start (step : Option UInt32) (error : Option CnkError) (unwound : Option (Operation σ T))
  | advance (response : Span) (step : Option UInt32) (error : Option CnkError)
      (unwound : Option (Operation σ T))
  | cancel
  | takeProfile (out : Bool)

structure CReply (T : Type) where
  code : Code
  step : Option UInt32 := none
  error : Option CnkError := none
  profile : Option T := none

variable {σ T : Type}

def replied (d : Drove σ T) : CReply T × CnkOperation σ T :=
  (⟨d.code, d.step, d.error, none⟩, d.op)

def cCall (M : Machine σ T) (op : CnkOperation σ T) : CCall σ T → CReply T × CnkOperation σ T
  | .start step error unwound => replied (cnkOperationStart M op step error unwound)
  | .advance response step error unwound =>
    replied (cnkOperationAdvance M op response step error unwound)
  | .cancel => ({ code := .ok }, cnkOperationCancel op)
  | .takeProfile out =>
    ({ code := (cnkOperationTakeProfile op out).1
       profile := (cnkOperationTakeProfile op out).2.1 },
      (cnkOperationTakeProfile op out).2.2)

/-- An error record that can be written, or none at all. -/
def writable (error : Option CnkError) : Bool := error.all (errorSize ≤ ·.structSize)

/-- The call of the operation that a well-formed call of a caller makes. -/
def CCall.stands (v : Inner T) : CCall σ T → Option Call
  | .start step error _ => if step.isSome ∧ writable error then some .start else none
  | .advance response step error _ =>
    if step.isSome ∧ writable error then (bytes response).toOption.map .advance else none
  | .cancel => some .cancel
  | .takeProfile out => if out ∧ v.isProbe then some .takeResult else none

def CCall.unwound : CCall σ T → Option (Operation σ T)
  | .start _ _ unwound | .advance _ _ _ unwound => unwound
  | _ => none

def CCall.error : CCall σ T → Option CnkError
  | .start _ error _ | .advance _ _ error _ => error
  | _ => none

/-- What a reply of the interface says of a reply of the operation. -/
inductive Reflects (given : Option CnkError) : CReply T → Reply T → Prop where
  | went (s : Step) (out : Option CnkError) (hout : clearError given = .ok out) :
      Reflects given ⟨.ok, some (stepCode s), out, none⟩ (.step (.ok s))
  | failed (e : Error) (out : Option CnkError) (hout : out.isSome = given.isSome)
      (hread : ∀ p, out = some p → p.read = some e) :
      Reflects given ⟨failureCode e.kind, some 0, out, none⟩ (.step (.error e))
  | cancelled : Reflects given ⟨.ok, none, none, none⟩ .cancelled
  | taken (value : T) : Reflects given ⟨.ok, none, none, some value⟩ (.taken (.ok value))
  | kept (e : Error) : Reflects given ⟨.state, none, none, none⟩ (.taken (.error e))

/-- Query the length, then copy into a buffer of that length. -/
def fetched (get : Option Bytes → Option ℕ → Copied) : Option Bytes :=
  match get none (some 0) with
  | ⟨.ok, _, some n⟩ =>
    match get (some (List.replicate n 0)) (some n) with
    | ⟨.ok, some data, _⟩ => some data
    | _ => none
  | _ => none

/-- Everything a caller can read of a handle. -/
structure Seen where
  state : Option UInt32 := none
  command : Option Bytes := none
  error : Option Error := none
  kind : Option UInt32 := none
  bytes : Option Bytes := none
  deriving DecidableEq, Repr

def written {α : Type} (result : Code × Option α) : Option α :=
  if result.1 = .ok then result.2 else none

def seen (op : CnkOperation σ T) : Seen :=
  { state := written (cnkOperationState op (some 0))
    command := fetched (cnkOperationCommand op)
    error := (written (cnkOperationError op (some { structSize := errorSize }))).bind CnkError.read
    kind := written (cnkOperationResultKind op (some 0))
    bytes := fetched (cnkOperationResultCopyBytes op) }

/-- What there is to see of an operation. -/
def view (v : Inner T) (op : Operation σ T) : Seen :=
  { state := some (stateCode op.state)
    command := op.command.toOption.map CommandApdu.bytes
    error := op.error
    kind := if op.state = .completed then some v.resultKind else none
    bytes := v.bytes.bind fun get => op.result.toOption.bind get }

section views

theorem fetched_copy (data : Bytes) : fetched (copy data) = some data := by
  have hsecond := copy_queried data 0 0
  rw [copy_query] at hsecond
  simp only [fetched, copy_query, hsecond]

theorem fetched_refused {get : Option Bytes → Option ℕ → Copied} (code : Code)
    (hcode : code ≠ .ok) (h : ∀ buffer len, get buffer len = ⟨code, buffer, len⟩) :
    fetched get = none := by
  simp only [fetched, h]
  split
  · rename_i heq
    cases heq
    exact absurd rfl hcode
  · rfl

theorem error_view {op : CnkOperation σ T} (h : op.poisoned = false) :
    (written (cnkOperationError op (some { structSize := errorSize }))).bind CnkError.read =
      op.inner.error := by
  have hclear : clearError (some { structSize := errorSize }) =
      .ok (some { structSize := errorSize }) := clearError_eq_ok.mpr ⟨UInt32.le_refl _, rfl⟩
  cases he : op.inner.error with
  | none =>
    simp only [cnkOperationError, hclear, h, he, Bool.false_eq_true, if_false, written]
    rfl
  | some e =>
    simp only [cnkOperationError, hclear, h, he, Bool.false_eq_true, if_false, written, if_true]
    exact read_describe e errorSize

theorem bytes_view {op : CnkOperation σ T} (h : op.poisoned = false) :
    fetched (cnkOperationResultCopyBytes op) =
      op.variant.bytes.bind fun get => op.inner.result.toOption.bind get := by
  cases hv : op.variant.bytes with
  | none =>
    apply fetched_refused .type (by decide)
    intro buffer len
    simp only [cnkOperationResultCopyBytes, h, hv, Bool.false_eq_true, if_false]
  | some get =>
    cases hr : op.inner.result with
    | error e =>
      apply fetched_refused .state (by decide)
      intro buffer len
      simp only [cnkOperationResultCopyBytes, h, hv, hr, Bool.false_eq_true, if_false]
    | ok value =>
      change _ = get value
      cases hb : get value with
      | none =>
        apply fetched_refused .type (by decide)
        intro buffer len
        simp only [cnkOperationResultCopyBytes, h, hv, hr, hb, Bool.false_eq_true, if_false]
      | some b =>
        have hget : cnkOperationResultCopyBytes op = copy b := by
          funext buffer len
          simp only [cnkOperationResultCopyBytes, h, hv, hr, hb, Bool.false_eq_true, if_false]
        rw [hget, fetched_copy]

theorem command_view {op : CnkOperation σ T} (h : op.poisoned = false) :
    fetched (cnkOperationCommand op) = op.inner.command.toOption.map CommandApdu.bytes := by
  cases hc : op.inner.command with
  | error e =>
    apply fetched_refused .state (by decide)
    intro buffer len
    simp only [cnkOperationCommand, h, hc, Bool.false_eq_true, if_false]
  | ok cmd =>
    have hget : cnkOperationCommand op = copy cmd.bytes := by
      funext buffer len
      simp only [cnkOperationCommand, h, hc, Bool.false_eq_true, if_false]
    rw [hget, fetched_copy]
    rfl

/-- The functions that read a handle show its operation. -/
theorem seen_view {op : CnkOperation σ T} (h : op.poisoned = false) :
    seen op = view op.variant op.inner := by
  have hstate : written (cnkOperationState op (some 0)) = some (stateCode op.inner.state) := by
    rw [cnkOperationState, h]
    rfl
  have hkind : written (cnkOperationResultKind op (some 0)) =
      if op.inner.state = .completed then some op.variant.resultKind else none := by
    rw [cnkOperationResultKind, h]
    by_cases hdone : op.inner.state = .completed
    · simp [hdone, written]
    · simp [hdone, written]
  rw [seen, view, hstate, command_view h, error_view h, hkind, bytes_view h]

/-- Of a poisoned handle nothing is read. -/
theorem seen_poisoned {op : CnkOperation σ T} (h : op.poisoned = true) : seen op = {} := by
  have hclear : clearError (some { structSize := errorSize }) =
      .ok (some { structSize := errorSize }) := clearError_eq_ok.mpr ⟨UInt32.le_refl _, rfl⟩
  have hcommand : fetched (cnkOperationCommand op) = none :=
    fetched_refused .state (by decide) fun buffer len => by
      rw [cnkOperationCommand, if_pos h]
  have hbytes : fetched (cnkOperationResultCopyBytes op) = none :=
    fetched_refused .state (by decide) fun buffer len => by
      rw [cnkOperationResultCopyBytes, if_pos h]
  have hstate : written (cnkOperationState op (some 0)) = none := by
    rw [cnkOperationState, h]
    rfl
  have herror : written (cnkOperationError op (some { structSize := errorSize })) = none := by
    simp only [cnkOperationError, hclear, h, if_true, written]
    rfl
  have hkind : written (cnkOperationResultKind op (some 0)) = none := by
    simp [cnkOperationResultKind, h, written]
  rw [seen, hstate, hcommand, herror, hkind, hbytes]
  rfl

end views

section calls

variable {M : Machine σ T} {op : CnkOperation σ T} {c : CCall σ T} {call : Call}

theorem writable_eq_true {error : Option CnkError} :
    writable error = true ↔ ∃ out, clearError error = .ok out ∧ out.isSome = error.isSome ∧
      ∀ p, out = some p → ∃ size, p = { structSize := size } := by
  cases error with
  | none => simp [writable, clearError]
  | some p =>
    constructor
    · intro h
      have hsize : errorSize ≤ p.structSize := by simpa [writable] using h
      exact ⟨_, clearError_eq_ok.mpr ⟨hsize, rfl⟩, rfl, fun q hq => ⟨_, (Option.some.inj hq).symm⟩⟩
    · rintro ⟨out, hout, _⟩
      simpa [writable] using (clearError_eq_ok.mp hout).1

/-- A driving call that is well formed makes the call of the operation that it stands for. -/
theorem drive_reflects (h : op.poisoned = false) {step : UInt32} {error : Option CnkError}
    (herror : writable error = true) {response : Option Bytes}
    (hcall : call = response.elim .start .advance) :
    Reflects error (replied (drive M op (some step) error response none)).1
        (op.inner.call M call).1 ∧
      (replied (drive M op (some step) error response none)).2 =
        { op with inner := (op.inner.call M call).2 } := by
  obtain ⟨out, hclear, hsome, hfresh⟩ := writable_eq_true.mp herror
  have hmake : op.inner.call M call =
      (.step (response.elim (op.inner.start M) (op.inner.advance M)).1,
        (response.elim (op.inner.start M) (op.inner.advance M)).2) := by
    rw [hcall]
    cases response <;> rfl
  rw [hmake]
  simp only [replied, drive, hclear, h, Bool.false_eq_true, if_false]
  rcases response.elim (op.inner.start M) (op.inner.advance M) with ⟨e | s, inner⟩
  · refine ⟨.failed e _ ?_ ?_, rfl⟩
    · rw [← hsome]
      cases out <;> rfl
    · intro p hp
      cases out with
      | none => cases hp
      | some fresh =>
        obtain ⟨size, rfl⟩ := hfresh fresh rfl
        cases hp
        exact read_describe e size
  · exact ⟨.went s out hclear, rfl⟩

/-- A well-formed call that returns is the call of the operation that it stands for. -/
theorem call_reflects (h : op.poisoned = false) (hquiet : c.unwound = none)
    (hc : c.stands op.variant = some call) :
    Reflects c.error (cCall M op c).1 (op.inner.call M call).1 ∧
      (cCall M op c).2 = { op with inner := (op.inner.call M call).2 } := by
  cases c with
  | start step error unwound =>
    simp only [CCall.stands] at hc
    split_ifs at hc with hgood
    cases hc
    obtain ⟨hstep, herror⟩ := hgood
    obtain ⟨before, rfl⟩ := Option.isSome_iff_exists.mp hstep
    cases hquiet
    exact drive_reflects h herror rfl
  | advance response step error unwound =>
    simp only [CCall.stands] at hc
    split_ifs at hc with hgood
    obtain ⟨hstep, herror⟩ := hgood
    obtain ⟨before, rfl⟩ := Option.isSome_iff_exists.mp hstep
    cases hquiet
    cases hb : bytes response with
    | error code =>
      rw [hb] at hc
      cases hc
    | ok r =>
      rw [hb] at hc
      cases hc
      have hgoes := @drive_reflects _ _ M op _ h before error herror (some r) rfl
      simp only [cCall, cnkOperationAdvance, hb]
      exact hgoes
  | cancel =>
    cases hc
    exact ⟨.cancelled, rfl⟩
  | takeProfile out =>
    simp only [CCall.stands] at hc
    split_ifs at hc with hgood
    cases hc
    obtain ⟨hout, hprobe⟩ := hgood
    have hmake : op.inner.call M .takeResult =
        (.taken op.inner.takeResult.1, op.inner.takeResult.2) := rfl
    rw [hmake]
    simp only [cCall, cnkOperationTakeProfile, hout, h, hprobe, not_true, Bool.false_eq_true,
      if_false, if_true]
    rcases op.inner.takeResult with ⟨e | value, inner⟩
    · exact ⟨.kept e, rfl⟩
    · exact ⟨.taken value, rfl⟩

/-- An ill-formed call leaves the handle alone. -/
theorem call_refused (hc : c.stands op.variant = none) :
    (cCall M op c).2 = op ∧ (cCall M op c).1.code ≠ .ok := by
  have hdrive {step : Option UInt32} {error : Option CnkError} {response : Option Bytes}
      {unwound : Option (Operation σ T)} (hbad : ¬ (step.isSome = true ∧ writable error = true)) :
      (drive M op step error response unwound).op = op ∧
        (drive M op step error response unwound).code ≠ .ok := by
    cases step with
    | none => exact ⟨rfl, by simp [drive]⟩
    | some before =>
      cases hclear : clearError error with
      | error code =>
        simp only [drive, hclear]
        rw [clearError_error hclear]
        exact ⟨trivial, nofun⟩
      | ok out =>
        refine absurd ⟨rfl, ?_⟩ hbad
        cases error with
        | none => rfl
        | some p => simpa [writable] using (clearError_eq_ok.mp hclear).1
  cases c with
  | start step error unwound =>
    simp only [CCall.stands] at hc
    split_ifs at hc with hgood
    exact hdrive hgood
  | advance response step error unwound =>
    simp only [CCall.stands] at hc
    cases hb : bytes response with
    | error code =>
      have hcode := bytes_error hb
      subst hcode
      simp only [cCall, cnkOperationAdvance, hb, replied]
      cases clearError error <;> exact ⟨rfl, nofun⟩
    | ok r =>
      rw [hb] at hc
      split_ifs at hc with hgood
      · cases hc
      · simp only [cCall, cnkOperationAdvance, hb]
        exact hdrive hgood
  | cancel => cases hc
  | takeProfile out =>
    simp only [CCall.stands] at hc
    split_ifs at hc with hgood
    simp only [cCall, cnkOperationTakeProfile]
    by_cases hout : out = true
    · have hprobe : ¬ op.variant.isProbe = true := fun hprobe => hgood ⟨hout, hprobe⟩
      rw [if_neg (not_not.mpr hout), if_neg hprobe]
      split_ifs <;> exact ⟨rfl, nofun⟩
    · rw [if_pos hout]
      exact ⟨rfl, nofun⟩

/-- A call that unwinds poisons the handle. -/
theorem call_poisons (h : op.poisoned = false) {left : Operation σ T}
    (hunwound : c.unwound = some left) (hc : (c.stands op.variant).isSome = true) :
    (cCall M op c).2 = { op with inner := left.cancel, poisoned := true } ∧
      (cCall M op c).1.code = .panic := by
  have hdrive {step : Option UInt32} {error : Option CnkError} {response : Option Bytes}
      (hstep : step.isSome = true) (herror : writable error = true) :
      (drive M op step error response (some left)).op =
          { op with inner := left.cancel, poisoned := true } ∧
        (drive M op step error response (some left)).code = .panic := by
    obtain ⟨before, rfl⟩ := Option.isSome_iff_exists.mp hstep
    obtain ⟨out, hclear, _⟩ := writable_eq_true.mp herror
    simp only [drive, hclear, h, Bool.false_eq_true, if_false]
    exact ⟨trivial, trivial⟩
  cases c with
  | start step error unwound =>
    cases hunwound
    simp only [CCall.stands] at hc
    split_ifs at hc with hgood
    · exact hdrive hgood.1 hgood.2
    · cases hc
  | advance response step error unwound =>
    cases hunwound
    simp only [CCall.stands] at hc
    split_ifs at hc with hgood
    · cases hb : bytes response with
      | error code =>
        rw [hb] at hc
        cases hc
      | ok r =>
        simp only [cCall, cnkOperationAdvance, hb]
        exact hdrive hgood.1 hgood.2
    · cases hc
  | cancel => cases hunwound
  | takeProfile => cases hunwound

/-- What is told of a poisoned handle. -/
structure Silent (reply : CReply T) : Prop where
  code : reply.code ≠ .ok
  step : reply.step.getD 0 = 0
  profile : reply.profile = none

/-- A poisoned handle that is cancelled stays as it is, and a call learns nothing of it. -/
theorem call_poisoned (h : op.poisoned = true) (hcancel : op.inner.cancel = op.inner) :
    (cCall M op c).2 = op ∧ (c ≠ .cancel → Silent (cCall M op c).1) := by
  have hdrive (step : Option UInt32) (error : Option CnkError) (response : Option Bytes)
      (unwound : Option (Operation σ T)) :
      (replied (drive M op step error response unwound)).2 = op ∧
        Silent (replied (drive M op step error response unwound)).1 := by
    cases step with
    | none => exact ⟨rfl, nofun, rfl, rfl⟩
    | some before =>
      cases hclear : clearError error with
      | error code =>
        simp only [replied, drive, hclear]
        rw [clearError_error hclear]
        exact ⟨trivial, nofun, rfl, rfl⟩
      | ok out =>
        simp only [replied, drive, hclear, h, if_true]
        exact ⟨trivial, nofun, rfl, rfl⟩
  cases c with
  | start step error unwound =>
    obtain ⟨hsame, hsilent⟩ := hdrive step error none unwound
    exact ⟨hsame, fun _ => hsilent⟩
  | advance response step error unwound =>
    cases hb : bytes response with
    | error code =>
      have hcode := bytes_error hb
      subst hcode
      simp only [cCall, cnkOperationAdvance, hb, replied]
      cases clearError error <;> cases step <;>
        exact ⟨rfl, fun _ => ⟨nofun, rfl, rfl⟩⟩
    | ok r =>
      obtain ⟨hsame, hsilent⟩ := hdrive step error (some r) unwound
      simp only [cCall, cnkOperationAdvance, hb]
      exact ⟨hsame, fun _ => hsilent⟩
  | cancel =>
    refine ⟨?_, fun hne => absurd rfl hne⟩
    simp only [cCall, cnkOperationCancel, hcancel]
  | takeProfile out =>
    simp only [cCall, cnkOperationTakeProfile, h, if_true]
    split_ifs <;> exact ⟨rfl, fun _ => ⟨nofun, rfl, rfl⟩⟩

theorem cancel_cancel (op : Operation σ T) : op.cancel.cancel = op.cancel := by
  by_cases h : op.state = .created ∨ op.state = .awaitingResponse
  · have hcancelled : op.cancel.state = .cancelled := by rw [Operation.cancel, if_pos h]
    rw [Operation.cancel, if_neg (by rw [hcancelled]; decide)]
  · have hsame : op.cancel = op := by rw [Operation.cancel, if_neg h]
    rw [hsame, hsame]

end calls

section runs

variable {M : Machine σ T} {v : Inner T} {op : Operation σ T}

/-- The calls of the operation that some calls of a caller make. -/
def stood (v : Inner T) (calls : List (CCall σ T)) : List Call := calls.filterMap (CCall.stands v)

theorem stood_concat (v : Inner T) (calls : List (CCall σ T)) (c : CCall σ T) :
    stood v (calls ++ [c]) = stood v calls ++ (c.stands v).toList := by
  rw [stood, List.filterMap_append]
  cases hc : c.stands v <;> simp [hc, stood]

/-- Calls that return leave the handle of the operation that the same calls leave. The induction
is on the calls, the last one first. -/
theorem run_quiet (M : Machine σ T) (v : Inner T) (op : Operation σ T) {calls : List (CCall σ T)}
    (hquiet : ∀ c ∈ calls, c.unwound = none) :
    (run (cCall M) ⟨v, op, false⟩ calls).2 = ⟨v, (recorded M op (stood v calls)).op, false⟩ := by
  induction calls using List.reverseRecOn with
  | nil => rfl
  | append_singleton calls c ih =>
    have hbefore := ih fun d hd => hquiet d (List.mem_append_left _ hd)
    have hlast := hquiet c (List.mem_append_right _ List.mem_cons_self)
    rw [run_concat, hbefore, stood_concat]
    cases hc : c.stands v with
    | none =>
      rw [Option.toList_none, List.append_nil]
      exact (call_refused hc).1
    | some call =>
      rw [Option.toList_some, recorded_concat]
      exact (call_reflects rfl hlast hc).2

/-- Nothing wakes a poisoned handle. -/
theorem run_poisoned (left : Operation σ T) (later : List (CCall σ T)) :
    (run (cCall M) ⟨v, left.cancel, true⟩ later).2 = ⟨v, left.cancel, true⟩ := by
  induction later with
  | nil => rfl
  | cons c later ih =>
    rw [run, (call_poisoned rfl (cancel_cancel left)).1]
    exact ih

/-- How a handle relates to the operation that the same calls leave behind. -/
structure Handled (M : Machine σ T) (v : Inner T) (op : Operation σ T) (h : CnkOperation σ T) :
    Prop where
  view : seen h = view v op
  reflects : ∀ c call, c.unwound = none → c.stands v = some call →
    Reflects c.error (cCall M h c).1 (op.call M call).1
  illFormed : ∀ c, c.stands v = none → (cCall M h c).2 = h ∧ (cCall M h c).1.code ≠ .ok
  unwinds : ∀ c left, c.unwound = some left → (c.stands v).isSome = true →
    (cCall M h c).1.code = .panic ∧ ∀ later : List (CCall σ T),
      seen (run (cCall M) (cCall M h c).2 later).2 = {} ∧
      ∀ d ≠ .cancel, Silent (cCall M (run (cCall M) (cCall M h c).2 later).2 d).1

/-- After any calls that return, a caller reads of the handle what there is to see of the
operation, and the next call answers as the operation does; a call that unwinds silences the
handle for good. -/
theorem handle_faithful (M : Machine σ T) (v : Inner T) (op : Operation σ T)
    {calls : List (CCall σ T)} (hquiet : ∀ c ∈ calls, c.unwound = none) :
    Handled M v (recorded M op (stood v calls)).op (run (cCall M) ⟨v, op, false⟩ calls).2 := by
  rw [run_quiet M v op hquiet]
  constructor
  · exact seen_view rfl
  · intro c call hreturns hc
    exact (call_reflects rfl hreturns hc).1
  · intro c hc
    exact call_refused hc
  · intro c left hunwound hc
    obtain ⟨hpoisoned, hcode⟩ := @call_poisons _ _ M ⟨v, _, false⟩ c rfl left hunwound hc
    refine ⟨hcode, fun later => ?_⟩
    rw [hpoisoned, run_poisoned]
    exact ⟨seen_poisoned rfl, fun d hd => (call_poisoned rfl (cancel_cancel left)).2 hd⟩

def statusCalls :
    List (CCall (PivCommand.Sequence PivDiscovery.PinStatus) PivDiscovery.PinStatus) :=
  [.start (some 0) none none, .advance {} none none none,
    .advance (.all [0x63, 0xc2]) (some 0) (some { structSize := 24 }) none]

/-- A PIN status that is queried and answered with two remaining attempts; a call without a step
pointer in between is refused. -/
theorem handle_faithful_status : ∃ op, PivDiscovery.getPinStatusSelected {} = .ok op ∧
    Handled (PivCommand.sequence PivDiscovery.PinStatus) .pinStatus
      (recorded (PivCommand.sequence PivDiscovery.PinStatus) op (stood .pinStatus statusCalls)).op
      (run (cCall (PivCommand.sequence PivDiscovery.PinStatus)) ⟨.pinStatus, op, false⟩
        statusCalls).2 ∧
    seen (run (cCall (PivCommand.sequence PivDiscovery.PinStatus)) ⟨.pinStatus, op, false⟩
      statusCalls).2 = { state := some 2, kind := some 3 } := by
  have hquiet : ∀ c ∈ statusCalls, c.unwound = none := by simp [statusCalls, CCall.unwound]
  exact ⟨_, rfl, handle_faithful _ .pinStatus _ hquiet, rfl⟩

end runs

end BindingRuns
