import Mathlib.Data.List.Basic
import Mathlib.Data.List.Induction

/-! # Runs of scripted processes

A process consumes one input a turn and goes on in a new state, returns a value, or
fails. A machine answers every input and never stops. Both are run over finite scripts. -/
namespace ScriptedRuns

variable {σ ι ο ε : Type*}

/-- `.ok (none, t)` goes on in `t`; any other answer ends the run. -/
abbrev Turn (σ ι ο ε : Type*) := σ → ι → Except ε (Option ο × σ)

/-- The state after a script none of whose inputs ends the run. -/
def after (step : Turn σ ι ο ε) : σ → List ι → Option σ
  | s, [] => some s
  | s, i :: is =>
    match step s i with
    | .ok (none, t) => after step t is
    | _ => none

/-- The states waiting for an input, in order, until the script or the run ends. -/
def waiting (step : Turn σ ι ο ε) : σ → List ι → List σ
  | s, [] => [s]
  | s, i :: is =>
    match step s i with
    | .ok (none, t) => s :: waiting step t is
    | _ => [s]

/-- The waiting states, each with the input it got; only the last may have got none. -/
def turns (step : Turn σ ι ο ε) : σ → List ι → List (σ × Option ι)
  | s, [] => [(s, none)]
  | s, i :: is =>
    match step s i with
    | .ok (none, t) => (s, some i) :: turns step t is
    | _ => [(s, some i)]

/-- The last input of the script makes the process return `o`. -/
def Returns (step : Turn σ ι ο ε) (s : σ) (script : List ι) (o : ο) : Prop :=
  ∃ init last t u, script = init ++ [last] ∧ after step s init = some t ∧
    step t last = .ok (some o, u)

section process

variable {step : Turn σ ι ο ε}

theorem after_cons {s t : σ} {i : ι} (h : step s i = .ok (none, t)) (is : List ι) :
    after step s (i :: is) = after step t is := by
  simp [after, h]

theorem after_cons_eq_some {s u : σ} {i : ι} {is : List ι} :
    after step s (i :: is) = some u ↔
      ∃ t, step s i = .ok (none, t) ∧ after step t is = some u := by
  constructor
  · intro h
    simp only [after] at h
    split at h
    · next t ht => exact ⟨t, ht, h⟩
    · cases h
  · rintro ⟨t, ht, hu⟩
    rw [after_cons ht, hu]

theorem after_append (s : σ) (is js : List ι) :
    after step s (is ++ js) = (after step s is).bind fun t => after step t js := by
  induction is generalizing s with
  | nil => rfl
  | cons i is ih =>
    rw [List.cons_append, after, after]
    split
    · exact ih _
    · rfl

theorem after_append_eq_some {s u : σ} {is js : List ι} :
    after step s (is ++ js) = some u ↔
      ∃ t, after step s is = some t ∧ after step t js = some u := by
  rw [after_append]
  exact Option.bind_eq_some_iff

/-- What every continuing turn preserves holds after any script. -/
theorem after_invariant (Inv : σ → Prop)
    (hstep : ∀ s i t, Inv s → step s i = .ok (none, t) → Inv t)
    {s t : σ} {script : List ι} (hs : Inv s) (h : after step s script = some t) : Inv t := by
  induction script generalizing s with
  | nil => cases h; exact hs
  | cons i is ih =>
    obtain ⟨u, hu, h⟩ := after_cons_eq_some.mp h
    exact ih (hstep s i u hs hu) h

theorem waiting_cons {s t : σ} {i : ι} (h : step s i = .ok (none, t)) (is : List ι) :
    waiting step s (i :: is) = s :: waiting step t is := by
  simp [waiting, h]

theorem waiting_cons_stop {s : σ} {i : ι} (h : ∀ t, step s i ≠ .ok (none, t)) (is : List ι) :
    waiting step s (i :: is) = [s] := by
  unfold waiting
  split
  · next t ht => exact absurd ht (h t)
  · rfl

/-- The waiting states are those reached by the prefixes of the script. -/
theorem mem_waiting {s t : σ} {script : List ι} :
    t ∈ waiting step s script ↔ ∃ is js, script = is ++ js ∧ after step s is = some t := by
  induction script generalizing s with
  | nil =>
    constructor
    · intro h
      rw [waiting, List.mem_singleton] at h
      exact ⟨[], [], rfl, by rw [h]; rfl⟩
    · rintro ⟨is, js, h, ht⟩
      obtain ⟨rfl, rfl⟩ := List.nil_eq_append_iff.mp h
      cases ht
      exact List.mem_singleton.mpr rfl
  | cons i is ih =>
    by_cases hs : ∃ u, step s i = .ok (none, u)
    · obtain ⟨u, hu⟩ := hs
      rw [waiting_cons hu, List.mem_cons, ih]
      constructor
      · rintro (rfl | ⟨is', js, rfl, ht⟩)
        · exact ⟨[], i :: is, rfl, rfl⟩
        · exact ⟨i :: is', js, rfl, by rw [after_cons hu, ht]⟩
      · rintro ⟨is', js, h, ht⟩
        cases is' with
        | nil => cases ht; exact Or.inl rfl
        | cons j is' =>
          rw [List.cons_append, List.cons.injEq] at h
          obtain ⟨rfl, rfl⟩ := h
          rw [after_cons hu] at ht
          exact Or.inr ⟨is', js, rfl, ht⟩
    · push Not at hs
      rw [waiting_cons_stop hs, List.mem_singleton]
      constructor
      · rintro rfl
        exact ⟨[], i :: is, rfl, rfl⟩
      · rintro ⟨is', js, h, ht⟩
        cases is' with
        | nil => cases ht; rfl
        | cons j is' =>
          rw [List.cons_append, List.cons.injEq] at h
          obtain ⟨rfl, rfl⟩ := h
          obtain ⟨u, hu, _⟩ := after_cons_eq_some.mp ht
          exact absurd hu (hs u)

theorem waiting_concat {s t u : σ} {i : ι} {script : List ι}
    (h : after step s script = some t) (hi : step t i = .ok (none, u)) :
    waiting step s (script ++ [i]) = waiting step s script ++ [u] := by
  induction script generalizing s with
  | nil =>
    cases h
    rw [List.nil_append, waiting_cons hi]
    rfl
  | cons j script ih =>
    obtain ⟨v, hv, h⟩ := after_cons_eq_some.mp h
    rw [List.cons_append, waiting_cons hv, waiting_cons hv, ih h]
    rfl

theorem waiting_invariant (Inv : σ → Prop)
    (hstep : ∀ s i t, Inv s → step s i = .ok (none, t) → Inv t)
    {s t : σ} {script : List ι} (hs : Inv s) (h : t ∈ waiting step s script) : Inv t := by
  obtain ⟨is, js, _, ht⟩ := mem_waiting.mp h
  exact after_invariant Inv hstep hs ht

theorem turns_cons {s t : σ} {i : ι} (h : step s i = .ok (none, t)) (is : List ι) :
    turns step s (i :: is) = (s, some i) :: turns step t is := by
  simp [turns, h]

theorem turns_cons_stop {s : σ} {i : ι} (h : ∀ t, step s i ≠ .ok (none, t)) (is : List ι) :
    turns step s (i :: is) = [(s, some i)] := by
  unfold turns
  split
  · next t ht => exact absurd ht (h t)
  · rfl

theorem turns_fst (s : σ) (script : List ι) :
    (turns step s script).map Prod.fst = waiting step s script := by
  induction script generalizing s with
  | nil => rfl
  | cons i script ih =>
    by_cases h : ∃ t, step s i = .ok (none, t)
    · obtain ⟨t, ht⟩ := h
      rw [turns_cons ht, waiting_cons ht, List.map_cons, ih]
    · push Not at h
      rw [waiting_cons_stop h, turns_cons_stop h]
      rfl

theorem waiting_ne_nil (s : σ) (script : List ι) : waiting step s script ≠ [] := by
  cases script with
  | nil => simp [waiting]
  | cons i script =>
    simp only [waiting]
    split <;> simp

end process

section machine

variable {step : σ → ι → ο × σ}

/-- The inputs with their answers, and the final state. -/
def run (step : σ → ι → ο × σ) : σ → List ι → List (ι × ο) × σ
  | s, [] => ([], s)
  | s, i :: is => ((i, (step s i).1) :: (run step (step s i).2 is).1, (run step (step s i).2 is).2)

theorem run_append (s : σ) (is js : List ι) :
    run step s (is ++ js) =
      ((run step s is).1 ++ (run step (run step s is).2 js).1,
        (run step (run step s is).2 js).2) := by
  induction is generalizing s with
  | nil => rfl
  | cons i is ih => simp only [List.cons_append, run, ih]

theorem run_concat (s : σ) (is : List ι) (i : ι) :
    run step s (is ++ [i]) =
      ((run step s is).1 ++ [(i, (step (run step s is).2 i).1)],
        (step (run step s is).2 i).2) := by
  rw [run_append]
  rfl

/-- An invariant over history and state that every step extends holds after any run. -/
theorem run_invariant (Inv : List (ι × ο) → σ → Prop) {s : σ} (h0 : Inv [] s)
    (hstep : ∀ hist t i, Inv hist t → Inv (hist ++ [(i, (step t i).1)]) (step t i).2)
    (script : List ι) : Inv (run step s script).1 (run step s script).2 := by
  induction script using List.reverseRecOn with
  | nil => exact h0
  | append_singleton is i ih =>
    rw [run_concat]
    exact hstep _ _ i ih

end machine

end ScriptedRuns
