import Mathlib.Data.List.Induction
import Mathlib.Data.Set.Insert
import Mathlib.Logic.Function.Basic

/-! # Stores whose writes can be cut short

A store holds a value for every key. A write takes place, or it is cut short and leaves one of the
values that `left old new` allows. A read returns what is held. What a read can return then
depends on the writes since the last one that took place, and on nothing else. -/
namespace CrashStores

variable {K V : Type*} [DecidableEq K]

inductive Event (K V : Type*) where
  | wrote (k : K) (v : V)
  | torn (k : K) (v : V)
  | read (k : K) (v : V)
  deriving DecidableEq, Repr

inductive Step (left : V → V → V → Prop) (s : K → V) : Event K V → (K → V) → Prop where
  | wrote (k : K) (v : V) : Step left s (.wrote k v) (Function.update s k v)
  | torn (k : K) (v v' : V) (h : left (s k) v v') :
      Step left s (.torn k v) (Function.update s k v')
  | read (k : K) : Step left s (.read k (s k)) s

inductive Run (left : V → V → V → Prop) (s : K → V) : List (Event K V) → (K → V) → Prop where
  | start : Run left s [] s
  | step {es : List (Event K V)} {e : Event K V} {s' s'' : K → V} (h : Run left s es s')
      (he : Step left s' e s'') : Run left s (es ++ [e]) s''

/-- An event that leaves a key as it is. -/
def Event.Spares (k : K) : Event K V → Prop
  | .wrote k' _ => k' ≠ k
  | .torn k' _ => k' ≠ k
  | .read _ _ => True

/-- What a key can hold after an event, when it held one of `vs` before. -/
def possible (left : V → V → V → Prop) (k : K) (vs : Set V) : Event K V → Set V
  | .wrote k' v => if k' = k then {v} else vs
  | .torn k' v => if k' = k then {v' | ∃ u ∈ vs, left u v v'} else vs
  | .read _ _ => vs

section runs

variable {left : V → V → V → Prop} {s s' : K → V} {es es' : List (Event K V)} {e : Event K V}
  {k : K} {v v' : V}

theorem Step.possible {vs : Set V} (h : Step left s e s') (hk : s k ∈ vs) :
    s' k ∈ possible left k vs e := by
  cases h with
  | wrote k' v =>
    by_cases heq : k' = k
    · subst heq
      simp [CrashStores.possible]
    · simpa [CrashStores.possible, heq, Function.update_of_ne (Ne.symm heq)] using hk
  | torn k' v v' hleft =>
    by_cases heq : k' = k
    · subst heq
      simpa [CrashStores.possible] using ⟨s k', hk, hleft⟩
    · simpa [CrashStores.possible, heq, Function.update_of_ne (Ne.symm heq)] using hk
  | read k' => exact hk

theorem Step.spares (h : Step left s e s') (hk : e.Spares k) : s' k = s k := by
  cases h with
  | wrote k' v => exact Function.update_of_ne (Ne.symm hk) _ _
  | torn k' v v' _ => exact Function.update_of_ne (Ne.symm hk) _ _
  | read k' => rfl

theorem Run.possible (h : Run left s es s') (k : K) :
    s' k ∈ es.foldl (CrashStores.possible left k) {s k} := by
  induction h with
  | start => exact rfl
  | step _ he ih =>
    rw [List.foldl_append]
    exact he.possible ih

theorem Step.torn_kept (h : left (s k) v (s k)) : Step left s (.torn k v) s := by
  have hstep : Step left s (.torn k v) (Function.update s k (s k)) := .torn k v (s k) h
  rwa [Function.update_eq_self] at hstep

theorem Step.read_eq (h : s k = v) : Step left s (.read k v) s := by
  subst h
  exact .read k

theorem Run.spares (h : Run left s es s') (hk : ∀ e ∈ es, e.Spares k) : s' k = s k := by
  induction h with
  | start => rfl
  | @step es e s₁ s₂ _ he ih =>
    have hlast := he.spares (hk e (by simp))
    exact hlast.trans (ih fun e' he' => hk e' (List.mem_append_left _ he'))

theorem Run.split {s'' : K → V} (h : Run left s (es ++ es') s'') :
    ∃ s', Run left s es s' ∧ Run left s' es' s'' := by
  induction es' using List.reverseRecOn generalizing s'' with
  | nil =>
    rw [List.append_nil] at h
    exact ⟨s'', h, .start⟩
  | append_singleton es' e ih =>
    generalize hall : es ++ (es' ++ [e]) = all at h
    cases h with
    | start => simp at hall
    | step h he =>
      rw [← List.append_assoc] at hall
      obtain ⟨rfl, hlast⟩ := List.append_inj' hall rfl
      cases hlast
      obtain ⟨s', hfirst, hrest⟩ := ih h
      exact ⟨s', hfirst, .step hrest he⟩

/-- A read in the middle of a run shows the state of that moment. -/
theorem Run.at_read (h : Run left s (es ++ .read k v :: es') s') :
    ∃ t, Run left s es t ∧ t k = v ∧ Run left t es' s' := by
  obtain ⟨t, hbefore, hrest⟩ := h.split
  obtain ⟨t', hread, hafter⟩ : ∃ t', Run left t [.read k v] t' ∧ Run left t' es' s' :=
    Run.split hrest
  generalize hone : [Event.read k v] = one at hread
  cases hread with
  | start => cases hone
  | @step es₁ e₁ s₁ s₂ h₁ he₁ =>
    rw [← List.nil_append [Event.read k v]] at hone
    obtain ⟨rfl, hsame⟩ := List.append_inj' hone rfl
    cases hsame
    generalize hnil : ([] : List (Event K V)) = none at h₁
    cases h₁ with
    | step => simp at hnil
    | start =>
      cases he₁
      exact ⟨t, hbefore, rfl, hafter⟩

end runs

/-- What the reads of a run have returned. -/
structure Serves (left : V → V → V → Prop) (s : K → V) (log : List (Event K V)) (s' : K → V) :
    Prop where
  run : Run left s log s'
  reads : ∀ k v before after, log = before ++ .read k v :: after →
    v ∈ before.foldl (possible left k) {s k}
  last : ∀ k v v' before between after,
    log = before ++ .wrote k v :: between ++ .read k v' :: after →
    (∀ e ∈ between, e.Spares k) → v' = v
  again : ∀ k v v' before between after,
    log = before ++ .read k v :: between ++ .read k v' :: after →
    (∀ e ∈ between, e.Spares k) → v' = v

theorem Run.serves {left : V → V → V → Prop} {s s' : K → V} {log : List (Event K V)}
    (h : Run left s log s') : Serves left s log s' := by
  refine ⟨h, ?_, ?_, ?_⟩
  · rintro k v before after rfl
    obtain ⟨t, hbefore, rfl, _⟩ := h.at_read
    exact hbefore.possible k
  · rintro k v v' before between after rfl hspares
    obtain ⟨t, hbefore, rfl, _⟩ := h.at_read
    obtain ⟨t₀, _, hrest⟩ := hbefore.split
    obtain ⟨t₁, hwrote, hbetween⟩ : ∃ t₁, Run left t₀ [.wrote k v] t₁ ∧ Run left t₁ between t :=
      Run.split hrest
    have hheld := hwrote.possible k
    rw [hbetween.spares hspares]
    simpa [CrashStores.possible] using hheld
  · rintro k v v' before between after rfl hspares
    obtain ⟨t, hbefore, rfl, _⟩ := h.at_read
    obtain ⟨t₀, _, rfl, hbetween⟩ := hbefore.at_read
    exact hbetween.spares hspares

section systems

variable {S E : Type*}

/-- One event of a system, which may show nothing of the store. -/
inductive Shows (left : V → V → V → Prop) (s : K → V) : Option (Event K V) → (K → V) → Prop where
  | nothing : Shows left s none s
  | event {e : Event K V} {s' : K → V} (h : Step left s e s') : Shows left s (some e) s'

/-- A system after events, and what they have shown. -/
def logged (step : S → E → S × Option (Event K V)) (x : S) : List E → S × List (Event K V)
  | [] => (x, [])
  | e :: es =>
    ((logged step (step x e).1 es).1, (step x e).2.toList ++ (logged step (step x e).1 es).2)

omit [DecidableEq K] in
theorem logged_concat (step : S → E → S × Option (Event K V)) (x : S) (es : List E) (e : E) :
    logged step x (es ++ [e]) = ((step (logged step x es).1 e).1,
      (logged step x es).2 ++ (step (logged step x es).1 e).2.toList) := by
  induction es generalizing x with
  | nil => simp [logged]
  | cons e' es ih => simp [logged, ih]

/-- Where every step of a system shows a step of the store in the states of an invariant, its runs
show runs. -/
theorem logged_run {left : V → V → V → Prop} {step : S → E → S × Option (Event K V)}
    {content : S → K → V} {I : S → Prop} (hinv : ∀ x e, I x → I (step x e).1)
    (hstep : ∀ x e, I x → Shows left (content x) (step x e).2 (content (step x e).1)) {x : S}
    (hx : I x) (es : List E) :
    I (logged step x es).1 ∧
      Run left (content x) (logged step x es).2 (content (logged step x es).1) := by
  induction es using List.reverseRecOn with
  | nil => exact ⟨hx, .start⟩
  | append_singleton es e ih =>
    obtain ⟨hkept, hrun⟩ := ih
    have hlast := hstep (logged step x es).1 e hkept
    have hnext := hinv (logged step x es).1 e hkept
    rw [logged_concat]
    generalize step (logged step x es).1 e = result at hlast hnext ⊢
    obtain ⟨x', shown⟩ := result
    dsimp only at hlast hnext ⊢
    refine ⟨hnext, ?_⟩
    generalize hc : content x' = s' at hlast ⊢
    cases hlast with
    | nothing => simpa using hrun
    | event h => exact .step hrun h

/-- The system serves as the store whatever its events. -/
theorem logged_serves {left : V → V → V → Prop} {step : S → E → S × Option (Event K V)}
    {content : S → K → V}
    (hstep : ∀ x e, Shows left (content x) (step x e).2 (content (step x e).1)) (x : S)
    (es : List E) :
    Serves left (content x) (logged step x es).2 (content (logged step x es).1) := by
  have hrun := logged_run (I := fun _ => True) (fun _ _ _ => trivial) (fun x e _ => hstep x e)
    (x := x) trivial es
  exact hrun.2.serves

end systems

end CrashStores
