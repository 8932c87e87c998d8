import LibCanokey.ListTraversal

/-! # What a fallible computation ensures of its result

One rule for each way of composing computations; a refused computation ensures anything. -/
namespace FallibleResults

open ListTraversal

universe u v

variable {ε : Type v} {α β : Type u} {x : Except ε α} {f : α → Except ε β}

/-- Whatever the computation returns has the property. -/
def Ensures (x : Except ε α) (p : α → Prop) : Prop := ∀ a, x = .ok a → p a

variable {p : α → Prop} {q : β → Prop}

theorem ensures_ok {a : α} : Ensures (.ok a : Except ε α) p ↔ p a := by
  constructor
  · intro h
    exact h a rfl
  · intro ha b hb
    cases hb
    exact ha

theorem ensures_error (e : ε) : Ensures (.error e : Except ε α) p := by
  intro a h
  cases h

theorem Ensures.bind (hx : Ensures x p) (hf : ∀ a, p a → Ensures (f a) q) :
    Ensures (x >>= f) q := by
  intro b hb
  obtain ⟨a, ha, hb⟩ := bind_eq_ok.mp hb
  exact hf a (hx a ha) b hb

/-- What comes after does not depend on what came before. -/
theorem Ensures.after (hf : ∀ a, Ensures (f a) q) : Ensures (x >>= f) q := by
  intro b hb
  obtain ⟨a, _, hb⟩ := bind_eq_ok.mp hb
  exact hf a b hb

theorem Ensures.map {g : α → β} (h : Ensures x fun a => q (g a)) : Ensures (x.map g) q := by
  intro b hb
  obtain ⟨a, ha, rfl⟩ := map_eq_ok.mp hb
  exact h a ha

theorem Ensures.weaken {p' : α → Prop} (h : Ensures x p) (hp : ∀ a, p a → p' a) :
    Ensures x p' := by
  intro a ha
  exact hp a (h a ha)

/-- A test in front of a computation refuses or lets it run. -/
theorem Ensures.guarded {c : Prop} [Decidable c] {e : ε} (h : ¬ c → Ensures x p) :
    Ensures (if c then .error e else x) p := by
  by_cases hc : c
  · rw [if_pos hc]
    exact ensures_error e
  · rw [if_neg hc]
    exact h hc

end FallibleResults
