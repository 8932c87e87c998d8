import Mathlib.Logic.Function.Iterate

/-! # Runs that settle

A function applied again and again to a state. A run settles where the function changes nothing
any more; where it settles does not depend on how long it is watched. -/
namespace SettlingRuns

variable {α : Type*} {f : α → α} {P Q : α → Prop} {x : α}

/-- The run from a state comes to a fixed state with a property. -/
def Settles (f : α → α) (P : α → Prop) (x : α) : Prop :=
  ∃ n, f (f^[n] x) = f^[n] x ∧ P (f^[n] x)

theorem Settles.fixed (hx : f x = x) (h : P x) : Settles f P x := ⟨0, hx, h⟩

theorem Settles.of_step (h : Settles f P (f x)) : Settles f P x := by
  obtain ⟨n, hn, hp⟩ := h
  exact ⟨n + 1, hn, hp⟩

theorem Settles.mono (h : Settles f P x) (hpq : ∀ y, P y → Q y) : Settles f Q x := by
  obtain ⟨n, hn, hp⟩ := h
  exact ⟨n, hn, hpq _ hp⟩

/-- Two fixed states of one run are one state. -/
theorem iterate_unique {m n : ℕ} (hm : f (f^[m] x) = f^[m] x) (hn : f (f^[n] x) = f^[n] x) :
    f^[m] x = f^[n] x := by
  calc
    f^[m] x = f^[n] (f^[m] x) := (Function.iterate_fixed hm n).symm
    _ = f^[n + m] x := (Function.iterate_add_apply f n m x).symm
    _ = f^[m + n] x := by rw [Nat.add_comm]
    _ = f^[m] (f^[n] x) := Function.iterate_add_apply f m n x
    _ = f^[n] x := Function.iterate_fixed hn m

/-- A fixed state of a run has the property with which the run settles. -/
theorem Settles.at_fixed (h : Settles f P x) {m : ℕ} (hm : f (f^[m] x) = f^[m] x) :
    P (f^[m] x) := by
  obtain ⟨n, hn, hp⟩ := h
  rw [iterate_unique hm hn]
  exact hp

end SettlingRuns
