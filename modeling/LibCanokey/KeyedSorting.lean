import Mathlib.Data.List.Sort

/-! # Stable sorting by a key -/
namespace KeyedSorting

universe u v w

variable {κ : Type u} {α : Type v} {β : Type w}

/-- Shorter lists first, then element by element. -/
def shortlex (cmp : κ → κ → Ordering) : List κ → List κ → Ordering :=
  compareLex (compareOn List.length) (List.compareLex cmp)

instance (cmp : κ → κ → Ordering) [Std.TransCmp cmp] : Std.TransCmp (shortlex cmp) :=
  inferInstanceAs (Std.TransCmp (compareLex (compareOn List.length) (List.compareLex cmp)))

instance (cmp : κ → κ → Ordering) [Std.LawfulEqCmp cmp] : Std.LawfulEqCmp (shortlex cmp) where
  compare_self := by simp [shortlex, compareLex, compareOn]
  eq_of_compare h := Std.LawfulEqCmp.eq_of_compare (compareLex_eq_eq.mp h).2

variable (cmp : κ → κ → Ordering) (key : α → κ)

def KeyLe (a b : α) : Prop := (cmp (key a) (key b)).isLE

instance : DecidableRel (KeyLe cmp key) := fun a b =>
  inferInstanceAs (Decidable ((cmp (key a) (key b)).isLE = true))

instance [Std.TransCmp cmp] : IsTrans α (KeyLe cmp key) where
  trans _ _ _ := Std.TransCmp.isLE_trans

instance [Std.OrientedCmp cmp] : Std.Total (KeyLe cmp key) where
  total a b := by
    have hs : cmp (key b) (key a) = (cmp (key a) (key b)).swap := Std.OrientedCmp.eq_swap
    rw [KeyLe, KeyLe, hs]
    cases cmp (key a) (key b) <;> simp

def sortBy (xs : List α) : List α := xs.insertionSort (KeyLe cmp key)

variable {cmp key}

theorem perm_sortBy (xs : List α) : (sortBy cmp key xs).Perm xs := List.perm_insertionSort _ xs

theorem mem_sortBy {xs : List α} {x : α} : x ∈ sortBy cmp key xs ↔ x ∈ xs :=
  (perm_sortBy xs).mem_iff

theorem pairwise_sortBy [Std.TransCmp cmp] (xs : List α) :
    (sortBy cmp key xs).Pairwise (KeyLe cmp key) := List.pairwise_insertionSort _ xs

theorem sortBy_of_pairwise {xs : List α} (h : xs.Pairwise (KeyLe cmp key)) :
    sortBy cmp key xs = xs := h.insertionSort_eq

/-- Sorting commutes with a map that keeps the keys. -/
theorem map_sortBy {key' : β → κ} {f : α → β} {xs : List α} (h : ∀ x ∈ xs, key' (f x) = key x) :
    (sortBy cmp key xs).map f = sortBy cmp key' (xs.map f) := by
  apply List.map_insertionSort
  intro a ha b hb
  rw [KeyLe, KeyLe, h a ha, h b hb]

/-- With distinct keys there is one sorted order. -/
theorem sortBy_perm [Std.TransCmp cmp] [Std.LawfulEqCmp cmp] {xs ys : List α} (h : xs.Perm ys)
    (hn : (xs.map key).Nodup) : sortBy cmp key xs = sortBy cmp key ys := by
  have hp : (sortBy cmp key xs).Perm (sortBy cmp key ys) :=
    (perm_sortBy xs).trans (h.trans (perm_sortBy ys).symm)
  refine hp.eq_of_pairwise ?_ (pairwise_sortBy xs) (pairwise_sortBy ys)
  intro a b ha hb hab hba
  have hk : key a = key b :=
    Std.LawfulEqCmp.eq_of_compare (Std.OrientedCmp.isLE_antisymm hab hba)
  exact List.inj_on_of_nodup_map hn (mem_sortBy.mp ha) (h.mem_iff.mpr (mem_sortBy.mp hb)) hk

end KeyedSorting
