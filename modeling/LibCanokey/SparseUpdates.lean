import Mathlib.Data.List.Basic
import Mathlib.Data.List.Nodup

/-! # Sparse updates of a list

New values at distinct positions of a list, and those of them that change it. -/
namespace SparseUpdates

variable {α : Type*}

/-- The values set one after another. -/
def applied (us : List (ℕ × α)) (xs : List α) : List α :=
  us.foldl (fun xs u => xs.set u.1 u.2) xs

@[simp] theorem applied_nil (xs : List α) : applied [] xs = xs := rfl

@[simp] theorem applied_cons (u : ℕ × α) (us : List (ℕ × α)) (xs : List α) :
    applied (u :: us) xs = applied us (xs.set u.1 u.2) := rfl

@[simp] theorem length_applied (us : List (ℕ × α)) (xs : List α) :
    (applied us xs).length = xs.length := by
  induction us generalizing xs with
  | nil => rfl
  | cons u us ih => rw [applied_cons, ih, List.length_set]

/-- A position that no update names keeps its value. -/
theorem getElem?_applied_of_notMem {us : List (ℕ × α)} {xs : List α} {i : ℕ}
    (h : i ∉ us.map Prod.fst) : (applied us xs)[i]? = xs[i]? := by
  induction us generalizing xs with
  | nil => rfl
  | cons u us ih =>
    rw [List.map_cons, List.mem_cons, not_or] at h
    rw [applied_cons, ih h.2, List.getElem?_set_ne (Ne.symm h.1)]

theorem getElem?_applied_of_mem {us : List (ℕ × α)} {xs : List α} {u : ℕ × α}
    (hus : (us.map Prod.fst).Nodup) (hu : u ∈ us) (hlt : u.1 < xs.length) :
    (applied us xs)[u.1]? = some u.2 := by
  induction us generalizing xs with
  | nil => cases hu
  | cons d us ih =>
    rw [List.map_cons, List.nodup_cons] at hus
    rw [applied_cons]
    rcases List.mem_cons.mp hu with rfl | hu
    · rw [getElem?_applied_of_notMem hus.1, List.getElem?_set_self hlt]
    · exact ih hus.2 hu (by rw [List.length_set]; exact hlt)

variable [DecidableEq α]

/-- The updates whose value is not there already. -/
def changes (us : List (ℕ × α)) (xs : List α) : List (ℕ × α) :=
  us.filter fun u => xs[u.1]? ≠ some u.2

theorem changes_sublist (us : List (ℕ × α)) (xs : List α) : (changes us xs).Sublist us :=
  List.filter_sublist

theorem mem_changes {us : List (ℕ × α)} {xs : List α} {u : ℕ × α} :
    u ∈ changes us xs ↔ u ∈ us ∧ xs[u.1]? ≠ some u.2 := by
  simp [changes]

theorem applied_changes {us : List (ℕ × α)} (hus : (us.map Prod.fst).Nodup) (xs : List α) :
    applied (changes us xs) xs = applied us xs := by
  have hchanges : ((changes us xs).map Prod.fst).Nodup :=
    hus.sublist ((changes_sublist us xs).map Prod.fst)
  apply List.ext_getElem?
  intro i
  by_cases hlt : i < xs.length
  · by_cases hi : ∃ u ∈ us, u.1 = i
    · obtain ⟨u, hu, rfl⟩ := hi
      rw [getElem?_applied_of_mem hus hu hlt]
      by_cases hsame : xs[u.1]? = some u.2
      · rw [getElem?_applied_of_notMem, hsame]
        intro hmem
        obtain ⟨d, hd, hdu⟩ := List.mem_map.mp hmem
        obtain ⟨hd, hne⟩ := mem_changes.mp hd
        cases List.inj_on_of_nodup_map hus hd hu hdu
        exact hne hsame
      · exact getElem?_applied_of_mem hchanges (mem_changes.mpr ⟨hu, hsame⟩) hlt
    · have hnot : i ∉ us.map Prod.fst := by
        intro hmem
        obtain ⟨u, hu, hiu⟩ := List.mem_map.mp hmem
        exact hi ⟨u, hu, hiu⟩
      rw [getElem?_applied_of_notMem hnot, getElem?_applied_of_notMem]
      intro hmem
      exact hnot (((changes_sublist us xs).map Prod.fst).subset hmem)
  · rw [List.getElem?_eq_none (by rw [length_applied]; omega),
      List.getElem?_eq_none (by rw [length_applied]; omega)]

/-- Updates that are applied change nothing again. -/
theorem changes_applied {us : List (ℕ × α)} {xs : List α} (hus : (us.map Prod.fst).Nodup)
    (hlt : ∀ u ∈ us, u.1 < xs.length) : changes us (applied us xs) = [] := by
  refine List.filter_eq_nil_iff.mpr ?_
  intro u hu
  simp [getElem?_applied_of_mem hus hu (hlt u hu)]

/-- A position is among the changes exactly when its value becomes another. -/
theorem exists_mem_changes {us : List (ℕ × α)} {xs : List α} (hus : (us.map Prod.fst).Nodup)
    (hlt : ∀ u ∈ us, u.1 < xs.length) {i : ℕ} :
    (∃ v, (i, v) ∈ changes us xs) ↔ (applied us xs)[i]? ≠ xs[i]? := by
  constructor
  · rintro ⟨v, hv⟩
    obtain ⟨hmem, hne⟩ := mem_changes.mp hv
    rw [getElem?_applied_of_mem hus hmem (hlt _ hmem)]
    exact hne.symm
  · intro hne
    by_cases hi : i ∈ us.map Prod.fst
    · obtain ⟨u, hu, rfl⟩ := List.mem_map.mp hi
      rw [getElem?_applied_of_mem hus hu (hlt u hu)] at hne
      exact ⟨u.2, mem_changes.mpr ⟨hu, hne.symm⟩⟩
    · exact absurd (getElem?_applied_of_notMem hi) hne

end SparseUpdates
