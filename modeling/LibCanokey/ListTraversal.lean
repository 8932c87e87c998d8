import Mathlib.Data.List.Basic
import Mathlib.Data.List.Zip

/-! # Consecutive chunks and fallible traversals of lists -/
namespace ListTraversal

universe u v

variable {α β : Type u} {ε : Type v}

/-- The first `count` consecutive pieces of length `size`; the last one may be shorter. -/
def chunks (size : ℕ) : ℕ → List α → List (List α)
  | 0, _ => []
  | count + 1, xs => xs.take size :: chunks size count (xs.drop size)

/-- The number of chunks of length `size` that cover `n` elements. -/
def divCeil (n size : ℕ) : ℕ := (n + size - 1) / size

@[simp] theorem length_chunks (size count : ℕ) (xs : List α) :
    (chunks size count xs).length = count := by
  induction count generalizing xs with
  | zero => rfl
  | succ count ih => simp [chunks, ih]

/-- Chunks that cover the list lose and reorder nothing. -/
theorem flatten_chunks {size count : ℕ} {xs : List α} (h : xs.length ≤ size * count) :
    (chunks size count xs).flatten = xs := by
  induction count generalizing xs with
  | zero =>
    have hx : xs = [] := List.eq_nil_of_length_eq_zero (by omega)
    simp [chunks, hx]
  | succ count ih =>
    rw [chunks, List.flatten_cons, ih, List.take_append_drop]
    rw [List.length_drop, Nat.mul_succ] at *
    omega

theorem length_le_of_mem_chunks {size count : ℕ} {xs c : List α}
    (h : c ∈ chunks size count xs) : c.length ≤ size := by
  induction count generalizing xs with
  | zero => cases h
  | succ count ih =>
    rcases List.mem_cons.mp h with rfl | h
    · exact List.length_take_le _ _
    · exact ih h

theorem ne_nil_of_mem_chunks {size count : ℕ} {xs c : List α} (hs : 0 < size)
    (hn : size * (count - 1) < xs.length) (h : c ∈ chunks size count xs) : c ≠ [] := by
  induction count generalizing xs with
  | zero => cases h
  | succ count ih =>
    rcases List.mem_cons.mp h with rfl | h
    · rw [← List.length_pos_iff, List.length_take]
      omega
    · apply ih _ h
      cases count with
      | zero => cases h
      | succ count =>
        rw [Nat.add_sub_cancel, Nat.mul_succ] at hn
        rw [List.length_drop, Nat.add_sub_cancel]
        omega

theorem length_of_mem_chunks {size count : ℕ} {xs c : List α} (h : size * count ≤ xs.length)
    (hc : c ∈ chunks size count xs) : c.length = size := by
  induction count generalizing xs with
  | zero => cases hc
  | succ count ih =>
    rw [Nat.mul_succ] at h
    rcases List.mem_cons.mp hc with rfl | hc
    · rw [List.length_take]
      omega
    · apply ih _ hc
      rw [List.length_drop]
      omega

theorem le_mul_divCeil {size : ℕ} (hs : 0 < size) (n : ℕ) : n ≤ size * divCeil n size := by
  simp only [divCeil]
  have h := Nat.lt_mul_div_succ (n + size - 1) hs
  rw [Nat.mul_succ] at h
  omega

theorem mul_divCeil_pred_lt {size n : ℕ} (hs : 0 < size) (hn : 0 < n) :
    size * (divCeil n size - 1) < n := by
  simp only [divCeil]
  have h := Nat.mul_div_le (n + size - 1) size
  have hp : 1 ≤ (n + size - 1) / size := (Nat.le_div_iff_mul_le hs).mpr (by omega)
  rw [Nat.mul_sub, Nat.mul_one]
  omega

theorem one_lt_divCeil {size n : ℕ} (hs : 0 < size) (h : size < n) : 1 < divCeil n size :=
  (Nat.le_div_iff_mul_le hs).mpr (by omega)

theorem divCeil_zero (size : ℕ) : divCeil 0 size = 0 := by
  by_cases hs : size = 0
  · rw [hs, divCeil, Nat.div_zero]
  · rw [divCeil, Nat.div_eq_of_lt]
    omega

theorem divCeil_mono {m n : ℕ} (h : m ≤ n) (size : ℕ) : divCeil m size ≤ divCeil n size :=
  Nat.div_le_div_right (by omega)

/-- One piece of the full size, or what there is, and the pieces of the rest. -/
theorem divCeil_step {size n : ℕ} (hs : 0 < size) (hn : 0 < n) :
    divCeil n size = 1 + divCeil (n - min n size) size := by
  by_cases hle : n ≤ size
  · rw [Nat.min_eq_left hle, Nat.sub_self, divCeil_zero, divCeil]
    rw [show n + size - 1 = n - 1 + size by omega, Nat.add_div_right _ hs,
      Nat.div_eq_of_lt (by omega)]
  · rw [Nat.min_eq_right (by omega), divCeil, divCeil]
    rw [show n + size - 1 = n - size + size - 1 + size by omega, Nat.add_div_right _ hs,
      Nat.add_comm]

theorem bind_eq_ok {x : Except ε α} {f : α → Except ε β} {b : β} :
    x >>= f = .ok b ↔ ∃ a, x = .ok a ∧ f a = .ok b := by
  cases x with
  | error e =>
    constructor
    · intro h; cases h
    · rintro ⟨a, h, _⟩; cases h
  | ok a =>
    constructor
    · intro h; exact ⟨a, rfl, h⟩
    · rintro ⟨c, hc, h⟩; cases hc; exact h

theorem bind_eq_error {x : Except ε α} {f : α → Except ε β} {e : ε} :
    x >>= f = .error e ↔ x = .error e ∨ ∃ a, x = .ok a ∧ f a = .error e := by
  cases x with
  | error e' =>
    constructor
    · intro h; cases h; exact Or.inl rfl
    · rintro (h | ⟨a, h, _⟩)
      · cases h; rfl
      · cases h
  | ok a =>
    constructor
    · intro h; exact Or.inr ⟨a, rfl, h⟩
    · rintro (h | ⟨c, hc, h⟩)
      · cases h
      · cases hc; exact h

theorem map_eq_ok {x : Except ε α} {f : α → β} {b : β} :
    x.map f = .ok b ↔ ∃ a, x = .ok a ∧ f a = b := by
  cases x with
  | error e =>
    constructor
    · intro h; cases h
    · rintro ⟨a, h, _⟩; cases h
  | ok a =>
    constructor
    · intro h; exact ⟨a, rfl, Except.ok.inj h⟩
    · rintro ⟨c, hc, rfl⟩; cases hc; rfl

theorem map_eq_error {x : Except ε α} {f : α → β} {e : ε} :
    x.map f = .error e ↔ x = .error e := by
  cases x with
  | error e' =>
    constructor
    · intro h; cases h; rfl
    · intro h; cases h; rfl
  | ok a =>
    constructor
    · intro h; cases h
    · intro h; cases h

/-- A fallible traversal succeeds exactly when every element does. -/
theorem mapM_eq_ok {f : α → Except ε β} {xs : List α} {ys : List β} :
    xs.mapM f = .ok ys ↔ List.Forall₂ (fun x y => f x = .ok y) xs ys := by
  induction xs generalizing ys with
  | nil =>
    rw [List.mapM_nil, List.forall₂_nil_left_iff]
    exact ⟨fun h => (Except.ok.inj h).symm, fun h => h ▸ rfl⟩
  | cons x xs ih =>
    rw [List.mapM_cons, bind_eq_ok]
    constructor
    · rintro ⟨y, hy, h⟩
      obtain ⟨zs, hz, h⟩ := bind_eq_ok.mp h
      cases h
      exact .cons hy (ih.mp hz)
    · intro h
      cases h with
      | cons hy hz => exact ⟨_, hy, bind_eq_ok.mpr ⟨_, ih.mpr hz, rfl⟩⟩

/-- Traversing with a reader that has an inverse on good values. -/
theorem mapM_inverse {f : α → Except ε β} {g : β → α} {p : β → Prop}
    (h : ∀ x y, f x = .ok y ↔ p y ∧ x = g y) {xs : List α} {ys : List β} :
    xs.mapM f = .ok ys ↔ (∀ y ∈ ys, p y) ∧ xs = ys.map g := by
  rw [mapM_eq_ok]
  constructor
  · intro hall
    induction hall with
    | nil => exact ⟨by simp, rfl⟩
    | @cons x y xs ys hxy _ ih =>
      obtain ⟨hy, rfl⟩ := (h x y).mp hxy
      obtain ⟨hys, rfl⟩ := ih
      exact ⟨List.forall_mem_cons.mpr ⟨hy, hys⟩, rfl⟩
  · rintro ⟨hys, rfl⟩
    rw [List.forall₂_map_left_iff, List.forall₂_same]
    intro y hy
    exact (h _ _).mpr ⟨hys y hy, rfl⟩

/-- A traversal fails with an error of one of its steps. -/
theorem mapM_eq_error {f : α → Except ε β} {xs : List α} {e : ε} (h : xs.mapM f = .error e) :
    ∃ x ∈ xs, f x = .error e := by
  induction xs with
  | nil => cases h
  | cons x xs ih =>
    rw [List.mapM_cons] at h
    rcases bind_eq_error.mp h with hx | ⟨y, _, h⟩
    · exact ⟨x, List.mem_cons_self, hx⟩
    · rcases bind_eq_error.mp h with hxs | ⟨ys, _, h⟩
      · obtain ⟨x', hmem, hx'⟩ := ih hxs
        exact ⟨x', List.mem_cons_of_mem _ hmem, hx'⟩
      · cases h

theorem mapM_of_forall {f : α → Except ε β} {g : α → β} {xs : List α}
    (h : ∀ x ∈ xs, f x = .ok (g x)) : xs.mapM f = .ok (xs.map g) := by
  rw [mapM_eq_ok, List.forall₂_map_right_iff]
  exact List.forall₂_same.mpr h

theorem mapM_eq_ok_mem {f : α → Except ε β} {xs : List α} {ys : List β} {x : α}
    (h : xs.mapM f = .ok ys) (hx : x ∈ xs) : ∃ y, f x = .ok y := by
  have hall := mapM_eq_ok.mp h
  clear h
  induction hall with
  | nil => cases hx
  | cons hy _ ih =>
    rcases List.mem_cons.mp hx with rfl | hx
    · exact ⟨_, hy⟩
    · exact ih hx

/-- A fold whose steps each append a piece appends all the pieces. -/
theorem foldlM_append {f : List β → α → Except ε (List β)} {g : α → List β} {xs : List α}
    (h : ∀ x ∈ xs, ∀ out, f out x = .ok (out ++ g x)) (out : List β) :
    xs.foldlM f out = .ok (out ++ xs.flatMap g) := by
  induction xs generalizing out with
  | nil => exact congrArg Except.ok (List.append_nil out).symm
  | cons x xs ih =>
    obtain ⟨hx, hxs⟩ := List.forall_mem_cons.mp h
    rw [List.foldlM_cons, bind_eq_ok]
    refine ⟨_, hx out, ?_⟩
    rw [ih hxs, List.flatMap_cons, List.append_assoc]

/-- A fold whose steps each append a piece where they are allowed. -/
theorem foldlM_append_eq_ok {f : List β → α → Except ε (List β)} {p : α → Prop} {g : α → List β}
    (h : ∀ x out out', f out x = .ok out' ↔ p x ∧ out' = out ++ g x) {xs : List α}
    {out out' : List β} :
    xs.foldlM f out = .ok out' ↔ (∀ x ∈ xs, p x) ∧ out' = out ++ xs.flatMap g := by
  induction xs generalizing out with
  | nil =>
    rw [List.foldlM_nil, List.flatMap_nil, List.append_nil]
    constructor
    · intro h
      cases h
      exact ⟨fun _ hx => absurd hx List.not_mem_nil, rfl⟩
    · rintro ⟨_, rfl⟩
      rfl
  | cons x xs ih =>
    rw [List.foldlM_cons, bind_eq_ok, List.forall_mem_cons, List.flatMap_cons]
    constructor
    · rintro ⟨next, hstep, hrest⟩
      obtain ⟨hx, rfl⟩ := (h x out next).mp hstep
      obtain ⟨hxs, rfl⟩ := ih.mp hrest
      exact ⟨⟨hx, hxs⟩, List.append_assoc _ _ _⟩
    · rintro ⟨⟨hx, hxs⟩, rfl⟩
      exact ⟨_, (h x out _).mpr ⟨hx, rfl⟩, ih.mpr ⟨hxs, (List.append_assoc _ _ _).symm⟩⟩

theorem forM_eq_ok {f : α → Except ε PUnit.{u + 1}} {xs : List α} {u : PUnit} :
    xs.forM f = .ok u ↔ ∀ x ∈ xs, f x = .ok ⟨⟩ := by
  induction xs with
  | nil => exact ⟨fun _ _ hx => absurd hx List.not_mem_nil, fun _ => rfl⟩
  | cons x xs ih =>
    rw [List.forall_mem_cons, ← ih]
    have hcons : (x :: xs).forM f = f x >>= fun _ => xs.forM f := rfl
    rw [hcons, bind_eq_ok]
    constructor
    · rintro ⟨_, hx, hxs⟩
      exact ⟨hx, hxs⟩
    · rintro ⟨hx, hxs⟩
      exact ⟨_, hx, hxs⟩

/-- Pieces of a prefix-free code, strung together, come apart in one way. -/
theorem flatMap_append_inj {f : α → List β} {p : α → Prop} {xs ys : List α} {r r' : List β}
    (hf : ∀ x ∈ xs, ∀ {y s s'}, p y → f x ++ s = f y ++ s' → x = y ∧ s = s')
    (hp : ∀ y ∈ ys, p y) (hlen : xs.length = ys.length)
    (h : xs.flatMap f ++ r = ys.flatMap f ++ r') : xs = ys ∧ r = r' := by
  induction xs generalizing ys with
  | nil =>
    obtain rfl := List.eq_nil_of_length_eq_zero hlen.symm
    exact ⟨rfl, h⟩
  | cons x xs ih =>
    cases ys with
    | nil => cases hlen
    | cons y ys =>
      obtain ⟨hx, hxs⟩ := List.forall_mem_cons.mp hf
      obtain ⟨hy, hys⟩ := List.forall_mem_cons.mp hp
      rw [List.flatMap_cons, List.flatMap_cons, List.append_assoc, List.append_assoc] at h
      obtain ⟨rfl, hrest⟩ := hx hy h
      obtain ⟨rfl, hr⟩ := ih hxs hys (Nat.succ.inj hlen) hrest
      exact ⟨rfl, hr⟩

theorem exists_of_mem_right {R : α → β → Prop} {xs : List α} {ys : List β}
    (h : List.Forall₂ R xs ys) {y : β} (hy : y ∈ ys) : ∃ x ∈ xs, R x y := by
  induction h with
  | nil => cases hy
  | cons hr _ ih =>
    rcases List.mem_cons.mp hy with rfl | hy
    · exact ⟨_, List.mem_cons_self, hr⟩
    · obtain ⟨x, hx, hr⟩ := ih hy
      exact ⟨x, List.mem_cons_of_mem _ hx, hr⟩

theorem forall₂_concat {R : α → β → Prop} {xs : List α} {ys : List β} {x : α} {y : β}
    (h : List.Forall₂ R xs ys) (hr : R x y) : List.Forall₂ R (xs ++ [x]) (ys ++ [y]) :=
  List.rel_append h (.cons hr .nil)

/-- Elements without a property come before the first one that has it. -/
theorem prefix_before {p : α → Prop} {front back before after : List α} {x : α}
    (hfront : ∀ y ∈ front, ¬ p y) (h : front ++ back = before ++ x :: after) (hx : p x) :
    front <+: before := by
  rcases List.append_eq_append_iff.mp h with ⟨rest, rfl, _⟩ | ⟨rest, rfl, hrest⟩
  · exact List.prefix_append _ _
  · cases rest with
    | nil => exact ⟨[], by simp⟩
    | cons y rest =>
      obtain rfl := (List.cons.inj hrest).1
      exact absurd hx (hfront x (by simp))

end ListTraversal
