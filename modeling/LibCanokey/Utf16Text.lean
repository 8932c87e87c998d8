import Mathlib.Algebra.Group.Nat.Defs
import Mathlib.Data.List.Basic

/-! # Texts in UTF-16

The code units of a text, a decoder that reports every surrogate it cannot pair, and the units
between which and texts the two go back and forth. -/
namespace Utf16Text

def High (u : ℕ) : Prop := 0xd800 ≤ u ∧ u < 0xdc00

def Low (u : ℕ) : Prop := 0xdc00 ≤ u ∧ u < 0xe000

instance (u : ℕ) : Decidable (High u) := inferInstanceAs (Decidable (_ ∧ _))

instance (u : ℕ) : Decidable (Low u) := inferInstanceAs (Decidable (_ ∧ _))

def unitsOf (c : Char) : List ℕ :=
  if c.toNat < 0x10000 then [c.toNat]
  else [0xd800 + (c.toNat - 0x10000) / 0x400, 0xdc00 + (c.toNat - 0x10000) % 0x400]

def encode (text : List Char) : List ℕ := text.flatMap unitsOf

/-- The character of a surrogate pair. -/
def pairOf (high low : ℕ) : Char :=
  Char.ofNat (0x10000 + (high - 0xd800) * 0x400 + (low - 0xdc00))

/-- The characters in order, with `none` for a surrogate that has no partner. -/
def items : List ℕ → List (Option Char)
  | [] => []
  | u :: rest =>
    if High u then
      match rest with
      | [] => [none]
      | v :: rest' => if Low v then some (pairOf u v) :: items rest' else none :: items (v :: rest')
    else if Low u then none :: items rest
    else some (Char.ofNat u) :: items rest

def replacement : Char := Char.ofNat 0xfffd

/-- The decoding that replaces what it cannot read. -/
def lossy (units : List ℕ) : List Char := (items units).map fun item => item.getD replacement

/-- Every surrogate stands beside its partner. -/
structure Paired (units : List ℕ) : Prop where
  high : ∀ i u, units[i]? = some u → High u → ∃ v, units[i + 1]? = some v ∧ Low v
  low : ∀ i v, units[i]? = some v → Low v → ∃ j u, i = j + 1 ∧ units[j]? = some u ∧ High u

section units

variable {c : Char} {text : List Char} {u v : ℕ} {units rest : List ℕ}

theorem High.not_low (h : High u) : ¬ Low u := by
  intro hlow
  have hhigh := h.2
  have hle := hlow.1
  omega

/-- A character is a scalar value. -/
theorem scalar (c : Char) : ¬ High c.toNat ∧ ¬ Low c.toNat ∧ c.toNat < 0x110000 := by
  have hvalid : c.toNat.isValidChar := c.valid
  simp only [High, Low]
  rcases hvalid with h | ⟨hlow, hhigh⟩
  · omega
  · omega

/-- The units of a character beyond the first plane are a pair, and give it back. -/
theorem pairOf_units (h : ¬ c.toNat < 0x10000) :
    High (0xd800 + (c.toNat - 0x10000) / 0x400) ∧ Low (0xdc00 + (c.toNat - 0x10000) % 0x400) ∧
      pairOf (0xd800 + (c.toNat - 0x10000) / 0x400) (0xdc00 + (c.toNat - 0x10000) % 0x400) = c := by
  obtain ⟨_, _, hmax⟩ := scalar c
  refine ⟨?_, ?_, ?_⟩
  · simp only [High]
    omega
  · simp only [Low]
    omega
  · have hvalue : 0x10000 + (0xd800 + (c.toNat - 0x10000) / 0x400 - 0xd800) * 0x400 +
        (0xdc00 + (c.toNat - 0x10000) % 0x400 - 0xdc00) = c.toNat := by omega
    rw [pairOf, hvalue, Char.ofNat_toNat]

theorem items_plain (hhigh : ¬ High u) (hlow : ¬ Low u) :
    items (u :: rest) = some (Char.ofNat u) :: items rest := by
  rw [items.eq_def]
  dsimp only
  rw [if_neg hhigh, if_neg hlow]

theorem items_low (hlow : Low u) : items (u :: rest) = none :: items rest := by
  rw [items.eq_def]
  dsimp only
  rw [if_neg fun h : High u => h.not_low hlow, if_pos hlow]

theorem items_pair (hu : High u) (hv : Low v) :
    items (u :: v :: rest) = some (pairOf u v) :: items rest := by
  rw [items, if_pos hu, if_pos hv]

theorem items_lone (hu : High u) (hv : ¬ Low v) :
    items (u :: v :: rest) = none :: items (v :: rest) := by
  rw [items, if_pos hu, if_neg hv]

theorem items_units (c : Char) (rest : List ℕ) :
    items (unitsOf c ++ rest) = some c :: items rest := by
  obtain ⟨hhigh, hlow, _⟩ := scalar c
  by_cases h : c.toNat < 0x10000
  · rw [unitsOf, if_pos h, List.singleton_append, items_plain hhigh hlow, Char.ofNat_toNat]
  · obtain ⟨hfirst, hsecond, hpair⟩ := pairOf_units h
    rw [unitsOf, if_neg h]
    change items (_ :: _ :: rest) = _
    rw [items_pair hfirst hsecond, hpair]

/-- Every character of an encoded text is read back. -/
theorem items_encode (text : List Char) : items (encode text) = text.map some := by
  induction text with
  | nil => rfl
  | cons c text ih =>
    rw [encode, List.flatMap_cons, items_units, List.map_cons]
    exact congrArg _ ih

theorem lossy_encode (text : List Char) : lossy (encode text) = text := by
  rw [lossy, items_encode, List.map_map]
  exact List.map_id text

theorem unitsOf_lt (h : u ∈ unitsOf c) : u < 2 ^ 16 := by
  obtain ⟨_, _, hmax⟩ := scalar c
  simp only [unitsOf] at h
  split_ifs at h
  · rw [List.mem_singleton.mp h]
    omega
  · simp only [List.mem_cons, List.not_mem_nil, or_false] at h
    omega

theorem encode_lt (h : u ∈ encode text) : u < 2 ^ 16 := by
  obtain ⟨c, _, hu⟩ := List.mem_flatMap.mp h
  exact unitsOf_lt hu

/-- The zero unit is that of the zero character alone. -/
theorem zero_mem_encode : 0 ∈ encode text ↔ Char.ofNat 0 ∈ text := by
  have hunit (c : Char) : 0 ∈ unitsOf c ↔ c = Char.ofNat 0 := by
    rw [unitsOf]
    split_ifs with h
    · rw [List.mem_singleton]
      constructor
      · intro hzero
        rw [← Char.ofNat_toNat c, ← hzero]
      · rintro rfl
        rfl
    · simp only [List.mem_cons, List.not_mem_nil, or_false]
      constructor
      · intro hzero
        omega
      · rintro rfl
        exact absurd (show (Char.ofNat 0).toNat < 0x10000 by decide) h
  simp [encode, List.mem_flatMap, hunit]

theorem unitsOf_single (hu : u < 2 ^ 16) (hhigh : ¬ High u) (hlow : ¬ Low u) :
    unitsOf (Char.ofNat u) = [u] := by
  have hvalid : u.isValidChar := by
    simp only [High, Low] at hhigh hlow
    rw [Nat.isValidChar]
    omega
  have hvalue : (Char.ofNat u).toNat = u := by
    rw [Char.ofNat, dif_pos hvalid]
    rfl
  rw [unitsOf, hvalue, if_pos (by omega)]

theorem unitsOf_pairOf (hu : High u) (hv : Low v) : unitsOf (pairOf u v) = [u, v] := by
  simp only [High] at hu
  simp only [Low] at hv
  have hvalid : (0x10000 + (u - 0xd800) * 0x400 + (v - 0xdc00)).isValidChar := by
    rw [Nat.isValidChar]
    omega
  have hvalue : (pairOf u v).toNat = 0x10000 + (u - 0xd800) * 0x400 + (v - 0xdc00) := by
    rw [pairOf, Char.ofNat, dif_pos hvalid]
    rfl
  have hfirst : 0xd800 + ((pairOf u v).toNat - 0x10000) / 0x400 = u := by
    rw [hvalue]
    omega
  have hsecond : 0xdc00 + ((pairOf u v).toNat - 0x10000) % 0x400 = v := by
    rw [hvalue]
    omega
  rw [unitsOf, if_neg (by omega), hfirst, hsecond]

theorem cons_eq_map_some {α : Type} {x : Option α} {xs : List (Option α)} {ys : List α} :
    x :: xs = ys.map some ↔ ∃ y rest, x = some y ∧ ys = y :: rest ∧ xs = rest.map some := by
  cases ys with
  | nil => simp
  | cons y ys =>
    rw [List.map_cons, List.cons.injEq]
    constructor
    · rintro ⟨hx, hxs⟩
      exact ⟨y, ys, hx, rfl, hxs⟩
    · rintro ⟨_, _, hx, hys, hxs⟩
      cases hys
      exact ⟨hx, hxs⟩

/-- Units that are all read are those of the text that was read. -/
theorem encode_of_items (hlt : ∀ u ∈ units, u < 2 ^ 16) (h : items units = text.map some) :
    encode text = units := by
  fun_induction items units generalizing text with
  | case1 =>
    rw [List.map_eq_nil_iff.mp h.symm]
    rfl
  | case3 u hu v rest hv ih =>
    obtain ⟨_, tail, hc, rfl, htail⟩ := cons_eq_map_some.mp h
    obtain rfl := Option.some.inj hc
    obtain ⟨_, hrest⟩ := List.forall_mem_cons.mp hlt
    rw [encode, List.flatMap_cons, unitsOf_pairOf hu hv]
    exact congrArg _ (ih (List.forall_mem_cons.mp hrest).2 htail)
  | case6 u rest hhigh hlow ih =>
    obtain ⟨_, tail, hc, rfl, htail⟩ := cons_eq_map_some.mp h
    obtain rfl := Option.some.inj hc
    obtain ⟨hu, hrest⟩ := List.forall_mem_cons.mp hlt
    rw [encode, List.flatMap_cons, unitsOf_single hu hhigh hlow]
    exact congrArg _ (ih hrest htail)
  | case2 | case4 | case5 =>
    obtain ⟨_, _, hnone, _⟩ := cons_eq_map_some.mp h
    cases hnone

end units

section paired

variable {text : List Char} {u v : ℕ} {units rest : List ℕ}

theorem paired_nil : Paired [] := by
  refine ⟨?_, ?_⟩
  · intro i u h
    cases h
  · intro i u h
    cases h

/-- A unit that is no surrogate does not matter. -/
theorem paired_cons (hhigh : ¬ High u) (hlow : ¬ Low u) : Paired (u :: rest) ↔ Paired rest := by
  constructor
  · rintro ⟨hnext, hbefore⟩
    refine ⟨fun i w => hnext (i + 1) w, ?_⟩
    intro i w hw hwlow
    obtain ⟨j, x, hij, hx, hxhigh⟩ := hbefore (i + 1) w hw hwlow
    obtain rfl := Nat.succ.inj hij
    cases i with
    | zero =>
      obtain rfl := Option.some.inj hx
      exact absurd hxhigh hhigh
    | succ i => exact ⟨i, x, rfl, hx, hxhigh⟩
  · rintro ⟨hnext, hbefore⟩
    refine ⟨?_, ?_⟩
    · intro i w hw hwhigh
      cases i with
      | zero =>
        obtain rfl := Option.some.inj hw
        exact absurd hwhigh hhigh
      | succ i => exact hnext i w hw hwhigh
    · intro i w hw hwlow
      cases i with
      | zero =>
        obtain rfl := Option.some.inj hw
        exact absurd hwlow hlow
      | succ i =>
        obtain ⟨j, x, rfl, hx, hxhigh⟩ := hbefore i w hw hwlow
        exact ⟨j + 1, x, rfl, hx, hxhigh⟩

theorem paired_pair (hu : High u) (hv : Low v) : Paired (u :: v :: rest) ↔ Paired rest := by
  constructor
  · rintro ⟨hnext, hbefore⟩
    refine ⟨fun i w => hnext (i + 2) w, ?_⟩
    intro i w hw hwlow
    obtain ⟨j, x, hij, hx, hxhigh⟩ := hbefore (i + 2) w hw hwlow
    obtain rfl : j = i + 1 := (Nat.succ.inj hij).symm
    cases i with
    | zero =>
      obtain rfl := Option.some.inj hx
      exact absurd hv hxhigh.not_low
    | succ i => exact ⟨i, x, rfl, hx, hxhigh⟩
  · rintro ⟨hnext, hbefore⟩
    refine ⟨?_, ?_⟩
    · intro i w hw hwhigh
      match i, hw with
      | 0, _ => exact ⟨v, rfl, hv⟩
      | 1, hw =>
        obtain rfl := Option.some.inj hw
        exact absurd hv hwhigh.not_low
      | i + 2, hw => exact hnext i w hw hwhigh
    · intro i w hw hwlow
      match i, hw with
      | 0, hw =>
        obtain rfl := Option.some.inj hw
        exact absurd hwlow hu.not_low
      | 1, _ => exact ⟨0, u, rfl, rfl, hu⟩
      | i + 2, hw =>
        obtain ⟨j, x, rfl, hx, hxhigh⟩ := hbefore i w hw hwlow
        exact ⟨j + 2, x, rfl, hx, hxhigh⟩

theorem Paired.partner (h : Paired (u :: rest)) (hu : High u) :
    ∃ v rest', rest = v :: rest' ∧ Low v := by
  obtain ⟨v, hv, hlow⟩ := h.high 0 u rfl hu
  cases rest with
  | nil => cases hv
  | cons w rest =>
    obtain rfl := Option.some.inj hv
    exact ⟨w, rest, rfl, hlow⟩

theorem Paired.head_not_low (h : Paired (u :: rest)) : ¬ Low u := by
  intro hu
  obtain ⟨j, _, hj, _⟩ := h.low 0 u rfl hu
  cases hj

theorem paired_encode (text : List Char) : Paired (encode text) := by
  induction text with
  | nil => exact paired_nil
  | cons c text ih =>
    have hsplit : encode (c :: text) = unitsOf c ++ encode text := rfl
    obtain ⟨hhigh, hlow, _⟩ := scalar c
    by_cases h : c.toNat < 0x10000
    · rw [hsplit, unitsOf, if_pos h]
      exact (paired_cons hhigh hlow).mpr ih
    · obtain ⟨hfirst, hsecond, _⟩ := pairOf_units h
      rw [hsplit, unitsOf, if_neg h]
      exact (paired_pair hfirst hsecond).mpr ih

/-- Paired units are those of a text. A character takes one unit or two. -/
theorem exists_text (h : Paired units) (hlt : ∀ u ∈ units, u < 2 ^ 16) :
    ∃ text, encode text = units := by
  induction hlen : units.length using Nat.strongRecOn generalizing units with
  | ind n ih =>
    cases units with
    | nil => exact ⟨[], rfl⟩
    | cons u rest =>
      obtain ⟨hu, hrest⟩ := List.forall_mem_cons.mp hlt
      rw [List.length_cons] at hlen
      by_cases hhigh : High u
      · obtain ⟨v, rest', rfl, hv⟩ := h.partner hhigh
        obtain ⟨_, hrest'⟩ := List.forall_mem_cons.mp hrest
        rw [List.length_cons] at hlen
        obtain ⟨text, htext⟩ :=
          ih rest'.length (by omega) ((paired_pair hhigh hv).mp h) hrest' rfl
        refine ⟨pairOf u v :: text, ?_⟩
        rw [encode, List.flatMap_cons, unitsOf_pairOf hhigh hv]
        exact congrArg _ htext
      · have hlow := h.head_not_low
        obtain ⟨text, htext⟩ :=
          ih rest.length (by omega) ((paired_cons hhigh hlow).mp h) hrest rfl
        refine ⟨Char.ofNat u :: text, ?_⟩
        rw [encode, List.flatMap_cons, unitsOf_single hu hhigh hlow]
        exact congrArg _ htext

end paired

end Utf16Text
