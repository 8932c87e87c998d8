import LibCanokey.BigEndian

/-! # Checked machine arithmetic and slicing

Additions and products that fail beyond the machine word, and the slices a reader takes
out of a byte list at a cursor. -/
namespace CheckedCursor

open BigEndian

def usizeMax : ℕ := 2 ^ 64 - 1

def checkedAdd (a b : ℕ) : Option ℕ := if a + b ≤ usizeMax then some (a + b) else none

def checkedMul (a b : ℕ) : Option ℕ := if a * b ≤ usizeMax then some (a * b) else none

def saturatingAdd (a b : ℕ) : ℕ := min usizeMax (a + b)

theorem checkedAdd_eq_some {a b c : ℕ} :
    checkedAdd a b = some c ↔ a + b = c ∧ a + b ≤ usizeMax := by
  simp only [checkedAdd]
  split_ifs with h <;> simp [h]

theorem checkedAdd_of_le {a b : ℕ} (h : a + b ≤ usizeMax) : checkedAdd a b = some (a + b) :=
  if_pos h

theorem checkedMul_of_le {a b : ℕ} (h : a * b ≤ usizeMax) : checkedMul a b = some (a * b) :=
  if_pos h

/-- A big-endian numeral read with every step checked. -/
def checkedOfBeBytes (bs : Bytes) : Option ℕ :=
  bs.foldlM (fun v b => (checkedMul v 256).bind (checkedAdd · b.toNat)) 0

private theorem checkedFold_of_le (bs : Bytes) (v : ℕ)
    (h : v * 256 ^ bs.length + ofBeBytes bs ≤ usizeMax) :
    bs.foldlM (fun v b => (checkedMul v 256).bind (checkedAdd · b.toNat)) v =
      some (v * 256 ^ bs.length + ofBeBytes bs) := by
  induction bs generalizing v with
  | nil => simp
  | cons b bs ih =>
    have hsum : v * 256 ^ (b :: bs).length + ofBeBytes (b :: bs) =
        (v * 256 + b.toNat) * 256 ^ bs.length + ofBeBytes bs := by
      rw [ofBeBytes_cons, List.length_cons]
      ring
    rw [hsum] at h ⊢
    have hpow : 1 ≤ 256 ^ bs.length := Nat.one_le_pow _ _ (by decide)
    have hle : v * 256 + b.toNat ≤ usizeMax :=
      calc v * 256 + b.toNat
          ≤ (v * 256 + b.toNat) * 256 ^ bs.length := Nat.le_mul_of_pos_right _ hpow
        _ ≤ usizeMax := Nat.le_trans (Nat.le_add_right _ _) h
    have hmul : v * 256 ≤ usizeMax := Nat.le_trans (Nat.le_add_right _ _) hle
    rw [List.foldlM_cons, checkedMul_of_le hmul, Option.bind_some, checkedAdd_of_le hle]
    exact ih _ h

theorem checkedOfBeBytes_of_le {bs : Bytes} (h : ofBeBytes bs ≤ usizeMax) :
    checkedOfBeBytes bs = some (ofBeBytes bs) := by
  have hf := checkedFold_of_le bs 0 (by simpa using h)
  simpa [checkedOfBeBytes] using hf

/-- The bytes from `start` up to `stop`, when both lie inside the list. -/
def slice (bs : Bytes) (start stop : ℕ) : Option Bytes :=
  if start ≤ stop ∧ stop ≤ bs.length then some ((bs.drop start).take (stop - start)) else none

theorem slice_complete {bs s rest : Bytes} {start : ℕ} (hle : start ≤ bs.length)
    (h : bs.drop start = s ++ rest) : slice bs start (start + s.length) = some s := by
  have hlen : bs.length - start = s.length + rest.length := by
    rw [← List.length_drop, h, List.length_append]
  rw [slice, if_pos (by omega), h, Nat.add_sub_cancel_left, List.take_left]

theorem slice_sound {bs s : Bytes} {start stop : ℕ} (h : slice bs start stop = some s) :
    start + s.length = stop ∧ stop ≤ bs.length ∧ bs.drop start = s ++ bs.drop stop := by
  simp only [slice] at h
  split_ifs at h with hb
  obtain rfl := Option.some.inj h
  have hlen : ((bs.drop start).take (stop - start)).length = stop - start := by
    rw [List.length_take, List.length_drop]
    omega
  refine ⟨by omega, hb.2, ?_⟩
  have hd : bs.drop stop = (bs.drop start).drop (stop - start) := by
    rw [List.drop_drop]
    congr 1
    omega
  rw [hd, List.take_append_drop]

/-- The cursor sees exactly the head of what is left. -/
theorem getElem?_of_drop {bs rest : Bytes} {b : Byte} {pos : ℕ} (h : bs.drop pos = b :: rest) :
    bs[pos]? = some b := by
  rw [← List.head?_drop, h, List.head?_cons]

theorem drop_of_getElem? {bs : Bytes} {b : Byte} {pos : ℕ} (h : bs[pos]? = some b) :
    bs.drop pos = b :: bs.drop (pos + 1) := by
  obtain ⟨hlt, rfl⟩ := List.getElem?_eq_some_iff.mp h
  exact List.drop_eq_getElem_cons hlt

theorem drop_add_of_drop {bs s rest : Bytes} {pos : ℕ} (h : bs.drop pos = s ++ rest) :
    bs.drop (pos + s.length) = rest := by
  rw [← List.drop_drop, h, List.drop_left]

/-- From `start` to `stop` the list holds exactly the bytes `s`. -/
structure Consumes (bs : Bytes) (start : ℕ) (s : Bytes) (stop : ℕ) : Prop where
  left : bs.drop start = s ++ bs.drop stop
  stops : start + s.length = stop
  inside : stop ≤ bs.length

theorem slice_eq_some {bs s : Bytes} {start stop : ℕ} :
    slice bs start stop = some s ↔ Consumes bs start s stop := by
  constructor
  · intro h
    obtain ⟨hstop, hin, hdrop⟩ := slice_sound h
    exact ⟨hdrop, hstop, hin⟩
  · rintro ⟨hdrop, rfl, hin⟩
    exact slice_complete (by omega) hdrop

section consumes

variable {bs s t : Bytes} {b : Byte} {i j k : ℕ}

theorem consumes_nil : Consumes bs i [] j ↔ i = j ∧ i ≤ bs.length := by
  constructor
  · rintro ⟨_, rfl, hin⟩
    exact ⟨rfl, hin⟩
  · rintro ⟨rfl, hin⟩
    exact ⟨rfl, rfl, hin⟩

theorem Consumes.trans (hs : Consumes bs i s j) (ht : Consumes bs j t k) :
    Consumes bs i (s ++ t) k := by
  refine ⟨?_, ?_, ht.inside⟩
  · rw [hs.left, ht.left, List.append_assoc]
  · rw [List.length_append, ← ht.stops, ← hs.stops, Nat.add_assoc]

theorem consumes_append :
    Consumes bs i (s ++ t) k ↔ ∃ j, Consumes bs i s j ∧ Consumes bs j t k := by
  constructor
  · rintro ⟨hdrop, hstop, hin⟩
    rw [List.length_append] at hstop
    rw [List.append_assoc] at hdrop
    have hrest := drop_add_of_drop hdrop
    refine ⟨i + s.length, ⟨by rw [hdrop, hrest], rfl, by omega⟩, hrest, by omega, hin⟩
  · rintro ⟨j, hs, ht⟩
    exact hs.trans ht

theorem consumes_cons :
    Consumes bs i (b :: s) j ↔ bs[i]? = some b ∧ Consumes bs (i + 1) s j := by
  constructor
  · rintro ⟨hdrop, hstop, hin⟩
    have hrest := drop_add_of_drop (s := [b]) hdrop
    rw [List.length_cons] at hstop
    exact ⟨getElem?_of_drop hdrop, hrest, by omega, hin⟩
  · rintro ⟨hget, hdrop, hstop, hin⟩
    refine ⟨?_, ?_, hin⟩
    · rw [drop_of_getElem? hget, hdrop, List.cons_append]
    · rw [List.length_cons]
      omega

theorem consumes_all : Consumes bs 0 s bs.length ↔ s = bs := by
  constructor
  · rintro ⟨hdrop, _, _⟩
    rw [List.drop_zero, List.drop_length, List.append_nil] at hdrop
    exact hdrop.symm
  · rintro rfl
    exact ⟨by simp, by simp, le_refl _⟩

theorem consumes_left : Consumes (s ++ t) 0 s s.length := by
  refine ⟨?_, Nat.zero_add _, ?_⟩
  · rw [List.drop_zero, List.drop_left]
  · rw [List.length_append]
    omega

/-- What is left of the list from a place on, read from its own start. -/
theorem consumes_drop (h : i ≤ bs.length) :
    Consumes (bs.drop i) 0 s j ↔ Consumes bs i s (i + j) := by
  constructor
  · rintro ⟨hdrop, hstop, hin⟩
    rw [List.drop_zero, List.drop_drop] at hdrop
    rw [List.length_drop] at hin
    exact ⟨hdrop, by omega, by omega⟩
  · rintro ⟨hdrop, hstop, hin⟩
    refine ⟨?_, by omega, ?_⟩
    · rw [List.drop_zero, List.drop_drop]
      exact hdrop
    · rw [List.length_drop]
      omega

end consumes

end CheckedCursor
