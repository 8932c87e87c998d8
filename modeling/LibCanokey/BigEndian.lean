import Mathlib.Data.Nat.Basic
import Mathlib.Tactic.Ring

/-! # Big-endian byte numerals

Fixed-width big-endian writing and arbitrary-width reading of natural numbers over
byte lists. Writing keeps the low `w` bytes, as a narrowing integer cast does. -/
namespace BigEndian

abbrev Byte := UInt8
abbrev Bytes := List Byte

/-- The low `w` bytes of `n`, most significant first. -/
def toBeBytes : ℕ → ℕ → Bytes
  | 0, _ => []
  | w + 1, n => UInt8.ofNat (n / 256 ^ w) :: toBeBytes w n

def ofBeBytes (bs : Bytes) : ℕ := bs.foldl (fun v b => v * 256 + b.toNat) 0

@[simp] theorem length_toBeBytes (w n : ℕ) : (toBeBytes w n).length = w := by
  induction w with
  | zero => rfl
  | succ w ih => simp [toBeBytes, ih]

theorem byte_ext {a b : Byte} (h : a.toNat = b.toNat) : a = b := UInt8.toNat_inj.mp h

theorem byte_lt (b : Byte) : b.toNat < 256 := b.toNat_lt

@[simp] theorem toNat_ofNat_mod (n : ℕ) : (UInt8.ofNat n).toNat = n % 256 := UInt8.toNat_ofNat'

theorem toNat_ofNat_of_lt {n : ℕ} (h : n < 256) : (UInt8.ofNat n).toNat = n := by
  rw [toNat_ofNat_mod, Nat.mod_eq_of_lt h]

private theorem foldl_shift (bs : Bytes) (v : ℕ) :
    bs.foldl (fun v b => v * 256 + b.toNat) v = v * 256 ^ bs.length + ofBeBytes bs := by
  induction bs generalizing v with
  | nil => simp [ofBeBytes]
  | cons b bs ih =>
    have hb : ofBeBytes (b :: bs) = b.toNat * 256 ^ bs.length + ofBeBytes bs := by
      rw [ofBeBytes, List.foldl_cons, ih, Nat.zero_mul, Nat.zero_add]
    rw [List.foldl_cons, ih, hb, List.length_cons]
    ring

@[simp] theorem ofBeBytes_nil : ofBeBytes [] = 0 := rfl

theorem ofBeBytes_cons (b : Byte) (bs : Bytes) :
    ofBeBytes (b :: bs) = b.toNat * 256 ^ bs.length + ofBeBytes bs := by
  have h := foldl_shift bs b.toNat
  simpa [ofBeBytes] using h

theorem ofBeBytes_lt (bs : Bytes) : ofBeBytes bs < 256 ^ bs.length := by
  induction bs with
  | nil => simp
  | cons b bs ih =>
    rw [ofBeBytes_cons, List.length_cons, Nat.pow_succ]
    have hb : (b.toNat + 1) * 256 ^ bs.length ≤ 256 * 256 ^ bs.length :=
      Nat.mul_le_mul_right _ (byte_lt b)
    rw [Nat.add_mul, Nat.one_mul] at hb
    omega

theorem toBeBytes_mod (w n : ℕ) : toBeBytes w (n % 256 ^ w) = toBeBytes w n := by
  induction w generalizing n with
  | zero => rfl
  | succ w ih =>
    have hm : n % 256 ^ (w + 1) % 256 ^ w = n % 256 ^ w :=
      Nat.mod_mod_of_dvd _ (Nat.pow_dvd_pow 256 (Nat.le_succ w))
    have hd : UInt8.ofNat (n % 256 ^ (w + 1) / 256 ^ w) = UInt8.ofNat (n / 256 ^ w) := by
      apply byte_ext
      rw [toNat_ofNat_mod, toNat_ofNat_mod, Nat.pow_succ, Nat.mod_mul_right_div_self, Nat.mod_mod]
    simp only [toBeBytes]
    rw [hd, ← ih (n % 256 ^ (w + 1)), hm, ih]

/-- Reading back what was written recovers the number up to the width. -/
theorem ofBeBytes_toBeBytes_mod (w n : ℕ) : ofBeBytes (toBeBytes w n) = n % 256 ^ w := by
  induction w with
  | zero => simp [toBeBytes, Nat.mod_one]
  | succ w ih =>
    rw [toBeBytes, ofBeBytes_cons, length_toBeBytes, ih, toNat_ofNat_mod, Nat.pow_succ,
      Nat.mod_mul]
    ring

theorem ofBeBytes_toBeBytes {w n : ℕ} (h : n < 256 ^ w) : ofBeBytes (toBeBytes w n) = n := by
  rw [ofBeBytes_toBeBytes_mod, Nat.mod_eq_of_lt h]

theorem toBeBytes_ofBeBytes (bs : Bytes) : toBeBytes bs.length (ofBeBytes bs) = bs := by
  induction bs with
  | nil => rfl
  | cons b bs ih =>
    have hpos : 0 < 256 ^ bs.length := Nat.pow_pos (by decide)
    have hlt := ofBeBytes_lt bs
    rw [List.length_cons, toBeBytes, ofBeBytes_cons]
    congr 1
    · apply byte_ext
      rw [Nat.mul_comm, Nat.mul_add_div hpos, Nat.div_eq_of_lt hlt, Nat.add_zero]
      exact toNat_ofNat_of_lt (byte_lt b)
    · rw [← toBeBytes_mod, Nat.mul_comm, Nat.mul_add_mod, Nat.mod_eq_of_lt hlt, ih]

theorem ofBeBytes_injective {as bs : Bytes} (hl : as.length = bs.length)
    (h : ofBeBytes as = ofBeBytes bs) : as = bs := by
  rw [← toBeBytes_ofBeBytes as, ← toBeBytes_ofBeBytes bs, hl, h]

theorem toBeBytes_injective {w m n : ℕ} (hm : m < 256 ^ w) (hn : n < 256 ^ w)
    (h : toBeBytes w m = toBeBytes w n) : m = n := by
  rw [← ofBeBytes_toBeBytes hm, ← ofBeBytes_toBeBytes hn, h]

/-- A nonzero leading byte bounds the value from below: the width is minimal. -/
theorem le_ofBeBytes_cons {b : Byte} {bs : Bytes} (h : b ≠ 0) :
    256 ^ bs.length ≤ ofBeBytes (b :: bs) := by
  have hb : 1 ≤ b.toNat := by
    have hne : b.toNat ≠ 0 := fun hz => h (byte_ext hz)
    omega
  rw [ofBeBytes_cons]
  calc 256 ^ bs.length = 1 * 256 ^ bs.length := (Nat.one_mul _).symm
    _ ≤ b.toNat * 256 ^ bs.length := Nat.mul_le_mul_right _ hb
    _ ≤ _ := Nat.le_add_right _ _

/-- Two numerals without a leading zero byte that read alike are the same bytes. -/
theorem minimal_injective {a b : Byte} {as bs : Bytes} (ha : a ≠ 0) (hb : b ≠ 0)
    (h : ofBeBytes (a :: as) = ofBeBytes (b :: bs)) : a :: as = b :: bs := by
  have hlow : 256 ^ as.length ≤ ofBeBytes (a :: as) := le_ofBeBytes_cons ha
  have hlow' : 256 ^ bs.length ≤ ofBeBytes (b :: bs) := le_ofBeBytes_cons hb
  have hup := ofBeBytes_lt (a :: as)
  have hup' := ofBeBytes_lt (b :: bs)
  rw [h] at hlow hup
  have h1 := (Nat.pow_lt_pow_iff_right (by decide : 1 < 256)).mp (hlow.trans_lt hup')
  have h2 := (Nat.pow_lt_pow_iff_right (by decide : 1 < 256)).mp (hlow'.trans_lt hup)
  rw [List.length_cons] at h1 h2
  exact ofBeBytes_injective (by simp only [List.length_cons]; omega) h

/-- A nonzero numeral is a run of zero bytes up to the first nonzero byte. -/
theorem leading_zeros {bs : Bytes} (h : ofBeBytes bs ≠ 0) :
    ∃ k b rest, bs = List.replicate k 0 ++ b :: rest ∧ b ≠ 0 ∧
      bs.findIdx? (· ≠ 0) = some k := by
  induction bs with
  | nil => exact absurd rfl h
  | cons b bs ih =>
    by_cases hb : b = 0
    · subst hb
      have hbs : ofBeBytes bs ≠ 0 := by
        rw [ofBeBytes_cons] at h
        simpa using h
      obtain ⟨k, c, rest, hk, hc, hi⟩ := ih hbs
      refine ⟨k + 1, c, rest, ?_, hc, ?_⟩
      · rw [List.replicate_succ, List.cons_append, ← hk]
      · rw [List.findIdx?_cons, hi]
        simp
    · exact ⟨0, b, bs, rfl, hb, by simp [List.findIdx?_cons, hb]⟩

theorem ofBeBytes_replicate_zero (k : ℕ) (bs : Bytes) :
    ofBeBytes (List.replicate k 0 ++ bs) = ofBeBytes bs := by
  induction k with
  | zero => rfl
  | succ k ih =>
    rw [List.replicate_succ, List.cons_append, ofBeBytes_cons, ih]
    simp

/-- A numeral written wider than it is gains leading zero bytes only. -/
theorem toBeBytes_add (k : ℕ) (bs : Bytes) :
    toBeBytes (k + bs.length) (ofBeBytes bs) = List.replicate k 0 ++ bs := by
  apply ofBeBytes_injective
  · simp
  · rw [ofBeBytes_replicate_zero, ofBeBytes_toBeBytes]
    calc ofBeBytes bs < 256 ^ bs.length := ofBeBytes_lt bs
      _ ≤ 256 ^ (k + bs.length) := Nat.pow_le_pow_right (by decide) (Nat.le_add_left _ _)

theorem forall_byte {p : Byte → Prop} (h : ∀ n < 256, p (UInt8.ofNat n)) (b : Byte) : p b := by
  rw [← UInt8.ofNat_toNat (x := b)]
  exact h _ (byte_lt b)

/-- The machine's way of reading a numeral: shift a 64-bit word left, or the byte in. -/
def shiftIn (v : UInt64) (b : Byte) : UInt64 := v <<< 8 ||| b.toUInt64

theorem toNat_shiftIn {v : UInt64} {b : Byte} (h : v.toNat * 256 + b.toNat < 2 ^ 64) :
    (shiftIn v b).toNat = v.toNat * 256 + b.toNat := by
  have hb := byte_lt b
  have hlt : v.toNat * 2 ^ 8 < 2 ^ 64 := Nat.lt_of_le_of_lt (Nat.le_add_right _ b.toNat) h
  have hshift : (v <<< 8).toNat = 2 ^ 8 * v.toNat := by
    have h8 : (8 : UInt64).toNat % 64 = 8 := by decide
    rw [UInt64.toNat_shiftLeft, Nat.shiftLeft_eq, h8, Nat.mod_eq_of_lt hlt, Nat.mul_comm]
  rw [shiftIn, UInt64.toNat_or, hshift, UInt8.toNat_toUInt64,
    ← Nat.two_pow_add_eq_or_of_lt (by omega : b.toNat < 2 ^ 8)]
  omega

private theorem foldl_shiftIn {bs : Bytes} {v : UInt64}
    (h : v.toNat * 256 ^ bs.length + ofBeBytes bs < 2 ^ 64) :
    (bs.foldl shiftIn v).toNat = v.toNat * 256 ^ bs.length + ofBeBytes bs := by
  induction bs generalizing v with
  | nil => simp
  | cons b bs ih =>
    have hsum : v.toNat * 256 ^ (b :: bs).length + ofBeBytes (b :: bs) =
        (v.toNat * 256 + b.toNat) * 256 ^ bs.length + ofBeBytes bs := by
      rw [ofBeBytes_cons, List.length_cons]
      ring
    rw [hsum] at h ⊢
    have hle : v.toNat * 256 + b.toNat ≤ (v.toNat * 256 + b.toNat) * 256 ^ bs.length :=
      Nat.le_mul_of_pos_right _ (Nat.pow_pos (by decide))
    have hv : (shiftIn v b).toNat = v.toNat * 256 + b.toNat := toNat_shiftIn (by omega)
    rw [List.foldl_cons, ih (by rw [hv]; exact h), hv]

theorem toNat_foldl_shiftIn {bs : Bytes} (h : bs.length ≤ 8) :
    (bs.foldl shiftIn 0).toNat = ofBeBytes bs := by
  have hlt : ofBeBytes bs < 2 ^ 64 :=
    calc ofBeBytes bs < 256 ^ bs.length := ofBeBytes_lt bs
      _ ≤ 256 ^ 8 := Nat.pow_le_pow_right (by decide) h
      _ = 2 ^ 64 := by decide
  have hf : (bs.foldl shiftIn 0).toNat = (0 : UInt64).toNat * 256 ^ bs.length + ofBeBytes bs :=
    foldl_shiftIn (by simpa using hlt)
  simpa using hf

end BigEndian
