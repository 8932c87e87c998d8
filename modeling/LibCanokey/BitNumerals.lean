import Mathlib.Data.List.Induction
import LibCanokey.BigEndian

/-! # Bit strings of byte numerals

The bits of a byte string, most significant first, and the number that a bit string writes. A
leading part of the bits writes a quotient by a power of two. -/
namespace BitNumerals

open BigEndian

/-- The low `w` bits of `n`, most significant first. -/
def toBits : ℕ → ℕ → List Bool
  | 0, _ => []
  | w + 1, n => n.testBit w :: toBits w n

def ofBits (bits : List Bool) : ℕ := bits.foldl (fun v bit => v * 2 + bit.toNat) 0

def bitsOf (bytes : Bytes) : List Bool := bytes.flatMap fun b => toBits 8 b.toNat

@[simp] theorem length_toBits (w n : ℕ) : (toBits w n).length = w := by
  induction w with
  | zero => rfl
  | succ w ih => rw [toBits, List.length_cons, ih]

theorem length_bitsOf (bytes : Bytes) : (bitsOf bytes).length = 8 * bytes.length := by
  induction bytes with
  | nil => rfl
  | cons b bytes ih =>
    have hcons : bitsOf (b :: bytes) = toBits 8 b.toNat ++ bitsOf bytes := rfl
    rw [hcons, List.length_append, length_toBits, ih, List.length_cons]
    omega

theorem bitsOf_append (as bs : Bytes) : bitsOf (as ++ bs) = bitsOf as ++ bitsOf bs :=
  List.flatMap_append

/-- Whole leading bytes are a leading part of the bits. -/
theorem bitsOf_take (bytes : Bytes) (n : ℕ) :
    bitsOf (bytes.take n) = (bitsOf bytes).take (8 * n) := by
  by_cases hn : n ≤ bytes.length
  · have hlen : (bitsOf (bytes.take n)).length = 8 * n := by
      rw [length_bitsOf, List.length_take, Nat.min_eq_left hn]
    have hsplit : bitsOf bytes = bitsOf (bytes.take n) ++ bitsOf (bytes.drop n) := by
      rw [← bitsOf_append, List.take_append_drop]
    rw [hsplit, ← hlen, List.take_left]
  · rw [List.take_of_length_le (by omega), List.take_of_length_le]
    rw [length_bitsOf]
    omega

theorem ofBits_append (xs ys : List Bool) :
    ofBits (xs ++ ys) = ofBits xs * 2 ^ ys.length + ofBits ys := by
  induction ys using List.reverseRecOn with
  | nil => simp [ofBits]
  | append_singleton ys y ih =>
    have hlast (zs : List Bool) : ofBits (zs ++ [y]) = ofBits zs * 2 + y.toNat := by
      simp [ofBits]
    rw [← List.append_assoc, hlast, hlast, ih, List.length_append, List.length_singleton,
      Nat.pow_succ]
    ring

theorem ofBits_lt (bits : List Bool) : ofBits bits < 2 ^ bits.length := by
  induction bits using List.reverseRecOn with
  | nil => decide
  | append_singleton bits bit ih =>
    have hbit : ofBits [bit] < 2 := by cases bit <;> decide
    rw [ofBits_append, List.length_append, List.length_singleton, Nat.pow_succ]
    omega

theorem ofBits_toBits (w n : ℕ) : ofBits (toBits w n) = n % 2 ^ w := by
  induction w with
  | zero => rw [Nat.pow_zero, Nat.mod_one]; rfl
  | succ w ih =>
    have hcons : toBits (w + 1) n = [n.testBit w] ++ toBits w n := rfl
    have hbit : ofBits [n.testBit w] = n / 2 ^ w % 2 := by
      rw [← Nat.toNat_testBit]
      simp [ofBits]
    rw [hcons, ofBits_append, length_toBits, ih, hbit, Nat.pow_succ, Nat.mod_mul]
    ring

/-- The bits of a byte string write what the byte string writes. -/
theorem ofBits_bitsOf (bytes : Bytes) : ofBits (bitsOf bytes) = ofBeBytes bytes := by
  induction bytes with
  | nil => rfl
  | cons b bytes ih =>
    have hcons : bitsOf (b :: bytes) = toBits 8 b.toNat ++ bitsOf bytes := rfl
    have hb : b.toNat % 2 ^ 8 = b.toNat := Nat.mod_eq_of_lt (byte_lt b)
    rw [hcons, ofBits_append, ofBits_toBits, hb, ih, length_bitsOf, ofBeBytes_cons, Nat.pow_mul]

/-- The leading bits write the quotient by the power of two of what they leave. -/
theorem ofBits_take (bits : List Bool) (n : ℕ) :
    ofBits (bits.take n) = ofBits bits / 2 ^ (bits.length - n) := by
  have hlt := ofBits_lt (bits.drop n)
  have hsplit : ofBits bits =
      ofBits (bits.take n) * 2 ^ (bits.drop n).length + ofBits (bits.drop n) := by
    rw [← ofBits_append, List.take_append_drop]
  rw [List.length_drop] at hlt hsplit
  have hpos : 0 < 2 ^ (bits.length - n) := Nat.pow_pos (by decide)
  rw [hsplit, Nat.mul_comm, Nat.mul_add_div hpos, Nat.div_eq_of_lt hlt, Nat.add_zero]

/-- The number that leading bits of a byte string write. -/
theorem ofBits_take_bitsOf (bytes : Bytes) (n : ℕ) :
    ofBits ((bitsOf bytes).take n) = ofBeBytes bytes / 2 ^ (8 * bytes.length - n) := by
  rw [ofBits_take, ofBits_bitsOf, length_bitsOf]

end BitNumerals
