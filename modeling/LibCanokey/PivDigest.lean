import LibCanokey.BitNumerals
import LibCanokey.PivPrivate

/-! # Digests as scalars

What a digest is padded or shifted to before it is signed: the number that the leading bits of
the digest write, as many as the order of the curve has. -/
namespace PivDigest

open BigEndian BitNumerals ProtocolError CompatProfile KeyPublicKey PivPrivate

/-- The bit length of the group order of an ECDSA curve. -/
def orderBits : Algorithm → Option ℕ
  | .eccP256 | .secp256k1 => some 256
  | .eccP384 => some 384
  | .eccP521 => some 521
  | _ => none

theorem length_shift (carry : UInt8) (bytes : Bytes) :
    (shift carry bytes).length = bytes.length := by
  induction bytes generalizing carry with
  | nil => rfl
  | cons b bytes ih => rw [shift, List.length_cons, List.length_cons, ih]

/-- The carry holds the seven low bits of the byte before, doubled. -/
theorem toNat_carried (carry b : UInt8) (h : carry.toNat % 2 = 0) :
    ((b >>> 7) ||| carry).toNat = carry.toNat + b.toNat / 128 := by
  have hb := byte_lt b
  have hlow : (b >>> 7).toNat = b.toNat / 128 := by
    rw [UInt8.toNat_shiftRight, Nat.shiftRight_eq_div_pow]
    rfl
  obtain ⟨half, hhalf⟩ : ∃ half, carry.toNat = 2 ^ 1 * half := ⟨carry.toNat / 2, by omega⟩
  rw [UInt8.toNat_or, hlow, Nat.or_comm, hhalf]
  exact (Nat.two_pow_add_eq_or_of_lt (by omega) half).symm

theorem toNat_doubled (b : UInt8) : (b <<< 1).toNat = 2 * (b.toNat % 128) := by
  have hb := byte_lt b
  rw [UInt8.toNat_shiftLeft, Nat.shiftLeft_eq]
  change b.toNat * 2 % 256 = _
  omega

/-- The byte loop divides by 128. The induction is on the bytes, and the carry holds what was cut
from the byte before. -/
theorem ofBeBytes_shift (carry : UInt8) (bytes : Bytes) {cut : ℕ} (h : carry.toNat = 2 * cut) :
    ofBeBytes (shift carry bytes) = (cut * 256 ^ bytes.length + ofBeBytes bytes) / 128 := by
  induction bytes generalizing carry cut with
  | nil =>
    have hlt := byte_lt carry
    change 0 = (cut * 1 + 0) / 128
    omega
  | cons b bytes ih =>
    have hcarried := toNat_carried carry b (by omega)
    have hrest := ih (b <<< 1) (toNat_doubled b)
    have hb : b.toNat = 128 * (b.toNat / 128) + b.toNat % 128 := (Nat.div_add_mod _ _).symm
    have hsum : cut * 256 ^ (b :: bytes).length + ofBeBytes (b :: bytes) =
        128 * ((2 * cut + b.toNat / 128) * 256 ^ bytes.length) +
          (b.toNat % 128 * 256 ^ bytes.length + ofBeBytes bytes) := by
      rw [ofBeBytes_cons, List.length_cons, Nat.pow_succ]
      calc cut * (256 ^ bytes.length * 256) +
            (b.toNat * 256 ^ bytes.length + ofBeBytes bytes)
          = cut * (256 ^ bytes.length * 256) +
            ((128 * (b.toNat / 128) + b.toNat % 128) * 256 ^ bytes.length + ofBeBytes bytes) := by
              rw [← hb]
        _ = _ := by ring
    rw [shift, ofBeBytes_cons, length_shift, hcarried, h, hrest, hsum,
      Nat.mul_add_div (by decide)]

theorem ofBeBytes_leftPad (width : ℕ) (value : Bytes) :
    ofBeBytes (leftPad width value) = ofBeBytes value := ofBeBytes_replicate_zero _ _

/-- The number that the first `n` bits of a digest write. -/
def leadingBits (n : ℕ) (data : Bytes) : ℕ := ofBits ((bitsOf data).take n)

/-- Whole bytes of a digest are as many leading bits. -/
theorem ofBeBytes_take (data : Bytes) (n : ℕ) :
    ofBeBytes (data.take n) = leadingBits (8 * n) data := by
  rw [← ofBits_bitsOf, bitsOf_take, leadingBits]

theorem leadingBits_div {n k : ℕ} {data : Bytes} (h : n + k ≤ 8 * data.length) :
    leadingBits (n + k) data / 2 ^ k = leadingBits n data := by
  have hpow : 2 ^ (8 * data.length - (n + k)) * 2 ^ k = 2 ^ (8 * data.length - n) := by
    rw [← Nat.pow_add]
    congr 1
    omega
  rw [leadingBits, leadingBits, ofBits_take_bitsOf, ofBits_take_bitsOf, Nat.div_div_eq_div_mul,
    hpow]

theorem leadingBits_all {n : ℕ} {data : Bytes} (h : 8 * data.length ≤ n) :
    leadingBits n data = leadingBits (8 * data.length) data := by
  have hlen := length_bitsOf data
  rw [leadingBits, leadingBits, List.take_of_length_le (by omega),
    List.take_of_length_le (by omega)]

/-- Whole bytes that fit the field are kept, on the right. -/
theorem leadingBits_min {width : ℕ} {data : Bytes} :
    leadingBits (8 * width) data = leadingBits (min (8 * width) (8 * data.length)) data := by
  by_cases h : width ≤ data.length
  · rw [Nat.min_eq_left (by omega)]
  · rw [Nat.min_eq_right (by omega)]
    exact leadingBits_all (by omega)

/-- Without the SM2 rule only an empty digest is refused. -/
theorem digest_eq {algorithm : Algorithm} {width : ℕ} {data : Bytes}
    (hwidth : curveLen algorithm = some width) (hsm2 : algorithm ≠ .sm2) (hdata : data ≠ []) :
    digest algorithm data =
      if algorithm = .eccP521 ∧ data.length ≥ width then
        .ok (shift 0 (leftPad width (data.take width)))
      else .ok (leftPad width (data.take width)) := by
  have hgate : ¬ (data = [] ∨ (algorithm = .sm2 ∧ data.length ≠ 32)) := by
    rintro (hnil | ⟨hno, _⟩)
    · exact hdata hnil
    · exact hsm2 hno
  have hcurve : curveWidth algorithm = .ok width := by
    rw [curveWidth, hwidth]
  rw [digest, hcurve]
  exact if_neg hgate

/-- The field of a digest of an ECDSA curve holds the number that the leading bits of the digest
write, as many as the order of the curve has. -/
theorem digest_bits2int {algorithm : Algorithm} {q : ℕ} {data : Bytes}
    (hq : orderBits algorithm = some q) (hdata : data ≠ []) :
    ∃ width out, curveLen algorithm = some width ∧ digest algorithm data = .ok out ∧
      out.length = width ∧
      ofBeBytes out = leadingBits (min q (8 * data.length)) data := by
  have hplain : ∀ width, ofBeBytes (leftPad width (data.take width)) =
      leadingBits (min (8 * width) (8 * data.length)) data := by
    intro width
    rw [ofBeBytes_leftPad, ofBeBytes_take]
    exact leadingBits_min
  have hlen : ∀ width, (leftPad width (data.take width)).length = width :=
    fun width => length_leftPad (List.length_take_le width data)
  -- Only P-521 has an order shorter than its field, by seven bits.
  cases algorithm with
  | eccP256 | secp256k1 | eccP384 =>
    cases hq
    refine ⟨_, _, rfl, ?_, hlen _, hplain _⟩
    rw [digest_eq rfl (by decide) hdata]
    exact if_neg fun h => by cases h.1
  | eccP521 =>
    cases hq
    by_cases hlong : data.length ≥ 66
    · refine ⟨66, shift 0 (leftPad 66 (data.take 66)), rfl, ?_, ?_, ?_⟩
      · rw [digest_eq rfl (by decide) hdata]
        exact if_pos ⟨rfl, hlong⟩
      · rw [length_shift, hlen]
      · have hshift := @ofBeBytes_shift 0 (leftPad 66 (data.take 66)) 0 rfl
        rw [hshift, Nat.zero_mul, Nat.zero_add, hplain, Nat.min_eq_left (by omega),
          Nat.min_eq_left (by omega)]
        exact @leadingBits_div 521 7 data (by omega)
    · refine ⟨66, leftPad 66 (data.take 66), rfl, ?_, hlen 66, ?_⟩
      · rw [digest_eq rfl (by decide) hdata]
        exact if_neg fun h => hlong h.2
      · rw [hplain, Nat.min_eq_right (by omega), Nat.min_eq_right (by omega)]
  | _ => cases hq

/-- A digest one byte longer than the field of P-521. -/
def longDigest : Bytes := 0xff :: 0x80 :: List.replicate 65 0

theorem digest_bits2int_p521 : ∃ out, digest .eccP521 longDigest = .ok out ∧
    out = 0x01 :: 0xff :: List.replicate 64 0 ∧ ofBeBytes out = leadingBits 521 longDigest := by
  have hout : digest .eccP521 longDigest = .ok (0x01 :: 0xff :: List.replicate 64 0) := by decide
  obtain ⟨width, out, _, hdigest, _, hbits⟩ :=
    @digest_bits2int .eccP521 521 longDigest rfl (by decide)
  cases hout.symm.trans hdigest
  exact ⟨_, hout, rfl, hbits⟩

end PivDigest
