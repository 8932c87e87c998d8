import Mathlib.Data.Nat.Log
import LibCanokey.BigEndian

/-! # Strict DER of pairs of unsigned integers

Unsigned integers are their big-endian bytes without superfluous zeros. An INTEGER has one zero
byte in front where the first bit is set, lengths are minimal, and a pair is a SEQUENCE of two. -/
namespace DerIntegers

open BigEndian

/-- Without leading zeros; one byte is left of zero. -/
def strip : Bytes → Bytes
  | [] => []
  | b :: rest => if b = 0 ∧ rest ≠ [] then strip rest else b :: rest

/-- The only integer that starts with a zero byte is zero. -/
def Canonical (bytes : Bytes) : Prop := bytes ≠ [] ∧ strip bytes = bytes

instance (bytes : Bytes) : Decidable (Canonical bytes) :=
  inferInstanceAs (Decidable (bytes ≠ [] ∧ strip bytes = bytes))

/-- A first bit that is set would make the integer negative. -/
def signed : Bytes → Bytes
  | [] => []
  | b :: rest => if 128 ≤ b.toNat then 0 :: b :: rest else b :: rest

def lengthOctets (n : ℕ) : Bytes :=
  if n < 128 then [UInt8.ofNat n]
  else UInt8.ofNat (128 + (Nat.log 256 n + 1)) :: toBeBytes (Nat.log 256 n + 1) n

def element (tag : Byte) (content : Bytes) : Bytes :=
  tag :: (lengthOctets content.length ++ content)

def integer (bytes : Bytes) : Bytes := element 0x02 (signed bytes)

def pair (r s : Bytes) : Bytes := element 0x30 (integer r ++ integer s)

/-! ## Leading zeros -/

theorem strip_ne_nil {bytes : Bytes} (h : bytes ≠ []) : strip bytes ≠ [] := by
  induction bytes with
  | nil => exact absurd rfl h
  | cons b rest ih =>
    rw [strip]
    by_cases hzero : b = 0 ∧ rest ≠ []
    · rw [if_pos hzero]
      exact ih hzero.2
    · rw [if_neg hzero]
      simp

theorem strip_strip (bytes : Bytes) : strip (strip bytes) = strip bytes := by
  induction bytes with
  | nil => rfl
  | cons b rest ih =>
    rw [strip]
    by_cases hzero : b = 0 ∧ rest ≠ []
    · rw [if_pos hzero]
      exact ih
    · rw [if_neg hzero, strip, if_neg hzero]

theorem canonical_strip {bytes : Bytes} (h : bytes ≠ []) : Canonical (strip bytes) :=
  ⟨strip_ne_nil h, strip_strip bytes⟩

/-- What is stripped is a run of zeros. -/
theorem zeros_strip (bytes : Bytes) : ∃ k, bytes = List.replicate k 0 ++ strip bytes := by
  induction bytes with
  | nil => exact ⟨0, rfl⟩
  | cons b rest ih =>
    rw [strip]
    by_cases hzero : b = 0 ∧ rest ≠ []
    · obtain ⟨k, hk⟩ := ih
      refine ⟨k + 1, ?_⟩
      rw [if_pos hzero, List.replicate_succ, List.cons_append, ← hk, hzero.1]
    · exact ⟨0, by rw [if_neg hzero]; rfl⟩

theorem strip_zeros (k : ℕ) {bytes : Bytes} (h : Canonical bytes) :
    strip (List.replicate k 0 ++ bytes) = bytes := by
  induction k with
  | zero => exact h.2
  | succ k ih =>
    have hne : List.replicate k 0 ++ bytes ≠ [] := by
      intro hnil
      exact h.1 (List.append_eq_nil_iff.mp hnil).2
    rw [List.replicate_succ, List.cons_append, strip, if_pos ⟨rfl, hne⟩]
    exact ih

theorem length_strip_le (bytes : Bytes) : (strip bytes).length ≤ bytes.length := by
  obtain ⟨k, hk⟩ := zeros_strip bytes
  have hlen := congrArg List.length hk
  rw [List.length_append, List.length_replicate] at hlen
  omega

/-- Whether an integer is zero is seen with or without the zeros. -/
theorem all_zero_strip (bytes : Bytes) :
    (strip bytes).all (· == 0) = bytes.all (· == 0) := by
  induction bytes with
  | nil => rfl
  | cons b rest ih =>
    rw [strip]
    by_cases hzero : b = 0 ∧ rest ≠ []
    · rw [if_pos hzero, ih, hzero.1]
      rfl
    · rw [if_neg hzero]

theorem all_zero_replicate (k : ℕ) (bytes : Bytes) :
    (List.replicate k 0 ++ bytes).all (· == 0) = bytes.all (· == 0) := by
  rw [List.all_append]
  have hzeros : (List.replicate k (0 : Byte)).all (· == 0) = true := by
    rw [List.all_eq_true]
    intro b hb
    rw [(List.mem_replicate.mp hb).2]
    rfl
  rw [hzeros, Bool.true_and]

/-! ## Reading

Lengths and contents are read as they stand, and what was not written strictly is refused by
writing it again. -/

def readLength : Bytes → Option (ℕ × Bytes)
  | [] => none
  | b :: rest =>
    if b.toNat < 128 then some (b.toNat, rest)
    else if b.toNat - 128 ≤ rest.length then
      some (ofBeBytes (rest.take (b.toNat - 128)), rest.drop (b.toNat - 128))
    else none

def readElement (tag : Byte) : Bytes → Option (Bytes × Bytes)
  | [] => none
  | t :: rest =>
    if t ≠ tag then none
    else do
      let (n, rest) ← readLength rest
      if n ≤ rest.length then some (rest.take n, rest.drop n) else none

def unsigned : Bytes → Bytes
  | 0 :: b :: rest => b :: rest
  | content => content

def readPair (bytes : Bytes) : Option (Bytes × Bytes) := do
  let (body, _) ← readElement 0x30 bytes
  let (r, rest) ← readElement 0x02 body
  let (s, _) ← readElement 0x02 rest
  if Canonical (unsigned r) ∧ Canonical (unsigned s) ∧ pair (unsigned r) (unsigned s) = bytes then
    some (unsigned r, unsigned s)
  else none

theorem readLength_lengthOctets {n : ℕ} (h : n < 256 ^ 4) (rest : Bytes) :
    readLength (lengthOctets n ++ rest) = some (n, rest) := by
  rw [lengthOctets]
  by_cases hshort : n < 128
  · have hbyte : (UInt8.ofNat n).toNat = n := toNat_ofNat_of_lt (by omega)
    rw [if_pos hshort, List.singleton_append, readLength, hbyte, if_pos hshort]
  · have hwidth : Nat.log 256 n + 1 ≤ 4 := Nat.log_lt_of_lt_pow (by omega) h
    have hbyte : (UInt8.ofNat (128 + (Nat.log 256 n + 1))).toNat = 128 + (Nat.log 256 n + 1) :=
      toNat_ofNat_of_lt (by omega)
    have hfits : n < 256 ^ (Nat.log 256 n + 1) := Nat.lt_pow_succ_log_self (by decide) n
    have hlen := length_toBeBytes (Nat.log 256 n + 1) n
    rw [if_neg hshort, List.cons_append, readLength, hbyte, if_neg (by omega),
      Nat.add_sub_cancel_left, if_pos (by rw [List.length_append, hlen]; omega)]
    have htake := @List.take_left _ (toBeBytes (Nat.log 256 n + 1) n) rest
    have hdrop := @List.drop_left _ (toBeBytes (Nat.log 256 n + 1) n) rest
    rw [hlen] at htake hdrop
    rw [htake, hdrop, ofBeBytes_toBeBytes hfits]

theorem readElement_element (tag : Byte) {content : Bytes} (h : content.length < 256 ^ 4)
    (rest : Bytes) : readElement tag (element tag content ++ rest) = some (content, rest) := by
  have hread := readLength_lengthOctets h (content ++ rest)
  rw [element, List.cons_append, List.append_assoc, readElement, if_neg (not_not.mpr rfl), hread]
  have hfits : content.length ≤ (content ++ rest).length := by
    rw [List.length_append]
    omega
  dsimp only [Option.bind_eq_bind, Option.bind_some]
  rw [if_pos hfits, List.take_left, List.drop_left]

theorem unsigned_signed {bytes : Bytes} (h : Canonical bytes) :
    unsigned (signed bytes) = bytes := by
  cases bytes with
  | nil => exact absurd rfl h.1
  | cons b rest =>
    rw [signed]
    by_cases hsign : 128 ≤ b.toNat
    · rw [if_pos hsign]
      rfl
    · rw [if_neg hsign]
      by_cases hzero : b = 0 ∧ rest ≠ []
      · -- A canonical integer does not start with a zero that could be stripped.
        exfalso
        have hsame := h.2
        rw [strip, if_pos hzero] at hsame
        have hle := length_strip_le rest
        rw [hsame, List.length_cons] at hle
        omega
      · unfold unsigned
        split
        · rename_i c tail heq
          cases heq
          exact absurd ⟨rfl, by simp⟩ hzero
        · rfl

theorem length_signed_le (bytes : Bytes) : (signed bytes).length ≤ bytes.length + 1 := by
  cases bytes with
  | nil => decide
  | cons b rest =>
    rw [signed]
    split_ifs
    · simp
    · simp

theorem length_lengthOctets_le {n : ℕ} (h : n < 256 ^ 4) : (lengthOctets n).length ≤ 5 := by
  rw [lengthOctets]
  split_ifs with hshort
  · rw [List.length_singleton]
    omega
  · have hwidth : Nat.log 256 n + 1 ≤ 4 := Nat.log_lt_of_lt_pow (by omega) h
    rw [List.length_cons, length_toBeBytes]
    omega

/-- A pair of integers of reasonable size is read back. -/
theorem readPair_pair {r s : Bytes} (hr : Canonical r) (hs : Canonical s)
    (hrlen : r.length ≤ 65535) (hslen : s.length ≤ 65535) :
    readPair (pair r s) = some (r, s) := by
  have hsr := length_signed_le r
  have hss := length_signed_le s
  have hlr : (signed r).length < 256 ^ 4 := by omega
  have hls : (signed s).length < 256 ^ 4 := by omega
  have hor := length_lengthOctets_le hlr
  have hos := length_lengthOctets_le hls
  have hbody : (integer r ++ integer s).length < 256 ^ 4 := by
    simp only [integer, element, List.length_append, List.length_cons]
    omega
  have houter := readElement_element 0x30 hbody []
  rw [List.append_nil] at houter
  have hfirst := readElement_element 0x02 hlr (integer s)
  have hsecond := readElement_element 0x02 hls []
  rw [List.append_nil] at hsecond
  rw [readPair, pair, houter]
  dsimp only [Option.bind_eq_bind, Option.bind_some]
  rw [integer, hfirst]
  dsimp only [Option.bind_some]
  rw [integer, hsecond]
  dsimp only [Option.bind_some]
  rw [unsigned_signed hr, unsigned_signed hs]
  exact if_pos ⟨hr, hs, rfl⟩

/-- Only what is written strictly is read. -/
theorem readPair_eq_some {bytes r s : Bytes} (h : readPair bytes = some (r, s)) :
    Canonical r ∧ Canonical s ∧ bytes = pair r s := by
  simp only [readPair, Option.bind_eq_bind, Option.bind_eq_some_iff] at h
  obtain ⟨outer, _, first, _, second, _, h⟩ := h
  split_ifs at h with hstrict
  cases h
  exact ⟨hstrict.1, hstrict.2.1, hstrict.2.2.symm⟩

end DerIntegers
