import Mathlib.Data.Nat.Notation
import Mathlib.Logic.Equiv.Defs

/-! # Cipher block chaining

A list of blocks under a permutation of them, each mixed with the cipher block before it, and the
blocks of a string. -/
namespace BlockChaining

/-- A way to mix two blocks that the second one takes back. -/
structure Mixing (β : Type*) where
  mix : β → β → β
  cancel (a b : β) : mix (mix a b) b = a

section chaining

variable {β : Type*} (M : Mixing β) (E : Equiv.Perm β)

def encrypt : β → List β → List β
  | _, [] => []
  | previous, b :: bs => E (M.mix b previous) :: encrypt (E (M.mix b previous)) bs

def decrypt : β → List β → List β
  | _, [] => []
  | previous, c :: cs => M.mix (E.symm c) previous :: decrypt c cs

theorem length_encrypt (previous : β) (bs : List β) :
    (encrypt M E previous bs).length = bs.length := by
  induction bs generalizing previous with
  | nil => rfl
  | cons b bs ih => simp [encrypt, ih]

theorem length_decrypt (previous : β) (cs : List β) :
    (decrypt M E previous cs).length = cs.length := by
  induction cs generalizing previous with
  | nil => rfl
  | cons c cs ih => simp [decrypt, ih]

theorem decrypt_encrypt (previous : β) (bs : List β) :
    decrypt M E previous (encrypt M E previous bs) = bs := by
  induction bs generalizing previous with
  | nil => rfl
  | cons b bs ih => rw [encrypt, decrypt, E.symm_apply_apply, M.cancel, ih]

end chaining

/-! ## Blocks of a string -/

section blocks

variable {α : Type*} {n : ℕ}

/-- A string of one length. -/
abbrev Block (α : Type*) (n : ℕ) := {b : List α // b.length = n}

def joined (bs : List (Block α n)) : List α := bs.flatMap Subtype.val

/-- The first `count` blocks of a string, as far as it reaches. -/
def split (n : ℕ) : ℕ → List α → List (Block α n)
  | 0, _ => []
  | count + 1, text =>
    if h : (text.take n).length = n then ⟨text.take n, h⟩ :: split n count (text.drop n) else []

theorem length_joined (bs : List (Block α n)) : (joined bs).length = n * bs.length := by
  induction bs with
  | nil => rfl
  | cons b bs ih =>
    have hjoined : joined (b :: bs) = b.1 ++ joined bs := rfl
    rw [hjoined, List.length_append, b.2, ih, List.length_cons, Nat.mul_succ, Nat.add_comm]

theorem split_joined (bs : List (Block α n)) : split n bs.length (joined bs) = bs := by
  induction bs with
  | nil => rfl
  | cons b bs ih =>
    have hjoined : joined (b :: bs) = b.1 ++ joined bs := rfl
    have htake : (joined (b :: bs)).take n = b.1 := by
      rw [hjoined]
      apply List.take_left'
      exact b.2
    have hdrop : (joined (b :: bs)).drop n = joined bs := by
      rw [hjoined]
      apply List.drop_left'
      exact b.2
    have hlen : ((joined (b :: bs)).take n).length = n := by
      rw [htake]
      exact b.2
    rw [List.length_cons, split, dif_pos hlen, hdrop, ih]
    exact congrArg (· :: bs) (Subtype.ext htake)

theorem length_split {count : ℕ} {text : List α} (h : text.length = n * count) :
    (split n count text).length = count := by
  induction count generalizing text with
  | zero => rfl
  | succ count ih =>
    have hlen : (text.take n).length = n := by
      rw [List.length_take, h, Nat.mul_succ]
      omega
    have hrest : (text.drop n).length = n * count := by
      rw [List.length_drop, h, Nat.mul_succ, Nat.add_sub_cancel]
    rw [split, dif_pos hlen, List.length_cons, ih hrest]

theorem joined_split {count : ℕ} {text : List α} (h : text.length = n * count) :
    joined (split n count text) = text := by
  induction count generalizing text with
  | zero =>
    have hnil := List.eq_nil_of_length_eq_zero h
    rw [hnil]
    rfl
  | succ count ih =>
    have hlen : (text.take n).length = n := by
      rw [List.length_take, h, Nat.mul_succ]
      omega
    have hrest : (text.drop n).length = n * count := by
      rw [List.length_drop, h, Nat.mul_succ, Nat.add_sub_cancel]
    have hjoined : joined (split n (count + 1) text) = text.take n ++
        joined (split n count (text.drop n)) := by
      rw [split, dif_pos hlen]
      rfl
    rw [hjoined, ih hrest, List.take_append_drop]

/-- A whole number of blocks, chained and joined again. -/
def chained (transform : Block α n → List (Block α n) → List (Block α n)) (iv text : List α) :
    List α :=
  if h : iv.length = n then joined (transform ⟨iv, h⟩ (split n (text.length / n) text)) else []

variable {M : Mixing (Block α n)} {E : Equiv.Perm (Block α n)} {iv text : List α}

theorem length_chained {transform : Block α n → List (Block α n) → List (Block α n)}
    (ht : ∀ previous bs, (transform previous bs).length = bs.length) (hiv : iv.length = n)
    (htext : n ∣ text.length) : (chained transform iv text).length = text.length := by
  have hcount : text.length = n * (text.length / n) := (Nat.mul_div_cancel' htext).symm
  rw [chained, dif_pos hiv, length_joined, ht, length_split hcount, ← hcount]

/-- Undone block by block, a transform is undone on the string. -/
theorem chained_chained {f g : Block α n → List (Block α n) → List (Block α n)}
    (hf : ∀ previous bs, (f previous bs).length = bs.length)
    (hg : ∀ previous bs, g previous (f previous bs) = bs) (hiv : iv.length = n)
    (htext : n ∣ text.length) : chained g iv (chained f iv text) = text := by
  have hcount : text.length = n * (text.length / n) := (Nat.mul_div_cancel' htext).symm
  have hlen := length_chained hf hiv htext
  have hf' : chained f iv text = joined (f ⟨iv, hiv⟩ (split n (text.length / n) text)) :=
    dif_pos hiv
  have hblocks : text.length / n = (f ⟨iv, hiv⟩ (split n (text.length / n) text)).length := by
    rw [hf, length_split hcount]
  have hsplit : split n (text.length / n) (chained f iv text) =
      f ⟨iv, hiv⟩ (split n (text.length / n) text) := by
    rw [hf']
    generalize f ⟨iv, hiv⟩ (split n (text.length / n) text) = bs at hblocks
    rw [hblocks]
    exact split_joined bs
  rw [chained, dif_pos hiv, hlen, hsplit, hg]
  exact joined_split hcount

theorem decrypts (hiv : iv.length = n) (htext : n ∣ text.length) :
    chained (decrypt M E) iv (chained (encrypt M E) iv text) = text :=
  chained_chained (length_encrypt M E) (decrypt_encrypt M E) hiv htext

end blocks

end BlockChaining
