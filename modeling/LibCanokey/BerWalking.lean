import LibCanokey.BigEndian

/-! # Walking nested fields

A decoder for fields with definite lengths, for lists of headers whose values stand together
elsewhere, and what it reads from fields that were written one after another. -/
namespace BerWalking

open BigEndian

/-- A definite length of at most four octets at the front, and what follows it. -/
def takeLength : Bytes → Option (ℕ × Bytes)
  | [] => none
  | b :: rest =>
    if b < 128 then some (b.toNat, rest)
    else
      let count := b.toNat - 128
      if count = 0 ∨ 4 < count ∨ rest.length < count then none
      else some (ofBeBytes (rest.take count), rest.drop count)

/-- The value of a field under the tag at the front, and what follows the field. -/
def takeField (tag bytes : Bytes) : Option (Bytes × Bytes) :=
  if bytes.take tag.length = tag then do
    let (n, rest) ← takeLength (bytes.drop tag.length)
    if n ≤ rest.length then some (rest.take n, rest.drop n) else none
  else none

/-- Fields under the tags in their order, and nothing else. -/
def takeFields : List Bytes → Bytes → Option (List Bytes)
  | [], [] => some []
  | [], _ :: _ => none
  | tag :: tags, bytes => do
    let (value, rest) ← takeField tag bytes
    let values ← takeFields tags rest
    some (value :: values)

/-- One-byte tags with lengths and no values, at most as many as the first argument. -/
def takeHeaders : ℕ → Bytes → Option (List (Byte × ℕ))
  | _, [] => some []
  | 0, _ :: _ => none
  | turns + 1, tag :: bytes => do
    let (n, rest) ← takeLength bytes
    let headers ← takeHeaders turns rest
    some ((tag, n) :: headers)

/-- The pieces that headers give lengths of, and nothing left. -/
def cut : List (Byte × ℕ) → Bytes → Option (List (Byte × Bytes))
  | [], [] => some []
  | [], _ :: _ => none
  | (tag, n) :: headers, bytes =>
    if bytes.length < n then none
    else (cut headers (bytes.drop n)).map fun pieces => (tag, bytes.take n) :: pieces

/-- The form is read as the length, whatever follows. -/
def Frames (n : ℕ) (form : Bytes) : Prop := ∀ rest, takeLength (form ++ rest) = some (n, rest)

theorem frames_short {n : ℕ} (h : n < 128) : Frames n [UInt8.ofNat n] := by
  intro rest
  have hnat : (UInt8.ofNat n).toNat = n := toNat_ofNat_of_lt (by omega)
  have hlt : UInt8.ofNat n < 128 := by
    rw [UInt8.lt_iff_toNat_lt, hnat]
    exact h
  rw [List.singleton_append, takeLength, if_pos hlt, hnat]

theorem frames_long {octets : Bytes} (hpos : 1 ≤ octets.length) (hle : octets.length ≤ 4) :
    Frames (ofBeBytes octets) (UInt8.ofNat (128 + octets.length) :: octets) := by
  intro rest
  have hnat : (UInt8.ofNat (128 + octets.length)).toNat = 128 + octets.length :=
    toNat_ofNat_of_lt (by omega)
  have hge : ¬ UInt8.ofNat (128 + octets.length) < 128 := by
    rw [UInt8.lt_iff_toNat_lt, hnat]
    exact Nat.not_lt.mpr (Nat.le_add_right _ _)
  have hcount : 128 + octets.length - 128 = octets.length := by omega
  rw [List.cons_append, takeLength, if_neg hge]
  dsimp only
  rw [hnat, hcount, if_neg, List.take_left, List.drop_left]
  rw [List.length_append]
  omega

section fields

variable {tag value form : Bytes}

theorem takeField_frames (h : Frames value.length form) (rest : Bytes) :
    takeField tag (tag ++ form ++ value ++ rest) = some (value, rest) := by
  have hle : value.length ≤ (value ++ rest).length := by
    rw [List.length_append]
    exact Nat.le_add_right _ _
  rw [takeField, List.append_assoc, List.append_assoc, List.take_left, if_pos rfl, List.drop_left,
    h, Option.bind_eq_bind, Option.bind_some]
  dsimp only
  rw [if_pos hle, List.take_left, List.drop_left]

/-- A field under another tag is not there. -/
theorem takeField_other {other bytes : Bytes} (h : bytes.take other.length ≠ other) :
    takeField other bytes = none := if_neg h

end fields

theorem takeFields_frames {fields : List (Bytes × Bytes)} {form : ℕ → Bytes}
    (h : ∀ field ∈ fields, Frames field.2.length (form field.2.length)) :
    takeFields (fields.map Prod.fst)
      (fields.flatMap fun field => field.1 ++ form field.2.length ++ field.2) =
      some (fields.map Prod.snd) := by
  induction fields with
  | nil => rfl
  | cons field fields ih =>
    obtain ⟨hfield, hfields⟩ := List.forall_mem_cons.mp h
    rw [List.map_cons, List.flatMap_cons, takeFields, takeField_frames hfield,
      Option.bind_eq_bind, Option.bind_some]
    dsimp only
    rw [ih hfields]
    rfl

section headers

variable {parts : List (Byte × Bytes)} {form : ℕ → Bytes}

theorem takeHeaders_frames {turns : ℕ} (hturns : parts.length ≤ turns)
    (h : ∀ part ∈ parts, Frames part.2.length (form part.2.length)) :
    takeHeaders turns (parts.flatMap fun part => part.1 :: form part.2.length) =
      some (parts.map fun part => (part.1, part.2.length)) := by
  induction parts generalizing turns with
  | nil => rw [List.flatMap_nil, takeHeaders]; rfl
  | cons part parts ih =>
    obtain ⟨hpart, hparts⟩ := List.forall_mem_cons.mp h
    rw [List.length_cons] at hturns
    obtain ⟨turns, rfl⟩ : ∃ n, turns = n + 1 := ⟨turns - 1, by omega⟩
    rw [List.flatMap_cons, List.cons_append, takeHeaders, hpart, Option.bind_eq_bind,
      Option.bind_some]
    dsimp only
    rw [ih (by omega) hparts]
    rfl

theorem cut_flatMap (parts : List (Byte × Bytes)) :
    cut (parts.map fun part => (part.1, part.2.length)) (parts.flatMap Prod.snd) = some parts := by
  induction parts with
  | nil => rfl
  | cons part parts ih =>
    have hle : ¬ (part.2 ++ parts.flatMap Prod.snd).length < part.2.length := by
      rw [List.length_append]
      exact Nat.not_lt.mpr (Nat.le_add_right _ _)
    rw [List.map_cons, List.flatMap_cons, cut, if_neg hle, List.drop_left, List.take_left, ih]
    rfl

/-- Whatever is cut into pieces is as long as the headers say. -/
theorem sum_of_cut {headers : List (Byte × ℕ)} {bytes : Bytes}
    (h : cut headers bytes = some parts) : (headers.map Prod.snd).sum = bytes.length := by
  induction headers generalizing bytes parts with
  | nil =>
    cases bytes with
    | nil => rfl
    | cons b bytes => cases h
  | cons header headers ih =>
    obtain ⟨tag, n⟩ := header
    rw [cut] at h
    split_ifs at h with hshort
    obtain ⟨pieces, hpieces, _⟩ := Option.map_eq_some_iff.mp h
    have hrest := ih hpieces
    rw [List.length_drop] at hrest
    rw [List.map_cons, List.sum_cons, hrest]
    omega

end headers

end BerWalking
