import LibCanokey.KeySubjectPublicKey
import LibCanokey.ProtocolTlvSequences
import Mathlib.Data.List.TakeWhile
import Mathlib.Logic.Relation

/-! # Fields of public keys

The parser accepts the fields of exactly the keys that the encoder takes, in any order and with
any zeros before the two numbers of an RSA key, and gives the key that they are fields of. -/
namespace KeyPublicKeyFields

open BigEndian ListTraversal ProtocolError ProtocolTlv ProtocolTlvRoundTrip ProtocolTlvFields
open ProtocolTlvSequences CompatProfile KeyPublicKey KeySubjectPublicKey

def modulusTag : Tag := shortTag 0x81 (by decide)

def exponentTag : Tag := shortTag 0x82 (by decide)

def pointTag : Tag := shortTag 0x86 (by decide)

/-- The fields of components, in the order of their tags. -/
def componentFields (c : Components) : List (Tag × Bytes) :=
  c.modulus.toList.map (modulusTag, ·) ++ c.exponent.toList.map (exponentTag, ·) ++
    c.point.toList.map (pointTag, ·)

def components : PublicKey → Components
  | .rsa _ modulus exponent => { modulus := some modulus, exponent := some exponent }
  | .ec _ point => { point := some point }
  | .raw _ bytes => { point := some bytes }

/-- The fields that a key is written with. -/
def keyFields (key : PublicKey) : List (Tag × Bytes) := componentFields (components key)

def withoutZeros (bytes : Bytes) : Bytes := bytes.dropWhile (· = 0)

/-- A field without the zeros before its number. -/
def stripped (f : Tag × Bytes) : Tag × Bytes :=
  if f.1 = modulusTag ∨ f.1 = exponentTag then (f.1, withoutZeros f.2) else f

/-- One change that leaves the key as it is. -/
inductive Change : List (Tag × Bytes) → List (Tag × Bytes) → Prop where
  | permuted {fields fields' : List (Tag × Bytes)} (h : fields.Perm fields') : Change fields fields'
  | zeros (before after : List (Tag × Bytes)) (tag : Tag) (number : Bytes) (n : ℕ)
      (h : tag = modulusTag ∨ tag = exponentTag) :
      Change (before ++ (tag, number) :: after)
        (before ++ (tag, List.replicate n 0 ++ number) :: after)

/-- Encodings whose fields come from each other by such changes. -/
def Respelled (bytes bytes' : Bytes) : Prop :=
  ∃ limits fields fields', StrictSequence limits fields bytes ∧
    StrictSequence limits fields' bytes' ∧ Relation.EqvGen Change fields fields'

/-! ## Zeros before a number -/

section zeros

variable {bytes : Bytes} {f : Tag × Bytes} {fields fields' : List (Tag × Bytes)} {n : ℕ}

theorem withoutZeros_replicate :
    withoutZeros (List.replicate n 0 ++ bytes) = withoutZeros bytes := by
  induction n with
  | zero => rfl
  | succ n ih =>
    rw [List.replicate_succ, List.cons_append, withoutZeros, List.dropWhile_cons_of_pos rfl]
    exact ih

/-- Leading zeros are all that is lost. -/
theorem eq_replicate_withoutZeros (bytes : Bytes) :
    ∃ n, bytes = List.replicate n 0 ++ withoutZeros bytes := by
  induction bytes with
  | nil => exact ⟨0, rfl⟩
  | cons b bytes ih =>
    by_cases hb : b = 0
    · subst hb
      obtain ⟨n, hn⟩ := ih
      refine ⟨n + 1, ?_⟩
      rw [withoutZeros, List.dropWhile_cons_of_pos rfl, List.replicate_succ, List.cons_append]
      exact congrArg _ hn
    · refine ⟨0, ?_⟩
      rw [withoutZeros, List.dropWhile_cons_of_neg (by simpa using hb)]
      rfl

theorem withoutZeros_head (bytes : Bytes) : (withoutZeros bytes).head? ≠ some 0 := by
  induction bytes with
  | nil =>
    intro h
    cases h
  | cons b bytes ih =>
    by_cases hb : b = 0
    · rw [withoutZeros, List.dropWhile_cons_of_pos (by simpa using hb)]
      exact ih
    · rw [withoutZeros, List.dropWhile_cons_of_neg (by simpa using hb), List.head?_cons]
      intro h
      exact hb (Option.some.inj h)

theorem withoutZeros_of_head (h : bytes.head? ≠ some 0) : withoutZeros bytes = bytes := by
  cases bytes with
  | nil => rfl
  | cons b bytes =>
    rw [withoutZeros, List.dropWhile_cons_of_neg]
    intro hb
    apply h
    rw [List.head?_cons, of_decide_eq_true hb]

theorem withoutZeros_eq_nil : withoutZeros bytes = [] ↔ ∀ b ∈ bytes, b = 0 := by
  rw [withoutZeros, List.dropWhile_eq_nil_iff]
  simp

/-- A number is what its zeros leave, and not zero. -/
theorem unsigned_eq_ok {number : Bytes} :
    unsigned bytes = .ok number ↔ withoutZeros bytes = number ∧ number ≠ [] := by
  induction bytes with
  | nil =>
    constructor
    · intro h
      cases h
    · rintro ⟨rfl, hne⟩
      exact absurd rfl hne
  | cons b bytes ih =>
    by_cases hb : b = 0
    · have hsame : unsigned (b :: bytes) = unsigned bytes := by
        rw [unsigned, unsigned, List.findIdx?_cons, if_neg (by simpa using hb)]
        cases bytes.findIdx? (· ≠ 0) with
        | none => rfl
        | some start => rfl
      rw [hsame, ih, withoutZeros, withoutZeros, List.dropWhile_cons_of_pos (by simpa using hb)]
    · have hwhole : unsigned (b :: bytes) = .ok (b :: bytes) := by
        rw [unsigned, List.findIdx?_cons, if_pos (by simpa using hb)]
        rfl
      rw [hwhole, withoutZeros, List.dropWhile_cons_of_neg (by simpa using hb)]
      constructor
      · intro h
        obtain rfl := Except.ok.inj h
        exact ⟨rfl, List.cons_ne_nil _ _⟩
      · rintro ⟨rfl, -⟩
        rfl

/-- A field with a number, by what remains of it. -/
theorem stripped_number (h : f.1 = modulusTag ∨ f.1 = exponentTag) :
    stripped f = (f.1, withoutZeros f.2) := if_pos h

theorem stripped_fst : (stripped f).1 = f.1 := by
  rw [stripped]
  split <;> rfl

/-- The changes relate fields exactly when they are the same but for order once stripped. -/
theorem change_iff : Relation.EqvGen Change fields fields' ↔
    (fields.map stripped).Perm (fields'.map stripped) := by
  constructor
  · intro h
    induction h with
    | rel fields fields' hchange =>
      cases hchange with
      | permuted hperm => exact hperm.map _
      | zeros before after tag number n htag =>
        rw [List.map_append, List.map_append, List.map_cons, List.map_cons,
          stripped_number htag, stripped_number htag, withoutZeros_replicate]
    | refl => exact List.Perm.refl _
    | symm _ _ _ ih => exact ih.symm
    | trans _ _ _ _ _ ih ih' => exact ih.trans ih'
  · intro h
    have hstrip (before fields : List (Tag × Bytes)) :
        Relation.EqvGen Change (before ++ fields.map stripped) (before ++ fields) := by
      induction fields generalizing before with
      | nil => exact .refl _
      | cons f fields ih =>
        have hfirst : Relation.EqvGen Change (before ++ stripped f :: fields)
            (before ++ f :: fields) := by
          by_cases hf : f.1 = modulusTag ∨ f.1 = exponentTag
          · obtain ⟨n, hn⟩ := eq_replicate_withoutZeros f.2
            have hchange := Change.zeros before fields f.1 (withoutZeros f.2) n hf
            rw [← hn] at hchange
            rw [stripped_number hf]
            exact .rel _ _ hchange
          · rw [stripped, if_neg hf]
            exact .refl _
        refine .trans _ _ _ ?_ hfirst
        have hrest := ih (before ++ [stripped f])
        rw [List.append_assoc, List.append_assoc] at hrest
        exact hrest
    refine .trans _ _ _ (.symm _ _ (hstrip [] fields)) ?_
    exact .trans _ _ _ (.rel _ _ (.permuted h)) (hstrip [] fields')

end zeros

/-! ## The scan -/

/-- The value that a scan has kept under a tag. -/
def slots (c : Components) (tag : ℕ) : Option Bytes :=
  if tag = 0x81 then c.modulus
  else if tag = 0x82 then c.exponent
  else if tag = 0x86 then c.point
  else none

def known (tag : ℕ) : Bool := tag == 0x81 || tag == 0x82 || tag == 0x86

def step (reader : TlvReader) (c : Components) (f : Tag × Bytes) : Except Error Components :=
  c.take (asTlv reader f)

section scan

variable {c c' : Components} {fields : List (Tag × Bytes)} {reader : TlvReader}
  {f : Tag × Bytes} {tag : ℕ}

theorem known_cases (h : known tag = true) : tag = 0x81 ∨ tag = 0x82 ∨ tag = 0x86 := by
  simpa [known, or_assoc] using h

theorem known_names (s t : Tag) (hs : known s.value = true) (h : s.value = t.value) : s = t := by
  rcases known_cases hs with hv | hv | hv
  · exact tag_eq_of_short (by decide : ShortTag 0x81) hv h
  · exact tag_eq_of_short (by decide : ShortTag 0x82) hv h
  · exact tag_eq_of_short (by decide : ShortTag 0x86) hv h

theorem slots_injective (h : ∀ tag, known tag = true → slots c tag = slots c' tag) : c = c' := by
  obtain ⟨modulus, exponent, point⟩ := c
  obtain ⟨modulus', exponent', point'⟩ := c'
  have hmodulus : modulus = modulus' := h 0x81 rfl
  have hexponent : exponent = exponent' := h 0x82 rfl
  have hpoint : point = point' := h 0x86 rfl
  rw [hmodulus, hexponent, hpoint]

theorem slots_update {value : Bytes} (hown : slots c' tag = some value)
    (hothers : ∀ other, other ≠ tag → slots c' other = slots c other) :
    slots c' = Function.update (slots c) tag (some value) := by
  funext other
  by_cases h : other = tag
  · rw [h, Function.update_self, hown]
  · rw [Function.update_of_ne h, hothers other h]

/-- A field goes to its own slot, which must be free. -/
theorem step_ok (hknown : known f.1.value = true) (hfree : slots c f.1.value = none) :
    ∃ c', step reader c f = .ok c' ∧
      slots c' = Function.update (slots c) f.1.value (some f.2) := by
  rw [step, Components.take, asTlv]
  dsimp only
  simp only [Option.isNone_iff_eq_none]
  rcases known_cases hknown with htag | htag | htag
  · rw [htag] at hfree ⊢
    rw [if_pos ⟨rfl, hfree⟩]
    refine ⟨_, rfl, slots_update rfl ?_⟩
    intro other hother
    rw [slots, slots, if_neg hother, if_neg hother]
  · rw [htag] at hfree ⊢
    rw [if_neg (by omega), if_pos ⟨rfl, hfree⟩]
    refine ⟨_, rfl, slots_update rfl ?_⟩
    intro other hother
    rw [slots, slots, if_neg hother, if_neg hother]
  · rw [htag] at hfree ⊢
    rw [if_neg (by omega), if_neg (by omega), if_pos ⟨rfl, hfree⟩]
    refine ⟨_, rfl, slots_update rfl ?_⟩
    intro other hother
    rw [slots, slots, if_neg hother, if_neg hother]

theorem step_free (h : step reader c f = .ok c') :
    known f.1.value = true ∧ slots c f.1.value = none := by
  rw [step, Components.take, asTlv] at h
  dsimp only at h
  simp only [Option.isNone_iff_eq_none] at h
  by_cases h81 : f.1.value = 0x81 ∧ c.modulus = none
  · rw [h81.1]
    exact ⟨rfl, h81.2⟩
  rw [if_neg h81] at h
  by_cases h82 : f.1.value = 0x82 ∧ c.exponent = none
  · rw [h82.1]
    exact ⟨rfl, h82.2⟩
  rw [if_neg h82] at h
  by_cases h86 : f.1.value = 0x86 ∧ c.point = none
  · rw [h86.1]
    exact ⟨rfl, h86.2⟩
  rw [if_neg h86] at h
  cases h

theorem step_slots (h : step reader c f = .ok c') :
    slots c' = Function.update (slots c) f.1.value (some f.2) := by
  obtain ⟨hknown, hfree⟩ := step_free h
  obtain ⟨after, hafter, hslots⟩ := step_ok hknown hfree
  obtain rfl := Except.ok.inj (h.symm.trans hafter)
  exact hslots

theorem collects (reader : TlvReader) :
    Collects (step reader) (fun _ => True) slots (fun _ => []) known
      fun f => known f.1.value = true := by
  constructor
  · intro c f _
    constructor
    · rintro ⟨c', h⟩
      obtain ⟨hknown, hfree⟩ := step_free h
      exact ⟨hknown, fun _ => hfree⟩
    · rintro ⟨hknown, hfree⟩
      obtain ⟨c', h, -⟩ := step_ok hknown (hfree hknown)
      exact ⟨c', h⟩
  · intro c f c' _ _
    trivial
  · intro c f c' _ h _
    exact ⟨step_slots h, rfl⟩
  · intro c f c' _ h hknown
    rw [(step_free h).1] at hknown
    cases hknown

theorem known_componentFields (hf : f ∈ componentFields c) : known f.1.value = true := by
  obtain ⟨modulus, exponent, point⟩ := c
  rw [componentFields, List.mem_append, List.mem_append, List.mem_map, List.mem_map,
    List.mem_map] at hf
  rcases hf with (⟨value, -, rfl⟩ | ⟨value, -, rfl⟩) | ⟨value, -, rfl⟩
  all_goals rfl

theorem valuesOf_componentFields (h : known tag = true) :
    valuesOf tag (componentFields c) = (slots c tag).toList := by
  obtain ⟨modulus, exponent, point⟩ := c
  rcases known_cases h with rfl | rfl | rfl
  all_goals cases modulus <;> cases exponent <;> cases point <;> rfl

/-- Components are known from their fields in any order. -/
theorem componentFields_inj (h : (componentFields c).Perm (componentFields c')) : c = c' := by
  apply slots_injective
  intro tag htag
  have hvalues := @valuesOf_perm tag _ _ h
  rw [valuesOf_componentFields htag, valuesOf_componentFields htag] at hvalues
  exact (toList_inj (eq_of_perm_short hvalues Option.length_toList_le)).symm

theorem foreign_nil (h : ∀ f ∈ fields, known f.1.value = true) : foreign known fields = [] := by
  rw [foreign, List.filter_eq_nil_iff]
  intro f hf
  rw [h f hf]
  exact Bool.false_ne_true

theorem slots_empty : slots {} = fun _ => none := by
  funext tag
  simp [slots]

theorem scans : (∃ c, fields.foldlM (step reader) {} = .ok c) ↔
    (∀ f ∈ fields, known f.1.value = true) ∧
      ∀ tag, known tag = true → (valuesOf tag fields).length ≤ 1 :=
  (collects reader).iff_of_empty trivial slots_empty

/-- The scan collects the fields of components in any order, and no others. -/
theorem scan_iff : fields.foldlM (step reader) {} = .ok c ↔ fields.Perm (componentFields c) := by
  have hsound {c : Components} (h : fields.foldlM (step reader) {} = .ok c) :
      fields.Perm (componentFields c) := by
    obtain ⟨-, hlegal, hslots, -⟩ := (collects reader).fold trivial h
    refine perm_of_same known_names ?_ ?_
    · intro tag htag
      rw [valuesOf_componentFields htag, hslots tag htag, slots_empty]
      rfl
    · rw [foreign_nil hlegal, foreign_nil fun f => known_componentFields]
  constructor
  · exact hsound
  · intro h
    have hall : ∃ c', fields.foldlM (step reader) {} = .ok c' := by
      refine scans.mpr ⟨?_, ?_⟩
      · intro f hf
        exact known_componentFields (h.mem_iff.mp hf)
      · intro tag htag
        rw [(valuesOf_perm h).length_eq, valuesOf_componentFields htag]
        exact Option.length_toList_le
    obtain ⟨c', hc'⟩ := hall
    obtain rfl := componentFields_inj ((hsound hc').symm.trans h)
    exact hc'

end scan

/-! ## Keys -/

/-- Components without the zeros before their numbers. -/
def withoutLeading (c : Components) : Components :=
  ⟨c.modulus.map withoutZeros, c.exponent.map withoutZeros, c.point⟩

/-- The end of the parser. -/
def fromComponents (algorithm : Algorithm) (c : Components) : Except Error PublicKey :=
  match rsaLen algorithm with
  | some len => rsaKey algorithm len c
  | none => pointKey algorithm c

section key

variable {algorithm : Algorithm} {c : Components} {key : PublicKey} {fields : List (Tag × Bytes)}
  {bytes : Bytes} {limit n : ℕ}

theorem map_stripped (c : Components) :
    (componentFields c).map stripped = componentFields (withoutLeading c) := by
  obtain ⟨modulus, exponent, point⟩ := c
  cases modulus <;> cases exponent <;> cases point <;> rfl

/-- The families of algorithms are disjoint. -/
theorem curve_not_rsa (h : curveLen algorithm = some n) : rsaLen algorithm = none := by
  cases algorithm <;> cases h <;> rfl

theorem raw_not_curve (h : rawLen algorithm = some n) :
    rsaLen algorithm = none ∧ curveLen algorithm = none := by
  cases algorithm <;> cases h <;> exact ⟨rfl, rfl⟩

theorem required_eq_ok {α : Type} {value : Option α} {a : α} :
    required value = .ok a ↔ value = some a := by
  cases value with
  | none => simp [required]
  | some b => simp [required]

theorem rsaKey_eq_ok : rsaKey algorithm n c = .ok key ↔ ∃ modulus exponent,
    withoutLeading c = { modulus := some modulus, exponent := some exponent } ∧
      modulus ≠ [] ∧ exponent ≠ [] ∧ modulus.length = n ∧ exponent.length ≤ n ∧
      key = .rsa algorithm modulus exponent := by
  obtain ⟨modulus, exponent, point⟩ := c
  rw [rsaKey]
  dsimp only
  constructor
  · intro h
    cases point with
    | some point => cases h
    | none =>
      rw [if_neg (by simp)] at h
      obtain ⟨bytes, hmodulus, h⟩ := bind_eq_ok.mp h
      obtain ⟨m, hm, h⟩ := bind_eq_ok.mp h
      obtain ⟨bytes', hexponent, h⟩ := bind_eq_ok.mp h
      obtain ⟨e, he, h⟩ := bind_eq_ok.mp h
      obtain rfl := required_eq_ok.mp hmodulus
      obtain rfl := required_eq_ok.mp hexponent
      obtain ⟨rfl, hm⟩ := unsigned_eq_ok.mp hm
      obtain ⟨rfl, he⟩ := unsigned_eq_ok.mp he
      split at h
      · cases h
      · next hgood =>
        push Not at hgood
        exact ⟨_, _, rfl, hm, he, hgood.1, hgood.2, (Except.ok.inj h).symm⟩
  · rintro ⟨m, e, hc, hm, he, hlen, hexponent, rfl⟩
    injection hc with hmodulus hexp hpoint
    obtain ⟨bytes, rfl, hbytes⟩ := Option.map_eq_some_iff.mp hmodulus
    obtain ⟨bytes', rfl, hbytes'⟩ := Option.map_eq_some_iff.mp hexp
    obtain rfl := hpoint
    rw [if_neg (by simp)]
    refine bind_eq_ok.mpr ⟨bytes, rfl, bind_eq_ok.mpr ⟨m, unsigned_eq_ok.mpr ⟨hbytes, hm⟩, ?_⟩⟩
    refine bind_eq_ok.mpr ⟨bytes', rfl, bind_eq_ok.mpr ⟨e, unsigned_eq_ok.mpr ⟨hbytes', he⟩, ?_⟩⟩
    rw [if_neg (by omega)]

theorem pointKey_eq_ok : pointKey algorithm c = .ok key ↔ ∃ point,
    c = { point := some point } ∧
      ((∃ n, curveLen algorithm = some n ∧ point.length = 1 + 2 * n ∧ point.head? = some 4 ∧
          key = .ec algorithm point) ∨
        curveLen algorithm = none ∧ rawLen algorithm = some point.length ∧
          key = .raw algorithm point) := by
  obtain ⟨modulus, exponent, point⟩ := c
  rw [pointKey]
  dsimp only
  constructor
  · intro h
    split at h
    · cases h
    · next hnone =>
      simp only [not_or, Option.not_isSome_iff_eq_none] at hnone
      obtain ⟨rfl, rfl⟩ := hnone
      obtain ⟨bytes, hpoint, hkey⟩ := bind_eq_ok.mp h
      obtain rfl := required_eq_ok.mp hpoint
      refine ⟨bytes, rfl, ?_⟩
      cases hcurve : curveLen algorithm with
      | none =>
        rw [hcurve] at hkey
        dsimp only at hkey
        split at hkey
        · next hraw => exact Or.inr ⟨rfl, hraw, (Except.ok.inj hkey).symm⟩
        · cases hkey
      | some n =>
        rw [hcurve] at hkey
        dsimp only at hkey
        split at hkey
        · cases hkey
        · next hgood =>
          push Not at hgood
          exact Or.inl ⟨n, rfl, by omega, hgood.2, (Except.ok.inj hkey).symm⟩
  · rintro ⟨bytes, hc, hkey⟩
    injection hc with hmodulus hexponent hpoint
    subst hmodulus hexponent hpoint
    rw [if_neg (by simp)]
    refine bind_eq_ok.mpr ⟨bytes, rfl, ?_⟩
    rcases hkey with ⟨n, hcurve, hlen, hfirst, rfl⟩ | ⟨hcurve, hraw, rfl⟩
    · rw [hcurve]
      dsimp only
      rw [if_neg]
      push Not
      exact ⟨by omega, hfirst⟩
    · rw [hcurve]
      dsimp only
      rw [if_pos hraw]

theorem withoutLeading_head {modulus exponent : Bytes}
    (h : withoutLeading c = { modulus := some modulus, exponent := some exponent }) :
    modulus.head? ≠ some 0 ∧ exponent.head? ≠ some 0 := by
  injection h with hmodulus hexponent hpoint
  obtain ⟨bytes, -, rfl⟩ := Option.map_eq_some_iff.mp hmodulus
  obtain ⟨bytes', -, rfl⟩ := Option.map_eq_some_iff.mp hexponent
  exact ⟨withoutZeros_head bytes, withoutZeros_head bytes'⟩

theorem withoutLeading_point {point : Bytes} :
    withoutLeading c = { point := some point } ↔ c = { point := some point } := by
  obtain ⟨modulus, exponent, point'⟩ := c
  cases modulus <;> cases exponent <;> simp [withoutLeading]

/-- The parser ends with a key exactly when the key is valid and these are its components. -/
theorem fromComponents_eq_ok : fromComponents algorithm c = .ok key ↔
    key.algorithm = algorithm ∧ Valid key ∧ withoutLeading c = components key := by
  rw [fromComponents]
  constructor
  · intro h
    cases hrsa : rsaLen algorithm with
    | some len =>
      rw [hrsa] at h
      obtain ⟨modulus, exponent, hc, hmodulus, hexponent, hlen, hshort, rfl⟩ := rsaKey_eq_ok.mp h
      obtain ⟨hhead, hhead'⟩ := withoutLeading_head hc
      refine ⟨rfl, ⟨?_, hexponent, ?_, hhead, hhead'⟩, hc⟩
      · rw [hlen, hrsa]
      · omega
    | none =>
      rw [hrsa] at h
      obtain ⟨point, hc, ⟨n, hcurve, hlen, hfirst, rfl⟩ | ⟨-, hraw, rfl⟩⟩ := pointKey_eq_ok.mp h
      · exact ⟨rfl, ⟨n, hcurve, hlen, hfirst⟩, withoutLeading_point.mpr hc⟩
      · exact ⟨rfl, hraw, withoutLeading_point.mpr hc⟩
  · rintro ⟨rfl, hvalid, hc⟩
    cases key with
    | rsa algorithm modulus exponent =>
      obtain ⟨hlen, hexponent, hshort, hhead, hhead'⟩ := hvalid
      rw [PublicKey.algorithm, hlen]
      refine rsaKey_eq_ok.mpr ⟨modulus, exponent, hc, ?_, hexponent, rfl, hshort, rfl⟩
      rintro rfl
      exact hexponent (List.length_eq_zero_iff.mp (Nat.le_zero.mp hshort))
    | ec algorithm point =>
      obtain ⟨n, hcurve, hlen, hfirst⟩ := hvalid
      rw [PublicKey.algorithm, curve_not_rsa hcurve]
      exact pointKey_eq_ok.mpr
        ⟨point, withoutLeading_point.mp hc, Or.inl ⟨n, hcurve, hlen, hfirst, rfl⟩⟩
    | raw algorithm bytes =>
      obtain ⟨hrsa, hcurve⟩ := raw_not_curve hvalid
      rw [PublicKey.algorithm, hrsa]
      exact pointKey_eq_ok.mpr
        ⟨bytes, withoutLeading_point.mp hc, Or.inr ⟨hcurve, hvalid, rfl⟩⟩

theorem length_valuesOf_stripped (tag : ℕ) (fields : List (Tag × Bytes)) :
    (valuesOf tag (fields.map stripped)).length = (valuesOf tag fields).length := by
  rw [valuesOf, valuesOf, List.length_map, List.length_map, ← List.countP_eq_length_filter,
    ← List.countP_eq_length_filter, List.countP_map]
  congr 1
  funext f
  rw [Function.comp_apply, stripped_fst]

/-- What the scan collects, by the stripped fields. -/
theorem scan_stripped {reader : TlvReader} {d : Components} :
    (∃ c, fields.foldlM (step reader) {} = .ok c ∧ withoutLeading c = d) ↔
      (fields.map stripped).Perm (componentFields d) := by
  have hsound {c : Components} (h : fields.foldlM (step reader) {} = .ok c) :
      (fields.map stripped).Perm (componentFields (withoutLeading c)) := by
    rw [← map_stripped]
    exact (scan_iff.mp h).map _
  constructor
  · rintro ⟨c, hscan, rfl⟩
    exact hsound hscan
  · intro h
    have hall : ∃ c, fields.foldlM (step reader) {} = .ok c := by
      refine scans.mpr ⟨?_, ?_⟩
      · intro f hf
        have hmem := h.mem_iff.mp (List.mem_map_of_mem hf)
        rw [← @stripped_fst f]
        exact known_componentFields hmem
      · intro tag htag
        rw [← length_valuesOf_stripped, (valuesOf_perm h).length_eq, valuesOf_componentFields htag]
        exact Option.length_toList_le
    obtain ⟨c, hc⟩ := hall
    exact ⟨c, hc, componentFields_inj ((hsound hc).symm.trans h)⟩

/-- The parser reads a key exactly from its fields, in any order and with any zeros before its
numbers. -/
theorem fromTlv_eq_ok : PublicKey.fromTlv algorithm bytes limit = .ok key ↔
    bytes.length ≤ limit ∧ key.algorithm = algorithm ∧ Valid key ∧
      ∃ fields, StrictSequence { maxValueBytes := limit } fields bytes ∧
        (fields.map stripped).Perm (keyFields key) := by
  rw [PublicKey.fromTlv]
  constructor
  · intro h
    split at h
    · cases h
    · next hlimit =>
      obtain ⟨c, hread, hkey⟩ := bind_eq_ok.mp h
      obtain ⟨fields, hfields, hscan⟩ := (readFields_strict rfl (show 1 ≤ 16 by decide)).mp hread
      obtain ⟨halgorithm, hvalid, hc⟩ := fromComponents_eq_ok.mp hkey
      exact ⟨Nat.le_of_not_lt hlimit, halgorithm, hvalid, fields, hfields,
        scan_stripped.mp ⟨c, hscan, hc⟩⟩
  · rintro ⟨hlimit, halgorithm, hvalid, fields, hfields, hperm⟩
    obtain ⟨c, hscan, hc⟩ :=
      (@scan_stripped fields (.new bytes { maxValueBytes := limit }) (components key)).mpr hperm
    rw [if_neg (Nat.not_lt_of_le hlimit)]
    refine bind_eq_ok.mpr ⟨c, ?_, fromComponents_eq_ok.mpr ⟨halgorithm, hvalid, hc⟩⟩
    exact (readFields_strict rfl (show 1 ≤ 16 by decide)).mpr ⟨fields, hfields, hscan⟩

end key

/-! ## Canonical keys -/

/-- The tags of the fields that a key of the algorithm has. -/
def fieldTags (algorithm : Algorithm) : List Tag :=
  if (rsaLen algorithm).isSome then [modulusTag, exponentTag] else [pointTag]

/-- Faults of fields, each alone enough to refuse them. -/
inductive Faulty (algorithm : Algorithm) (fields : List (Tag × Bytes)) : Prop where
  | duplicate (tag : ℕ) (h : 2 ≤ (valuesOf tag fields).length)
  | foreign (f : Tag × Bytes) (hf : f ∈ fields) (h : f.1 ∉ fieldTags algorithm)
  | missing (tag : Tag) (htag : tag ∈ fieldTags algorithm) (h : ∀ f ∈ fields, f.1 ≠ tag)
  | zero (f : Tag × Bytes) (hf : f ∈ fields) (htag : f.1 = modulusTag ∨ f.1 = exponentTag)
      (h : ∀ b ∈ f.2, b = 0)
  | modulus (f : Tag × Bytes) (n : ℕ) (hf : f ∈ fields) (htag : f.1 = modulusTag)
      (hrsa : rsaLen algorithm = some n) (h : (withoutZeros f.2).length ≠ n)
  | exponent (f : Tag × Bytes) (n : ℕ) (hf : f ∈ fields) (htag : f.1 = exponentTag)
      (hrsa : rsaLen algorithm = some n) (h : n < (withoutZeros f.2).length)
  | point (f : Tag × Bytes) (n : ℕ) (hf : f ∈ fields) (htag : f.1 = pointTag)
      (hcurve : curveLen algorithm = some n) (h : f.2.length ≠ 1 + 2 * n ∨ f.2.head? ≠ some 4)
  | raw (f : Tag × Bytes) (n : ℕ) (hf : f ∈ fields) (htag : f.1 = pointTag)
      (hraw : rawLen algorithm = some n) (h : f.2.length ≠ n)

section canonical

variable {algorithm : Algorithm} {key : PublicKey} {fields : List (Tag × Bytes)}
  {f : Tag × Bytes} {c : Components}

theorem keyFields_tags (h : Valid key) : (keyFields key).map (·.1) = fieldTags key.algorithm := by
  cases key with
  | rsa algorithm modulus exponent =>
    rw [fieldTags, PublicKey.algorithm, h.1]
    rfl
  | ec algorithm point =>
    obtain ⟨n, hcurve, -⟩ := h
    rw [fieldTags, PublicKey.algorithm, curve_not_rsa hcurve]
    rfl
  | raw algorithm bytes =>
    rw [fieldTags, PublicKey.algorithm, (raw_not_curve h).1]
    rfl

theorem length_valuesOf_componentFields (n : ℕ) : (valuesOf n (componentFields c)).length ≤ 1 := by
  cases hknown : known n with
  | true =>
    rw [valuesOf_componentFields hknown]
    exact Option.length_toList_le
  | false =>
    rw [List.length_eq_zero_iff.mpr]
    · exact Nat.zero_le _
    · rw [List.eq_nil_iff_forall_not_mem]
      intro value hvalue
      obtain ⟨f, hf, rfl, -⟩ := mem_valuesOf.mp hvalue
      rw [known_componentFields hf] at hknown
      cases hknown

/-- Numbers are those of an RSA key. -/
theorem number_of_key (h : stripped f ∈ keyFields key)
    (htag : f.1 = modulusTag ∨ f.1 = exponentTag) :
    ∃ algorithm modulus exponent, key = .rsa algorithm modulus exponent ∧
      (f.1 = modulusTag ∧ withoutZeros f.2 = modulus ∨
        f.1 = exponentTag ∧ withoutZeros f.2 = exponent) := by
  rw [stripped_number htag] at h
  cases key with
  | rsa algorithm modulus exponent =>
    refine ⟨algorithm, modulus, exponent, rfl, ?_⟩
    rcases List.mem_pair.mp h with h | h
    · exact Or.inl ⟨congrArg Prod.fst h, congrArg Prod.snd h⟩
    · exact Or.inr ⟨congrArg Prod.fst h, congrArg Prod.snd h⟩
  | ec algorithm point | raw algorithm point =>
    rw [show f.1 = pointTag from congrArg Prod.fst (List.mem_singleton.mp h)] at htag
    exact absurd htag (by decide)

/-- A point or a raw key is the whole key. -/
theorem point_of_key (h : stripped f ∈ keyFields key) (htag : f.1 = pointTag) :
    ∃ algorithm, key = .ec algorithm f.2 ∨ key = .raw algorithm f.2 := by
  rw [stripped, if_neg (by rw [htag]; decide)] at h
  cases key with
  | rsa algorithm modulus exponent =>
    rcases List.mem_pair.mp h with h | h
    · have htags : pointTag = modulusTag := htag.symm.trans (congrArg Prod.fst h)
      exact absurd htags (by decide)
    · have htags : pointTag = exponentTag := htag.symm.trans (congrArg Prod.fst h)
      exact absurd htags (by decide)
  | ec algorithm point =>
    obtain rfl : f.2 = point := congrArg Prod.snd (List.mem_singleton.mp h)
    exact ⟨algorithm, Or.inl rfl⟩
  | raw algorithm bytes =>
    obtain rfl : f.2 = bytes := congrArg Prod.snd (List.mem_singleton.mp h)
    exact ⟨algorithm, Or.inr rfl⟩

/-- No valid key has faulty fields. -/
theorem Faulty.refused (h : Faulty key.algorithm fields) (hvalid : Valid key)
    (hperm : (fields.map stripped).Perm (keyFields key)) : False := by
  have hmem {f : Tag × Bytes} (hf : f ∈ fields) : stripped f ∈ keyFields key :=
    hperm.mem_iff.mp (List.mem_map_of_mem hf)
  cases h with
  | duplicate tag h =>
    rw [← length_valuesOf_stripped, (valuesOf_perm hperm).length_eq] at h
    have hone := @length_valuesOf_componentFields (components key) tag
    exact absurd (h.trans hone) (by decide)
  | foreign f hf h =>
    apply h
    rw [← keyFields_tags hvalid, ← stripped_fst]
    exact List.mem_map_of_mem (hmem hf)
  | missing tag htag h =>
    rw [← keyFields_tags hvalid] at htag
    obtain ⟨g, hg, rfl⟩ := List.mem_map.mp htag
    obtain ⟨f, hf, rfl⟩ := List.mem_map.mp (hperm.mem_iff.mpr hg)
    exact h f hf stripped_fst.symm
  | zero f hf htag h =>
    have hnil := withoutZeros_eq_nil.mpr h
    obtain ⟨algorithm, modulus, exponent, rfl, hnumber⟩ := number_of_key (hmem hf) htag
    obtain ⟨-, hexponent, hshort, -⟩ := hvalid
    rcases hnumber with ⟨-, hm⟩ | ⟨-, he⟩
    · rw [← hm, hnil] at hshort
      exact hexponent (List.length_eq_zero_iff.mp (Nat.le_zero.mp hshort))
    · exact hexponent (he.symm.trans hnil)
  | modulus f n hf htag hrsa h =>
    obtain ⟨algorithm, modulus, exponent, rfl, ⟨-, hm⟩ | ⟨hother, -⟩⟩ :=
      number_of_key (hmem hf) (Or.inl htag)
    · rw [hm] at h
      exact h (Option.some.inj (hvalid.1.symm.trans hrsa))
    · exact absurd (htag.symm.trans hother) (by decide)
  | exponent f n hf htag hrsa h =>
    obtain ⟨algorithm, modulus, exponent, rfl, ⟨hother, -⟩ | ⟨-, he⟩⟩ :=
      number_of_key (hmem hf) (Or.inr htag)
    · exact absurd (htag.symm.trans hother) (by decide)
    · obtain ⟨hlen, -, hshort, -⟩ := hvalid
      rw [he] at h
      obtain rfl := Option.some.inj (hlen.symm.trans hrsa)
      omega
  | point f n hf htag hcurve h =>
    obtain ⟨algorithm, rfl | rfl⟩ := point_of_key (hmem hf) htag
    · obtain ⟨n', hcurve', hlen, hfirst⟩ := hvalid
      obtain rfl := Option.some.inj (hcurve'.symm.trans hcurve)
      rcases h with h | h
      · exact h hlen
      · exact h hfirst
    · cases hcurve.symm.trans (raw_not_curve hvalid).2
  | raw f n hf htag hraw h =>
    obtain ⟨algorithm, rfl | rfl⟩ := point_of_key (hmem hf) htag
    · obtain ⟨n', hcurve, -⟩ := hvalid
      cases hcurve.symm.trans (raw_not_curve hraw).2
    · exact h (Option.some.inj (hvalid.symm.trans hraw))

end canonical

/-- Every key that is parsed is encoded. Fields in another order and other zeros before the
numbers of an RSA key give the same key, and nothing else does; faulty fields are refused. -/
theorem from_tlv_canonical (lib : DerLibrary) (hlib : lib.Succeeds) (algorithm : Algorithm)
    (bytes : Bytes) (limit : ℕ) :
    (∀ key, PublicKey.fromTlv algorithm bytes limit = .ok key →
      Valid key ∧ ∃ der, toSpkiDer lib key = .ok der) ∧
    (∀ key bytes' limit', PublicKey.fromTlv algorithm bytes limit = .ok key →
      Respelled bytes bytes' → bytes'.length ≤ limit' →
      PublicKey.fromTlv algorithm bytes' limit' = .ok key) ∧
    (∀ key algorithm' bytes' limit', PublicKey.fromTlv algorithm bytes limit = .ok key →
      PublicKey.fromTlv algorithm' bytes' limit' = .ok key →
      algorithm' = algorithm ∧ Respelled bytes bytes') ∧
    ∀ limits fields, StrictSequence limits fields bytes → Faulty algorithm fields →
      ∃ e, PublicKey.fromTlv algorithm bytes limit = .error e := by
  refine ⟨?_, ?_, ?_, ?_⟩
  · intro key h
    obtain ⟨-, -, hvalid, -⟩ := fromTlv_eq_ok.mp h
    exact ⟨hvalid, (toSpkiDer_iff hlib).mpr hvalid⟩
  · rintro key bytes' limit' h ⟨limits, fields, fields', hfields, hfields', hchange⟩ hlimit'
    obtain ⟨hlimit, halgorithm, hvalid, found, hfound, hperm⟩ := fromTlv_eq_ok.mp h
    obtain rfl := hfound.unique (hfields.within hlimit)
    refine fromTlv_eq_ok.mpr ⟨hlimit', halgorithm, hvalid, fields', hfields'.within hlimit', ?_⟩
    exact (change_iff.mp hchange).symm.trans hperm
  · intro key algorithm' bytes' limit' h h'
    obtain ⟨hlimit, rfl, -, fields, hfields, hperm⟩ := fromTlv_eq_ok.mp h
    obtain ⟨hlimit', rfl, -, fields', hfields', hperm'⟩ := fromTlv_eq_ok.mp h'
    refine ⟨rfl, { maxValueBytes := max limit limit' }, fields, fields', ?_, ?_, ?_⟩
    · exact hfields.within (hlimit.trans (le_max_left limit limit'))
    · exact hfields'.within (hlimit'.trans (le_max_right limit limit'))
    · exact change_iff.mpr (hperm.trans hperm'.symm)
  · intro limits fields hfields hfaulty
    cases hparse : PublicKey.fromTlv algorithm bytes limit with
    | error e => exact ⟨e, rfl⟩
    | ok key =>
      obtain ⟨hlimit, rfl, hvalid, found, hfound, hperm⟩ := fromTlv_eq_ok.mp hparse
      obtain rfl := hfound.unique (hfields.within hlimit)
      exact absurd hperm (hfaulty.refused hvalid)

/-- A key of 1024 bits, the second time with its exponent first and with zeros before both. -/
theorem from_tlv_canonical_zeros :
    Respelled ([0x81, 0x81, 128] ++ List.replicate 128 0xc1 ++ [0x82, 3, 1, 0, 1])
      ([0x82, 4, 0, 1, 0, 1, 0x81, 0x81, 130, 0, 0] ++ List.replicate 128 0xc1) ∧
    ∃ der, toSpkiDer derEncoder (.rsa .rsa1024 (List.replicate 128 0xc1) [1, 0, 1]) = .ok der := by
  obtain ⟨hencoded, -, hcanonical, -⟩ := from_tlv_canonical derEncoder derEncoder_succeeds .rsa1024
    ([0x81, 0x81, 128] ++ List.replicate 128 0xc1 ++ [0x82, 3, 1, 0, 1]) 256
  have hkey : PublicKey.fromTlv .rsa1024
      ([0x81, 0x81, 128] ++ List.replicate 128 0xc1 ++ [0x82, 3, 1, 0, 1]) 256 =
        .ok (.rsa .rsa1024 (List.replicate 128 0xc1) [1, 0, 1]) := by
    decide +kernel
  have hzeros : PublicKey.fromTlv .rsa1024
      ([0x82, 4, 0, 1, 0, 1, 0x81, 0x81, 130, 0, 0] ++ List.replicate 128 0xc1) 256 =
        .ok (.rsa .rsa1024 (List.replicate 128 0xc1) [1, 0, 1]) := by
    decide +kernel
  exact ⟨(hcanonical _ _ _ _ hkey hzeros).2, (hencoded _ hkey).2⟩

end KeyPublicKeyFields
