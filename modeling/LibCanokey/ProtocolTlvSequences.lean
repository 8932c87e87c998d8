import LibCanokey.ProtocolTlvFields

/-! # Strict sequences of fields

The loop of a strict reader is the fold of its step over the one sequence of fields that its
input encodes. What such a fold collects under each tag does not depend on their order. -/
namespace ProtocolTlvSequences

open BigEndian ListTraversal ProtocolError ProtocolTlv ProtocolTlvRoundTrip ProtocolTlvFields

/-- The bytes are the shortest encodings of the fields, each admitted by the limits. -/
structure StrictSequence (limits : TlvLimits) (fields : List (Tag × Bytes)) (bytes : Bytes) :
    Prop where
  bytes : bytes = fields.flatMap encodeField
  admitted : ∀ f ∈ fields, Admitted limits f

/-- A field as the strict reader hands it over. -/
def asTlv (reader : TlvReader) (f : Tag × Bytes) : Tlv :=
  ⟨f.1, f.2, reader.depth, reader.limits, true⟩

section loop

variable {β : Type*} {step : β → Tlv → Except Error β} {reader : TlvReader} {acc acc' : β}
  {fields : List (Tag × Bytes)}

theorem readFields_complete (hm : reader.minimalLengths = true)
    (hd : reader.depth ≤ reader.limits.maxDepth)
    (h : StrictSequence reader.limits fields reader.bytes) :
    readFields step reader acc = fields.foldlM (fun acc f => step acc (asTlv reader f)) acc := by
  induction fields generalizing reader acc with
  | nil => exact readFields_nil h.bytes
  | cons f fields ih =>
    obtain ⟨hf, hfields⟩ := List.forall_mem_cons.mp h.admitted
    rw [readFields_cons (by rw [h.bytes, List.flatMap_cons]) hf hd, hm, List.foldlM_cons]
    congr 1
    funext acc
    exact @ih { reader with bytes := fields.flatMap encodeField, minimalLengths := true } acc rfl hd
      ⟨rfl, hfields⟩

/-- Whatever the step, the loop succeeds only on the encoding of some fields. The induction is on
the bytes. -/
theorem readFields_sound (hm : reader.minimalLengths = true)
    (h : readFields step reader acc = .ok acc') :
    ∃ fields, StrictSequence reader.limits fields reader.bytes := by
  generalize hn : reader.bytes.length = n
  induction n using Nat.strong_induction_on generalizing reader acc with
  | h n ih =>
    rw [readFields_next] at h
    split at h
    · cases h
    · next rest hnext =>
      refine ⟨[], next_none hnext, ?_⟩
      intro f hf
      cases hf
    · next field rest hnext =>
      obtain ⟨hbytes, hrest, hadmitted, -⟩ := next_sound hm hnext
      obtain ⟨middle, -, hloop⟩ := bind_eq_ok.mp h
      have hshort := next_shorter hnext
      rw [hrest] at hloop
      obtain ⟨fields, hfields⟩ := @ih rest.bytes.length (by omega)
        { reader with bytes := rest.bytes } middle hm hloop rfl
      refine ⟨(field.tag, field.value) :: fields, ?_, ?_⟩
      · rw [hbytes, List.flatMap_cons]
        exact congrArg _ hfields.bytes
      · exact List.forall_mem_cons.mpr ⟨hadmitted, hfields.admitted⟩

/-- The loop is the fold over the fields of the input. -/
theorem readFields_strict (hm : reader.minimalLengths = true)
    (hd : reader.depth ≤ reader.limits.maxDepth) : readFields step reader acc = .ok acc' ↔
      ∃ fields, StrictSequence reader.limits fields reader.bytes ∧
        fields.foldlM (fun acc f => step acc (asTlv reader f)) acc = .ok acc' := by
  constructor
  · intro h
    obtain ⟨fields, hfields⟩ := readFields_sound hm h
    refine ⟨fields, hfields, ?_⟩
    rw [← readFields_complete hm hd hfields]
    exact h
  · rintro ⟨fields, hfields, hfold⟩
    rw [readFields_complete hm hd hfields]
    exact hfold

/-- Bytes encode one sequence at most. -/
theorem StrictSequence.unique {limits : TlvLimits} {fields' : List (Tag × Bytes)} {bytes : Bytes}
    (h : StrictSequence limits fields bytes) (h' : StrictSequence limits fields' bytes) :
    fields = fields' := by
  have hreader {fs : List (Tag × Bytes)} (hs : StrictSequence limits fs bytes) :
      Yields ⟨bytes, 0, limits, true⟩ fs := yields_complete hs.bytes hs.admitted (Nat.zero_le _)
  exact yields_unique (hreader h) (hreader h')

/-- A limit that the bytes themselves keep admits each of their fields. -/
theorem StrictSequence.within {limits limits' : TlvLimits} {bytes : Bytes}
    (h : StrictSequence limits fields bytes) (hlen : bytes.length ≤ limits'.maxValueBytes) :
    StrictSequence limits' fields bytes := by
  refine ⟨h.bytes, ?_⟩
  intro f hf
  obtain ⟨hword, hsize, -⟩ := h.admitted f hf
  refine ⟨hword, hsize, ?_⟩
  obtain ⟨before, after, rfl⟩ := List.append_of_mem hf
  have hbytes := congrArg List.length h.bytes
  rw [List.flatMap_append, List.flatMap_cons, List.length_append, List.length_append,
    length_encodeField] at hbytes
  omega

end loop

/-! ## The values under a tag -/

/-- The values of the fields under a tag, in order. -/
def valuesOf (tag : ℕ) (fields : List (Tag × Bytes)) : List Bytes :=
  (fields.filter fun f => f.1.value == tag).map (·.2)

section values

variable {tag : ℕ} {f : Tag × Bytes} {fields fields' : List (Tag × Bytes)}

theorem valuesOf_cons_of_eq (h : f.1.value = tag) :
    valuesOf tag (f :: fields) = f.2 :: valuesOf tag fields := by
  rw [valuesOf, List.filter_cons_of_pos (by simp [h])]
  rfl

theorem valuesOf_cons_of_ne (h : f.1.value ≠ tag) :
    valuesOf tag (f :: fields) = valuesOf tag fields := by
  rw [valuesOf, List.filter_cons_of_neg (by simp [h])]
  rfl

theorem valuesOf_perm (h : fields.Perm fields') :
    (valuesOf tag fields).Perm (valuesOf tag fields') := (h.filter _).map _

theorem mem_valuesOf {value : Bytes} :
    value ∈ valuesOf tag fields ↔ ∃ f ∈ fields, f.1.value = tag ∧ f.2 = value := by
  simp [valuesOf, and_assoc]

end values

/-! ## Folds that collect one value under each known tag -/

/-- A step that keeps the values of known tags in slots, one each, and the other fields in order,
from the states of `inv` on. -/
structure Collects {β : Type*} (step : β → Tag × Bytes → Except Error β) (inv : β → Prop)
    (slots : β → ℕ → Option Bytes) (others : β → List (Tag × Bytes)) (known : ℕ → Bool)
    (legal : Tag × Bytes → Prop) : Prop where
  accepts : ∀ c f, inv c →
    ((∃ c', step c f = .ok c') ↔ legal f ∧ (known f.1.value = true → slots c f.1.value = none))
  keeps : ∀ c f c', inv c → step c f = .ok c' → inv c'
  takes : ∀ c f c', inv c → step c f = .ok c' → known f.1.value = true →
    slots c' = Function.update (slots c) f.1.value (some f.2) ∧ others c' = others c
  leaves : ∀ c f c', inv c → step c f = .ok c' → known f.1.value = false →
    slots c' = slots c ∧ others c' = others c ++ [f]

/-- The fields under no known tag, in order. -/
def foreign (known : ℕ → Bool) (fields : List (Tag × Bytes)) : List (Tag × Bytes) :=
  fields.filter fun f => !known f.1.value

/-- The values under the known tags and the other fields are all there is to the fields, where
the number of a known tag says which tag it is. -/
theorem perm_of_same {known : ℕ → Bool} {fields fields' : List (Tag × Bytes)}
    (hnames : ∀ s t : Tag, known s.value = true → s.value = t.value → s = t)
    (hvalues : ∀ tag, known tag = true → valuesOf tag fields = valuesOf tag fields')
    (hforeign : foreign known fields = foreign known fields') : fields.Perm fields' := by
  rw [List.perm_iff_count]
  intro f
  cases hknown : known f.1.value with
  | true =>
    have hcount (fs : List (Tag × Bytes)) : fs.count f = (valuesOf f.1.value fs).count f.2 := by
      induction fs with
      | nil => rfl
      | cons g fs ih =>
        by_cases hown : g.1.value = f.1.value
        · rw [valuesOf_cons_of_eq hown, List.count_cons, List.count_cons, ih]
          have htag := hnames f.1 g.1 hknown hown.symm
          have hsame : (g == f) = (g.2 == f.2) := by
            rw [Bool.eq_iff_iff, beq_iff_eq, beq_iff_eq, Prod.ext_iff, htag]
            simp
          rw [hsame]
        · rw [valuesOf_cons_of_ne hown, List.count_cons_of_ne, ih]
          rintro rfl
          exact hown rfl
    rw [hcount, hcount, hvalues _ hknown]
  | false =>
    have hcount (fs : List (Tag × Bytes)) : (foreign known fs).count f = fs.count f :=
      List.count_filter (by simp [hknown])
    rw [← hcount, ← hcount fields', hforeign]

/-- A list of one element at most is its only permutation. -/
theorem eq_of_perm_short {α : Type*} {xs ys : List α} (h : xs.Perm ys) (hlen : xs.length ≤ 1) :
    ys = xs := by
  match xs, hlen with
  | [], _ => exact List.nil_perm.mp h
  | [x], _ => exact (List.singleton_perm.mp h).symm

theorem toList_inj {α : Type*} {x y : Option α} (h : x.toList = y.toList) : x = y := by
  have hhead := congrArg List.head? h
  rwa [Option.head?_toList, Option.head?_toList] at hhead

section collects

variable {β : Type*} {step : β → Tag × Bytes → Except Error β} {inv : β → Prop}
  {slots : β → ℕ → Option Bytes} {others : β → List (Tag × Bytes)} {known : ℕ → Bool}
  {legal : Tag × Bytes → Prop} {fields : List (Tag × Bytes)} {c c' : β} {tag : ℕ}

/-- The step of a fold: the slot of the tag gets the value, the rest is as it was. -/
theorem Collects.slot_step (h : Collects step inv slots others known legal) (hinv : inv c)
    {f : Tag × Bytes} (hstep : step c f = .ok c') (htag : known tag = true) :
    (slots c' tag).toList ++ valuesOf tag fields =
      (slots c tag).toList ++ valuesOf tag (f :: fields) := by
  by_cases hown : f.1.value = tag
  · subst hown
    obtain ⟨hslots, -⟩ := h.takes c f c' hinv hstep htag
    have hnone := ((h.accepts c f hinv).mp ⟨c', hstep⟩).2 htag
    rw [hslots, Function.update_self, hnone, valuesOf_cons_of_eq rfl]
    rfl
  · rw [valuesOf_cons_of_ne hown]
    cases hknown : known f.1.value with
    | true =>
      obtain ⟨hslots, -⟩ := h.takes c f c' hinv hstep hknown
      rw [hslots, Function.update_of_ne (Ne.symm hown)]
    | false =>
      obtain ⟨hslots, -⟩ := h.leaves c f c' hinv hstep hknown
      rw [hslots]

/-- What a fold has collected. -/
theorem Collects.fold (h : Collects step inv slots others known legal) (hinv : inv c)
    (hfold : fields.foldlM step c = .ok c') :
    inv c' ∧ (∀ f ∈ fields, legal f) ∧
      (∀ tag, known tag = true →
        (slots c' tag).toList = (slots c tag).toList ++ valuesOf tag fields) ∧
      others c' = others c ++ foreign known fields := by
  induction fields generalizing c with
  | nil =>
    cases hfold
    refine ⟨hinv, ?_, ?_, (List.append_nil _).symm⟩
    · intro f hf
      cases hf
    · intro tag _
      exact (List.append_nil _).symm
  | cons f fields ih =>
    rw [List.foldlM_cons] at hfold
    obtain ⟨m, hstep, hrest⟩ := bind_eq_ok.mp hfold
    obtain ⟨hinv', hlegal, hslots, hothers⟩ := ih (h.keeps c f m hinv hstep) hrest
    have hown := ((h.accepts c f hinv).mp ⟨m, hstep⟩).1
    refine ⟨hinv', List.forall_mem_cons.mpr ⟨hown, hlegal⟩, ?_, ?_⟩
    · intro tag htag
      rw [hslots tag htag]
      exact h.slot_step hinv hstep htag
    · rw [hothers]
      cases hknown : known f.1.value with
      | true =>
        rw [(h.takes c f m hinv hstep hknown).2, foreign, foreign,
          List.filter_cons_of_neg (by simp [hknown])]
      | false =>
        rw [(h.leaves c f m hinv hstep hknown).2, foreign, foreign,
          List.filter_cons_of_pos (by simp [hknown]), List.append_assoc]
        rfl

/-- Legal fields with at most one value for each slot are collected. -/
theorem Collects.collected (h : Collects step inv slots others known legal) (hinv : inv c)
    (hlegal : ∀ f ∈ fields, legal f)
    (hone : ∀ tag, known tag = true →
      ((slots c tag).toList ++ valuesOf tag fields).length ≤ 1) :
    ∃ c', fields.foldlM step c = .ok c' := by
  induction fields generalizing c with
  | nil => exact ⟨c, rfl⟩
  | cons f fields ih =>
    obtain ⟨hown, hlegal⟩ := List.forall_mem_cons.mp hlegal
    have hfree : known f.1.value = true → slots c f.1.value = none := by
      intro hknown
      have hlen := hone f.1.value hknown
      rw [valuesOf_cons_of_eq rfl, List.length_append, List.length_cons] at hlen
      cases hslot : slots c f.1.value with
      | none => rfl
      | some value =>
        rw [hslot, Option.toList_some, List.length_singleton] at hlen
        omega
    obtain ⟨m, hstep⟩ := (h.accepts c f hinv).mpr ⟨hown, hfree⟩
    obtain ⟨c', hrest⟩ := ih (h.keeps c f m hinv hstep) hlegal (by
      intro tag htag
      rw [h.slot_step hinv hstep htag]
      exact hone tag htag)
    refine ⟨c', ?_⟩
    rw [List.foldlM_cons]
    exact bind_eq_ok.mpr ⟨m, hstep, hrest⟩

/-- From empty slots the fold succeeds exactly on legal fields without a known tag twice. -/
theorem Collects.iff_of_empty (h : Collects step inv slots others known legal) (hinv : inv c)
    (hslots : slots c = fun _ => none) : (∃ c', fields.foldlM step c = .ok c') ↔
      (∀ f ∈ fields, legal f) ∧ ∀ tag, known tag = true → (valuesOf tag fields).length ≤ 1 := by
  have hvalues (tag : ℕ) : (slots c tag).toList ++ valuesOf tag fields = valuesOf tag fields := by
    rw [hslots]
    rfl
  constructor
  · rintro ⟨c', hfold⟩
    obtain ⟨-, hlegal, hcollected, -⟩ := h.fold hinv hfold
    refine ⟨hlegal, ?_⟩
    intro tag htag
    rw [← hvalues, ← hcollected tag htag]
    exact Option.length_toList_le
  · rintro ⟨hlegal, hone⟩
    apply h.collected hinv hlegal
    intro tag htag
    rw [hvalues]
    exact hone tag htag

end collects

end ProtocolTlvSequences
