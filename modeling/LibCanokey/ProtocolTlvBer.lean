import LibCanokey.ProtocolTlvFields

/-! # Fields with lengths of any definite form

The grammar that the lenient reader accepts, its turns on an arbitrary input, and the loops over
it: which fields they take and which header stops them. -/
namespace ProtocolTlvBer

open BigEndian CheckedCursor ListTraversal ProtocolError ProtocolTlv ProtocolTlvRoundTrip
open ProtocolTlvFields

/-- A definite length: a byte below 128, or up to four octets after their count. -/
inductive LengthForm (n : ℕ) : Bytes → Prop where
  | short (h : n < 128) : LengthForm n [UInt8.ofNat n]
  | long {octets : Bytes} (hcount : 1 ≤ octets.length ∧ octets.length ≤ 4)
      (hv : ofBeBytes octets = n) : LengthForm n ((0x80 ||| UInt8.ofNat octets.length) :: octets)

/-- A field with its length in any definite form. -/
def BerField (field : Tag × Bytes) (bytes : Bytes) : Prop :=
  ∃ form, LengthForm field.2.length form ∧ bytes = field.1.toBytes ++ form ++ field.2

inductive BerFields : List (Tag × Bytes) → Bytes → Prop where
  | nil : BerFields [] []
  | cons {field : Tag × Bytes} {fields : List (Tag × Bytes)} {bytes rest : Bytes}
      (h : BerField field bytes) (hs : BerFields fields rest) :
      BerFields (field :: fields) (bytes ++ rest)

/-- The input starts with a header for a value of `n` bytes, whether they follow or not. -/
def Announces (n : ℕ) (bytes : Bytes) : Prop :=
  ∃ (tag : Tag) (form rest : Bytes), LengthForm n form ∧ bytes = tag.toBytes ++ form ++ rest

theorem LengthForm.ne_nil {n : ℕ} {form : Bytes} (h : LengthForm n form) : form ≠ [] := by
  cases h <;> exact List.cons_ne_nil _ _

theorem LengthForm.lt {n : ℕ} {form : Bytes} (h : LengthForm n form) : n < 2 ^ 32 := by
  cases h with
  | short h => omega
  | @long octets hcount hv =>
    rw [← hv]
    calc ofBeBytes octets < 256 ^ octets.length := ofBeBytes_lt octets
      _ ≤ 256 ^ 4 := Nat.pow_le_pow_right (by decide) hcount.2
      _ = 2 ^ 32 := by decide

theorem Announces.ne_nil {n : ℕ} {bytes : Bytes} (h : Announces n bytes) : bytes ≠ [] := by
  obtain ⟨tag, form, rest, _, rfl⟩ := h
  intro hnil
  rw [List.append_assoc, List.append_eq_nil_iff] at hnil
  exact toBytes_ne_nil tag hnil.1

theorem BerField.announces {field : Tag × Bytes} {bytes rest : Bytes} (h : BerField field bytes) :
    Announces field.2.length (bytes ++ rest) := by
  obtain ⟨form, hform, rfl⟩ := h
  exact ⟨field.1, form, field.2 ++ rest, hform, by rw [List.append_assoc]⟩

theorem BerFields.append {fields more : List (Tag × Bytes)} {bytes rest : Bytes}
    (h : BerFields fields bytes) (hm : BerFields more rest) :
    BerFields (fields ++ more) (bytes ++ rest) := by
  induction h with
  | nil => exact hm
  | cons h _ ih =>
    rw [List.append_assoc]
    exact .cons h ih

theorem BerFields.single {field : Tag × Bytes} {bytes : Bytes} (h : BerField field bytes) :
    BerFields [field] bytes := by
  have hs := BerFields.cons h .nil
  rwa [List.append_nil] at hs

theorem BerFields.value_le {fields : List (Tag × Bytes)} {bytes : Bytes}
    (h : BerFields fields bytes) {f : Tag × Bytes} (hf : f ∈ fields) :
    f.2.length ≤ bytes.length := by
  induction h with
  | nil => cases hf
  | cons hfield _ ih =>
    rw [List.length_append]
    rcases List.mem_cons.mp hf with rfl | hf
    · obtain ⟨form, -, rfl⟩ := hfield
      rw [List.length_append]
      omega
    · have hrest := ih hf
      omega

section lengths

variable {reader : TlvReader} {offset n stop : ℕ} {form rest : Bytes}

theorem form_complete (hm : reader.minimalLengths = false) (hform : LengthForm n form)
    (h : reader.bytes.drop offset = form ++ rest) :
    reader.length offset = .ok (n, offset + form.length) := by
  cases hform with
  | short hs =>
    obtain ⟨hlt, hv⟩ := shortForm_byte hs
    rw [TlvReader.length, getElem?_of_drop h]
    dsimp only
    rw [if_pos hlt, hv]
    rfl
  | @long octets hcount hv =>
    obtain ⟨hge, hread⟩ := longForm_byte octets.length hcount.2
    have hbytes : reader.bytes.drop (offset + 1) = octets ++ rest := drop_add_of_drop (s := [_]) h
    have hin : offset + 1 ≤ reader.bytes.length := by
      have hl := congrArg List.length hbytes
      simp only [List.length_drop, List.length_append] at hl
      omega
    have hmax : ofBeBytes octets ≤ usizeMax := by
      have hlt := (LengthForm.long hcount rfl).lt
      simp only [usizeMax]
      omega
    rw [TlvReader.length, getElem?_of_drop h]
    dsimp only
    rw [if_neg hge, hread, if_neg (by omega), slice_complete hin hbytes]
    dsimp only
    rw [if_neg (by simp [hm]), checkedOfBeBytes_of_le hmax]
    dsimp only
    rw [if_neg (by simp [hm]), hv, List.length_cons]
    congr 2
    omega

theorem form_sound (h : reader.length offset = .ok (n, stop)) :
    ∃ form, LengthForm n form ∧ stop = offset + form.length ∧
      reader.bytes.drop offset = form ++ reader.bytes.drop stop := by
  simp only [TlvReader.length] at h
  cases hget : reader.bytes[offset]? with
  | none => rw [hget] at h; cases h
  | some first =>
    have hdrop := drop_of_getElem? hget
    rw [hget] at h
    dsimp only at h
    by_cases hs : first < 128
    · rw [if_pos hs] at h
      cases h
      rw [UInt8.lt_iff_toNat_lt] at hs
      have hform : LengthForm first.toNat [first] := by
        have hshort := LengthForm.short (show first.toNat < 128 from hs)
        rwa [UInt8.ofNat_toNat] at hshort
      exact ⟨_, hform, rfl, hdrop⟩
    · rw [if_neg hs] at h
      split_ifs at h with hcount
      cases hslice : slice reader.bytes (offset + 1) (offset + 1 + (first &&& 127).toNat) with
      | none => rw [hslice] at h; cases h
      | some octets =>
        rw [hslice] at h
        dsimp only at h
        obtain ⟨hlen, -, hdrop'⟩ := slice_sound hslice
        have hel : octets.length = (first &&& 127).toNat := by omega
        have hform : LengthForm (ofBeBytes octets) (first :: octets) := by
          have hlong : LengthForm _ (_ :: octets) := .long ⟨by omega, by omega⟩ rfl
          rwa [hel, longForm_of_byte first hs] at hlong
        have hmax : ofBeBytes octets ≤ usizeMax := by
          have hlt := hform.lt
          simp only [usizeMax]
          omega
        rw [checkedOfBeBytes_of_le hmax] at h
        dsimp only at h
        split_ifs at h
        cases h
        refine ⟨_, hform, ?_, ?_⟩
        · rw [List.length_cons]
          omega
        · rw [hdrop, hdrop', List.cons_append]

theorem length_error {e : Error} (h : reader.length offset = .error e) : e = malformed := by
  simp only [TlvReader.length] at h
  -- every branch that fails does so with the same error
  repeat' split at h
  all_goals first | (cases h; rfl) | cases h

end lengths

/-- A lenient reader within its depth. -/
structure Lenient (reader : TlvReader) : Prop where
  lengths : reader.minimalLengths = false
  depth : reader.depth ≤ reader.limits.maxDepth
  size : reader.bytes.length ≤ usizeMax

/-- The field as the reader returns it. -/
def yielded (reader : TlvReader) (field : Tag × Bytes) : Tlv :=
  ⟨field.1, field.2, reader.depth, reader.limits, reader.minimalLengths⟩

/-- What one turn of a lenient reader can be. -/
inductive Turn (reader : TlvReader) : Except Error (Option Tlv × TlvReader) → Prop where
  | ended (h : reader.bytes = []) : Turn reader (.ok (none, reader))
  | field {field : Tag × Bytes} {bytes rest : Bytes} (h : BerField field bytes)
      (hb : reader.bytes = bytes ++ rest) (hmax : field.2.length ≤ reader.limits.maxValueBytes) :
      Turn reader (.ok (some (yielded reader field), { reader with bytes := rest }))
  | overlong {n : ℕ} (h : Announces n reader.bytes) (hmax : reader.limits.maxValueBytes < n) :
      Turn reader (.error (.new .limitExceeded))
  | malformed : Turn reader (.error malformed)

section turns

variable {reader : TlvReader}

theorem Lenient.rest {bytes rest : Bytes} (h : Lenient reader) (hb : reader.bytes = bytes ++ rest) :
    Lenient { reader with bytes := rest } := by
  refine ⟨h.lengths, h.depth, ?_⟩
  have hsize := h.size
  rw [hb, List.length_append] at hsize
  exact Nat.le_trans (Nat.le_add_left _ _) hsize

/-- What the header lemmas share: the tag is read, and the length after it. -/
theorem header_read {tag : Tag} {form rest : Bytes} {n : ℕ} (h : Lenient reader)
    (hform : LengthForm n form) (hb : reader.bytes = tag.toBytes ++ form ++ rest) :
    reader.bytes ≠ [] ∧ parseTag reader.bytes = .ok (tag, tag.len) ∧
      reader.length tag.len = .ok (n, tag.len + form.length) ∧
      reader.bytes.drop (tag.len + form.length) = rest := by
  have htag : reader.bytes = tag.toBytes ++ (form ++ rest) := by rw [hb, List.append_assoc]
  have hafter : reader.bytes.drop tag.len = form ++ rest := by
    rw [htag, List.drop_left' (length_toBytes tag)]
  refine ⟨Announces.ne_nil ⟨tag, form, rest, hform, hb⟩, ?_, form_complete h.lengths hform hafter,
    drop_add_of_drop hafter⟩
  rw [htag, parseTag_complete]

theorem next_field {field : Tag × Bytes} {bytes rest : Bytes} (h : Lenient reader)
    (hf : BerField field bytes) (hb : reader.bytes = bytes ++ rest)
    (hmax : field.2.length ≤ reader.limits.maxValueBytes) :
    reader.next = .ok (some (yielded reader field), { reader with bytes := rest }) := by
  obtain ⟨form, hform, rfl⟩ := hf
  rw [List.append_assoc] at hb
  obtain ⟨hne, htag, hlength, hdrop⟩ := header_read h hform hb
  have hstop := drop_add_of_drop hdrop
  have hsize := h.size
  have hin : field.1.len + form.length + field.2.length ≤ reader.bytes.length := by
    have hl := congrArg List.length hdrop
    have hpos := length_toBytes field.1
    have hwhole := congrArg List.length hb
    simp only [List.length_append] at hwhole
    omega
  rw [TlvReader.next, if_neg hne, if_neg (Nat.not_lt.mpr h.depth), htag]
  dsimp only
  rw [hlength]
  dsimp only
  rw [if_neg (Nat.not_lt.mpr hmax), checkedAdd_of_le (by omega)]
  dsimp only
  rw [slice_complete (by omega) hdrop]
  dsimp only
  rw [hstop]
  rfl

theorem next_overlong {n : ℕ} (h : Lenient reader) (ha : Announces n reader.bytes)
    (hmax : reader.limits.maxValueBytes < n) : reader.next = .error (.new .limitExceeded) := by
  obtain ⟨tag, form, rest, hform, hb⟩ := ha
  obtain ⟨hne, htag, hlength, -⟩ := header_read h hform hb
  rw [TlvReader.next, if_neg hne, if_neg (Nat.not_lt.mpr h.depth), htag]
  dsimp only
  rw [hlength]
  exact if_pos hmax

theorem scanTail_error {bytes : Bytes} {k : ℕ} {e : Error} (h : scanTail bytes k = .error e) :
    e = malformed := by
  induction bytes generalizing k with
  | nil =>
    cases h
    rfl
  | cons byte rest ih =>
    rw [scanTail] at h
    split_ifs at h
    · cases h
      rfl
    · exact ih h

theorem parseTag_error {bytes : Bytes} {e : Error} (h : parseTag bytes = .error e) :
    e = malformed := by
  simp only [parseTag] at h
  split at h
  · next e' hscan =>
    cases h
    cases bytes with
    | nil =>
      cases hscan
      rfl
    | cons first rest =>
      rw [scanTag] at hscan
      split_ifs at hscan
      · cases hscan
        rfl
      · cases hscan
        rfl
      · exact scanTail_error hscan
  · cases h

theorem next_turn (hdepth : reader.depth ≤ reader.limits.maxDepth) : Turn reader reader.next := by
  by_cases hnil : reader.bytes = []
  · rw [next_nil hnil]
    exact .ended hnil
  rw [TlvReader.next, if_neg hnil, if_neg (Nat.not_lt.mpr hdepth)]
  cases hparse : parseTag reader.bytes with
  | error e =>
    rw [parseTag_error hparse]
    exact .malformed
  | ok parsed =>
    obtain ⟨tag, offset⟩ := parsed
    dsimp only
    cases hlength : reader.length offset with
    | error e =>
      rw [length_error hlength]
      exact .malformed
    | ok found =>
      obtain ⟨n, start⟩ := found
      dsimp only
      obtain ⟨rfl, htag⟩ := parseTag_sound hparse
      obtain ⟨form, hform, rfl, hdrop⟩ := form_sound hlength
      rw [hdrop, ← List.append_assoc] at htag
      by_cases hmax : n > reader.limits.maxValueBytes
      · rw [if_pos hmax]
        exact .overlong ⟨tag, form, _, hform, htag⟩ hmax
      · rw [if_neg hmax]
        cases hadd : checkedAdd (tag.len + form.length) n with
        | none => exact .malformed
        | some stop =>
          dsimp only
          cases hslice : slice reader.bytes (tag.len + form.length) stop with
          | none => exact .malformed
          | some value =>
            obtain ⟨hstop, -, hvalue⟩ := slice_sound hslice
            obtain ⟨hsum, -⟩ := checkedAdd_eq_some.mp hadd
            obtain rfl : value.length = n := by omega
            rw [hvalue, ← List.append_assoc] at htag
            have hfield : BerField (tag, value) (tag.toBytes ++ form ++ value) := ⟨form, hform, rfl⟩
            exact .field hfield htag (Nat.le_of_not_lt hmax)

end turns

section loops

variable {reader : TlvReader} {accept : Tlv → Bool} {refusal : Error} {β : Type*}
  {step : β → Tlv → Except Error β} {acc acc' : β}

/-- The headers that `sole` comes to: the first, and one after an acceptable field. -/
inductive SoleHeader (reader : TlvReader) (accept : Tlv → Bool) (n : ℕ) : Prop where
  | first (h : Announces n reader.bytes)
  | trailing {field : Tag × Bytes} {bytes rest : Bytes} (hf : BerField field bytes)
      (hb : reader.bytes = bytes ++ rest) (hmax : field.2.length ≤ reader.limits.maxValueBytes)
      (haccept : accept (yielded reader field) = true) (h : Announces n rest)

theorem sole_field {field : Tag × Bytes} (h : Lenient reader) (hf : BerField field reader.bytes)
    (hmax : field.2.length ≤ reader.limits.maxValueBytes)
    (haccept : accept (yielded reader field) = true) :
    sole reader accept refusal = .ok (yielded reader field) := by
  rw [sole, next_field h hf (List.append_nil _).symm hmax]
  dsimp only
  rw [if_neg (not_not.mpr haccept), next_nil rfl]

theorem sole_overlong {n : ℕ} (h : Lenient reader) (hs : SoleHeader reader accept n)
    (hn : reader.limits.maxValueBytes < n) :
    sole reader accept refusal = .error (.new .limitExceeded) := by
  cases hs with
  | first ha => rw [sole, next_overlong h ha hn]
  | trailing hf hb hmax haccept ha =>
    rw [sole, next_field h hf hb hmax]
    dsimp only
    rw [if_neg (not_not.mpr haccept), next_overlong (h.rest hb) ha hn]

/-- The field that is found is all of the input. -/
theorem sole_sound {found : Tlv} (hdepth : reader.depth ≤ reader.limits.maxDepth)
    (h : sole reader accept refusal = .ok found) :
    ∃ field, BerField field reader.bytes ∧ accept found = true ∧
      found = yielded reader field := by
  have hturn := next_turn hdepth
  rw [sole] at h
  generalize reader.next = turn at h hturn
  cases hturn with
  | ended hnil => cases h
  | @field field bytes rest hf hb hmax =>
    dsimp only at h
    split_ifs at h with haccept
    have hlast := @next_turn { reader with bytes := rest } hdepth
    generalize ({ reader with bytes := rest } : TlvReader).next = last at h hlast
    cases hlast with
    | ended hnil =>
      cases h
      have hnil : rest = [] := hnil
      rw [hnil, List.append_nil] at hb
      exact ⟨field, hb ▸ hf, haccept, rfl⟩
    | field => cases h
    | overlong => cases h
    | malformed => cases h
  | overlong => cases h
  | malformed => cases h

/-- One acceptable field and nothing else, an overlong header, or a refusal. -/
theorem sole_cases (h : Lenient reader) :
    (∃ field, BerField field reader.bytes ∧ field.2.length ≤ reader.limits.maxValueBytes ∧
      accept (yielded reader field) = true ∧
      sole reader accept refusal = .ok (yielded reader field)) ∨
    (∃ n, SoleHeader reader accept n ∧ reader.limits.maxValueBytes < n) ∨
    sole reader accept refusal = .error malformed ∨
    sole reader accept refusal = .error refusal := by
  rw [sole]
  have hturn := next_turn h.depth
  generalize reader.next = turn at hturn
  cases hturn with
  | ended => exact Or.inr (Or.inr (Or.inr rfl))
  | overlong ha hn => exact Or.inr (Or.inl ⟨_, .first ha, hn⟩)
  | malformed => exact Or.inr (Or.inr (Or.inl rfl))
  | @field field bytes rest hf hb hmax =>
    dsimp only
    by_cases haccept : accept (yielded reader field) = true
    · rw [if_neg (not_not.mpr haccept)]
      have hlast := next_turn (h.rest hb).depth
      generalize TlvReader.next _ = turn at hlast
      cases hlast with
      | ended hnil =>
        have hwhole : reader.bytes = bytes := by
          rw [hb, show rest = [] from hnil, List.append_nil]
        rw [← hwhole] at hf
        exact Or.inl ⟨field, hf, hmax, haccept, rfl⟩
      | field => exact Or.inr (Or.inr (Or.inr rfl))
      | overlong ha hn => exact Or.inr (Or.inl ⟨_, .trailing hf hb hmax haccept ha, hn⟩)
      | malformed => exact Or.inr (Or.inr (Or.inl rfl))
    · rw [if_pos haccept]
      exact Or.inr (Or.inr (Or.inr rfl))

/-- The loop takes some fields and is left with an accumulator and the rest of its input. -/
structure Takes (step : β → Tlv → Except Error β) (reader : TlvReader) (acc : β)
    (fields : List (Tag × Bytes)) (bytes rest : Bytes) (acc' : β) : Prop where
  parts : BerFields fields bytes
  whole : reader.bytes = bytes ++ rest
  within : ∀ field ∈ fields, field.2.length ≤ reader.limits.maxValueBytes
  folded : fields.foldlM (fun acc field => step acc (yielded reader field)) acc = .ok acc'

theorem readFields_field {field : Tag × Bytes} {bytes rest : Bytes} (h : Lenient reader)
    (hf : BerField field bytes) (hb : reader.bytes = bytes ++ rest)
    (hmax : field.2.length ≤ reader.limits.maxValueBytes) :
    readFields step reader acc =
      step acc (yielded reader field) >>= readFields step { reader with bytes := rest } := by
  rw [readFields_next, next_field h hf hb hmax]

theorem Takes.run {fields : List (Tag × Bytes)} {bytes rest : Bytes} (h : Lenient reader)
    (ht : Takes step reader acc fields bytes rest acc') :
    readFields step reader acc = readFields step { reader with bytes := rest } acc' := by
  obtain ⟨hfields, hb, hmax, hfold⟩ := ht
  induction hfields generalizing reader acc with
  | nil =>
    cases hfold
    rw [show rest = reader.bytes from hb.symm]
  | cons hf _ ih =>
    rw [List.foldlM_cons] at hfold
    obtain ⟨next, hstep, hfold⟩ := bind_eq_ok.mp hfold
    rw [List.append_assoc] at hb
    rw [readFields_field h hf hb (hmax _ List.mem_cons_self), hstep]
    exact ih (h.rest hb) rfl (fun f hmem => hmax f (List.mem_cons_of_mem _ hmem)) hfold

theorem readFields_all {fields : List (Tag × Bytes)} {bytes : Bytes} (h : Lenient reader)
    (ht : Takes step reader acc fields bytes [] acc') : readFields step reader acc = .ok acc' := by
  rw [ht.run h, readFields_nil rfl]

theorem readFields_overlong {fields : List (Tag × Bytes)} {bytes rest : Bytes} {n : ℕ}
    (h : Lenient reader) (ht : Takes step reader acc fields bytes rest acc')
    (ha : Announces n rest) (hn : reader.limits.maxValueBytes < n) :
    readFields step reader acc = .error (.new .limitExceeded) := by
  rw [ht.run h, readFields_next, next_overlong (h.rest ht.whole) ha hn]

/-- The loop takes every field, comes to an overlong header, or fails on an input or a step. -/
theorem readFields_cases (h : Lenient reader) :
    (∃ fields bytes acc', Takes step reader acc fields bytes [] acc') ∨
    (∃ fields bytes rest acc' n, Takes step reader acc fields bytes rest acc' ∧
      Announces n rest ∧ reader.limits.maxValueBytes < n) ∨
    ∃ e, readFields step reader acc = .error e ∧
      (e = malformed ∨ ∃ acc field, step acc field = .error e) := by
  induction hlen : reader.bytes.length using Nat.strong_induction_on generalizing reader acc with
  | _ k ih =>
    have hempty : Takes step reader acc [] [] reader.bytes acc :=
      ⟨.nil, rfl, fun _ hmem => absurd hmem List.not_mem_nil, rfl⟩
    have hturn := next_turn h.depth
    have hrun := @readFields_next _ step reader acc
    generalize reader.next = turn at hturn hrun
    cases hturn with
    | ended hnil =>
      rw [hnil] at hempty
      exact Or.inl ⟨[], [], acc, hempty⟩
    | overlong ha hn => exact Or.inr (Or.inl ⟨[], [], _, acc, _, hempty, ha, hn⟩)
    | malformed => exact Or.inr (Or.inr ⟨_, hrun, Or.inl rfl⟩)
    | @field field bytes rest hf hb hmax =>
      dsimp only at hrun
      cases hstep : step acc (yielded reader field) with
      | error e =>
        rw [hstep] at hrun
        exact Or.inr (Or.inr ⟨e, hrun, Or.inr ⟨_, _, hstep⟩⟩)
      | ok next =>
        rw [hstep] at hrun
        have hcons {fields : List (Tag × Bytes)} {bytes' rest' : Bytes} {acc' : β}
            (ht : Takes step { reader with bytes := rest } next fields bytes' rest' acc') :
            Takes step reader acc (field :: fields) (bytes ++ bytes') rest' acc' := by
          obtain ⟨hfields, hrest, hwithin, hfold⟩ := ht
          refine ⟨.cons hf hfields, ?_, ?_, ?_⟩
          · rw [hb, List.append_assoc]
            exact congrArg _ hrest
          · intro f hmem
            rcases List.mem_cons.mp hmem with rfl | hmem
            · exact hmax
            · exact hwithin f hmem
          · rw [List.foldlM_cons, hstep]
            exact hfold
        have hshort : rest.length < k := by
          have hne : bytes ≠ [] := by
            intro hnil
            exact (@BerField.announces field bytes [] hf).ne_nil (by rw [hnil]; rfl)
          have hpos := List.length_pos_iff.mpr hne
          have hl := congrArg List.length hb
          rw [List.length_append] at hl
          omega
        obtain ⟨fields, bytes', acc', ht⟩ | ⟨fields, bytes', rest', acc', n, ht, ha, hn⟩ | he :=
          ih rest.length hshort (h.rest hb) rfl
        · exact Or.inl ⟨_, _, _, hcons ht⟩
        · exact Or.inr (Or.inl ⟨_, _, _, _, _, hcons ht, ha, hn⟩)
        · obtain ⟨e, hrest, hsource⟩ := he
          exact Or.inr (Or.inr ⟨e, hrun.trans hrest, hsource⟩)

/-- Within a limit that covers the whole input the loop is the fold over its fields. -/
theorem readFields_definite (h : Lenient reader)
    (hlimit : reader.bytes.length ≤ reader.limits.maxValueBytes) :
    readFields step reader acc = .ok acc' ↔ ∃ fields, BerFields fields reader.bytes ∧
      fields.foldlM (fun acc field => step acc (yielded reader field)) acc = .ok acc' := by
  constructor
  · intro hread
    rcases @readFields_cases reader β step acc h with ⟨fields, bytes, last, ht⟩ |
      ⟨fields, bytes, rest, last, n, ht, ha, hn⟩ | ⟨e, herror, -⟩
    · obtain rfl := Except.ok.inj ((readFields_all h ht).symm.trans hread)
      have hwhole : reader.bytes = bytes := ht.whole.trans (List.append_nil bytes)
      exact ⟨fields, hwhole ▸ ht.parts, ht.folded⟩
    · cases (readFields_overlong h ht ha hn).symm.trans hread
    · cases herror.symm.trans hread
  · rintro ⟨fields, hfields, hfold⟩
    refine readFields_all h ⟨hfields, (List.append_nil _).symm, ?_, hfold⟩
    intro f hf
    exact (hfields.value_le hf).trans hlimit

end loops

end ProtocolTlvBer
