import LibCanokey.ListTraversal
import LibCanokey.ProtocolTlvRoundTrip

/-! # Tag-length-value templates

The two shapes in which the applets use readers and writers: pushing a field under a tag
given by its bytes, and requiring that a template holds one acceptable field. -/
namespace ProtocolTlvFields

open BigEndian CheckedCursor ListTraversal ProtocolError ProtocolTlv ProtocolTlvRoundTrip

/-- A byte that is a complete tag. -/
def ShortTag (b : Byte) : Prop := b ≠ 0 ∧ b ≠ 0xff ∧ b &&& 31 ≠ 31

instance (b : Byte) : Decidable (ShortTag b) := inferInstanceAs (Decidable (_ ∧ _ ∧ _))

theorem scanTag_short {b : Byte} (h : ShortTag b) : scanTag [b] = .ok 1 := by
  obtain ⟨h0, hff, h31⟩ := h
  rw [scanTag, if_neg (by simp [h0, hff]), if_neg h31]

def shortTag (b : Byte) (h : ShortTag b) : Tag :=
  ⟨b.toNat, 1, [b], scanTag_short h, by simp [ofBeBytes]⟩

theorem shortTag_toBytes {b : Byte} (h : ShortTag b) : (shortTag b h).toBytes = [b] := by
  have hscan : scanTag [b] = .ok (shortTag b h).len := scanTag_short h
  exact toBytes_of_scan hscan (by simp [ofBeBytes, shortTag])

/-- Only the one-byte tag has a value below 256. -/
theorem eq_shortTag {b : Byte} (h : ShortTag b) {tag : Tag} (hv : tag.value = b.toNat) :
    tag = shortTag b h := by
  obtain ⟨hscan, hlen, hvalue⟩ := scanTag_toBytes tag []
  rw [List.append_nil] at hscan
  have hpos := (scanTag_eq_ok hscan).1
  rcases hb : tag.toBytes with _ | ⟨c, cs⟩
  · exact absurd hb (toBytes_ne_nil tag)
  rw [hb, scanTag] at hscan
  split_ifs at hscan with hc
  all_goals
    push Not at hc
    have hbig : 256 ^ cs.length ≤ ofBeBytes (c :: cs) := le_ofBeBytes_cons hc.1
    rw [← hb, hvalue, hv] at hbig
    have hlt := byte_lt b
    have hcs : cs = [] := by
      by_contra hne
      have h1 : 1 ≤ cs.length := List.length_pos_iff.mpr hne
      have : 256 ^ 1 ≤ 256 ^ cs.length := Nat.pow_le_pow_right (by omega) h1
      omega
    have hl : tag.len = 1 := by rw [← hlen, hb, hcs]; rfl
    exact Tag.ext hv hl

theorem tag_eq_of_short {b : Byte} (h : ShortTag b) {s t : Tag} (hs : s.value = b.toNat)
    (hsame : s.value = t.value) : s = t :=
  (eq_shortTag h hs).trans (eq_shortTag h (hsame.symm.trans hs)).symm

/-- `writer.push(Tag::from_bytes(tag)?, value)?`. -/
def pushTag (writer : TlvWriter) (tag value : Bytes) : Except Error TlvWriter :=
  match Tag.fromBytes tag with
  | .error e => .error e
  | .ok tag =>
    match writer.push tag value with
    | (.error e, _) => .error e
    | (.ok (), writer) => .ok writer

/-- What a push under a tag given by its bytes appends. -/
def fieldBytes (tag value : Bytes) : Bytes := tag ++ lengthField value.length ++ value

theorem length_lengthField_le (n : ℕ) : (lengthField n).length ≤ 5 := by
  rw [lengthField]
  split_ifs
  · exact Nat.le_add_left 1 4
  · rw [List.length_cons, List.length_drop, length_toBeBytes]
    omega

theorem length_fieldBytes (tag value : Bytes) : (fieldBytes tag value).length =
    tag.length + (lengthField value.length).length + value.length := by
  rw [fieldBytes, List.length_append, List.length_append]

theorem pushTag_eq_ok {writer after : TlvWriter} {tag : Tag} {bytes value : Bytes}
    (hb : tag.toBytes = bytes) :
    pushTag writer bytes value = .ok after ↔
      value.length < 2 ^ 32 ∧
      writer.bytes.length + (fieldBytes bytes value).length ≤ min writer.limit usizeMax ∧
      after.bytes = writer.bytes ++ fieldBytes bytes value ∧ after.limit = writer.limit := by
  have hfield : encodeField (tag, value) = fieldBytes bytes value := by
    rw [encodeField, fieldBytes, hb]
  rw [pushTag, fromBytes_eq_ok.mpr hb]
  dsimp only
  by_cases hf : Fits writer (tag, value)
  · obtain ⟨taken, hpush, htaken, hlimit⟩ := push_of_fits hf
    obtain ⟨hword, hl, hs⟩ := hf
    rw [hfield] at hl hs
    rw [show writer.push tag value = (.ok (), taken) from hpush]
    rw [hfield] at htaken
    constructor
    · intro h
      cases h
      exact ⟨hword, by omega, htaken, hlimit⟩
    · rintro ⟨_, _, ha, hl'⟩
      obtain ⟨bytes', limit', hw'⟩ := taken
      obtain ⟨bytes'', limit'', hw''⟩ := after
      dsimp only at htaken hlimit ha hl'
      subst htaken hlimit ha hl'
      rfl
  · rw [show writer.push tag value = (.error (.new .limitExceeded), writer) from
      push_of_not_fits hf]
    constructor
    · intro h; cases h
    · rintro ⟨hword, hl, _, _⟩
      rw [← hfield] at hl
      exact absurd ⟨hword, by omega, by omega⟩ hf

theorem pushTag_fits (writer : TlvWriter) {tag : Tag} {bytes : Bytes} (value : Bytes)
    (hb : tag.toBytes = bytes) (hword : value.length < 2 ^ 32)
    (hfit : writer.bytes.length + (fieldBytes bytes value).length ≤ min writer.limit usizeMax) :
    ∃ after, pushTag writer bytes value = .ok after ∧
      after.bytes = writer.bytes ++ fieldBytes bytes value ∧ after.limit = writer.limit := by
  have hfield : encodeField (tag, value) = fieldBytes bytes value := by
    rw [encodeField, fieldBytes, hb]
  have hf : Fits writer (tag, value) := by
    rw [← hfield] at hfit
    exact ⟨hword, by omega, by omega⟩
  obtain ⟨after, _, ha, hl⟩ := push_of_fits hf
  rw [hfield] at ha
  exact ⟨after, (pushTag_eq_ok hb).mpr ⟨hword, hfit, ha, hl⟩, ha, hl⟩

/-- A loop of pushes. -/
def pushTags (writer : TlvWriter) (fields : List (Bytes × Bytes)) : Except Error TlvWriter :=
  fields.foldlM (fun w field => pushTag w field.1 field.2) writer

/-- A loop of pushes under one-byte tags takes all its fields where they fit. -/
theorem pushTags_short {fields : List (Byte × Bytes)} (writer : TlvWriter)
    (hf : ∀ f ∈ fields, ShortTag f.1 ∧ f.2.length < 2 ^ 32)
    (hfit : writer.bytes.length + (fields.flatMap fun f => fieldBytes [f.1] f.2).length ≤
      min writer.limit usizeMax) :
    ∃ after, pushTags writer (fields.map fun f => ([f.1], f.2)) = .ok after ∧
      after.bytes = writer.bytes ++ fields.flatMap fun f => fieldBytes [f.1] f.2 := by
  induction fields generalizing writer with
  | nil => exact ⟨writer, rfl, (List.append_nil _).symm⟩
  | cons f fields ih =>
    obtain ⟨⟨htag, hlen⟩, hfs⟩ := List.forall_mem_cons.mp hf
    rw [List.flatMap_cons, List.length_append] at hfit
    obtain ⟨middle, hpush, hmiddle, hlimit⟩ :=
      pushTag_fits writer f.2 (shortTag_toBytes htag) hlen (by omega)
    obtain ⟨after, hrest, hafter⟩ := ih middle hfs
      (by rw [hmiddle, hlimit, List.length_append]; omega)
    refine ⟨after, ?_, by rw [hafter, hmiddle, List.flatMap_cons, List.append_assoc]⟩
    rw [pushTags, List.map_cons, List.foldlM_cons, hpush]
    exact hrest

theorem pushTag_appends {writer after : TlvWriter} {tag value : Bytes}
    (h : pushTag writer tag value = .ok after) :
    after.bytes = writer.bytes ++ fieldBytes tag value ∧ after.limit = writer.limit ∧
      after.bytes.length ≤ writer.limit := by
  cases ht : Tag.fromBytes tag with
  | error e =>
    rw [pushTag, ht] at h
    cases h
  | ok t =>
    obtain ⟨_, hfit, hbytes, hlimit⟩ := (pushTag_eq_ok (fromBytes_eq_ok.mp ht)).mp h
    refine ⟨hbytes, hlimit, ?_⟩
    rw [hbytes, List.length_append]
    omega

/-- A loop of pushes appends its fields and stays within the limit. -/
theorem pushTags_appends {writer after : TlvWriter} {fields : List (Bytes × Bytes)}
    (h : pushTags writer fields = .ok after) (hne : fields ≠ []) :
    after.bytes = writer.bytes ++ fields.flatMap (fun field => fieldBytes field.1 field.2) ∧
      after.bytes.length ≤ writer.limit := by
  induction fields generalizing writer with
  | nil => exact absurd rfl hne
  | cons field fields ih =>
    rw [pushTags, List.foldlM_cons] at h
    obtain ⟨w, hpush, hrest⟩ := bind_eq_ok.mp h
    obtain ⟨hbytes, hlimit, hfit⟩ := pushTag_appends hpush
    by_cases hnil : fields = []
    · subst hnil
      cases hrest
      rw [List.flatMap_cons, List.flatMap_nil, List.append_nil]
      exact ⟨hbytes, hfit⟩
    · obtain ⟨hall, hlen⟩ := ih hrest hnil
      rw [hlimit] at hlen
      rw [hall, hbytes, List.flatMap_cons, List.append_assoc]
      refine ⟨rfl, ?_⟩
      rw [hall, hbytes, List.append_assoc] at hlen
      exact hlen

/-- The one field of a template, where `accept` is asked before the end of the input. -/
def sole (reader : TlvReader) (accept : Tlv → Bool) (refusal : Error) : Except Error Tlv :=
  match reader.next with
  | .error e => .error e
  | .ok (none, _) => .error refusal
  | .ok (some field, rest) =>
    if ¬ accept field then .error refusal
    else match rest.next with
      | .error e => .error e
      | .ok (none, _) => .ok field
      | .ok (some _, _) => .error refusal

/-- Both readers find the one field in its shortest encoding. -/
theorem sole_complete {reader : TlvReader} {accept : Tlv → Bool} {refusal : Error}
    {field : Tag × Bytes} (hbytes : reader.bytes = encodeField field)
    (ha : Admitted reader.limits field) (hd : reader.depth ≤ reader.limits.maxDepth)
    (haccept : accept ⟨field.1, field.2, reader.depth, reader.limits, reader.minimalLengths⟩ =
      true) : sole reader accept refusal =
        .ok ⟨field.1, field.2, reader.depth, reader.limits, reader.minimalLengths⟩ := by
  have hend : reader.bytes = encodeField field ++ [] := by rw [hbytes, List.append_nil]
  rw [sole, next_complete hend ha hd]
  dsimp only
  rw [if_neg (not_not.mpr haccept), next_nil rfl]

/-- The strict reader finds one acceptable field exactly in the encoding of one. -/
theorem sole_eq_ok {reader : TlvReader} {accept : Tlv → Bool} {refusal : Error} {field : Tlv}
    (hm : reader.minimalLengths = true) :
    sole reader accept refusal = .ok field ↔
      reader.bytes = encodeField (field.tag, field.value) ∧
      field = ⟨field.tag, field.value, reader.depth, reader.limits, true⟩ ∧
      accept field = true ∧ Admitted reader.limits (field.tag, field.value) ∧
      reader.depth ≤ reader.limits.maxDepth := by
  constructor
  · intro h
    rw [sole] at h
    split at h
    · cases h
    · cases h
    · next f rest hnext =>
      obtain ⟨hbytes, hrest, ha, hd⟩ := next_sound hm hnext
      have hf : f = ⟨f.tag, f.value, reader.depth, reader.limits, true⟩ := by
        have hc := next_complete hbytes ha hd
        rw [hnext] at hc
        have := (Prod.mk.inj (Except.ok.inj hc)).1
        rw [hm] at this
        exact Option.some.inj this
      split_ifs at h with haccept
      split at h
      · cases h
      · next r hend =>
        cases h
        rw [next_none hend, List.append_nil] at hbytes
        exact ⟨hbytes, hf, haccept, ha, hd⟩
      · cases h
  · rintro ⟨hbytes, hf, haccept, ha, hd⟩
    have hfield : field =
        ⟨field.tag, field.value, reader.depth, reader.limits, reader.minimalLengths⟩ := by
      rw [hm]
      exact hf
    rw [hfield] at haccept ⊢
    exact sole_complete hbytes ha hd haccept

theorem sole_refused {reader : TlvReader} {accept : Tlv → Bool} {refusal : Error}
    {field : Tag × Bytes} {rest : Bytes} (hbytes : reader.bytes = encodeField field ++ rest)
    (ha : Admitted reader.limits field) (hd : reader.depth ≤ reader.limits.maxDepth)
    (haccept : accept ⟨field.1, field.2, reader.depth, reader.limits, reader.minimalLengths⟩ =
      false) : sole reader accept refusal = .error refusal := by
  rw [sole, next_complete hbytes ha hd]
  dsimp only
  rw [if_pos (by simp [haccept])]

/-- `while let Some(field) = reader.next()?`, where every field takes at least one byte. -/
def foldFields {β : Type*} (step : β → Tlv → Except Error β) :
    ℕ → TlvReader → β → Except Error β
  | 0, _, acc => .ok acc
  | n + 1, reader, acc =>
    match reader.next with
    | .error e => .error e
    | .ok (none, _) => .ok acc
    | .ok (some field, rest) =>
      match step acc field with
      | .error e => .error e
      | .ok acc => foldFields step n rest acc

def readFields {β : Type*} (step : β → Tlv → Except Error β) (reader : TlvReader) (init : β) :
    Except Error β :=
  foldFields step reader.bytes.length reader init

theorem next_shorter {reader rest : TlvReader} {field : Tlv}
    (h : reader.next = .ok (some field, rest)) : rest.bytes.length < reader.bytes.length := by
  obtain ⟨offset, len, start, stop, -, hlength, -, hadd, -, rfl, hne, -⟩ := next_some h
  have hstart : offset < start := by
    simp only [TlvReader.length] at hlength
    -- every accepted length ends after the offset it starts at
    repeat' split at hlength
    all_goals cases hlength
    all_goals omega
  obtain ⟨hsum, _⟩ := checkedAdd_eq_some.mp hadd
  have hpos := List.length_pos_iff.mpr hne
  rw [List.length_drop]
  omega

/-- More turns than the input has bytes change nothing. -/
theorem foldFields_enough {β : Type*} {step : β → Tlv → Except Error β} {n : ℕ}
    {reader : TlvReader} {acc : β} (h : reader.bytes.length ≤ n) :
    foldFields step n reader acc = readFields step reader acc := by
  induction n using Nat.strong_induction_on generalizing reader acc with
  | _ n ih =>
    rcases hlen : reader.bytes.length with _ | k
    · have hnil := List.length_eq_zero_iff.mp hlen
      rw [readFields, hlen, foldFields]
      cases n with
      | zero => rfl
      | succ n => rw [foldFields, next_nil hnil]
    · obtain ⟨n, rfl⟩ : ∃ m, n = m + 1 := ⟨n - 1, by omega⟩
      rw [readFields, hlen, foldFields, foldFields]
      split
      · rfl
      · rfl
      · next field rest hnext =>
        have hshort := next_shorter hnext
        split
        · rfl
        · rw [ih n (by omega) (by omega), ← ih k (by omega) (by omega)]

theorem readFields_nil {β : Type*} {step : β → Tlv → Except Error β} {reader : TlvReader}
    {acc : β} (h : reader.bytes = []) : readFields step reader acc = .ok acc := by
  rw [readFields, h]
  rfl

theorem readFields_next {β : Type*} {step : β → Tlv → Except Error β} {reader : TlvReader}
    {acc : β} : readFields step reader acc =
      match reader.next with
      | .error e => .error e
      | .ok (none, _) => .ok acc
      | .ok (some field, rest) => step acc field >>= readFields step rest := by
  by_cases hnil : reader.bytes = []
  · rw [readFields_nil hnil, next_nil hnil]
  obtain ⟨n, hn⟩ : ∃ n, reader.bytes.length = n + 1 :=
    Nat.exists_eq_succ_of_ne_zero fun h => hnil (List.length_eq_zero_iff.mp h)
  rw [readFields, hn, foldFields]
  split
  · rfl
  · rfl
  · next field rest hnext =>
    have hshort := next_shorter hnext
    cases step acc field with
    | error e => rfl
    | ok acc => exact foldFields_enough (by omega)

/-- One admitted field is one step of the loop. -/
theorem readFields_cons {β : Type*} {step : β → Tlv → Except Error β} {reader : TlvReader}
    {acc : β} {field : Tag × Bytes} {rest : Bytes}
    (h : reader.bytes = encodeField field ++ rest) (ha : Admitted reader.limits field)
    (hd : reader.depth ≤ reader.limits.maxDepth) :
    readFields step reader acc =
      step acc ⟨field.1, field.2, reader.depth, reader.limits, reader.minimalLengths⟩ >>=
        readFields step { reader with bytes := rest } := by
  rw [readFields_next, next_complete h ha hd]

end ProtocolTlvFields
