import LibCanokey.ProtocolTlv
import LibCanokey.ScriptedRuns

/-! # What the writer pushes, the readers yield

Each part of a field has a completeness lemma, for input that starts with its encoding,
and a soundness lemma, for input the strict reader accepts. -/
namespace ProtocolTlvRoundTrip

open BigEndian CheckedCursor ProtocolError ProtocolTlv ScriptedRuns

theorem scanTail_eq_ok {bytes : Bytes} {n k : ℕ} (h : scanTail bytes n = .ok k) :
    n < k ∧ k ≤ 4 ∧ k ≤ n + bytes.length ∧
      ∀ rest, scanTail (bytes.take (k - n) ++ rest) n = .ok k := by
  induction bytes generalizing n with
  | nil => cases h
  | cons byte bytes ih =>
    simp only [scanTail] at h
    split_ifs at h with hn hb
    · obtain rfl := Except.ok.inj h
      refine ⟨by omega, by omega, by simp, fun rest => ?_⟩
      rw [Nat.add_sub_cancel_left, List.take_succ_cons, List.cons_append, scanTail, if_neg hn,
        if_pos hb]
    · obtain ⟨hlt, hle, hlen, hrest⟩ := ih h
      rw [List.length_cons]
      refine ⟨by omega, hle, by omega, fun rest => ?_⟩
      obtain ⟨d, hd⟩ : ∃ d, k - n = d + 1 := ⟨k - n - 1, by omega⟩
      have hd' : k - (n + 1) = d := by omega
      rw [hd, List.take_succ_cons, List.cons_append, scanTail, if_neg hn, if_neg hb, ← hd']
      exact hrest rest

/-- A scan reads no further than the tag it accepts. -/
theorem scanTag_eq_ok {bytes : Bytes} {n : ℕ} (h : scanTag bytes = .ok n) :
    1 ≤ n ∧ n ≤ 4 ∧ n ≤ bytes.length ∧ ∀ rest, scanTag (bytes.take n ++ rest) = .ok n := by
  cases bytes with
  | nil => cases h
  | cons first bytes =>
    rw [scanTag] at h
    split_ifs at h with h0 h31 hnext
    · obtain ⟨hlt, hle, hlen, hrest⟩ := scanTail_eq_ok h
      obtain ⟨d, rfl⟩ : ∃ d, n = d + 1 := ⟨n - 1, by omega⟩
      rw [List.length_cons]
      refine ⟨by omega, hle, by omega, fun rest => ?_⟩
      cases bytes with
      | nil => simp at hlen; omega
      | cons second bytes =>
        obtain ⟨e, rfl⟩ : ∃ e, d = e + 1 := ⟨d - 1, by omega⟩
        have htail := hrest rest
        rw [Nat.add_sub_cancel, List.take_succ_cons, List.cons_append] at htail
        rw [List.take_succ_cons, List.take_succ_cons, List.cons_append, List.cons_append,
          scanTag, if_neg h0, if_pos h31, List.head?_cons, if_neg (by simpa using hnext), htail]
    · obtain rfl := Except.ok.inj h
      refine ⟨by omega, by omega, by simp, fun rest => ?_⟩
      rw [List.take_succ_cons, List.cons_append, scanTag, if_neg h0, if_neg h31]

theorem toBytes_of_scan {tag : Tag} {bytes : Bytes} (h : scanTag bytes = .ok tag.len)
    (hv : ofBeBytes (bytes.take tag.len) = tag.value) : tag.toBytes = bytes.take tag.len := by
  obtain ⟨_, h4, hlen, _⟩ := scanTag_eq_ok h
  have htake : (bytes.take tag.len).length = tag.len := by rw [List.length_take]; omega
  have hw : 4 = (4 - tag.len) + (bytes.take tag.len).length := by omega
  have hbytes : toBeBytes 4 tag.value = List.replicate (4 - tag.len) 0 ++ bytes.take tag.len := by
    rw [← toBeBytes_add, ← hw, hv]
  rw [Tag.toBytes, hbytes, List.drop_left' List.length_replicate]

/-- The packed value and length of a checked tag give back its wire bytes. -/
theorem scanTag_toBytes (tag : Tag) (rest : Bytes) :
    scanTag (tag.toBytes ++ rest) = .ok tag.len ∧ tag.toBytes.length = tag.len ∧
      ofBeBytes tag.toBytes = tag.value := by
  obtain ⟨bytes, h, hv⟩ := tag.wire
  obtain ⟨_, _, hlen, hrest⟩ := scanTag_eq_ok h
  rw [toBytes_of_scan h hv]
  refine ⟨hrest rest, ?_, hv⟩
  rw [List.length_take]
  omega

theorem length_toBytes (tag : Tag) : tag.toBytes.length = tag.len := (scanTag_toBytes tag []).2.1

theorem toBytes_ne_nil (tag : Tag) : tag.toBytes ≠ [] := by
  intro h
  have hs := (scanTag_toBytes tag []).1
  rw [h] at hs
  cases hs

theorem Tag.ext {s t : Tag} (hv : s.value = t.value) (hl : s.len = t.len) : s = t := by
  cases s
  cases t
  cases hv
  cases hl
  rfl

theorem parseTag_complete (tag : Tag) (rest : Bytes) :
    parseTag (tag.toBytes ++ rest) = .ok (tag, tag.len) := by
  obtain ⟨hs, hlen, hv⟩ := scanTag_toBytes tag rest
  simp only [parseTag]
  split
  · next e he => rw [hs] at he; cases he
  · next n hn =>
    obtain rfl : tag.len = n := Except.ok.inj (hs.symm.trans hn)
    have hvalue : ofBeBytes ((tag.toBytes ++ rest).take tag.len) = tag.value := by
      rw [List.take_left' hlen, hv]
    congr 2
    exact Tag.ext hvalue rfl

theorem parseTag_sound {bytes : Bytes} {tag : Tag} {n : ℕ} (h : parseTag bytes = .ok (tag, n)) :
    n = tag.len ∧ bytes = tag.toBytes ++ bytes.drop n := by
  simp only [parseTag] at h
  split at h
  · cases h
  · next k hk =>
    obtain ⟨rfl, rfl⟩ := Prod.mk.inj (Except.ok.inj h)
    refine ⟨rfl, ?_⟩
    rw [toBytes_of_scan hk rfl, List.take_append_drop]

/-- Reading a tag alone and writing it are inverse. -/
theorem fromBytes_eq_ok {bytes : Bytes} {tag : Tag} :
    Tag.fromBytes bytes = .ok tag ↔ tag.toBytes = bytes := by
  constructor
  · intro h
    simp only [Tag.fromBytes] at h
    split at h
    · cases h
    · next t n hp =>
      obtain ⟨rfl, hb⟩ := parseTag_sound hp
      split_ifs at h with hn
      cases h
      rw [not_not.mp hn, List.drop_length, List.append_nil] at hb
      exact hb.symm
  · rintro rfl
    have hp := parseTag_complete tag []
    rw [List.append_nil] at hp
    simp only [Tag.fromBytes]
    rw [hp]
    dsimp only
    rw [if_neg (by rw [length_toBytes]; simp)]

/-- The long form is one byte counting the bytes of a numeral without a leading zero. -/
theorem lengthField_long {n : ℕ} (h : 128 ≤ n) (hn : n < 2 ^ 32) :
    ∃ b bs, lengthField n = (0x80 ||| UInt8.ofNat (b :: bs).length) :: b :: bs ∧ b ≠ 0 ∧
      (b :: bs).length ≤ 4 ∧ ofBeBytes (b :: bs) = n := by
  have hv : ofBeBytes (toBeBytes 4 n) = n := ofBeBytes_toBeBytes (by omega)
  obtain ⟨k, b, bs, hk, hb, hi⟩ := leading_zeros (by omega : ofBeBytes (toBeBytes 4 n) ≠ 0)
  have hlen : k + (b :: bs).length = 4 := by
    have hl := congrArg List.length hk
    rw [length_toBeBytes, List.length_append, List.length_replicate] at hl
    exact hl.symm
  refine ⟨b, bs, ?_, hb, by omega, ?_⟩
  · have hcount : 4 - k = (b :: bs).length := by omega
    rw [lengthField, if_neg (by omega)]
    dsimp only
    rw [hi, Option.getD_some, hcount, hk, List.drop_left' List.length_replicate]
  · rw [← hv, hk, ofBeBytes_replicate_zero]

theorem lengthField_of_minimal {encoded : Bytes} (h0 : encoded.head? ≠ some 0)
    (hbig : 128 ≤ ofBeBytes encoded) (hlt : ofBeBytes encoded < 2 ^ 32) :
    lengthField (ofBeBytes encoded) = (0x80 ||| UInt8.ofNat encoded.length) :: encoded := by
  obtain ⟨b, bs, hf, hb, _, hv⟩ := lengthField_long hbig hlt
  cases encoded with
  | nil => simp [ofBeBytes] at hbig
  | cons c cs =>
    have hc : c ≠ 0 := fun hc => h0 (by rw [hc]; rfl)
    rw [hf, minimal_injective hb hc hv]

/-- The first byte of a long form: how it reads, and that it is one of the written ones. -/
theorem longForm_byte (k : ℕ) (hk : k ≤ 4) :
    ¬(0x80 ||| UInt8.ofNat k : Byte) < 128 ∧
      ((0x80 ||| UInt8.ofNat k : Byte) &&& 127).toNat = k := by
  have hall : ∀ k < 5, ¬(0x80 ||| UInt8.ofNat k : Byte) < 128 ∧
      ((0x80 ||| UInt8.ofNat k : Byte) &&& 127).toNat = k := by decide
  exact hall k (by omega)

theorem longForm_of_byte (b : Byte) (h : ¬b < 128) :
    0x80 ||| UInt8.ofNat (b &&& 127).toNat = b := by
  have hall : ∀ b : Byte, ¬b < 128 → 0x80 ||| UInt8.ofNat (b &&& 127).toNat = b :=
    forall_byte (by decide +kernel)
  exact hall b h

theorem shortForm_byte {n : ℕ} (h : n < 128) :
    (UInt8.ofNat n : Byte) < 128 ∧ (UInt8.ofNat n : Byte).toNat = n := by
  have ht : (UInt8.ofNat n : Byte).toNat = n := toNat_ofNat_of_lt (by omega)
  refine ⟨?_, ht⟩
  rw [UInt8.lt_iff_toNat_lt, ht]
  exact h

/-- Both readers read the length the writer wrote. -/
theorem length_complete {reader : TlvReader} {offset n : ℕ} {rest : Bytes} (hn : n < 2 ^ 32)
    (h : reader.bytes.drop offset = lengthField n ++ rest) :
    reader.length offset = .ok (n, offset + (lengthField n).length) := by
  by_cases hs : n < 128
  · obtain ⟨hlt, hv⟩ := shortForm_byte hs
    have hf : lengthField n = [UInt8.ofNat n] := if_pos hs
    rw [hf] at h ⊢
    rw [TlvReader.length, getElem?_of_drop h]
    dsimp only
    rw [if_pos hlt, hv]
    rfl
  · obtain ⟨b, bs, hf, hb, hlen, hv⟩ := lengthField_long (by omega) hn
    obtain ⟨hge, hcount⟩ := longForm_byte _ hlen
    rw [hf, List.cons_append] at h
    have hbytes : reader.bytes.drop (offset + 1) = (b :: bs) ++ rest :=
      drop_add_of_drop (s := [_]) h
    have hin : offset + 1 ≤ reader.bytes.length := by
      have hl := congrArg List.length hbytes
      simp only [List.length_drop, List.length_append, List.length_cons] at hl
      omega
    have hmax : ofBeBytes (b :: bs) ≤ usizeMax := by
      simp only [usizeMax]
      omega
    rw [TlvReader.length, getElem?_of_drop h]
    dsimp only
    rw [if_neg hge, hcount, if_neg (by simp only [List.length_cons] at *; omega),
      slice_complete hin hbytes]
    dsimp only
    rw [if_neg (by simp [hb]), checkedOfBeBytes_of_le hmax, hv]
    dsimp only
    rw [if_neg (fun hmin => hs hmin.2), hf, List.length_cons (a := _ ||| _)]
    congr 2
    omega

/-- What the strict reader takes for a length is what the writer would have written. -/
theorem length_sound {reader : TlvReader} {offset n stop : ℕ} (hm : reader.minimalLengths = true)
    (h : reader.length offset = .ok (n, stop)) :
    n < 2 ^ 32 ∧ stop = offset + (lengthField n).length ∧ stop ≤ reader.bytes.length ∧
      reader.bytes.drop offset = lengthField n ++ reader.bytes.drop stop := by
  simp only [TlvReader.length] at h
  cases hget : reader.bytes[offset]? with
  | none => rw [hget] at h; cases h
  | some first =>
    have hdrop := drop_of_getElem? hget
    obtain ⟨hin, _⟩ := List.getElem?_eq_some_iff.mp hget
    rw [hget] at h
    dsimp only at h
    by_cases hs : first < 128
    · rw [if_pos hs] at h
      obtain ⟨rfl, rfl⟩ := Prod.mk.inj (Except.ok.inj h)
      rw [UInt8.lt_iff_toNat_lt] at hs
      have hs' : first.toNat < 128 := hs
      have hf : lengthField first.toNat = [first] := by
        rw [lengthField, if_pos hs', UInt8.ofNat_toNat]
      rw [hf]
      exact ⟨by omega, rfl, hin, hdrop⟩
    · rw [if_neg hs] at h
      split_ifs at h with hcount
      cases hslice : slice reader.bytes (offset + 1) (offset + 1 + (first &&& 127).toNat) with
      | none => rw [hslice] at h; cases h
      | some encoded =>
        rw [hslice] at h
        dsimp only at h
        obtain ⟨hlen, hstop, hdrop'⟩ := slice_sound hslice
        have hel : encoded.length = (first &&& 127).toNat := by omega
        have hval : ofBeBytes encoded < 2 ^ 32 :=
          calc ofBeBytes encoded < 256 ^ encoded.length := ofBeBytes_lt encoded
            _ ≤ 256 ^ 4 := Nat.pow_le_pow_right (by decide) (by omega)
            _ = 2 ^ 32 := by decide
        have hmax : ofBeBytes encoded ≤ usizeMax := by
          simp only [usizeMax]
          omega
        rw [checkedOfBeBytes_of_le hmax] at h
        dsimp only at h
        split_ifs at h with hzero hsmall
        obtain ⟨rfl, rfl⟩ := Prod.mk.inj (Except.ok.inj h)
        have hbig : 128 ≤ ofBeBytes encoded := by
          by_contra hlt
          exact hsmall ⟨hm, by omega⟩
        have hfield : lengthField (ofBeBytes encoded) = first :: encoded := by
          rw [lengthField_of_minimal (fun h0 => hzero ⟨hm, h0⟩) hbig hval, hel,
            longForm_of_byte first hs]
        rw [hfield]
        refine ⟨hval, ?_, hstop, ?_⟩
        · rw [List.length_cons, hel]
          omega
        · rw [hdrop, hdrop', List.cons_append]

def encodeField (field : Tag × Bytes) : Bytes :=
  field.1.toBytes ++ lengthField field.2.length ++ field.2

/-- A field that fits a 32-bit length, the machine word and the reader's limits. -/
structure Admitted (limits : TlvLimits) (field : Tag × Bytes) : Prop where
  word : field.2.length < 2 ^ 32
  size : (encodeField field).length ≤ usizeMax
  value : field.2.length ≤ limits.maxValueBytes

theorem encodeField_ne_nil (field : Tag × Bytes) : encodeField field ≠ [] := by
  intro h
  rw [encodeField, List.append_assoc, List.append_eq_nil_iff] at h
  exact toBytes_ne_nil _ h.1

theorem next_nil {reader : TlvReader} (h : reader.bytes = []) : reader.next = .ok (none, reader) :=
  if_pos h

theorem next_complete {reader : TlvReader} {field : Tag × Bytes} {rest : Bytes}
    (h : reader.bytes = encodeField field ++ rest) (ha : Admitted reader.limits field)
    (hd : reader.depth ≤ reader.limits.maxDepth) :
    reader.next = .ok (some ⟨field.1, field.2, reader.depth, reader.limits, reader.minimalLengths⟩,
      { reader with bytes := rest }) := by
  obtain ⟨tag, value⟩ := field
  have hne : reader.bytes ≠ [] := by
    rw [h]
    exact List.append_ne_nil_of_left_ne_nil (encodeField_ne_nil _) _
  have htag : reader.bytes = tag.toBytes ++ (lengthField value.length ++ (value ++ rest)) := by
    rw [h, encodeField, List.append_assoc, List.append_assoc]
  have hlength : reader.bytes.drop tag.len = lengthField value.length ++ (value ++ rest) := by
    rw [htag, List.drop_left' (length_toBytes tag)]
  have hvalue := drop_add_of_drop hlength
  have hrest := drop_add_of_drop hvalue
  have hsize : (encodeField (tag, value)).length =
      tag.len + (lengthField value.length).length + value.length := by
    rw [encodeField, List.length_append, List.length_append, length_toBytes]
  have hin : tag.len + (lengthField value.length).length ≤ reader.bytes.length := by
    rw [h, List.length_append, hsize]
    omega
  have hparse : parseTag reader.bytes = .ok (tag, tag.len) := by rw [htag, parseTag_complete]
  have hv : value.length ≤ reader.limits.maxValueBytes := ha.value
  have hadd := checkedAdd_of_le (hsize ▸ ha.size)
  rw [TlvReader.next, if_neg hne, if_neg (by omega), hparse]
  dsimp only
  rw [length_complete ha.word hlength]
  dsimp only
  rw [if_neg (by omega), hadd]
  dsimp only
  rw [slice_complete hin hvalue, hrest]

/-- What a turn that yields a field has read: a tag, a length and as many bytes. -/
theorem next_some {reader rest : TlvReader} {field : Tlv}
    (h : reader.next = .ok (some field, rest)) :
    ∃ offset len start stop, parseTag reader.bytes = .ok (field.tag, offset) ∧
      reader.length offset = .ok (len, start) ∧ len ≤ reader.limits.maxValueBytes ∧
      checkedAdd start len = some stop ∧ slice reader.bytes start stop = some field.value ∧
      rest = { reader with bytes := reader.bytes.drop stop } ∧ reader.bytes ≠ [] ∧
      reader.depth ≤ reader.limits.maxDepth := by
  simp only [TlvReader.next] at h
  split_ifs at h with hne hd
  · cases h
  cases hparse : parseTag reader.bytes with
  | error e => rw [hparse] at h; cases h
  | ok parsed =>
    obtain ⟨tag, offset⟩ := parsed
    rw [hparse] at h
    dsimp only at h
    cases hlength : reader.length offset with
    | error e => rw [hlength] at h; cases h
    | ok found =>
      obtain ⟨len, start⟩ := found
      rw [hlength] at h
      dsimp only at h
      split_ifs at h with hmax
      cases hadd : checkedAdd start len with
      | none => rw [hadd] at h; cases h
      | some stop =>
        rw [hadd] at h
        dsimp only at h
        cases hslice : slice reader.bytes start stop with
        | none => rw [hslice] at h; cases h
        | some value =>
          rw [hslice] at h
          obtain ⟨hf, rfl⟩ := Prod.mk.inj (Except.ok.inj h)
          obtain rfl := Option.some.inj hf
          exact ⟨offset, len, start, stop, rfl, hlength, Nat.le_of_not_lt hmax, hadd, hslice, rfl,
            hne, Nat.le_of_not_lt hd⟩

/-- A field of the strict reader is the writer's encoding of it, followed by what is left. -/
theorem next_sound {reader reader' : TlvReader} {field : Tlv} (hm : reader.minimalLengths = true)
    (h : reader.next = .ok (some field, reader')) :
    reader.bytes = encodeField (field.tag, field.value) ++ reader'.bytes ∧
      reader' = { reader with bytes := reader'.bytes } ∧
      Admitted reader.limits (field.tag, field.value) ∧
      reader.depth ≤ reader.limits.maxDepth := by
  obtain ⟨offset, len, start, stop, hparse, hlength, hmax, hadd, hslice, rfl, -, hdepth⟩ :=
    next_some h
  obtain ⟨rfl, htag⟩ := parseTag_sound hparse
  obtain ⟨hword, rfl, _, hfield⟩ := length_sound hm hlength
  obtain ⟨hstop, _, hvalue⟩ := slice_sound hslice
  obtain ⟨hsum, husize⟩ := checkedAdd_eq_some.mp hadd
  obtain rfl : field.value.length = len := by omega
  refine ⟨?_, rfl, ⟨hword, ?_, hmax⟩, hdepth⟩
  · calc reader.bytes = field.tag.toBytes ++ reader.bytes.drop field.tag.len := htag
      _ = field.tag.toBytes ++ (lengthField field.value.length ++
            (field.value ++ reader.bytes.drop stop)) := by
          rw [hfield, hvalue]
      _ = encodeField (field.tag, field.value) ++ reader.bytes.drop stop := by
          rw [encodeField, List.append_assoc, List.append_assoc]
  · rw [encodeField, List.length_append, List.length_append, length_toBytes]
    exact husize

/-- The fields a reader yields until it reports the end of its input. -/
inductive Yields : TlvReader → List (Tag × Bytes) → Prop where
  | done {reader reader'} : reader.next = .ok (none, reader') → Yields reader []
  | field {reader reader' f fields} : reader.next = .ok (some f, reader') →
      Yields reader' fields → Yields reader ((f.tag, f.value) :: fields)

theorem next_none {reader reader' : TlvReader} (h : reader.next = .ok (none, reader')) :
    reader.bytes = [] := by
  simp only [TlvReader.next] at h
  by_contra hne
  rw [if_neg hne] at h
  -- every other branch fails or yields a field
  repeat' split at h
  all_goals cases h

theorem yields_unique {reader : TlvReader} {fs gs : List (Tag × Bytes)} (hf : Yields reader fs)
    (hg : Yields reader gs) : fs = gs := by
  induction hf generalizing gs with
  | done h =>
    cases hg with
    | done => rfl
    | field h' => rw [h] at h'; cases h'
  | field h _ ih =>
    cases hg with
    | done h' => rw [h] at h'; cases h'
    | field h' hg =>
      rw [h] at h'
      cases h'
      rw [ih hg]

/-- Either reader yields the fields its input was encoded from. -/
theorem yields_complete {fields : List (Tag × Bytes)} {reader : TlvReader}
    (h : reader.bytes = fields.flatMap encodeField)
    (ha : ∀ field ∈ fields, Admitted reader.limits field)
    (hd : reader.depth ≤ reader.limits.maxDepth) : Yields reader fields := by
  induction fields generalizing reader with
  | nil => exact .done (next_nil h)
  | cons field fields ih =>
    rw [List.flatMap_cons] at h
    have hnext := next_complete h (ha field List.mem_cons_self) hd
    exact .field hnext (ih rfl (fun f hf => ha f (List.mem_cons_of_mem _ hf)) hd)

/-- The strict reader reaches the end only of input that encodes what it yielded. -/
theorem yields_sound {reader : TlvReader} {fields : List (Tag × Bytes)} (h : Yields reader fields)
    (hm : reader.minimalLengths = true) :
    reader.bytes = fields.flatMap encodeField ∧ ∀ field ∈ fields, Admitted reader.limits field ∧
      reader.depth ≤ reader.limits.maxDepth := by
  induction h with
  | done h => exact ⟨next_none h, fun _ hf => by cases hf⟩
  | @field reader reader' f fields h _ ih =>
    obtain ⟨hbytes, hrest, hallowed, hd⟩ := next_sound hm h
    rw [hrest] at ih
    obtain ⟨hb, hall⟩ := ih hm
    refine ⟨by rw [hbytes, List.flatMap_cons, ← hb], ?_⟩
    intro g hg
    rcases List.mem_cons.mp hg with rfl | hg
    · exact ⟨hallowed, hd⟩
    · exact hall g hg

def pushField (writer : TlvWriter) (field : Tag × Bytes) : Except Error Unit × TlvWriter :=
  writer.push field.1 field.2

/-- The fields of a history of pushes that the writer took. -/
def pushed (history : List ((Tag × Bytes) × Except Error Unit)) : List (Tag × Bytes) :=
  history.filterMap fun call => match call.2 with
    | .ok () => some call.1
    | .error _ => none

/-- The writer has room for the field. -/
structure Fits (writer : TlvWriter) (field : Tag × Bytes) : Prop where
  word : field.2.length < 2 ^ 32
  limit : writer.bytes.length + (encodeField field).length ≤ writer.limit
  size : writer.bytes.length + (encodeField field).length ≤ usizeMax

theorem length_encodeField (field : Tag × Bytes) : (encodeField field).length =
    (field.1.toBytes ++ lengthField field.2.length).length + field.2.length := by
  rw [encodeField, List.length_append]

theorem push_of_fits {writer : TlvWriter} {field : Tag × Bytes} (h : Fits writer field) :
    ∃ after, pushField writer field = (.ok (), after) ∧
      after.bytes = writer.bytes ++ encodeField field ∧ after.limit = writer.limit := by
  have hsum := h.limit
  have husize := h.size
  rw [length_encodeField, ← Nat.add_assoc] at hsum husize
  have htotal := Bool.eq_false_iff.mp (checkedTotal_eq_false.mpr ⟨hsum, husize⟩)
  unfold pushField TlvWriter.push
  rw [if_neg (fun hw => absurd h.word (Nat.not_lt.mpr hw.2))]
  dsimp only
  rw [dif_neg htotal]
  exact ⟨_, rfl, List.append_assoc _ _ _, rfl⟩

theorem push_of_not_fits {writer : TlvWriter} {field : Tag × Bytes} (h : ¬Fits writer field) :
    pushField writer field = (.error (.new .limitExceeded), writer) := by
  unfold pushField TlvWriter.push
  split_ifs with hw
  · rfl
  · dsimp only
    split_ifs with htotal
    · rfl
    · refine absurd ?_ h
      obtain ⟨hsum, husize⟩ := checkedTotal_eq_false.mp (Bool.eq_false_iff.mpr htotal)
      rw [Nat.add_assoc, ← length_encodeField] at hsum husize
      exact ⟨by omega, hsum, husize⟩

/-- The buffer is the encoding of the fields taken, each of which a reader can admit. -/
structure Written (history : List ((Tag × Bytes) × Except Error Unit)) (writer : TlvWriter) :
    Prop where
  bytes : writer.bytes = (pushed history).flatMap encodeField
  word : ∀ field ∈ pushed history, field.2.length < 2 ^ 32
  size : ∀ field ∈ pushed history, (encodeField field).length ≤ usizeMax

theorem pushed_append (as bs : List ((Tag × Bytes) × Except Error Unit)) :
    pushed (as ++ bs) = pushed as ++ pushed bs := List.filterMap_append

theorem push_written {history : List ((Tag × Bytes) × Except Error Unit)} {writer : TlvWriter}
    (hw : Written history writer) (field : Tag × Bytes) :
    Written (history ++ [(field, (pushField writer field).1)]) (pushField writer field).2 := by
  by_cases hf : Fits writer field
  · obtain ⟨after, hpush, hbytes, _⟩ := push_of_fits hf
    have htaken : pushed (history ++ [(field, (pushField writer field).1)]) =
        pushed history ++ [field] := by
      rw [pushed_append, hpush]
      rfl
    have hsize := hf.size
    refine ⟨?_, ?_, ?_⟩
    · rw [htaken, hpush, hbytes, hw.bytes]
      simp
    · rw [htaken]
      simpa [or_imp, forall_and] using ⟨fun t v hm => hw.word (t, v) hm, hf.word⟩
    · rw [htaken]
      intro g hg
      rcases List.mem_append.mp hg with hg | hg
      · exact hw.size g hg
      · obtain rfl := List.mem_singleton.mp hg
        omega
  · have hpush := push_of_not_fits hf
    have hsame : pushed (history ++ [(field, (pushField writer field).1)]) = pushed history := by
      rw [pushed_append, hpush]
      exact List.append_nil _
    refine ⟨?_, ?_, ?_⟩
    · rw [hsame, hpush]
      exact hw.bytes
    · rw [hsame]
      exact hw.word
    · rw [hsame]
      exact hw.size

theorem run_written (limit : ℕ) (calls : List (Tag × Bytes)) :
    Written (run pushField (TlvWriter.new limit) calls).1
      (run pushField (TlvWriter.new limit) calls).2 :=
  run_invariant Written ⟨rfl, (fun _ h => by cases h), (fun _ h => by cases h)⟩
    (fun _ _ field hw => push_written hw field) calls

/-- Pushing fields that all fit takes them all. -/
theorem run_fitting {fields : List (Tag × Bytes)} {writer : TlvWriter}
    (hword : ∀ field ∈ fields, field.2.length < 2 ^ 32)
    (hlimit : writer.bytes.length + (fields.flatMap encodeField).length ≤ writer.limit)
    (husize : writer.limit ≤ usizeMax) :
    pushed (run pushField writer fields).1 = fields ∧
      (run pushField writer fields).2.bytes = writer.bytes ++ fields.flatMap encodeField := by
  induction fields generalizing writer with
  | nil => exact ⟨rfl, (List.append_nil _).symm⟩
  | cons field fields ih =>
    rw [List.flatMap_cons, List.length_append] at hlimit
    have hf : Fits writer field :=
      ⟨hword field List.mem_cons_self, by omega, Nat.le_trans (by omega) husize⟩
    obtain ⟨after, hpush, hbytes, hlim⟩ := push_of_fits hf
    obtain ⟨htaken, hall⟩ := ih (fun f hf => hword f (List.mem_cons_of_mem _ hf))
      (by rw [hbytes, List.length_append, hlim]; omega : after.bytes.length + _ ≤ after.limit)
      (hlim ▸ husize)
    rw [run, hpush]
    refine ⟨?_, ?_⟩
    · rw [← List.singleton_append, pushed_append, htaken]
      rfl
    · rw [hall, hbytes, List.flatMap_cons, List.append_assoc]

/-- The writer and the strict reader are inverse, and the lenient reader agrees with the
strict one wherever that one reaches the end. -/
theorem writer_reader_inverse :
    (∀ writer tag value e after, TlvWriter.push writer tag value = (.error e, after) →
      after = writer) ∧
    (∀ limit calls history writer limits,
      run pushField (TlvWriter.new limit) calls = (history, writer) → 1 ≤ limits.maxDepth →
      (∀ field ∈ pushed history, field.2.length ≤ limits.maxValueBytes) →
      Yields (TlvReader.new writer.bytes limits) (pushed history)) ∧
    (∀ bytes limits fields limit, Yields (TlvReader.new bytes limits) fields →
      bytes.length ≤ limit → limit ≤ usizeMax →
      ∃ history writer, run pushField (TlvWriter.new limit) fields = (history, writer) ∧
        pushed history = fields ∧ writer.bytes = bytes) ∧
    (∀ bytes limits fields, Yields (TlvReader.new bytes limits) fields →
      Yields (TlvReader.newBer bytes limits) fields) := by
  refine ⟨?_, ?_, ?_, ?_⟩
  · intro writer tag value e after h
    by_cases hf : Fits writer (tag, value)
    · obtain ⟨taken, hpush, _⟩ := push_of_fits hf
      rw [pushField, h] at hpush
      cases hpush
    · have hpush := push_of_not_fits hf
      rw [pushField, h] at hpush
      exact (Prod.mk.inj hpush).2
  · intro limit calls history writer limits hrun hdepth hvalues
    have hw := run_written limit calls
    rw [hrun] at hw
    exact yields_complete hw.bytes
      (fun f hf => ⟨hw.word f hf, hw.size f hf, hvalues f hf⟩) hdepth
  · intro bytes limits fields limit hy hlimit husize
    obtain ⟨hbytes, hallowed⟩ := yields_sound hy rfl
    have hbytes : bytes = fields.flatMap encodeField := hbytes
    have hroom : (TlvWriter.new limit).bytes.length + (fields.flatMap encodeField).length ≤
        (TlvWriter.new limit).limit := by
      rw [← hbytes]
      exact (Nat.zero_add _).symm ▸ hlimit
    obtain ⟨htaken, hall⟩ := run_fitting (fun f hf => (hallowed f hf).1.word) hroom husize
    exact ⟨_, _, rfl, htaken, hall.trans hbytes.symm⟩
  · intro bytes limits fields hy
    obtain ⟨hbytes, hallowed⟩ := yields_sound hy rfl
    cases fields with
    | nil => exact .done (next_nil hbytes)
    | cons f fs =>
      exact yields_complete hbytes (fun g hg => (hallowed g hg).1) (hallowed f List.mem_cons_self).2

def dataTag : Tag := ⟨0x70, 1, [0x70], rfl, rfl⟩

def objectTag : Tag := ⟨0x5fc105, 3, [0x5f, 0xc1, 0x05], rfl, rfl⟩

/-- The second field overflows the limit of eleven bytes and leaves no trace. -/
theorem writer_reader_inverse_duplicate :
    ∃ history writer after,
      run pushField (TlvWriter.new 11)
        [(dataTag, [7]), (objectTag, [1, 2, 3, 4, 5]), (objectTag, []), (dataTag, [8])] =
          (history, writer) ∧
      writer.bytes = [0x70, 1, 7, 0x5f, 0xc1, 0x05, 0, 0x70, 1, 8] ∧
      writer.push dataTag [] = (.error (.new .limitExceeded), after) ∧ after = writer ∧
      Yields (TlvReader.new writer.bytes {}) [(dataTag, [7]), (objectTag, []), (dataTag, [8])] ∧
      Yields (TlvReader.newBer writer.bytes {}) [(dataTag, [7]), (objectTag, []), (dataTag, [8])] ∧
      ∃ history' writer', run pushField (TlvWriter.new 10)
        [(dataTag, [7]), (objectTag, []), (dataTag, [8])] = (history', writer') ∧
        writer'.bytes = writer.bytes := by
  obtain ⟨hfail, hread, hwrite, hber⟩ := writer_reader_inverse
  have hy := hread 11
    [(dataTag, [7]), (objectTag, [1, 2, 3, 4, 5]), (objectTag, []), (dataTag, [8])] _ _ {} rfl
    (by decide) (by decide)
  refine ⟨_, _, _, rfl, rfl, rfl, hfail _ dataTag [] _ _ rfl, hy, hber _ _ _ hy, ?_⟩
  obtain ⟨history, writer, hrun, _, hbytes⟩ := hwrite _ _ _ 10 hy (by decide) (by decide)
  exact ⟨history, writer, hrun, hbytes⟩

end ProtocolTlvRoundTrip
