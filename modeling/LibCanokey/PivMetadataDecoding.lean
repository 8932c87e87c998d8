import LibCanokey.PivMetadata
import LibCanokey.ProtocolTlvSequences

/-! # Decoding of metadata

Nothing of a reply is lost: its typed fields spell the known tags byte for byte, and what no tag
is known for is kept in order. -/
namespace PivMetadataDecoding

open BigEndian ListTraversal ProtocolError ProtocolTlv ProtocolTlvRoundTrip ProtocolTlvFields
open ProtocolTlvSequences CompatProfile KeyPublicKey PivCommand PivMetadata

/-! ## Typed values and their bytes -/

/-- The byte an observation was made from. -/
def byteOf {α : Type} (wire : α → UInt8) : KnownOrUnknown α → UInt8
  | .known value => wire value
  | .unknown byte => byte

def originWire : KeyOrigin → UInt8
  | .notPresent => 0
  | .generated => 1
  | .imported => 2

def flagWire (flag : Bool) : UInt8 := if flag then 1 else 0

/-- The value that the typed fields give under a known tag. -/
def spelled (fields : MetadataFields) (tag : ℕ) : Option Bytes :=
  match tag with
  | 1 => fields.algorithmId.map ([·])
  | 2 => fields.pinPolicy.bind fun pin => fields.touchPolicy.map fun touch =>
      [byteOf PinPolicy.wire pin, byteOf TouchPolicy.wire touch]
  | 3 => fields.origin.map fun origin => [byteOf originWire origin]
  | 4 => fields.publicKeyTlv
  | 5 => fields.isDefault.map fun flag => [byteOf flagWire flag]
  | 6 => fields.retries.map fun retries => [retries.1, retries.2]
  | _ => none

/-- The typed fields that the values under the known tags make. -/
def typed (values : ℕ → Option Bytes) (unknown : List MetadataField) : MetadataFields :=
  { algorithmId := (values 1).map fun v => v.getD 0 0
    pinPolicy := (values 2).map fun v => PivMetadata.pinPolicy (v.getD 0 0)
    touchPolicy := (values 2).map fun v => PivMetadata.touchPolicy (v.getD 1 0)
    origin := (values 3).map fun v => keyOrigin (v.getD 0 0)
    publicKeyTlv := values 4
    isDefault := (values 5).map fun v => defaultFlag (v.getD 0 0)
    retries := (values 6).map fun v => (v.getD 0 0, v.getD 1 0)
    unknownFields := unknown }

def knownTag (tag : ℕ) : Bool := decide (1 ≤ tag ∧ tag ≤ 6)

/-- Only known tags have values, each of the length of its tag. -/
def Sized (values : ℕ → Option Bytes) : Prop :=
  ∀ tag v, values tag = some v → knownTag tag = true ∧ v.length = expectedLength tag v

section bytes

variable {values : ℕ → Option Bytes} {unknown : List MetadataField} {tag : ℕ} {value : Bytes}

theorem byteOf_pinPolicy (b : UInt8) : byteOf PinPolicy.wire (PivMetadata.pinPolicy b) = b := by
  rw [PivMetadata.pinPolicy]
  split_ifs with h0 h1 h2 h3
  all_goals first | exact h0.symm | exact h1.symm | exact h2.symm | exact h3.symm | rfl

theorem byteOf_touchPolicy (b : UInt8) :
    byteOf TouchPolicy.wire (PivMetadata.touchPolicy b) = b := by
  rw [PivMetadata.touchPolicy]
  split_ifs with h0 h1 h2 h3
  all_goals first | exact h0.symm | exact h1.symm | exact h2.symm | exact h3.symm | rfl

theorem byteOf_keyOrigin (b : UInt8) : byteOf originWire (keyOrigin b) = b := by
  rw [keyOrigin]
  split_ifs with h0 h1 h2
  all_goals first | exact h0.symm | exact h1.symm | exact h2.symm | rfl

theorem byteOf_defaultFlag (b : UInt8) : byteOf flagWire (defaultFlag b) = b := by
  rw [defaultFlag]
  split_ifs with h0 h1
  all_goals first | exact h0.symm | exact h1.symm | rfl

theorem knownTag_cases (h : knownTag tag = true) :
    tag = 1 ∨ tag = 2 ∨ tag = 3 ∨ tag = 4 ∨ tag = 5 ∨ tag = 6 := by
  have hrange : 1 ≤ tag ∧ tag ≤ 6 := of_decide_eq_true h
  omega

theorem singleton_getD (h : value.length = 1) : [value.getD 0 0] = value := by
  obtain ⟨b, rfl⟩ := List.length_eq_one_iff.mp h
  rfl

theorem pair_getD (h : value.length = 2) : [value.getD 0 0, value.getD 1 0] = value := by
  obtain ⟨b, c, rfl⟩ := List.length_eq_two.mp h
  rfl

theorem spelled_foreign (fields : MetadataFields) (h : knownTag tag = false) :
    spelled fields tag = none := by
  have hrange : ¬ (1 ≤ tag ∧ tag ≤ 6) := of_decide_eq_false h
  unfold spelled
  split <;> first | omega | rfl

/-- Typing loses nothing. -/
theorem spelled_typed (h : Sized values) : spelled (typed values unknown) = values := by
  funext tag
  cases hvalue : values tag with
  | none =>
    by_cases hknown : knownTag tag = true
    · rcases knownTag_cases hknown with rfl | rfl | rfl | rfl | rfl | rfl
      all_goals simp [spelled, typed, hvalue]
    · exact spelled_foreign _ (Bool.not_eq_true _ ▸ hknown)
  | some v =>
    obtain ⟨hknown, hlen⟩ := h tag v hvalue
    rcases knownTag_cases hknown with rfl | rfl | rfl | rfl | rfl | rfl
    · simp only [spelled, typed, hvalue, Option.map_some]
      rw [singleton_getD hlen]
    · simp only [spelled, typed, hvalue, Option.map_some, Option.bind_some, byteOf_pinPolicy,
        byteOf_touchPolicy]
      rw [pair_getD hlen]
    · simp only [spelled, typed, hvalue, Option.map_some, byteOf_keyOrigin]
      rw [singleton_getD hlen]
    · simp only [spelled, typed, hvalue]
    · simp only [spelled, typed, hvalue, Option.map_some, byteOf_defaultFlag]
      rw [singleton_getD hlen]
    · simp only [spelled, typed, hvalue, Option.map_some]
      rw [pair_getD hlen]

/-- A known field goes to its place. -/
theorem store_known {tag : Tag} (h : knownTag tag.value = true) :
    (typed values unknown).store tag value =
      typed (Function.update values tag.value (some value)) unknown := by
  rcases knownTag_cases h with htag | htag | htag | htag | htag | htag
  all_goals simp [MetadataFields.store, htag, typed, Function.update]

theorem store_foreign {tag : Tag} (h : knownTag tag.value = false) :
    (typed values unknown).store tag value = typed values (unknown ++ [⟨tag, value⟩]) := by
  have hrange : ¬ (1 ≤ tag.value ∧ tag.value ≤ 6) := of_decide_eq_false h
  unfold MetadataFields.store
  split <;> first | omega | rfl

end bytes

/-! ## The scan -/

/-- The scan after some fields: what it keeps under the known tags, and which of them it has
seen. -/
structure Kept (scan : Scan) (values : ℕ → Option Bytes) : Prop where
  sized : Sized values
  fields : scan.fields = typed values scan.fields.unknownFields
  seen : ∀ tag, tag ∈ scan.seen ↔ values tag ≠ none

def step (reader : TlvReader) (scan : Scan) (f : Tag × Bytes) : Except Error Scan :=
  scan.take (asTlv reader f)

/-- A known field has the length of its tag. -/
def Legal (f : Tag × Bytes) : Prop :=
  knownTag f.1.value = true → f.2.length = expectedLength f.1.value f.2

def others (scan : Scan) : List (Tag × Bytes) :=
  scan.fields.unknownFields.map fun field => (field.tag, field.value)

section scan

variable {scan scan' : Scan} {values : ℕ → Option Bytes} {f : Tag × Bytes} {reader : TlvReader}
  {fields : List (Tag × Bytes)}

theorem Kept.spelled (h : Kept scan values) : spelled scan.fields = values := by
  rw [h.fields]
  exact spelled_typed h.sized

theorem step_known (hknown : knownTag f.1.value = true) : step reader scan f = .ok scan' ↔
    f.1.value ∉ scan.seen ∧ f.2.length = expectedLength f.1.value f.2 ∧
      scan' = ⟨scan.fields.store f.1 f.2, f.1.value :: scan.seen⟩ := by
  have hrange : 1 ≤ f.1.value ∧ f.1.value ≤ 6 := of_decide_eq_true hknown
  rw [step, Scan.take, asTlv]
  dsimp only
  rw [if_pos hrange]
  by_cases hseen : f.1.value ∈ scan.seen
  · rw [if_pos hseen]
    simp [hseen]
  · rw [if_neg hseen]
    by_cases hlen : f.2.length = expectedLength f.1.value f.2
    · rw [if_neg (not_not.mpr hlen)]
      simp [hseen, hlen, eq_comm]
    · rw [if_pos hlen]
      simp [hlen]

theorem step_foreign (hknown : knownTag f.1.value = false) : step reader scan f = .ok scan' ↔
    scan' = { scan with fields := scan.fields.store f.1 f.2 } := by
  have hrange : ¬ (1 ≤ f.1.value ∧ f.1.value ≤ 6) := of_decide_eq_false hknown
  rw [step, Scan.take, asTlv]
  dsimp only
  rw [if_neg hrange]
  constructor
  · intro h
    exact (Except.ok.inj h).symm
  · rintro rfl
    rfl

/-- One field further. -/
theorem Kept.known_step (h : Kept scan values) (hknown : knownTag f.1.value = true)
    (hstep : step reader scan f = .ok scan') :
    Kept scan' (Function.update values f.1.value (some f.2)) ∧
      scan'.fields.unknownFields = scan.fields.unknownFields := by
  obtain ⟨hnew, hlen, rfl⟩ := (step_known hknown).mp hstep
  have hstore := @store_known values scan.fields.unknownFields f.2 f.1 hknown
  rw [← h.fields] at hstore
  have hunknown : (scan.fields.store f.1 f.2).unknownFields = scan.fields.unknownFields := by
    rw [hstore]
    rfl
  refine ⟨⟨?_, ?_, ?_⟩, hunknown⟩
  · intro tag v hv
    by_cases hown : tag = f.1.value
    · subst hown
      rw [Function.update_self] at hv
      obtain rfl := Option.some.inj hv
      exact ⟨hknown, hlen⟩
    · rw [Function.update_of_ne hown] at hv
      exact h.sized tag v hv
  · dsimp only
    rw [hunknown]
    exact hstore
  · intro tag
    dsimp only
    rw [List.mem_cons, h.seen]
    by_cases hown : tag = f.1.value
    · subst hown
      simp
    · rw [Function.update_of_ne hown]
      simp [hown]

theorem Kept.foreign_step (h : Kept scan values) (hknown : knownTag f.1.value = false)
    (hstep : step reader scan f = .ok scan') :
    Kept scan' values ∧
      scan'.fields.unknownFields = scan.fields.unknownFields ++ [⟨f.1, f.2⟩] := by
  obtain rfl := (step_foreign hknown).mp hstep
  have hstore := @store_foreign values scan.fields.unknownFields f.2 f.1 hknown
  rw [← h.fields] at hstore
  have hunknown : (scan.fields.store f.1 f.2).unknownFields =
      scan.fields.unknownFields ++ [⟨f.1, f.2⟩] := by
    rw [hstore]
    rfl
  refine ⟨⟨h.sized, ?_, h.seen⟩, hunknown⟩
  dsimp only
  rw [hunknown]
  exact hstore

theorem collects (reader : TlvReader) :
    Collects (step reader) (fun scan => ∃ values, Kept scan values)
      (fun scan => spelled scan.fields) others knownTag Legal := by
  constructor
  · rintro scan f ⟨values, h⟩
    cases hknown : knownTag f.1.value with
    | true =>
      have hfree : f.1.value ∉ scan.seen ↔ spelled scan.fields f.1.value = none := by
        rw [h.spelled, h.seen, not_not]
      constructor
      · rintro ⟨scan', hstep⟩
        obtain ⟨hnew, hlen, -⟩ := (step_known hknown).mp hstep
        exact ⟨fun _ => hlen, fun _ => hfree.mp hnew⟩
      · rintro ⟨hlegal, hnone⟩
        exact ⟨_, (step_known hknown).mpr ⟨hfree.mpr (hnone rfl), hlegal hknown, rfl⟩⟩
    | false =>
      constructor
      · intro _
        refine ⟨?_, ?_⟩
        · intro h
          rw [hknown] at h
          cases h
        · intro h
          cases h
      · intro _
        exact ⟨_, (step_foreign hknown).mpr rfl⟩
  · rintro scan f scan' ⟨values, h⟩ hstep
    cases hknown : knownTag f.1.value with
    | true => exact ⟨_, (h.known_step hknown hstep).1⟩
    | false => exact ⟨_, (h.foreign_step hknown hstep).1⟩
  · rintro scan f scan' ⟨values, h⟩ hstep hknown
    obtain ⟨hkept, hunknown⟩ := h.known_step hknown hstep
    refine ⟨?_, ?_⟩
    · rw [hkept.spelled, h.spelled]
    · rw [others, others, hunknown]
  · rintro scan f scan' ⟨values, h⟩ hstep hknown
    obtain ⟨hkept, hunknown⟩ := h.foreign_step hknown hstep
    refine ⟨?_, ?_⟩
    · rw [hkept.spelled, h.spelled]
    · rw [others, others, hunknown, List.map_append]
      rfl

theorem kept_nothing : Kept {} fun _ => none := by
  refine ⟨?_, rfl, ?_⟩
  · intro tag v hv
    cases hv
  · intro tag
    simp

end scan

/-! ## Fields of a reply -/

/-- A known tag at most once and of its length, and some field at all. -/
structure WellFormed (fields : List (Tag × Bytes)) : Prop where
  nonempty : fields ≠ []
  lengths : ∀ f ∈ fields, Legal f
  once : ∀ tag, knownTag tag = true → (valuesOf tag fields).length ≤ 1

/-- The fields under known tags. -/
def knownFields (fields : List (Tag × Bytes)) : List (Tag × Bytes) :=
  fields.filter fun f => knownTag f.1.value

def unknownFields (fields : List (Tag × Bytes)) : List MetadataField :=
  (foreign knownTag fields).map fun f => ⟨f.1, f.2⟩

section reply

variable {fields fields' : List (Tag × Bytes)} {reader : TlvReader} {scan : Scan} {tag : ℕ}
  {f : Tag × Bytes}

theorem valuesOf_knownFields (h : knownTag tag = true) :
    valuesOf tag (knownFields fields) = valuesOf tag fields := by
  rw [valuesOf, knownFields, List.filter_filter, valuesOf]
  congr 1
  apply List.filter_congr
  intro f _
  by_cases hown : f.1.value = tag
  · simp [hown, h]
  · simp [hown]

/-- The scan of legal fields gives the typed fields of the values and the unknown fields in
order. -/
theorem scanned (h : fields.foldlM (step reader) {} = .ok scan) :
    (∀ tag, knownTag tag = true → valuesOf tag fields = (spelled scan.fields tag).toList) ∧
      scan.fields = typed (spelled scan.fields) (unknownFields fields) := by
  obtain ⟨⟨values, hkept⟩, -, hslots, hothers⟩ := (collects reader).fold ⟨_, kept_nothing⟩ h
  refine ⟨?_, ?_⟩
  · intro tag htag
    have hempty : spelled ({} : Scan).fields tag = none := congrFun kept_nothing.spelled tag
    rw [hslots tag htag, hempty]
    rfl
  · have hunknown : scan.fields.unknownFields = unknownFields fields := by
      have hmap := congrArg (List.map fun f => (⟨f.1, f.2⟩ : MetadataField)) hothers
      rw [others, List.map_map] at hmap
      exact (List.map_id _).symm.trans hmap
    rw [hkept.spelled, ← hunknown]
    exact hkept.fields

theorem scan_iff : (∃ scan, fields.foldlM (step reader) {} = .ok scan) ↔
    (∀ f ∈ fields, Legal f) ∧ ∀ tag, knownTag tag = true → (valuesOf tag fields).length ≤ 1 :=
  (collects reader).iff_of_empty ⟨_, kept_nothing⟩ kept_nothing.spelled

/-- Known tags are single bytes, so their number says which tag it is. -/
theorem tag_eq (s t : Tag) (hs : knownTag s.value = true) (h : s.value = t.value) : s = t := by
  rcases knownTag_cases hs with hv | hv | hv | hv | hv | hv
  · exact tag_eq_of_short (by decide : ShortTag 1) hv h
  · exact tag_eq_of_short (by decide : ShortTag 2) hv h
  · exact tag_eq_of_short (by decide : ShortTag 3) hv h
  · exact tag_eq_of_short (by decide : ShortTag 4) hv h
  · exact tag_eq_of_short (by decide : ShortTag 5) hv h
  · exact tag_eq_of_short (by decide : ShortTag 6) hv h

/-- Known fields in another order, between any unknown ones, are as well formed. -/
theorem WellFormed.permuted (h : WellFormed fields) (hne : fields' ≠ [])
    (hperm : (knownFields fields').Perm (knownFields fields)) :
    WellFormed fields' ∧
      ∀ tag, knownTag tag = true → valuesOf tag fields' = valuesOf tag fields := by
  have hsame : ∀ tag, knownTag tag = true → valuesOf tag fields' = valuesOf tag fields := by
    intro tag htag
    have hvalues := @valuesOf_perm tag _ _ hperm
    rw [valuesOf_knownFields htag, valuesOf_knownFields htag] at hvalues
    exact eq_of_perm_short hvalues.symm (h.once tag htag)
  refine ⟨⟨hne, ?_, ?_⟩, hsame⟩
  · intro f hf hknown
    have hmem : f ∈ knownFields fields := hperm.mem_iff.mp (List.mem_filter.mpr ⟨hf, hknown⟩)
    exact h.lengths f (List.mem_filter.mp hmem).1 hknown
  · intro tag htag
    rw [hsame tag htag]
    exact h.once tag htag

end reply

/-! ## Whole replies -/

section decode

variable {profile : DeviceProfile} {reference : MetadataReference} {data data' : Bytes}
  {limit : ℕ} {m : Metadata} {fields fields' : List (Tag × Bytes)}

/-- The result for a reference. -/
def record (reference : MetadataReference) (fields : MetadataFields) : Metadata :=
  match reference with
  | .key slot => .key slot fields
  | .pin => .pin fields
  | .puk => .puk fields
  | .management => .management fields

theorem record_fields (reference : MetadataReference) (fields : MetadataFields) :
    (record reference fields).fields = fields := by
  cases reference <;> rfl

/-- A key record also has its public key decoded. -/
def resolved (profile : DeviceProfile) (reference : MetadataReference) (limit : ℕ)
    (fields : MetadataFields) : Except Error MetadataFields :=
  match reference with
  | .key _ => fields.decodeKey profile limit
  | _ => .ok fields

theorem decode_eq_ok : decode profile reference data limit = .ok m ↔
    ∃ scan found, readFields Scan.take (.new data { maxValueBytes := limit }) {} = .ok scan ∧
      data ≠ [] ∧ resolved profile reference limit scan.fields = .ok found ∧
      m = record reference { found with raw := data } := by
  rw [decode]
  constructor
  · intro h
    obtain ⟨scan, hread, h⟩ := bind_eq_ok.mp h
    by_cases hnil : data = []
    · rw [if_pos hnil] at h
      cases h
    rw [if_neg hnil] at h
    cases reference with
    | key slot =>
      obtain ⟨found, hfound, h⟩ := bind_eq_ok.mp h
      exact ⟨scan, found, hread, hnil, hfound, (Except.ok.inj h).symm⟩
    | pin | puk | management => exact ⟨scan, _, hread, hnil, rfl, (Except.ok.inj h).symm⟩
  · rintro ⟨scan, found, hread, hnil, hfound, rfl⟩
    refine bind_eq_ok.mpr ⟨scan, hread, ?_⟩
    rw [if_neg hnil]
    cases reference with
    | key slot => exact bind_eq_ok.mpr ⟨found, hfound, rfl⟩
    | pin | puk | management =>
      obtain rfl := Except.ok.inj hfound
      rfl

/-- The public key that a record of a key has decoded. -/
def resolvedKey (profile : DeviceProfile) (reference : MetadataReference) (limit : ℕ)
    (id : Option UInt8) (tlv : Option Bytes) : Except Error (Option PublicKey) :=
  match reference, id.bind profile.algorithmFromWireId, tlv with
  | .key _, some algorithm, some bytes => (PublicKey.fromTlv algorithm bytes limit).map some
  | _, _, _ => .ok none

/-- The public key depends on nothing but its algorithm and its encoding. -/
theorem resolved_eq {read : MetadataFields} (h : read.publicKey = none) :
    resolved profile reference limit read =
      (resolvedKey profile reference limit read.algorithmId read.publicKeyTlv).map
        fun key => { read with publicKey := key } := by
  obtain ⟨raw, id, pin, touch, origin, flag, retries, tlv, key, unknown⟩ := read
  obtain rfl : key = none := h
  cases reference with
  | pin | puk | management => rfl
  | key slot =>
    rw [resolved, MetadataFields.decodeKey, resolvedKey.eq_def]
    dsimp only
    cases id with
    | none => rfl
    | some id =>
      rw [Option.bind_some]
      cases tlv with
      | none => cases profile.algorithmFromWireId id <;> rfl
      | some bytes =>
        dsimp only
        cases profile.algorithmFromWireId id with
        | none => rfl
        | some algorithm =>
          dsimp only
          cases PublicKey.fromTlv algorithm bytes limit <;> rfl

/-- A reply decodes exactly when it is well formed and its public key, where it is read, is one. -/
theorem decode_iff : decode profile reference data limit = .ok m ↔ ∃ fields values key,
    StrictSequence { maxValueBytes := limit } fields data ∧ WellFormed fields ∧
      (∀ tag, knownTag tag = true → valuesOf tag fields = (values tag).toList) ∧
      (∀ tag, knownTag tag = false → values tag = none) ∧
      resolvedKey profile reference limit (typed values []).algorithmId (values 4) = .ok key ∧
      m = record reference
        { typed values (unknownFields fields) with raw := data, publicKey := key } := by
  rw [decode_eq_ok]
  constructor
  · rintro ⟨scan, found, hread, hnil, hfound, rfl⟩
    obtain ⟨fields, hfields, hscan⟩ := (readFields_strict rfl (show 1 ≤ 16 by decide)).mp hread
    obtain ⟨hvalues, hscanned⟩ := scanned hscan
    obtain ⟨hlegal, hone⟩ := scan_iff.mp ⟨scan, hscan⟩
    have hne : fields ≠ [] := by
      rintro rfl
      exact hnil hfields.bytes
    rw [hscanned, resolved_eq rfl] at hfound
    obtain ⟨key, hkey, rfl⟩ := map_eq_ok.mp hfound
    exact ⟨fields, spelled scan.fields, key, hfields, ⟨hne, hlegal, hone⟩, hvalues,
      fun _ htag => spelled_foreign _ htag, hkey, rfl⟩
  · rintro ⟨fields, values, key, hfields, ⟨hne, hlegal, hone⟩, hvalues, hforeign, hkey, rfl⟩
    obtain ⟨scan, hscan⟩ := (@scan_iff fields (.new data { maxValueBytes := limit })).mpr
      ⟨hlegal, hone⟩
    obtain ⟨hspelled, hscanned⟩ := scanned hscan
    have hsame : spelled scan.fields = values := by
      funext tag
      cases hknown : knownTag tag with
      | true => exact toList_inj ((hspelled tag hknown).symm.trans (hvalues tag hknown))
      | false => rw [spelled_foreign _ hknown, hforeign tag hknown]
    rw [hsame] at hscanned
    have hnil : data ≠ [] := by
      rw [hfields.bytes]
      intro hempty
      obtain ⟨f, rest, rfl⟩ := List.exists_cons_of_ne_nil hne
      rw [List.flatMap_cons, List.append_eq_nil_iff] at hempty
      exact encodeField_ne_nil f hempty.1
    refine ⟨scan, { typed values (unknownFields fields) with publicKey := key },
      (readFields_strict rfl (show 1 ≤ 16 by decide)).mpr ⟨fields, hfields, hscan⟩, hnil, ?_, rfl⟩
    rw [hscanned, resolved_eq rfl]
    exact map_eq_ok.mpr ⟨key, hkey, rfl⟩

end decode

/-! ## Indices

The scan once more, with each index into a value and into the seven flags checked: `none` is an
access out of range. -/

def storeIndexed (fields : MetadataFields) (tag : Tag) (value : Bytes) : Option MetadataFields :=
  match tag.value with
  | 1 => value[0]?.map fun b => { fields with algorithmId := some b }
  | 2 => value[0]?.bind fun b => value[1]?.map fun c =>
    { fields with
      pinPolicy := some (PivMetadata.pinPolicy b)
      touchPolicy := some (PivMetadata.touchPolicy c) }
  | 3 => value[0]?.map fun b => { fields with origin := some (keyOrigin b) }
  | 4 => some { fields with publicKeyTlv := some value }
  | 5 => value[0]?.map fun b => { fields with isDefault := some (defaultFlag b) }
  | 6 => value[0]?.bind fun b => value[1]?.map fun c => { fields with retries := some (b, c) }
  | _ => some { fields with unknownFields := fields.unknownFields ++ [⟨tag, value⟩] }

/-- One turn of the loop over its fields and flags. -/
def takeIndexed (acc : MetadataFields × List Bool) (field : Tlv) :
    Option (Except Error (MetadataFields × List Bool)) :=
  if 1 ≤ field.tag.value ∧ field.tag.value ≤ 6 then
    acc.2[field.tag.value]?.bind fun seen =>
      if seen then some (.error malformed)
      else if field.value.length ≠ expectedLength field.tag.value field.value then
        some (.error malformed)
      else (storeIndexed acc.1 field.tag field.value).map fun fields =>
        .ok (fields, acc.2.set field.tag.value true)
  else (storeIndexed acc.1 field.tag field.value).map fun fields => .ok (fields, acc.2)

def foldIndexed : ℕ → TlvReader → MetadataFields × List Bool →
    Option (Except Error (MetadataFields × List Bool))
  | 0, _, acc => some (.ok acc)
  | n + 1, reader, acc =>
    match reader.next with
    | .error e => some (.error e)
    | .ok (none, _) => some (.ok acc)
    | .ok (some field, rest) =>
      match takeIndexed acc field with
      | none => none
      | some (.error e) => some (.error e)
      | some (.ok acc) => foldIndexed n rest acc

def scanIndexed (reader : TlvReader) : Option (Except Error (MetadataFields × List Bool)) :=
  foldIndexed reader.bytes.length reader ({}, List.replicate 7 false)

/-- The flags are those of the tags that the scan has seen. -/
structure Agrees (acc : MetadataFields × List Bool) (scan : Scan) : Prop where
  fields : acc.1 = scan.fields
  flags : ∀ tag, tag < 7 → acc.2[tag]? = some (decide (tag ∈ scan.seen))

section indexed

variable {acc : MetadataFields × List Bool} {scan scan' : Scan} {field : Tlv} {tag : Tag}
  {value : Bytes} {fields : MetadataFields}

/-- A value of the length of its tag is stored without an access out of range. -/
theorem storeIndexed_eq (h : knownTag tag.value = true →
    value.length = expectedLength tag.value value) :
    storeIndexed fields tag value = some (fields.store tag value) := by
  have hone (hlen : value.length = 1) : value[0]? = some (value.getD 0 0) := by
    obtain ⟨b, rfl⟩ := List.length_eq_one_iff.mp hlen
    rfl
  have htwo (hlen : value.length = 2) :
      value[0]? = some (value.getD 0 0) ∧ value[1]? = some (value.getD 1 0) := by
    obtain ⟨b, c, rfl⟩ := List.length_eq_two.mp hlen
    exact ⟨rfl, rfl⟩
  cases hknown : knownTag tag.value with
  | true =>
    have hlen := h hknown
    rcases knownTag_cases hknown with htag | htag | htag | htag | htag | htag
    · rw [htag] at hlen
      simp only [storeIndexed, MetadataFields.store, htag, hone hlen, Option.map_some]
    · rw [htag] at hlen
      obtain ⟨hfirst, hsecond⟩ := htwo hlen
      simp only [storeIndexed, MetadataFields.store, htag, hfirst, hsecond, Option.bind_some,
        Option.map_some]
    · rw [htag] at hlen
      simp only [storeIndexed, MetadataFields.store, htag, hone hlen, Option.map_some]
    · simp only [storeIndexed, MetadataFields.store, htag]
    · rw [htag] at hlen
      simp only [storeIndexed, MetadataFields.store, htag, hone hlen, Option.map_some]
    · rw [htag] at hlen
      obtain ⟨hfirst, hsecond⟩ := htwo hlen
      simp only [storeIndexed, MetadataFields.store, htag, hfirst, hsecond, Option.bind_some,
        Option.map_some]
  | false =>
    have hrange : ¬ (1 ≤ tag.value ∧ tag.value ≤ 6) := of_decide_eq_false hknown
    unfold storeIndexed
    split <;> first | omega | skip
    unfold MetadataFields.store
    split <;> first | omega | rfl

/-- A turn stays in range and does what the scan does. -/
theorem takeIndexed_agrees (h : Agrees acc scan) :
    (∃ e, takeIndexed acc field = some (.error e) ∧ scan.take field = .error e) ∨
      ∃ acc' scan', takeIndexed acc field = some (.ok acc') ∧ scan.take field = .ok scan' ∧
        Agrees acc' scan' := by
  obtain ⟨fields, flags⟩ := acc
  obtain ⟨rfl, hflags⟩ := h
  dsimp only at hflags ⊢
  by_cases hrange : 1 ≤ field.tag.value ∧ field.tag.value ≤ 6
  · have hflag := hflags field.tag.value (by omega)
    rw [takeIndexed, Scan.take, if_pos hrange, if_pos hrange, hflag, Option.bind_some]
    by_cases hseen : field.tag.value ∈ scan.seen
    · rw [if_pos hseen]
      exact Or.inl ⟨malformed, if_pos (decide_eq_true hseen), rfl⟩
    · rw [if_neg hseen, if_neg (by simpa using hseen)]
      by_cases hlen : field.value.length = expectedLength field.tag.value field.value
      · rw [if_neg (not_not.mpr hlen), if_neg (not_not.mpr hlen), storeIndexed_eq fun _ => hlen]
        refine Or.inr ⟨_, _, rfl, rfl, rfl, ?_⟩
        intro tag htag
        dsimp only
        by_cases hown : tag = field.tag.value
        · subst hown
          have hlt := (List.getElem?_eq_some_iff.mp hflag).1
          rw [List.getElem?_set_self hlt]
          simp
        · rw [List.getElem?_set_ne (Ne.symm hown), hflags tag htag]
          simp [hown]
      · rw [if_pos hlen, if_pos hlen]
        exact Or.inl ⟨malformed, rfl, rfl⟩
  · rw [takeIndexed, Scan.take, if_neg hrange, if_neg hrange, storeIndexed_eq (by
      intro hknown
      exact absurd (of_decide_eq_true hknown) hrange)]
    exact Or.inr ⟨_, _, rfl, rfl, rfl, hflags⟩

/-- The whole loop stays in range. The induction is on the turns. -/
theorem foldIndexed_agrees (h : Agrees acc scan) (n : ℕ) (reader : TlvReader) :
    ∃ result, foldIndexed n reader acc = some result ∧
      result.map Prod.fst = (foldFields Scan.take n reader scan).map Scan.fields := by
  induction n generalizing reader acc scan with
  | zero => exact ⟨_, rfl, congrArg Except.ok h.fields⟩
  | succ n ih =>
    rw [foldIndexed, foldFields]
    rcases reader.next with e | ⟨_ | field, rest⟩
    · exact ⟨_, rfl, rfl⟩
    · exact ⟨_, rfl, congrArg Except.ok h.fields⟩
    · dsimp only
      rcases @takeIndexed_agrees acc scan field h with ⟨e, hindexed, htake⟩ |
        ⟨acc', scan', hindexed, htake, hagrees⟩
      · rw [hindexed, htake]
        exact ⟨_, rfl, rfl⟩
      · rw [hindexed, htake]
        exact ih hagrees rest

theorem scanIndexed_agrees (reader : TlvReader) : ∃ result, scanIndexed reader = some result ∧
    result.map Prod.fst = (readFields Scan.take reader {}).map Scan.fields := by
  apply foldIndexed_agrees
  refine ⟨rfl, ?_⟩
  intro tag htag
  rw [List.getElem?_replicate_of_lt htag]
  simp

end indexed

/-- The decoder over the checked scan. -/
def decodeIndexed (profile : DeviceProfile) (reference : MetadataReference) (data : Bytes)
    (limit : ℕ) : Option (Except Error Metadata) :=
  (scanIndexed (.new data { maxValueBytes := limit })).map fun result => do
    let acc ← result
    if data = [] then .error malformed
    else do
      let found ← resolved profile reference limit acc.1
      .ok (record reference { found with raw := data })

theorem decodeIndexed_eq (profile : DeviceProfile) (reference : MetadataReference) (data : Bytes)
    (limit : ℕ) :
    decodeIndexed profile reference data limit = some (decode profile reference data limit) := by
  obtain ⟨result, hscan, hsame⟩ := scanIndexed_agrees (.new data { maxValueBytes := limit })
  rw [decodeIndexed, hscan, Option.map_some, decode]
  congr 1
  cases hread : readFields Scan.take (.new data { maxValueBytes := limit }) {} with
  | error e =>
    rw [hread] at hsame
    cases result with
    | error e' =>
      cases hsame
      rfl
    | ok acc => cases hsame
  | ok scan =>
    rw [hread] at hsame
    cases result with
    | error e' => cases hsame
    | ok acc =>
      have hfields : acc.1 = scan.fields := Except.ok.inj hsame
      dsimp only [bind, Except.bind]
      rw [hfields]
      cases reference <;> rfl

/-! ## Lossless decoding -/

/-- An accepted reply is kept whole. Its fields are those of one strict sequence, in which a known
tag stands once at most and with its length; the record spells each known tag and lists the
unknown fields in their order, which is all there is to the sequence; and the known fields in
another order give the same record. Any other reply is refused. Every index is in range. -/
theorem decode_lossless (profile : DeviceProfile) (reference : MetadataReference) (data : Bytes)
    (limit : ℕ) :
    (∀ m, decode profile reference data limit = .ok m → m.fields.raw = data ∧
      ∃ fields, StrictSequence { maxValueBytes := limit } fields data ∧ WellFormed fields ∧
        (∀ tag, knownTag tag = true → valuesOf tag fields = (spelled m.fields tag).toList) ∧
        m.fields.unknownFields = unknownFields fields ∧
        (∀ fields', (∀ tag, knownTag tag = true →
            valuesOf tag fields' = (spelled m.fields tag).toList) →
          unknownFields fields' = m.fields.unknownFields → fields'.Perm fields) ∧
        ∀ data' fields', StrictSequence { maxValueBytes := limit } fields' data' →
          fields' ≠ [] → (knownFields fields').Perm (knownFields fields) →
          decode profile reference data' limit =
            .ok (record reference
              { m.fields with raw := data', unknownFields := unknownFields fields' })) ∧
    ((¬ ∃ fields, StrictSequence { maxValueBytes := limit } fields data ∧ WellFormed fields) →
      ∃ e, decode profile reference data limit = .error e) ∧
    decodeIndexed profile reference data limit = some (decode profile reference data limit) := by
  refine ⟨?_, ?_, decodeIndexed_eq profile reference data limit⟩
  · intro m h
    obtain ⟨fields, values, key, hfields, hwell, hvalues, hforeign, hkey, rfl⟩ := decode_iff.mp h
    rw [record_fields]
    have hsized : Sized values := by
      intro tag v hv
      cases hknown : knownTag tag with
      | false =>
        rw [hforeign tag hknown] at hv
        cases hv
      | true =>
        have hmem : v ∈ valuesOf tag fields := by
          rw [hvalues tag hknown, hv]
          exact List.mem_singleton_self v
        obtain ⟨f, hf, htag, rfl⟩ := mem_valuesOf.mp hmem
        rw [← htag] at hknown ⊢
        exact ⟨rfl, hwell.lengths f hf hknown⟩
    have hspelled : spelled { typed values (unknownFields fields) with
        raw := data, publicKey := key } = values :=
      @spelled_typed values (unknownFields fields) hsized
    refine ⟨rfl, fields, hfields, hwell, ?_, rfl, ?_, ?_⟩
    · rw [hspelled]
      exact hvalues
    · intro fields' hsame hunknown
      rw [hspelled] at hsame
      refine perm_of_same tag_eq ?_ ?_
      · intro tag htag
        rw [hsame tag htag, hvalues tag htag]
      · refine List.map_injective_iff.mpr ?_ hunknown
        intro f g hfg
        injection hfg with htag hvalue
        exact Prod.ext htag hvalue
    · intro data' fields' hfields' hne hperm
      obtain ⟨hwell', hvalues'⟩ := hwell.permuted hne hperm
      refine decode_iff.mpr ⟨fields', values, key, hfields', hwell', ?_, hforeign, hkey, rfl⟩
      intro tag htag
      rw [hvalues' tag htag, hvalues tag htag]
  · intro hnone
    cases hdecode : decode profile reference data limit with
    | error e => exact ⟨e, rfl⟩
    | ok m =>
      obtain ⟨fields, values, key, hfields, hwell, -⟩ := decode_iff.mp hdecode
      exact absurd ⟨fields, hfields, hwell⟩ hnone

/-- A touch policy that no name is known for, between two unknown fields of one tag. -/
theorem decode_lossless_unknown :
    ∃ m, decode ⟨none, none, none, none, []⟩ .pin [0x40, 1, 9, 2, 2, 1, 7, 0x40, 1, 8] 16 = .ok m ∧
      m.fields.raw = [0x40, 1, 9, 2, 2, 1, 7, 0x40, 1, 8] ∧
      spelled m.fields 2 = some [1, 7] ∧ m.fields.unknownFields.map (·.value) = [[9], [8]] := by
  obtain ⟨hexact, -, -⟩ := decode_lossless ⟨none, none, none, none, []⟩ .pin
    [0x40, 1, 9, 2, 2, 1, 7, 0x40, 1, 8] 16
  have hok : ∃ m, decode ⟨none, none, none, none, []⟩ .pin
      [0x40, 1, 9, 2, 2, 1, 7, 0x40, 1, 8] 16 = .ok m ∧
        spelled m.fields 2 = some [1, 7] ∧ m.fields.unknownFields.map (·.value) = [[9], [8]] :=
    ⟨_, rfl, by decide, by decide⟩
  obtain ⟨m, hm, hspelled, hunknown⟩ := hok
  exact ⟨m, hm, (hexact m hm).1, hspelled, hunknown⟩

end PivMetadataDecoding
