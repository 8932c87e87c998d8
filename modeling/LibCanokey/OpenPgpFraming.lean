import LibCanokey.OpenPgpData
import LibCanokey.ProtocolTlvBer
import LibCanokey.ProtocolTlvSequences

/-! # Framing of OpenPGP data objects

Older firmware answers GET DATA with the contents of an object, newer firmware with the object.
What is read of either depends on the contents alone, and neither is taken for the other. -/
namespace OpenPgpFraming

open BigEndian CheckedCursor ListTraversal ProtocolError ProtocolTlv ProtocolTlvRoundTrip
open ProtocolTlvFields ProtocolTlvBer ProtocolTlvSequences CompatProfile OpenPgpTypes OpenPgpKeys
open OpenPgpData

/-- A definite length of any form: one byte below 128, or up to 126 octets after their count. -/
inductive DefiniteForm (n : ℕ) : Bytes → Prop where
  | short (h : n < 128) : DefiniteForm n [UInt8.ofNat n]
  | long {octets : Bytes} (hcount : 1 ≤ octets.length ∧ octets.length ≤ 126)
      (hv : ofBeBytes octets = n) :
      DefiniteForm n ((0x80 ||| UInt8.ofNat octets.length) :: octets)

inductive DefiniteFields : List (Tag × Bytes) → Bytes → Prop where
  | nil : DefiniteFields [] []
  | cons {field : Tag × Bytes} {fields : List (Tag × Bytes)} {form rest : Bytes}
      (h : DefiniteForm field.2.length form) (hs : DefiniteFields fields rest) :
      DefiniteFields (field :: fields) (field.1.toBytes ++ form ++ field.2 ++ rest)

/-- The firmware frames an object in its own tag and length, or sends its contents. -/
structure Frames (profile : DeviceProfile) (tag : ℕ) (wrapped : Bool) : Prop where
  applet : (profile.capability .openPgp).require = .ok ()
  evidence : ∃ capability, wrapping profile tag = .ok capability ∧
    decide ((profile.capability capability).support = .supported) = wrapped

def framed (tag : UInt8) (form contents : Bytes) : Bytes := tag :: (form ++ contents)

/-- Both succeed, with results so related, or both fail. -/
def Agree {α β : Type} (r : α → β → Prop) (x : Except Error α) (y : Except Error β) : Prop :=
  (∃ a b, x = .ok a ∧ y = .ok b ∧ r a b) ∨ ∃ e e', x = .error e ∧ y = .error e'

def Refused {α : Type} (x : Except Error α) : Prop := ∃ e, x = .error e

theorem length_framed (tag : UInt8) (form contents : Bytes) :
    (framed tag form contents).length = 1 + form.length + contents.length := by
  rw [framed, List.length_cons, List.length_append]
  omega

/-! ## Firmware -/

section firmware

variable {profile : DeviceProfile} {v : Version} {tag : ℕ} {wrapped : Bool}

theorem recognized_span (h : v.recognized = true) :
    Version.le ⟨1, 3, 0⟩ v = true ∧ v.le ⟨3, 1, 0⟩ = true := by
  obtain ⟨major, minor, patch⟩ := v
  simp only [Version.recognized, Version.le, Bool.or_eq_true, Bool.and_eq_true, decide_eq_true_eq,
    beq_iff_eq, Version.mk.injEq] at h ⊢
  omega

/-- On recognized firmware a capability without an end is a matter of its first version. -/
theorem range_support (hbase : profile.base = some v) (hrecognized : v.recognized = true)
    (first : Version) :
    decide ((profile.firmwareRange first ⟨3, 1, 0⟩).support = .supported) = first.le v := by
  rw [Bool.eq_iff_iff, decide_eq_true_iff, firmwareRange_supported, hbase]
  constructor
  · rintro ⟨_, hsame, _, hfirst, _⟩
    obtain rfl := Option.some.inj hsame
    exact hfirst
  · intro hfirst
    exact ⟨v, rfl, hrecognized, hfirst, (recognized_span hrecognized).2⟩

theorem base_of_applet (h : (profile.capability .openPgp).require = .ok ()) :
    ∃ v, profile.base = some v ∧ v.recognized = true := by
  have hsupport : (profile.firmwareRange ⟨1, 3, 0⟩ ⟨3, 1, 0⟩).support = .supported :=
    require_eq_ok.mp h
  obtain ⟨v, hbase, hrecognized, -⟩ := firmwareRange_supported.mp hsupport
  exact ⟨v, hbase, hrecognized⟩

theorem applet_of_base (hbase : profile.base = some v) (hrecognized : v.recognized = true) :
    (profile.capability .openPgp).require = .ok () := by
  have hfirst := range_support hbase hrecognized ⟨1, 3, 0⟩
  rw [(recognized_span hrecognized).1] at hfirst
  exact require_eq_ok.mpr (of_decide_eq_true hfirst)

/-- The application-related and the cardholder data are framed from 2.0.0 on. -/
theorem frames_data (htag : tag = 0x65 ∨ tag = 0x6e) : Frames profile tag wrapped ↔
    ∃ v, profile.base = some v ∧ v.recognized = true ∧ Version.le ⟨2, 0, 0⟩ v = wrapped := by
  have hwrapping : wrapping profile tag = .ok .openPgpWrappedData := by
    rw [wrapping, if_pos (by omega)]
  constructor
  · rintro ⟨happlet, capability, hcapability, hsupport⟩
    obtain ⟨v, hbase, hrecognized⟩ := base_of_applet happlet
    obtain rfl := Except.ok.inj (hwrapping.symm.trans hcapability)
    exact ⟨v, hbase, hrecognized, (range_support hbase hrecognized ⟨2, 0, 0⟩).symm.trans hsupport⟩
  · rintro ⟨v, hbase, hrecognized, hv⟩
    exact ⟨applet_of_base hbase hrecognized, _, hwrapping,
      (range_support hbase hrecognized ⟨2, 0, 0⟩).trans hv⟩

end firmware

/-! ## Tags -/

section tags

variable {b : UInt8} {tag : Tag} {c form : Bytes} {fields : List (Tag × Bytes)} {n : ℕ}

/-- A tag that starts with a one-byte tag is that tag. -/
theorem value_of_head (h : ShortTag b) (hhead : tag.toBytes.head? = some b) :
    tag.value = b.toNat := by
  obtain ⟨hscan, hlen, hvalue⟩ := scanTag_toBytes tag []
  rw [List.append_nil] at hscan
  obtain ⟨rest, hrest⟩ : ∃ rest, tag.toBytes = b :: rest := by
    cases hbytes : tag.toBytes with
    | nil =>
      rw [hbytes] at hhead
      cases hhead
    | cons first rest =>
      rw [hbytes] at hhead
      obtain rfl := Option.some.inj hhead
      exact ⟨rest, rfl⟩
  obtain ⟨h0, hff, h31⟩ := h
  rw [hrest, scanTag, if_neg (by simp [h0, hff]), if_neg h31] at hscan
  have hone : tag.len = 1 := (Except.ok.inj hscan).symm
  rw [hrest, hone, List.length_cons] at hlen
  obtain rfl : rest = [] := List.length_eq_zero_iff.mp (by omega)
  rw [← hvalue, hrest]
  simp [ofBeBytes]

theorem head_of_value (h : ShortTag b) (hvalue : tag.value = b.toNat) :
    tag.toBytes = [b] := by
  rw [eq_shortTag h hvalue, shortTag_toBytes]

/-- A field starts with its tag. -/
theorem head_field (hb : ShortTag b) (hne : tag.value ≠ b.toNat) (rest : Bytes) :
    (tag.toBytes ++ rest).head? ≠ some b := by
  intro hhead
  apply hne
  apply value_of_head hb
  cases hbytes : tag.toBytes with
  | nil => exact absurd hbytes (toBytes_ne_nil tag)
  | cons first more =>
    rw [hbytes] at hhead
    exact hhead

theorem DefiniteFields.head (h : DefiniteFields fields c) (hb : ShortTag b)
    (hnone : ∀ f ∈ fields, f.1.value ≠ b.toNat) : c.head? ≠ some b := by
  cases h with
  | nil =>
    intro hhead
    cases hhead
  | @cons field fields form rest hform hs =>
    rw [List.append_assoc, List.append_assoc]
    exact head_field hb (hnone field List.mem_cons_self) _

theorem berFields_head (h : BerFields fields c) (hb : ShortTag b)
    (hnone : ∀ f ∈ fields, f.1.value ≠ b.toNat) : c.head? ≠ some b := by
  cases h with
  | nil =>
    intro hhead
    cases hhead
  | @cons field fields bytes rest hfield hs =>
    obtain ⟨form, -, rfl⟩ := hfield
    rw [List.append_assoc, List.append_assoc]
    exact head_field hb (hnone field List.mem_cons_self) _

/-- The forms that the reader takes. -/
theorem DefiniteForm.lengthForm (h : DefiniteForm n form) (hoctets : form.length ≤ 5) :
    LengthForm n form := by
  cases h with
  | short h => exact .short h
  | @long octets hcount hv =>
    rw [List.length_cons] at hoctets
    exact .long ⟨hcount.1, by omega⟩ hv

end tags

/-! ## Reading contents -/

def asField (f : Tag × Bytes) : Field := ⟨f.1.value, f.2⟩

section reading

variable {c bytes : Bytes} {limit tag : ℕ} {found : List Field} {profile : DeviceProfile}
  {raw : List (Tag × Bytes)} {reader : TlvReader} {value : Bytes}

theorem lenient_newBer (limit : ℕ) (hsize : c.length ≤ usizeMax) :
    Lenient (TlvReader.newBer c { maxValueBytes := limit }) :=
  ⟨rfl, show 1 ≤ 16 by decide, hsize⟩

theorem fold_appendField (raw : List (Tag × Bytes)) :
    raw.foldlM (fun acc f => appendField acc (yielded reader f)) found =
      .ok (found ++ raw.map asField) := by
  induction raw generalizing found with
  | nil => rw [List.map_nil, List.append_nil]; rfl
  | cons f raw ih =>
    rw [List.foldlM_cons, appendField]
    refine (ih).trans ?_
    rw [List.append_assoc]
    rfl

theorem fold_notNested :
    raw.foldlM (fun acc f => notNested tag acc (yielded reader f)) () = .ok () ↔
      ∀ f ∈ raw, f.1.value ≠ tag := by
  induction raw with
  | nil =>
    constructor
    · intro _ f hf
      cases hf
    · intro _
      rfl
  | cons f raw ih =>
    rw [List.foldlM_cons, List.forall_mem_cons, notNested]
    by_cases hf : f.1.value = tag
    · rw [if_pos (show (yielded reader f).tag.value = tag from hf)]
      constructor
      · intro h
        cases h
      · rintro ⟨hne, -⟩
        exact absurd hf hne
    · rw [if_neg (show ¬(yielded reader f).tag.value = tag from hf)]
      constructor
      · intro h
        exact ⟨hf, ih.mp h⟩
      · rintro ⟨-, h⟩
        exact ih.mpr h

/-- Under a limit that covers them, bytes give the fields that they are a sequence of. -/
theorem fields_eq_ok (hsize : c.length ≤ usizeMax) (hlimit : c.length ≤ limit) :
    OpenPgpKeys.fields c limit = .ok found ↔ ∃ raw, BerFields raw c ∧ found = raw.map asField := by
  rw [OpenPgpKeys.fields, if_neg (Nat.not_lt_of_le hlimit),
    readFields_definite (lenient_newBer limit hsize) hlimit]
  constructor
  · rintro ⟨raw, hraw, hfold⟩
    rw [fold_appendField] at hfold
    exact ⟨raw, hraw, (Except.ok.inj hfold).symm⟩
  · rintro ⟨raw, hraw, rfl⟩
    exact ⟨raw, hraw, fold_appendField raw⟩

/-- The one field of an object. -/
theorem one_eq_ok {b : UInt8} (hb : ShortTag b) (hsize : bytes.length ≤ usizeMax) :
    one bytes b.toNat = .ok value ↔ value.length ≤ 1024 * 1024 ∧
      ∃ form, LengthForm value.length form ∧ bytes = framed b form value := by
  have hlenient : Lenient (TlvReader.newBer bytes {}) := lenient_newBer _ hsize
  rw [one]
  constructor
  · intro h
    obtain ⟨⟨first, rest⟩, hnext, h⟩ := bind_eq_ok.mp h
    obtain ⟨field, hfield, h⟩ := bind_eq_ok.mp h
    have hturn := next_turn hlenient.depth
    rw [hnext] at hturn
    cases hturn with
    | ended hnil => cases hfield
    | @field f head rest hf hwhole hmax =>
      cases hfield
      split at h
      · cases h
      · next htag =>
        obtain ⟨⟨second, last⟩, hnext', h⟩ := bind_eq_ok.mp h
        have hturn' := next_turn (hlenient.rest hwhole).depth
        rw [hnext'] at hturn'
        cases hturn' with
        | ended hnil =>
          obtain rfl := Except.ok.inj h
          obtain ⟨form, hform, rfl⟩ := hf
          refine ⟨hmax, form, hform, ?_⟩
          have hempty : rest = [] := hnil
          have hvalue : f.1.value = b.toNat := not_not.mp htag
          rw [hempty, List.append_nil, head_of_value hb hvalue] at hwhole
          exact hwhole
        | field => cases h
  · rintro ⟨hmax, form, hform, rfl⟩
    have hfield : BerField (shortTag b hb, value) (framed b form value) :=
      ⟨form, hform, by rw [shortTag_toBytes]; rfl⟩
    refine bind_eq_ok.mpr ⟨_, next_field hlenient hfield (List.append_nil _).symm hmax, ?_⟩
    refine bind_eq_ok.mpr ⟨_, rfl, ?_⟩
    have htag : (yielded (TlvReader.newBer (framed b form value) {})
        (shortTag b hb, value)).tag.value = b.toNat := rfl
    rw [if_neg (not_not.mpr htag)]
    exact bind_eq_ok.mpr ⟨_, next_nil rfl, rfl⟩

theorem notNested_eq_ok (hsize : c.length ≤ usizeMax) (hlimit : c.length ≤ limit) :
    readFields (notNested tag) (.newBer c { maxValueBytes := limit }) () = .ok () ↔
      ∃ raw, BerFields raw c ∧ ∀ f ∈ raw, f.1.value ≠ tag := by
  rw [readFields_definite (lenient_newBer limit hsize) hlimit]
  constructor
  · rintro ⟨raw, hraw, hfold⟩
    exact ⟨raw, hraw, fold_notNested.mp hfold⟩
  · rintro ⟨raw, hraw, hnone⟩
    exact ⟨raw, hraw, fold_notNested.mpr hnone⟩

/-- The bytes that firmware answers with for the contents of an object. -/
def Answers (wrapped : Bool) (b : UInt8) (contents bytes : Bytes) : Prop :=
  if wrapped then contents.length ≤ 1024 * 1024 ∧
    ∃ form, LengthForm contents.length form ∧ bytes = framed b form contents
  else bytes = contents

theorem Answers.length_le {wrapped : Bool} {b : UInt8} (h : Answers wrapped b value bytes) :
    value.length ≤ bytes.length := by
  cases wrapped with
  | false => exact (congrArg List.length (show bytes = value from h)).ge
  | true =>
    obtain ⟨-, form, -, rfl⟩ := h
    rw [length_framed]
    omega

/-- The firmware only decides how the contents are found. -/
theorem dataObjectContents_frames {wrapped : Bool} (h : Frames profile tag wrapped)
    (hlimit : bytes.length ≤ limit) : dataObjectContents profile tag bytes limit =
      (if wrapped then one bytes tag else .ok bytes) >>= fun value =>
        readFields (notNested tag) (.newBer value { maxValueBytes := limit }) () >>= fun _ =>
          .ok value := by
  obtain ⟨happlet, capability, hcapability, hsupport⟩ := h
  rw [dataObjectContents, happlet]
  dsimp only [bind, Except.bind]
  rw [if_neg (Nat.not_lt_of_le hlimit), hcapability]
  dsimp only
  cases wrapped with
  | false =>
    rw [if_neg (of_decide_eq_false hsupport)]
    rfl
  | true =>
    rw [if_pos (of_decide_eq_true hsupport)]
    rfl

/-- What is read of an answer is the contents of the object. -/
theorem dataObjectContents_eq_ok {wrapped : Bool} {b : UInt8} (h : Frames profile b.toNat wrapped)
    (hb : ShortTag b) (hsize : bytes.length ≤ usizeMax) (hlimit : bytes.length ≤ limit) :
    dataObjectContents profile b.toNat bytes limit = .ok value ↔ Answers wrapped b value bytes ∧
      ∃ raw, BerFields raw value ∧ ∀ f ∈ raw, f.1.value ≠ b.toNat := by
  have hanswers : (if wrapped then one bytes b.toNat else .ok bytes) = .ok value ↔
      Answers wrapped b value bytes := by
    cases wrapped with
    | false => exact ⟨Except.ok.inj, congrArg Except.ok⟩
    | true => exact one_eq_ok hb hsize
  rw [dataObjectContents_frames h hlimit]
  constructor
  · intro h
    obtain ⟨found, hfound, h⟩ := bind_eq_ok.mp h
    obtain ⟨_, hloop, h⟩ := bind_eq_ok.mp h
    obtain rfl := Except.ok.inj h
    have hanswer := hanswers.mp hfound
    have hshort := hanswer.length_le
    exact ⟨hanswer, (notNested_eq_ok (hshort.trans hsize) (hshort.trans hlimit)).mp hloop⟩
  · rintro ⟨hanswer, hraw⟩
    have hshort := hanswer.length_le
    refine bind_eq_ok.mpr ⟨value, hanswers.mpr hanswer, bind_eq_ok.mpr ⟨(), ?_, rfl⟩⟩
    exact (notNested_eq_ok (hshort.trans hsize) (hshort.trans hlimit)).mpr hraw

end reading

/-! ## The application data -/

section template

variable {tag limit : ℕ} {fields inner : List (Tag × Bytes)} {profile : DeviceProfile}
  {wrapped : Bool} {bytes : Bytes} {app : ApplicationData} {found : Option Bytes}

/-- What is unique under a tag is the only value under it. -/
theorem unique_eq_ok :
    unique (fields.map asField) tag = .ok found ↔ valuesOf tag fields = found.toList := by
  have hfold (start : Option Bytes) : (fields.map asField).foldlM (uniqueStep tag) start =
      .ok found ↔ start.toList ++ valuesOf tag fields = found.toList := by
    induction fields generalizing start with
    | nil =>
      cases start <;> cases found <;> simp [valuesOf, pure, Except.pure]
    | cons f fields ih =>
      rw [List.map_cons, List.foldlM_cons, uniqueStep]
      by_cases hf : f.1.value = tag
      · rw [if_pos (show (asField f).tag = tag from hf), valuesOf_cons_of_eq hf]
        cases start with
        | none => exact ih (some f.2)
        | some value =>
          refine iff_of_false (fun h => by cases h) ?_
          cases found <;> simp
      · rw [if_neg (show ¬ (asField f).tag = tag from hf), valuesOf_cons_of_ne hf]
        exact ih start
  exact hfold none

theorem required_eq_ok {α : Type} {o : Option α} {a : α} :
    OpenPgpKeys.required o = .ok a ↔ o = some a := by
  cases o <;> simp [OpenPgpKeys.required]

/-- The only value under a tag is no longer than the bytes it was found in. -/
theorem value_inside {value : Bytes} (h : BerFields fields bytes)
    (hone : valuesOf tag fields = [value]) : value.length ≤ bytes.length := by
  have hmem : value ∈ valuesOf tag fields := by
    rw [hone]
    exact List.mem_singleton_self value
  obtain ⟨f, hf, -, rfl⟩ := mem_valuesOf.mp hmem
  exact h.value_le hf

/-- The bytes of a template that has one discretionary template, with the fields of both. -/
structure Template (wrapped : Bool) (bytes : Bytes) (fields inner : List (Tag × Bytes)) : Prop where
  contents : ∃ contents, Answers wrapped 0x6e contents bytes ∧ BerFields fields contents
  flat : ∀ f ∈ fields, f.1.value ≠ 0x6e
  discretionary : ∃ value, valuesOf 0x73 fields = [value] ∧ BerFields inner value

/-- Application data are read exactly from their template. -/
theorem applicationData_eq_ok (h : Frames profile 0x6e wrapped) (hsize : bytes.length ≤ usizeMax)
    (hlimit : bytes.length ≤ limit) :
    ApplicationData.parseWithProfile profile bytes limit = .ok app ↔
      ∃ fields inner, Template wrapped bytes fields inner ∧
        app = ⟨bytes, fields.map asField, inner.map asField⟩ := by
  have hb : ShortTag 0x6e := by decide
  have hcontents {value : Bytes} := @dataObjectContents_eq_ok bytes limit profile value wrapped 0x6e
    h hb hsize hlimit
  constructor
  · intro happ
    obtain ⟨contents, hread, happ⟩ := bind_eq_ok.mp happ
    obtain ⟨outer, houter, happ⟩ := bind_eq_ok.mp happ
    obtain ⟨found, hfound, happ⟩ := bind_eq_ok.mp happ
    obtain ⟨value, hvalue, happ⟩ := bind_eq_ok.mp happ
    obtain ⟨discretionary, hinner, happ⟩ := bind_eq_ok.mp happ
    obtain rfl := Except.ok.inj happ
    obtain ⟨hanswers, raw, hraw, hflat⟩ := hcontents.mp hread
    have hshort := hanswers.length_le
    have hread (fields : List (Tag × Bytes)) (h : BerFields fields contents) :
        OpenPgpKeys.fields contents limit = .ok (fields.map asField) :=
      (fields_eq_ok (hshort.trans hsize) (hshort.trans hlimit)).mpr ⟨fields, h, rfl⟩
    cases (hread raw hraw).symm.trans houter
    obtain rfl := required_eq_ok.mp hvalue
    have hone := unique_eq_ok.mp hfound
    have hinside := value_inside hraw hone
    obtain ⟨inner, hber, rfl⟩ := (fields_eq_ok (by omega) (by omega)).mp hinner
    exact ⟨raw, inner, ⟨⟨contents, hanswers, hraw⟩, hflat, value, hone, hber⟩, rfl⟩
  · rintro ⟨fields, inner, ⟨⟨contents, hanswers, hraw⟩, hflat, value, hone, hber⟩, rfl⟩
    have hshort := hanswers.length_le
    have hinside := value_inside hraw hone
    refine bind_eq_ok.mpr ⟨contents, hcontents.mpr ⟨hanswers, fields, hraw, hflat⟩, ?_⟩
    refine bind_eq_ok.mpr ⟨_, (fields_eq_ok (by omega) (by omega)).mpr ⟨fields, hraw, rfl⟩, ?_⟩
    refine bind_eq_ok.mpr ⟨some value, unique_eq_ok.mpr hone, bind_eq_ok.mpr ⟨value, rfl, ?_⟩⟩
    exact bind_eq_ok.mpr ⟨_, (fields_eq_ok (by omega) (by omega)).mpr ⟨inner, hber, rfl⟩, rfl⟩

/-- The only attributes of a slot in the discretionary template are those of an algorithm. -/
def Announces (wrapped : Bool) (bytes : Bytes) (slot : Slot) (a : Algorithm) : Prop :=
  ∃ fields inner attributes, Template wrapped bytes fields inner ∧
    valuesOf slot.attributes.toNat inner = [attributes] ∧
    algorithms.find? (attributesMatch slot attributes) = some a

theorem observed_eq_ok {slot : Slot} {a : Algorithm} (h : Frames profile 0x6e wrapped)
    (hsize : bytes.length ≤ usizeMax) :
    observed bytes slot profile = .ok a ↔ Announces wrapped bytes slot a := by
  constructor
  · intro hobserved
    obtain ⟨app, happ, hslot⟩ := bind_eq_ok.mp hobserved
    obtain ⟨found, hfound, hmatched⟩ := bind_eq_ok.mp hslot
    obtain ⟨attributes, hattributes, hchosen⟩ := bind_eq_ok.mp hmatched
    obtain ⟨fields, inner, htemplate, rfl⟩ := (applicationData_eq_ok h hsize le_rfl).mp happ
    rw [required_eq_ok.mp hattributes] at hfound
    refine ⟨fields, inner, attributes, htemplate, unique_eq_ok.mp hfound, ?_⟩
    cases hfind : algorithms.find? (attributesMatch slot attributes) with
    | none =>
      rw [hfind] at hchosen
      cases hchosen
    | some b =>
      rw [hfind] at hchosen
      exact congrArg some (Except.ok.inj hchosen)
  · rintro ⟨fields, inner, attributes, htemplate, hone, hfind⟩
    have happ := (applicationData_eq_ok h hsize le_rfl).mpr ⟨_, _, htemplate, rfl⟩
    refine bind_eq_ok.mpr ⟨_, happ, bind_eq_ok.mpr ⟨some attributes, unique_eq_ok.mpr hone, ?_⟩⟩
    refine bind_eq_ok.mpr ⟨attributes, rfl, ?_⟩
    rw [hfind]

end template

/-! ## Agreement -/

section agreement

variable {α β γ δ : Type} {r : α → β → Prop} {s : γ → δ → Prop} {x : Except Error α}
  {y : Except Error β} {f : α → Except Error γ} {g : β → Except Error δ}

theorem agree_of_ok {y : Except Error α} (h : ∀ a, x = .ok a ↔ y = .ok a) : Agree Eq x y := by
  cases x with
  | ok a => exact Or.inl ⟨a, a, rfl, (h a).mp rfl, rfl⟩
  | error e =>
    cases y with
    | ok a => cases (h a).mpr rfl
    | error e' => exact Or.inr ⟨e, e', rfl, rfl⟩

theorem agree_refl (x : Except Error α) : Agree Eq x x := agree_of_ok fun _ => Iff.rfl

theorem Agree.bind (h : Agree r x y)
    (hf : ∀ a b, x = .ok a → r a b → Agree s (f a) (g b)) : Agree s (x >>= f) (y >>= g) := by
  rcases h with ⟨a, b, rfl, rfl, hr⟩ | ⟨e, e', rfl, rfl⟩
  · exact hf a b rfl hr
  · exact Or.inr ⟨e, e', rfl, rfl⟩

theorem Refused.bind (h : Refused x) : Refused (x >>= f) := by
  obtain ⟨e, rfl⟩ := h
  exact ⟨e, rfl⟩

theorem refused_of_not_ok (h : ∀ a, x ≠ .ok a) : Refused x := by
  cases x with
  | ok a => exact absurd rfl (h a)
  | error e => exact ⟨e, rfl⟩

end agreement

/-! ## The two framings -/

/-- Results of the same contents. -/
structure SameData (app app' : ApplicationData) : Prop where
  fields : app.fields = app'.fields
  discretionary : app.discretionary = app'.discretionary
  aid : aid app = aid app'
  passwordStatus : passwordStatus app = passwordStatus app'
  algorithmAttributes : ∀ slot, app.algorithmAttributes slot = app'.algorithmAttributes slot
  fingerprint : ∀ slot, fingerprint app slot = fingerprint app' slot
  generationTime : ∀ slot, generationTime app slot = generationTime app' slot
  touchPolicy : ∀ slot, touchPolicy app slot = touchPolicy app' slot

structure SameHolder (holder holder' : CardholderData) : Prop where
  fields : holder.fields = holder'.fields
  name : holder.name = holder'.name
  language : holder.language = holder'.language
  sex : holder.sex = holder'.sex

/-- One profile whose firmware omits the wrapper of an object, one whose firmware sends it. -/
structure Switches (omits sends : DeviceProfile) (b : UInt8) : Prop where
  bare : Frames omits b.toNat false
  wrapped : Frames sends b.toNat true

section framings

variable {omits sends : DeviceProfile} {b : UInt8} {c form inner : Bytes} {limit limit' : ℕ}
  {fields : List (Tag × Bytes)} {outer : List Field}

theorem sameData {raw raw' : Bytes} (outer discretionary : List Field) :
    SameData ⟨raw, outer, discretionary⟩ ⟨raw', outer, discretionary⟩ :=
  ⟨rfl, rfl, rfl, rfl, fun _ => rfl, fun _ => rfl, fun _ => rfl, fun _ => rfl⟩

theorem fields_agree (hsize : c.length ≤ usizeMax) (hlimit : c.length ≤ limit)
    (hlimit' : c.length ≤ limit') :
    Agree Eq (OpenPgpKeys.fields c limit) (OpenPgpKeys.fields c limit') := by
  apply agree_of_ok
  intro found
  rw [fields_eq_ok hsize hlimit, fields_eq_ok hsize hlimit']

theorem unique_short {tag : ℕ} (hsize : c.length ≤ usizeMax) (hlimit : c.length ≤ limit)
    (houter : OpenPgpKeys.fields c limit = .ok outer)
    (hunique : unique outer tag = .ok (some inner)) : inner.length ≤ c.length := by
  obtain ⟨raw, hraw, rfl⟩ := (fields_eq_ok hsize hlimit).mp houter
  exact value_inside hraw (unique_eq_ok.mp hunique)

theorem answers_framed (hb : ShortTag b) (hform : LengthForm c.length form)
    (hc : c.length ≤ 1024 * 1024) (hsize : (framed b form c).length ≤ usizeMax) {value : Bytes} :
    Answers true b value (framed b form c) ↔ value = c := by
  have hone : one (framed b form c) b.toNat = .ok c :=
    (one_eq_ok hb hsize).mpr ⟨hc, form, hform, rfl⟩
  constructor
  · intro h
    exact Except.ok.inj (((one_eq_ok hb hsize).mpr h).symm.trans hone)
  · rintro rfl
    exact ⟨hc, form, hform, rfl⟩

/-- Both firmwares let the same contents be read. -/
theorem contents_agree (h : Switches omits sends b) (hb : ShortTag b)
    (hform : LengthForm c.length form) (hc : c.length ≤ 1024 * 1024)
    (hlimit : c.length ≤ limit) (hsize : (framed b form c).length ≤ usizeMax)
    (hlimit' : (framed b form c).length ≤ limit') :
    Agree (fun value value' => value = c ∧ value' = c)
      (dataObjectContents omits b.toNat c limit)
      (dataObjectContents sends b.toNat (framed b form c) limit') := by
  have hsmall : c.length ≤ usizeMax := by
    rw [usizeMax]
    omega
  have hbare {value : Bytes} : dataObjectContents omits b.toNat c limit = .ok value ↔
      value = c ∧ ∃ raw, BerFields raw value ∧ ∀ f ∈ raw, f.1.value ≠ b.toNat := by
    rw [dataObjectContents_eq_ok h.bare hb hsmall hlimit]
    exact and_congr_left fun _ => eq_comm
  have hwrapped {value : Bytes} :
      dataObjectContents sends b.toNat (framed b form c) limit' = .ok value ↔
        value = c ∧ ∃ raw, BerFields raw value ∧ ∀ f ∈ raw, f.1.value ≠ b.toNat := by
    rw [dataObjectContents_eq_ok h.wrapped hb hsize hlimit', answers_framed hb hform hc hsize]
  rcases agree_of_ok fun value => hbare.trans hwrapped.symm with
    ⟨value, value', hvalue, hvalue', -⟩ | hfail
  · exact Or.inl ⟨value, value', hvalue, hvalue', (hbare.mp hvalue).1, (hwrapped.mp hvalue').1⟩
  · exact Or.inr hfail

/-- What depends on no more than the fields of the contents agrees. -/
theorem object_agree {α β : Type} {r : α → β → Prop} {rest : List Field → Except Error α}
    {rest' : List Field → Except Error β} (h : Switches omits sends b) (hb : ShortTag b)
    (hform : LengthForm c.length form) (hc : c.length ≤ 1024 * 1024) (hlimit : c.length ≤ limit)
    (hsize : (framed b form c).length ≤ usizeMax) (hlimit' : (framed b form c).length ≤ limit')
    (hrest : ∀ found, OpenPgpKeys.fields c limit = .ok found → Agree r (rest found) (rest' found)) :
    Agree r
      (dataObjectContents omits b.toNat c limit >>= fun contents =>
        OpenPgpKeys.fields contents limit >>= rest)
      (dataObjectContents sends b.toNat (framed b form c) limit' >>= fun contents =>
        OpenPgpKeys.fields contents limit' >>= rest') := by
  refine (contents_agree h hb hform hc hlimit hsize hlimit').bind ?_
  rintro value value' - ⟨hvalue, hvalue'⟩
  rw [hvalue, hvalue']
  rw [length_framed] at hsize hlimit'
  refine (fields_agree (by omega) hlimit (by omega)).bind ?_
  rintro found _ hfound rfl
  exact hrest found hfound

theorem applicationData_agree (h : Switches omits sends 0x6e)
    (hform : LengthForm c.length form) (hc : c.length ≤ 1024 * 1024) (hlimit : c.length ≤ limit)
    (hsize : (framed 0x6e form c).length ≤ usizeMax)
    (hlimit' : (framed 0x6e form c).length ≤ limit') :
    Agree SameData (ApplicationData.parseWithProfile omits c limit)
      (ApplicationData.parseWithProfile sends (framed 0x6e form c) limit') := by
  apply object_agree h (by decide) hform hc hlimit hsize hlimit'
  intro outer houter
  rw [length_framed] at hsize hlimit'
  refine (agree_refl (unique outer 0x73)).bind ?_
  rintro found _ hfound rfl
  refine (agree_refl (OpenPgpKeys.required found)).bind ?_
  rintro inner _ hinner rfl
  have hinside : inner.length ≤ c.length := by
    cases found with
    | none => cases hinner
    | some found =>
      obtain rfl := Except.ok.inj hinner
      exact unique_short (by omega) hlimit houter hfound
  refine (fields_agree (by omega) (hinside.trans hlimit) (by omega)).bind ?_
  rintro discretionary _ - rfl
  exact Or.inl ⟨_, _, rfl, rfl, sameData outer discretionary⟩

theorem observed_agree (h : Switches omits sends 0x6e) (hform : LengthForm c.length form)
    (hc : c.length ≤ 1024 * 1024) (hsize : (framed 0x6e form c).length ≤ usizeMax) (slot : Slot) :
    Agree Eq (observed c slot omits) (observed (framed 0x6e form c) slot sends) := by
  refine (applicationData_agree h hform hc le_rfl hsize le_rfl).bind ?_
  intro app app' _ hsame
  rw [hsame.algorithmAttributes slot]
  exact agree_refl _

theorem cardholder_agree (h : Switches omits sends 0x65) (hform : LengthForm c.length form)
    (hc : c.length ≤ 1024 * 1024) (hlimit : c.length ≤ limit)
    (hsize : (framed 0x65 form c).length ≤ usizeMax)
    (hlimit' : (framed 0x65 form c).length ≤ limit') :
    Agree SameHolder (CardholderData.parseWithProfile omits c limit)
      (CardholderData.parseWithProfile sends (framed 0x65 form c) limit') := by
  apply object_agree h (by decide) hform hc hlimit hsize hlimit'
  intro found _
  exact Or.inl ⟨_, _, rfl, rfl, rfl, rfl, rfl, rfl⟩

theorem information_agree (h : Switches omits sends 0xfa) (hform : LengthForm c.length form)
    (hc : c.length ≤ 1024 * 1024) (hlimit : c.length ≤ limit)
    (hsize : (framed 0xfa form c).length ≤ usizeMax)
    (hlimit' : (framed 0xfa form c).length ≤ limit') :
    Agree (fun info info' => info.fields = info'.fields)
      (AlgorithmInformation.parseWithProfile omits c limit)
      (AlgorithmInformation.parseWithProfile sends (framed 0xfa form c) limit') := by
  apply object_agree h (by decide) hform hc hlimit hsize hlimit'
  intro found _
  exact Or.inl ⟨_, _, rfl, rfl, rfl⟩

/-- Fields that the reader takes are read from either answer. -/
theorem contents_complete (h : Frames omits b.toNat false) (hb : ShortTag b)
    (hfields : BerFields fields c) (hnone : ∀ f ∈ fields, f.1.value ≠ b.toNat)
    (hsize : c.length ≤ usizeMax) (hlimit : c.length ≤ limit) :
    dataObjectContents omits b.toNat c limit = .ok c ∧
      OpenPgpKeys.fields c limit = .ok (fields.map asField) :=
  ⟨(dataObjectContents_eq_ok h hb hsize hlimit).mpr ⟨rfl, fields, hfields, hnone⟩,
    (fields_eq_ok hsize hlimit).mpr ⟨fields, hfields, rfl⟩⟩

/-- Bytes that do not start with the tag are no framed object. -/
theorem bare_refused (h : Frames sends b.toNat true) (hb : ShortTag b) (hhead : c.head? ≠ some b)
    (hsize : c.length ≤ usizeMax) (hlimit : c.length ≤ limit) :
    Refused (dataObjectContents sends b.toNat c limit) := by
  apply refused_of_not_ok
  intro value hvalue
  obtain ⟨⟨-, form, -, rfl⟩, -⟩ := (dataObjectContents_eq_ok h hb hsize hlimit).mp hvalue
  exact hhead rfl

/-- Bytes that start with the tag are not the contents of the object. -/
theorem wrapped_refused (h : Frames omits b.toNat false) (hb : ShortTag b)
    (hhead : c.head? = some b) (hsize : c.length ≤ usizeMax) (hlimit : c.length ≤ limit) :
    Refused (dataObjectContents omits b.toNat c limit) := by
  apply refused_of_not_ok
  intro value hvalue
  obtain ⟨hanswer, raw, hraw, hnone⟩ := (dataObjectContents_eq_ok h hb hsize hlimit).mp hvalue
  obtain rfl : c = value := hanswer
  exact berFields_head hraw hb hnone hhead

end framings

/-- The contents of an object and the object itself, whatever the form of its length, give the
same results under the firmware that sends the one or the other, where the length takes at most
four octets after their count; fields that the reader takes are all read, those of an application
with its one discretionary template; and neither is taken for the other. -/
theorem framings_agree (omits sends : DeviceProfile) (c form : Bytes)
    (fields : List (Tag × Bytes)) (limit limit' : ℕ) (hc : c.length ≤ 1024 * 1024)
    (hfields : DefiniteFields fields c) (hform : DefiniteForm c.length form)
    (hlimit : c.length ≤ limit) (hlimit' : 1 + form.length + c.length ≤ limit') :
    (Switches omits sends 0x6e → (∀ f ∈ fields, f.1.value ≠ 0x6e) →
      (form.length ≤ 5 →
        Agree SameData (ApplicationData.parseWithProfile omits c limit)
          (ApplicationData.parseWithProfile sends (framed 0x6e form c) limit') ∧
        ∀ slot, Agree Eq (observed c slot omits) (observed (framed 0x6e form c) slot sends)) ∧
      (∀ value inner, BerFields fields c → valuesOf 0x73 fields = [value] →
        BerFields inner value → ∃ app, ApplicationData.parseWithProfile omits c limit = .ok app ∧
          app.fields = fields.map asField ∧ app.discretionary = inner.map asField) ∧
      Refused (ApplicationData.parseWithProfile sends c limit) ∧
      Refused (ApplicationData.parseWithProfile omits (framed 0x6e form c) limit')) ∧
    (Switches omits sends 0x65 → (∀ f ∈ fields, f.1.value ≠ 0x65) →
      (form.length ≤ 5 →
        Agree SameHolder (CardholderData.parseWithProfile omits c limit)
          (CardholderData.parseWithProfile sends (framed 0x65 form c) limit')) ∧
      (BerFields fields c → ∃ holder,
        CardholderData.parseWithProfile omits c limit = .ok holder ∧
          holder.fields = fields.map asField) ∧
      Refused (CardholderData.parseWithProfile sends c limit) ∧
      Refused (CardholderData.parseWithProfile omits (framed 0x65 form c) limit')) ∧
    (Switches omits sends 0xfa → (∀ f ∈ fields, f.1.value ≠ 0xfa) →
      (form.length ≤ 5 →
        Agree (fun info info' => info.fields = info'.fields)
          (AlgorithmInformation.parseWithProfile omits c limit)
          (AlgorithmInformation.parseWithProfile sends (framed 0xfa form c) limit')) ∧
      (BerFields fields c → ∃ info,
        AlgorithmInformation.parseWithProfile omits c limit = .ok info ∧
          info.fields = fields.map asField) ∧
      Refused (AlgorithmInformation.parseWithProfile sends c limit) ∧
      Refused (AlgorithmInformation.parseWithProfile omits (framed 0xfa form c) limit')) := by
  have hlength (b : UInt8) := length_framed b form c
  have hoctets : form.length ≤ 127 := by
    cases hform with
    | short h => exact show 1 ≤ 127 by decide
    | long hcount =>
      rw [List.length_cons]
      omega
  have hsmall : 1 + form.length + c.length ≤ usizeMax := by
    rw [usizeMax]
    omega
  have hbare {b : UInt8} (h : Switches omits sends b) (hb : ShortTag b)
      (hnone : ∀ f ∈ fields, f.1.value ≠ b.toNat) :
      Refused (dataObjectContents sends b.toNat c limit) :=
    bare_refused h.wrapped hb (hfields.head hb hnone) (by omega) hlimit
  have hwrapped {b : UInt8} (h : Switches omits sends b) (hb : ShortTag b) :
      Refused (dataObjectContents omits b.toNat (framed b form c) limit') :=
    wrapped_refused h.bare hb rfl ((hlength b).trans_le hsmall) ((hlength b).trans_le hlimit')
  refine ⟨?_, ?_, ?_⟩
  · intro h hnone
    refine ⟨?_, ?_, (hbare h (by decide) hnone).bind, (hwrapped h (by decide)).bind⟩
    · intro hfour
      have hread := hform.lengthForm hfour
      have hfits := (hlength 0x6e).trans_le hsmall
      exact ⟨applicationData_agree h hread hc hlimit hfits ((hlength 0x6e).trans_le hlimit'),
        observed_agree h hread hc hfits⟩
    · intro value inner hread hone hinner
      have htemplate : Template false c fields inner :=
        ⟨⟨c, rfl, hread⟩, hnone, value, hone, hinner⟩
      have happ := (applicationData_eq_ok h.bare (by omega) hlimit).mpr ⟨_, _, htemplate, rfl⟩
      exact ⟨_, happ, rfl, rfl⟩
  · intro h hnone
    refine ⟨?_, ?_, (hbare h (by decide) hnone).bind, (hwrapped h (by decide)).bind⟩
    · intro hfour
      exact cardholder_agree h (hform.lengthForm hfour) hc hlimit ((hlength 0x65).trans_le hsmall)
        ((hlength 0x65).trans_le hlimit')
    · intro hread
      obtain ⟨hcontents, hfound⟩ :=
        contents_complete h.bare (by decide) hread hnone (by omega) hlimit
      exact ⟨_, bind_eq_ok.mpr ⟨c, hcontents, bind_eq_ok.mpr ⟨_, hfound, rfl⟩⟩, rfl⟩
  · intro h hnone
    refine ⟨?_, ?_, (hbare h (by decide) hnone).bind, (hwrapped h (by decide)).bind⟩
    · intro hfour
      exact information_agree h (hform.lengthForm hfour) hc hlimit ((hlength 0xfa).trans_le hsmall)
        ((hlength 0xfa).trans_le hlimit')
    · intro hread
      obtain ⟨hcontents, hfound⟩ :=
        contents_complete h.bare (by decide) hread hnone (by omega) hlimit
      exact ⟨_, bind_eq_ok.mpr ⟨c, hcontents, bind_eq_ok.mpr ⟨_, hfound, rfl⟩⟩, rfl⟩

/-- Firmware before the first switch and after the last. -/
def bareProfile : DeviceProfile := ⟨some ⟨1, 6, 2, none⟩, none, none, none, []⟩

def wrappedProfile : DeviceProfile := ⟨some ⟨3, 1, 0, none⟩, none, none, none, []⟩

theorem profiles_switch : Switches bareProfile wrappedProfile 0x6e :=
  ⟨(frames_data (Or.inr rfl)).mpr ⟨⟨1, 6, 2⟩, rfl, by decide, by decide⟩,
    (frames_data (Or.inr rfl)).mpr ⟨⟨3, 1, 0⟩, rfl, by decide, by decide⟩⟩

/-- RSA attributes for the signature slot, the object with two octets for a length of ten. -/
theorem framings_agree_rsa :
    observed [0x73, 8, 0xc1, 6, 1, 8, 0, 0, 32, 2] .signature bareProfile = .ok .rsa2048 ∧
      observed (framed 0x6e [0x82, 0, 10] [0x73, 8, 0xc1, 6, 1, 8, 0, 0, 32, 2]) .signature
        wrappedProfile = .ok .rsa2048 ∧
      Refused (ApplicationData.parseWithProfile wrappedProfile
        [0x73, 8, 0xc1, 6, 1, 8, 0, 0, 32, 2] 64) := by
  have hdiscretionary : ShortTag 0x73 := by decide
  have hfield : DefiniteFields [(shortTag 0x73 hdiscretionary, [0xc1, 6, 1, 8, 0, 0, 32, 2])]
      [0x73, 8, 0xc1, 6, 1, 8, 0, 0, 32, 2] := by
    have hparts := @DefiniteFields.cons (shortTag 0x73 hdiscretionary,
      [0xc1, 6, 1, 8, 0, 0, 32, 2]) [] [8] [] (.short (show 8 < 128 by decide)) .nil
    rw [shortTag_toBytes] at hparts
    exact hparts
  obtain ⟨⟨hagree, -, hbare, -⟩, -⟩ := framings_agree bareProfile wrappedProfile
    [0x73, 8, 0xc1, 6, 1, 8, 0, 0, 32, 2] [0x82, 0, 10] _ 64 64 (by decide) hfield
    (@DefiniteForm.long 10 [0, 10] (by decide) (by decide)) (by decide) (by decide) |>.imp
    (fun h => h profiles_switch (by
      intro f hf
      rw [List.mem_singleton.mp hf]
      exact show 0x73 ≠ 0x6e by decide)) id
  have hobserved : observed [0x73, 8, 0xc1, 6, 1, 8, 0, 0, 32, 2] .signature bareProfile =
      .ok .rsa2048 := rfl
  refine ⟨hobserved, ?_, hbare⟩
  rcases (hagree (by decide)).2 .signature with ⟨a, a', ha, ha', rfl⟩ | ⟨e, e', he, -⟩
  · rw [ha', ← ha, hobserved]
  · cases hobserved.symm.trans he

/-- Five octets hold a length as well as two, but the reader takes four at most. -/
theorem framings_agree_five_octets :
    Switches bareProfile wrappedProfile 0x6e ∧ DefiniteForm 2 [0x85, 0, 0, 0, 0, 2] ∧
      DefiniteFields [(shortTag 0x73 (by decide), [])] [0x73, 0] ∧
      ApplicationData.parseWithProfile bareProfile [0x73, 0] 64 =
        .ok ⟨[0x73, 0], [⟨0x73, []⟩], []⟩ ∧
      ApplicationData.parseWithProfile wrappedProfile
        (framed 0x6e [0x85, 0, 0, 0, 0, 2] [0x73, 0]) 64 = .error malformed := by
  refine ⟨profiles_switch, @DefiniteForm.long 2 [0, 0, 0, 0, 2] (by decide) (by decide), ?_, rfl,
    rfl⟩
  have hparts := @DefiniteFields.cons (shortTag 0x73 (by decide), []) [] [0] []
    (.short (by decide)) .nil
  rw [shortTag_toBytes] at hparts
  exact hparts

end OpenPgpFraming
