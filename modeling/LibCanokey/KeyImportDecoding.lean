import LibCanokey.BerWalking
import LibCanokey.OpenPgpKeys
import LibCanokey.PivKeys

/-! # Decoding imported keys

A walk over the OpenPGP import template and over the fields of a PIV private key, written for the
reader of the other side, and that it gives back every component of an accepted key. -/
namespace KeyImportDecoding

open BigEndian CheckedCursor ListTraversal ProtocolError ProtocolTlv ProtocolTlvRoundTrip
open ProtocolTlvFields CompatProfile KeyPublicKey BerWalking OpenPgpTypes
open OpenPgpKeys (attributes wrap components)
open PivKeys (PrivateKeyMaterial pushComponent)

/-- The component headers and the concatenated data of a template for the slot. -/
def walkTemplate (slot : Slot) (bytes : Bytes) : Option (List (Byte × ℕ) × Bytes) := do
  let (body, after) ← takeField [0x4d] bytes
  let (reference, body) ← takeField [slot.wire] body
  let (template, body) ← takeField [0x7f, 0x48] body
  let (data, body) ← takeField [0x5f, 0x48] body
  let headers ← takeHeaders template.length template
  if after = [] ∧ reference = [] ∧ body = [] then some (headers, data) else none

def keyOf : List (Byte × Bytes) → Option PrivateKey
  | [(0x91, exponent), (0x92, p), (0x93, q), (0x94, qInverse), (0x95, dP), (0x96, dQ)] =>
    if h : exponent.length = 4 then some (.rsa ⟨exponent, h⟩ p q qInverse dP dQ) else none
  | [(0x92, scalar)] => some (.ec scalar)
  | _ => none

/-- The template names the slot, and its pieces are the key. -/
structure Decodes (slot : Slot) (key : PrivateKey) (bytes : Bytes) : Prop where
  walked : ∃ headers data parts, walkTemplate slot bytes = some (headers, data) ∧
    (headers.map Prod.snd).sum = data.length ∧ cut headers data = some parts ∧
    keyOf parts = some key
  lone : ∀ other, other ≠ slot → walkTemplate other bytes = none
  small : bytes.length ≤ 2048

/-- The field has the width, and is the component as an integer. -/
def Padded (width : ℕ) (value component : Bytes) : Prop :=
  value.length = width ∧ (∃ zeros, value = List.replicate zeros 0 ++ component) ∧
    ofBeBytes value = ofBeBytes component

/-- The components stand under 01 to 05 in their order, each padded to half the modulus. -/
def CarriesCrt (len : ℕ) (components : List Bytes) (fields : Bytes) : Prop :=
  ∃ values, takeFields [[1], [2], [3], [4], [5]] fields = some values ∧
    List.Forall₂ (Padded (len / 2)) values components ∧ fields.length ≤ 1400

/-! ## Length forms -/

theorem frames_lengthField {n : ℕ} (h : n < 2 ^ 32) : Frames n (lengthField n) := by
  by_cases hn : n < 128
  · rw [lengthField, if_pos hn]
    exact frames_short hn
  · obtain ⟨b, bs, hform, _, hle, hv⟩ := lengthField_long (Nat.not_lt.mp hn) h
    have hbyte : ∀ k < 5, (0x80 ||| UInt8.ofNat k : Byte) = UInt8.ofNat (128 + k) := by decide
    rw [hform, hbyte _ (by omega)]
    have hframes := @frames_long (b :: bs) (Nat.le_add_left 1 bs.length) hle
    rwa [hv] at hframes

theorem frames_length {n : ℕ} (h : n < 2 ^ 16) : Frames n (OpenPgpKeys.length n) := by
  unfold OpenPgpKeys.length
  split_ifs with hshort hbyte
  · exact frames_short hshort
  · have hv : ofBeBytes [UInt8.ofNat n] = n := by
      simp only [ofBeBytes, List.foldl_cons, List.foldl_nil, toNat_ofNat_mod]
      omega
    have hframes := @frames_long [UInt8.ofNat n] (Nat.le_refl 1) (Nat.le_add_left 1 3)
    rwa [hv] at hframes
  · have hv : ofBeBytes [UInt8.ofNat (n / 256), UInt8.ofNat n] = n := by
      simp only [ofBeBytes, List.foldl_cons, List.foldl_nil, toNat_ofNat_mod]
      omega
    have hframes := @frames_long [UInt8.ofNat (n / 256), UInt8.ofNat n] (Nat.le_succ 1)
      (Nat.le_add_left 2 2)
    rwa [hv] at hframes

/-! ## The OpenPGP template -/

section template

variable {slot : Slot} {a : Algorithm} {key : PrivateKey} {parts : List (Byte × Bytes)}
  {tag value out bytes : Bytes}

theorem wrap_eq (tag value : Bytes) :
    wrap tag value = (pushTag (.new 4096) tag value).map TlvWriter.bytes := by
  unfold wrap pushTag
  cases Tag.fromBytes tag with
  | error e => rfl
  | ok t =>
    cases hpush : (TlvWriter.new 4096).push t value with
    | mk pushed writer => cases pushed <;> simp [hpush, Except.map, bind, Except.bind]

theorem wrap_eq_ok (h : wrap tag value = .ok out) :
    out = fieldBytes tag value ∧ value.length < 2 ^ 32 := by
  rw [wrap_eq] at h
  obtain ⟨after, hafter, rfl⟩ := map_eq_ok.mp h
  obtain ⟨hbytes, _, hfit⟩ := pushTag_appends hafter
  have hfield : after.bytes = fieldBytes tag value := hbytes
  have hlen : after.bytes.length ≤ 4096 := hfit
  refine ⟨hfield, ?_⟩
  rw [hfield, fieldBytes, List.length_append] at hlen
  omega

theorem takeField_wrap (h : wrap tag value = .ok out) (rest : Bytes) :
    takeField tag (out ++ rest) = some (value, rest) := by
  obtain ⟨rfl, hlen⟩ := wrap_eq_ok h
  exact takeField_frames (frames_lengthField hlen) rest

theorem rsaLen_le {n : ℕ} (h : rsaLen a = some n) : n ≤ 512 := by
  cases a <;> cases h <;> decide

theorem curveLen_le {n : ℕ} (h : curveLen a = some n) : n ≤ 66 := by
  cases a <;> cases h <;> decide

/-- The tags tell the two kinds of keys and the components apart. -/
theorem components_decode (h : components a key = .ok parts) :
    keyOf parts = some key ∧ ∀ part ∈ parts, part.2.length ≤ 256 := by
  cases key with
  | rsa exponent p q qInverse dP dQ =>
    obtain ⟨exponent, hexponent⟩ := exponent
    unfold components at h
    cases hn : rsaLen a with
    | none =>
      rw [hn] at h
      cases h
    | some n =>
      rw [hn] at h
      dsimp only at h
      split_ifs at h with hrefused
      cases h
      refine ⟨dif_pos hexponent, ?_⟩
      have hle := rsaLen_le hn
      have hwidth : ∀ v ∈ [p, q, qInverse, dP, dQ], v.length = n / 2 := by
        intro v hv
        by_contra hne
        exact hrefused (Or.inl (List.any_eq_true.mpr ⟨v, hv, bne_iff_ne.mpr hne⟩))
      intro part hpart
      rcases List.mem_cons.mp hpart with rfl | hpart
      · exact Nat.le_trans (Nat.le_of_eq hexponent) (by decide)
      · have hmem : part.2 ∈ [p, q, qInverse, dP, dQ] := List.mem_map_of_mem (f := Prod.snd) hpart
        rw [hwidth _ hmem]
        omega
  | ec scalar =>
    unfold components at h
    dsimp only at h
    split at h
    · cases h
    · rename_i n hn
      split_ifs at h with hlen
      cases h
      refine ⟨rfl, ?_⟩
      intro part hpart
      rw [List.mem_singleton.mp hpart]
      have hle : n ≤ 66 := by
        rcases Option.or_eq_some_iff.mp hn with hn | ⟨_, hn⟩
        · exact curveLen_le hn
        · split_ifs at hn
          cases hn
          decide
      dsimp only
      omega

theorem length_le_flatMap_cons (parts : List (Byte × Bytes)) (form : Byte × Bytes → Bytes) :
    parts.length ≤ (parts.flatMap fun part => part.1 :: form part).length := by
  induction parts with
  | nil => exact Nat.le_refl 0
  | cons part parts ih =>
    rw [List.flatMap_cons, List.length_append, List.length_cons, List.length_cons]
    omega

theorem imported_decodes (h : OpenPgpKeys.importKey slot a key = .ok bytes) :
    Decodes slot key bytes := by
  obtain ⟨_, _, h⟩ := bind_eq_ok.mp h
  obtain ⟨parts, hparts, h⟩ := bind_eq_ok.mp h
  obtain ⟨template, htemplate, h⟩ := bind_eq_ok.mp h
  obtain ⟨data, hdata, h⟩ := bind_eq_ok.mp h
  obtain ⟨out, hout, h⟩ := bind_eq_ok.mp h
  split_ifs at h with hlong
  cases h
  obtain ⟨hkey, hsmall⟩ := components_decode hparts
  have hframes : ∀ part ∈ parts, Frames part.2.length (OpenPgpKeys.length part.2.length) := by
    intro part hpart
    have hle := hsmall part hpart
    exact frames_length (by omega)
  have hheaders := takeHeaders_frames
    (length_le_flatMap_cons parts fun part => OpenPgpKeys.length part.2.length) hframes
  have hcut := cut_flatMap parts
  have hbody := takeField_wrap hout []
  rw [List.append_nil] at hbody
  have hreference : takeField [slot.wire] ([slot.wire, 0] ++ template ++ data) =
      some ([], template ++ data) :=
    @takeField_frames [slot.wire] [] [0] (frames_short (by decide)) (template ++ data)
  have hlast := takeField_wrap hdata []
  rw [List.append_nil] at hlast
  refine ⟨⟨_, _, parts, ?_, sum_of_cut hcut, hcut, hkey⟩, ?_, Nat.not_lt.mp hlong⟩
  · simp only [walkTemplate, hbody, hreference, takeField_wrap htemplate, hlast, hheaders,
      Option.bind_eq_bind, Option.bind_some, and_self, if_true]
  · intro other hother
    have hwire : ([slot.wire, 0] ++ template ++ data).take [other.wire].length ≠ [other.wire] := by
      intro heq
      apply hother
      have hhead : slot.wire = other.wire := (List.cons.inj heq).1
      cases other <;> cases slot <;> first | rfl | cases hhead
    rw [walkTemplate, hbody, Option.bind_eq_bind, Option.bind_some]
    dsimp only
    rw [takeField_other hwire]
    rfl

end template

/-! ## The PIV fields -/

section crt

variable {width : ℕ} {writer after : TlvWriter}

/-- A component that fits the width and is no zero. -/
def Acceptable (width : ℕ) (component : Bytes) : Prop :=
  component ≠ [] ∧ component.length ≤ width ∧ component.all (· == 0) = false

def padded (width : ℕ) (component : Bytes) : Bytes :=
  List.replicate (width - component.length) 0 ++ component

/-- The field of the component at a position. -/
def crtField (width : ℕ) (component : Bytes × ℕ) : Byte × Bytes :=
  (UInt8.ofNat component.2 + 1, padded width component.1)

theorem padded_padded {component : Bytes} (h : Acceptable width component) :
    Padded width (padded width component) component := by
  obtain ⟨_, hle, _⟩ := h
  refine ⟨?_, ⟨_, rfl⟩, ofBeBytes_replicate_zero _ _⟩
  rw [padded, List.length_append, List.length_replicate]
  omega

theorem pushComponent_eq_ok {component : Bytes × ℕ} :
    pushComponent width writer component = .ok after ↔ Acceptable width component.1 ∧
      pushTag writer [(crtField width component).1] (crtField width component).2 = .ok after := by
  unfold pushComponent Acceptable
  constructor
  · intro h
    split_ifs at h with hrefused
    push Not at hrefused
    exact ⟨⟨hrefused.1, hrefused.2.1, Bool.eq_false_iff.mpr hrefused.2.2⟩, h⟩
  · rintro ⟨⟨hne, hle, hzero⟩, h⟩
    rw [if_neg (by simp [hne, hle, hzero])]
    exact h

/-- The loop pushes the fields of components that are all acceptable. -/
theorem pushComponents_eq_ok {components : List (Bytes × ℕ)} :
    components.foldlM (pushComponent width) writer = .ok after ↔
      (∀ c ∈ components, Acceptable width c.1) ∧
        pushTags writer ((components.map (crtField width)).map fun f => ([f.1], f.2)) =
          .ok after := by
  induction components generalizing writer with
  | nil => simp [pushTags]
  | cons c components ih =>
    rw [List.foldlM_cons, bind_eq_ok, List.forall_mem_cons, pushTags, List.map_cons, List.map_cons,
      List.foldlM_cons, bind_eq_ok]
    constructor
    · rintro ⟨middle, hmiddle, hrest⟩
      obtain ⟨hc, hpush⟩ := pushComponent_eq_ok.mp hmiddle
      obtain ⟨hcs, hrest⟩ := ih.mp hrest
      exact ⟨⟨hc, hcs⟩, middle, hpush, hrest⟩
    · rintro ⟨⟨hc, hcs⟩, middle, hpush, hrest⟩
      exact ⟨middle, pushComponent_eq_ok.mpr ⟨hc, hpush⟩, ih.mpr ⟨hcs, hrest⟩⟩

theorem length_crtFields {components : List (Bytes × ℕ)}
    (h : ∀ c ∈ components, Acceptable width c.1) (hwidth : width ≤ 256) :
    ((components.map (crtField width)).flatMap fun f => fieldBytes [f.1] f.2).length ≤
      components.length * 262 := by
  induction components with
  | nil => exact Nat.le_refl 0
  | cons c components ih =>
    obtain ⟨hc, hcs⟩ := List.forall_mem_cons.mp h
    have hlen : (padded width c.1).length = width := (padded_padded hc).1
    have hform := length_lengthField_le width
    have hrest := ih hcs
    rw [List.map_cons, List.flatMap_cons, List.length_append, List.length_cons, fieldBytes,
      List.length_append, List.length_append, List.length_singleton]
    dsimp only [crtField]
    rw [hlen]
    omega

variable {algorithm : Algorithm} {p q dP dQ qInv : Bytes} {material : PrivateKeyMaterial}

/-- The five components as they are pushed. -/
def crtFields (width : ℕ) (p q dP dQ qInv : Bytes) : List (Byte × Bytes) :=
  [p, q, dP, dQ, qInv].zipIdx.map (crtField width)

theorem rsaCrt_eq_ok : PrivateKeyMaterial.rsaCrt algorithm p q dP dQ qInv = .ok material ↔
    ∃ len, rsaLen algorithm = some len ∧
      (∀ c ∈ [p, q, dP, dQ, qInv], Acceptable (len / 2) c) ∧
      ∃ writer, pushTags (.new 1400) ((crtFields (len / 2) p q dP dQ qInv).map
        fun f => ([f.1], f.2)) = .ok writer ∧ material = ⟨algorithm, writer.bytes⟩ := by
  have hzip (width : ℕ) : (∀ c ∈ [p, q, dP, dQ, qInv].zipIdx, Acceptable width c.1) ↔
      ∀ c ∈ [p, q, dP, dQ, qInv], Acceptable width c := by
    conv_rhs => rw [← List.zipIdx_map_fst 0 [p, q, dP, dQ, qInv]]
    rw [List.forall_mem_map]
  unfold PrivateKeyMaterial.rsaCrt
  cases rsaLen algorithm with
  | none => simp
  | some len =>
    dsimp only
    rw [bind_eq_ok]
    constructor
    · rintro ⟨writer, hpush, h⟩
      cases h
      obtain ⟨hall, hpush⟩ := pushComponents_eq_ok.mp hpush
      exact ⟨len, rfl, (hzip _).mp hall, writer, hpush, rfl⟩
    · rintro ⟨_, hlen, hall, writer, hpush, rfl⟩
      cases hlen
      exact ⟨writer, pushComponents_eq_ok.mpr ⟨(hzip _).mpr hall, hpush⟩, rfl⟩

/-- The writer has room for the components of every modulus. -/
theorem rsaCrt_accepts : (∃ material, PrivateKeyMaterial.rsaCrt algorithm p q dP dQ qInv =
      .ok material) ↔
    ∃ len, rsaLen algorithm = some len ∧ ∀ c ∈ [p, q, dP, dQ, qInv], Acceptable (len / 2) c := by
  constructor
  · rintro ⟨material, h⟩
    obtain ⟨len, hlen, hall, _⟩ := rsaCrt_eq_ok.mp h
    exact ⟨len, hlen, hall⟩
  · rintro ⟨len, hlen, hall⟩
    have hle := rsaLen_le hlen
    have hzip : ∀ c ∈ [p, q, dP, dQ, qInv].zipIdx, Acceptable (len / 2) c.1 :=
      fun c hc => hall _ (List.fst_mem_of_mem_zipIdx hc)
    have hfields := length_crtFields hzip (by omega)
    have hfit : ∀ f ∈ crtFields (len / 2) p q dP dQ qInv, ShortTag f.1 ∧ f.2.length < 2 ^ 32 := by
      intro f hf
      obtain ⟨c, hc, rfl⟩ := List.mem_map.mp hf
      have htags : ∀ i < 5, ShortTag (UInt8.ofNat i + 1) := by decide
      have hwidth : (padded (len / 2) c.1).length = len / 2 := (padded_padded (hzip c hc)).1
      refine ⟨htags _ (List.snd_lt_of_mem_zipIdx hc), ?_⟩
      dsimp only [crtField]
      omega
    obtain ⟨writer, hpush, _⟩ := pushTags_short (.new 1400) hfit (by
      simp only [TlvWriter.new, List.length_nil, usizeMax, crtFields]
      simp only [List.length_zipIdx, List.length_cons, List.length_nil] at hfields
      omega)
    exact ⟨_, rsaCrt_eq_ok.mpr ⟨len, hlen, hall, writer, hpush, rfl⟩⟩

theorem rsaCrt_carries (h : PrivateKeyMaterial.rsaCrt algorithm p q dP dQ qInv = .ok material) :
    ∃ len, rsaLen algorithm = some len ∧ CarriesCrt len [p, q, dP, dQ, qInv] material.fields := by
  obtain ⟨len, hlen, hall, writer, hpush, rfl⟩ := rsaCrt_eq_ok.mp h
  obtain ⟨hbytes, hfit⟩ := pushTags_appends hpush (by simp [crtFields])
  have hbytes : writer.bytes = _ := hbytes
  have hpadded : ∀ c ∈ [p, q, dP, dQ, qInv],
      Padded (len / 2) (padded (len / 2) c) c := fun c hc => padded_padded (hall c hc)
  have hframes : ∀ field ∈ (crtFields (len / 2) p q dP dQ qInv).map fun f => ([f.1], f.2),
      Frames field.2.length (lengthField field.2.length) := by
    intro field hfield
    have hle := rsaLen_le hlen
    obtain ⟨f, hf, rfl⟩ := List.mem_map.mp hfield
    obtain ⟨c, hc, rfl⟩ := List.mem_map.mp hf
    have hwidth : (padded (len / 2) c.1).length = len / 2 :=
      (hpadded _ (List.fst_mem_of_mem_zipIdx hc)).1
    dsimp only [crtField]
    exact frames_lengthField (by omega)
  refine ⟨len, hlen, [p, q, dP, dQ, qInv].map (padded (len / 2)), ?_, ?_, hfit⟩
  · dsimp only
    rw [hbytes]
    exact takeFields_frames hframes
  · rw [List.forall₂_map_left_iff, List.forall₂_same]
    exact hpadded

end crt

/-- What is sent to import a key has the components that were given, and nothing else: the OpenPGP
template by its headers, the fields of PIV in their order and at their width. -/
theorem imported_keys_decode :
    (∀ slot a key bytes, OpenPgpKeys.importKey slot a key = .ok bytes → Decodes slot key bytes) ∧
    (∀ algorithm p q dP dQ qInv material,
      PrivateKeyMaterial.rsaCrt algorithm p q dP dQ qInv = .ok material →
      ∃ len, rsaLen algorithm = some len ∧
        CarriesCrt len [p, q, dP, dQ, qInv] material.fields) ∧
    ∀ algorithm p q dP dQ qInv len, rsaLen algorithm = some len →
      ((∃ material, PrivateKeyMaterial.rsaCrt algorithm p q dP dQ qInv = .ok material) ↔
        ∀ c ∈ [p, q, dP, dQ, qInv], Acceptable (len / 2) c) := by
  refine ⟨?_, ?_, ?_⟩
  · intro slot a key bytes h
    exact imported_decodes h
  · intro algorithm p q dP dQ qInv material h
    exact rsaCrt_carries h
  · intro algorithm p q dP dQ qInv len hlen
    rw [rsaCrt_accepts]
    constructor
    · rintro ⟨_, hlen', hall⟩
      cases hlen.symm.trans hlen'
      exact hall
    · intro hall
      exact ⟨len, hlen, hall⟩

theorem imported_keys_decode_example :
    (∃ bytes, OpenPgpKeys.importKey .decryption .eccP521 (.ec (List.replicate 66 7)) = .ok bytes ∧
      Decodes .decryption (.ec (List.replicate 66 7)) bytes) ∧
    ∃ material, PrivateKeyMaterial.rsaCrt .rsa4096 [3] [5] [1] [1] [2] = .ok material ∧
      ∃ len, rsaLen .rsa4096 = some len ∧
        CarriesCrt len [[3], [5], [1], [1], [2]] material.fields := by
  obtain ⟨htemplate, hcrt, haccepts⟩ := imported_keys_decode
  obtain ⟨bytes, hbytes⟩ : ∃ bytes, OpenPgpKeys.importKey .decryption .eccP521
      (.ec (List.replicate 66 7)) = .ok bytes := ⟨_, rfl⟩
  refine ⟨⟨bytes, hbytes, htemplate _ _ _ _ hbytes⟩, ?_⟩
  obtain ⟨material, hmaterial⟩ := (haccepts .rsa4096 [3] [5] [1] [1] [2] 512 rfl).mpr (by
    intro c hc
    simp only [List.mem_cons, List.not_mem_nil, or_false] at hc
    rcases hc with rfl | rfl | rfl | rfl | rfl <;>
      exact ⟨List.cons_ne_nil _ _, by decide, by decide⟩)
  exact ⟨material, hmaterial, hcrt _ _ _ _ _ _ _ hmaterial⟩

end KeyImportDecoding
