import LibCanokey.DerIntegers
import LibCanokey.PivPrivate

/-! # Conversions of elliptic-curve signatures

A signature as two fields of the width of the curve and as a strict DER pair: each form is
recovered from the other, over a DER codec that is known by its documented behaviour. -/
namespace PivSignatures

open BigEndian DerIntegers ListTraversal ProtocolError ProtocolConversation CompatProfile
open KeyPublicKey PivPrivate

/-- What the DER crate documents: integers are stripped of leading zeros, a pair has one strict
encoding, and only strict encodings are read. -/
structure StrictMinimal (der : EcDer) : Prop where
  uint : ∀ bytes, bytes ≠ [] → bytes.length ≤ 65535 → der.uint bytes = some (strip bytes)
  toDer : ∀ v, Canonical v.r → Canonical v.s → v.r.length ≤ 65535 → v.s.length ≤ 65535 →
    der.toDer v = some (pair v.r v.s)
  fromDer : ∀ v, Canonical v.r → Canonical v.s → v.r.length ≤ 65535 → v.s.length ≤ 65535 →
    der.fromDer (pair v.r v.s) = some v
  strict : ∀ d v, der.fromDer d = some v →
    Canonical v.r ∧ Canonical v.s ∧ d = pair v.r v.s

/-- Two fields that are not zero. -/
structure Halves (width : ℕ) (bytes : Bytes) : Prop where
  length : bytes.length = 2 * width
  first : (bytes.take width).all (· == 0) = false
  second : (bytes.drop width).all (· == 0) = false

/-- The same signature in both forms. -/
structure Converts (der : EcDer) (algorithm : Algorithm) (d p : Bytes) : Prop where
  toP1363 : Signature.toP1363 der ⟨algorithm, .der, d⟩ = .ok p
  fromP1363 : Signature.fromP1363 der algorithm p = .ok ⟨algorithm, .der, d⟩

structure Lossless (der : EcDer) (algorithm : Algorithm) (width : ℕ) : Prop where
  fixed : ∀ p, Halves width p → ∃ d, Signature.fromP1363 der algorithm p =
    .ok ⟨algorithm, .der, d⟩ ∧ Converts der algorithm d p
  strict : ∀ d v, ecSignature der d width = .ok v → v.r.length ≤ width ∧ v.s.length ≤ width ∧
    ∃ p, p.length = 2 * width ∧ Converts der algorithm d p
  parsed : ∀ encoding limit r signature,
    parseSignature der algorithm encoding limit r = .ok signature →
    ∃ d p, signature.toDer der = .ok d ∧ signature.toP1363 der = .ok p ∧
      Converts der algorithm d p

section field

variable {width : ℕ} {value : Bytes}

theorem leftPad_strip (h : value.length = width) : leftPad width (strip value) = value := by
  obtain ⟨k, hk⟩ := zeros_strip value
  have hlen := congrArg List.length hk
  rw [List.length_append, List.length_replicate] at hlen
  have hcount : width - (strip value).length = k := by omega
  rw [leftPad, hcount, ← hk]

theorem strip_leftPad (h : Canonical value) : strip (leftPad width value) = value :=
  strip_zeros _ h

theorem all_zero_leftPad : (leftPad width value).all (· == 0) = value.all (· == 0) :=
  all_zero_replicate _ _

/-- An integer that is not zero and fits the field. -/
structure Component (width : ℕ) (value : Bytes) : Prop where
  canonical : Canonical value
  length : value.length ≤ width
  nonzero : value.all (· == 0) = false

theorem componentFits_iff :
    componentFits width value = true ↔ value.length ≤ width ∧ value.all (· == 0) = false := by
  simp [componentFits]

theorem component_strip (hpos : 0 < width) (hlen : value.length = width)
    (hne : value.all (· == 0) = false) : Component width (strip value) := by
  have hnil : value ≠ [] := by
    intro hnil
    rw [hnil] at hlen
    exact absurd hlen (Nat.ne_of_lt hpos)
  refine ⟨canonical_strip hnil, ?_, ?_⟩
  · rw [← hlen]
    exact length_strip_le value
  · rw [all_zero_strip]
    exact hne

end field

section halves

variable {width : ℕ} {p r s : Bytes}

theorem Halves.take_length (h : Halves width p) : (p.take width).length = width := by
  have hlen := h.length
  rw [List.length_take]
  omega

theorem Halves.drop_length (h : Halves width p) : (p.drop width).length = width := by
  have hlen := h.length
  rw [List.length_drop]
  omega

/-- The fields of two components. -/
theorem halves_fields (hr : Component width r) (hs : Component width s) :
    Halves width (leftPad width r ++ leftPad width s) ∧
      (leftPad width r ++ leftPad width s).take width = leftPad width r ∧
      (leftPad width r ++ leftPad width s).drop width = leftPad width s := by
  have hrlen := length_leftPad hr.length
  have hslen := length_leftPad hs.length
  have htake : (leftPad width r ++ leftPad width s).take width = leftPad width r :=
    List.take_left' hrlen
  have hdrop : (leftPad width r ++ leftPad width s).drop width = leftPad width s :=
    List.drop_left' hrlen
  refine ⟨⟨?_, ?_, ?_⟩, htake, hdrop⟩
  · rw [List.length_append, hrlen, hslen]
    omega
  · rw [htake, all_zero_leftPad]
    exact hr.nonzero
  · rw [hdrop, all_zero_leftPad]
    exact hs.nonzero

end halves

/-- The widths of the curves. -/
theorem curveLen_bounds {algorithm : Algorithm} {width : ℕ} (h : curveLen algorithm = some width) :
    0 < width ∧ width ≤ 65535 := by
  cases algorithm with
  | eccP256 | secp256k1 | sm2 | eccP384 | eccP521 =>
    cases h
    decide
  | _ => cases h

section conversion

variable {der : EcDer} {algorithm : Algorithm} {width : ℕ} {d p : Bytes} {v : EcSignature}

theorem curveWidth_eq (hw : curveLen algorithm = some width) :
    curveWidth algorithm = .ok width := by
  rw [curveWidth, hw]

/-- A DER string is accepted when it is the strict encoding of two components. -/
theorem ecSignature_iff (h : StrictMinimal der) (hwide : width ≤ 65535) :
    ecSignature der d width = .ok v ↔
      Component width v.r ∧ Component width v.s ∧ d = pair v.r v.s := by
  constructor
  · intro hok
    simp only [ecSignature] at hok
    cases hread : der.fromDer d with
    | none =>
      rw [hread] at hok
      cases hok
    | some value =>
      rw [hread] at hok
      dsimp only at hok
      split_ifs at hok with hfits
      cases hok
      obtain ⟨hr, hs, hd⟩ := h.strict d _ hread
      obtain ⟨hrlen, hrne⟩ := componentFits_iff.mp hfits.1
      obtain ⟨hslen, hsne⟩ := componentFits_iff.mp hfits.2
      exact ⟨⟨hr, hrlen, hrne⟩, ⟨hs, hslen, hsne⟩, hd⟩
  · rintro ⟨hr, hs, rfl⟩
    have hread := h.fromDer v hr.canonical hs.canonical (Nat.le_trans hr.length hwide)
      (Nat.le_trans hs.length hwide)
    simp only [ecSignature, hread]
    exact if_pos ⟨componentFits_iff.mpr ⟨hr.length, hr.nonzero⟩,
      componentFits_iff.mpr ⟨hs.length, hs.nonzero⟩⟩

/-- In any encoding but P1363 the components are read and padded. -/
theorem toP1363_eq (hw : curveLen algorithm = some width) {encoding : SignatureEncoding}
    (henc : encoding ≠ .p1363) (hok : ecSignature der d width = .ok v) :
    Signature.toP1363 der ⟨algorithm, encoding, d⟩ =
      .ok (leftPad width v.r ++ leftPad width v.s) := by
  rw [Signature.toP1363, curveWidth_eq hw]
  change (if encoding = .p1363 then _ else _) = _
  rw [if_neg henc]
  change (ecSignature der d width >>= _) = _
  rw [hok]
  rfl

/-- Two fields are written as the DER form of their components. -/
theorem fromP1363_eq (h : StrictMinimal der) (hw : curveLen algorithm = some width)
    (hp : Halves width p) :
    Signature.fromP1363 der algorithm p =
      .ok ⟨algorithm, .der, pair (strip (p.take width)) (strip (p.drop width))⟩ := by
  obtain ⟨hpos, hwide⟩ := curveLen_bounds hw
  have hfirst := component_strip hpos hp.take_length hp.first
  have hsecond := component_strip hpos hp.drop_length hp.second
  have hinteger : ∀ half : Bytes, half.length = width →
      PivPrivate.integer der half = .ok (strip half) := by
    intro half hlen
    have hnil : half ≠ [] := by
      intro hnil
      rw [hnil] at hlen
      exact absurd hlen (Nat.ne_of_lt hpos)
    rw [PivPrivate.integer, h.uint half hnil (by omega)]
  have hencoded := h.toDer ⟨strip (p.take width), strip (p.drop width)⟩ hfirst.canonical
    hsecond.canonical (Nat.le_trans hfirst.length hwide) (Nat.le_trans hsecond.length hwide)
  have hguard : ¬ (p.length ≠ 2 * width ∨ (p.take width).all (· == 0) = true ∨
      (p.drop width).all (· == 0) = true) := by
    rintro (hlen | hzero | hzero)
    · exact hlen hp.length
    · rw [hp.first] at hzero
      cases hzero
    · rw [hp.second] at hzero
      cases hzero
  rw [Signature.fromP1363, curveWidth_eq hw]
  change (if _ then _ else _) = _
  rw [if_neg hguard, hinteger _ hp.take_length]
  change (PivPrivate.integer der (p.drop width) >>= _) = _
  rw [hinteger _ hp.drop_length]
  change (encoded der _ >>= _) = _
  rw [encoded, hencoded]
  rfl

/-- Only two fields that are not zero are converted. -/
theorem halves_of_fromP1363 (hw : curveLen algorithm = some width) {signature : Signature}
    (hok : Signature.fromP1363 der algorithm p = .ok signature) : Halves width p := by
  rw [Signature.fromP1363, curveWidth_eq hw] at hok
  obtain ⟨w, hwidth, hok⟩ := bind_eq_ok.mp hok
  cases hwidth
  split_ifs at hok with hguard
  push Not at hguard
  refine ⟨hguard.1, ?_, ?_⟩
  · exact Bool.eq_false_iff.mpr hguard.2.1
  · exact Bool.eq_false_iff.mpr hguard.2.2

theorem converts_halves (h : StrictMinimal der) (hw : curveLen algorithm = some width)
    (hp : Halves width p) :
    Converts der algorithm (pair (strip (p.take width)) (strip (p.drop width))) p := by
  obtain ⟨hpos, hwide⟩ := curveLen_bounds hw
  refine ⟨?_, fromP1363_eq h hw hp⟩
  have hread : ecSignature der (pair (strip (p.take width)) (strip (p.drop width))) width =
      .ok ⟨strip (p.take width), strip (p.drop width)⟩ :=
    (ecSignature_iff h hwide).mpr ⟨component_strip hpos hp.take_length hp.first,
      component_strip hpos hp.drop_length hp.second, rfl⟩
  rw [toP1363_eq hw (by decide) hread]
  dsimp only
  rw [leftPad_strip hp.take_length, leftPad_strip hp.drop_length, List.take_append_drop]

theorem converts_accepted (h : StrictMinimal der) (hw : curveLen algorithm = some width)
    (hok : ecSignature der d width = .ok v) :
    Converts der algorithm d (leftPad width v.r ++ leftPad width v.s) := by
  obtain ⟨_, hwide⟩ := curveLen_bounds hw
  obtain ⟨hr, hs, rfl⟩ := (ecSignature_iff h hwide).mp hok
  obtain ⟨hhalves, htake, hdrop⟩ := halves_fields hr hs
  refine ⟨toP1363_eq hw (by decide) hok, ?_⟩
  rw [fromP1363_eq h hw hhalves, htake, hdrop, strip_leftPad hr.canonical,
    strip_leftPad hs.canonical]

/-- A parsed signature has passed the check of its encoding. -/
theorem parseSignature_eq_ok {encoding : SignatureEncoding} {limit : ℕ} {r : ResponseData}
    {signature : Signature} (hok : parseSignature der algorithm encoding limit r = .ok signature) :
    ∃ bytes, signature = ⟨algorithm, encoding, bytes⟩ ∧
      checkSignature der algorithm encoding bytes = .ok () := by
  rw [parseSignature] at hok
  obtain ⟨bytes, _, hok⟩ := bind_eq_ok.mp hok
  obtain ⟨_, hcheck, hok⟩ := bind_eq_ok.mp hok
  cases hok
  exact ⟨bytes, rfl, hcheck⟩

theorem converts_parsed (h : StrictMinimal der) (hw : curveLen algorithm = some width)
    {encoding : SignatureEncoding} {limit : ℕ} {r : ResponseData} {signature : Signature}
    (hok : parseSignature der algorithm encoding limit r = .ok signature) :
    ∃ d p, signature.toDer der = .ok d ∧ signature.toP1363 der = .ok p ∧
      Converts der algorithm d p := by
  obtain ⟨bytes, rfl, hcheck⟩ := parseSignature_eq_ok hok
  rw [checkSignature] at hcheck
  by_cases henc : encoding = .p1363
  · subst henc
    rw [if_pos rfl] at hcheck
    cases hfrom : Signature.fromP1363 der algorithm bytes with
    | error e =>
      rw [hfrom] at hcheck
      cases hcheck
    | ok converted =>
      have hp := halves_of_fromP1363 hw hfrom
      refine ⟨_, bytes, ?_, ?_, converts_halves h hw hp⟩
      · rw [Signature.toDer, curveWidth_eq hw]
        change (Signature.fromP1363 der algorithm bytes >>= _) = _
        rw [fromP1363_eq h hw hp]
        rfl
      · rw [Signature.toP1363, curveWidth_eq hw]
        rfl
  · rw [if_neg henc, hw] at hcheck
    obtain ⟨v, hv, _⟩ := map_eq_ok.mp hcheck
    refine ⟨bytes, _, ?_, toP1363_eq hw henc hv, converts_accepted h hw hv⟩
    rw [Signature.toDer, curveWidth_eq hw]
    exact if_neg henc

/-- Over a strict DER codec neither form of a signature loses anything, and the padding of a
component is never negative. -/
theorem signature_conversions_lossless (h : StrictMinimal der)
    (hw : curveLen algorithm = some width) : Lossless der algorithm width := by
  obtain ⟨_, hwide⟩ := curveLen_bounds hw
  refine ⟨?_, ?_, ?_⟩
  · intro p hp
    exact ⟨_, fromP1363_eq h hw hp, converts_halves h hw hp⟩
  · intro d v hok
    obtain ⟨hr, hs, _⟩ := (ecSignature_iff h hwide).mp hok
    obtain ⟨hhalves, _, _⟩ := halves_fields hr hs
    exact ⟨hr.length, hs.length, _, hhalves.length, converts_accepted h hw hok⟩
  · intro encoding limit r signature hok
    exact converts_parsed h hw hok

end conversion

/-- A strict codec. -/
def strictDer : EcDer where
  uint := fun bytes => some (strip bytes)
  fromDer := fun bytes => (readPair bytes).map fun v => ⟨v.1, v.2⟩
  toDer := fun v => some (pair v.r v.s)

theorem strictMinimal_strictDer : StrictMinimal strictDer := by
  refine ⟨fun _ _ _ => rfl, fun _ _ _ _ _ => rfl, ?_, ?_⟩
  · intro v hr hs hrlen hslen
    simp only [strictDer, readPair_pair hr hs hrlen hslen]
    rfl
  · intro d v hread
    obtain ⟨⟨r, s⟩, hpair, rfl⟩ := Option.map_eq_some_iff.mp hread
    exact readPair_eq_some hpair

theorem signature_conversions_lossless_p521 : Lossless strictDer .eccP521 66 :=
  signature_conversions_lossless strictMinimal_strictDer rfl

end PivSignatures
