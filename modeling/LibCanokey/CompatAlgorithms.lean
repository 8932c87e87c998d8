import Mathlib.Data.List.Nodup
import LibCanokey.CompatObservations
import LibCanokey.ListTraversal

/-! # Algorithm identifiers

No two algorithms of a profile share an identifier, and none is used that was not fixed,
observed or confirmed. -/
namespace CompatAlgorithms

open BigEndian ProtocolError ListTraversal CompatProfile

theorem mem_allAlgorithms (a : Algorithm) : a ∈ allAlgorithms := by cases a <;> decide

/-- What the parser of a configuration keeps true of the identifiers read so far. -/
structure Fresh (ids : List (Algorithm × UInt8)) : Prop where
  nodup : (ids.map Prod.snd).Nodup
  unreserved : ∀ entry ∈ ids, entry.2 ∉ ([0x06, 0x07, 0x11, 0x14] : List UInt8)

theorem readId_fresh {ids ids' : List (Algorithm × UInt8)} {entry : Algorithm × UInt8}
    (hf : Fresh ids) (h : readId ids entry = .ok ids') : Fresh ids' := by
  rw [readId] at h
  split_ifs at h with hbad
  cases h
  push Not at hbad
  obtain ⟨_, hreserved, hfresh⟩ := hbad
  refine ⟨?_, ?_⟩
  · rw [List.map_append, List.map_singleton]
    refine List.nodup_append.mpr ⟨hf.nodup, List.nodup_singleton _, ?_⟩
    intro id hid other hother heq
    rw [List.mem_singleton.mp hother] at heq
    obtain ⟨old, hold, hid⟩ := List.mem_map.mp hid
    exact hfresh (List.any_eq_true.mpr ⟨old, hold, by simp [hid, heq]⟩)
  · intro e he
    rcases List.mem_append.mp he with he | he
    · exact hf.unreserved e he
    · rw [List.mem_singleton.mp he]
      exact hreserved

/-- The loop of the parser, by induction on the fields still to be read. -/
theorem readIds_fresh {entries ids ids' : List (Algorithm × UInt8)} (hf : Fresh ids)
    (h : entries.foldlM readId ids = .ok ids') : Fresh ids' := by
  induction entries generalizing ids with
  | nil =>
    cases h
    exact hf
  | cons entry entries ih =>
    rw [List.foldlM_cons] at h
    obtain ⟨next, hnext, h⟩ := bind_eq_ok.mp h
    exact ih (readId_fresh hf hnext) h

theorem parse_fresh {data : Bytes} {config : AlgorithmConfig}
    (h : AlgorithmConfig.parse data = .ok config) : Fresh config.ids := by
  rw [AlgorithmConfig.parse] at h
  split_ifs at h
  obtain ⟨ids, hids, h⟩ := bind_eq_ok.mp h
  cases h
  have hempty : Fresh [] := ⟨List.nodup_nil, fun _ he => (List.not_mem_nil he).elim⟩
  exact readIds_fresh hempty hids

/-- What every built profile keeps true of its configuration and its confirmation. -/
structure Sound (p : DeviceProfile) : Prop where
  config : ∀ config, p.config = some config → Fresh config.ids

theorem built_sound {p : DeviceProfile} (h : Built p) : Sound p := by
  induction h with
  | observed hconfig h =>
    rw [DeviceProfile.fromObservations] at h
    split_ifs at h
    cases h
    refine ⟨?_⟩
    intro config hc
    obtain ⟨data, hparse⟩ := hconfig config hc
    exact parse_fresh hparse
  | confirmed _ h ih =>
    obtain ⟨_, _, h⟩ := bind_eq_ok.mp h
    split_ifs at h
    cases h
    exact ⟨ih.config⟩

variable {p : DeviceProfile} {a a' : Algorithm} {b : UInt8}

/-- The four algorithms with one identifier on every firmware. -/
def fixedWireId : Algorithm → Option UInt8
  | .rsa1024 => some 0x06
  | .rsa2048 => some 0x07
  | .eccP256 => some 0x11
  | .eccP384 => some 0x14
  | _ => none

theorem algorithmWireId_eq : p.algorithmWireId a =
    (fixedWireId a).or (if p.config.isSome then p.extensionWireId a
      else fallbackWireId (p.base.any fun v => Version.le ⟨2, 0, 0⟩ v && v.lt ⟨3, 0, 0⟩) a) := by
  cases a <;> rfl

theorem wireId_mem {config : AlgorithmConfig} (h : config.wireId a = some b) :
    config.enabled = true ∧ (a, b) ∈ config.ids := by
  rw [AlgorithmConfig.wireId] at h
  split_ifs at h with henabled
  obtain ⟨entry, hfind, rfl⟩ := Option.map_eq_some_iff.mp h
  have ha : entry.1 = a := by simpa using List.find?_some hfind
  refine ⟨henabled, ?_⟩
  rw [← ha]
  exact List.mem_of_find?_eq_some hfind

/-- An extension identifier is one that the observed configuration assigns. -/
theorem extensionWireId_eq_some (h : p.extensionWireId a = some b) :
    ∃ config, p.config = some config ∧ config.enabled = true ∧ (a, b) ∈ config.ids ∧
      ¬ (p.base.any (Version.le ⟨3, 1, 0⟩) = true ∧ b ∈ ([0x0a, 0xff] : List UInt8)) := by
  rw [DeviceProfile.extensionWireId] at h
  cases hw : p.config.bind (·.wireId a) with
  | none => rw [hw] at h; cases h
  | some id =>
    rw [hw] at h
    dsimp only at h
    split_ifs at h with hreserved
    cases h
    obtain ⟨config, hconfig, hid⟩ := Option.bind_eq_some_iff.mp hw
    obtain ⟨henabled, hmem⟩ := wireId_mem hid
    exact ⟨config, hconfig, henabled, hmem, hreserved⟩

theorem fixedWireId_reserved (h : fixedWireId a = some b) :
    b ∈ ([0x06, 0x07, 0x11, 0x14] : List UInt8) := by
  cases a <;> first | cases h; decide | cases h

theorem fixedWireId_injective (h : fixedWireId a = some b) (h' : fixedWireId a' = some b) :
    a = a' := by
  have htable : ∀ x ∈ allAlgorithms, ∀ y ∈ allAlgorithms,
      (fixedWireId x).isSome → fixedWireId x = fixedWireId y → x = y := by decide
  exact htable a (mem_allAlgorithms a) a' (mem_allAlgorithms a') (by rw [h]; rfl) (h.trans h'.symm)

theorem fallbackWireId_injective {legacy : Bool} (h : fallbackWireId legacy a = some b)
    (h' : fallbackWireId legacy a' = some b) : a = a' := by
  have htable : ∀ l ∈ [true, false], ∀ x ∈ allAlgorithms, ∀ y ∈ allAlgorithms,
      (fallbackWireId l x).isSome → fallbackWireId l x = fallbackWireId l y → x = y := by decide
  exact htable legacy (by cases legacy <;> simp) a (mem_allAlgorithms a) a' (mem_allAlgorithms a')
    (by rw [h]; rfl) (h.trans h'.symm)

theorem fallbackWireId_free {legacy : Bool} (h : fallbackWireId legacy a = some b) :
    b ∉ ([0x06, 0x07, 0x11, 0x14, 0x0a, 0xff] : List UInt8) := by
  have htable : ∀ l ∈ [true, false], ∀ x ∈ allAlgorithms, (fallbackWireId l x).all
      fun y => y ∉ ([0x06, 0x07, 0x11, 0x14, 0x0a, 0xff] : List UInt8) := by decide
  have hfree := htable legacy (by cases legacy <;> simp) a (mem_allAlgorithms a)
  rw [h] at hfree
  simpa using hfree

theorem extensionWireId_free (hs : Sound p) (h : p.extensionWireId a = some b) :
    b ∉ ([0x06, 0x07, 0x11, 0x14] : List UInt8) := by
  obtain ⟨config, hconfig, _, hmem, _⟩ := extensionWireId_eq_some h
  exact (hs.config config hconfig).unreserved _ hmem

theorem extensionWireId_injective (hs : Sound p) (h : p.extensionWireId a = some b)
    (h' : p.extensionWireId a' = some b) : a = a' := by
  obtain ⟨config, hconfig, _, hmem, _⟩ := extensionWireId_eq_some h
  obtain ⟨config', hconfig', _, hmem', _⟩ := extensionWireId_eq_some h'
  cases hconfig.symm.trans hconfig'
  have hpair := List.inj_on_of_nodup_map (hs.config config hconfig).nodup hmem hmem' rfl
  exact congrArg Prod.fst hpair

/-- Where the identifier of an algorithm comes from. -/
inductive Source (p : DeviceProfile) (a : Algorithm) (b : UInt8) : Prop where
  | fixed (h : fixedWireId a = some b)
  | observed (hc : p.config.isSome = true) (h : p.extensionWireId a = some b)
  | fallback (hc : p.config = none)
      (h : fallbackWireId (p.base.any fun v => Version.le ⟨2, 0, 0⟩ v && v.lt ⟨3, 0, 0⟩) a = some b)

theorem algorithmWireId_source (h : p.algorithmWireId a = some b) : Source p a b := by
  rw [algorithmWireId_eq, Option.or_eq_some_iff] at h
  rcases h with hfixed | ⟨_, h⟩
  · exact .fixed hfixed
  · by_cases hc : p.config.isSome = true
    · rw [if_pos hc] at h
      exact .observed hc h
    · rw [if_neg hc] at h
      exact .fallback (by simpa using hc) h

theorem algorithmWireId_injective (hs : Sound p) (h : p.algorithmWireId a = some b)
    (h' : p.algorithmWireId a' = some b) : a = a' := by
  have hfallback {legacy : Bool} {x : Algorithm} (hx : fallbackWireId legacy x = some b) :
      b ∉ ([0x06, 0x07, 0x11, 0x14] : List UInt8) := by
    have hfree := fallbackWireId_free hx
    simp only [List.mem_cons, List.not_mem_nil, or_false, not_or] at hfree ⊢
    exact ⟨hfree.1, hfree.2.1, hfree.2.2.1, hfree.2.2.2.1⟩
  cases algorithmWireId_source h with
  | fixed hf =>
    cases algorithmWireId_source h' with
    | fixed hf' => exact fixedWireId_injective hf hf'
    | observed _ hx' => exact absurd (fixedWireId_reserved hf) (extensionWireId_free hs hx')
    | fallback _ hd' => exact absurd (fixedWireId_reserved hf) (hfallback hd')
  | observed hc hx =>
    cases algorithmWireId_source h' with
    | fixed hf' => exact absurd (fixedWireId_reserved hf') (extensionWireId_free hs hx)
    | observed _ hx' => exact extensionWireId_injective hs hx hx'
    | fallback hc' _ =>
      rw [hc'] at hc
      cases hc
  | fallback hc hd =>
    cases algorithmWireId_source h' with
    | fixed hf' => exact absurd (fixedWireId_reserved hf') (hfallback hd)
    | observed hc' _ =>
      rw [hc] at hc'
      cases hc'
    | fallback _ hd' => exact fallbackWireId_injective hd hd'

theorem algorithmFromWireId_iff (hs : Sound p) :
    p.algorithmFromWireId b = some a ↔ p.algorithmWireId a = some b := by
  rw [DeviceProfile.algorithmFromWireId]
  constructor
  · intro h
    simpa using List.find?_some h
  · intro h
    cases hfind : allAlgorithms.find? fun x => p.algorithmWireId x == some b with
    | none =>
      have hno := List.find?_eq_none.mp hfind a (mem_allAlgorithms a)
      simp [h] at hno
    | some x =>
      have hx : p.algorithmWireId x = some b := by simpa using List.find?_some hfind
      rw [algorithmWireId_injective hs hx h]

/-- From 3.1 on the identifiers of AES management and randomized signing are never used. -/
theorem algorithmWireId_modern (hmodern : p.base.any (Version.le ⟨3, 1, 0⟩) = true)
    (h : p.algorithmWireId a = some b) : b ≠ 0x0a ∧ b ≠ 0xff := by
  cases algorithmWireId_source h with
  | fixed hf =>
    have hreserved := fixedWireId_reserved hf
    constructor
    · rintro rfl
      revert hreserved
      decide
    · rintro rfl
      revert hreserved
      decide
  | observed _ hx =>
    obtain ⟨_, _, _, _, hfree⟩ := extensionWireId_eq_some hx
    constructor
    · rintro rfl
      exact hfree ⟨hmodern, by decide⟩
    · rintro rfl
      exact hfree ⟨hmodern, by decide⟩
  | fallback _ hd =>
    have hfree := fallbackWireId_free hd
    simp only [List.mem_cons, List.not_mem_nil, or_false, not_or] at hfree
    exact ⟨hfree.2.2.2.2.1, hfree.2.2.2.2.2⟩

/-- What authorizes the use of an identifier for an algorithm. -/
inductive Authorized (p : DeviceProfile) (a : Algorithm) (b : UInt8) : Prop where
  | fixed (h : fixedWireId a = some b) (hb : b = 0x07 ∨ b = 0x11 ∨ b = 0x14)
  | observed {config : AlgorithmConfig} (hc : p.config = some config)
      (henabled : config.enabled = true) (hmem : (a, b) ∈ config.ids)
  | confirmed (hc : p.config = none) (hl : p.legacyPivExtensions = some true)
      (hv : ∃ v, p.base = some v ∧ Version.le ⟨2, 0, 0⟩ v = true ∧ v.le ⟨2, 0, 1⟩ = true)
      (h : fallbackWireId true a = some b)

theorem version_between {v : Version} (h : Version.le ⟨2, 0, 0⟩ v = true)
    (h' : v.le ⟨2, 0, 1⟩ = true) :
    (Version.le ⟨2, 0, 0⟩ v && v.lt ⟨3, 0, 0⟩) = true ∧ Version.le ⟨3, 0, 1⟩ v = false ∧
      Version.le ⟨3, 1, 0⟩ v = false := by
  obtain ⟨major, minor, patch⟩ := v
  simp [Version.le, Version.lt] at h h' ⊢
  omega

/-- The algorithms of 2.0 all have a fixed identifier there. -/
theorem fallbackWireId_legacy {v : Version} (ha : fixedWireId a = none)
    (h : Version.le ⟨2, 0, 0⟩ v = true) (h' : v.le ⟨2, 0, 1⟩ = true)
    (hfirst : a.extensionFirst.le v = true) : ∃ b, fallbackWireId true a = some b := by
  obtain ⟨_, h301, h310⟩ := version_between h h'
  cases a with
  | rsa1024 | rsa2048 | eccP256 | eccP384 => cases ha
  | ed25519 | x25519 =>
    rw [show Version.le ⟨3, 0, 1⟩ v = true from hfirst] at h301
    cases h301
  | eccP521 | mlDsa65 | mlKem768 =>
    rw [show Version.le ⟨3, 1, 0⟩ v = true from hfirst] at h310
    cases h310
  | rsa3072 | rsa4096 | secp256k1 | sm2 => exact ⟨_, rfl⟩

theorem extensionSupport_authorized (ha : fixedWireId a = none)
    (hrange : (p.firmwareRange a.extensionFirst ⟨3, 1, 0⟩).support = .supported)
    (h : p.extensionSupport a = .supported) :
    ∃ b, p.algorithmWireId a = some b ∧ Authorized p a b := by
  rw [DeviceProfile.extensionSupport] at h
  cases hc : p.config with
  | none =>
    rw [hc] at h
    dsimp only at h
    split_ifs at h with hlegacy
    cases hl : p.legacyPivExtensions with
    | none => rw [hl] at h; cases h
    | some enabled =>
      rw [hl] at h
      cases enabled with
      | false => cases h
      | true =>
        have hcap : (p.firmwareRange ⟨2, 0, 0⟩ ⟨2, 0, 1⟩).support = .supported := hlegacy
        obtain ⟨v, hv, _, hfrom, hto⟩ := firmwareRange_supported.mp hcap
        obtain ⟨v', hv', _, hfirst, _⟩ := firmwareRange_supported.mp hrange
        cases hv.symm.trans hv'
        obtain ⟨b, hb⟩ := fallbackWireId_legacy ha hfrom hto hfirst
        refine ⟨b, ?_, .confirmed hc hl ⟨v, hv, hfrom, hto⟩ hb⟩
        rw [algorithmWireId_eq, ha, hc, hv]
        simpa [(version_between hfrom hto).1] using hb
  | some config =>
    rw [hc] at h
    dsimp only at h
    split_ifs at h with hid
    obtain ⟨b, hb⟩ := Option.isSome_iff_exists.mp hid
    obtain ⟨config', hconfig, henabled, hmem, _⟩ := extensionWireId_eq_some hb
    refine ⟨b, ?_, .observed hconfig henabled hmem⟩
    rw [algorithmWireId_eq, ha, hc]
    exact hb

theorem keyAlgorithmSupport_extension (ha : fixedWireId a = none) : p.keyAlgorithmSupport a =
    if (p.firmwareRange ⟨1, 3, 0⟩ ⟨3, 1, 0⟩).support ≠ .supported then
      p.firmwareRange ⟨1, 3, 0⟩ ⟨3, 1, 0⟩
    else if (p.firmwareRange a.extensionFirst ⟨3, 1, 0⟩).support ≠ .supported then
      p.firmwareRange a.extensionFirst ⟨3, 1, 0⟩
    else ⟨p.extensionSupport a, .observed⟩ := by
  cases a <;> first | rfl | cases ha

theorem keyAlgorithmSupport_rsa1024 : (p.keyAlgorithmSupport .rsa1024).support ≠ .supported := by
  intro h
  change (if (p.firmwareRange ⟨1, 3, 0⟩ ⟨3, 1, 0⟩).support ≠ .supported then
    p.firmwareRange ⟨1, 3, 0⟩ ⟨3, 1, 0⟩ else _).support = _ at h
  split_ifs at h with hbase
  exact hbase h

theorem keyAlgorithmSupport_authorized (h : (p.keyAlgorithmSupport a).support = .supported) :
    ∃ b, p.algorithmWireId a = some b ∧ Authorized p a b := by
  by_cases ha : fixedWireId a = none
  · rw [keyAlgorithmSupport_extension ha] at h
    split_ifs at h with hbase hrange
    · exact absurd h hbase
    · exact absurd h hrange
    · exact extensionSupport_authorized ha (not_not.mp hrange) h
  · cases a with
    | rsa2048 => exact ⟨0x07, rfl, .fixed rfl (by decide)⟩
    | eccP256 => exact ⟨0x11, rfl, .fixed rfl (by decide)⟩
    | eccP384 => exact ⟨0x14, rfl, .fixed rfl (by decide)⟩
    | rsa1024 => exact absurd h keyAlgorithmSupport_rsa1024
    | _ => exact absurd rfl ha

/-- What holds of the identifiers of a profile. -/
structure Unambiguous (p : DeviceProfile) : Prop where
  injective : ∀ a a' b, p.algorithmWireId a = some b → p.algorithmWireId a' = some b → a = a'
  inverse : ∀ a b, p.algorithmFromWireId b = some a ↔ p.algorithmWireId a = some b
  authorized : ∀ a, (p.keyAlgorithmSupport a).support = .supported →
    ∃ b, p.algorithmWireId a = some b ∧ Authorized p a b
  modern : p.base.any (Version.le ⟨3, 1, 0⟩) = true →
    ∀ a b, p.algorithmWireId a = some b → b ≠ 0x0a ∧ b ≠ 0xff

theorem identifiers_unambiguous (h : Built p) : Unambiguous p := by
  have hs := built_sound h
  refine ⟨?_, ?_, ?_, ?_⟩
  · intro a a' b ha ha'
    exact algorithmWireId_injective hs ha ha'
  · intro a b
    exact algorithmFromWireId_iff hs
  · intro a ha
    exact keyAlgorithmSupport_authorized ha
  · intro hmodern a b ha
    exact algorithmWireId_modern hmodern ha

/-- The text `3.1.0` and a configuration of nine identifiers. -/
def exampleObservations : DeviceObservations :=
  { firmwareText := [0x33, 0x2e, 0x31, 0x2e, 0x30]
    algorithmConfig := some
      { enabled := true
        ids := [(.ed25519, 0xe0), (.rsa3072, 5), (.rsa4096, 0x16), (.x25519, 0xe1),
          (.secp256k1, 0x53), (.sm2, 0x54)]
        raw := [1, 0xe0, 5, 0x16, 0xe1, 0x53, 0x54] } }

theorem identifiers_unambiguous_observed :
    ∃ p, DeviceProfile.fromObservations exampleObservations = .ok p ∧
      (p.keyAlgorithmSupport .sm2).support = .supported ∧ Unambiguous p := by
  have h : DeviceProfile.fromObservations exampleObservations = .ok _ := rfl
  refine ⟨_, h, rfl, identifiers_unambiguous (.observed ?_ h)⟩
  rintro _ ⟨⟩
  exact ⟨[1, 0xe0, 5, 0x16, 0xe1, 0x53, 0x54], by decide⟩

end CompatAlgorithms
