import LibCanokey.CompatObservations

/-! # The recognized firmware set

Which versions the matrix speaks about, which carry the fallback warning and which get
evidence from the matrix. -/
namespace CompatRecognition

open BigEndian ProtocolError CompatProfile

variable {p : DeviceProfile} {v : FirmwareVersion} {observations : DeviceObservations}

/-- 1.3.0, 1.5.2 to 3.0.3, and the 3.1 and 4.0 series. -/
def Recognized (v : FirmwareVersion) : Prop :=
  (v.major = 1 ∧ v.minor = 3 ∧ v.patch = 0) ∨
    (v.major = 1 ∧ (v.minor = 5 ∧ 2 ≤ v.patch ∨ 6 ≤ v.minor)) ∨ v.major = 2 ∨
    (v.major = 3 ∧ (v.minor = 0 ∧ v.patch ≤ 3 ∨ v.minor = 1)) ∨ (v.major = 4 ∧ v.minor = 0)

/-- The one span from 1.3.0 to 3.1.0, with the 4.0 series that shares its end. -/
def InSpan (v : FirmwareVersion) : Prop :=
  (v.major = 1 ∧ 3 ≤ v.minor) ∨ v.major = 2 ∨ (v.major = 3 ∧ v.minor ≤ 1) ∨
    (v.major = 4 ∧ v.minor = 0)

/-- Newer than the 3.1 series, but not of the 4.0 series. -/
def Newer (v : FirmwareVersion) : Prop :=
  (v.major = 3 ∧ 1 < v.minor) ∨ (v.major = 4 ∧ v.minor ≠ 0) ∨ 4 < v.major

/-- What one recognized set would decide: the warning and the evidence of the matrix. -/
structure OneSet (p : DeviceProfile) (v : FirmwareVersion) : Prop where
  warned : .latestKnownFallback ∈ p.warnings ↔ ¬ Recognized v
  evidenced : ∀ f, (p.capability f).evidence = .firmwareMatrix → Recognized v

theorem recognized_iff : v.compatibilityBase.recognized = true ↔ Recognized v := by
  obtain ⟨major, minor, patch, suffix⟩ := v
  simp only [FirmwareVersion.compatibilityBase]
  split_ifs with hseries
  · simp only [Version.recognized, Recognized]
    simp [Version.le]
    omega
  · simp only [Version.recognized, Recognized]
    simp [Version.le]
    omega

theorem inSpan_iff : (Version.le ⟨1, 3, 0⟩ v.compatibilityBase &&
    v.compatibilityBase.le ⟨3, 1, 0⟩) = true ↔ InSpan v := by
  obtain ⟨major, minor, patch, suffix⟩ := v
  simp only [FirmwareVersion.compatibilityBase]
  split_ifs with hseries
  · simp only [InSpan]
    simp [Version.le]
    omega
  · simp only [InSpan]
    simp [Version.le]
    omega

theorem newer_iff : Version.lt ⟨3, 1, 0⟩ v.compatibilityBase = true ↔ Newer v := by
  obtain ⟨major, minor, patch, suffix⟩ := v
  simp only [FirmwareVersion.compatibilityBase]
  split_ifs with hseries
  · simp only [Newer]
    simp [Version.lt, Version.le]
    omega
  · simp only [Newer]
    simp [Version.lt, Version.le]
    omega

theorem newer_unrecognized (h : Newer v) : ¬ Recognized v ∧ ¬ InSpan v := by
  simp only [Newer, Recognized, InSpan] at *
  omega

theorem fromObservations_eq_ok (h : DeviceProfile.fromObservations observations = .ok p) :
    p.firmware = parseFirmware observations.firmwareText ∧
      p.warnings = observations.warnings ++ firmwareWarning p.firmware ∧
      p.config = observations.algorithmConfig ∧ p.legacyPivExtensions = none := by
  rw [DeviceProfile.fromObservations] at h
  split_ifs at h
  cases h
  exact ⟨rfl, rfl, rfl, rfl⟩

theorem firmwareWarning_fallback :
    .latestKnownFallback ∈ firmwareWarning (some v) ↔ Newer v := by
  rw [← newer_iff, firmwareWarning]
  split_ifs with hnewer hsuffix
  · simp [hnewer]
  · simp [hnewer]
  · simp [hnewer]

theorem observedExtensions_evidence {status : CapabilityStatus}
    (h : p.observedExtensions = some status) : status.evidence = .observed := by
  rw [DeviceProfile.observedExtensions] at h
  split at h
  · cases h
    rfl
  · split_ifs at h
    · cases h
      rfl
    · cases h
      rfl
    · obtain ⟨config, _, rfl⟩ := Option.map_eq_some_iff.mp h
      rfl

/-- Outside the recognized set only the threshold rule can still speak for the matrix. -/
theorem capability_evidence (hv : p.firmware = some v) (hr : ¬ Recognized v) (f : Capability)
    (h : (p.capability f).evidence = .firmwareMatrix) : InSpan v := by
  have hbase : p.base = some v.compatibilityBase := by rw [DeviceProfile.base, hv]; rfl
  have hrange (first last : Version) : p.firmwareRange first last = unknownFirmware := by
    rw [DeviceProfile.firmwareRange, hbase]
    exact if_neg fun hrec => hr (recognized_iff.mp hrec)
  have hthreshold (h : (p.thresholdCapability f).evidence = .firmwareMatrix) : InSpan v := by
    simp only [DeviceProfile.thresholdCapability, hbase] at h
    by_contra hspan
    rw [if_neg fun hin => hspan (inSpan_iff.mp hin)] at h
    cases h
  rw [DeviceProfile.capability] at h
  cases hf : f.range with
  | some range =>
    rw [hf] at h
    dsimp only at h
    rw [hrange] at h
    cases h
  | none =>
    rw [hf] at h
    dsimp only at h
    split_ifs at h with hpiv hextensions
    · cases ho : p.observedExtensions with
      | none =>
        rw [ho] at h
        exact hthreshold h
      | some status =>
        rw [ho] at h
        cases (observedExtensions_evidence ho).symm.trans h
    · exact hthreshold h

/-- In the gaps of the span the threshold rule does speak for the matrix. -/
theorem metadata_evidence (hv : p.firmware = some v) (h : InSpan v) :
    (p.capability .metadata).evidence = .firmwareMatrix := by
  have hbase : p.base = some v.compatibilityBase := by rw [DeviceProfile.base, hv]; rfl
  change (p.thresholdCapability .metadata).evidence = _
  simp only [DeviceProfile.thresholdCapability, hbase]
  rw [if_pos (inSpan_iff.mpr h)]

/-- A recognized version without a caller's fallback warning, or one outside the span that is
newer than it or carries such a warning. -/
def Covered (observations : DeviceObservations) (v : FirmwareVersion) : Prop :=
  (Recognized v ∧ .latestKnownFallback ∉ observations.warnings) ∨
    (¬ Recognized v ∧ ¬ InSpan v ∧
      (Newer v ∨ .latestKnownFallback ∈ observations.warnings))

/-- The warning and the evidence agree on one set exactly for the covered observations. -/
theorem one_recognized_set (h : DeviceProfile.fromObservations observations = .ok p)
    (hv : p.firmware = some v) : OneSet p v ↔ Covered observations v := by
  obtain ⟨_, hwarnings, _, _⟩ := fromObservations_eq_ok h
  have hcarried : .latestKnownFallback ∈ p.warnings ↔
      .latestKnownFallback ∈ observations.warnings ∨ Newer v := by
    rw [hwarnings, hv, List.mem_append, firmwareWarning_fallback]
  constructor
  · rintro ⟨hwarned, hevidenced⟩
    by_cases hr : Recognized v
    · refine Or.inl ⟨hr, ?_⟩
      intro hmem
      exact hwarned.mp (hcarried.mpr (Or.inl hmem)) hr
    · refine Or.inr ⟨hr, ?_, (hcarried.mp (hwarned.mpr hr)).symm⟩
      intro hspan
      exact hr (hevidenced .metadata (metadata_evidence hv hspan))
  · rintro (⟨hr, hno⟩ | ⟨hr, hspan, hwarn⟩)
    · refine ⟨?_, fun _ _ => hr⟩
      rw [hcarried]
      constructor
      · rintro (hmem | hnewer)
        · exact absurd hmem hno
        · exact (newer_unrecognized hnewer).1
      · intro hnot
        exact absurd hr hnot
    · refine ⟨?_, ?_⟩
      · rw [hcarried]
        exact ⟨fun _ => hr, fun _ => hwarn.symm⟩
      · intro f hf
        exact absurd (capability_evidence hv hr f hf) hspan

/-- The text `1.4.0`. -/
def gapObservations : DeviceObservations := { firmwareText := [0x31, 0x2e, 0x34, 0x2e, 0x30] }

/-- The text `3.1.0`. -/
def knownObservations : DeviceObservations := { firmwareText := [0x33, 0x2e, 0x31, 0x2e, 0x30] }

theorem one_recognized_set_known :
    ∃ p, DeviceProfile.fromObservations knownObservations = .ok p ∧
      (OneSet p ⟨3, 1, 0, none⟩ ↔ Covered knownObservations ⟨3, 1, 0, none⟩) := by
  have h : DeviceProfile.fromObservations knownObservations = .ok _ := rfl
  exact ⟨_, h, one_recognized_set h rfl⟩

/-- 1.4.0 was never released: no warning, and evidence of the matrix for metadata. -/
theorem gap_not_one_set :
    ∃ p, DeviceProfile.fromObservations gapObservations = .ok p ∧
      p.firmware = some ⟨1, 4, 0, none⟩ ∧ ¬ Recognized ⟨1, 4, 0, none⟩ ∧
      .latestKnownFallback ∉ p.warnings ∧
      p.capability .eccP256 = ⟨.supported, .firmwareMatrix⟩ := by
  refine ⟨_, rfl, rfl, ?_, ?_, rfl⟩
  · simp [Recognized]
  · decide

end CompatRecognition
