import LibCanokey.AdminExecute
import LibCanokey.CompatAlgorithms

/-! # Layouts and ranges

The layout of READ CONFIG is chosen by a ladder of versions, the requests that write its fields
by ranges of their own. The two agree on every firmware but a late 2.x. -/
namespace AdminLayouts

open BigEndian ProtocolError ListTraversal CompatProfile AdminTypes AdminExecute

/-- The versions of each rung of the ladder. -/
def Rung (v : Version) : AdminConfigurationLayout → Prop
  | .touchPolicies => v.major = 1 ∧ v.minor = 3 ∧ v.patch = 0
  | .basic => v.major = 1 ∧ (v.minor = 5 ∧ 2 ≤ v.patch ∨ v.minor = 6 ∧ v.patch ≤ 1)
  | .keyboardReturn => v.major = 1 ∧ (v.minor = 6 ∧ 2 ≤ v.patch ∨ 7 ≤ v.minor) ∨ v.major = 2
  | .reserved => v.major = 3 ∧ v.minor = 0 ∧ v.patch ≤ 3
  | .features => v.major = 3 ∧ v.minor = 1 ∧ v.patch = 0

variable {p : DeviceProfile} {v : Version} {layout : AdminConfigurationLayout}

/-- The applet's own range leaves a recognized version, on which no rung is skipped. -/
theorem layout_rung (h : p.adminConfigurationLayout = .ok layout) :
    ∃ v, p.base = some v ∧ v.recognized = true ∧ Rung v layout := by
  rw [DeviceProfile.adminConfigurationLayout] at h
  obtain ⟨u, hadmin, h⟩ := bind_eq_ok.mp h
  have hsupport : (p.firmwareRange ⟨1, 3, 0⟩ ⟨3, 1, 0⟩).support = .supported :=
    require_eq_ok.mp hadmin
  obtain ⟨v, hbase, hrecognized, -⟩ := firmwareRange_supported.mp hsupport
  rw [hbase] at h
  refine ⟨v, hbase, hrecognized, ?_⟩
  obtain ⟨major, minor, patch⟩ := v
  simp only [Version.recognized, Version.le, Bool.or_eq_true, Bool.and_eq_true,
    decide_eq_true_eq, beq_iff_eq, Version.mk.injEq] at hrecognized
  simp only [Version.lt, Version.le, Version.mk.injEq, Bool.not_eq_true', Bool.or_eq_false_iff,
    Bool.and_eq_false_iff, decide_eq_false_iff_not, beq_eq_false_iff_ne] at h
  split_ifs at h <;> (cases h; simp only [Rung]; omega)

theorem range_supported (hbase : p.base = some v) (hrecognized : v.recognized = true)
    (first last : Version) :
    (p.firmwareRange first last).support = .supported ↔
      first.le v = true ∧ v.le last = true := by
  rw [firmwareRange_supported, hbase]
  constructor
  · rintro ⟨_, hsame, _, hin⟩
    obtain rfl := Option.some.inj hsame
    exact hin
  · intro hin
    exact ⟨v, rfl, hrecognized, hin⟩

/-- A 2.x after 2.0.1, where the keyboard ranges end before the layout does. -/
def LateTwo (p : DeviceProfile) : Prop :=
  ∃ v, p.firmware = some v ∧ v.major = 2 ∧ (0 < v.minor ∨ 1 < v.patch)

theorem lateTwo_base : LateTwo p ↔
    ∃ v, p.base = some v ∧ v.major = 2 ∧ (0 < v.minor ∨ 1 < v.patch) := by
  rw [LateTwo, DeviceProfile.base]
  cases p.firmware with
  | none => simp
  | some w =>
    obtain ⟨major, minor, patch, suffix⟩ := w
    simp only [Option.map_some, Option.some.injEq, exists_eq_left',
      FirmwareVersion.compatibilityBase]
    split_ifs with hseries
    · constructor <;> intro hlate <;> simp only at hlate hseries ⊢ <;> omega
    · exact Iff.rfl

/-- The fields that the parsers of READ CONFIG can report. -/
inductive Field where
  | ledOn
  | ndefReadOnly
  | ndefEnabled
  | webusbLanding
  | keyboardInterface
  | keyboardReturn
  | openPgpTouch
  | features
  deriving DecidableEq, Repr

def reports : Value → Field → Bool
  | .configuration _, field =>
    field ∈ [.ledOn, .ndefReadOnly, .ndefEnabled, .webusbLanding, .features]
  | .legacyConfiguration c, field =>
    match field with
    | .ledOn => true
    | .ndefReadOnly => true
    | .ndefEnabled => c.ndefEnabled.isSome
    | .webusbLanding => c.webusbLanding.isSome
    | .keyboardInterface => c.keyboardInterface.isSome
    | .keyboardReturn => c.keyboardReturn.isSome
    | .openPgpTouch => c.openPgpTouch.isSome
    | .features => false
  | _, _ => false

/-- The requests that write one field and no other. -/
inductive Sets : Field → Request → Prop where
  | ledOn (on : Bool) : Sets .ledOn (.configure { ledOn := some on })
  | ndefReadOnly (on : Bool) : Sets .ndefReadOnly (.configure { ndefReadOnly := some on })
  | ndefEnabled (on : Bool) : Sets .ndefEnabled (.configure { ndefEnabled := some on })
  | webusbLanding (on : Bool) : Sets .webusbLanding (.configure { webusbLanding := some on })
  | keyboardInterface (on : Bool) : Sets .keyboardInterface (.setKeyboardInterface on)
  | keyboardReturn (on : Bool) : Sets .keyboardReturn (.setKeyboardReturn on)
  | openPgpTouch (touch : LegacyOpenPgpTouch) : Sets .openPgpTouch (.setLegacyOpenPgpTouch touch)
  | features (mask values : UInt8) (selects : mask ≠ 0) :
      Sets .features (.configure { featureMask := mask, featureValues := values })

/-- The layouts that hold a field. -/
def held : AdminConfigurationLayout → Field → Bool
  | _, .ledOn => true
  | _, .ndefReadOnly => true
  | layout, .ndefEnabled => layout ≠ .touchPolicies
  | layout, .webusbLanding => layout ≠ .touchPolicies
  | layout, .keyboardInterface => layout ∈ [.touchPolicies, .basic, .keyboardReturn]
  | layout, .keyboardReturn => layout = .keyboardReturn
  | layout, .openPgpTouch => layout = .touchPolicies
  | layout, .features => layout = .features

theorem reports_eq_held {raw : Bytes} {value : Value}
    (hlayout : p.adminConfigurationLayout = .ok layout)
    (h : parseConfiguration p raw = .ok value) (field : Field) :
    reports value field = held layout field := by
  rw [parseConfiguration, hlayout] at h
  simp only [bind, Except.bind] at h
  by_cases hfeatures : layout = .features
  · rw [if_pos hfeatures] at h
    obtain ⟨config, -, rfl⟩ := map_eq_ok.mp h
    subst hfeatures
    cases field <;> rfl
  · rw [if_neg hfeatures] at h
    obtain ⟨config, hparse, rfl⟩ := map_eq_ok.mp h
    have hkept : config.layout = layout := by
      rw [LegacyConfiguration.parse, hlayout] at hparse
      simp only [bind, Except.bind] at hparse
      split at hparse
      · cases hparse
      · split_ifs at hparse
        cases hparse
        rfl
    cases layout with
    | features => exact absurd rfl hfeatures
    | touchPolicies | basic | keyboardReturn | reserved =>
      cases field <;>
        simp [reports, held, hkept, LegacyConfiguration.ndefEnabled,
          LegacyConfiguration.webusbLanding, LegacyConfiguration.keyboardInterface,
          LegacyConfiguration.keyboardReturn, LegacyConfiguration.openPgpTouch]

/-- The tables of ranges decide as the layout does. -/
structure Agrees (p : DeviceProfile) (layout : AdminConfigurationLayout) : Prop where
  touch : (p.capability .adminLegacyOpenPgpTouch).support = .supported ↔ layout = .touchPolicies
  ndefWebUsb : (p.capability .adminNdefWebUsb).support = .supported ↔ layout ≠ .touchPolicies
  keyboard : (p.capability .adminKeyboard).support = .supported ↔
    layout = .touchPolicies ∨ layout = .basic ∨ layout = .keyboardReturn
  keyboardReturn :
    (p.capability .adminKeyboardReturn).support = .supported ↔ layout = .keyboardReturn
  sm2 : (p.capability .adminLegacySm2).support = .supported ↔ layout = .reserved
  extended :
    (p.capability .adminExtendedConfiguration).support = .supported ↔ layout = .features
  settable : ∀ raw value, parseConfiguration p raw = .ok value → ∀ field request,
    Sets field request → (reports value field = true ↔ requestCapability p request = .ok ())

/-- Four of the ranges need no condition. -/
theorem ranges_agree (hlayout : p.adminConfigurationLayout = .ok layout) :
    ((p.capability .adminLegacyOpenPgpTouch).support = .supported ↔ layout = .touchPolicies) ∧
    ((p.capability .adminNdefWebUsb).support = .supported ↔ layout ≠ .touchPolicies) ∧
    ((p.capability .adminLegacySm2).support = .supported ↔ layout = .reserved) ∧
    ((p.capability .adminExtendedConfiguration).support = .supported ↔ layout = .features) := by
  obtain ⟨v, hbase, hrecognized, hrung⟩ := layout_rung hlayout
  have hrange (first last : Version) := range_supported hbase hrecognized first last
  refine ⟨(hrange ⟨1, 3, 0⟩ ⟨1, 3, 0⟩).trans ?_, (hrange ⟨1, 5, 2⟩ ⟨3, 1, 0⟩).trans ?_,
    (hrange ⟨3, 0, 0⟩ ⟨3, 0, 3⟩).trans ?_, (hrange ⟨3, 1, 0⟩ ⟨3, 1, 0⟩).trans ?_⟩ <;>
  · cases layout <;>
      simp only [Rung, Version.le, Bool.or_eq_true, Bool.and_eq_true, decide_eq_true_eq,
        beq_iff_eq, ne_eq, reduceCtorEq, not_true_eq_false, not_false_eq_true, iff_true, iff_false]
        at hrung ⊢ <;>
      omega

/-- The two keyboard ranges end at 2.0.1. -/
theorem keyboard_ranges (hlayout : p.adminConfigurationLayout = .ok layout) :
    ((p.capability .adminKeyboard).support = .supported ↔
      (layout = .touchPolicies ∨ layout = .basic ∨ layout = .keyboardReturn) ∧ ¬ LateTwo p) ∧
    ((p.capability .adminKeyboardReturn).support = .supported ↔
      layout = .keyboardReturn ∧ ¬ LateTwo p) := by
  obtain ⟨v, hbase, hrecognized, hrung⟩ := layout_rung hlayout
  have hlate : LateTwo p ↔ v.major = 2 ∧ (0 < v.minor ∨ 1 < v.patch) := by
    rw [lateTwo_base, hbase]
    simp
  have hrange (first last : Version) := range_supported hbase hrecognized first last
  rw [hlate]
  refine ⟨(hrange ⟨1, 3, 0⟩ ⟨2, 0, 1⟩).trans ?_, (hrange ⟨1, 6, 2⟩ ⟨2, 0, 1⟩).trans ?_⟩ <;>
  · cases layout <;>
      simp only [Rung, Version.le, Bool.or_eq_true, Bool.and_eq_true, decide_eq_true_eq,
        beq_iff_eq, reduceCtorEq, or_true, or_false, true_and, false_and, iff_false]
        at hrung ⊢ <;>
      omega

theorem lateTwo_layout (hlayout : p.adminConfigurationLayout = .ok layout) (h : LateTwo p) :
    layout = .keyboardReturn := by
  obtain ⟨v, hbase, -, hrung⟩ := layout_rung hlayout
  obtain ⟨w, hw, hmajor, -⟩ := lateTwo_base.mp h
  cases hbase.symm.trans hw
  cases layout <;> simp only [Rung] at hrung <;> first | rfl | omega

theorem settable_of_ranges (hlayout : p.adminConfigurationLayout = .ok layout)
    (hlate : ¬ LateTwo p) {field : Field} {request : Request} (h : Sets field request) :
    held layout field = true ↔ requestCapability p request = .ok () := by
  obtain ⟨htouch, hndef, -, hextended⟩ := ranges_agree hlayout
  obtain ⟨hkeyboard, hreturn⟩ := keyboard_ranges hlayout
  cases h with
  | ledOn on => exact ⟨fun _ => rfl, fun _ => rfl⟩
  | ndefReadOnly on => exact ⟨fun _ => rfl, fun _ => rfl⟩
  | ndefEnabled on =>
    have hrequest : requestCapability p (.configure { ndefEnabled := some on }) =
        (p.capability .adminNdefWebUsb).require := by
      simp [requestCapability]
    rw [hrequest, require_eq_ok, hndef]
    simp [held]
  | webusbLanding on =>
    have hrequest : requestCapability p (.configure { webusbLanding := some on }) =
        (p.capability .adminNdefWebUsb).require := by
      simp [requestCapability]
    rw [hrequest, require_eq_ok, hndef]
    simp [held]
  | keyboardInterface on =>
    rw [requestCapability, require_eq_ok, hkeyboard]
    simp [held, hlate]
  | keyboardReturn on =>
    rw [requestCapability, require_eq_ok, hreturn]
    simp [held, hlate]
  | openPgpTouch touch =>
    rw [requestCapability, require_eq_ok, htouch]
    simp [held]
  | features mask values hmask =>
    have hrequest :
        requestCapability p (.configure { featureMask := mask, featureValues := values }) =
          (p.capability .adminExtendedConfiguration).require := by
      simp [requestCapability, hmask]
    rw [hrequest, require_eq_ok, hextended]
    simp [held]

/-- The tables agree with the layout on every firmware but a 2.x after 2.0.1, where the keyboard
flags are still laid out and reported and no request may set them. -/
theorem ranges_match_layout_iff (hlayout : p.adminConfigurationLayout = .ok layout) :
    Agrees p layout ↔ ¬ LateTwo p := by
  obtain ⟨htouch, hndef, hsm2, hextended⟩ := ranges_agree hlayout
  obtain ⟨hkeyboard, hreturn⟩ := keyboard_ranges hlayout
  constructor
  · intro hagrees hlate
    have hlast := hagrees.keyboardReturn.mpr (lateTwo_layout hlayout hlate)
    exact (hreturn.mp hlast).2 hlate
  · intro hlate
    refine
      { touch := htouch, ndefWebUsb := hndef, sm2 := hsm2, extended := hextended
        keyboard := ?_, keyboardReturn := ?_, settable := ?_ }
    · rw [hkeyboard]
      exact and_iff_left hlate
    · rw [hreturn]
      exact and_iff_left hlate
    · intro raw value hparse field request hsets
      rw [reports_eq_held hlayout hparse]
      exact settable_of_ranges hlayout hlate hsets

/-- The text `2.0.1`. -/
def lastObservations : DeviceObservations := { firmwareText := [0x32, 0x2e, 0x30, 0x2e, 0x31] }

/-- The text `2.0.2`. -/
def lateObservations : DeviceObservations := { firmwareText := [0x32, 0x2e, 0x30, 0x2e, 0x32] }

theorem ranges_match_layout_iff_last :
    ∃ p, DeviceProfile.fromObservations lastObservations = .ok p ∧
      (Agrees p .keyboardReturn ↔ ¬ LateTwo p) := by
  refine ⟨_, rfl, ?_⟩
  apply ranges_match_layout_iff
  rfl

/-- On 2.0.2 both keyboard flags are reported, and both requests are refused. -/
theorem late_flags_unsettable :
    ∃ p config, DeviceProfile.fromObservations lateObservations = .ok p ∧
      p.adminConfigurationLayout = .ok .keyboardReturn ∧
      LegacyConfiguration.parse p [1, 1, 0, 1, 1, 1] = .ok config ∧
      config.keyboardInterface = some true ∧ config.keyboardReturn = some true ∧
      requestCapability p (.setKeyboardInterface false) = .error (.new .unsupportedFeature) ∧
      requestCapability p (.setKeyboardReturn false) = .error (.new .unsupportedFeature) ∧
      ¬ Agrees p .keyboardReturn := by
  refine ⟨_, _, rfl, rfl, rfl, rfl, rfl, rfl, rfl, ?_⟩
  intro hagrees
  have hsupported := hagrees.keyboard.mpr (Or.inr (Or.inr rfl))
  exact absurd hsupported (by decide)

end AdminLayouts
