import LibCanokey.BigEndian
import LibCanokey.ProtocolError

/-! # Device profiles and the firmware matrix

Observations of one device and the capability decisions drawn from them. A profile takes the
parsed firmware version as observed; a version is compared as its compatibility base. -/
namespace CompatProfile

open BigEndian ProtocolError

structure FirmwareVersion where
  major : ℕ
  minor : ℕ
  patch : ℕ
  suffix : Option String := none
  deriving DecidableEq, Repr

/-- A tuple of version components, compared in order. -/
structure Version where
  major : ℕ
  minor : ℕ
  patch : ℕ
  deriving DecidableEq, Repr

def Version.le (a b : Version) : Bool :=
  a.major < b.major || (a.major == b.major &&
    (a.minor < b.minor || (a.minor == b.minor && a.patch ≤ b.patch)))

def Version.lt (a b : Version) : Bool := !b.le a

/-- Patch releases of the 3.1 and 4.0 series share one protocol contract. -/
def FirmwareVersion.compatibilityBase (v : FirmwareVersion) : Version :=
  if (v.major = 3 ∧ v.minor = 1) ∨ (v.major = 4 ∧ v.minor = 0) then ⟨3, 1, 0⟩
  else ⟨v.major, v.minor, v.patch⟩

inductive Support where
  | supported
  | unsupported
  | unknown
  deriving DecidableEq, Repr

inductive Evidence where
  | observed
  | firmwareMatrix
  | latestKnownFallback
  deriving DecidableEq, Repr

structure CapabilityStatus where
  support : Support
  evidence : Evidence
  deriving DecidableEq, Repr

def CapabilityStatus.require (s : CapabilityStatus) : Except Error Unit :=
  match s.support with
  | .supported => .ok ()
  | .unsupported => .error (.new .unsupportedFeature)
  | .unknown => .error (.new .capabilityUnknown)

theorem require_eq_ok {s : CapabilityStatus} {u : Unit} :
    s.require = .ok u ↔ s.support = .supported := by
  obtain ⟨support, evidence⟩ := s
  cases support <;> simp [CapabilityStatus.require]

inductive Capability where
  | openPgp
  | openPgpWrappedData
  | openPgpAlgorithmInformation
  | openPgpWrappedAlgorithmInformation
  | openPgpUif
  | openPgpRetryReset
  | openPgpShortDigest
  | openPgpBareAgreement
  | openPgpPublicKeyLengthFix
  | oath
  | oathLegacy
  | oathModern
  | oathFullResponse
  | oathRenameCollisionCheck
  | oathReliablePagination
  | oathSetDefaultSlots
  | oathChallengeResponse
  | admin
  | adminNdefWebUsb
  | adminKeyboard
  | adminKeyboardReturn
  | adminLegacyPivExtensions
  | adminLegacyOpenPgpTouch
  | adminCtapPassReset
  | adminPassConfig
  | adminNfc
  | adminPublicNfcStatus
  | adminPublicConfiguration
  | adminExtendedConfiguration
  | adminSm2
  | adminLegacySm2
  | piv
  | pivSelectResetsAuthentication
  | metadata
  | eccP256
  | eccP384
  | algorithmExtensions
  | retiredSlots
  | objectWrites
  | objectWriteChaining
  | metadataDirectory
  | containerNames
  | keyMoveDelete
  | retryReset
  | algorithmConfigWrite
  | pivProtectedAlgorithmConfigRead
  | sm2Agreement
  | attestation
  | pivReset
  | certificateDeletion
  deriving DecidableEq, Repr

inductive ManagementKeyAlgorithm where
  | tdes
  | aes192
  deriving DecidableEq, Repr

def ManagementKeyAlgorithm.wireId : ManagementKeyAlgorithm → UInt8
  | .tdes => 0x03
  | .aes192 => 0x0a

def ManagementKeyAlgorithm.blockLen : ManagementKeyAlgorithm → ℕ
  | .tdes => 8
  | .aes192 => 16

theorem blockLen_le (a : ManagementKeyAlgorithm) : a.blockLen ≤ 16 := by cases a <;> decide

inductive Algorithm where
  | rsa1024
  | rsa2048
  | rsa3072
  | rsa4096
  | eccP256
  | eccP384
  | eccP521
  | secp256k1
  | sm2
  | ed25519
  | x25519
  | mlDsa65
  | mlKem768
  deriving DecidableEq, Repr

/-- The extension fields in wire order, for a configuration of `n` bytes. -/
def extensionOrder (n : ℕ) : List Algorithm :=
  [.ed25519, .rsa3072, .rsa4096, .x25519, .secp256k1] ++
    (if 8 ≤ n then [.eccP521] else []) ++ [.sm2] ++
    (if 9 ≤ n then [.mlDsa65] else []) ++ (if 10 ≤ n then [.mlKem768] else [])

/-- Observed identifiers, in the order in which they were read. -/
structure AlgorithmConfig where
  enabled : Bool
  ids : List (Algorithm × UInt8)
  raw : Bytes
  deriving DecidableEq, Repr

def invalidResponse : Error := .new .invalidResponse

/-- One turn of the loop of `parse`: the identifier is fresh and not reserved. -/
def readId (ids : List (Algorithm × UInt8)) (entry : Algorithm × UInt8) :
    Except Error (List (Algorithm × UInt8)) :=
  if entry.2 = 0 ∨ entry.2 ∈ [0x06, 0x07, 0x11, 0x14] ∨ ids.any (fun old => old.2 == entry.2) then
    .error invalidResponse
  else .ok (ids ++ [entry])

def AlgorithmConfig.parse (data : Bytes) : Except Error AlgorithmConfig :=
  if data.length < 7 ∨ data.getD 0 0 > 1 then .error invalidResponse
  else do
    let ids ← ((extensionOrder data.length).zip (data.drop 1)).foldlM readId []
    .ok { enabled := data.getD 0 0 == 1, ids := ids, raw := data }

def AlgorithmConfig.wireId (config : AlgorithmConfig) (algorithm : Algorithm) : Option UInt8 :=
  if config.enabled then (config.ids.find? (·.1 == algorithm)).map (·.2) else none

inductive CompatibilityWarning where
  | unrecognizedFirmware
  | latestKnownFallback
  | declaredBaseVersion
  | optionalCommandUnsupported (name : String)
  | optionalCommandNeedsAuthentication (name : String)
  deriving DecidableEq, Repr

structure DeviceProfile where
  firmware : Option FirmwareVersion
  pivVersion : Option (UInt8 × UInt8 × UInt8)
  config : Option AlgorithmConfig
  legacyPivExtensions : Option Bool
  warnings : List CompatibilityWarning
  deriving DecidableEq, Repr

def DeviceProfile.base (p : DeviceProfile) : Option Version :=
  p.firmware.map FirmwareVersion.compatibilityBase

/-- The versions the matrix knows: 1.3.0, 1.5.2 to 3.0.3, and the 3.1 and 4.0 series. -/
def Version.recognized (v : Version) : Bool :=
  v == ⟨1, 3, 0⟩ || (Version.le ⟨1, 5, 2⟩ v && v.le ⟨3, 0, 3⟩) || v == ⟨3, 1, 0⟩

def unknownFirmware : CapabilityStatus := ⟨.unknown, .latestKnownFallback⟩

def DeviceProfile.firmwareRange (p : DeviceProfile) (first last : Version) : CapabilityStatus :=
  match p.base with
  | some v =>
    if v.recognized then
      ⟨if first.le v && v.le last then .supported else .unsupported, .firmwareMatrix⟩
    else unknownFirmware
  | none => unknownFirmware

/-- A range is known to hold recognized firmware only. -/
theorem firmwareRange_supported {p : DeviceProfile} {first last : Version} :
    (p.firmwareRange first last).support = .supported ↔
      ∃ v, p.base = some v ∧ v.recognized = true ∧ first.le v = true ∧ v.le last = true := by
  rw [DeviceProfile.firmwareRange]
  cases p.base with
  | none =>
    constructor
    · intro h
      cases h
    · rintro ⟨v, hbase, -⟩
      cases hbase
  | some v =>
    dsimp only
    constructor
    · intro h
      split_ifs at h with hrecognized hin
      · simp only [Bool.and_eq_true] at hin
        exact ⟨v, rfl, hrecognized, hin⟩
      · cases h
    · rintro ⟨_, hbase, hrecognized, hfirst, hlast⟩
      obtain rfl := Option.some.inj hbase
      rw [if_pos hrecognized, hfirst, hlast]
      rfl

/-- The firmware range of a capability decided by the matrix alone. -/
def Capability.range : Capability → Option (Version × Version)
  | .pivReset => some (⟨1, 3, 0⟩, ⟨3, 1, 0⟩)
  | .pivSelectResetsAuthentication => some (⟨2, 0, 0⟩, ⟨3, 1, 0⟩)
  | .objectWrites => some (⟨1, 3, 0⟩, ⟨3, 1, 0⟩)
  | .objectWriteChaining => some (⟨1, 3, 0⟩, ⟨3, 1, 0⟩)
  | .oath => some (⟨1, 3, 0⟩, ⟨3, 1, 0⟩)
  | .oathLegacy => some (⟨1, 3, 0⟩, ⟨1, 3, 0⟩)
  | .oathModern => some (⟨1, 5, 2⟩, ⟨3, 1, 0⟩)
  | .oathFullResponse => some (⟨2, 0, 0⟩, ⟨3, 1, 0⟩)
  | .oathRenameCollisionCheck => some (⟨2, 0, 0⟩, ⟨3, 1, 0⟩)
  | .oathReliablePagination => some (⟨3, 0, 1⟩, ⟨3, 1, 0⟩)
  | .oathSetDefaultSlots => some (⟨3, 0, 0⟩, ⟨3, 1, 0⟩)
  | .oathChallengeResponse => some (⟨3, 1, 0⟩, ⟨3, 1, 0⟩)
  | .openPgp => some (⟨1, 3, 0⟩, ⟨3, 1, 0⟩)
  | .openPgpWrappedData => some (⟨2, 0, 0⟩, ⟨3, 1, 0⟩)
  | .openPgpAlgorithmInformation => some (⟨1, 6, 1⟩, ⟨3, 1, 0⟩)
  | .openPgpPublicKeyLengthFix => some (⟨1, 6, 1⟩, ⟨3, 1, 0⟩)
  | .openPgpUif => some (⟨1, 5, 2⟩, ⟨3, 1, 0⟩)
  | .openPgpBareAgreement => some (⟨1, 5, 2⟩, ⟨3, 1, 0⟩)
  | .openPgpRetryReset => some (⟨3, 1, 0⟩, ⟨3, 1, 0⟩)
  | .openPgpWrappedAlgorithmInformation => some (⟨3, 1, 0⟩, ⟨3, 1, 0⟩)
  | .openPgpShortDigest => some (⟨3, 1, 0⟩, ⟨3, 1, 0⟩)
  | .admin => some (⟨1, 3, 0⟩, ⟨3, 1, 0⟩)
  | .adminNdefWebUsb => some (⟨1, 5, 2⟩, ⟨3, 1, 0⟩)
  | .adminKeyboard => some (⟨1, 3, 0⟩, ⟨2, 0, 1⟩)
  | .adminKeyboardReturn => some (⟨1, 6, 2⟩, ⟨2, 0, 1⟩)
  | .adminLegacyPivExtensions => some (⟨2, 0, 0⟩, ⟨2, 0, 1⟩)
  | .adminLegacyOpenPgpTouch => some (⟨1, 3, 0⟩, ⟨1, 3, 0⟩)
  | .adminCtapPassReset => some (⟨3, 0, 0⟩, ⟨3, 1, 0⟩)
  | .adminNfc => some (⟨3, 0, 0⟩, ⟨3, 1, 0⟩)
  | .adminSm2 => some (⟨3, 0, 0⟩, ⟨3, 1, 0⟩)
  | .adminPassConfig => some (⟨3, 0, 0⟩, ⟨3, 1, 0⟩)
  | .adminPublicNfcStatus => some (⟨3, 0, 1⟩, ⟨3, 1, 0⟩)
  | .adminLegacySm2 => some (⟨3, 0, 0⟩, ⟨3, 0, 3⟩)
  | .pivProtectedAlgorithmConfigRead => some (⟨3, 0, 0⟩, ⟨3, 0, 3⟩)
  | .adminPublicConfiguration => some (⟨3, 1, 0⟩, ⟨3, 1, 0⟩)
  | .adminExtendedConfiguration => some (⟨3, 1, 0⟩, ⟨3, 1, 0⟩)
  | .certificateDeletion => some (⟨3, 1, 0⟩, ⟨3, 1, 0⟩)
  | .metadataDirectory => some (⟨3, 1, 0⟩, ⟨3, 1, 0⟩)
  | .containerNames => some (⟨3, 1, 0⟩, ⟨3, 1, 0⟩)
  | .keyMoveDelete => some (⟨3, 1, 0⟩, ⟨3, 1, 0⟩)
  | .retryReset => some (⟨3, 1, 0⟩, ⟨3, 1, 0⟩)
  | .algorithmConfigWrite => some (⟨3, 1, 0⟩, ⟨3, 1, 0⟩)
  | .sm2Agreement => some (⟨3, 1, 0⟩, ⟨3, 1, 0⟩)
  | .attestation => some (⟨3, 1, 0⟩, ⟨3, 1, 0⟩)
  | .piv | .metadata | .eccP256 | .eccP384 | .algorithmExtensions | .retiredSlots => none

/-- The observations that decide the extension capability, in the order they are asked. -/
def DeviceProfile.observedExtensions (p : DeviceProfile) : Option CapabilityStatus :=
  match p.legacyPivExtensions with
  | some enabled => some ⟨if enabled then .supported else .unsupported, .observed⟩
  | none =>
    if .optionalCommandUnsupported "algorithm_config" ∈ p.warnings then
      some ⟨.unsupported, .observed⟩
    else if .optionalCommandNeedsAuthentication "algorithm_config" ∈ p.warnings then
      some ⟨.unknown, .observed⟩
    else p.config.map fun config =>
      ⟨if config.enabled then .supported else .unsupported, .observed⟩

/-- The tail of `capability`: a threshold within the known versions. -/
def DeviceProfile.thresholdCapability (p : DeviceProfile) (feature : Capability) :
    CapabilityStatus :=
  let threshold : Version :=
    if feature = .eccP256 ∨ feature = .eccP384 then ⟨1, 3, 0⟩ else ⟨2, 0, 0⟩
  let fallback : CapabilityStatus :=
    ⟨if feature = .eccP256 ∧ p.pivVersion.isSome then .supported else .unknown,
      .latestKnownFallback⟩
  match p.base with
  | some v =>
    if Version.le ⟨1, 3, 0⟩ v && v.le ⟨3, 1, 0⟩ then
      ⟨if threshold.le v then .supported else .unsupported, .firmwareMatrix⟩
    else fallback
  | none => fallback

def DeviceProfile.capability (p : DeviceProfile) (feature : Capability) : CapabilityStatus :=
  match feature.range with
  | some (first, last) => p.firmwareRange first last
  | none =>
    if feature = .piv then
      ⟨if p.pivVersion.isSome then .supported else .unknown, .observed⟩
    else if feature = .algorithmExtensions then
      p.observedExtensions.getD (p.thresholdCapability feature)
    else p.thresholdCapability feature

def DeviceProfile.managementKeySupport (p : DeviceProfile) :
    ManagementKeyAlgorithm → CapabilityStatus
  | .tdes => p.firmwareRange ⟨1, 3, 0⟩ ⟨3, 0, 3⟩
  | .aes192 => p.firmwareRange ⟨3, 1, 0⟩ ⟨3, 1, 0⟩

def DeviceProfile.legacyExplicitLe (p : DeviceProfile) : Bool :=
  (p.firmwareRange ⟨1, 3, 0⟩ ⟨3, 0, 3⟩).support == .supported

/-- From 3.1 on, the AES management and randomized signing identifiers are no extensions. -/
def DeviceProfile.extensionWireId (p : DeviceProfile) (algorithm : Algorithm) : Option UInt8 :=
  match p.config.bind (·.wireId algorithm) with
  | none => none
  | some id =>
    if p.base.any (Version.le ⟨3, 1, 0⟩) ∧ id ∈ [0x0a, 0xff] then none else some id

/-- The identifiers used when no configuration was observed. -/
def fallbackWireId (legacy : Bool) : Algorithm → Option UInt8
  | .ed25519 => some (if legacy then 0x22 else 0xe0)
  | .rsa3072 => some (if legacy then 0x50 else 0x05)
  | .rsa4096 => some (if legacy then 0x51 else 0x16)
  | .x25519 => some (if legacy then 0x52 else 0xe1)
  | .secp256k1 => if legacy then some 0x53 else none
  | .sm2 => if legacy then some 0x54 else none
  | _ => none

def DeviceProfile.algorithmWireId (p : DeviceProfile) (algorithm : Algorithm) : Option UInt8 :=
  match algorithm with
  | .rsa1024 => some 0x06
  | .rsa2048 => some 0x07
  | .eccP256 => some 0x11
  | .eccP384 => some 0x14
  | _ =>
    if p.config.isSome then p.extensionWireId algorithm
    else fallbackWireId (p.base.any fun v => Version.le ⟨2, 0, 0⟩ v && v.lt ⟨3, 0, 0⟩) algorithm

def allAlgorithms : List Algorithm :=
  [.rsa1024, .rsa2048, .rsa3072, .rsa4096, .eccP256, .eccP384, .eccP521, .secp256k1, .sm2,
    .ed25519, .x25519, .mlDsa65, .mlKem768]

def DeviceProfile.algorithmFromWireId (p : DeviceProfile) (id : UInt8) : Option Algorithm :=
  allAlgorithms.find? fun a => p.algorithmWireId a == some id

def DeviceProfile.pivSlotSupport (p : DeviceProfile) (reference : UInt8) : CapabilityStatus :=
  if reference = 0x9a ∨ reference = 0x9c ∨ reference = 0x9d ∨ reference = 0x9e then
    p.firmwareRange ⟨1, 3, 0⟩ ⟨3, 1, 0⟩
  else if reference = 0x82 ∨ reference = 0x83 then p.firmwareRange ⟨2, 0, 0⟩ ⟨3, 1, 0⟩
  else if 0x84 ≤ reference ∧ reference ≤ 0x95 then p.firmwareRange ⟨3, 1, 0⟩ ⟨3, 1, 0⟩
  else ⟨.unsupported, .firmwareMatrix⟩

def DeviceProfile.algorithmConfigReadSupport (p : DeviceProfile) : CapabilityStatus :=
  if .optionalCommandUnsupported "algorithm_config" ∈ p.warnings then ⟨.unsupported, .observed⟩
  else p.firmwareRange ⟨3, 0, 0⟩ ⟨3, 1, 0⟩

/-- The first firmware an extension algorithm can be used on. -/
def Algorithm.extensionFirst : Algorithm → Version
  | .ed25519 | .x25519 => ⟨3, 0, 1⟩
  | .eccP521 | .mlDsa65 | .mlKem768 => ⟨3, 1, 0⟩
  | _ => ⟨2, 0, 0⟩

def DeviceProfile.extensionSupport (p : DeviceProfile) (algorithm : Algorithm) : Support :=
  match p.config with
  | none =>
    if (p.capability .adminLegacyPivExtensions).support = .supported then
      match p.legacyPivExtensions with
      | some true => .supported
      | some false => .unsupported
      | none => .unknown
    else .unknown
  | some config =>
    if (p.extensionWireId algorithm).isSome then .supported
    else if ¬ config.enabled ∨ (config.wireId algorithm).isSome then .unsupported
    else .unknown

def DeviceProfile.keyAlgorithmSupport (p : DeviceProfile) (algorithm : Algorithm) :
    CapabilityStatus :=
  let baseline := p.firmwareRange ⟨1, 3, 0⟩ ⟨3, 1, 0⟩
  if baseline.support ≠ .supported then baseline
  else match algorithm with
    | .rsa2048 | .eccP256 | .eccP384 => baseline
    | .rsa1024 => ⟨.unsupported, .firmwareMatrix⟩
    | _ =>
      let range := p.firmwareRange algorithm.extensionFirst ⟨3, 1, 0⟩
      if range.support ≠ .supported then range
      else ⟨p.extensionSupport algorithm, .observed⟩

def DeviceProfile.streamingSigningSupport (p : DeviceProfile) (algorithm : Algorithm) :
    CapabilityStatus :=
  if algorithm ≠ .mlDsa65 ∧ algorithm ≠ .ed25519 ∧ algorithm ≠ .sm2 then
    ⟨.unsupported, .firmwareMatrix⟩
  else
    let version := p.firmwareRange ⟨3, 1, 0⟩ ⟨3, 1, 0⟩
    if version.support ≠ .supported then version else p.keyAlgorithmSupport algorithm

def DeviceProfile.legacyEmptyKeyMetadata (p : DeviceProfile) : Bool :=
  p.base.any fun v => Version.le ⟨2, 0, 0⟩ v && v.lt ⟨3, 0, 0⟩

def DeviceProfile.sm2UsesP1363Signatures (p : DeviceProfile) : Bool :=
  p.base.any fun v => v == ⟨3, 1, 0⟩

def DeviceProfile.legacyUnwrappedObjects (p : DeviceProfile) : Bool :=
  p.base.any fun v => Version.le ⟨1, 3, 0⟩ v && v.lt ⟨1, 6, 1⟩

end CompatProfile
