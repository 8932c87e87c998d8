import Mathlib.Data.List.DropRight
import LibCanokey.CompatProfile

/-! # Profiles from observations

The firmware text as a version, the normalization of one device's observations and every
profile that it and the caller's confirmation can produce. -/
namespace CompatProfile

open BigEndian ProtocolError

/-- The Unicode White_Space characters, which `trim` removes. -/
def isWhitespace (c : Char) : Bool :=
  (9 ≤ c.toNat && c.toNat ≤ 13) || (0x2000 ≤ c.toNat && c.toNat ≤ 0x200a) ||
    c.toNat ∈ [0x20, 0x85, 0xa0, 0x1680, 0x2028, 0x2029, 0x202f, 0x205f, 0x3000]

def trim (text : List Char) : List Char := (text.dropWhile isWhitespace).rdropWhile isWhitespace

/-- `strip_prefix('v')`, or the text itself. -/
def stripV : List Char → List Char
  | 'v' :: rest => rest
  | text => text

def startsSuffix (c : Char) : Bool := c == '-' || c == '+'

/-- A suffix is absent or has an alphanumeric character after its sign. -/
def validSuffix : List Char → Bool
  | [] => true
  | [_] => false
  | _ :: second :: rest =>
    second.isAlphanum && rest.all fun c => c.isAlphanum || c ∈ ['.', '+', '-']

/-- `parse::<u16>` on decimal digits. -/
def component (digits : List Char) : Option ℕ :=
  let value := digits.foldl (fun n c => n * 10 + (c.toNat - '0'.toNat)) 0
  if value < 2 ^ 16 then some value else none

def validNumbers (numbers : List (List Char)) : Bool :=
  2 ≤ numbers.length && numbers.length ≤ 3 && numbers.all fun n => !n.isEmpty && n.all Char.isDigit

def FirmwareVersion.parse (text : List Char) : Option FirmwareVersion :=
  let text := stripV (trim text)
  let numbers := (text.takeWhile fun c => !startsSuffix c).splitOn '.'
  let suffix := text.dropWhile fun c => !startsSuffix c
  if ¬ validSuffix suffix ∨ ¬ validNumbers numbers then none
  else
    match component (numbers.getD 0 []), component (numbers.getD 1 []),
      component (numbers.getD 2 ['0']) with
    | some major, some minor, some patch =>
      some ⟨major, minor, patch, if suffix = [] then none else some (String.ofList suffix)⟩
    | _, _, _ => none

structure DeviceObservations where
  firmwareText : Bytes
  serial : Option Bytes := none
  pivVersion : Option (UInt8 × UInt8 × UInt8) := none
  algorithmConfig : Option AlgorithmConfig := none
  warnings : List CompatibilityWarning := []

def parseFirmware (text : Bytes) : Option FirmwareVersion :=
  (String.fromUTF8? ⟨text.toArray⟩).bind fun s => FirmwareVersion.parse s.toList

/-- The warning that the firmware adds. -/
def firmwareWarning : Option FirmwareVersion → List CompatibilityWarning
  | none => [.unrecognizedFirmware]
  | some v =>
    if Version.lt ⟨3, 1, 0⟩ v.compatibilityBase then [.latestKnownFallback]
    else if v.suffix.isSome then [.declaredBaseVersion]
    else []

def DeviceProfile.fromObservations (observations : DeviceObservations) :
    Except Error DeviceProfile :=
  if observations.firmwareText = [] ∨ observations.firmwareText.length > 256 ∨
      observations.serial.any (fun s => s.length != 4) then .error invalidResponse
  else
    let firmware := parseFirmware observations.firmwareText
    .ok
      { firmware := firmware
        pivVersion := observations.pivVersion
        config := observations.algorithmConfig
        legacyPivExtensions := none
        warnings := observations.warnings ++ firmwareWarning firmware }

def DeviceProfile.withLegacyPivExtensions (p : DeviceProfile) (enabled : Bool) :
    Except Error DeviceProfile := do
  (p.capability .adminLegacyPivExtensions).require
  if p.config.isSome then .error (.new .invalidArgument)
  else .ok { p with legacyPivExtensions := some enabled }

/-- The only source of a configuration is its parser, and of a profile these two functions. -/
inductive Built : DeviceProfile → Prop where
  | observed {observations : DeviceObservations} {p : DeviceProfile}
      (hconfig : ∀ config, observations.algorithmConfig = some config →
        ∃ data, AlgorithmConfig.parse data = .ok config)
      (h : DeviceProfile.fromObservations observations = .ok p) : Built p
  | confirmed {p q : DeviceProfile} {enabled : Bool} (hp : Built p)
      (h : p.withLegacyPivExtensions enabled = .ok q) : Built q

example : FirmwareVersion.parse "v3.1-dev".toList = some ⟨3, 1, 0, some "-dev"⟩ := by decide

end CompatProfile
