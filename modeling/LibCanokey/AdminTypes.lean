import LibCanokey.CompatProfile
import LibCanokey.ProtocolOperation

/-! # Admin configuration and requests

The device configuration in the layouts of its firmware, the other inputs of the Admin applet
that cannot hold an invalid value, its requests and what they return. -/
namespace CompatProfile

open ProtocolError

/-- How READ CONFIG is laid out. -/
inductive AdminConfigurationLayout where
  | touchPolicies
  | basic
  | keyboardReturn
  | reserved
  | features
  deriving DecidableEq, Repr

def DeviceProfile.adminConfigurationLayout (p : DeviceProfile) :
    Except Error AdminConfigurationLayout := do
  (p.capability .admin).require
  match p.base with
  | none => .error (.new .capabilityUnknown)
  | some v =>
    if v = ⟨1, 3, 0⟩ then .ok .touchPolicies
    else if v.lt ⟨1, 6, 2⟩ then .ok .basic
    else if v.lt ⟨3, 0, 0⟩ then .ok .keyboardReturn
    else if v.lt ⟨3, 1, 0⟩ then .ok .reserved
    else .ok .features

end CompatProfile

namespace AdminTypes

open BigEndian ProtocolError CompatProfile

def argument : Error := .new .invalidArgument

def invalid : Error := (Error.new .invalidResponse).atPhase .parsing

/-- A table of 128 modifier and usage pairs. -/
abbrev KeyboardKeymap := {b : Bytes // b.length = 256}

def KeyboardKeymap.fromBytes (bytes : Bytes) : Except Error KeyboardKeymap :=
  if h : bytes.length = 256 then .ok ⟨bytes, h⟩ else .error argument

/-- An unpadded Admin PIN of six through 64 bytes. -/
structure Pin where
  bytes : Bytes
  bounded : 6 ≤ bytes.length ∧ bytes.length ≤ 64

def Pin.fromBytes (bytes : Bytes) : Except Error Pin :=
  if h : 6 ≤ bytes.length ∧ bytes.length ≤ 64 then .ok ⟨bytes, h⟩
  else .error (.new .invalidPin)

inductive Access where
  | existing
  | none
  | pin (pin : Pin)

/-- A byte of a configuration as a flag. -/
def flag (raw : Bytes) (i : ℕ) : Bool := raw.getD i 0 != 0

/-- Six bytes, of which the flags are Boolean. -/
structure Configuration where
  raw : Bytes
  length : raw.length = 6
  flags : ∀ i ∈ [0, 2, 3, 4], raw.getD i 0 ≤ 1

def Configuration.parse (data : Bytes) : Except Error Configuration :=
  if h : data.length = 6 ∧ ∀ i ∈ [0, 2, 3, 4], data.getD i 0 ≤ 1 then .ok ⟨data, h.1, h.2⟩
  else .error invalid

def Configuration.ledOn (c : Configuration) : Bool := flag c.raw 0
def Configuration.ndefReadOnly (c : Configuration) : Bool := flag c.raw 2
def Configuration.ndefEnabled (c : Configuration) : Bool := flag c.raw 3
def Configuration.webusbLanding (c : Configuration) : Bool := flag c.raw 4
def Configuration.features (c : Configuration) : UInt8 := c.raw.getD 5 0

/-- The length of a layout before 3.1 and the places of its flags. -/
def layoutShape : AdminConfigurationLayout → Option (ℕ × List ℕ)
  | .touchPolicies => some (7, [0, 1, 2])
  | .basic => some (5, [0, 1, 2, 3, 4])
  | .keyboardReturn => some (6, [0, 1, 2, 3, 4, 5])
  | .reserved => some (6, [0, 2, 3, 4])
  | .features => none

structure LegacyConfiguration where
  raw : Bytes
  layout : AdminConfigurationLayout
  fits : ∃ n flags, layoutShape layout = some (n, flags) ∧ raw.length = n ∧
    ∀ i ∈ flags, raw.getD i 0 ≤ 1

/-- The layout is the profile's, whatever the length of the bytes suggests. -/
def LegacyConfiguration.parse (profile : DeviceProfile) (bytes : Bytes) :
    Except Error LegacyConfiguration := do
  let layout ← profile.adminConfigurationLayout
  match hs : layoutShape layout with
  | none => .error argument
  | some (n, flags) =>
    if h : bytes.length = n ∧ ∀ i ∈ flags, bytes.getD i 0 ≤ 1 then
      .ok ⟨bytes, layout, n, flags, hs, h.1, h.2⟩
    else .error invalid

def LegacyConfiguration.ledOn (c : LegacyConfiguration) : Bool := flag c.raw 0
def LegacyConfiguration.ndefReadOnly (c : LegacyConfiguration) : Bool := flag c.raw 2

/-- Absent on 1.3. -/
def LegacyConfiguration.ndefEnabled (c : LegacyConfiguration) : Option Bool :=
  if c.layout ≠ .touchPolicies then some (flag c.raw 3) else none

def LegacyConfiguration.webusbLanding (c : LegacyConfiguration) : Option Bool :=
  if c.layout ≠ .touchPolicies then some (flag c.raw 4) else none

/-- Absent from 3.0 on. -/
def LegacyConfiguration.keyboardInterface (c : LegacyConfiguration) : Option Bool :=
  if c.layout ≠ .reserved then some (flag c.raw 1) else none

def LegacyConfiguration.keyboardReturn (c : LegacyConfiguration) : Option Bool :=
  if c.layout = .keyboardReturn then some (flag c.raw 5) else none

/-- The flags of the three keys and the seconds, as 1.3 stores them. -/
def LegacyConfiguration.openPgpTouch (c : LegacyConfiguration) : Option Bytes :=
  if c.layout = .touchPolicies then some ((c.raw.drop 3).take 4) else none

/-- An enable flag and eight bytes in the layout of the device. -/
structure LegacySm2Configuration where
  raw : Bytes
  length : raw.length = 9
  flag : raw.getD 0 0 ≤ 1

def LegacySm2Configuration.fromBytes (bytes : Bytes) : Except Error LegacySm2Configuration :=
  if h : bytes.length = 9 ∧ bytes.getD 0 0 ≤ 1 then .ok ⟨bytes, h.1, h.2⟩ else .error invalid

inductive LegacyOpenPgpTouch where
  | signature (on : Bool)
  | decryption (on : Bool)
  | authentication (on : Bool)
  | cacheSeconds (seconds : UInt8)

structure ConfigurationPatch where
  ledOn : Option Bool := none
  ndefReadOnly : Option Bool := none
  ndefEnabled : Option Bool := none
  webusbLanding : Option Bool := none
  featureMask : UInt8 := 0
  featureValues : UInt8 := 0

structure FlashUsage where
  usedKib : UInt8
  totalKib : UInt8

structure AppletUsage where
  appletId : UInt8
  flags : UInt8
  logicalBytes : UInt32

structure Sm2Configuration where
  curveId : Int32
  algorithmId : Int32
  deriving DecidableEq

def signed (bytes : Bytes) : Int32 := (UInt32.ofNat (ofBeBytes bytes)).toInt32

def Sm2Configuration.parse (bytes : Bytes) : Except Error Sm2Configuration :=
  if bytes.length ≠ 8 then .error invalid
  else .ok ⟨signed (bytes.take 4), signed (bytes.drop 4)⟩

def Sm2Configuration.toBytes (s : Sm2Configuration) : Bytes :=
  toBeBytes 4 s.curveId.toUInt32.toNat ++ toBeBytes 4 s.algorithmId.toUInt32.toNat

structure Sm2Patch where
  curveId : Option Int32 := none
  algorithmId : Option Int32 := none

inductive Applet where
  | openPgp
  | piv
  | oath
  | ndef
  | ctap
  | pass
  deriving DecidableEq, Repr

inductive PassSlotId where
  | short
  | long
  deriving DecidableEq, Repr

def PassSlotId.wire : PassSlotId → UInt8
  | .short => 1
  | .long => 2

inductive PassSlotState where
  | off
  | static (appendEnter : Bool)
  | hmacSha1
  | oath (name : Bytes) (appendEnter : Bool)
  | unknown (type : UInt8)

inductive PassSlotConfig where
  | off
  | static (password : Bytes) (appendEnter : Bool)
  | hmacSha1 (key : Bytes)

def PassSlotConfig.encode : PassSlotConfig → Except Error Bytes
  | .off => .ok [0x00]
  | .static p appendEnter =>
    if p.length > 32 ∨ ¬ p.all (fun b => 0x20 ≤ b && b ≤ 0x7e) then .error argument
    else .ok ([0x02, UInt8.ofNat p.length] ++ p ++ [appendEnter.toUInt8])
  | .hmacSha1 k => if k.length ≠ 20 then .error argument else .ok ([0x03, 0x14] ++ k)

structure PassSlots where
  short : PassSlotState
  long : PassSlotState

/-- A flag byte of a slot. -/
def enterFlag (enter : UInt8) : Except Error Bool :=
  if enter > 1 then .error invalid else .ok (enter != 0)

/-- One slot and the number of bytes it takes. -/
def PassSlotState.parsePrefix (raw : Bytes) : Except Error (PassSlotState × ℕ) :=
  match raw with
  | [] => .error invalid
  | type :: rest =>
    if type = 0x00 then .ok (.off, 1)
    else if type = 0x02 then
      match rest with
      | [] => .error invalid
      | enter :: _ => (enterFlag enter).map fun on => (.static on, 2)
    else if type = 0x03 then .ok (.hmacSha1, 1)
    else if type = 0x01 then
      match rest with
      | [] => .error invalid
      | len :: rest =>
        if rest.length < len.toNat + 1 then .error invalid
        else (enterFlag (rest.getD len.toNat 0)).map fun on =>
          (.oath (rest.take len.toNat) on, len.toNat + 3)
    else .ok (.unknown type, 1)

def PassSlots.parse (raw : Bytes) : Except Error PassSlots := do
  let (short, n) ← PassSlotState.parsePrefix raw
  let (long, m) ← PassSlotState.parsePrefix (raw.drop n)
  if n + m ≠ raw.length then .error invalid else .ok ⟨short, long⟩

inductive Request where
  | firmware
  | model
  | serial
  | chipId
  | coreCommit
  | configuration
  | flashUsage
  | appletUsage
  | keyboardLayout
  | keyboardKeymap
  | setKeyboardKeymap (layoutId : UInt8) (keymap : KeyboardKeymap)
  | clearKeyboardKeymap
  | passConfiguration
  | setPassConfiguration (data : Bytes)
  | passSlots
  | setPassSlot (slot : PassSlotId) (config : PassSlotConfig)
  | pinStatus
  | verifyPin
  | changePin (pin : Pin)
  | configure (patch : ConfigurationPatch)
  | setKeyboardInterface (on : Bool)
  | setKeyboardReturn (on : Bool)
  | setLegacyPivExtensions (on : Bool)
  | setLegacyOpenPgpTouch (touch : LegacyOpenPgpTouch)
  | writeLegacySm2 (config : LegacySm2Configuration)
  | nfcStatus
  | setNfc (on : Bool)
  | sm2Configuration
  | configureSm2 (patch : Sm2Patch)
  | resetApplet (applet : Applet)
  | factoryReset

structure PinStatus where
  verified : Bool
  retriesRemaining : Option UInt8
  blocked : Bool
  deriving DecidableEq, Repr

inductive Value where
  | none
  | bytes (bytes : Bytes)
  | configuration (config : Configuration)
  | legacyConfiguration (config : LegacyConfiguration)
  | legacySm2Configuration (config : LegacySm2Configuration)
  | flashUsage (usage : FlashUsage)
  | appletUsage (usage : List AppletUsage)
  | keyboardLayout (layout : UInt8)
  | keyboardKeymap (keymap : KeyboardKeymap)
  | pinStatus (status : PinStatus)
  | passSlots (slots : PassSlots)
  | nfcStatus (on : Bool)
  | sm2Configuration (config : Sm2Configuration)

structure Outcome where
  value : Value
  confirmedWrites : ℕ
  reprobeRequired : Bool

end AdminTypes
