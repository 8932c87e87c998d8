import LibCanokey.AdminTypes

/-! # Admin operations

The commands of the Admin applet, the parsers of its answers and the machine that sends a queue
of commands, to which a patch adds the writes of what it changes. -/
namespace AdminExecute

open BigEndian ListTraversal ProtocolError ProtocolApdu ProtocolConversation ProtocolOperation
open CompatProfile AdminTypes

def cmd (ins p1 p2 : UInt8) (data : Bytes) (read : Bool) : LogicalCommand :=
  { header := ⟨0, ins, p1, p2⟩
    data := data
    le := if read then .exact 256 else .absent
    correctLe := read
    continuation := if read then .iso7816 0 else .none }

def read (ins p1 : UInt8) : LogicalCommand := cmd ins p1 0 [] true

def write (ins p1 p2 : UInt8) (data : Bytes) : LogicalCommand := cmd ins p1 p2 data false

/-- A command without Le that the builders of the crate give the ISO continuation. -/
def plain (ins p1 p2 : UInt8) (data : Bytes) : LogicalCommand :=
  { header := ⟨0, ins, p1, p2⟩, data := data, le := .absent }

def select : LogicalCommand := plain 0xa4 4 0 [0xf0, 0, 0, 0, 0]

def sm2Valid (s : Sm2Configuration) : Except Error Unit :=
  if s.curveId = 0 ∨ (1 ≤ s.curveId ∧ s.curveId ≤ 8) ∨ (256 ≤ s.curveId ∧ s.curveId ≤ 259) ∨
      s.algorithmId ∈ [-7, -8, -49] then .error argument
  else .ok ()

inductive Stage where
  | select
  | authenticate
  | read
  | write (reprobe : Bool)
  deriving DecidableEq, Repr

/-- The capability that a request needs beside the applet. -/
def requestCapability (profile : DeviceProfile) : Request → Except Error Unit
  | .coreCommit => (profile.capability .adminExtendedConfiguration).require
  | .appletUsage => (profile.capability .adminExtendedConfiguration).require
  | .configureSm2 _ => (profile.capability .adminExtendedConfiguration).require
  | .setKeyboardInterface _ => (profile.capability .adminKeyboard).require
  | .setKeyboardReturn _ => (profile.capability .adminKeyboardReturn).require
  | .setLegacyPivExtensions _ => (profile.capability .adminLegacyPivExtensions).require
  | .setLegacyOpenPgpTouch _ => (profile.capability .adminLegacyOpenPgpTouch).require
  | .writeLegacySm2 _ => (profile.capability .adminLegacySm2).require
  | .resetApplet applet =>
    if applet = .ctap ∨ applet = .pass then (profile.capability .adminCtapPassReset).require
    else .ok ()
  | .passConfiguration => (profile.capability .adminPassConfig).require
  | .setPassConfiguration _ => (profile.capability .adminPassConfig).require
  | .passSlots => (profile.capability .adminPassConfig).require
  | .setPassSlot _ _ => (profile.capability .adminPassConfig).require
  | .nfcStatus => (profile.capability .adminNfc).require
  | .setNfc _ => (profile.capability .adminNfc).require
  | .sm2Configuration => (profile.capability .adminSm2).require
  | .configure p => do
    if p.ndefEnabled.isSome ∨ p.webusbLanding.isSome then
      (profile.capability .adminNdefWebUsb).require
    if p.featureMask ≠ 0 then (profile.capability .adminExtendedConfiguration).require
  | _ => .ok ()

/-- Reads behind the PIN: always for PASS, otherwise before the firmware made them public. -/
def protectedRead (profile : DeviceProfile) : Request → Bool
  | .passSlots => true
  | .passConfiguration => true
  | .configuration => (profile.capability .adminPublicConfiguration).support == .unsupported
  | .flashUsage => (profile.capability .adminPublicConfiguration).support == .unsupported
  | .nfcStatus => (profile.capability .adminPublicNfcStatus).support == .unsupported
  | _ => false

def protectedRequest : Request → Bool
  | .verifyPin => true
  | .changePin _ => true
  | .configure _ => true
  | .setNfc _ => true
  | .sm2Configuration => true
  | .configureSm2 _ => true
  | .resetApplet _ => true
  | .setKeyboardInterface _ => true
  | .setKeyboardReturn _ => true
  | .setLegacyPivExtensions _ => true
  | .setLegacyOpenPgpTouch _ => true
  | .writeLegacySm2 _ => true
  | .setKeyboardKeymap _ _ => true
  | .clearKeyboardKeymap => true
  | .setPassConfiguration _ => true
  | .setPassSlot _ _ => true
  | _ => false

def isVerifyPin : Request → Bool
  | .verifyPin => true
  | _ => false

/-- Requests that reject a PIN, which would be a hidden attempt. -/
def rejectsPin : Request → Bool
  | .pinStatus => true
  | .factoryReset => true
  | _ => false

def checkAccess (profile : DeviceProfile) (request : Request) (access : Access) :
    Except Error Unit :=
  match access with
  | .none =>
    if protectedRead profile request || protectedRequest request then
      .error (.new .securityStatusNotSatisfied)
    else .ok ()
  | .existing => if isVerifyPin request then .error argument else .ok ()
  | .pin _ => if rejectsPin request then .error argument else .ok ()

/-- The bits that a patch may select. -/
def featureBits : UInt8 := 0x3f

def checkPatch : Request → Except Error Unit
  | .configure p =>
    if p.featureMask &&& ~~~featureBits ≠ 0 ∨ p.featureValues &&& ~~~p.featureMask ≠ 0 then
      .error argument
    else .ok ()
  | .configureSm2 p => sm2Valid ⟨p.curveId.getD 9, p.algorithmId.getD (-54)⟩
  | _ => .ok ()

def Applet.resetInstruction : Applet → UInt8
  | .openPgp => 3
  | .piv => 4
  | .oath => 5
  | .ndef => 7
  | .ctap => 9
  | .pass => 0x13

def touchCommand : LegacyOpenPgpTouch → LogicalCommand
  | .signature on => write 9 0 on.toUInt8 []
  | .decryption on => write 9 1 on.toUInt8 []
  | .authentication on => write 9 2 on.toUInt8 []
  | .cacheSeconds seconds => write 9 3 seconds []

def readConfiguration : LogicalCommand := read 0x42 0

def target : Request → Except Error (Option LogicalCommand × Stage)
  | .firmware => .ok (some (read 0x31 0), .read)
  | .model => .ok (some (read 0x31 1), .read)
  | .serial => .ok (some (read 0x32 0), .read)
  | .chipId => .ok (some (read 0x32 1), .read)
  | .coreCommit => .ok (some (read 0x31 2), .read)
  | .configuration => .ok (some readConfiguration, .read)
  | .configure _ => .ok (some readConfiguration, .read)
  | .flashUsage => .ok (some (read 0x41 0), .read)
  | .appletUsage => .ok (some (read 0x41 1), .read)
  | .keyboardLayout => .ok (some (read 0x46 0), .read)
  | .keyboardKeymap => .ok (some (read 0x46 1), .read)
  | .setKeyboardKeymap layoutId keymap => .ok (some (plain 0x45 0 layoutId keymap.1), .write true)
  | .clearKeyboardKeymap => .ok (some (plain 0x47 0 0 []), .write true)
  | .passConfiguration => .ok (some (read 0x43 0), .read)
  | .setPassConfiguration data => .ok (some (plain 0x44 0 0 data), .write true)
  | .passSlots => .ok (some (read 0x43 0), .read)
  | .setPassSlot slot config =>
    config.encode.map fun data => (some (write 0x44 slot.wire 0 data), .write true)
  | .pinStatus => .ok (some (write 0x20 0 0 []), .read)
  | .verifyPin => .ok (none, .read)
  | .changePin p => .ok (some (write 0x21 0 0 p.bytes), .write false)
  | .nfcStatus => .ok (some (read 0x14 0), .read)
  | .setNfc on => .ok (some (write 0x14 1 on.toUInt8 []), .write true)
  | .sm2Configuration => .ok (some (read 0x11 0), .read)
  | .configureSm2 _ => .ok (some (read 0x11 0), .read)
  | .resetApplet a => .ok (some (write (Applet.resetInstruction a) 0 0 []), .write true)
  | .setKeyboardInterface on => .ok (some (write 0x40 3 on.toUInt8 []), .write true)
  | .setKeyboardReturn on => .ok (some (write 0x40 6 on.toUInt8 []), .write true)
  | .setLegacyPivExtensions on => .ok (some (write 0x40 7 on.toUInt8 []), .write true)
  | .setLegacyOpenPgpTouch t => .ok (some (touchCommand t), .write true)
  | .writeLegacySm2 config => .ok (some (write 0x12 0 0 config.raw), .write true)
  | .factoryReset => .ok (some (write 0x50 0 0 [0x52, 0x45, 0x53, 0x45, 0x54]), .write true)

/-- SELECT and VERIFY, as the access says. -/
def preamble : Access → List (LogicalCommand × Stage)
  | .existing => []
  | .none => [(select, .select)]
  | .pin pin => [(select, .select), (write 0x20 0 0 pin.bytes, .authenticate)]

def withLe (explicitLe : Bool) (c : LogicalCommand) : LogicalCommand :=
  if explicitLe ∧ c.le = .absent then { c with le := .exact 256 } else c

def queue (explicitLe : Bool) (access : Access) (own : Option LogicalCommand × Stage) :
    List (LogicalCommand × Stage) :=
  (preamble access ++ own.1.toList.map fun c => (c, own.2)).map
    fun entry => (withLe explicitLe entry.1, entry.2)

def validateQueue (options : OperationOptions) (queue : List (LogicalCommand × Stage)) :
    Except Error Unit :=
  queue.forM fun entry => validateCommand entry.1 options

/-- The shape of the commands that a patch adds later. -/
def validatePatch (options : OperationOptions) : Request → Except Error Unit
  | .configure _ => validateCommand (write 0x12 0 0 []) options
  | .configureSm2 _ => validateCommand (write 0x12 0 0 (List.replicate 8 0)) options
  | _ => .ok ()

structure Admin where
  queue : List (LogicalCommand × Stage)
  pending : Option Stage
  request : Request
  options : OperationOptions
  profile : DeviceProfile
  outcome : Option Outcome

/-- A flag that a patch may set: its value, the old one if the layout has it, and its command. -/
structure Setting where
  value : Option Bool
  old : Option Bool
  ins : UInt8
  p1 : UInt8

def Setting.command (setting : Setting) (value : Bool) : LogicalCommand :=
  if setting.ins = 8 then write 8 value.toUInt8 0 []
  else write setting.ins setting.p1 value.toUInt8 []

def settings (p : ConfigurationPatch) (ledOn ndefReadOnly ndefEnabled webusbLanding : Option Bool) :
    List Setting :=
  [⟨p.ledOn, ledOn, 0x40, 1⟩, ⟨p.ndefReadOnly, ndefReadOnly, 8, 0⟩,
    ⟨p.ndefEnabled, ndefEnabled, 0x40, 4⟩, ⟨p.webusbLanding, webusbLanding, 0x40, 5⟩]

/-- One turn of the loop over the settings of a layout before 3.1. -/
def legacyStep (options : OperationOptions) (writes : List LogicalCommand) (setting : Setting) :
    Except Error (List LogicalCommand) :=
  match setting.value with
  | none => .ok writes
  | some value =>
    match setting.old with
    | none => .error (.new .unsupportedFeature)
    | some old =>
      if value = old then .ok writes
      else do
        let c := { setting.command value with le := .exact 256 }
        validateCommand c options
        .ok (writes ++ [c])

def legacyWrites (options : OperationOptions) (config : LegacyConfiguration)
    (p : ConfigurationPatch) : Except Error (List LogicalCommand) :=
  (settings p (some config.ledOn) (some config.ndefReadOnly) config.ndefEnabled
    config.webusbLanding).foldlM (legacyStep options) []

def Setting.changes (setting : Setting) : List LogicalCommand :=
  match setting.value with
  | none => []
  | some value => if some value = setting.old then [] else [setting.command value]

/-- The features after a patch; the bits it does not select stay. -/
def patchedFeatures (old : UInt8) (p : ConfigurationPatch) : UInt8 :=
  (old &&& ~~~p.featureMask) ||| p.featureValues

/-- The mask is written whole, so that an unknown bit cannot be kept. -/
def featureWrite (old : UInt8) (p : ConfigurationPatch) : Except Error (List LogicalCommand) :=
  if patchedFeatures old p = old then .ok []
  else if patchedFeatures old p &&& ~~~featureBits ≠ 0 then
    .error (.new .unsupportedProtocolVersion)
  else .ok [write 0x40 6 (patchedFeatures old p) []]

def featureWrites (options : OperationOptions) (config : Configuration) (p : ConfigurationPatch) :
    Except Error (List LogicalCommand) := do
  let flags := (settings p (some config.ledOn) (some config.ndefReadOnly) (some config.ndefEnabled)
    (some config.webusbLanding)).flatMap Setting.changes
  let features ← featureWrite config.features p
  (flags ++ features).forM fun c => validateCommand c options
  .ok (flags ++ features)

/-- `Admin::patch`: the writes of what the patch changes, all checked before the first. -/
def patchWrites (profile : DeviceProfile) (options : OperationOptions) (raw : Bytes)
    (p : ConfigurationPatch) : Except Error (List LogicalCommand) := do
  let layout ← profile.adminConfigurationLayout
  if layout ≠ .features then do
    let config ← LegacyConfiguration.parse profile raw
    legacyWrites options config p
  else do
    let config ← Configuration.parse raw
    featureWrites options config p

def pinStatus (sw : StatusWord) : Option PinStatus :=
  if sw.raw = 0x9000 then some ⟨true, none, false⟩
  else if sw.raw &&& 0xfff0 = 0x63c0 then
    some ⟨false, some (sw.raw &&& 15).toUInt8, sw.raw == 0x63c0⟩
  else if sw.raw = 0x6983 then some ⟨false, none, true⟩
  else none

def appletUsage (r : Bytes) : AppletUsage :=
  ⟨r.getD 0 0, r.getD 1 0, UInt32.ofNat (ofBeBytes (r.drop 2))⟩

/-- The writes that an answer adds and the value it gives. -/
abbrev Parsed := List LogicalCommand × Value

def parseConfiguration (profile : DeviceProfile) (raw : Bytes) : Except Error Value := do
  if (← profile.adminConfigurationLayout) = .features then
    (Configuration.parse raw).map .configuration
  else (LegacyConfiguration.parse profile raw).map .legacyConfiguration

def parseSm2 (profile : DeviceProfile) (raw : Bytes) : Except Error Value :=
  if (profile.capability .adminLegacySm2).support = .supported then
    (LegacySm2Configuration.fromBytes raw).map .legacySm2Configuration
  else (Sm2Configuration.parse raw).map .sm2Configuration

/-- The other identifier is kept; an unchanged configuration is not written. -/
def sm2Writes (raw : Bytes) (p : Sm2Patch) : Except Error (List LogicalCommand) := do
  let old ← Sm2Configuration.parse raw
  let new : Sm2Configuration := ⟨p.curveId.getD old.curveId, p.algorithmId.getD old.algorithmId⟩
  if new = old then .ok []
  else do
    sm2Valid new
    .ok [write 0x12 0 0 new.toBytes]

def parseValue (s : Admin) (raw : Bytes) : Except Error Parsed :=
  match s.request with
  | .firmware => .ok ([], .bytes raw)
  | .model => .ok ([], .bytes raw)
  | .serial => if raw.length ≠ 4 then .error invalid else .ok ([], .bytes raw)
  | .chipId => .ok ([], .bytes raw)
  | .coreCommit => .ok ([], .bytes raw)
  | .configuration => (parseConfiguration s.profile raw).map fun value => ([], value)
  | .configure p => (patchWrites s.profile s.options raw p).map fun writes => (writes, .none)
  | .sm2Configuration => (parseSm2 s.profile raw).map fun value => ([], value)
  | .configureSm2 p => (sm2Writes raw p).map fun writes => (writes, .none)
  | .flashUsage =>
    match raw with
    | [used, total] => .ok ([], .flashUsage ⟨used, total⟩)
    | _ => .error invalid
  | .appletUsage =>
    if raw.length ≠ 48 then .error invalid
    else .ok ([], .appletUsage ((chunks 6 8 raw).map appletUsage))
  | .keyboardLayout =>
    match raw with
    | [layout] => .ok ([], .keyboardLayout layout)
    | _ => .error invalid
  | .keyboardKeymap => (KeyboardKeymap.fromBytes raw).map fun k => ([], .keyboardKeymap k)
  | .setKeyboardKeymap _ _ => .ok ([], .none)
  | .clearKeyboardKeymap => .ok ([], .none)
  | .passConfiguration => .ok ([], .bytes raw)
  | .setPassConfiguration _ => .ok ([], .none)
  | .passSlots => (PassSlots.parse raw).map fun slots => ([], .passSlots slots)
  | .setPassSlot _ _ => .ok ([], .none)
  | .nfcStatus =>
    match raw with
    | [on] => if on > 1 then .error invalid else .ok ([], .nfcStatus (on != 0))
    | _ => .error invalid
  | _ => .error invalid

def isPinStatus : Request → Bool
  | .pinStatus => true
  | _ => false

/-- An answer to a read, of which only an empty VERIFY may come with another status. -/
def Admin.parsed (s : Admin) (r : ResponseData) : Except Error Parsed :=
  if isPinStatus s.request then
    if r.data ≠ [] then .error invalid
    else match pinStatus r.status with
      | some status => .ok ([], .pinStatus status)
      | none => .error (Error.status r.status .authentication (some .adminPin))
  else do
    r.ensureSuccess .command
    parseValue s r.data

/-- `self.outcome()?`. -/
def Admin.withOutcome (s : Admin) (f : Outcome → Outcome) : Except Error Admin :=
  match s.outcome with
  | none => .error invalid
  | some outcome => .ok { s with outcome := some (f outcome) }

def Admin.parse (s : Admin) (r : ResponseData) : Except Error Admin := do
  let (writes, value) ← s.parsed r
  { s with queue := s.queue ++ writes.map fun c => (c, Stage.write true) }.withOutcome
    fun outcome => { outcome with value := value }

def Stage.phase : Stage → Phase
  | .select => .select
  | .authenticate => .authentication
  | _ => .command

/-- An answer to a command that is no read: empty and successful. -/
def Admin.acknowledged (s : Admin) (stage : Stage) (r : ResponseData) : Except Error Admin :=
  if ¬ r.status.isSuccess then
    .error
      (Error.status r.status stage.phase (if stage = .authenticate then some .adminPin else none))
  else if r.data ≠ [] then .error invalid
  else match stage with
    | .write _ =>
      s.withOutcome fun outcome => { outcome with confirmedWrites := outcome.confirmedWrites + 1 }
    | _ => .ok s

def Admin.answered (s : Admin) (stage : Stage) (r : ResponseData) : Except Error Admin :=
  if stage = .read then s.parse r else s.acknowledged stage r

/-- A write that changes what a profile was made from asks for a new probe. -/
def Admin.reprobe (s : Admin) (stage : Stage) : Except Error Admin :=
  if stage = .write true then s.withOutcome fun outcome => { outcome with reprobeRequired := true }
  else .ok s

def Admin.pop (s : Admin) : Except Error (Action Outcome) × Admin :=
  match s.queue with
  | (c, stage) :: rest =>
    match { s with queue := rest }.reprobe stage with
    | .error e => (.error e, { s with queue := rest })
    | .ok s => (.ok (.command c), { s with pending := some stage })
  | [] =>
    match s.outcome with
    | none => (.error invalid, s)
    | some outcome => (.ok (.done outcome), { s with outcome := none })

def Admin.next (s : Admin) (response : Option ResponseData) :
    Except Error (Action Outcome) × Admin :=
  match response with
  | none => s.pop
  | some r =>
    match s.pending with
    | none => (.error invalid, s)
    | some stage =>
      match { s with pending := none }.answered stage r with
      | .error e => (.error e, { s with pending := none })
      | .ok s => s.pop

def admin : Machine Admin Outcome where
  next := Admin.next
  progress := fun s => s.outcome
  takeProgress := fun s => (s.outcome, { s with outcome := none })

def operationWithAccess (profile : DeviceProfile) (request : Request) (access : Access)
    (options : OperationOptions) : Except Error (Operation Admin Outcome) := do
  (profile.capability .admin).require
  requestCapability profile request
  checkAccess profile request access
  checkPatch request
  let own ← target request
  let queue := queue profile.legacyExplicitLe access own
  validateQueue options queue
  validatePatch options request
  Operation.fromMachine ⟨queue, none, request, options, profile, some ⟨.none, 0, false⟩⟩ options

def operation (profile : DeviceProfile) (request : Request) (pin : Option Pin)
    (options : OperationOptions) : Except Error (Operation Admin Outcome) :=
  operationWithAccess profile request (match pin with | some pin => .pin pin | none => .none)
    options

end AdminExecute
