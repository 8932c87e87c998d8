import LibCanokey.CompatProfile
import LibCanokey.ProtocolOperation
import LibCanokey.ProtocolTlvRoundTrip

/-! # PIV commands and request sequences

Credentials, slots and object identifiers that cannot hold an invalid value, the builders of
logical commands over them and the machine of a prebuilt sequence of requests. -/
namespace PivCommand

open BigEndian ListTraversal ProtocolError ProtocolApdu ProtocolConversation ProtocolOperation
open ProtocolTlv CompatProfile

/-- A user PIN or an unblocking key, of one to eight bytes. -/
structure Secret where
  bytes : Bytes
  nonempty : 1 ≤ bytes.length
  short : bytes.length ≤ 8
  deriving DecidableEq

abbrev Pin := Secret
abbrev Puk := Secret

def invalidPin : Error := .new .invalidPin

def Secret.fromLegacyBytes (bytes : Bytes) : Except Error Secret :=
  if h : 1 ≤ bytes.length ∧ bytes.length ≤ 8 then .ok ⟨bytes, h.1, h.2⟩ else .error invalidPin

def Secret.fromBytes (bytes : Bytes) : Except Error Secret :=
  if h : (6 ≤ bytes.length ∧ bytes.length ≤ 8) ∧ 0xff ∉ bytes then
    .ok ⟨bytes, by omega, h.1.2⟩
  else .error invalidPin

/-- A retired-slot index, 1 to 20. -/
structure RetiredSlot where
  index : UInt8
  lower : 1 ≤ index
  upper : index ≤ 20
  deriving DecidableEq

def RetiredSlot.new (index : UInt8) : Except Error RetiredSlot :=
  if h : 1 ≤ index ∧ index ≤ 20 then .ok ⟨index, h.1, h.2⟩ else .error (.new .invalidArgument)

inductive Slot where
  | authentication
  | signature
  | keyManagement
  | cardAuthentication
  | retired (slot : RetiredSlot)
  deriving DecidableEq

def Slot.reference : Slot → UInt8
  | .authentication => 0x9a
  | .signature => 0x9c
  | .keyManagement => 0x9d
  | .cardAuthentication => 0x9e
  | .retired n => 0x81 + n.index

/-- A complete BER object tag. -/
structure ObjectId where
  tag : Tag
  deriving DecidableEq

def ObjectId.fromBytes (bytes : Bytes) : Except Error ObjectId := (Tag.fromBytes bytes).map .mk

def ObjectId.asBytes (id : ObjectId) : Bytes := id.tag.toBytes

/-- The last byte of the certificate object of a slot. -/
def Slot.certificateByte : Slot → UInt8
  | .authentication => 5
  | .signature => 10
  | .keyManagement => 11
  | .cardAuthentication => 1
  | .retired n => 12 + n.index

theorem certificateByte_low (slot : Slot) : slot.certificateByte &&& 128 = 0 := by
  have hbyte : ∀ n < 256, UInt8.ofNat n ≤ 20 → (12 + UInt8.ofNat n) &&& 128 = 0 := by
    decide +kernel
  cases slot with
  | retired n =>
    have h := hbyte n.index.toNat n.index.toNat_lt
    rw [UInt8.ofNat_toNat] at h
    exact h n.upper
  | _ => decide

theorem scanTag_object {b c : Byte} (hb : b &&& 127 ≠ 0) (hb' : b &&& 128 ≠ 0)
    (hc : c &&& 128 = 0) : scanTag [0x5f, b, c] = .ok 3 := by
  rw [scanTag, if_neg (by decide), if_pos (by decide), if_neg (by simpa using hb), scanTail,
    if_neg (by omega), if_neg hb', scanTail, if_neg (by omega), if_pos hc]

/-- The tag 5F b c. -/
def ObjectId.ofPair (b c : Byte) (hb : b &&& 127 ≠ 0) (hb' : b &&& 128 ≠ 0)
    (hc : c &&& 128 = 0) : ObjectId :=
  ⟨⟨ofBeBytes [0x5f, b, c], 3, [0x5f, b, c], scanTag_object hb hb' hc, rfl⟩⟩

def ObjectId.certificate (slot : Slot) : ObjectId :=
  .ofPair 0xc1 slot.certificateByte (by decide) (by decide) (certificateByte_low slot)

/-- ADMIN DATA, 5F FF 00. -/
def ObjectId.adminData : ObjectId := .ofPair 0xff 0 (by decide) (by decide) (by decide)

/-- PRINTED, 5F C1 09. -/
def ObjectId.printed : ObjectId := .ofPair 0xc1 9 (by decide) (by decide) (by decide)

theorem ofPair_asBytes {b c : Byte} (hb : b &&& 127 ≠ 0) (hb' : b &&& 128 ≠ 0)
    (hc : c &&& 128 = 0) : (ObjectId.ofPair b c hb hb' hc).asBytes = [0x5f, b, c] := by
  have hscan : scanTag [0x5f, b, c] = .ok (ObjectId.ofPair b c hb hb' hc).tag.len :=
    scanTag_object hb hb' hc
  exact ProtocolTlvRoundTrip.toBytes_of_scan hscan rfl

/-- The constant tags of the source are the ones its parser returns. -/
theorem fromBytes_ofPair {b c : Byte} (hb : b &&& 127 ≠ 0) (hb' : b &&& 128 ≠ 0)
    (hc : c &&& 128 = 0) : ObjectId.fromBytes [0x5f, b, c] = .ok (.ofPair b c hb hb' hc) := by
  rw [ObjectId.fromBytes,
    ProtocolTlvRoundTrip.fromBytes_eq_ok.mpr (ofPair_asBytes hb hb' hc)]
  rfl

theorem length_asBytes (id : ObjectId) : 1 ≤ id.asBytes.length ∧ id.asBytes.length ≤ 4 := by
  obtain ⟨hscan, hlen, _⟩ := ProtocolTlvRoundTrip.scanTag_toBytes id.tag []
  obtain ⟨h1, h4, _, _⟩ := ProtocolTlvRoundTrip.scanTag_eq_ok hscan
  rw [ObjectId.asBytes, hlen]
  exact ⟨h1, h4⟩

inductive MetadataReference where
  | key (slot : Slot)
  | pin
  | puk
  | management
  deriving DecidableEq

def MetadataReference.reference : MetadataReference → UInt8
  | .key slot => slot.reference
  | .pin => 0x80
  | .puk => 0x81
  | .management => 0x9b

inductive ProfileEffect where
  | unchanged
  | reprobeRequired
  deriving DecidableEq, Repr

structure MutationResult where
  profileEffect : ProfileEffect
  deriving DecidableEq, Repr

def unchanged : MutationResult := ⟨.unchanged⟩

def require (profile : DeviceProfile) : Except Error Unit := (profile.capability .piv).require

def authError (sw : StatusWord) (reference : SecretReference) : Error :=
  .status sw .authentication (some reference)

def requireAuth (r : ResponseData) (reference : SecretReference) : Except Error Unit :=
  if r.status.isSuccess then .ok () else .error (authError r.status reference)

theorem requireAuth_eq_ok {r : ResponseData} {reference : SecretReference} {u : Unit} :
    requireAuth r reference = .ok u ↔ r.status.isSuccess = true := by
  simp only [requireAuth]
  split_ifs with h <;> simp [h]

def cmd (ins p1 p2 : UInt8) (data : Bytes) (le : ExpectedLength) : LogicalCommand :=
  { header := ⟨0, ins, p1, p2⟩, data := data, le := le }

def read (ins p1 p2 : UInt8) (data : Bytes) : LogicalCommand :=
  { cmd ins p1 p2 data (.exact 256) with correctLe := true }

def select : LogicalCommand := cmd 0xa4 4 0 [0xa0, 0, 0, 3, 8] .absent

def version : LogicalCommand := read 0xfd 0 0 []

def algorithmConfig : LogicalCommand := read 0xee 1 0 []

def metadata (reference : MetadataReference) : LogicalCommand := read 0xf7 0 reference.reference []

def pinStatus : LogicalCommand := read 0x20 0 0x80 []

/-- `Vec::resize` with FF. -/
def resize (n : ℕ) (bytes : Bytes) : Bytes := bytes.take n ++ List.replicate (n - bytes.length) 0xff

@[simp] theorem length_resize (n : ℕ) (bytes : Bytes) : (resize n bytes).length = n := by
  simp only [resize, List.length_append, List.length_take, List.length_replicate]
  omega

def verifyPin (pin : Pin) : LogicalCommand := cmd 0x20 0 0x80 (resize 8 pin.bytes) .absent

def logout : LogicalCommand := cmd 0x20 0xff 0x80 [] (.exact 256)

def change (ins reference : UInt8) (old new : Bytes) : LogicalCommand :=
  cmd ins 0 reference (resize 16 (resize 8 old ++ new)) .absent

def getData (id : ObjectId) : LogicalCommand :=
  read 0xcb 0x3f 0xff ([0x5c, UInt8.ofNat id.asBytes.length] ++ id.asBytes)

structure Request where
  command : LogicalCommand
  phase : Phase
  reference : Option SecretReference
  deriving DecidableEq

def request (command : LogicalCommand) (phase : Phase) (reference : Option SecretReference) :
    Request :=
  ⟨command, phase, reference⟩

/-- Requests answered in order; the last answer goes to the parser, which is used once. -/
structure Sequence (T : Type) where
  pending : List Request
  current : Option (Phase × Option SecretReference)
  parse : Option (ResponseData → Except Error T)

variable {T : Type}

def Sequence.pop (s : Sequence T) : Except Error (Action T) × Sequence T :=
  match s.pending with
  | [] => (.error (.new .protocolViolation), s)
  | req :: rest =>
    (.ok (.command req.command),
      { s with pending := rest, current := some (req.phase, req.reference) })

def Sequence.finish (s : Sequence T) (response : ResponseData) :
    Except Error (Action T) × Sequence T :=
  match s.parse with
  | none => (.error stateError, s)
  | some parse => ((parse response).map .done, { s with parse := none })

def Sequence.next (s : Sequence T) (response : Option ResponseData) :
    Except Error (Action T) × Sequence T :=
  match response with
  | none => s.pop
  | some response =>
    if s.pending = [] then s.finish response
    else match s.current with
      | none => (.error (.new .protocolViolation), s)
      | some (phase, reference) =>
        if response.status.isSuccess then s.pop
        else (.error (.status response.status phase reference), s)

def sequence (T : Type) : Machine (Sequence T) T where
  next := Sequence.next

/-- On audited historical firmware a final short command needs an explicit Le. -/
def explicitLe (legacy : Bool) (command : LogicalCommand) : LogicalCommand :=
  if legacy ∧ command.le = .absent then { command with le := .exact 256 } else command

section explicitLe

variable (legacy : Bool) (c : LogicalCommand)

theorem explicitLe_header : (explicitLe legacy c).header = c.header := by
  rw [explicitLe]
  split_ifs <;> rfl

theorem explicitLe_data : (explicitLe legacy c).data = c.data := by
  rw [explicitLe]
  split_ifs <;> rfl

theorem explicitLe_allowChaining : (explicitLe legacy c).allowChaining = c.allowChaining := by
  rw [explicitLe]
  split_ifs <;> rfl

end explicitLe

/-- Every command is made explicit first and validated in that form. -/
def make (profile : DeviceProfile) (commands : List Request) (options : OperationOptions)
    (parse : ResponseData → Except Error T) : Except Error (Operation (Sequence T) T) := do
  let _ ← options.validate
  let commands := commands.map fun req =>
    { req with command := explicitLe profile.legacyExplicitLe req.command }
  let _ ← commands.mapM fun req => validateCommand req.command options
  Operation.fromMachine ⟨commands, none, some parse⟩ options

def selected (command : LogicalCommand) : List Request :=
  [request select .select none, request command .command none]

/-- A sequence of one validated command. -/
def prepare (command : LogicalCommand) (options : OperationOptions)
    (parse : ResponseData → Except Error T) : Except Error (Sequence T) := do
  validateCommand command options
  .ok ⟨[request command .command none], none, some parse⟩

theorem prepare_eq_ok {command : LogicalCommand} {options : OperationOptions}
    {parse : ResponseData → Except Error T} {s : Sequence T} :
    prepare command options parse = .ok s ↔
      validateCommand command options = .ok () ∧
        s = ⟨[request command .command none], none, some parse⟩ := by
  rw [prepare, bind_eq_ok]
  constructor
  · rintro ⟨_, hv, hs⟩
    exact ⟨hv, (Except.ok.inj hs).symm⟩
  · rintro ⟨hv, rfl⟩
    exact ⟨(), hv, rfl⟩

/-- `verify_pin`; the builder of the command has the name. -/
def verifyPinOperation (profile : DeviceProfile) (pin : Pin) (options : OperationOptions) :
    Except Error (Operation (Sequence Unit) Unit) := do
  require profile
  make profile (selected (verifyPin pin)) options fun r => requireAuth r .pin

/-- `logout`; the builder of the command has the name. -/
def logoutOperation (profile : DeviceProfile) (options : OperationOptions) :
    Except Error (Operation (Sequence Unit) Unit) := do
  require profile
  make profile (selected logout) options fun r => r.ensureSuccess .authentication

end PivCommand
