import LibCanokey.OathTypes

/-! # OATH operations

The commands of the OATH applet in both dialects, the parsers of its answers and the machine
that selects, validates access and then sends the target command. -/
namespace OathExecute

open BigEndian ListTraversal ProtocolError ProtocolApdu ProtocolConversation ProtocolOperation
open CompatProfile OathTypes

/-- One-byte tag and length, not BER's long form. -/
def field (tag : UInt8) (bytes : Bytes) : Bytes := [tag, UInt8.ofNat bytes.length] ++ bytes

def command (ins p1 p2 : UInt8) (data : Bytes) (le : ExpectedLength) : LogicalCommand :=
  { header := ⟨0, ins, p1, p2⟩, data := data, le := le, continuation := .none }

def select : LogicalCommand := command 0xa4 4 0 [0xa0, 0, 0, 5, 0x27, 0x21, 1] .absent

/-- The property is a tag and a value in the modern dialect, not a TLV. -/
def properties (legacy : Bool) (c : Credential) : Bytes :=
  let bits : UInt8 := c.increasing.toUInt8 ||| (c.requireTouch.toUInt8 <<< 1)
  if bits = 0 then []
  else if legacy then field 0x78 [bits]
  else [0x78, bits]

def putData (legacy : Bool) (c : Credential) : Bytes :=
  field 0x71 c.name.bytes ++
    [0x73, UInt8.ofNat (c.secret.length + 2), c.kind.wire ||| c.algorithm.wire, c.digits] ++
    c.secret ++ properties legacy c ++
    if c.kind = .hotp then field 0x7a (toBeBytes 4 c.initialCounter.toNat) else []

/-- Pages are continued with the instruction of the dialect, also after a nonempty 9000. -/
def paged (legacy : Bool) (c : LogicalCommand) : LogicalCommand :=
  { c with continuation := .oath (if legacy then 6 else 0xa5) true }

def truncatedFlag (legacy : Bool) (format : Format) : UInt8 :=
  (!legacy && format == .truncated).toUInt8

def putRejected (c : Credential) : Bool :=
  !(4 ≤ c.digits && c.digits ≤ 8) || !(1 ≤ c.secret.length && c.secret.length ≤ 64) ||
    (c.kind == .totp && c.initialCounter != 0) || (c.kind == .hotp && c.increasing)

def target (hmac : HmacSha1) (request : Request) (legacy slots : Bool) :
    Except Error (Option LogicalCommand) :=
  match request with
  | .select => .ok none
  | .validate => .ok none
  | .list => .ok (some (paged legacy (command (if legacy then 3 else 0xa1) 0 0 [] (.exact 255))))
  | .put c =>
    if putRejected c then .error argument
    else .ok (some (command 1 0 0 (putData legacy c) .absent))
  | .delete name => .ok (some (command 2 0 0 (field 0x71 name.bytes) .absent))
  | .rename old new =>
    .ok (some (command 5 0 0 (field 0x71 old.bytes ++ field 0x71 new.bytes) .absent))
  | .calculate name kind _ challenge format =>
    if (kind == .totp) ≠ challenge.isSome then .error argument
    else
      .ok (some (command (if legacy then 4 else 0xa2) 0 (truncatedFlag legacy format)
        (field 0x71 name.bytes ++ challenge.elim [] fun c => field 0x74 c.1) .absent))
  | .calculateAll challenge format =>
    .ok (some (paged legacy (command (if legacy then 5 else 0xa4) 0 (truncatedFlag legacy format)
      (field 0x74 challenge.1) (.exact 255))))
  | .setCode key challenge =>
    .ok (some (command 3 0 0 ([0x73, 17, 1] ++ key.1 ++ field 0x74 challenge.1 ++
      field 0x75 (hmac key.1 challenge.1).1) .absent))
  | .clearCode => .ok (some (command 3 0 0 (field 0x73 []) .absent))
  | .setDefault slot appendEnter name =>
    .ok (some (command 0x55 (if slots then slot.wire else 0)
      (if slots then appendEnter.toUInt8 else 0) (field 0x71 name.bytes) .absent))
  | .getSerial => .ok (some (command 1 0x10 0 [] .absent))
  | .challengeResponseHmac slot challenge =>
    if challenge.length > 64 then .error argument
    else .ok (some (command 1 slot.wire 0 challenge .absent))

/-- The loop of `fields`, at most as many turns as there are bytes. -/
def fieldsFrom : ℕ → Bytes → Except Error (List (UInt8 × Bytes))
  | 0, _ => .ok []
  | n + 1, bytes =>
    match bytes with
    | [] => .ok []
    | [_] => .error invalid
    | tag :: length :: rest =>
      if rest.length < length.toNat then .error invalid
      else (fieldsFrom n (rest.drop length.toNat)).map fun fields =>
        (tag, rest.take length.toNat) :: fields

def fields (bytes : Bytes) : Except Error (List (UInt8 × Bytes)) := fieldsFrom bytes.length bytes

/-- What the fields of a selection have given so far. -/
structure Observed where
  version : Option (FixedBytes 3) := none
  handle : Option (FixedBytes 8) := none
  challenge : Option (FixedBytes 8) := none
  algorithm : Option UInt8 := none

def Observed.read (o : Observed) (entry : UInt8 × Bytes) : Except Error Observed :=
  if entry.1 = 0x79 ∧ o.version.isNone then
    (fixed 3 entry.2).map fun bytes => { o with version := some bytes }
  else if entry.1 = 0x71 ∧ o.handle.isNone then
    (fixed 8 entry.2).map fun bytes => { o with handle := some bytes }
  else if entry.1 = 0x74 ∧ o.challenge.isNone then
    (fixed 8 entry.2).map fun bytes => { o with challenge := some bytes }
  else if entry.1 = 0x7b ∧ o.algorithm.isNone ∧ entry.2.length = 1 then
    .ok { o with algorithm := entry.2.head? }
  else if entry.1 ∈ [0x79, 0x71, 0x74, 0x7b] then .error invalid
  else .ok o

def selection (data : Bytes) : Except Error Selection := do
  let o ← (← fields data).foldlM Observed.read {}
  if o.challenge.isSome ≠ o.algorithm.isSome then .error invalid
  else match o.version, o.handle with
    | some version, some handle => .ok ⟨version, handle, o.challenge, o.algorithm, data⟩
    | _, _ => .error invalid

def calculation (tag : UInt8) (raw : Bytes) (format : Format)
    (algorithm : Option OathTypes.Algorithm) (markers : Bool) : Except Error Calculation :=
  match raw with
  | [] => .error invalid
  | digits :: bytes =>
    if ¬ (4 ≤ digits ∧ digits ≤ 8) then .error invalid
    else if tag = 0x76 ∧ format = .truncated ∧ bytes.length = 4 ∧ bytes.getD 0 0 &&& 0x80 = 0 then
      .ok ⟨none, digits, .truncated bytes⟩
    else if tag = 0x75 ∧ format = .full ∧
        (match algorithm with
          | some a => a.len == bytes.length
          | none => bytes.length ∈ [20, 32, 64]) = true then
      .ok ⟨none, digits, .full bytes⟩
    else if tag = 0x77 ∧ markers ∧ bytes = [] then .ok ⟨none, digits, .hotp⟩
    else if tag = 0x7c ∧ markers ∧ bytes = [] then .ok ⟨none, digits, .touchRequired⟩
    else .error invalid

/-- `chunks_exact(2)`. -/
def pairs {α : Type} : List α → List (α × α)
  | a :: b :: rest => (a, b) :: pairs rest
  | _ => []

def legacyEntry (pair : (UInt8 × Bytes) × (UInt8 × Bytes)) : Except Error Entry :=
  match pair.2.2 with
  | [algorithmType, digits] =>
    if pair.1.1 ≠ 0x71 ∨ pair.2.1 ≠ 0x75 then .error invalid
    else ((Name.fromBytes pair.1.2).mapError fun _ => invalid).map fun name =>
      ⟨name, algorithmType, some digits⟩
  | _ => .error invalid

def modernEntry (entry : UInt8 × Bytes) : Except Error Entry :=
  match entry.2 with
  | algorithmType :: second :: rest =>
    if entry.1 ≠ 0x72 then .error invalid
    else ((Name.fromBytes (second :: rest)).mapError fun _ => invalid).map fun name =>
      ⟨name, algorithmType, none⟩
  | _ => .error invalid

def namedCalculation (format : Format) (pair : (UInt8 × Bytes) × (UInt8 × Bytes)) :
    Except Error Calculation :=
  if pair.1.1 ≠ 0x71 then .error invalid
  else do
    let c ← calculation pair.2.1 pair.2.2 format none true
    let name ← (Name.fromBytes pair.1.2).mapError fun _ => invalid
    .ok { c with name := some name }

def result (request : Request) (data : Bytes) (legacy : Bool) : Except Error Outcome :=
  match request with
  | .list => do
    let entries ← fields data
    if legacy then
      if entries.length % 2 ≠ 0 then .error invalid
      else ((pairs entries).mapM legacyEntry).map .entries
    else (entries.mapM modernEntry).map .entries
  | .calculate _ _ algorithm _ format => do
    match ← fields data with
    | [entry] =>
      (calculation entry.1 entry.2 format (some algorithm) false).map fun c => .calculations [c]
    | _ => .error invalid
  | .calculateAll _ format => do
    let entries ← fields data
    if entries.length % 2 ≠ 0 then .error invalid
    else ((pairs entries).mapM (namedCalculation format)).map .calculations
  | .getSerial => (fixed 4 data).map .serial
  | .challengeResponseHmac _ _ =>
    if data.length ≠ 20 then .error invalid else .ok (.challengeResponse data)
  | _ => if data = [] then .ok .unit else .error invalid

inductive Stage where
  | begin
  | select
  | validate
  | command
  deriving DecidableEq, Repr

structure Oath where
  request : Request
  access : Option Access
  target : Option LogicalCommand
  stage : Stage
  legacy : Bool
  explicitLe : Bool
  serial : Option (FixedBytes 4)

def Oath.runTarget (s : Oath) : Except Error (Action Outcome) × Oath :=
  match s.target with
  | some c => (.ok (.command c), { s with target := none, stage := .command })
  | none => (.ok (.done .unit), { s with stage := .command })

/-- An answer that the audited historical firmware reads from its Le. -/
def withLe (explicitLe : Bool) (c : LogicalCommand) : LogicalCommand :=
  if explicitLe then { c with le := .exact 256 } else c

def Stage.phase : Stage → Phase
  | .select => .select
  | .validate => .authentication
  | _ => .command

/-- The error of a status, with the kinds that the applet means by it. -/
def statusError (request : Request) (stage : Stage) (status : StatusWord) : Error :=
  let e := Error.status status stage.phase (if stage = .validate then some .oathAccess else none)
  if stage = .validate ∧ status.raw = 0x6a80 then { e with kind := .authenticationFailed }
  else if stage = .command ∧ status.raw = 0x6984 ∧ request.named then { e with kind := .notFound }
  else if stage = .command ∧ status.raw = 0x6a82 ∧ request.isHmac then { e with kind := .notFound }
  else e

/-- VALIDATE with the proof over the card's challenge and the host's own challenge. -/
def validate (hmac : HmacSha1) (access : Access) (challenge : FixedBytes 8) (explicitLe : Bool) :
    LogicalCommand :=
  withLe explicitLe (command 0xa3 0 0
    (field 0x75 (hmac access.key.1 challenge.1).1 ++ field 0x74 access.challenge.1) .absent)

/-- What follows the selection of a modern applet. -/
def Oath.selected (hmac : HmacSha1) (s : Oath) (selection : Selection) :
    Except Error (Action Outcome) × Oath :=
  if s.request.isSelect then (.ok (.done (.selection selection)), s)
  else if s.request.challengeResponse then s.runTarget
  else match s.access, selection.challenge with
    | none, none => s.runTarget
    | none, some _ => (.error ((Error.new .securityStatusNotSatisfied).atPhase .authentication), s)
    | some _, none => (.error ((Error.new .conditionsNotSatisfied).atPhase .authentication), s)
    | some access, some challenge =>
      if selection.algorithm ≠ some 1 then (.error (.new .unsupportedAlgorithm), s)
      else (.ok (.command (validate hmac access challenge s.explicitLe)),
        { s with stage := .validate })

/-- The card's proof over the host's challenge. -/
def Oath.validated (hmac : HmacSha1) (s : Oath) (data : Bytes) :
    Except Error (Action Outcome) × Oath :=
  match fields data with
  | .error e => (.error e, s)
  | .ok [(tag, bytes)] =>
    if tag ≠ 0x75 ∨ bytes.length ≠ 20 then (.error invalid, s)
    else match s.access with
      | none => (.error invalid, s)
      | some access =>
        if bytes ≠ (hmac access.key.1 access.challenge.1).1 then
          (.error ((Error.new .deviceAuthenticationFailed).atPhase .authentication),
            { s with access := none })
        else { s with access := none }.runTarget
  | .ok _ => (.error invalid, s)

def Oath.legacySelected (s : Oath) (data : Bytes) : Except Error (Action Outcome) × Oath :=
  if data ≠ [] then (.error invalid, s)
  else if s.request.isSelect then (.ok (.done (.legacySelection s.serial)), s)
  else s.runTarget

def Oath.next (hmac : HmacSha1) (s : Oath) (response : Option ResponseData) :
    Except Error (Action Outcome) × Oath :=
  match s.stage, response with
  | .begin, _ => (.ok (.command (withLe s.explicitLe select)), { s with stage := .select })
  | _, none => (.error invalid, s)
  | stage, some response =>
    if ¬ response.status.isSuccess then (.error (statusError s.request stage response.status), s)
    else match stage with
      | .select =>
        if s.legacy then s.legacySelected response.data
        else match selection response.data with
          | .error e => (.error e, s)
          | .ok selection => s.selected hmac selection
      | .validate => s.validated hmac response.data
      | _ => ((result s.request response.data s.legacy).map .done, s)

def oath (hmac : HmacSha1) : Machine Oath Outcome where
  next := Oath.next hmac

/-- A capability that only some requests need. -/
def requireWhen (needed : Bool) (status : CapabilityStatus) : Except Error Unit :=
  if needed then status.require else .ok ()

/-- A page must hold one complete entry; its Le is what the channel can return. -/
def pageLe (request : Request) (legacy : Bool) (options : OperationOptions)
    (target : Option LogicalCommand) : Except Error (Option LogicalCommand) :=
  match request.minimum legacy with
  | none => .ok target
  | some minimum =>
    if options.exchange.maxResponseBytes < minimum + 2 then .error limitExceeded
    else .ok (target.map fun c =>
      { c with le := .exact (min 255 (options.exchange.maxResponseBytes - 2)) })

/-- What every factory of the applet checks before the request is looked at closely. -/
def admission (profile : DeviceProfile) (request : Request) (access : Option Access) :
    Except Error Unit := do
  (profile.capability .oath).require
  if (request.isSelect && access.isSome) || (request.isValidate && access.isNone) ||
      (request.challengeResponse && access.isSome) then .error argument
  else do
    requireWhen request.challengeResponse (profile.capability .oathChallengeResponse)
    if (profile.capability .oathSetDefaultSlots).support ≠ .supported ∧ request.needsSlots then
      .error argument
    else do
      requireWhen (access.isSome || request.modern) (profile.capability .oathModern)
      requireWhen request.full (profile.capability .oathFullResponse)

def validateTarget (options : OperationOptions) : Option LogicalCommand → Except Error Unit
  | some c => validateCommand c options
  | none => .ok ()

/-- The serial is the one the profile observed through Admin. -/
def operation (hmac : HmacSha1) (profile : DeviceProfile) (serial : Option (FixedBytes 4))
    (request : Request) (access : Option Access) (options : OperationOptions) :
    Except Error (Operation Oath Outcome) := do
  admission profile request access
  let legacy := (profile.capability .oathLegacy).support == .supported
  let slots := (profile.capability .oathSetDefaultSlots).support == .supported
  let explicitLe := profile.legacyExplicitLe
  let target ← target hmac request legacy slots
  let target ← pageLe request legacy options (target.map (withLe explicitLe))
  validateCommand (withLe explicitLe select) options
  validateTarget options target
  validateTarget options
    (if access.isSome then some (command 0xa3 0 0 (List.replicate 32 0) .absent) else none)
  Operation.fromMachine ⟨request, access, target, .begin, legacy, explicitLe, serial⟩ options

end OathExecute
