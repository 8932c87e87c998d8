import LibCanokey.OpenPgpKeys

/-! # OpenPGP operations

The commands of the OpenPGP applet and the machine that sends a queue of them: SELECT, the
application data for key requests, VERIFY, SELECT DATA for certificates and the target. -/
namespace OpenPgpExecute

open BigEndian ListTraversal ProtocolError ProtocolApdu ProtocolConversation ProtocolOperation
open CompatProfile KeyPublicKey OpenPgpTypes OpenPgpKeys

/-- PW3 and the reset code have at least eight bytes. -/
def checkPassword (p : Password) (admin : Bool) : Except Error Unit :=
  if admin ∧ p.bytes.length < 8 then .error (.new .invalidPin) else .ok ()

def command (ins p1 p2 : UInt8) (data : Bytes) (read chain : Bool) : LogicalCommand :=
  { header := ⟨0, ins, p1, p2⟩
    data := data
    le := if read then .exact 256 else .absent
    allowChaining := chain
    correctLe := read }

def empty (ins p1 p2 : UInt8) : LogicalCommand :=
  { command ins p1 p2 [] false false with continuation := .none }

def highByte (tag : UInt16) : UInt8 := (tag >>> 8).toUInt8

def readObject (tag : UInt16) : LogicalCommand :=
  command 0xca (highByte tag) tag.toUInt8 [] true false

def select : LogicalCommand := command 0xa4 4 0 [0xd2, 0x76, 0, 1, 0x24, 1] false false

def selectCertificate (slot : Slot) : LogicalCommand :=
  command 0xa5 slot.occurrence 4 [0x60, 4, 0x5c, 2, 0x7f, 0x21] false false

/-- The tag and the bytes of a data object write. -/
def dataObject : DataWrite → Except Error (UInt16 × Bytes)
  | .name v => if v.length > 39 then .error argument else .ok (0x5b, v)
  | .login v => if v.length > 63 then .error argument else .ok (0x5e, v)
  | .language v => if v.length > 8 then .error argument else .ok (0x5f2d, v)
  | .sex v => .ok (0x5f35, [v])
  | .url v => if v.length > 255 then .error argument else .ok (0x5f50, v)
  | .resetCode none => .ok (0xd3, [])
  | .resetCode (some p) => (checkPassword p true).map fun _ => (0xd3, p.bytes)
  | .reuseSignaturePin reuse => .ok (0xc4, [reuse.toUInt8])
  | .touchPolicy slot policy => .ok (UInt8.toUInt16 (0xd6 + slot.occurrence), [policy.wire, 0x20])
  | .touchCacheTime seconds => .ok (0x0102, [seconds])
  | .algorithm slot a => (attributes slot a).map fun bytes => (slot.attributes.toUInt16, bytes)
  | .fingerprint slot bytes => .ok (UInt8.toUInt16 (0xc7 + slot.occurrence), bytes.1)
  | .caFingerprint slot bytes => .ok (UInt8.toUInt16 (0xca + slot.occurrence), bytes.1)
  | .generationTime slot time =>
    .ok (UInt8.toUInt16 (0xce + slot.occurrence), toBeBytes 4 time.toNat)

def writeData (value : DataWrite) : Except Error LogicalCommand :=
  (dataObject value).map fun object =>
    { command 0xda (highByte object.1) object.1.toUInt8 object.2 false false with
      continuation := .none }

def target : Request → Except Error (Option LogicalCommand)
  | .readData tag => .ok (some (readObject tag))
  | .readCertificate _ => .ok (some (readObject 0x7f21))
  | .writeCertificate _ bytes =>
    if bytes.length > 1152 then .error (.new .limitExceeded)
    else .ok (some (command 0xda 0x7f 0x21 bytes false true))
  | .pinStatus r => .ok (some (empty 0x20 0 r.wire))
  | .logout r => .ok (some (empty 0x20 0xff r.wire))
  | .verify => .ok none
  | .changePassword reference old new =>
    if reference = .pw1Other then .error argument
    else do
      checkPassword old (reference == .pw3)
      checkPassword new (reference == .pw3)
      .ok (some (command 0x24 0 reference.wire (old.bytes ++ new.bytes) false false))
  | .unblockWithAdmin new => .ok (some (command 0x2c 2 0x81 new.bytes false false))
  | .unblockWithCode code new => do
    checkPassword code true
    .ok (some (command 0x2c 0 0x81 (code.bytes ++ new.bytes) false false))
  | .resetRetries retries =>
    if retries.1.any fun r => !(1 ≤ r && r ≤ 15) then .error argument
    else .ok (some (command 0xf2 0 0 retries.1 false false))
  | .writeData v => (writeData v).map some
  | .readPublicKey slot => .ok (some (command 0x47 0x81 0 [slot.wire, 0] false false))
  | .generateKey slot => .ok (some (command 0x47 0x80 0 [slot.wire, 0] false false))
  | .importKey slot a key =>
    (importKey slot a key).map fun bytes => some (command 0xdb 0x3f 0xff bytes false true)
  | .sign a bytes =>
    (signInput a bytes).map fun _ => some (command 0x2a 0x9e 0x9a bytes false false)
  | .authenticate a bytes =>
    (signInput a bytes).map fun _ => some (command 0x88 0 0 bytes false false)
  | .decrypt a bytes => do
    let _ ← attributes .decryption a
    if rsaLen a ≠ some bytes.length then .error argument
    else .ok (some (command 0x2a 0x80 0x86 (0 :: bytes) false true))
  | .derive a peer =>
    (deriveInput a peer).map fun bytes => some (command 0x2a 0x80 0x86 bytes false true)
  | .terminate => .ok (some (empty 0xe6 0 0))
  | .activate => .ok (some (empty 0x44 0 0))

inductive Stage where
  | select
  | metadata
  | authenticate (reference : PasswordReference)
  | acknowledge
  | target
  deriving DecidableEq, Repr

/-- The capability that a request needs beside the applet. -/
def requestCapability (profile : DeviceProfile) : Request → Except Error Unit
  | .resetRetries _ => (profile.capability .openPgpRetryReset).require
  | .writeData (.touchPolicy _ _) => (profile.capability .openPgpUif).require
  | .writeData (.touchCacheTime _) => (profile.capability .openPgpUif).require
  | .writeData (.algorithm _ a) => (profile.openpgpAlgorithmSupport a false).require
  | .readData tag =>
    if (0xd6 ≤ tag ∧ tag ≤ 0xd8) ∨ tag = 0x0102 then (profile.capability .openPgpUif).require
    else if tag = 0xfa then (profile.capability .openPgpAlgorithmInformation).require
    else .ok ()
  | _ => .ok ()

/-- The expected algorithm of a key request is one the profile supports. -/
def expectedCapability (profile : DeviceProfile) (request : Request) : Except Error Unit :=
  match request.key with
  | some (_, some a) => (profile.openpgpAlgorithmSupport a false).require
  | _ => .ok ()

def shortDigest (profile : DeviceProfile) (a : Algorithm) (bytes : Bytes) : Except Error Unit :=
  if (curveLen a).any (bytes.length < ·) then (profile.capability .openPgpShortDigest).require
  else .ok ()

def digestCapability (profile : DeviceProfile) : Request → Except Error Unit
  | .sign a bytes => shortDigest profile a bytes
  | .authenticate a bytes => shortDigest profile a bytes
  | _ => .ok ()

/-- The access that comes with a request is the one it takes. -/
def checkAccess (request : Request) (access : Option Access) : Except Error Unit :=
  if request.required.isSome ∧ access.map Access.reference ≠ request.required then
    .error (.new .securityStatusNotSatisfied)
  else if request.isVerify ∧ access.isNone then .error argument
  else if request.bare ∧ access.isSome then .error argument
  else if request.isTerminate ∧ access.any (fun a => a.reference != .pw3) then .error argument
  else .ok ()

def checkAccessPassword (access : Option Access) : Except Error Unit :=
  match access with
  | none => .ok ()
  | some access => checkPassword access.password (access.reference == .pw3)

def verify (access : Access) : LogicalCommand :=
  command 0x20 0 access.reference.wire access.password.bytes false false

/-- Older final APDUs carry an explicit Le. -/
def withLe (explicitLe : Bool) (c : LogicalCommand) : LogicalCommand :=
  if explicitLe ∧ c.le = .absent then { c with le := .exact 256 } else c

/-- The commands of an operation, each with the stage its answer belongs to. -/
def entries (request : Request) (access : Option Access) (target : Option LogicalCommand) :
    List (LogicalCommand × Stage) :=
  [(select, Stage.select)] ++
    (if request.key.isSome then [(readObject 0x6e, Stage.metadata)] else []) ++
    access.toList.map (fun a => (verify a, Stage.authenticate a.reference)) ++
    request.certificate.toList.map (fun slot => (selectCertificate slot, Stage.acknowledge)) ++
    target.toList.map fun c => (c, Stage.target)

def queue (explicitLe : Bool) (request : Request) (access : Option Access)
    (target : Option LogicalCommand) : List (LogicalCommand × Stage) :=
  (entries request access target).map fun entry => (withLe explicitLe entry.1, entry.2)

structure OpenPgp where
  queue : List (LogicalCommand × Stage)
  pending : Option Stage
  request : Request
  algorithm : Option Algorithm
  limit : ℕ
  profile : DeviceProfile

/-- The credential that a status is about. -/
def OpenPgp.reference (s : OpenPgp) : Stage → Option SecretReference
  | .authenticate r => some r.secret
  | .target =>
    match s.request with
    | .changePassword reference _ _ => some reference.secret
    | .pinStatus reference => some reference.secret
    | .unblockWithCode _ _ => some .resetCode
    | _ => none
  | _ => none

/-- The template of a public key; before the fix, curve keys came with one byte too many. -/
def OpenPgp.publicKey (s : OpenPgp) (raw : Bytes) : Except Error PublicKey := do
  let a ← OpenPgpKeys.required s.algorithm
  let framed ←
    if (a = .ed25519 ∨ a = .x25519) ∧
        (s.profile.capability .openPgpPublicKeyLengthFix).support = .unsupported then
      if raw.length ≠ 38 ∨ raw.take 5 ≠ [0x7f, 0x49, 34, 0x86, 32] then .error invalid
      else .ok (raw.take 37)
    else .ok raw
  PublicKey.fromTlv a (← one framed 0x7f49) s.limit

/-- Before bare agreement the card returned the shared point. -/
def OpenPgp.sharedSecret (s : OpenPgp) (a : Algorithm) (bytes : Bytes) : Except Error Bytes := do
  let secret ←
    if a ≠ .x25519 ∧ (s.profile.capability .openPgpBareAgreement).support = .unsupported then do
      let n ← OpenPgpKeys.required (curveLen a)
      if bytes.length ≠ 1 + 2 * n ∨ bytes.getD 0 0 ≠ 4 then .error invalid
      else .ok ((bytes.drop 1).take n)
    else .ok bytes
  if secret.length ≠ (curveLen a).getD 32 ∨ (a = .x25519 ∧ secret.all (· == 0)) then .error invalid
  else .ok secret

def OpenPgp.signature (a : Algorithm) (bytes : Bytes) : Except Error Outcome :=
  if bytes.length ≠ signatureLen a then .error invalid else .ok (.signature a bytes)

def OpenPgp.result (s : OpenPgp) (bytes : Bytes) : Except Error Outcome :=
  match s.request with
  | .readData _ => .ok (.bytes bytes)
  | .readCertificate _ => .ok (.bytes bytes)
  | .readPublicKey _ => (s.publicKey bytes).map .publicKey
  | .generateKey _ => (s.publicKey bytes).map .publicKey
  | .sign a _ => OpenPgp.signature a bytes
  | .authenticate a _ => OpenPgp.signature a bytes
  | .decrypt a _ => do
    let n ← OpenPgpKeys.required (rsaLen a)
    if bytes.length > n - 11 then .error invalid else .ok (.bytes bytes)
  | .derive a _ => (s.sharedSecret a bytes).map .bytes
  | _ => if bytes = [] then .ok .unit else .error invalid

def pinStatus (sw : StatusWord) : Option PinStatus :=
  if sw.raw = 0x9000 then some ⟨true, none, false⟩
  else if sw.raw = 0x6983 then some ⟨false, none, true⟩
  else if sw.raw &&& 0xfff0 = 0x63c0 then
    some ⟨false, some (sw.raw &&& 15).toUInt8, sw.raw == 0x63c0⟩
  else none

def OpenPgp.statusError (s : OpenPgp) (stage : Stage) (status : StatusWord) : Error :=
  let reference := s.reference stage
  let phase : Phase := match stage with
    | .select => .select
    | .authenticate _ => .authentication
    | _ => if reference.isSome then .authentication else .command
  let e := Error.status status phase reference
  if reference.isSome ∧ status.raw = 0x6982 then { e with kind := .authenticationFailed } else e

def OpenPgp.pop (s : OpenPgp) : Except Error (Action Outcome) × OpenPgp :=
  match s.queue with
  | (c, stage) :: rest => (.ok (.command c), { s with queue := rest, pending := some stage })
  | [] => (.ok (.done .unit), s)

/-- The algorithm that the application data reports, when the request may go on with it. -/
def OpenPgp.accept (s : OpenPgp) (data : Bytes) : Except Error Algorithm := do
  let (slot, expected) ← OpenPgpKeys.required s.request.key
  let a ← observed data slot s.profile
  if expected.any (· != a) then .error unsupportedAlgorithm
  else do
    (s.profile.openpgpAlgorithmSupport a s.request.generates).require
    .ok a

/-- What a successful answer leads to. -/
def OpenPgp.succeeded (s : OpenPgp) (stage : Stage) (data : Bytes) :
    Except Error (Action Outcome) × OpenPgp :=
  match stage with
  | .metadata =>
    match s.accept data with
    | .error e => (.error e, s)
    | .ok a => { s with algorithm := some a }.pop
  | .target => ((s.result data).map .done, s)
  | _ => if data = [] then s.pop else (.error invalid, s)

/-- The status that an empty VERIFY reports; another status is an error like elsewhere. -/
def OpenPgp.reported (s : OpenPgp) (stage : Stage) (r : ResponseData) :
    Option (Except Error (Action Outcome)) :=
  if stage = .target ∧ s.request.isPinStatus then
    if r.data ≠ [] then some (.error invalid)
    else (pinStatus r.status).map fun status => .ok (.done (.pinStatus status))
  else none

/-- A terminated applet answers SELECT with 6285, which only its activation accepts. -/
def OpenPgp.terminatedSelect (s : OpenPgp) (stage : Stage) (r : ResponseData) : Bool :=
  stage == .select && s.request.isActivate && r.status.raw == 0x6285 && r.data == []

def OpenPgp.answered (s : OpenPgp) (stage : Stage) (r : ResponseData) :
    Except Error (Action Outcome) × OpenPgp :=
  match s.reported stage r with
  | some answer => (answer, s)
  | none =>
    if ¬ r.status.isSuccess ∧ ¬ s.terminatedSelect stage r then
      (.error (s.statusError stage r.status), s)
    else s.succeeded stage r.data

def OpenPgp.next (s : OpenPgp) (response : Option ResponseData) :
    Except Error (Action Outcome) × OpenPgp :=
  match response with
  | none => s.pop
  | some r =>
    match s.pending with
    | none => (.error invalid, s)
    | some stage => { s with pending := none }.answered stage r

def openPgp : Machine OpenPgp Outcome where
  next := OpenPgp.next

def validateQueue (options : OperationOptions) (queue : List (LogicalCommand × Stage)) :
    Except Error Unit :=
  queue.forM fun entry => validateCommand entry.1 options

def operation (profile : DeviceProfile) (request : Request) (access : Option Access)
    (options : OperationOptions) : Except Error (Operation OpenPgp Outcome) := do
  (profile.capability .openPgp).require
  requestCapability profile request
  expectedCapability profile request
  digestCapability profile request
  checkAccess request access
  let target ← target request
  checkAccessPassword access
  let queue := queue profile.legacyExplicitLe request access target
  validateQueue options queue
  -- the first fragment of a streamed import holds the complete prefix
  if request.imports ∧ options.exchange.maxCommandBytes < 14 then .error (.new .limitExceeded)
  else
    Operation.fromMachine
      ⟨queue, none, request, none, options.limits.maxTotalResponseBytes, profile⟩ options

end OpenPgpExecute
