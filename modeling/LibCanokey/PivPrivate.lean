import LibCanokey.PivKeys

/-! # Private operations

Signing, decryption, derivation and decapsulation with keys on the card, and the encodings of
elliptic-curve signatures over an uninterpreted DER codec. -/
namespace PivPrivate

open BigEndian ProtocolError ProtocolApdu ProtocolConversation ProtocolOperation ProtocolTlv
open ProtocolTlvFields CompatProfile KeyPublicKey PivCommand PivAccess PivKeys

/-- Whether the curve crates accept the bytes as a point of the algorithm's curve. -/
abbrev PointCheck := Algorithm → Bytes → Bool

/-- The unsigned integers r and s, as their canonical bytes. -/
structure EcSignature where
  r : Bytes
  s : Bytes
  deriving DecidableEq, Repr

/-- What the DER crate does with unsigned integers and a sequence of two of them. -/
structure EcDer where
  uint : Bytes → Option Bytes
  fromDer : Bytes → Option EcSignature
  toDer : EcSignature → Option Bytes

inductive SignInput where
  | rsaEncodedBlock (bytes : Bytes)
  | digest (bytes : Bytes)
  | message (bytes : Bytes)
  deriving DecidableEq, Repr

def SignInput.raw : SignInput → Bytes
  | .rsaEncodedBlock bytes | .digest bytes | .message bytes => bytes

inductive SignatureEncoding where
  | raw
  | der
  | p1363
  deriving DecidableEq, Repr

structure Signature where
  algorithm : Algorithm
  encoding : SignatureEncoding
  bytes : Bytes
  deriving DecidableEq, Repr

def unsupportedAlgorithm : Error := .new .unsupportedAlgorithm

def invalidArgument : Error := .new .invalidArgument

/-- `curve_len(algorithm).ok_or_else(..)?`. -/
def curveWidth (algorithm : Algorithm) : Except Error ℕ :=
  match curveLen algorithm with
  | none => .error unsupportedAlgorithm
  | some width => .ok width

def componentFits (width : ℕ) (n : Bytes) : Bool := n.length ≤ width && !n.all (· == 0)

def ecSignature (der : EcDer) (data : Bytes) (width : ℕ) : Except Error EcSignature :=
  match der.fromDer data with
  | none => .error malformed
  | some value =>
    if componentFits width value.r ∧ componentFits width value.s then .ok value
    else .error malformed

/-- An integer at the end of a field of `width` zeros. -/
def leftPad (width : ℕ) (value : Bytes) : Bytes := List.replicate (width - value.length) 0 ++ value

theorem length_leftPad {width : ℕ} {value : Bytes} (h : value.length ≤ width) :
    (leftPad width value).length = width := by
  rw [leftPad, List.length_append, List.length_replicate]
  omega

/-- `Uint::new(..).map_err(|_| invalid())?`. -/
def integer (der : EcDer) (bytes : Bytes) : Except Error Bytes :=
  match der.uint bytes with
  | none => .error invalidArgument
  | some value => .ok value

def encoded (der : EcDer) (value : EcSignature) : Except Error Bytes :=
  match der.toDer value with
  | none => .error invalidArgument
  | some bytes => .ok bytes

def Signature.fromP1363 (der : EcDer) (algorithm : Algorithm) (bytes : Bytes) :
    Except Error Signature := do
  let width ← curveWidth algorithm
  if bytes.length ≠ 2 * width ∨ (bytes.take width).all (· == 0) ∨
      (bytes.drop width).all (· == 0) then .error invalidArgument
  else
    let r ← integer der (bytes.take width)
    let s ← integer der (bytes.drop width)
    let value ← encoded der ⟨r, s⟩
    .ok ⟨algorithm, .der, value⟩

def Signature.toP1363 (der : EcDer) (signature : Signature) : Except Error Bytes := do
  let width ← curveWidth signature.algorithm
  if signature.encoding = .p1363 then .ok signature.bytes
  else
    let parts ← ecSignature der signature.bytes width
    .ok (leftPad width parts.r ++ leftPad width parts.s)

def Signature.toDer (der : EcDer) (signature : Signature) : Except Error Bytes := do
  let _ ← curveWidth signature.algorithm
  if signature.encoding = .p1363 then
    let converted ← Signature.fromP1363 der signature.algorithm signature.bytes
    .ok converted.bytes
  else .ok signature.bytes

/-- The byte loop of `digest`: a shift of the whole field by seven bits. -/
def shift : UInt8 → Bytes → Bytes
  | _, [] => []
  | carry, byte :: rest => ((byte >>> 7) ||| carry) :: shift (byte <<< 1) rest

def digest (algorithm : Algorithm) (data : Bytes) : Except Error Bytes := do
  let width ← curveWidth algorithm
  if data = [] ∨ (algorithm = .sm2 ∧ data.length ≠ 32) then .error invalidArgument
  else if algorithm = .eccP521 ∧ data.length ≥ width then
    .ok (shift 0 (leftPad width (data.take width)))
  else .ok (leftPad width (data.take width))

def command (profile : DeviceProfile) (slot : Slot) (algorithm : Algorithm) (tag : UInt8)
    (input : Bytes) (options : OperationOptions) : Except Error LogicalCommand := do
  let id ← keyId profile slot algorithm
  let inner ← pushTags (.new options.limits.maxInputBytes) [([0x82], []), ([tag], input)]
  let outer ← pushTag (.new options.limits.maxInputBytes) [0x7c] inner.bytes
  .ok (keyCommand 0x87 id slot.reference outer.bytes)

/-- The firmware may encode lengths below 256 in two octets. -/
def reply (r : ResponseData) (limit : ℕ) : Except Error Bytes := do
  r.ensureSuccess .command
  let outer ← sole (.newBer r.data { maxValueBytes := limit })
    (fun field => field.tag.value == 0x7c) malformed
  let inner ← outer.children
  let value ← sole inner (fun field => field.tag.value == 0x82) malformed
  .ok value.value

/-- The width of a signature that is no pair of integers. -/
def rawWidth (algorithm : Algorithm) : ℕ :=
  if algorithm = .mlDsa65 then 3309 else (rsaLen algorithm).getD 64

def checkSignature (der : EcDer) (algorithm : Algorithm) (encoding : SignatureEncoding)
    (bytes : Bytes) : Except Error Unit :=
  if encoding = .p1363 then
    match Signature.fromP1363 der algorithm bytes with
    | .error _ => .error malformed
    | .ok _ => .ok ()
  else match curveLen algorithm with
    | some width => (ecSignature der bytes width).map fun _ => ()
    | none => if bytes.length ≠ rawWidth algorithm then .error malformed else .ok ()

def parseSignature (der : EcDer) (algorithm : Algorithm) (encoding : SignatureEncoding)
    (limit : ℕ) (r : ResponseData) : Except Error Signature := do
  let bytes ← reply r limit
  checkSignature der algorithm encoding bytes
  .ok ⟨algorithm, encoding, bytes⟩

def maxEd25519Message : ℕ := 512

/-- The bytes to sign, for an input that matches the algorithm. -/
def SignInput.bytes (algorithm : Algorithm) : SignInput → Except Error Bytes
  | .rsaEncodedBlock bytes =>
    if rsaLen algorithm = some bytes.length then .ok bytes else .error invalidArgument
  | .digest bytes =>
    if (curveLen algorithm).isSome then PivPrivate.digest algorithm bytes
    else .error invalidArgument
  | .message bytes =>
    if algorithm = .ed25519 ∧ bytes ≠ [] then
      if bytes.length > maxEd25519Message then .error limitExceeded else .ok bytes
    else .error invalidArgument

def signatureEncoding (profile : DeviceProfile) (algorithm : Algorithm) : SignatureEncoding :=
  if algorithm = .sm2 ∧ profile.sm2UsesP1363Signatures then .p1363
  else if (curveLen algorithm).isSome then .der
  else .raw

def prepareSign (der : EcDer) (profile : DeviceProfile) (slot : Slot) (algorithm : Algorithm)
    (input : SignInput) (options : OperationOptions) : Except Error (Sequence Signature) :=
  if input.raw.length > options.limits.maxInputBytes then .error limitExceeded
  else do
    let bytes ← input.bytes algorithm
    let command ← command profile slot algorithm 0x81 bytes options
    prepare command options
      (parseSignature der algorithm (signatureEncoding profile algorithm)
        options.limits.maxTotalResponseBytes)

def sign (der : EcDer) (profile : DeviceProfile) (slot : Slot) (algorithm : Algorithm)
    (input : SignInput) (access : Access) (options : OperationOptions) :
    Except Error (Operation (Selected (Sequence Signature)) Signature) := do
  let target ← prepareSign der profile slot algorithm input options
  withAccess profile access target options

/-- A reply of exactly `width` bytes. -/
def exactReply (width limit : ℕ) (r : ResponseData) : Except Error Bytes := do
  let bytes ← reply r limit
  if bytes.length ≠ width then .error malformed else .ok bytes

def prepareDecrypt (profile : DeviceProfile) (slot : Slot) (algorithm : Algorithm)
    (ciphertext : Bytes) (options : OperationOptions) : Except Error (Sequence Bytes) :=
  match rsaLen algorithm with
  | none => .error unsupportedAlgorithm
  | some width =>
    if ciphertext.length ≠ width then .error invalidArgument
    else do
      let command ← command profile slot algorithm 0x81 ciphertext options
      prepare command options (exactReply width options.limits.maxTotalResponseBytes)

abbrev Reading := Operation (Selected (Sequence Bytes)) Bytes

def decrypt (profile : DeviceProfile) (slot : Slot) (algorithm : Algorithm) (ciphertext : Bytes)
    (access : Access) (options : OperationOptions) : Except Error Reading := do
  let target ← prepareDecrypt profile slot algorithm ciphertext options
  withAccess profile access target options

/-- The length of an uncompressed peer point and of the secret shared with it. -/
def peerWidths : Algorithm → Option (ℕ × ℕ)
  | .eccP256 | .secp256k1 => some (65, 32)
  | .eccP384 => some (97, 48)
  | .eccP521 => some (133, 66)
  | _ => none

def peerWidth (point : PointCheck) (algorithm : Algorithm) (peer : Bytes) : Except Error ℕ :=
  match peerWidths algorithm with
  | some (len, width) =>
    if peer.length ≠ len ∨ peer.head? ≠ some 4 ∨ ¬ point algorithm peer then
      .error invalidArgument
    else .ok width
  | none =>
    if algorithm = .x25519 then
      if peer.length = 32 then .ok 32 else .error invalidArgument
    else .error unsupportedAlgorithm

/-- An all-zero X25519 secret is refused. -/
def secretReply (algorithm : Algorithm) (width limit : ℕ) (r : ResponseData) :
    Except Error Bytes := do
  let bytes ← exactReply width limit r
  if algorithm = .x25519 ∧ bytes = List.replicate 32 0 then .error malformed else .ok bytes

def prepareDerive (point : PointCheck) (profile : DeviceProfile) (slot : Slot)
    (algorithm : Algorithm) (peer : Bytes) (options : OperationOptions) :
    Except Error (Sequence Bytes) :=
  if peer.length > options.limits.maxInputBytes then .error limitExceeded
  else do
    let width ← peerWidth point algorithm peer
    let command ← command profile slot algorithm 0x85 peer options
    prepare command options (secretReply algorithm width options.limits.maxTotalResponseBytes)

def derive (point : PointCheck) (profile : DeviceProfile) (slot : Slot) (algorithm : Algorithm)
    (peer : Bytes) (access : Access) (options : OperationOptions) : Except Error Reading := do
  let target ← prepareDerive point profile slot algorithm peer options
  withAccess profile access target options

def prepareDecapsulate (profile : DeviceProfile) (slot : Slot) (ciphertext : Bytes)
    (options : OperationOptions) : Except Error (Sequence Bytes) :=
  if ciphertext.length ≠ 1088 then .error invalidArgument
  else do
    let command ← command profile slot .mlKem768 0x81 ciphertext options
    prepare command options (exactReply 32 options.limits.maxTotalResponseBytes)

def decapsulate (profile : DeviceProfile) (slot : Slot) (ciphertext : Bytes) (access : Access)
    (options : OperationOptions) : Except Error Reading := do
  let target ← prepareDecapsulate profile slot ciphertext options
  withAccess profile access target options

end PivPrivate
