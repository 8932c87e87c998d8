import LibCanokey.OpenPgpTypes

/-! # OpenPGP data objects and keys

Algorithm attributes, the framing of GET DATA by firmware, the algorithm that an application
data object reports and the templates of keys. -/
namespace OpenPgpKeys

open BigEndian ProtocolError ProtocolTlv ProtocolTlvFields CompatProfile KeyPublicKey OpenPgpTypes

def algorithms : List Algorithm :=
  [.rsa2048, .rsa3072, .rsa4096, .eccP256, .eccP384, .eccP521, .secp256k1, .ed25519, .x25519]

/-- The object identifier of a curve. -/
def curveOid : Algorithm → Option Bytes
  | .eccP256 => some [0x2a, 0x86, 0x48, 0xce, 0x3d, 3, 1, 7]
  | .eccP384 => some [0x2b, 0x81, 4, 0, 0x22]
  | .eccP521 => some [0x2b, 0x81, 4, 0, 0x23]
  | .secp256k1 => some [0x2b, 0x81, 4, 0, 10]
  | .ed25519 => some [0x2b, 6, 1, 4, 1, 0xda, 0x47, 15, 1]
  | .x25519 => some [0x2b, 6, 1, 4, 1, 0x97, 0x55, 1, 5, 1]
  | _ => none

def attributes (slot : Slot) (a : Algorithm) : Except Error Bytes :=
  if a ∉ algorithms ∨ (slot = .decryption ∧ a = .ed25519) ∨ (slot ≠ .decryption ∧ a = .x25519) then
    .error unsupportedAlgorithm
  else match rsaLen a with
    | some n => .ok [1, UInt8.ofNat (n * 8 / 256), 0, 0, 32, 2]
    | none =>
      let kind : UInt8 := if slot = .decryption then 0x12 else if a = .ed25519 then 0x16 else 0x13
      match curveOid a with
      | some oid => .ok (kind :: oid)
      | none => .error invalid

/-- `ok_or_else(invalid)?`. -/
def required {α : Type} : Option α → Except Error α
  | none => .error invalid
  | some value => .ok value

/-- Exactly one field, of the given tag. -/
def one (bytes : Bytes) (tag : ℕ) : Except Error Bytes := do
  let (first, reader) ← (TlvReader.newBer bytes {}).next
  let field ← required first
  if field.tag.value ≠ tag then .error invalid
  else do
    let (second, _) ← reader.next
    if second.isSome then .error invalid else .ok field.value

structure Field where
  tag : ℕ
  value : Bytes
  deriving DecidableEq, Repr

def appendField (found : List Field) (field : Tlv) : Except Error (List Field) :=
  .ok (found ++ [⟨field.tag.value, field.value⟩])

def fields (bytes : Bytes) (limit : ℕ) : Except Error (List Field) :=
  if bytes.length > limit then .error (.new .limitExceeded)
  else readFields appendField (.newBer bytes { maxValueBytes := limit }) []

def uniqueStep (tag : ℕ) (found : Option Bytes) (field : Field) : Except Error (Option Bytes) :=
  if field.tag = tag then
    if found.isSome then .error invalid else .ok (some field.value)
  else .ok found

def unique (fields : List Field) (tag : ℕ) : Except Error (Option Bytes) :=
  fields.foldlM (uniqueStep tag) none

/-- The object itself must not come again inside. -/
def notNested (tag : ℕ) (_ : Unit) (field : Tlv) : Except Error Unit :=
  if field.tag.value = tag then .error invalid else .ok ()

/-- Which capability says that an object comes in its own wrapper. -/
def wrapping (profile : DeviceProfile) (tag : ℕ) : Except Error Capability :=
  if tag = 0x65 ∨ tag = 0x6e ∨ tag = 0x7a then .ok .openPgpWrappedData
  else if tag = 0xfa then do
    (profile.capability .openPgpAlgorithmInformation).require
    .ok .openPgpWrappedAlgorithmInformation
  else .error argument

def dataObjectContents (profile : DeviceProfile) (tag : ℕ) (bytes : Bytes) (limit : ℕ) :
    Except Error Bytes := do
  (profile.capability .openPgp).require
  if bytes.length > limit then .error (.new .limitExceeded)
  else do
    let wrapped ← wrapping profile tag
    let value ←
      if (profile.capability wrapped).support = .supported then one bytes tag else .ok bytes
    readFields (notNested tag) (.newBer value { maxValueBytes := limit }) ()
    .ok value

structure ApplicationData where
  raw : Bytes
  fields : List Field
  discretionary : List Field

def ApplicationData.parseWithProfile (profile : DeviceProfile) (bytes : Bytes) (limit : ℕ) :
    Except Error ApplicationData := do
  let contents ← dataObjectContents profile 0x6e bytes limit
  let outer ← OpenPgpKeys.fields contents limit
  let inner ← required (← unique outer 0x73)
  let discretionary ← OpenPgpKeys.fields inner limit
  .ok ⟨bytes, outer, discretionary⟩

def ApplicationData.algorithmAttributes (app : ApplicationData) (slot : Slot) :
    Except Error (Option Bytes) :=
  unique app.discretionary slot.attributes.toNat

/-- RSA attributes agree in algorithm and modulus width, the others completely. -/
def attributesMatch (slot : Slot) (attr : Bytes) (a : Algorithm) : Bool :=
  match attributes slot a with
  | .error _ => false
  | .ok expected => attr == expected ||
      ((rsaLen a).isSome && attr.length == 6 && attr.take 3 == expected.take 3)

/-- The algorithm that the application data reports for a slot. -/
def observed (bytes : Bytes) (slot : Slot) (profile : DeviceProfile) : Except Error Algorithm := do
  let app ← ApplicationData.parseWithProfile profile bytes bytes.length
  let attr ← required (← app.algorithmAttributes slot)
  match algorithms.find? (attributesMatch slot attr) with
  | some a => .ok a
  | none => .error unsupportedAlgorithm

def wrap (tag : Bytes) (value : Bytes) : Except Error Bytes := do
  let tag ← Tag.fromBytes tag
  let (pushed, writer) := (TlvWriter.new 4096).push tag value
  pushed
  .ok writer.bytes

def length (n : ℕ) : Bytes :=
  if n < 128 then [UInt8.ofNat n]
  else if n ≤ 255 then [0x81, UInt8.ofNat n]
  else [0x82, UInt8.ofNat (n / 256), UInt8.ofNat n]

/-- The components of a private key under their tags. -/
def components (a : Algorithm) : PrivateKey → Except Error (List (UInt8 × Bytes))
  | .rsa exponent p q qInverse dP dQ =>
    match rsaLen a with
    | none => .error argument
    | some n =>
      if [p, q, qInverse, dP, dQ].any (fun v => v.length != n / 2) ∨ exponent.1 = [0, 0, 0, 0] then
        .error argument
      else .ok [(0x91, exponent.1), (0x92, p), (0x93, q), (0x94, qInverse), (0x95, dP), (0x96, dQ)]
  | .ec bytes =>
    match (curveLen a).or (if a = .ed25519 ∨ a = .x25519 then some 32 else none) with
    | none => .error argument
    | some n => if bytes.length ≠ n then .error argument else .ok [(0x92, bytes)]

/-- `import`, which is a keyword here. -/
def importKey (slot : Slot) (a : Algorithm) (key : PrivateKey) : Except Error Bytes := do
  let _ ← attributes slot a
  let parts ← components a key
  let template ← wrap [0x7f, 0x48] (parts.flatMap fun part => part.1 :: length part.2.length)
  let data ← wrap [0x5f, 0x48] (parts.flatMap Prod.snd)
  let bytes ← wrap [0x4d] ([slot.wire, 0] ++ template ++ data)
  if bytes.length > 2048 then .error (.new .limitExceeded) else .ok bytes

def signInput (a : Algorithm) (bytes : Bytes) : Except Error Unit := do
  let _ ← attributes .signature a
  let max := (((rsaLen a).map fun n => n * 2 / 5).or (curveLen a)).getD 255
  if bytes.length > max then .error argument else .ok ()

def signatureLen (a : Algorithm) : ℕ :=
  (rsaLen a).getD (((curveLen a).map fun n => 2 * n).getD 64)

def deriveInput (a : Algorithm) (bytes : Bytes) : Except Error Bytes := do
  let _ ← attributes .decryption a
  let valid : Bool := match curveLen a with
    | some n => bytes.length == 1 + 2 * n && bytes.head? == some 4
    | none => a == .x25519 && bytes.length == 32
  if ¬ valid then .error argument
  else do
    let point ← wrap [0x86] bytes
    let key ← wrap [0x7f, 0x49] point
    wrap [0xa6] key

end OpenPgpKeys
