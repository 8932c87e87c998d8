import LibCanokey.BlockChaining
import LibCanokey.CtapCredential
import LibCanokey.CtapHmacSecret
import Mathlib.Algebra.Group.Basic

/-! # ClientPIN

The key agreement and the PIN requests of a platform, over SHA-256, HMAC, AES-256 and P-256. -/
namespace CtapClientPin

open BigEndian CheckedCursor ListTraversal ProtocolError ProtocolConversation ProtocolOperation
open CtapCbor CtapCose CtapMessage CtapAuthData CtapHmacSecret CtapFields CtapCredential

def commandClientPin : UInt8 := 0x06

def subcommandGetPinRetries : ℕ := 0x01

def subcommandGetKeyAgreement : ℕ := 0x02

def subcommandSetPin : ℕ := 0x03

def subcommandChangePin : ℕ := 0x04

def subcommandGetPinToken : ℕ := 0x05

def subcommandGetPinTokenWithPermissions : ℕ := 0x09

def paddedPinLen : ℕ := 64

def maxPinBytes : ℕ := 63

def minPinCodePoints : ℕ := 4

def hkdfSalt : Bytes := List.replicate 32 0

def hkdfInfoHmac : Bytes := utf8 "CTAP2 HMAC key"

def hkdfInfoAes : Bytes := utf8 "CTAP2 AES key"

def invalidPin : Error := .new .invalidPin

/-! ## The primitives -/

/-- Two blocks mixed bit by bit. -/
def xorBlocks : BlockChaining.Mixing (ByteArrayOf 16) where
  mix a b := ⟨List.zipWith (· ^^^ ·) a.1 b.1, by rw [List.length_zipWith, a.2, b.2]; rfl⟩
  cancel a b := by
    apply Subtype.ext
    apply List.ext_getElem
    · simp only [List.length_zipWith, a.2, b.2]
      rfl
    · intro i _ _
      simp only [List.getElem_zipWith, UInt8.xor_assoc, UInt8.xor_self, UInt8.xor_zero]

/-- CBC without padding over the block permutation of each key. -/
def cbc (aes : Bytes → Equiv.Perm (ByteArrayOf 16)) : Aes256Cbc where
  encrypt key iv text := BlockChaining.chained (BlockChaining.encrypt xorBlocks (aes key)) iv text
  decrypt key iv text := BlockChaining.chained (BlockChaining.decrypt xorBlocks (aes key)) iv text

/-- P-256 as a cyclic group whose points other than the identity have coordinates. -/
structure P256 where
  Point : Type
  group : AddCommGroup Point
  generator : Point
  order : ℕ
  coordinates : Point → ByteArrayOf 32 × ByteArrayOf 32
  fromSec1 : Bytes → Option Point
  order_iff (n : ℕ) : n • generator = 0 ↔ order ∣ n
  fromSec1_coordinates (p : Point) (hp : p ≠ 0) :
    fromSec1 (0x04 :: ((coordinates p).1.1 ++ (coordinates p).2.1)) = some p
  fromSec1_ne_zero (b : Bytes) : fromSec1 b ≠ some 0

attribute [instance] P256.group

/-- `SecretKey::from_slice`. -/
def P256.secretKey (curve : P256) (scalar : ByteArrayOf 32) : Except Error ℕ :=
  if ofBeBytes scalar.1 = 0 ∨ curve.order ≤ ofBeBytes scalar.1 then .error invalidArgument
  else .ok (ofBeBytes scalar.1)

def P256.publicKey (curve : P256) (secret : ℕ) : curve.Point := secret • curve.generator

/-- The x coordinate of the shared point. -/
def P256.diffieHellman (curve : P256) (secret : ℕ) (point : curve.Point) : ByteArrayOf 32 :=
  (curve.coordinates (secret • point)).1

/-- The primitives a session rests on. -/
structure Primitives where
  hashes : Hashes
  aes : Bytes → Equiv.Perm (ByteArrayOf 16)
  curve : P256

/-- One block of HKDF-SHA-256. -/
def hkdf (hashes : Hashes) (salt ikm info : Bytes) : Bytes :=
  (hashes.hmac (hashes.hmac salt ikm).1 (info ++ [0x01])).1

def deriveSharedSecret (hashes : Hashes) (protocol : PinUvAuthProtocol) (x : ByteArrayOf 32) :
    Bytes :=
  if protocol = .v1 then (hashes.sha256 x.1).1
  else hkdf hashes hkdfSalt x.1 hkdfInfoHmac ++ hkdf hashes hkdfSalt x.1 hkdfInfoAes

/-! ## PINs -/

def validatePin (pin : Bytes) : Except Error Unit :=
  match String.fromUTF8? ⟨pin.toArray⟩ with
  | none => .error invalidPin
  | some text =>
    if pin.length > maxPinBytes ∨ text.toList.length < minPinCodePoints then .error invalidPin
    else .ok ()

def padPin (pin : Bytes) : Bytes := pin ++ List.replicate (paddedPinLen - pin.length) 0

def pinHash (hashes : Hashes) (pin : Bytes) : Bytes := (hashes.sha256 pin).1.take 16

/-! ## Requests -/

def clientPinMessage (fields : List (ℕ × Value)) : Except Error Bytes :=
  (encode (fieldMap fields)).map (commandClientPin :: ·)

def protocolEntry (protocol : PinUvAuthProtocol) : ℕ × Value :=
  (1, .unsigned protocol.toU8.toUInt64)

structure Permissions where
  bits : UInt8
  deriving DecidableEq, Repr

def Permissions.or (p q : Permissions) : Permissions := ⟨p.bits ||| q.bits⟩

structure PinRetries where
  pinRetries : ℕ
  powerCycleState : Option Bool
  deriving DecidableEq, Repr

def platformKey (curve : P256) (secret : ℕ) : CoseKey :=
  .p256 .ecdhEsHkdf256 (curve.coordinates (curve.publicKey secret)).1
    (curve.coordinates (curve.publicKey secret)).2

def parseKeyAgreement (crypto : Primitives) (protocol : PinUvAuthProtocol) (secret : ℕ)
    (bytes : Bytes) : Except Error PinSession := do
  let value ← decoded bytes
  let peer ← CoseKey.fromValue (← required (value.mapGetInt 1))
  match peer with
  | .p256 .ecdhEsHkdf256 x y =>
    match crypto.curve.fromSec1 (0x04 :: (x.1 ++ y.1)) with
    | none => .error invalid
    | some point =>
      .ok
        { protocol := protocol
          keyAgreement := platformKey crypto.curve secret
          sharedSecret :=
            deriveSharedSecret crypto.hashes protocol (crypto.curve.diffieHellman secret point)
          platform := ⟨_, _, rfl⟩ }
  | _ => .error invalid

def getKeyAgreement (crypto : Primitives) (protocol : PinUvAuthProtocol)
    (ephemeralScalar : ByteArrayOf 32) (options : OperationOptions) :
    Except Error (Operation (Sequence PinSession) PinSession) := do
  let secret ← crypto.curve.secretKey ephemeralScalar
  let message ← clientPinMessage [protocolEntry protocol, (2, uint subcommandGetKeyAgreement)]
  selectThen message options fun response =>
    typed response (parseKeyAgreement crypto protocol secret)

def parsePinRetries (bytes : Bytes) : Except Error PinRetries := do
  let value ← decoded bytes
  let retries ← required ((← required (value.mapGetInt 3)).asUint)
  if retries.toNat ≥ 2 ^ 32 then .error invalid
  else do
    let powerCycleState ← opt value 4 fun v => required v.asBool
    .ok ⟨retries.toNat, powerCycleState⟩

def getPinRetries (protocol : PinUvAuthProtocol) (options : OperationOptions) :
    Except Error (Operation (Sequence PinRetries) PinRetries) := do
  let message ← clientPinMessage [protocolEntry protocol, (2, uint subcommandGetPinRetries)]
  selectThen message options fun response => typed response parsePinRetries

def setPin (crypto : Primitives) (session : PinSession) (newPin : Bytes)
    (iv : Option (ByteArrayOf 16)) (options : OperationOptions) :
    Except Error (Operation (Sequence Unit) Unit) := do
  validatePin newPin
  checkIv session.protocol iv
  let newPinEnc ← encrypt (cbc crypto.aes) session.protocol session.sharedSecret iv (padPin newPin)
  let message ← clientPinMessage
    [protocolEntry session.protocol, (2, uint subcommandSetPin),
      (3, session.keyAgreement.toValue),
      (4, .bytes (authenticate crypto.hashes session.protocol session.sharedSecret newPinEnc)),
      (5, .bytes newPinEnc)]
  selectThen message options fun response => typed response emptyPayload

def changePin (crypto : Primitives) (session : PinSession) (oldPin newPin : Bytes)
    (iv : Option (ByteArrayOf 16)) (options : OperationOptions) :
    Except Error (Operation (Sequence Unit) Unit) := do
  validatePin oldPin
  validatePin newPin
  checkIv session.protocol iv
  let pinHashEnc ← encrypt (cbc crypto.aes) session.protocol session.sharedSecret iv
    (pinHash crypto.hashes oldPin)
  let newPinEnc ← encrypt (cbc crypto.aes) session.protocol session.sharedSecret iv (padPin newPin)
  let message ← clientPinMessage
    [protocolEntry session.protocol, (2, uint subcommandChangePin),
      (3, session.keyAgreement.toValue),
      (4, .bytes (authenticate crypto.hashes session.protocol session.sharedSecret
        (newPinEnc ++ pinHashEnc))),
      (5, .bytes newPinEnc), (6, .bytes pinHashEnc)]
  selectThen message options fun response => typed response emptyPayload

def pinTokenEntries (session : PinSession) (subcommand : ℕ) (pinHashEnc : Bytes)
    (extra : List (ℕ × Value)) : List (ℕ × Value) :=
  [protocolEntry session.protocol, (2, uint subcommand), (3, session.keyAgreement.toValue),
    (6, .bytes pinHashEnc)] ++ extra

def parsePinToken (crypto : Primitives) (session : PinSession) (bytes : Bytes) :
    Except Error PinToken := do
  let value ← decoded bytes
  let encrypted ← required ((← required (value.mapGetInt 2)).asBytes)
  (decrypt (cbc crypto.aes) session.protocol session.sharedSecret encrypted).map PinToken.mk

def pinTokenOperation (crypto : Primitives) (session : PinSession) (message : Bytes)
    (options : OperationOptions) : Except Error (Operation (Sequence PinToken) PinToken) :=
  selectThen message options fun response => typed response (parsePinToken crypto session)

def getPinToken (crypto : Primitives) (session : PinSession) (pin : Bytes)
    (iv : Option (ByteArrayOf 16)) (options : OperationOptions) :
    Except Error (Operation (Sequence PinToken) PinToken) := do
  validatePin pin
  checkIv session.protocol iv
  let pinHashEnc ← encrypt (cbc crypto.aes) session.protocol session.sharedSecret iv
    (pinHash crypto.hashes pin)
  let message ← clientPinMessage (pinTokenEntries session subcommandGetPinToken pinHashEnc [])
  pinTokenOperation crypto session message options

def getPinTokenWithPermissions (crypto : Primitives) (session : PinSession) (pin : Bytes)
    (permissions : Permissions) (rpId : Option String) (iv : Option (ByteArrayOf 16))
    (options : OperationOptions) : Except Error (Operation (Sequence PinToken) PinToken) := do
  validatePin pin
  checkIv session.protocol iv
  if permissions.bits = 0 ∨ rpId = some "" then .error invalidArgument
  else do
    let pinHashEnc ← encrypt (cbc crypto.aes) session.protocol session.sharedSecret iv
      (pinHash crypto.hashes pin)
    let message ← clientPinMessage
      (pinTokenEntries session subcommandGetPinTokenWithPermissions pinHashEnc
        ((9, uint permissions.bits.toNat) :: rpId.toList.map fun id => (10, .text id)))
    pinTokenOperation crypto session message options

end CtapClientPin
