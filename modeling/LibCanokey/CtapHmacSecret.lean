import LibCanokey.CtapAuthData
import LibCanokey.CtapMessage

/-! # The hmac-secret extension

The encrypted salts of an exchange and the output read from the authenticator data, over an
uninterpreted AES-256-CBC. -/
namespace CtapHmacSecret

open BigEndian CheckedCursor ProtocolError CtapCbor CtapCose CtapMessage CtapAuthData

def saltLen : ℕ := 32

/-- AES-256-CBC without padding, by key, initialization vector and whole blocks. -/
structure Aes256Cbc where
  encrypt : Bytes → Bytes → Bytes → Bytes
  decrypt : Bytes → Bytes → Bytes → Bytes

def invalidArgument : Error := .new .invalidArgument

/-- The caller's side of a key agreement; the key it sends is always its own point. -/
structure PinSession where
  protocol : PinUvAuthProtocol
  keyAgreement : CoseKey
  sharedSecret : Bytes
  platform : ∃ x y, keyAgreement = .p256 .ecdhEsHkdf256 x y

/-- Version 2 requires a vector from the caller and version 1 rejects one. -/
def checkIv (protocol : PinUvAuthProtocol) (iv : Option (ByteArrayOf 16)) : Except Error Unit :=
  if (protocol == .v2) ≠ iv.isSome then .error invalidArgument else .ok ()

def zeroIv : Bytes := List.replicate 16 0

def blocks (aes : Bytes → Bytes → Bytes → Bytes) (key iv text : Bytes) (refusal : Error) :
    Except Error Bytes :=
  if text.length % 16 ≠ 0 then .error refusal else .ok (aes key iv text)

def keyOf (sharedSecret : Bytes) (start stop : ℕ) (refusal : Error) : Except Error Bytes :=
  match slice sharedSecret start stop with
  | none => .error refusal
  | some key => .ok key

def encrypt (aes : Aes256Cbc) (protocol : PinUvAuthProtocol) (sharedSecret : Bytes)
    (iv : Option (ByteArrayOf 16)) (plaintext : Bytes) : Except Error Bytes :=
  match protocol with
  | .v1 => do
    let key ← keyOf sharedSecret 0 32 invalidArgument
    blocks aes.encrypt key zeroIv plaintext invalidArgument
  | .v2 => do
    let key ← keyOf sharedSecret 32 64 invalidArgument
    match iv with
    | none => .error invalidArgument
    | some iv => (blocks aes.encrypt key iv.1 plaintext invalidArgument).map (iv.1 ++ ·)

def decrypt (aes : Aes256Cbc) (protocol : PinUvAuthProtocol) (sharedSecret ciphertext : Bytes) :
    Except Error Bytes :=
  match protocol with
  | .v1 =>
    if ciphertext = [] ∨ ciphertext.length % 16 ≠ 0 then .error invalid
    else do
      let key ← keyOf sharedSecret 0 32 invalid
      blocks aes.decrypt key zeroIv ciphertext invalid
  | .v2 =>
    if ciphertext.length < 32 ∨ (ciphertext.length - 16) % 16 ≠ 0 then .error invalid
    else do
      let key ← keyOf sharedSecret 32 64 invalid
      blocks aes.decrypt key (ciphertext.take 16) (ciphertext.drop 16) invalid

/-- One salt or two. -/
abbrev HmacSecretSalts :=
  {salts : Bytes // salts.length = saltLen ∨ salts.length = 2 * saltLen}

def newSalts (salts : Bytes) : Except Error HmacSecretSalts :=
  if h : salts.length = saltLen ∨ salts.length = 2 * saltLen then .ok ⟨salts, h⟩
  else .error invalidArgument

structure HmacSecretInput where
  session : PinSession
  saltEnc : Bytes
  saltAuth : Bytes

def HmacSecretInput.new (aes : Aes256Cbc) (hashes : Hashes) (session : PinSession)
    (salts : HmacSecretSalts) (iv : Option (ByteArrayOf 16)) : Except Error HmacSecretInput := do
  checkIv session.protocol iv
  let saltEnc ← encrypt aes session.protocol session.sharedSecret iv salts.1
  .ok ⟨session, saltEnc, authenticate hashes session.protocol session.sharedSecret saltEnc⟩

def HmacSecretInput.toValue (input : HmacSecretInput) : Value :=
  .map [(.unsigned 1, input.session.keyAgreement.toValue), (.unsigned 2, .bytes input.saltEnc),
    (.unsigned 3, .bytes input.saltAuth),
    (.unsigned 4, .unsigned input.session.protocol.toU8.toUInt64)]

def HmacSecretInput.decryptOutput (aes : Aes256Cbc) (input : HmacSecretInput)
    (ciphertext : Bytes) : Except Error Bytes := do
  let plaintext ← decrypt aes input.session.protocol input.session.sharedSecret ciphertext
  if plaintext.length ≠ saltLen ∧ plaintext.length ≠ 2 * saltLen then .error invalid
  else .ok plaintext

/-- The output of a requested exchange; without a request the entry is left alone. -/
def exchangeOutput (aes : Aes256Cbc) (authData : AuthenticatorData) (key : String)
    (input : Option HmacSecretInput) : Except Error (Option Bytes) :=
  match input, authData.extensions.bind (·.mapGetText key) with
  | some input, some value => do
    let ciphertext ← required value.asBytes
    (input.decryptOutput aes ciphertext).map some
  | some _, none => .error invalid
  | none, _ => .ok none

def declarationSupported (authData : AuthenticatorData) : Except Error Bool :=
  match authData.extensions.bind (·.mapGetText "hmac-secret") with
  | none => .ok false
  | some value => required value.asBool

end CtapHmacSecret
