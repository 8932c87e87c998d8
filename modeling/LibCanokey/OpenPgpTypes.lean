import LibCanokey.KeyPublicKey
import LibCanokey.ProtocolOperation

/-! # OpenPGP requests

Passwords, slots and data objects that cannot hold an invalid value, the requests of the
OpenPGP applet and what they return. -/
namespace OpenPgpTypes

open BigEndian ProtocolError CompatProfile KeyPublicKey

def argument : Error := .new .invalidArgument

def invalid : Error := (Error.new .invalidResponse).atPhase .parsing

def unsupportedAlgorithm : Error := .new .unsupportedAlgorithm

/-- Bytes of a fixed count. -/
abbrev FixedBytes (n : ℕ) := {b : Bytes // b.length = n}

inductive PasswordReference where
  | pw1Sign
  | pw1Other
  | pw3
  deriving DecidableEq, Repr

def PasswordReference.wire : PasswordReference → UInt8
  | .pw1Sign => 0x81
  | .pw1Other => 0x82
  | .pw3 => 0x83

def PasswordReference.secret : PasswordReference → SecretReference
  | .pw1Sign => .pw1Sign
  | .pw1Other => .pw1Other
  | .pw3 => .pw3

/-- An unpadded password of six through 64 bytes. -/
structure Password where
  bytes : Bytes
  lower : 6 ≤ bytes.length
  upper : bytes.length ≤ 64
  deriving DecidableEq

def Password.fromBytes (bytes : Bytes) : Except Error Password :=
  if h : 6 ≤ bytes.length ∧ bytes.length ≤ 64 then .ok ⟨bytes, h.1, h.2⟩
  else .error (.new .invalidPin)

structure Access where
  reference : PasswordReference
  password : Password
  deriving DecidableEq

inductive Slot where
  | signature
  | decryption
  | authentication
  deriving DecidableEq, Repr

def Slot.occurrence : Slot → UInt8
  | .signature => 0
  | .decryption => 1
  | .authentication => 2

def Slot.wire : Slot → UInt8
  | .signature => 0xb6
  | .decryption => 0xb8
  | .authentication => 0xa4

def Slot.attributes (slot : Slot) : UInt8 := 0xc1 + slot.occurrence

inductive TouchPolicy where
  | off
  | on
  | permanent
  deriving DecidableEq, Repr

def TouchPolicy.wire : TouchPolicy → UInt8
  | .off => 0
  | .on => 1
  | .permanent => 2

inductive DataWrite where
  | name (value : Bytes)
  | login (value : Bytes)
  | language (value : Bytes)
  | sex (value : UInt8)
  | url (value : Bytes)
  | resetCode (code : Option Password)
  | reuseSignaturePin (reuse : Bool)
  | touchPolicy (slot : Slot) (policy : TouchPolicy)
  | touchCacheTime (seconds : UInt8)
  | algorithm (slot : Slot) (algorithm : Algorithm)
  | fingerprint (slot : Slot) (bytes : FixedBytes 20)
  | caFingerprint (slot : Slot) (bytes : FixedBytes 20)
  | generationTime (slot : Slot) (time : UInt32)

inductive PrivateKey where
  | rsa (exponent : FixedBytes 4) (p q qInverse dP dQ : Bytes)
  | ec (bytes : Bytes)

inductive Request where
  | readData (tag : UInt16)
  | readCertificate (slot : Slot)
  | writeCertificate (slot : Slot) (bytes : Bytes)
  | pinStatus (reference : PasswordReference)
  | verify
  | logout (reference : PasswordReference)
  | changePassword (reference : PasswordReference) (old new : Password)
  | unblockWithAdmin (new : Password)
  | unblockWithCode (code new : Password)
  | resetRetries (retries : FixedBytes 3)
  | writeData (value : DataWrite)
  | readPublicKey (slot : Slot)
  | generateKey (slot : Slot)
  | importKey (slot : Slot) (algorithm : Algorithm) (key : PrivateKey)
  | sign (algorithm : Algorithm) (bytes : Bytes)
  | authenticate (algorithm : Algorithm) (bytes : Bytes)
  | decrypt (algorithm : Algorithm) (bytes : Bytes)
  | derive (algorithm : Algorithm) (peer : Bytes)
  | terminate
  | activate

structure PinStatus where
  verified : Bool
  retriesRemaining : Option UInt8
  blocked : Bool
  deriving DecidableEq, Repr

inductive Outcome where
  | bytes (bytes : Bytes)
  | unit
  | pinStatus (status : PinStatus)
  | publicKey (key : PublicKey)
  | signature (algorithm : Algorithm) (bytes : Bytes)

/-- The slot whose attributes a request depends on, and the algorithm its caller expects. -/
def Request.key : Request → Option (Slot × Option Algorithm)
  | .readPublicKey slot => some (slot, none)
  | .generateKey slot => some (slot, none)
  | .importKey slot algorithm _ => some (slot, some algorithm)
  | .sign a _ => some (.signature, some a)
  | .authenticate a _ => some (.authentication, some a)
  | .decrypt a _ => some (.decryption, some a)
  | .derive a _ => some (.decryption, some a)
  | _ => none

def Request.isVerify : Request → Bool
  | .verify => true
  | _ => false

def Request.isTerminate : Request → Bool
  | .terminate => true
  | _ => false

def Request.isActivate : Request → Bool
  | .activate => true
  | _ => false

def Request.isPinStatus : Request → Bool
  | .pinStatus _ => true
  | _ => false

def Request.generates : Request → Bool
  | .generateKey _ => true
  | _ => false

def Request.imports : Request → Bool
  | .importKey _ _ _ => true
  | _ => false

/-- The certificate slot that SELECT DATA chooses. -/
def Request.certificate : Request → Option Slot
  | .readCertificate slot => some slot
  | .writeCertificate slot _ => some slot
  | _ => none

/-- The password a protected request must come with. -/
def Request.required : Request → Option PasswordReference
  | .writeCertificate _ _ => some .pw3
  | .unblockWithAdmin _ => some .pw3
  | .resetRetries _ => some .pw3
  | .writeData _ => some .pw3
  | .generateKey _ => some .pw3
  | .importKey _ _ _ => some .pw3
  | .sign _ _ => some .pw1Sign
  | .authenticate _ _ => some .pw1Other
  | .decrypt _ _ => some .pw1Other
  | .derive _ _ => some .pw1Other
  | _ => none

/-- Requests that take no access at all. -/
def Request.bare : Request → Bool
  | .pinStatus _ => true
  | .logout _ => true
  | .changePassword _ _ _ => true
  | .unblockWithCode _ _ => true
  | .activate => true
  | _ => false

end OpenPgpTypes

namespace CompatProfile

/-- Generation is narrower than import and use: before 2.0 only RSA-2048. -/
def DeviceProfile.openpgpAlgorithmSupport (p : DeviceProfile) (algorithm : Algorithm)
    (generate : Bool) : CapabilityStatus :=
  match algorithm with
  | .rsa2048 | .eccP256 | .eccP384 | .secp256k1 | .ed25519 | .x25519 =>
    p.firmwareRange ⟨1, 3, 0⟩ ⟨3, 1, 0⟩
  | .rsa4096 => p.firmwareRange (if generate then ⟨2, 0, 0⟩ else ⟨1, 3, 0⟩) ⟨3, 1, 0⟩
  | .rsa3072 => p.firmwareRange ⟨2, 0, 0⟩ ⟨3, 1, 0⟩
  | .eccP521 => p.firmwareRange ⟨3, 1, 0⟩ ⟨3, 1, 0⟩
  | _ => ⟨.unsupported, .firmwareMatrix⟩

end CompatProfile
