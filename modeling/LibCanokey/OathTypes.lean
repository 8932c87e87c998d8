import LibCanokey.CompatProfile
import LibCanokey.ProtocolOperation

/-! # OATH credentials and requests

Names, keys and challenges that cannot hold an invalid value, the requests of the OATH applet
and what they return. Over an uninterpreted HMAC-SHA1. -/
namespace OathTypes

open BigEndian ListTraversal ProtocolError

abbrev HmacSha1 := Bytes → Bytes → {b : Bytes // b.length = 20}

def argument : Error := .new .invalidArgument

def invalid : Error := (Error.new .invalidResponse).atPhase .parsing

/-- Bytes of a fixed count. -/
abbrev FixedBytes (n : ℕ) := {b : Bytes // b.length = n}

/-- `try_into` of a slice. -/
def fixed (n : ℕ) (bytes : Bytes) : Except Error (FixedBytes n) :=
  if h : bytes.length = n then .ok ⟨bytes, h⟩ else .error invalid

/-- A credential name of one through 64 opaque bytes. -/
structure Name where
  bytes : Bytes
  bounded : 1 ≤ bytes.length ∧ bytes.length ≤ 64
  deriving DecidableEq

def Name.fromBytes (bytes : Bytes) : Except Error Name :=
  if h : 1 ≤ bytes.length ∧ bytes.length ≤ 64 then .ok ⟨bytes, h⟩ else .error argument

inductive Algorithm where
  | sha1
  | sha256
  | sha512
  deriving DecidableEq, Repr

def Algorithm.wire : Algorithm → UInt8
  | .sha1 => 1
  | .sha256 => 2
  | .sha512 => 3

def Algorithm.len : Algorithm → ℕ
  | .sha1 => 20
  | .sha256 => 32
  | .sha512 => 64

inductive Kind where
  | hotp
  | totp
  deriving DecidableEq, Repr

def Kind.wire : Kind → UInt8
  | .hotp => 0x10
  | .totp => 0x20

structure Credential where
  name : Name
  kind : Kind
  algorithm : Algorithm
  digits : UInt8
  secret : Bytes
  requireTouch : Bool
  increasing : Bool
  initialCounter : UInt32

abbrev AccessKey := FixedBytes 16

def AccessKey.fromBytes (bytes : Bytes) : Except Error AccessKey :=
  if h : bytes.length = 16 then .ok ⟨bytes, h⟩ else .error argument

structure Access where
  key : AccessKey
  challenge : FixedBytes 8

structure Selection where
  version : FixedBytes 3
  handle : FixedBytes 8
  challenge : Option (FixedBytes 8)
  algorithm : Option UInt8
  raw : Bytes

inductive Format where
  | truncated
  | full
  deriving DecidableEq, Repr

inductive DefaultSlot where
  | short
  | long
  deriving DecidableEq, Repr

def DefaultSlot.wire : DefaultSlot → UInt8
  | .short => 1
  | .long => 2

inductive HmacSlot where
  | short
  | long
  deriving DecidableEq, Repr

def HmacSlot.wire : HmacSlot → UInt8
  | .short => 0x30
  | .long => 0x38

inductive Request where
  | select
  | validate
  | list
  | put (credential : Credential)
  | delete (name : Name)
  | rename (old new : Name)
  | calculate (name : Name) (kind : Kind) (algorithm : Algorithm)
      (challenge : Option (FixedBytes 8)) (format : Format)
  | calculateAll (challenge : FixedBytes 8) (format : Format)
  | setCode (key : AccessKey) (challenge : FixedBytes 8)
  | clearCode
  | setDefault (slot : DefaultSlot) (appendEnter : Bool) (name : Name)
  | getSerial
  | challengeResponseHmac (slot : HmacSlot) (challenge : Bytes)

structure Entry where
  name : Name
  algorithmType : UInt8
  digits : Option UInt8

inductive Code where
  | truncated (bytes : Bytes)
  | full (bytes : Bytes)
  | hotp
  | touchRequired

structure Calculation where
  name : Option Name
  digits : UInt8
  code : Code

inductive Outcome where
  | selection (selection : Selection)
  | legacySelection (serial : Option (FixedBytes 4))
  | entries (entries : List Entry)
  | calculations (calculations : List Calculation)
  | serial (serial : FixedBytes 4)
  | challengeResponse (bytes : Bytes)
  | unit

/-- SELECT alone, which reports and authenticates nothing. -/
def Request.isSelect : Request → Bool
  | .select => true
  | _ => false

def Request.isValidate : Request → Bool
  | .validate => true
  | _ => false

/-- The vendor extension commands, which the firmware answers before its access check. -/
def Request.challengeResponse : Request → Bool
  | .getSerial => true
  | .challengeResponseHmac _ _ => true
  | _ => false

def Request.isHmac : Request → Bool
  | .challengeResponseHmac _ _ => true
  | _ => false

/-- Requests that the legacy dialect lacks. -/
def Request.modern : Request → Bool
  | .validate => true
  | .setCode _ _ => true
  | .clearCode => true
  | .rename _ _ => true
  | .put c => c.algorithm == .sha512
  | .calculate _ _ algorithm _ _ => algorithm == .sha512
  | _ => false

def Request.full : Request → Bool
  | .calculate _ _ _ _ format => format == .full
  | .calculateAll _ format => format == .full
  | _ => false

/-- A default slot that the single-slot dialect cannot express. -/
def Request.needsSlots : Request → Bool
  | .setDefault slot appendEnter _ => slot != .short || appendEnter
  | _ => false

/-- Requests that name one credential, for which 6984 says that it is absent. -/
def Request.named : Request → Bool
  | .delete _ => true
  | .rename _ _ => true
  | .calculate _ _ _ _ _ => true
  | .setDefault _ _ _ => true
  | _ => false

/-- The least page of a paged request: one complete entry. -/
def Request.minimum (legacy : Bool) : Request → Option ℕ
  | .list => some (if legacy then 70 else 67)
  | .calculateAll _ _ => some 133
  | _ => none

end OathTypes
