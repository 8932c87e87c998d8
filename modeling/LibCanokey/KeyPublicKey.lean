import LibCanokey.CompatProfile
import LibCanokey.ProtocolTlvFields

/-! # Public-key fields

The widths of the key algorithms and the parser of the public-key template, as the key crate
computes them. -/
namespace KeyPublicKey

open BigEndian ProtocolError ProtocolTlv ProtocolTlvFields CompatProfile

inductive PublicKey where
  | rsa (algorithm : Algorithm) (modulus exponent : Bytes)
  | ec (algorithm : Algorithm) (point : Bytes)
  | raw (algorithm : Algorithm) (bytes : Bytes)
  deriving DecidableEq, Repr

def PublicKey.algorithm : PublicKey → Algorithm
  | .rsa algorithm .. => algorithm
  | .ec algorithm .. => algorithm
  | .raw algorithm .. => algorithm

def rsaLen : Algorithm → Option ℕ
  | .rsa1024 => some 128
  | .rsa2048 => some 256
  | .rsa3072 => some 384
  | .rsa4096 => some 512
  | _ => none

def curveLen : Algorithm → Option ℕ
  | .eccP256 | .secp256k1 | .sm2 => some 32
  | .eccP384 => some 48
  | .eccP521 => some 66
  | _ => none

def rawLen : Algorithm → Option ℕ
  | .ed25519 | .x25519 => some 32
  | .mlDsa65 => some 1952
  | .mlKem768 => some 1184
  | _ => none

def unsigned (bytes : Bytes) : Except Error Bytes :=
  match bytes.findIdx? (· ≠ 0) with
  | none => .error malformed
  | some start => .ok (bytes.drop start)

structure Components where
  modulus : Option Bytes := none
  exponent : Option Bytes := none
  point : Option Bytes := none

def Components.take (c : Components) (field : Tlv) : Except Error Components :=
  if field.tag.value = 0x81 ∧ c.modulus.isNone then .ok { c with modulus := some field.value }
  else if field.tag.value = 0x82 ∧ c.exponent.isNone then
    .ok { c with exponent := some field.value }
  else if field.tag.value = 0x86 ∧ c.point.isNone then .ok { c with point := some field.value }
  else .error malformed

/-- `ok_or_else(invalid)?`. -/
def required {α : Type} : Option α → Except Error α
  | none => .error malformed
  | some value => .ok value

def rsaKey (algorithm : Algorithm) (len : ℕ) (c : Components) : Except Error PublicKey :=
  if c.point.isSome then .error malformed
  else do
    let modulus ← unsigned (← required c.modulus)
    let exponent ← unsigned (← required c.exponent)
    if modulus.length ≠ len ∨ exponent.length > len then .error malformed
    else .ok (.rsa algorithm modulus exponent)

def pointKey (algorithm : Algorithm) (c : Components) : Except Error PublicKey :=
  if c.modulus.isSome ∨ c.exponent.isSome then .error malformed
  else do
    let point ← required c.point
    match curveLen algorithm with
    | some len =>
      if point.length ≠ 1 + len * 2 ∨ point.head? ≠ some 4 then .error malformed
      else .ok (.ec algorithm point)
    | none =>
      if rawLen algorithm = some point.length then .ok (.raw algorithm point)
      else .error malformed

def PublicKey.fromTlv (algorithm : Algorithm) (bytes : Bytes) (maxBytes : ℕ) :
    Except Error PublicKey :=
  if bytes.length > maxBytes then .error (.new .limitExceeded)
  else do
    let c ← readFields Components.take (.new bytes { maxValueBytes := maxBytes }) {}
    match rsaLen algorithm with
    | some len => rsaKey algorithm len c
    | none => pointKey algorithm c

end KeyPublicKey
