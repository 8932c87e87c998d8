import LibCanokey.CtapValue

/-! # COSE public keys

The algorithms authenticators name and the keys read from a decoded map. -/
namespace CtapCose

open BigEndian ProtocolError CtapCbor

inductive CoseAlgorithm where
  | es256
  | ed25519
  | mlDsa44
  | mlDsa65
  | mlDsa87
  | ecdhEsHkdf256
  | unknown (id : ℤ)
  deriving DecidableEq, Repr

def CoseAlgorithm.fromId (id : ℤ) : CoseAlgorithm :=
  if id = -7 ∨ id = -9 then .es256
  else if id = -8 ∨ id = -19 then .ed25519
  else if id = -48 then .mlDsa44
  else if id = -49 then .mlDsa65
  else if id = -50 then .mlDsa87
  else if id = -25 then .ecdhEsHkdf256
  else .unknown id

def CoseAlgorithm.id : CoseAlgorithm → ℤ
  | .es256 => -7
  | .ed25519 => -8
  | .mlDsa44 => -48
  | .mlDsa65 => -49
  | .mlDsa87 => -50
  | .ecdhEsHkdf256 => -25
  | .unknown id => id

/-- The public-key length of an ML-DSA algorithm. -/
def CoseAlgorithm.mlDsaLen : CoseAlgorithm → ℕ
  | .mlDsa44 => 1312
  | .mlDsa65 => 1952
  | _ => 2592

inductive CoseKey where
  | p256 (algorithm : CoseAlgorithm) (x y : {b : Bytes // b.length = 32})
  | ed25519 (x : {b : Bytes // b.length = 32})
  | mlDsa (algorithm : CoseAlgorithm) (key : Bytes)
  | unknown (map : Value)
  deriving DecidableEq

def fixedBytes (value : Option Value) : Except Error {b : Bytes // b.length = 32} := do
  let bytes ← required (value.bind Value.asBytes)
  if h : bytes.length = 32 then .ok ⟨bytes, h⟩ else .error invalid

def p256Key (algorithm : CoseAlgorithm) (kty : ℤ) (value : Value) : Except Error CoseKey :=
  if kty ≠ 2 ∨ (value.mapGetInt (-4)).isSome then .error invalid
  else do
    let crv ← required ((value.mapGetInt (-1)).bind Value.asInt)
    let x ← fixedBytes (value.mapGetInt (-2))
    let y ← fixedBytes (value.mapGetInt (-3))
    if crv ≠ 1 then .error invalid else .ok (.p256 algorithm x y)

def ed25519Key (kty : ℤ) (value : Value) : Except Error CoseKey :=
  if kty ≠ 1 ∨ (value.mapGetInt (-4)).isSome then .error invalid
  else do
    let crv ← required ((value.mapGetInt (-1)).bind Value.asInt)
    let x ← fixedBytes (value.mapGetInt (-2))
    if crv ≠ 6 then .error invalid else .ok (.ed25519 x)

def mlDsaKey (algorithm : CoseAlgorithm) (kty : ℤ) (value : Value) : Except Error CoseKey :=
  if kty ≠ 7 ∨ (value.mapGetInt (-2)).isSome then .error invalid
  else do
    let key ← required ((value.mapGetInt (-1)).bind Value.asBytes)
    if key.length ≠ algorithm.mlDsaLen then .error invalid else .ok (.mlDsa algorithm key)

def CoseKey.fromValue (value : Value) : Except Error CoseKey := do
  let _ ← required value.asMap
  let kty ← required ((value.mapGetInt 1).bind Value.asInt)
  let id ← required ((value.mapGetInt 3).bind Value.asInt)
  match CoseAlgorithm.fromId id with
  | .es256 => p256Key .es256 kty value
  | .ecdhEsHkdf256 => p256Key .ecdhEsHkdf256 kty value
  | .ed25519 => ed25519Key kty value
  | .mlDsa44 => mlDsaKey .mlDsa44 kty value
  | .mlDsa65 => mlDsaKey .mlDsa65 kty value
  | .mlDsa87 => mlDsaKey .mlDsa87 kty value
  | .unknown _ => .ok (.unknown value)

def CoseKey.toValue : CoseKey → Value
  | .p256 algorithm x y => .map [(.fromInt 1, .fromInt 2), (.fromInt 3, .fromInt algorithm.id),
      (.fromInt (-1), .fromInt 1), (.fromInt (-2), .bytes x.1), (.fromInt (-3), .bytes y.1)]
  | .ed25519 x => .map [(.fromInt 1, .fromInt 1), (.fromInt 3, .fromInt CoseAlgorithm.ed25519.id),
      (.fromInt (-1), .fromInt 6), (.fromInt (-2), .bytes x.1)]
  | .mlDsa algorithm key => .map [(.fromInt 1, .fromInt 7), (.fromInt 3, .fromInt algorithm.id),
      (.fromInt (-1), .bytes key)]
  | .unknown map => map

end CtapCose
