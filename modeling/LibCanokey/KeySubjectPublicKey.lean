import LibCanokey.KeyPublicKey

/-! # Subject public keys

The encoder of public keys over the ASN.1 library that it calls. Given that the library does its
part, the encoder succeeds on exactly the keys that pass its checks. -/
namespace KeySubjectPublicKey

open BigEndian ListTraversal ProtocolError ProtocolTlv ProtocolTlvFields CompatProfile KeyPublicKey

/-- The types and functions of the ASN.1 library. -/
structure DerLibrary where
  ObjectIdentifier : Type
  UintRef : Type
  Any : Type
  BitString : Type
  objectIdentifier : String → Option ObjectIdentifier
  uint : Bytes → Option UintRef
  rsaPublicKey : UintRef → UintRef → Option Bytes
  null : Any
  encodeFrom : ObjectIdentifier → Option Any
  bitString : Bytes → Option BitString
  subjectPublicKeyInfo : ObjectIdentifier → Option Any → BitString → Option Bytes

def bad : Error := .new .invalidArgument

/-- `map_err(|_| bad())?`. -/
def tried {α : Type} : Option α → Except Error α
  | none => .error bad
  | some value => .ok value

def rsaIdentifier : String := "1.2.840.113549.1.1.1"

def ecIdentifier : String := "1.2.840.10045.2.1"

def curveIdentifier : Algorithm → Option String
  | .eccP256 => some "1.2.840.10045.3.1.7"
  | .eccP384 => some "1.3.132.0.34"
  | .eccP521 => some "1.3.132.0.35"
  | .secp256k1 => some "1.3.132.0.10"
  | .sm2 => some "1.2.156.10197.1.301"
  | _ => none

def rawIdentifier : Algorithm → Option String
  | .ed25519 => some "1.3.101.112"
  | .x25519 => some "1.3.101.110"
  | .mlDsa65 => some "2.16.840.1.101.3.4.3.18"
  | .mlKem768 => some "2.16.840.1.101.3.4.4.2"
  | _ => none

/-- The algorithm identifier, its parameters and the key bytes. -/
def material (lib : DerLibrary) :
    PublicKey → Except Error (lib.ObjectIdentifier × Option lib.Any × Bytes)
  | .rsa algorithm modulus exponent =>
    if rsaLen algorithm ≠ some modulus.length ∨ exponent = [] ∨
        exponent.length > modulus.length ∨ modulus.head? = some 0 ∨ exponent.head? = some 0
    then .error bad
    else do
      let n ← tried (lib.uint modulus)
      let e ← tried (lib.uint exponent)
      let id ← tried (lib.objectIdentifier rsaIdentifier)
      let der ← tried (lib.rsaPublicKey n e)
      .ok (id, some lib.null, der)
  | .ec algorithm point =>
    if ((curveLen algorithm).all fun n => point.length ≠ 1 + 2 * n) ∨ point.head? ≠ some 4 then
      .error bad
    else
      match curveIdentifier algorithm with
      | none => .error bad
      | some curve => do
        let id ← tried (lib.objectIdentifier ecIdentifier)
        let named ← tried (lib.objectIdentifier curve)
        let parameters ← tried (lib.encodeFrom named)
        .ok (id, some parameters, point)
  | .raw algorithm bytes =>
    if rawLen algorithm ≠ some bytes.length then .error bad
    else
      match rawIdentifier algorithm with
      | none => .error bad
      | some name => do
        let id ← tried (lib.objectIdentifier name)
        .ok (id, none, bytes)

def toSpkiDer (lib : DerLibrary) (key : PublicKey) : Except Error Bytes := do
  let (algorithm, parameters, bytes) ← material lib key
  let bits ← tried (lib.bitString bytes)
  tried (lib.subjectPublicKeyInfo algorithm parameters bits)

/-- What the encoder checks of a key. -/
def Valid : PublicKey → Prop
  | .rsa algorithm modulus exponent =>
    rsaLen algorithm = some modulus.length ∧ exponent ≠ [] ∧ exponent.length ≤ modulus.length ∧
      modulus.head? ≠ some 0 ∧ exponent.head? ≠ some 0
  | .ec algorithm point =>
    ∃ n, curveLen algorithm = some n ∧ point.length = 1 + 2 * n ∧ point.head? = some 4
  | .raw algorithm bytes => rawLen algorithm = some bytes.length

/-- The dotted identifiers that the encoder names. -/
def identifiers : List String :=
  [rsaIdentifier, ecIdentifier, "1.2.840.10045.3.1.7", "1.3.132.0.34", "1.3.132.0.35",
    "1.3.132.0.10", "1.2.156.10197.1.301", "1.3.101.112", "1.3.101.110",
    "2.16.840.1.101.3.4.3.18", "2.16.840.1.101.3.4.4.2"]

/-- Parameters that the encoder gives. -/
def DerLibrary.Parameters (lib : DerLibrary) (parameters : Option lib.Any) : Prop :=
  parameters = none ∨ parameters = some lib.null ∨
    ∃ name ∈ identifiers, ∃ id, lib.objectIdentifier name = some id ∧
      lib.encodeFrom id = parameters

/-- The library succeeds on what is valid: well-formed dotted identifiers, positive integers in
canonical form and, far below the lengths that it supports, strings of any bytes. -/
structure DerLibrary.Succeeds (lib : DerLibrary) : Prop where
  objectIdentifier : ∀ name ∈ identifiers, ∃ id, lib.objectIdentifier name = some id
  uint : ∀ bytes, bytes ≠ [] → bytes.head? ≠ some 0 → bytes.length ≤ 2 ^ 16 →
    ∃ n, lib.uint bytes = some n
  rsaPublicKey : ∀ modulus exponent n e, lib.uint modulus = some n → lib.uint exponent = some e →
    modulus.length ≤ 2 ^ 16 → exponent.length ≤ 2 ^ 16 →
    ∃ der, lib.rsaPublicKey n e = some der ∧ der.length ≤ modulus.length + exponent.length + 32
  encodeFrom : ∀ name ∈ identifiers, ∀ id, lib.objectIdentifier name = some id →
    ∃ any, lib.encodeFrom id = some any
  bitString : ∀ bytes, bytes.length ≤ 2 ^ 16 → ∃ bits, lib.bitString bytes = some bits
  subjectPublicKeyInfo : ∀ name ∈ identifiers, ∀ id parameters bytes bits,
    lib.objectIdentifier name = some id → lib.Parameters parameters → bytes.length ≤ 2 ^ 16 →
    lib.bitString bytes = some bits →
    ∃ der, lib.subjectPublicKeyInfo id parameters bits = some der

section encoder

variable {lib : DerLibrary} {algorithm : Algorithm} {key : PublicKey} {n : ℕ}

theorem tried_eq_ok {α : Type} {tries : Option α} {value : α} :
    tried tries = .ok value ↔ tries = some value := by
  cases tries with
  | none => simp [tried]
  | some other => simp [tried]

theorem rsaLen_le (h : rsaLen algorithm = some n) : n ≤ 512 := by
  cases algorithm <;> cases h <;> decide

/-- Every curve has an identifier. -/
theorem curveLen_named (h : curveLen algorithm = some n) :
    n ≤ 66 ∧ ∃ name ∈ identifiers, curveIdentifier algorithm = some name := by
  cases algorithm <;> cases h <;> exact ⟨by decide, _, by decide, rfl⟩

theorem rawLen_named (h : rawLen algorithm = some n) :
    n ≤ 1952 ∧ ∃ name ∈ identifiers, rawIdentifier algorithm = some name := by
  cases algorithm <;> cases h <;> exact ⟨by decide, _, by decide, rfl⟩

/-- The checks are no more than validity. -/
theorem material_valid {found : lib.ObjectIdentifier × Option lib.Any × Bytes}
    (h : material lib key = .ok found) : Valid key := by
  cases key with
  | rsa algorithm modulus exponent =>
    rw [material] at h
    split at h
    · cases h
    · next hgood =>
      push Not at hgood
      obtain ⟨hlen, hnonempty, hexponent, hmodulus, hleading⟩ := hgood
      exact ⟨hlen, hnonempty, hexponent, hmodulus, hleading⟩
  | ec algorithm point =>
    rw [material] at h
    split at h
    · cases h
    · next hgood =>
      push Not at hgood
      obtain ⟨hlen, hfirst⟩ := hgood
      cases hcurve : curveLen algorithm with
      | none =>
        rw [hcurve] at hlen
        exact absurd rfl hlen
      | some n =>
        refine ⟨n, hcurve, ?_, hfirst⟩
        rw [hcurve] at hlen
        simpa using hlen
  | raw algorithm bytes =>
    rw [material] at h
    split at h
    · cases h
    · next hgood => exact not_not.mp hgood

/-- A valid key gives what the last call of the library takes. -/
theorem material_ok (hlib : lib.Succeeds) (h : Valid key) :
    ∃ name ∈ identifiers, ∃ id parameters bytes, material lib key = .ok (id, parameters, bytes) ∧
      lib.objectIdentifier name = some id ∧ lib.Parameters parameters ∧ bytes.length ≤ 2 ^ 16 := by
  cases key with
  | rsa algorithm modulus exponent =>
    obtain ⟨hlen, hnonempty, hexponent, hmodulus, hleading⟩ := h
    have hwidth := rsaLen_le hlen
    have hpositive : modulus ≠ [] := by
      rintro rfl
      exact hnonempty (List.length_eq_zero_iff.mp (Nat.le_zero.mp hexponent))
    obtain ⟨n, hn⟩ := hlib.uint modulus hpositive hmodulus (by omega)
    obtain ⟨e, he⟩ := hlib.uint exponent hnonempty hleading (by omega)
    obtain ⟨id, hid⟩ := hlib.objectIdentifier rsaIdentifier (by decide)
    obtain ⟨der, hder, hsize⟩ :=
      hlib.rsaPublicKey modulus exponent n e hn he (by omega) (by omega)
    refine ⟨rsaIdentifier, by decide, id, some lib.null, der, ?_, hid, Or.inr (Or.inl rfl),
      by omega⟩
    rw [material, if_neg (by simp [hlen, hnonempty, hexponent, hmodulus, hleading]), hn, he, hid]
    dsimp only [tried, bind, Except.bind]
    rw [hder]
  | ec algorithm point =>
    obtain ⟨n, hcurve, hlen, hfirst⟩ := h
    obtain ⟨hwidth, name, hname, hidentifier⟩ := curveLen_named hcurve
    obtain ⟨id, hid⟩ := hlib.objectIdentifier ecIdentifier (by decide)
    obtain ⟨named, hnamed⟩ := hlib.objectIdentifier name hname
    obtain ⟨any, hany⟩ := hlib.encodeFrom name hname named hnamed
    refine ⟨ecIdentifier, by decide, id, some any, point, ?_, hid,
      Or.inr (Or.inr ⟨name, hname, named, hnamed, hany⟩), by omega⟩
    rw [material, if_neg (by simp [hcurve, hlen, hfirst]), hidentifier]
    dsimp only
    rw [hid, hnamed]
    dsimp only [tried, bind, Except.bind]
    rw [hany]
  | raw algorithm bytes =>
    have hlen : rawLen algorithm = some bytes.length := h
    obtain ⟨hwidth, name, hname, hidentifier⟩ := rawLen_named hlen
    obtain ⟨id, hid⟩ := hlib.objectIdentifier name hname
    refine ⟨name, hname, id, none, bytes, ?_, hid, Or.inl rfl, by omega⟩
    rw [material, if_neg (not_not.mpr hlen), hidentifier]
    dsimp only
    rw [hid]
    rfl

/-- The keys that are encoded. -/
theorem toSpkiDer_iff (hlib : lib.Succeeds) : (∃ der, toSpkiDer lib key = .ok der) ↔ Valid key := by
  constructor
  · rintro ⟨der, h⟩
    obtain ⟨found, hfound, -⟩ := bind_eq_ok.mp h
    exact material_valid hfound
  · intro h
    obtain ⟨name, hname, id, parameters, bytes, hmaterial, hid, hparameters, hsize⟩ :=
      material_ok hlib h
    obtain ⟨bits, hbits⟩ := hlib.bitString bytes hsize
    obtain ⟨der, hder⟩ :=
      hlib.subjectPublicKeyInfo name hname id parameters bytes bits hid hparameters hsize hbits
    refine ⟨der, bind_eq_ok.mpr ⟨_, hmaterial, bind_eq_ok.mpr ⟨bits, ?_, ?_⟩⟩⟩
    · exact tried_eq_ok.mpr hbits
    · exact tried_eq_ok.mpr hder

end encoder

/-! ## A DER encoder -/

def element (tag : UInt8) (contents : Bytes) : Bytes :=
  tag :: (lengthField contents.length ++ contents)

/-- The contents of a positive integer: a zero stands before a first bit that is set. -/
def integerContents : Bytes → Bytes
  | [] => [0]
  | b :: bytes => if 0x80 ≤ b then 0 :: b :: bytes else b :: bytes

def identifierContents : List (String × Bytes) :=
  [(rsaIdentifier, [0x2a, 0x86, 0x48, 0x86, 0xf7, 0x0d, 1, 1, 1]),
    (ecIdentifier, [0x2a, 0x86, 0x48, 0xce, 0x3d, 2, 1]),
    ("1.2.840.10045.3.1.7", [0x2a, 0x86, 0x48, 0xce, 0x3d, 3, 1, 7]),
    ("1.3.132.0.34", [0x2b, 0x81, 4, 0, 0x22]),
    ("1.3.132.0.35", [0x2b, 0x81, 4, 0, 0x23]),
    ("1.3.132.0.10", [0x2b, 0x81, 4, 0, 0x0a]),
    ("1.2.156.10197.1.301", [0x2a, 0x81, 0x1c, 0xcf, 0x55, 1, 0x82, 0x2d]),
    ("1.3.101.112", [0x2b, 0x65, 0x70]),
    ("1.3.101.110", [0x2b, 0x65, 0x6e]),
    ("2.16.840.1.101.3.4.3.18", [0x60, 0x86, 0x48, 1, 0x65, 3, 4, 3, 0x12]),
    ("2.16.840.1.101.3.4.4.2", [0x60, 0x86, 0x48, 1, 0x65, 3, 4, 4, 2])]

/-- The library's functions on lengths of less than 2 ^ 32. -/
def derEncoder : DerLibrary where
  ObjectIdentifier := Bytes
  UintRef := Bytes
  Any := Bytes
  BitString := Bytes
  objectIdentifier name := identifierContents.lookup name
  uint bytes := some (bytes.dropWhile (· = 0))
  rsaPublicKey n e :=
    some (element 0x30 (element 2 (integerContents n) ++ element 2 (integerContents e)))
  null := element 5 []
  encodeFrom id := some (element 6 id)
  bitString bytes := some bytes
  subjectPublicKeyInfo id parameters bits :=
    some (element 0x30 (element 0x30 (element 6 id ++ parameters.getD []) ++
      element 3 (0 :: bits)))

theorem length_element_le (tag : UInt8) (contents : Bytes) :
    (element tag contents).length ≤ contents.length + 6 := by
  rw [element, List.length_cons, List.length_append]
  have hfield := length_lengthField_le contents.length
  omega

theorem length_integerContents_le (bytes : Bytes) :
    (integerContents bytes).length ≤ bytes.length + 1 := by
  cases bytes with
  | nil => exact le_refl 1
  | cons b bytes =>
    rw [integerContents]
    split <;> simp

theorem derEncoder_succeeds : derEncoder.Succeeds := by
  constructor
  · intro name hname
    exact Option.isSome_iff_exists.mp
      ((by decide : ∀ name ∈ identifiers, (identifierContents.lookup name).isSome) name hname)
  · intro bytes _ _ _
    exact ⟨_, rfl⟩
  · intro modulus exponent n e hn he _ _
    obtain rfl := Option.some.inj hn
    obtain rfl := Option.some.inj he
    refine ⟨_, rfl, (length_element_le _ _).trans ?_⟩
    rw [List.length_append]
    have hshorter (bytes : Bytes) : (bytes.dropWhile (· = 0)).length ≤ bytes.length :=
      (List.dropWhile_suffix _).length_le
    have hmodulus := hshorter modulus
    have hexponent := hshorter exponent
    have hn := length_integerContents_le (modulus.dropWhile (· = 0))
    have he := length_integerContents_le (exponent.dropWhile (· = 0))
    have hn' := length_element_le 2 (integerContents (modulus.dropWhile (· = 0)))
    have he' := length_element_le 2 (integerContents (exponent.dropWhile (· = 0)))
    omega
  · intro name _ id _
    exact ⟨_, rfl⟩
  · intro bytes _
    exact ⟨bytes, rfl⟩
  · intro name _ id parameters bytes bits _ _ _ _
    exact ⟨_, rfl⟩

example : (toSpkiDer derEncoder (.raw .ed25519 (List.replicate 32 0x42))).map (·.take 12) =
    .ok [0x30, 0x2a, 0x30, 5, 6, 3, 0x2b, 0x65, 0x70, 3, 0x21, 0] := by
  decide

end KeySubjectPublicKey
