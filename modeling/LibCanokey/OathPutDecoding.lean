import LibCanokey.OathExecute

/-! # Decoding PUT

A decoder for the data of PUT in each dialect, written for the reader of the other side, and that
it gives back every credential that a command is built for. -/
namespace OathPutDecoding

open BigEndian ProtocolError ProtocolConversation OathTypes OathExecute

/-- A field with the expected tag at the front, and what follows it. -/
def takeField (tag : UInt8) : Bytes → Option (Bytes × Bytes)
  | t :: length :: rest =>
    if t = tag ∧ length.toNat ≤ rest.length then
      some (rest.take length.toNat, rest.drop length.toNat)
    else none
  | _ => none

/-- The optional property: a field in the legacy dialect, a tag and a byte in the modern one. -/
def takeProperty (legacy : Bool) (bytes : Bytes) : Option (UInt8 × Bytes) :=
  if bytes.head? ≠ some 0x78 then some (0, bytes)
  else if legacy then
    match takeField 0x78 bytes with
    | some ([bits], rest) => some (bits, rest)
    | _ => none
  else
    match bytes with
    | _ :: bits :: rest => some (bits, rest)
    | _ => none

def Kind.ofWire (b : UInt8) : Option Kind :=
  if b &&& 0xf0 = 0x10 then some .hotp else if b &&& 0xf0 = 0x20 then some .totp else none

def Algorithm.ofWire (b : UInt8) : Option Algorithm :=
  if b &&& 0x0f = 1 then some .sha1
  else if b &&& 0x0f = 2 then some .sha256
  else if b &&& 0x0f = 3 then some .sha512
  else none

/-- The counter that follows for HOTP, and nothing after it. -/
def takeCounter (kind : Kind) (bytes : Bytes) : Option UInt32 :=
  match kind with
  | .totp => if bytes = [] then some 0 else none
  | .hotp =>
    match takeField 0x7a bytes with
    | some (counter, []) =>
      if counter.length = 4 then some (UInt32.ofNat (ofBeBytes counter)) else none
    | _ => none

def decodePut (legacy : Bool) (data : Bytes) : Option Credential := do
  let (name, rest) ← takeField 0x71 data
  let name ← (Name.fromBytes name).toOption
  match ← takeField 0x73 rest with
  | (type :: digits :: secret, rest) =>
    let kind ← Kind.ofWire type
    let algorithm ← Algorithm.ofWire type
    let (bits, rest) ← takeProperty legacy rest
    let counter ← takeCounter kind rest
    some
      { name := name
        kind := kind
        algorithm := algorithm
        digits := digits
        secret := secret
        requireTouch := bits &&& 2 != 0
        increasing := bits &&& 1 != 0
        initialCounter := counter }
  | _ => none

section fields

variable {tag : UInt8} {bytes rest : Bytes}

theorem length_byte (h : bytes.length < 256) : (UInt8.ofNat bytes.length).toNat = bytes.length :=
  toNat_ofNat_of_lt h

theorem takeField_field (h : bytes.length < 256) :
    takeField tag (field tag bytes ++ rest) = some (bytes, rest) := by
  have hread : takeField tag (field tag bytes ++ rest) =
      if tag = tag ∧ (UInt8.ofNat bytes.length).toNat ≤ (bytes ++ rest).length then
        some ((bytes ++ rest).take (UInt8.ofNat bytes.length).toNat,
          (bytes ++ rest).drop (UInt8.ofNat bytes.length).toNat)
      else none := rfl
  rw [hread, length_byte h, if_pos ⟨rfl, by simp⟩, List.take_left, List.drop_left]

end fields

theorem ofWire_wire (kind : Kind) (algorithm : Algorithm) :
    Kind.ofWire (kind.wire ||| algorithm.wire) = some kind ∧
      Algorithm.ofWire (kind.wire ||| algorithm.wire) = some algorithm := by
  cases kind <;> cases algorithm <;> decide

/-- The property bits of a credential. -/
def propertyBits (c : Credential) : UInt8 := c.increasing.toUInt8 ||| (c.requireTouch.toUInt8 <<< 1)

theorem propertyBits_read (c : Credential) :
    (propertyBits c &&& 2 != 0) = c.requireTouch ∧ (propertyBits c &&& 1 != 0) = c.increasing := by
  rw [propertyBits]
  cases c.requireTouch <;> cases c.increasing <;> decide

/-- The counter field never starts with the tag of the property. -/
theorem takeProperty_properties {legacy : Bool} {c : Credential} {rest : Bytes}
    (h : rest.head? ≠ some 0x78) :
    takeProperty legacy (properties legacy c ++ rest) = some (propertyBits c, rest) := by
  have hbits : (c.increasing.toUInt8 ||| (c.requireTouch.toUInt8 <<< 1)) = propertyBits c := rfl
  rw [properties, hbits]
  by_cases hnone : propertyBits c = 0
  · have habsent : takeProperty legacy rest = some (0, rest) := if_pos h
    rw [if_pos hnone, hnone, List.nil_append, habsent]
  · rw [if_neg hnone]
    cases legacy with
    | true =>
      have hfield : takeField 0x78 (field 0x78 [propertyBits c] ++ rest) =
          some ([propertyBits c], rest) := takeField_field (by simp)
      have hread : takeProperty true (field 0x78 [propertyBits c] ++ rest) =
          match takeField 0x78 (field 0x78 [propertyBits c] ++ rest) with
          | some ([bits], rest) => some (bits, rest)
          | _ => none := rfl
      rw [if_pos rfl, hread, hfield]
    | false => rfl

theorem takeCounter_counter {c : Credential} (h : putRejected c = false) :
    takeCounter c.kind (if c.kind = .hotp then field 0x7a (toBeBytes 4 c.initialCounter.toNat)
      else []) = some c.initialCounter := by
  cases hkind : c.kind with
  | totp =>
    have hzero : c.initialCounter = 0 := by
      simp only [putRejected, hkind] at h
      exact (by simpa using h : _ ∧ c.initialCounter = 0).2
    rw [hzero]
    rfl
  | hotp =>
    have hlen : (toBeBytes 4 c.initialCounter.toNat).length = 4 := length_toBeBytes _ _
    have hfield := @takeField_field 0x7a (toBeBytes 4 c.initialCounter.toNat) [] (by omega)
    rw [List.append_nil] at hfield
    have hvalue : ofBeBytes (toBeBytes 4 c.initialCounter.toNat) = c.initialCounter.toNat :=
      ofBeBytes_toBeBytes c.initialCounter.toNat_lt
    rw [if_pos rfl, takeCounter, hfield]
    dsimp only
    rw [if_pos hlen, hvalue, UInt32.ofNat_toNat]

/-- The lengths that a command writes in one byte. -/
theorem put_lengths {c : Credential} (h : putRejected c = false) :
    c.name.bytes.length < 256 ∧ c.secret.length + 2 < 256 := by
  have hname := c.name.bounded
  simp only [putRejected, Bool.or_eq_false_iff, Bool.not_eq_false', Bool.and_eq_true,
    decide_eq_true_eq] at h
  obtain ⟨⟨⟨_, _, hsecret⟩, _⟩, _⟩ := h
  omega

theorem putData_fields (legacy : Bool) (c : Credential) : putData legacy c =
    field 0x71 c.name.bytes ++ (field 0x73 ((c.kind.wire ||| c.algorithm.wire) :: c.digits ::
      c.secret) ++ (properties legacy c ++
        if c.kind = .hotp then field 0x7a (toBeBytes 4 c.initialCounter.toNat) else [])) := by
  simp only [putData, field, List.append_assoc, List.cons_append, List.nil_append,
    List.length_cons]

theorem decodePut_putData (legacy : Bool) {c : Credential} (h : putRejected c = false) :
    decodePut legacy (putData legacy c) = some c := by
  obtain ⟨hname, hsecret⟩ := put_lengths h
  have hcounter : (if c.kind = .hotp then field 0x7a (toBeBytes 4 c.initialCounter.toNat)
      else []).head? ≠ some 0x78 := by
    split_ifs
    · exact fun hhead => absurd (Option.some.inj hhead) (by decide)
    · exact fun hhead => by cases hhead
  have hkey : ((c.kind.wire ||| c.algorithm.wire) :: c.digits :: c.secret).length < 256 := by
    rw [List.length_cons, List.length_cons]
    exact hsecret
  have hvalid : Name.fromBytes c.name.bytes = .ok c.name := dif_pos c.name.bounded
  obtain ⟨hkind, halgorithm⟩ := ofWire_wire c.kind c.algorithm
  obtain ⟨htouch, hincreasing⟩ := propertyBits_read c
  rw [decodePut, putData_fields, takeField_field hname, Option.bind_eq_bind, Option.bind_some]
  dsimp only
  rw [hvalid, takeField_field hkey]
  simp only [Except.toOption, Option.bind_eq_bind, Option.bind_some, hkind, halgorithm,
    takeProperty_properties hcounter, takeCounter_counter h, htouch, hincreasing]

/-- What the command for a credential says, in the bytes that are sent. -/
structure Faithful (legacy : Bool) (c : Credential) (data : Bytes) : Prop where
  decoded : decodePut legacy data = some c
  nameLength : (UInt8.ofNat c.name.bytes.length).toNat = c.name.bytes.length
  keyLength : (UInt8.ofNat (c.secret.length + 2)).toNat = c.secret.length + 2
  alone : ∀ hmac slots c' command', target hmac (.put c') legacy slots = .ok (some command') →
    command'.data = data → c' = c

theorem target_put {hmac : HmacSha1} {legacy slots : Bool} {c : Credential} {cmd : LogicalCommand}
    (h : target hmac (.put c) legacy slots = .ok (some cmd)) :
    putRejected c = false ∧ cmd.data = putData legacy c := by
  rw [target] at h
  split_ifs at h with hrejected
  cases h
  exact ⟨by simpa using hrejected, rfl⟩

/-- Every credential that a command is built for is decoded from its data, in both dialects, and
from no other credential's. -/
theorem put_unambiguous {hmac : HmacSha1} {legacy slots : Bool} {c : Credential}
    {cmd : LogicalCommand} (h : target hmac (.put c) legacy slots = .ok (some cmd)) :
    Faithful legacy c cmd.data := by
  obtain ⟨haccepted, hdata⟩ := target_put h
  obtain ⟨hname, hsecret⟩ := put_lengths haccepted
  have hdecoded : decodePut legacy cmd.data = some c := by
    rw [hdata]
    exact decodePut_putData legacy haccepted
  refine ⟨hdecoded, toNat_ofNat_of_lt hname, toNat_ofNat_of_lt hsecret, ?_⟩
  intro hmac' slots' c' command' h' hsame
  obtain ⟨haccepted', hdata'⟩ := target_put h'
  have hdecoded' := decodePut_putData legacy haccepted'
  rw [← hdata', hsame, hdecoded] at hdecoded'
  exact (Option.some.inj hdecoded').symm

/-- A HOTP credential that needs a touch, where both optional fields are written. -/
def exampleCredential : Credential :=
  { name := ⟨[0x61], by decide⟩
    kind := .hotp
    algorithm := .sha256
    digits := 6
    secret := [1, 2, 3]
    requireTouch := true
    increasing := false
    initialCounter := 258 }

theorem put_unambiguous_hotp :
    Faithful false exampleCredential
      [0x71, 1, 0x61, 0x73, 5, 0x12, 6, 1, 2, 3, 0x78, 2, 0x7a, 4, 0, 0, 1, 2] ∧
    Faithful true exampleCredential
      [0x71, 1, 0x61, 0x73, 5, 0x12, 6, 1, 2, 3, 0x78, 1, 2, 0x7a, 4, 0, 0, 1, 2] := by
  have hmodern : target (fun _ _ => ⟨List.replicate 20 0, rfl⟩) (.put exampleCredential) false
      false = .ok (some _) := rfl
  have hlegacy : target (fun _ _ => ⟨List.replicate 20 0, rfl⟩) (.put exampleCredential) true
      false = .ok (some _) := rfl
  exact ⟨put_unambiguous hmodern, put_unambiguous hlegacy⟩

end OathPutDecoding
