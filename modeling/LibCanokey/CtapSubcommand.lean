import LibCanokey.CtapFields

/-! # Authenticated subcommand messages

The message that credential management and configuration share, up to the command byte and
the header of the authenticated input, and its layout as bytes. -/
namespace CtapSubcommand

open BigEndian ListTraversal ProtocolError CtapCbor CtapMessage CtapFields

/-- `{1: subcommand, 2?: params, 3: pinUvAuthProtocol, 4?: pinUvAuthParam}`. -/
def requestMap (subcommand : UInt8) (params : Option Value) (protocol : PinUvAuthProtocol)
    (auth : Option Bytes) : Value :=
  fieldMap ([(1, uint subcommand.toNat)] ++ params.toList.map (fun params => (2, params)) ++
    [(3, uint protocol.toU8.toNat)] ++ auth.toList.map fun auth => (4, Value.bytes auth))

/-- The parameters as they enter the authenticated input, nothing when there are none. -/
def encodeParams : Option Value → Except Error Bytes
  | none => .ok []
  | some params => encode params

def subcommandMessage (hashes : Hashes) (command : UInt8) (header : Bytes) (subcommand : UInt8)
    (params : Option Value) (protocol : PinUvAuthProtocol) (token : Option PinToken) :
    Except Error Bytes := do
  let encoded ← encodeParams params
  let macInput := header ++ [subcommand] ++ encoded
  let auth := token.map fun token => token.authenticate hashes protocol macInput
  let body ← encode (requestMap subcommand params protocol auth)
  .ok (command :: body)

def byteString (raw : Bytes) : Bytes := head [] 2 (UInt64.ofNat raw.length) ++ raw

/-- A key with the bytes of its value, where there is one. -/
def keyed (key : UInt8) (value : Option Bytes) : Bytes :=
  match value with
  | none => []
  | some value => key :: value

/-- The message around the encoded parameters and the authentication parameter. -/
def framed (command subcommand : UInt8) (protocol : PinUvAuthProtocol) (p auth : Option Bytes) :
    Bytes :=
  [command] ++ head [] 5 (UInt64.ofNat (2 + p.toList.length + auth.toList.length)) ++
    [1, subcommand] ++ keyed 2 p ++ [3, protocol.toU8] ++ keyed 4 (auth.map byteString)

/-- The message is what was authenticated: `p` is at once the bytes under key 2 and the end of
the authenticated input. -/
structure Covers (hashes : Hashes) (command : UInt8) (header : Bytes) (subcommand : UInt8)
    (params : Option Value) (protocol : PinUvAuthProtocol) (token : Option PinToken)
    (message : Bytes) : Prop where
  layout : ∃ p : Option Bytes, params.map encode = p.map .ok ∧
    message = framed command subcommand protocol p (token.map fun token =>
      token.authenticate hashes protocol (header ++ [subcommand] ++ p.getD []))
  canonical : ∃ auth body, encode (requestMap subcommand params protocol auth) = .ok body ∧
    message = command :: body

theorem encode_bytes {levels : ℕ} (raw : Bytes) :
    encodeInto (levels + 1) (.bytes raw) [] = .ok (byteString raw) := rfl

theorem protocol_small (protocol : PinUvAuthProtocol) : protocol.toU8.toNat < 24 := by
  cases protocol <;> decide

theorem encodeParams_eq_ok {params : Option Value} {encoded : Bytes} :
    encodeParams params = .ok encoded ↔
      ∃ p : Option Bytes, params.map encode = p.map .ok ∧ encoded = p.getD [] := by
  cases params with
  | none =>
    constructor
    · intro h
      cases h
      exact ⟨none, rfl, rfl⟩
    · rintro ⟨p, hp, rfl⟩
      cases p with
      | none => rfl
      | some p => cases hp
  | some P =>
    constructor
    · intro h
      exact ⟨some encoded, congrArg some h, rfl⟩
    · rintro ⟨p, hp, rfl⟩
      cases p with
      | none => cases hp
      | some p => exact Option.some.inj hp

theorem fields_optional {levels k : ℕ} {f : Option Value} {p : Option Bytes} {body : Bytes}
    (hp : f.map (encodeInto levels · []) = p.map .ok)
    (h : Fields levels (f.toList.map fun v => (k, v)) body) :
    body = keyed (UInt8.ofNat k) p := by
  cases f with
  | none =>
    cases p with
    | none =>
      cases h
      rfl
    | some b => cases hp
  | some v =>
    cases p with
    | none => cases hp
    | some b => exact (fields_singleton (Option.some.inj hp)).mp h

/-- The bytes of the map, with the encoding of the parameters that was authenticated. -/
theorem requestMap_encoded {subcommand : UInt8} (hsub : subcommand.toNat < 24)
    {params : Option Value} {protocol : PinUvAuthProtocol} {p auth : Option Bytes} {body : Bytes}
    (hp : params.map encode = p.map .ok)
    (h : encode (requestMap subcommand params protocol auth) = .ok body) (command : UInt8) :
    command :: body = framed command subcommand protocol p auth := by
  have hlen : params.toList.length = p.toList.length := by
    cases params <;> cases p <;> first | rfl | cases hp
  obtain ⟨fields, hfields, rfl⟩ := encode_fieldMap
    (by cases params <;> cases auth <;> simp) (by cases params <;> cases auth <;> simp) h
  obtain ⟨upto3, b4, hupto3, h4, rfl⟩ := fields_append.mp hfields
  obtain ⟨upto2, b3, hupto2, h3, rfl⟩ := fields_append.mp hupto3
  obtain ⟨b1, b2, h1, h2, rfl⟩ := fields_append.mp hupto2
  have hauth : (auth.map Value.bytes).map (encodeInto maxDepth · []) =
      (auth.map byteString).map .ok := by
    cases auth <;> rfl
  have hb4 : b4 = keyed 4 (auth.map byteString) := by
    apply fields_optional hauth
    cases auth <;> exact h4
  rw [(fields_singleton (encode_uint_small hsub)).mp h1, fields_optional hp h2,
    (fields_singleton (encode_uint_small (protocol_small protocol))).mp h3, hb4]
  simp only [UInt8.ofNat_toNat, List.length_append, List.length_map, List.length_singleton, hlen]
  have hcount : 1 + p.toList.length + 1 + auth.toList.length =
      2 + p.toList.length + auth.toList.length := by omega
  rw [hcount, framed]
  simp

theorem subcommandMessage_covers {hashes : Hashes} {command subcommand : UInt8} {header : Bytes}
    {params : Option Value} {protocol : PinUvAuthProtocol} {token : Option PinToken}
    {message : Bytes} (hsub : subcommand.toNat < 24)
    (h : subcommandMessage hashes command header subcommand params protocol token = .ok message) :
    Covers hashes command header subcommand params protocol token message := by
  obtain ⟨encoded, hencoded, h⟩ := bind_eq_ok.mp h
  obtain ⟨p, hp, rfl⟩ := encodeParams_eq_ok.mp hencoded
  obtain ⟨body, hbody, h⟩ := bind_eq_ok.mp h
  cases h
  exact ⟨⟨p, hp, requestMap_encoded hsub hp hbody command⟩, _, body, hbody, rfl⟩

end CtapSubcommand
