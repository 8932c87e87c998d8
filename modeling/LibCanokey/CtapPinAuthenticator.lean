import LibCanokey.CtapEnvelope
import LibCanokey.CtapPinMessage
import Mathlib.Data.List.DropRight

/-! # A PIN and its authenticator

What an authenticator with a PIN does for the requests of a platform, and that every request is,
over key agreement, encryption and the channel, one step of the PIN register it keeps. -/
namespace CtapPinAuthenticator

open BigEndian CheckedCursor ListTraversal ProtocolError ProtocolConversation ProtocolOperation
open ProtocolSession CtapCbor CtapCborLanguage CtapCose CtapMessage CtapAuthData CtapHmacSecret
open CtapFields CtapReading CtapLargeBlobFirmware CtapEnvelope CtapClientPin CtapPinMessage

/-! ## The register -/

/-- The PIN that is set, the attempts left and what the last token was granted for. -/
structure Register where
  hash : Option Bytes
  retries : ℕ
  permissions : ℕ
  rpId : Option String
  deriving DecidableEq

def maxRetries : ℕ := 8

/-- What a request asks of the register, in the clear. -/
inductive RegisterRequest where
  | set (pin : Bytes)
  | change (hash pin : Bytes)
  | token (hash : Bytes) (permissions : ℕ) (rpId : Option String)

/-- An attempt with the hash of a PIN. -/
def Register.check (r : Register) (hash : Bytes) : Except UInt8 Unit × Register :=
  match r.hash with
  | none => (.error 0x35, r)
  | some stored =>
    if r.retries = 0 then (.error 0x32, r)
    else if hash = stored then (.ok (), { r with retries := maxRetries })
    else
      (.error (if r.retries = 1 then 0x32 else 0x31), { r with retries := r.retries - 1 })

def Register.store (hashes : Hashes) (r : Register) (pin : Bytes) : Except UInt8 Unit × Register :=
  match validatePin pin with
  | .ok _ => (.ok (), { r with hash := some (pinHash hashes pin), retries := maxRetries })
  | .error _ => (.error 0x37, r)

def Register.apply (hashes : Hashes) (r : Register) : RegisterRequest → Except UInt8 Unit × Register
  | .set pin => if r.hash.isSome then (.error 0x30, r) else r.store hashes pin
  | .change hash pin =>
    match r.check hash with
    | (.error status, r) => (.error status, r)
    | (.ok _, r) => r.store hashes pin
  | .token hash permissions rpId =>
    match r.check hash with
    | (.error status, r) => (.error status, r)
    | (.ok _, r) => (.ok (), { r with permissions := permissions, rpId := rpId })

/-! ## The authenticator -/

structure Authenticator where
  secret : ℕ
  token : Bytes
  vector : ByteArrayOf 16
  register : Register

/-- The padding of a PIN ends at its last byte other than zero. -/
def stripped (pin : Bytes) : Bytes := pin.rdropWhile fun b => b == 0

def need {α : Type} : Option α → Except UInt8 α
  | none => .error 0x14
  | some a => .ok a

section authenticator

variable (crypto : Primitives)

def Authenticator.shared (d : Authenticator) (protocol : PinUvAuthProtocol) (key : Value) :
    Except UInt8 Bytes :=
  match CoseKey.fromValue key with
  | .ok (.p256 .ecdhEsHkdf256 x y) =>
    match crypto.curve.fromSec1 (0x04 :: (x.1 ++ y.1)) with
    | some point =>
      .ok (deriveSharedSecret crypto.hashes protocol (crypto.curve.diffieHellman d.secret point))
    | none => .error 0x02
  | _ => .error 0x02

def verified (protocol : PinUvAuthProtocol) (shared message : Bytes) (auth : Option Bytes) :
    Except UInt8 Unit :=
  if auth = some (authenticate crypto.hashes protocol shared message) then .ok () else .error 0x33

def unlocked (protocol : PinUvAuthProtocol) (shared ciphertext : Bytes) : Except UInt8 Bytes :=
  match decrypt (cbc crypto.aes) protocol shared ciphertext with
  | .ok text => .ok text
  | .error _ => .error 0x33

/-- A request as the authenticator opens it. -/
def readRequest (protocol : PinUvAuthProtocol) (shared : Bytes) (value : Value)
    (subcommand : ℕ) : Except UInt8 RegisterRequest :=
  if subcommand = subcommandSetPin then do
    let newPinEnc ← need (bytesAt value 5)
    verified crypto protocol shared newPinEnc (bytesAt value 4)
    let padded ← unlocked crypto protocol shared newPinEnc
    .ok (.set (stripped padded))
  else if subcommand = subcommandChangePin then do
    let newPinEnc ← need (bytesAt value 5)
    let pinHashEnc ← need (bytesAt value 6)
    verified crypto protocol shared (newPinEnc ++ pinHashEnc) (bytesAt value 4)
    let hash ← unlocked crypto protocol shared pinHashEnc
    let padded ← unlocked crypto protocol shared newPinEnc
    .ok (.change hash (stripped padded))
  else if subcommand = subcommandGetPinToken then do
    let pinHashEnc ← need (bytesAt value 6)
    let hash ← unlocked crypto protocol shared pinHashEnc
    if (value.mapGetInt 9).isSome ∨ (value.mapGetInt 10).isSome then .error 0x02
    else .ok (.token hash 0x03 none)
  else if subcommand = subcommandGetPinTokenWithPermissions then do
    let pinHashEnc ← need (bytesAt value 6)
    let hash ← unlocked crypto protocol shared pinHashEnc
    let permissions ← need (uintAt value 9)
    if permissions = 0 then .error 0x02
    else .ok (.token hash permissions ((value.mapGetInt 10).bind Value.asText))
  else .error 0x3e

/-- The payload of a response. -/
def payload (fields : List (ℕ × Value)) : Except UInt8 Bytes :=
  match encode (fieldMap fields) with
  | .ok bytes => .ok bytes
  | .error _ => .error 0x7f

/-- The payload that a request is granted. -/
def Authenticator.grant (d : Authenticator) (protocol : PinUvAuthProtocol) (shared : Bytes) :
    RegisterRequest → Except UInt8 Bytes
  | .set _ | .change _ _ => .ok []
  | .token _ _ _ =>
    match encrypt (cbc crypto.aes) protocol shared
        (if protocol = .v1 then none else some d.vector) d.token with
    | .ok ciphertext => payload [(2, .bytes ciphertext)]
    | .error _ => .error 0x7f

def Authenticator.perform (d : Authenticator) (protocol : PinUvAuthProtocol) (shared : Bytes)
    (request : RegisterRequest) : Except UInt8 Bytes × Authenticator :=
  ((d.register.apply crypto.hashes request).1.bind fun _ =>
      d.grant crypto protocol shared request,
    { d with register := (d.register.apply crypto.hashes request).2 })

def Authenticator.opened (d : Authenticator) (value : Value) (subcommand : ℕ) :
    Except UInt8 (PinUvAuthProtocol × Bytes × RegisterRequest) := do
  let protocol ← need ((uintAt value 1).bind protocolOf)
  let key ← need (value.mapGetInt 3)
  let shared ← d.shared crypto protocol key
  let request ← readRequest crypto protocol shared value subcommand
  .ok (protocol, shared, request)

def Authenticator.clientPin (d : Authenticator) (value : Value) :
    Except UInt8 Bytes × Authenticator :=
  match uintAt value 2 with
  | none => (.error 0x14, d)
  | some subcommand =>
    if subcommand = subcommandGetPinRetries then (payload [(3, uint d.register.retries)], d)
    else if subcommand = subcommandGetKeyAgreement then
      (payload [(1, (platformKey crypto.curve d.secret).toValue)], d)
    else
      match d.opened crypto value subcommand with
      | .error status => (.error status, d)
      | .ok (protocol, shared, request) => d.perform crypto protocol shared request

/-- The status byte and payload with which a message is answered. -/
def Authenticator.respond (d : Authenticator) : Bytes → Bytes × Authenticator
  | [] => ([0x01], d)
  | command :: body =>
    if command ≠ commandClientPin then ([0x01], d)
    else
      match decoded body with
      | .error _ => ([0x12], d)
      | .ok value =>
        (match (d.clientPin crypto value).1 with
          | .ok payload => 0x00 :: payload
          | .error status => [status],
          (d.clientPin crypto value).2)

end authenticator

/-! ## PINs -/

theorem validatePin_eq_ok {pin : Bytes} (h : validatePin pin = .ok ()) : pin.length ≤ 63 := by
  simp only [validatePin] at h
  split at h
  · cases h
  · split_ifs at h with hlong
    push Not at hlong
    exact hlong.1

theorem length_padPin {pin : Bytes} (h : pin.length ≤ 63) : (padPin pin).length = 64 := by
  simp only [padPin, paddedPinLen, List.length_append, List.length_replicate]
  omega

theorem length_pinHash (hashes : Hashes) (pin : Bytes) : (pinHash hashes pin).length = 16 := by
  rw [pinHash, List.length_take, (hashes.sha256 pin).2]
  decide

theorem stripped_padPin (pin : Bytes) : stripped (padPin pin) = stripped pin := by
  rw [padPin]
  generalize paddedPinLen - pin.length = n
  induction n with
  | zero => rw [List.replicate_zero, List.append_nil]
  | succ n ih =>
    rw [List.replicate_succ', ← List.append_assoc, stripped, List.rdropWhile_concat_pos]
    · exact ih
    · rfl

/-- A PIN that does not end with a zero byte is stored as it is. -/
theorem stripped_eq {pin : Bytes} (h : ∀ hne : pin ≠ [], pin.getLast hne ≠ 0) :
    stripped pin = pin := by
  rw [stripped, List.rdropWhile_eq_self_iff]
  intro hne hzero
  exact h hne (beq_iff_eq.mp hzero)

theorem length_authenticate_le (hashes : Hashes) (protocol : PinUvAuthProtocol)
    (key message : Bytes) : (authenticate hashes protocol key message).length ≤ 96 := by
  have htag (key : Bytes) := (hashes.hmac key message).2
  rw [CtapMessage.authenticate]
  split_ifs <;> simp [htag]

/-! ## Requests are steps of the register -/

/-- A scalar of the group, and a token of whole blocks. -/
structure Authenticator.Sound (crypto : Primitives) (d : Authenticator) : Prop where
  secret : ¬ crypto.curve.order ∣ d.secret
  blocks : d.token.length % 16 = 0
  token : d.token ≠ [] ∧ d.token.length ≤ 64

/-- The two sides of a session hold one secret. -/
structure Agreed (crypto : Primitives) (session : PinSession) (d : Authenticator) : Prop where
  secret : d.shared crypto session.protocol session.keyAgreement.toValue =
    .ok session.sharedSecret

/-- The outcome of an operation whose request the register settled. -/
def settled {T : Type} (answer : Except UInt8 Unit) (value : T) : Except Error T :=
  match answer with
  | .ok _ => .ok value
  | .error status => .error (statusError status)

theorem length_deriveSharedSecret (hashes : Hashes) (protocol : PinUvAuthProtocol)
    (x : ByteArrayOf 32) :
    (deriveSharedSecret hashes protocol x).length = if protocol = .v1 then 32 else 64 := by
  have hhmac (key message : Bytes) := (hashes.hmac key message).2
  rw [deriveSharedSecret]
  split_ifs
  · exact (hashes.sha256 x.1).2
  · simp only [hkdf, List.length_append, hhmac]

theorem need_eq_ok {α : Type} {o : Option α} {a : α} : need o = .ok a ↔ o = some a := by
  cases o <;> simp [need]

section requests

variable {crypto : Primitives} {session : PinSession} {d : Authenticator}
  {options : OperationOptions} {iv : Option (ByteArrayOf 16)}

theorem Agreed.length (h : Agreed crypto session d) :
    session.sharedSecret.length = if session.protocol = .v1 then 32 else 64 := by
  have hs := h.secret
  simp only [Authenticator.shared] at hs
  split at hs
  · split at hs
    · rw [← Except.ok.inj hs]
      exact length_deriveSharedSecret _ _ _
    · cases hs
  · cases hs

theorem protocolOf_toU8 (protocol : PinUvAuthProtocol) :
    protocolOf protocol.toU8.toUInt64.toNat = some protocol := by
  cases protocol <;> rfl

/-- A request that the authenticator opens is performed. -/
theorem clientPin_request {r : PinRequest} {shared : Bytes} {request : RegisterRequest}
    (hsub : r.subcommand ∈ [subcommandSetPin, subcommandChangePin, subcommandGetPinToken,
      subcommandGetPinTokenWithPermissions])
    (hshared : d.shared crypto r.protocol r.key.toValue = .ok shared)
    (hread : readRequest crypto r.protocol shared (fieldMap r.fields) r.subcommand =
      .ok request) :
    d.clientPin crypto (fieldMap r.fields) = d.perform crypto r.protocol shared request := by
  have hc := r.carries
  have hsmall : r.subcommand < 2 ^ 64 ∧ r.subcommand ≠ subcommandGetPinRetries ∧
      r.subcommand ≠ subcommandGetKeyAgreement := by
    simp only [List.mem_cons, List.not_mem_nil, or_false] at hsub
    rcases hsub with h | h | h | h <;> rw [h] <;> decide
  have hopened : d.opened crypto (fieldMap r.fields) r.subcommand =
      .ok (r.protocol, shared, request) := by
    refine bind_eq_ok.mpr ⟨r.protocol, need_eq_ok.mpr ?_, ?_⟩
    · rw [uintAt, hc.protocol]
      exact protocolOf_toU8 r.protocol
    · refine bind_eq_ok.mpr ⟨_, need_eq_ok.mpr hc.key, ?_⟩
      refine bind_eq_ok.mpr ⟨_, hshared, ?_⟩
      exact bind_eq_ok.mpr ⟨_, hread, rfl⟩
  rw [Authenticator.clientPin, uintAt_some hc.subcommand hsmall.1]
  dsimp only
  rw [if_neg hsmall.2.1, if_neg hsmall.2.2, hopened]

/-- An operation over one message, against the authenticator. -/
theorem message_execute {T : Type} {body : Bytes} {value : Value}
    (hdecoded : decoded body = .ok value) {parse : Bytes → Except Error T}
    {op : Operation (Sequence T) T}
    (hop : selectThen (commandClientPin :: body) options (fun r => typed r parse) = .ok op)
    {n : ℕ} (hroom : Ample options n) (hlen : (commandClientPin :: body).length ≤ n)
    (hpayload : ∀ payload, (d.clientPin crypto value).1 = .ok payload → payload.length ≤ 511)
    (hstatus : ∀ status, (d.clientPin crypto value).1 = .error status → status ≠ 0x00) :
    Ends (execute (sequence T) (messageApplet fun d => d.respond crypto) op d).1
        (match (d.clientPin crypto value).1 with
          | .ok payload => parse payload
          | .error status => .error (statusError status)) ∧
      (execute (sequence T) (messageApplet fun d => d.respond crypto) op d).2 =
        (d.clientPin crypto value).2 := by
  have hrespond : d.respond crypto (commandClientPin :: body) =
      (match (d.clientPin crypto value).1 with
        | .ok payload => 0x00 :: payload
        | .error status => [status], (d.clientPin crypto value).2) := by
    rw [Authenticator.respond, if_neg (not_not.mpr rfl), hdecoded]
  have hexecute (answer : Bytes)
      (hanswer : (d.respond crypto (commandClientPin :: body)).1 = answer)
      (hshort : answer.length ≤ 512) := by
    have hroom' := hroom _ answer (List.cons_ne_nil _ _) hlen hshort
    rw [← hanswer] at hroom'
    exact selectThen_execute hop hroom'
  rw [hrespond] at hexecute
  cases hpin : (d.clientPin crypto value).1 with
  | ok payload =>
    rw [hpin] at hexecute
    have hlength := hpayload payload hpin
    obtain ⟨hends, hafter⟩ := hexecute _ rfl (by rw [List.length_cons]; omega)
    dsimp only at hends hafter
    exact ⟨hends, hafter⟩
  | error status =>
    rw [hpin] at hexecute
    obtain ⟨hends, hafter⟩ := hexecute [status] rfl (by simp)
    dsimp only at hends hafter
    refine ⟨?_, hafter⟩
    have hsplit : (do typed (← splitStatus ⟨[status], ⟨0x9000⟩⟩) parse) =
        .error (statusError status) := by
      change (do (CtapStatus.mk status).ensure .command; parse []) = _
      rw [ensure_eq, if_neg (hstatus status hpin)]
      rfl
    dsimp only
    rw [← hsplit]
    exact hends

theorem apply_status {hashes : Hashes} {r : Register} {request : RegisterRequest} {status : UInt8}
    (h : (r.apply hashes request).1 = .error status) : status ≠ 0x00 := by
  have hcheck (hash : Bytes) {status : UInt8} (h : (r.check hash).1 = .error status) :
      status ≠ 0x00 := by
    simp only [Register.check] at h
    split at h
    · cases h
      decide
    · split_ifs at h <;> cases h <;> decide
  have hstore (r : Register) (pin : Bytes) {status : UInt8}
      (h : (r.store hashes pin).1 = .error status) : status ≠ 0x00 := by
    simp only [Register.store] at h
    split at h
    · cases h
    · cases h
      decide
  cases request with
  | set pin =>
    simp only [Register.apply] at h
    split_ifs at h
    · cases h
      decide
    · exact hstore r pin h
  | change hash pin =>
    simp only [Register.apply] at h
    cases hc : r.check hash with
    | mk answer r' =>
      rw [hc] at h
      cases answer with
      | error e =>
        cases h
        exact hcheck hash (by rw [hc])
      | ok _ => exact hstore r' pin h
  | token hash permissions rpId =>
    simp only [Register.apply] at h
    cases hc : r.check hash with
    | mk answer r' =>
      rw [hc] at h
      cases answer with
      | error e =>
        cases h
        exact hcheck hash (by rw [hc])
      | ok _ => cases h

/-- An operation whose message the authenticator opens as a request settles it. -/
theorem request_execute {T : Type} {r : PinRequest} {n : ℕ} (hr : r.Short n) (hn : n < 2 ^ 59)
    {message : Bytes} (hmessage : clientPinMessage r.fields = .ok message) {shared : Bytes}
    {request : RegisterRequest}
    (hsub : r.subcommand ∈ [subcommandSetPin, subcommandChangePin, subcommandGetPinToken,
      subcommandGetPinTokenWithPermissions])
    (hshared : d.shared crypto r.protocol r.key.toValue = .ok shared)
    (hread : readRequest crypto r.protocol shared (fieldMap r.fields) r.subcommand = .ok request)
    {granted : Bytes} (hgrant : d.grant crypto r.protocol shared request = .ok granted)
    (hgranted : granted.length ≤ 511) {parse : Bytes → Except Error T} {value : T}
    (hparse : parse granted = .ok value) {op : Operation (Sequence T) T}
    (hop : selectThen message options (fun r => typed r parse) = .ok op)
    (hroom : Ample options (2500 + 8 * n)) :
    Ends (execute (sequence T) (messageApplet fun d => d.respond crypto) op d).1
        (settled (d.register.apply crypto.hashes request).1 value) ∧
      (execute (sequence T) (messageApplet fun d => d.respond crypto) op d).2 =
        { d with register := (d.register.apply crypto.hashes request).2 } := by
  obtain ⟨hlen, body, rfl, hdecoded⟩ := PinRequest.decoded hr hn hmessage
  have hpin := clientPin_request hsub hshared hread
  have hfirst : (d.clientPin crypto (fieldMap r.fields)).1 =
      (d.register.apply crypto.hashes request).1.bind fun _ => .ok granted := by
    rw [hpin, Authenticator.perform, hgrant]
  have hsecond : (d.clientPin crypto (fieldMap r.fields)).2 =
      { d with register := (d.register.apply crypto.hashes request).2 } := by
    rw [hpin, Authenticator.perform]
  have hexecute := @message_execute crypto d _ _ _ _ hdecoded _ _ hop _ hroom hlen
  rw [hfirst, hsecond] at hexecute
  cases hanswer : (d.register.apply crypto.hashes request).1 with
  | ok _ =>
    rw [hanswer] at hexecute
    obtain ⟨hends, hafter⟩ := hexecute (by rintro _ ⟨⟩; exact hgranted) (by rintro _ ⟨⟩)
    change Ends _ (parse granted) at hends
    rw [hparse] at hends
    exact ⟨hends, hafter⟩
  | error status =>
    rw [hanswer] at hexecute
    refine hexecute (by rintro _ ⟨⟩) ?_
    rintro _ ⟨⟩
    exact apply_status hanswer

end requests

/-! ## The requests of the platform -/

section platform

variable {crypto : Primitives} {session : PinSession} {d : Authenticator}
  {options : OperationOptions} {iv : Option (ByteArrayOf 16)} {pin oldPin newPin : Bytes}

theorem unlocked_encrypt {protocol : PinUvAuthProtocol} {shared text ciphertext : Bytes}
    (hne : text ≠ []) (h : encrypt (cbc crypto.aes) protocol shared iv text = .ok ciphertext) :
    unlocked crypto protocol shared ciphertext = .ok text := by
  rw [unlocked, (decrypt_encrypt hne h).1]

theorem verified_authenticate (protocol : PinUvAuthProtocol) (shared message : Bytes) :
    verified crypto protocol shared message
      (some (authenticate crypto.hashes protocol shared message)) = .ok () := if_pos rfl

theorem padPin_ne_nil (h : validatePin pin = .ok ()) : padPin pin ≠ [] := by
  intro hnil
  have hlen := length_padPin (validatePin_eq_ok h)
  rw [hnil] at hlen
  cases hlen

theorem pinHash_ne_nil (hashes : Hashes) (pin : Bytes) : pinHash hashes pin ≠ [] := by
  intro hnil
  have hlen := length_pinHash hashes pin
  rw [hnil] at hlen
  cases hlen

theorem emptyPayload_nil : emptyPayload [] = .ok () := rfl

theorem setPin_execute {op : Operation (Sequence Unit) Unit} (hs : Agreed crypto session d)
    (hop : setPin crypto session newPin iv options = .ok op) (hroom : Ample options 2500) :
    Ends (execute (sequence Unit) (messageApplet fun d => d.respond crypto) op d).1
        (settled (d.register.apply crypto.hashes (.set (stripped newPin))).1 ()) ∧
      (execute (sequence Unit) (messageApplet fun d => d.respond crypto) op d).2 =
        { d with register := (d.register.apply crypto.hashes (.set (stripped newPin))).2 } := by
  obtain ⟨_, hvalid, hop⟩ := bind_eq_ok.mp hop
  obtain ⟨_, _, hop⟩ := bind_eq_ok.mp hop
  obtain ⟨newPinEnc, henc, hop⟩ := bind_eq_ok.mp hop
  obtain ⟨message, hmessage, hop⟩ := bind_eq_ok.mp hop
  obtain ⟨x, y, hkey⟩ := session.platform
  have hsecret := hs.secret
  have hlong := (decrypt_encrypt (padPin_ne_nil hvalid) henc).2
  rw [length_padPin (validatePin_eq_ok hvalid)] at hlong
  rw [hkey] at hmessage hsecret
  refine @request_execute crypto d options Unit
    { protocol := session.protocol, subcommand := subcommandSetPin, x := x, y := y
      auth := some (authenticate crypto.hashes session.protocol session.sharedSecret newPinEnc)
      newPinEnc := some newPinEnc } 0 ?_ (by decide) message hmessage session.sharedSecret _
    List.mem_cons_self hsecret ?_ [] rfl (by decide) _ () emptyPayload_nil op hop hroom
  · refine ⟨?_, ?_, by rintro _ ⟨⟩, by rintro _ ⟨⟩⟩
    · rintro _ ⟨⟩
      exact length_authenticate_le _ _ _ _
    · rintro _ ⟨⟩
      omega
  · rw [readRequest, if_pos rfl]
    refine bind_eq_ok.mpr ⟨newPinEnc, need_eq_ok.mpr (PinRequest.carries _).newPinEnc, ?_⟩
    refine bind_eq_ok.mpr ⟨(), ?_, ?_⟩
    · rw [bytesAt, (PinRequest.carries _).auth]
      exact verified_authenticate _ _ _
    · refine bind_eq_ok.mpr ⟨padPin newPin, unlocked_encrypt (padPin_ne_nil hvalid) henc, ?_⟩
      rw [stripped_padPin]

theorem changePin_execute {op : Operation (Sequence Unit) Unit} (hs : Agreed crypto session d)
    (hop : changePin crypto session oldPin newPin iv options = .ok op)
    (hroom : Ample options 2500) :
    Ends (execute (sequence Unit) (messageApplet fun d => d.respond crypto) op d).1
        (settled (d.register.apply crypto.hashes
          (.change (pinHash crypto.hashes oldPin) (stripped newPin))).1 ()) ∧
      (execute (sequence Unit) (messageApplet fun d => d.respond crypto) op d).2 =
        { d with register := (d.register.apply crypto.hashes
          (.change (pinHash crypto.hashes oldPin) (stripped newPin))).2 } := by
  obtain ⟨_, _, hop⟩ := bind_eq_ok.mp hop
  obtain ⟨_, hvalid, hop⟩ := bind_eq_ok.mp hop
  obtain ⟨_, _, hop⟩ := bind_eq_ok.mp hop
  obtain ⟨pinHashEnc, hhash, hop⟩ := bind_eq_ok.mp hop
  obtain ⟨newPinEnc, henc, hop⟩ := bind_eq_ok.mp hop
  obtain ⟨message, hmessage, hop⟩ := bind_eq_ok.mp hop
  obtain ⟨x, y, hkey⟩ := session.platform
  have hsecret := hs.secret
  have hlong := (decrypt_encrypt (padPin_ne_nil hvalid) henc).2
  rw [length_padPin (validatePin_eq_ok hvalid)] at hlong
  have hshort := (decrypt_encrypt (pinHash_ne_nil _ _) hhash).2
  rw [length_pinHash] at hshort
  rw [hkey] at hmessage hsecret
  refine @request_execute crypto d options Unit
    { protocol := session.protocol, subcommand := subcommandChangePin, x := x, y := y
      auth := some (authenticate crypto.hashes session.protocol session.sharedSecret
        (newPinEnc ++ pinHashEnc))
      newPinEnc := some newPinEnc, pinHashEnc := some pinHashEnc } 0 ?_ (by decide) message
    hmessage session.sharedSecret _ (List.mem_cons_of_mem _ List.mem_cons_self) hsecret ?_ [] rfl
    (by decide) _ () emptyPayload_nil op hop hroom
  · refine ⟨?_, ?_, ?_, by rintro _ ⟨⟩⟩
    · rintro _ ⟨⟩
      exact length_authenticate_le _ _ _ _
    · rintro _ ⟨⟩
      omega
    · rintro _ ⟨⟩
      omega
  · have hother : subcommandChangePin ≠ subcommandSetPin := by decide
    rw [readRequest, if_neg hother, if_pos rfl]
    refine bind_eq_ok.mpr ⟨newPinEnc, need_eq_ok.mpr (PinRequest.carries _).newPinEnc, ?_⟩
    refine bind_eq_ok.mpr ⟨pinHashEnc, need_eq_ok.mpr (PinRequest.carries _).pinHashEnc, ?_⟩
    refine bind_eq_ok.mpr ⟨(), ?_, ?_⟩
    · rw [bytesAt, (PinRequest.carries _).auth]
      exact verified_authenticate _ _ _
    · refine bind_eq_ok.mpr ⟨_, unlocked_encrypt (pinHash_ne_nil _ _) hhash, ?_⟩
      refine bind_eq_ok.mpr ⟨padPin newPin, unlocked_encrypt (padPin_ne_nil hvalid) henc, ?_⟩
      rw [stripped_padPin]

/-- The token that is granted is decrypted as the authenticator holds it. -/
theorem granted_token (hd : d.Sound crypto) (hs : Agreed crypto session d) (hash : Bytes)
    (permissions : ℕ) (rpId : Option String) :
    ∃ granted, d.grant crypto session.protocol session.sharedSecret
        (.token hash permissions rpId) = .ok granted ∧ granted.length ≤ 511 ∧
      parsePinToken crypto session granted = .ok ⟨d.token⟩ := by
  have hiv : checkIv session.protocol
      (if session.protocol = .v1 then none else some d.vector) = .ok () := by
    cases session.protocol <;> rfl
  have hencrypt : ∃ ciphertext, encrypt (cbc crypto.aes) session.protocol session.sharedSecret
      (if session.protocol = .v1 then none else some d.vector) d.token = .ok ciphertext :=
    encrypt_ok hs.length hiv hd.blocks
  obtain ⟨ciphertext, hciphertext⟩ := hencrypt
  obtain ⟨hdecrypt, hlen⟩ := decrypt_encrypt hd.token.1 hciphertext
  have hmost := hd.token.2
  have horderly : Orderly 105 [(2, .bytes ciphertext)] := by
    refine ⟨List.pairwise_singleton _ _, ?_, ?_, Nat.le_of_ble_eq_true rfl⟩
    · intro f hf
      rw [List.mem_singleton.mp hf]
      exact Nat.le_of_ble_eq_true rfl
    · intro f hf
      rw [List.mem_singleton.mp hf]
      exact bytes_orderly (n := 96) (by omega) (by decide)
  have hget : (fieldMap [(2, .bytes ciphertext)]).mapGetInt 2 = some (.bytes ciphertext) := rfl
  have hencode := horderly.encode
  have hlength : (wire (fieldMap [(2, .bytes ciphertext)])).length ≤ 511 := by
    have hwire : wire (fieldMap [(2, .bytes ciphertext)]) =
        shortestHead 5 1 ++ (wire (uint 2) ++ wire (.bytes ciphertext) ++ []) := rfl
    have hvalue : (wire (.bytes ciphertext)).length ≤ 105 :=
      (horderly.values _ List.mem_cons_self).2.2
    have hhead : (shortestHead 5 1).length = 1 := by decide
    have hkey : (wire (uint 2)).length = 1 := by decide
    rw [hwire]
    simp only [List.length_append, List.length_nil, hhead, hkey]
    omega
  refine ⟨wire (fieldMap [(2, .bytes ciphertext)]), ?_, hlength, ?_⟩
  · simp only [Authenticator.grant, hciphertext, payload, hencode]
  · refine bind_eq_ok.mpr ⟨_, horderly.decoded (by decide), ?_⟩
    refine bind_eq_ok.mpr ⟨_, required_eq_ok.mpr hget, ?_⟩
    refine bind_eq_ok.mpr ⟨ciphertext, rfl, ?_⟩
    rw [hdecrypt]
    rfl

theorem getPinToken_execute {op : Operation (Sequence PinToken) PinToken} (hd : d.Sound crypto)
    (hs : Agreed crypto session d) (hop : getPinToken crypto session pin iv options = .ok op)
    (hroom : Ample options 2500) :
    Ends (execute (sequence PinToken) (messageApplet fun d => d.respond crypto) op d).1
        (settled (d.register.apply crypto.hashes
          (.token (pinHash crypto.hashes pin) 0x03 none)).1 ⟨d.token⟩) ∧
      (execute (sequence PinToken) (messageApplet fun d => d.respond crypto) op d).2 =
        { d with register := (d.register.apply crypto.hashes
          (.token (pinHash crypto.hashes pin) 0x03 none)).2 } := by
  obtain ⟨_, _, hop⟩ := bind_eq_ok.mp hop
  obtain ⟨_, _, hop⟩ := bind_eq_ok.mp hop
  obtain ⟨pinHashEnc, hhash, hop⟩ := bind_eq_ok.mp hop
  obtain ⟨message, hmessage, hop⟩ := bind_eq_ok.mp hop
  obtain ⟨x, y, hkey⟩ := session.platform
  have hsecret := hs.secret
  have hshort := (decrypt_encrypt (pinHash_ne_nil _ _) hhash).2
  rw [length_pinHash] at hshort
  obtain ⟨granted, hgrant, hgranted, hparse⟩ :=
    granted_token hd hs (pinHash crypto.hashes pin) 0x03 none
  rw [pinTokenEntries, hkey] at hmessage
  rw [hkey] at hsecret
  refine @request_execute crypto d options PinToken
    { protocol := session.protocol, subcommand := subcommandGetPinToken, x := x, y := y
      pinHashEnc := some pinHashEnc } 0 ?_ (by decide) message hmessage session.sharedSecret _
    (List.mem_cons_of_mem _ (List.mem_cons_of_mem _ List.mem_cons_self)) hsecret ?_ granted hgrant
    hgranted _ _ hparse op hop hroom
  · refine ⟨by rintro _ ⟨⟩, by rintro _ ⟨⟩, ?_, by rintro _ ⟨⟩⟩
    rintro _ ⟨⟩
    omega
  · have hother : subcommandGetPinToken ≠ subcommandSetPin ∧
        subcommandGetPinToken ≠ subcommandChangePin := by decide
    rw [readRequest, if_neg hother.1, if_neg hother.2, if_pos rfl]
    refine bind_eq_ok.mpr ⟨pinHashEnc, need_eq_ok.mpr (PinRequest.carries _).pinHashEnc, ?_⟩
    refine bind_eq_ok.mpr ⟨_, unlocked_encrypt (pinHash_ne_nil _ _) hhash, ?_⟩
    rfl

theorem getPinTokenWithPermissions_execute {permissions : Permissions} {rpId : Option String}
    {op : Operation (Sequence PinToken) PinToken} (hd : d.Sound crypto)
    (hs : Agreed crypto session d)
    (hop : getPinTokenWithPermissions crypto session pin permissions rpId iv options = .ok op)
    {n : ℕ} (hn : n < 2 ^ 59) (hrpId : ∀ id, rpId = some id → (utf8 id).length ≤ n)
    (hroom : Ample options (2500 + 8 * n)) :
    Ends (execute (sequence PinToken) (messageApplet fun d => d.respond crypto) op d).1
        (settled (d.register.apply crypto.hashes
          (.token (pinHash crypto.hashes pin) permissions.bits.toNat rpId)).1 ⟨d.token⟩) ∧
      (execute (sequence PinToken) (messageApplet fun d => d.respond crypto) op d).2 =
        { d with register := (d.register.apply crypto.hashes
          (.token (pinHash crypto.hashes pin) permissions.bits.toNat rpId)).2 } := by
  obtain ⟨_, _, hop⟩ := bind_eq_ok.mp hop
  obtain ⟨_, _, hop⟩ := bind_eq_ok.mp hop
  split_ifs at hop with hrefused
  push Not at hrefused
  obtain ⟨pinHashEnc, hhash, hop⟩ := bind_eq_ok.mp hop
  obtain ⟨message, hmessage, hop⟩ := bind_eq_ok.mp hop
  obtain ⟨x, y, hkey⟩ := session.platform
  have hsecret := hs.secret
  have hshort := (decrypt_encrypt (pinHash_ne_nil _ _) hhash).2
  rw [length_pinHash] at hshort
  obtain ⟨granted, hgrant, hgranted, hparse⟩ :=
    granted_token hd hs (pinHash crypto.hashes pin) permissions.bits.toNat rpId
  rw [pinTokenEntries, hkey] at hmessage
  rw [hkey] at hsecret
  refine @request_execute crypto d options PinToken
    { protocol := session.protocol, subcommand := subcommandGetPinTokenWithPermissions, x := x
      y := y, pinHashEnc := some pinHashEnc, permissions := some permissions.bits, rpId := rpId }
    n ?_ hn message hmessage session.sharedSecret _
    (List.mem_cons_of_mem _ (List.mem_cons_of_mem _ (List.mem_cons_of_mem _ List.mem_cons_self)))
    hsecret ?_ granted hgrant hgranted _ _ hparse op hop hroom
  · refine ⟨by rintro _ ⟨⟩, by rintro _ ⟨⟩, ?_, hrpId⟩
    rintro _ ⟨⟩
    omega
  · have hother : subcommandGetPinTokenWithPermissions ≠ subcommandSetPin ∧
        subcommandGetPinTokenWithPermissions ≠ subcommandChangePin ∧
        subcommandGetPinTokenWithPermissions ≠ subcommandGetPinToken := by decide
    have hbits : permissions.bits.toNat ≠ 0 := by
      intro hzero
      exact hrefused.1 (UInt8.toNat_inj.mp hzero)
    have hword := permissions.bits.toNat_lt
    rw [readRequest, if_neg hother.1, if_neg hother.2.1, if_neg hother.2.2, if_pos rfl]
    refine bind_eq_ok.mpr ⟨pinHashEnc, need_eq_ok.mpr (PinRequest.carries _).pinHashEnc, ?_⟩
    refine bind_eq_ok.mpr ⟨_, unlocked_encrypt (pinHash_ne_nil _ _) hhash, ?_⟩
    refine bind_eq_ok.mpr ⟨permissions.bits.toNat, need_eq_ok.mpr ?_, ?_⟩
    · exact uintAt_some (PinRequest.carries _).permissions (by omega)
    · rw [if_neg hbits, (PinRequest.carries _).rpId]

/-! ## Key agreement and retries -/

/-- A message of the protocol and a subcommand. -/
theorem short_message {protocol : PinUvAuthProtocol} {subcommand : ℕ} {message : Bytes}
    (hm : clientPinMessage [protocolEntry protocol, (2, uint subcommand)] = .ok message) :
    message.length ≤ 2500 ∧ ∃ body, message = commandClientPin :: body ∧
      decoded body = .ok (fieldMap [protocolEntry protocol, (2, uint subcommand)]) := by
  have horderly : Orderly 9 [protocolEntry protocol, (2, uint subcommand)] := by
    have hkeys : [1, 2].Pairwise (· < ·) := by decide
    refine ⟨hkeys, ?_, ?_, Nat.le_of_ble_eq_true rfl⟩
    · intro f hf
      simp only [List.mem_cons, List.not_mem_nil, or_false] at hf
      rcases hf with rfl | rfl <;> exact Nat.le_of_ble_eq_true rfl
    · intro f hf
      simp only [List.mem_cons, List.not_mem_nil, or_false] at hf
      rcases hf with rfl | rfl
      · cases protocol
        · exact uint_orderly 1
        · exact uint_orderly 2
      · exact uint_orderly subcommand
  obtain ⟨body, hbody, rfl⟩ := map_eq_ok.mp hm
  cases horderly.encode.symm.trans hbody
  have hlen := horderly.length
  refine ⟨?_, _, rfl, horderly.decoded (by decide)⟩
  rw [List.length_cons]
  omega

theorem payload_ok {most : ℕ} {fields : List (ℕ × Value)} (h : Orderly most fields) :
    payload fields = .ok (wire (fieldMap fields)) := by
  rw [payload, h.encode]

theorem P256.publicKey_ne_zero {curve : P256} {secret : ℕ} (h : ¬ curve.order ∣ secret) :
    curve.publicKey secret ≠ 0 := by
  intro hzero
  exact h ((curve.order_iff secret).mp hzero)

theorem secretKey_eq_ok {curve : P256} {scalar : ByteArrayOf 32} {secret : ℕ}
    (h : curve.secretKey scalar = .ok secret) : ¬ curve.order ∣ secret := by
  simp only [P256.secretKey] at h
  split_ifs at h with hrange
  cases h
  push Not at hrange
  exact Nat.not_dvd_of_pos_of_lt (Nat.pos_of_ne_zero hrange.1) hrange.2

/-- The key of one side is read back by the other as its public point. -/
theorem fromValue_platformKey (curve : P256) (secret : ℕ) :
    CoseKey.fromValue (platformKey curve secret).toValue = .ok (platformKey curve secret) := by
  rw [platformKey, CtapCoseReading.reads_iff]
  have halg : CtapPrivateKeys.algorithmId (CoseKey.toValue (.p256 .ecdhEsHkdf256
      (curve.coordinates (curve.publicKey secret)).1
      (curve.coordinates (curve.publicKey secret)).2)) = some (-25) := rfl
  exact .p256 rfl halg (Or.inr rfl) rfl rfl rfl rfl

theorem shared_platformKey {secret : ℕ} (h : ¬ crypto.curve.order ∣ secret)
    (protocol : PinUvAuthProtocol) :
    d.shared crypto protocol (platformKey crypto.curve secret).toValue =
      .ok (deriveSharedSecret crypto.hashes protocol
        (crypto.curve.diffieHellman d.secret (crypto.curve.publicKey secret))) := by
  have hpoint := crypto.curve.fromSec1_coordinates _ (P256.publicKey_ne_zero h)
  rw [Authenticator.shared, fromValue_platformKey]
  simp only [platformKey, hpoint]

/-- Both sides of a key agreement come to the same point. -/
theorem diffieHellman_comm (curve : P256) (a b : ℕ) :
    curve.diffieHellman a (curve.publicKey b) = curve.diffieHellman b (curve.publicKey a) := by
  rw [P256.diffieHellman, P256.diffieHellman, P256.publicKey, P256.publicKey, ← mul_nsmul,
    ← mul_nsmul, Nat.mul_comm]

theorem parseKeyAgreement_platformKey {protocol : PinUvAuthProtocol} {secret : ℕ} {bytes : Bytes}
    (hd : ¬ crypto.curve.order ∣ d.secret)
    (hbytes : decoded bytes = .ok (fieldMap [(1, (platformKey crypto.curve d.secret).toValue)])) :
    ∃ session, parseKeyAgreement crypto protocol secret bytes = .ok session ∧
      session.protocol = protocol ∧ session.keyAgreement = platformKey crypto.curve secret ∧
      session.sharedSecret = deriveSharedSecret crypto.hashes protocol
        (crypto.curve.diffieHellman secret (crypto.curve.publicKey d.secret)) := by
  have hget : (fieldMap [(1, (platformKey crypto.curve d.secret).toValue)]).mapGetInt 1 =
      some (platformKey crypto.curve d.secret).toValue := rfl
  have hpoint := crypto.curve.fromSec1_coordinates _ (P256.publicKey_ne_zero hd)
  refine ⟨⟨protocol, platformKey crypto.curve secret, deriveSharedSecret crypto.hashes protocol
    (crypto.curve.diffieHellman secret (crypto.curve.publicKey d.secret)), ⟨_, _, rfl⟩⟩, ?_, rfl,
    rfl, rfl⟩
  refine bind_eq_ok.mpr ⟨_, hbytes, ?_⟩
  refine bind_eq_ok.mpr ⟨_, required_eq_ok.mpr hget, ?_⟩
  refine bind_eq_ok.mpr ⟨_, fromValue_platformKey crypto.curve d.secret, ?_⟩
  simp only [platformKey, hpoint]

/-- Key agreement with the authenticator ends with a session that both sides hold the secret
of. -/
theorem getKeyAgreement_execute {protocol : PinUvAuthProtocol} {scalar : ByteArrayOf 32}
    {op : Operation (Sequence PinSession) PinSession} (hd : d.Sound crypto)
    (hop : getKeyAgreement crypto protocol scalar options = .ok op)
    (hroom : Ample options 2500) :
    ∃ session, Agreed crypto session d ∧ session.protocol = protocol ∧
      Ends (execute (sequence PinSession) (messageApplet fun d => d.respond crypto) op d).1
        (.ok session) ∧
      (execute (sequence PinSession) (messageApplet fun d => d.respond crypto) op d).2 = d := by
  obtain ⟨secret, hsecret, hop⟩ := bind_eq_ok.mp hop
  obtain ⟨message, hmessage, hop⟩ := bind_eq_ok.mp hop
  obtain ⟨hlen, body, rfl, hdecoded⟩ := short_message hmessage
  have hkey := key_orderly (crypto.curve.coordinates (crypto.curve.publicKey d.secret)).1
    (crypto.curve.coordinates (crypto.curve.publicKey d.secret)).2
  have horderly : Orderly 300 [(1, (platformKey crypto.curve d.secret).toValue)] := by
    refine ⟨List.pairwise_singleton _ _, ?_, ?_, Nat.le_of_ble_eq_true rfl⟩
    · intro f hf
      rw [List.mem_singleton.mp hf]
      exact Nat.le_of_ble_eq_true rfl
    · intro f hf
      rw [List.mem_singleton.mp hf]
      exact hkey
  obtain ⟨session, hparse, hprotocol, hplatform, hshared⟩ := @parseKeyAgreement_platformKey crypto d
    protocol secret _ hd.secret (horderly.decoded (by decide))
  have hpin : d.clientPin crypto (fieldMap [protocolEntry protocol,
      (2, uint subcommandGetKeyAgreement)]) =
        (.ok (wire (fieldMap [(1, (platformKey crypto.curve d.secret).toValue)])), d) := by
    have hget : (fieldMap [protocolEntry protocol,
        (2, uint subcommandGetKeyAgreement)]).mapGetInt 2 = some (uint 0x02) := by
      cases protocol <;> rfl
    have hself : 0x02 ≠ subcommandGetPinRetries ∧ 0x02 = subcommandGetKeyAgreement := by decide
    rw [Authenticator.clientPin, uintAt_some hget (by decide)]
    dsimp only
    rw [if_neg hself.1, if_pos hself.2, payload_ok horderly]
  refine ⟨session, ⟨?_⟩, hprotocol, ?_⟩
  · rw [hplatform, hprotocol, hshared, shared_platformKey (secretKey_eq_ok hsecret),
      diffieHellman_comm]
  · have hexecute := @message_execute crypto d _ _ _ _ hdecoded _ _ hop _ hroom hlen
    rw [hpin] at hexecute
    have hlength : (wire (fieldMap [(1, (platformKey crypto.curve d.secret).toValue)])).length ≤
        511 := by
      have hwire : wire (fieldMap [(1, (platformKey crypto.curve d.secret).toValue)]) =
          shortestHead 5 1 ++ (wire (uint 1) ++ wire (platformKey crypto.curve d.secret).toValue ++
            []) := rfl
      have hvalue : (wire (platformKey crypto.curve d.secret).toValue).length ≤ 300 := hkey.2.2
      have hhead : (shortestHead 5 1).length = 1 := by decide
      have hone : (wire (uint 1)).length = 1 := by decide
      rw [hwire]
      simp only [List.length_append, List.length_nil, hhead, hone]
      omega
    obtain ⟨hends, hafter⟩ := hexecute (by rintro _ ⟨⟩; exact hlength) (by rintro _ ⟨⟩)
    change Ends _ (parseKeyAgreement _ _ _ _) at hends
    rw [hparse] at hends
    exact ⟨hends, hafter⟩

/-- The retries that are read are those the register has. -/
theorem getPinRetries_execute {protocol : PinUvAuthProtocol}
    {op : Operation (Sequence PinRetries) PinRetries} (hretries : d.register.retries < 2 ^ 32)
    (hop : getPinRetries protocol options = .ok op) (hroom : Ample options 2500) :
    Ends (execute (sequence PinRetries) (messageApplet fun d => d.respond crypto) op d).1
        (.ok ⟨d.register.retries, none⟩) ∧
      (execute (sequence PinRetries) (messageApplet fun d => d.respond crypto) op d).2 = d := by
  obtain ⟨message, hmessage, hop⟩ := bind_eq_ok.mp hop
  obtain ⟨hlen, body, rfl, hdecoded⟩ := short_message hmessage
  have horderly : Orderly 9 [(3, uint d.register.retries)] := by
    refine ⟨List.pairwise_singleton _ _, ?_, ?_, Nat.le_of_ble_eq_true rfl⟩
    · intro f hf
      rw [List.mem_singleton.mp hf]
      exact Nat.le_of_ble_eq_true rfl
    · intro f hf
      rw [List.mem_singleton.mp hf]
      exact uint_orderly d.register.retries
  have hpin : d.clientPin crypto (fieldMap [protocolEntry protocol,
      (2, uint subcommandGetPinRetries)]) =
        (.ok (wire (fieldMap [(3, uint d.register.retries)])), d) := by
    have hget : (fieldMap [protocolEntry protocol,
        (2, uint subcommandGetPinRetries)]).mapGetInt 2 = some (uint 0x01) := by
      cases protocol <;> rfl
    have hself : 0x01 = subcommandGetPinRetries := rfl
    rw [Authenticator.clientPin, uintAt_some hget (by decide)]
    dsimp only
    rw [if_pos hself, payload_ok horderly]
  have hparse : parsePinRetries (wire (fieldMap [(3, uint d.register.retries)])) =
      .ok ⟨d.register.retries, none⟩ := by
    have hget : (fieldMap [(3, uint d.register.retries)]).mapGetInt 3 =
        some (uint d.register.retries) := rfl
    have hnone : (fieldMap [(3, uint d.register.retries)]).mapGetInt 4 = none := rfl
    have hword : (UInt64.ofNat d.register.retries).toNat = d.register.retries :=
      UInt64.toNat_ofNat_of_lt' (Nat.lt_trans hretries (by decide))
    refine bind_eq_ok.mpr ⟨_, horderly.decoded (by decide), ?_⟩
    refine bind_eq_ok.mpr ⟨_, required_eq_ok.mpr hget, ?_⟩
    refine bind_eq_ok.mpr ⟨UInt64.ofNat d.register.retries, rfl, ?_⟩
    rw [hword, if_neg (Nat.not_le_of_lt hretries), CtapCredential.opt, hnone]
    rfl
  have hexecute := @message_execute crypto d _ _ _ _ hdecoded _ _ hop _ hroom hlen
  rw [hpin] at hexecute
  have hlength := horderly.length
  obtain ⟨hends, hafter⟩ := hexecute (by rintro _ ⟨⟩; omega) (by rintro _ ⟨⟩)
  change Ends _ (parsePinRetries _) at hends
  rw [hparse] at hends
  exact ⟨hends, hafter⟩

end platform

end CtapPinAuthenticator
