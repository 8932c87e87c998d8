import LibCanokey.CtapPinAuthenticator
import Mathlib.Algebra.Field.ZMod
import Mathlib.GroupTheory.Perm.List

/-! # Histories of a PIN

Any history of key agreements and PIN requests with one authenticator is the history of its
register: every operation reports what the register answered, and a token comes only from the PIN
that was set last. -/
namespace CtapPinHistory

open BigEndian CheckedCursor ListTraversal ProtocolError ProtocolConversation ProtocolOperation
open ProtocolAcceptance ProtocolSession ProtocolDelivery CtapCbor CtapMessage CtapAuthData
open CtapHmacSecret CtapLargeBlobUpload CtapEnvelope CtapClientPin CtapPinMessage
open CtapPinAuthenticator

/-- A finished operation of the platform and what it reported. -/
inductive Event where
  | agreement (out : Except Error PinSession)
  | retries (out : Except Error PinRetries)
  | setPin (newPin : Bytes) (out : Except Error Unit)
  | changePin (oldPin newPin : Bytes) (out : Except Error Unit)
  | getPinToken (pin : Bytes) (out : Except Error PinToken)
  | getPinTokenWithPermissions (pin : Bytes) (permissions : Permissions) (rpId : Option String)
      (out : Except Error PinToken)

/-- An operation that was made with a session of the authenticator and ended there. -/
inductive Happens (crypto : Primitives) : Authenticator → Event → Authenticator → Prop where
  | agreement {d : Authenticator} {protocol : PinUvAuthProtocol} {scalar : ByteArrayOf 32}
      {options : OperationOptions} {op : Operation (Sequence PinSession) PinSession}
      {out : Except Error PinSession}
      (hop : getKeyAgreement crypto protocol scalar options = .ok op)
      (hroom : Ample options 2500)
      (hends : Ends (execute (sequence PinSession) (messageApplet fun d => d.respond crypto) op
        d).1 out) :
      Happens crypto d (.agreement out)
        (execute (sequence PinSession) (messageApplet fun d => d.respond crypto) op d).2
  | retries {d : Authenticator} {protocol : PinUvAuthProtocol} {options : OperationOptions}
      {op : Operation (Sequence PinRetries) PinRetries} {out : Except Error PinRetries}
      (hop : getPinRetries protocol options = .ok op) (hroom : Ample options 2500)
      (hends : Ends (execute (sequence PinRetries) (messageApplet fun d => d.respond crypto) op
        d).1 out) :
      Happens crypto d (.retries out)
        (execute (sequence PinRetries) (messageApplet fun d => d.respond crypto) op d).2
  | setPin {d : Authenticator} {session : PinSession} {newPin : Bytes}
      {iv : Option (ByteArrayOf 16)} {options : OperationOptions}
      {op : Operation (Sequence Unit) Unit} {out : Except Error Unit}
      (hs : Agreed crypto session d) (hop : setPin crypto session newPin iv options = .ok op)
      (hroom : Ample options 2500)
      (hends : Ends (execute (sequence Unit) (messageApplet fun d => d.respond crypto) op d).1
        out) :
      Happens crypto d (.setPin newPin out)
        (execute (sequence Unit) (messageApplet fun d => d.respond crypto) op d).2
  | changePin {d : Authenticator} {session : PinSession} {oldPin newPin : Bytes}
      {iv : Option (ByteArrayOf 16)} {options : OperationOptions}
      {op : Operation (Sequence Unit) Unit} {out : Except Error Unit}
      (hs : Agreed crypto session d)
      (hop : changePin crypto session oldPin newPin iv options = .ok op)
      (hroom : Ample options 2500)
      (hends : Ends (execute (sequence Unit) (messageApplet fun d => d.respond crypto) op d).1
        out) :
      Happens crypto d (.changePin oldPin newPin out)
        (execute (sequence Unit) (messageApplet fun d => d.respond crypto) op d).2
  | getPinToken {d : Authenticator} {session : PinSession} {pin : Bytes}
      {iv : Option (ByteArrayOf 16)} {options : OperationOptions}
      {op : Operation (Sequence PinToken) PinToken} {out : Except Error PinToken}
      (hs : Agreed crypto session d) (hop : getPinToken crypto session pin iv options = .ok op)
      (hroom : Ample options 2500)
      (hends : Ends (execute (sequence PinToken) (messageApplet fun d => d.respond crypto) op d).1
        out) :
      Happens crypto d (.getPinToken pin out)
        (execute (sequence PinToken) (messageApplet fun d => d.respond crypto) op d).2
  | getPinTokenWithPermissions {d : Authenticator} {session : PinSession} {pin : Bytes}
      {permissions : Permissions} {rpId : Option String} {iv : Option (ByteArrayOf 16)}
      {options : OperationOptions} {op : Operation (Sequence PinToken) PinToken}
      {out : Except Error PinToken} {n : ℕ} (hs : Agreed crypto session d)
      (hop : getPinTokenWithPermissions crypto session pin permissions rpId iv options = .ok op)
      (hn : n < 2 ^ 59) (hrpId : ∀ id, rpId = some id → (utf8 id).length ≤ n)
      (hroom : Ample options (2500 + 8 * n))
      (hends : Ends (execute (sequence PinToken) (messageApplet fun d => d.respond crypto) op d).1
        out) :
      Happens crypto d (.getPinTokenWithPermissions pin permissions rpId out)
        (execute (sequence PinToken) (messageApplet fun d => d.respond crypto) op d).2

/-- What an event asks of the register. -/
def Event.request (hashes : Hashes) : Event → Option RegisterRequest
  | .agreement _ | .retries _ => none
  | .setPin newPin _ => some (.set (stripped newPin))
  | .changePin oldPin newPin _ => some (.change (pinHash hashes oldPin) (stripped newPin))
  | .getPinToken pin _ => some (.token (pinHash hashes pin) 0x03 none)
  | .getPinTokenWithPermissions pin permissions rpId _ =>
    some (.token (pinHash hashes pin) permissions.bits.toNat rpId)

def Event.next (hashes : Hashes) (r : Register) (event : Event) : Register :=
  match event.request hashes with
  | none => r
  | some request => (r.apply hashes request).2

/-- What the register before it makes an event report. -/
def Event.Reports (crypto : Primitives) (d : Authenticator) : Event → Prop
  | .agreement out => ∃ session, out = .ok session ∧ Agreed crypto session d
  | .retries out => out = .ok ⟨d.register.retries, none⟩
  | .setPin newPin out =>
    out = settled (d.register.apply crypto.hashes (.set (stripped newPin))).1 ()
  | .changePin oldPin newPin out =>
    out = settled (d.register.apply crypto.hashes
      (.change (pinHash crypto.hashes oldPin) (stripped newPin))).1 ()
  | .getPinToken pin out =>
    out = settled (d.register.apply crypto.hashes
      (.token (pinHash crypto.hashes pin) 0x03 none)).1 ⟨d.token⟩
  | .getPinTokenWithPermissions pin permissions rpId out =>
    out = settled (d.register.apply crypto.hashes
      (.token (pinHash crypto.hashes pin) permissions.bits.toNat rpId)).1 ⟨d.token⟩

section steps

variable {crypto : Primitives} {d d' : Authenticator} {event : Event}

/-- The retries never exceed their maximum. -/
theorem apply_retries {hashes : Hashes} {r : Register} (h : r.retries ≤ maxRetries)
    (request : RegisterRequest) : (r.apply hashes request).2.retries ≤ maxRetries := by
  have hcheck (hash : Bytes) : (r.check hash).2.retries ≤ maxRetries := by
    simp only [Register.check]
    split
    · exact h
    · split_ifs
      · exact h
      · exact le_refl _
      · exact Nat.le_trans (Nat.sub_le _ _) h
      · exact Nat.le_trans (Nat.sub_le _ _) h
  have hstore {r : Register} (h : r.retries ≤ maxRetries) (pin : Bytes) :
      (r.store hashes pin).2.retries ≤ maxRetries := by
    simp only [Register.store]
    split
    · exact le_refl _
    · exact h
  cases request with
  | set pin =>
    simp only [Register.apply]
    split_ifs
    · exact h
    · exact hstore h pin
  | change hash pin =>
    have hc := hcheck hash
    simp only [Register.apply]
    generalize r.check hash = checked at hc ⊢
    rcases checked with ⟨_ | _, r'⟩
    · exact hc
    · exact hstore hc pin
  | token hash permissions rpId =>
    have hc := hcheck hash
    simp only [Register.apply]
    generalize r.check hash = checked at hc ⊢
    rcases checked with ⟨_ | _, r'⟩
    · exact hc
    · exact hc

/-- One operation is one step of the register. -/
theorem happens_step (hd : d.Sound crypto) (hr : d.register.retries ≤ maxRetries)
    (h : Happens crypto d event d') :
    d' = { d with register := event.next crypto.hashes d.register } ∧ event.Reports crypto d := by
  cases h with
  | agreement hop hroom hends =>
    obtain ⟨session, hs, _, hsession, hafter⟩ := getKeyAgreement_execute hd hop hroom
    exact ⟨hafter, session, ends_unique hends hsession, hs⟩
  | retries hop hroom hends =>
    have hmax : maxRetries < 2 ^ 32 := by decide
    obtain ⟨hretries, hafter⟩ := getPinRetries_execute (Nat.lt_of_le_of_lt hr hmax) hop hroom
    exact ⟨hafter, ends_unique hends hretries⟩
  | setPin hs hop hroom hends =>
    obtain ⟨hset, hafter⟩ := setPin_execute hs hop hroom
    exact ⟨hafter, ends_unique hends hset⟩
  | changePin hs hop hroom hends =>
    obtain ⟨hchange, hafter⟩ := changePin_execute hs hop hroom
    exact ⟨hafter, ends_unique hends hchange⟩
  | getPinToken hs hop hroom hends =>
    obtain ⟨htoken, hafter⟩ := getPinToken_execute hd hs hop hroom
    exact ⟨hafter, ends_unique hends htoken⟩
  | getPinTokenWithPermissions hs hop hn hrpId hroom hends =>
    obtain ⟨htoken, hafter⟩ := getPinTokenWithPermissions_execute hd hs hop hn hrpId hroom
    exact ⟨hafter, ends_unique hends htoken⟩

theorem next_retries {hashes : Hashes} {r : Register} (h : r.retries ≤ maxRetries)
    (event : Event) : (event.next hashes r).retries ≤ maxRetries := by
  rw [Event.next]
  cases event.request hashes with
  | none => exact h
  | some request => exact apply_retries h request

end steps

/-! ## Whole histories -/

/-- Events one after another, with the state each one met. -/
inductive History (crypto : Primitives) :
    Authenticator → List (Authenticator × Event) → Authenticator → Prop where
  | nil (d : Authenticator) : History crypto d [] d
  | snoc {d d' d'' : Authenticator} {events : List (Authenticator × Event)} {event : Event}
      (h : History crypto d events d') (he : Happens crypto d' event d'') :
      History crypto d (events ++ [(d', event)]) d''

/-- The PIN that an event has set. -/
def Event.newPin : Event → Option Bytes
  | .setPin newPin (.ok _) => some newPin
  | .changePin _ newPin (.ok _) => some newPin
  | _ => none

/-- The PIN that was set last. -/
def lastPin (events : List (Authenticator × Event)) : Option Bytes :=
  (events.filterMap fun e => e.2.newPin).getLast?

/-- What a history comes to, from a register on. -/
structure Kept (crypto : Primitives) (d : Authenticator) (events : List (Authenticator × Event))
    (d' : Authenticator) : Prop where
  secret : d'.secret = d.secret
  token : d'.token = d.token
  vector : d'.vector = d.vector
  register : d'.register =
    events.foldl (fun r e => e.2.next crypto.hashes r) d.register
  hash : d'.register.hash =
    match lastPin events with
    | some pin => some (pinHash crypto.hashes (stripped pin))
    | none => d.register.hash
  retries : d'.register.retries ≤ maxRetries

section histories

variable {crypto : Primitives} {d d' : Authenticator} {event : Event}
  {events : List (Authenticator × Event)}

theorem lastPin_concat (events : List (Authenticator × Event)) (e : Authenticator × Event) :
    lastPin (events ++ [e]) = e.2.newPin.or (lastPin events) := by
  rw [lastPin, lastPin, List.filterMap_append]
  cases hpin : e.2.newPin with
  | none => simp [hpin]
  | some pin => simp [hpin]

theorem store_hash {hashes : Hashes} {r : Register} {pin : Bytes} :
    (r.store hashes pin).2.hash =
      match (r.store hashes pin).1 with
      | .ok _ => some (pinHash hashes pin)
      | .error _ => r.hash := by
  simp only [Register.store]
  cases validatePin pin <;> rfl

theorem check_hash {r : Register} (hash : Bytes) : (r.check hash).2.hash = r.hash := by
  simp only [Register.check]
  split
  · rfl
  · split_ifs <;> rfl

/-- The stored hash changes with an accepted PIN only. -/
theorem next_hash (h : event.Reports crypto d) :
    (event.next crypto.hashes d.register).hash =
      match event.newPin with
      | some pin => some (pinHash crypto.hashes (stripped pin))
      | none => d.register.hash := by
  cases event with
  | agreement | retries => rfl
  | setPin newPin out =>
    simp only [Event.Reports, Register.apply] at h
    simp only [Event.next, Event.request, Register.apply]
    split_ifs at h ⊢ with hset
    · rw [h]
      rfl
    · have hstore := @store_hash crypto.hashes d.register (stripped newPin)
      rw [hstore, h]
      rcases (d.register.store crypto.hashes (stripped newPin)).1 with _ | _ <;> rfl
  | changePin oldPin newPin out =>
    have hcheck := @check_hash d.register (pinHash crypto.hashes oldPin)
    simp only [Event.Reports, Register.apply] at h
    simp only [Event.next, Event.request, Register.apply]
    generalize d.register.check (pinHash crypto.hashes oldPin) = checked at h hcheck ⊢
    rcases checked with ⟨_ | _, r⟩
    · rw [h]
      exact hcheck
    · have hstore := @store_hash crypto.hashes r (stripped newPin)
      dsimp only at h hcheck ⊢
      rw [hstore, h, ← hcheck]
      rcases (r.store crypto.hashes (stripped newPin)).1 with _ | _ <;> rfl
  | getPinToken pin out =>
    have hcheck := @check_hash d.register (pinHash crypto.hashes pin)
    simp only [Event.next, Event.request, Register.apply, Event.newPin]
    generalize d.register.check (pinHash crypto.hashes pin) = checked at hcheck ⊢
    rcases checked with ⟨_ | _, r⟩ <;> exact hcheck
  | getPinTokenWithPermissions pin permissions rpId out =>
    have hcheck := @check_hash d.register (pinHash crypto.hashes pin)
    simp only [Event.next, Event.request, Register.apply, Event.newPin]
    generalize d.register.check (pinHash crypto.hashes pin) = checked at hcheck ⊢
    rcases checked with ⟨_ | _, r⟩ <;> exact hcheck

/-- The PIN of a token request and what it reported. -/
def Event.tokenOf : Event → Option (Bytes × Except Error PinToken)
  | .getPinToken pin out | .getPinTokenWithPermissions pin _ _ out => some (pin, out)
  | _ => none

/-- When a token request against the register is granted. -/
structure TokenRule (crypto : Primitives) (d : Authenticator) (pin : Bytes)
    (out : Except Error PinToken) : Prop where
  granted : d.register.hash = some (pinHash crypto.hashes pin) → d.register.retries ≠ 0 →
    out = .ok ⟨d.token⟩
  only : ∀ token, out = .ok token → token = ⟨d.token⟩ ∧
    d.register.hash = some (pinHash crypto.hashes pin) ∧ d.register.retries ≠ 0

theorem token_rule {pin : Bytes} {permissions : ℕ} {rpId : Option String} :
    TokenRule crypto d pin (settled (d.register.apply crypto.hashes
      (.token (pinHash crypto.hashes pin) permissions rpId)).1 ⟨d.token⟩) := by
  constructor
  · intro hhash hretries
    simp only [Register.apply, Register.check, hhash, if_neg hretries, if_true]
    rfl
  · intro token htoken
    simp only [Register.apply, Register.check] at htoken
    cases hhash : d.register.hash with
    | none =>
      rw [hhash] at htoken
      cases htoken
    | some stored =>
      simp only [hhash] at htoken
      by_cases hretries : d.register.retries = 0
      · rw [if_pos hretries] at htoken
        cases htoken
      · rw [if_neg hretries] at htoken
        by_cases hsame : pinHash crypto.hashes pin = stored
        · rw [if_pos hsame] at htoken
          cases htoken
          exact ⟨rfl, by rw [hsame], hretries⟩
        · rw [if_neg hsame] at htoken
          cases htoken

/-- What an event of a history meets and reports. -/
structure Told (crypto : Primitives) (d : Authenticator) (before : List (Authenticator × Event))
    (e : Authenticator × Event) : Prop where
  kept : Kept crypto d before e.1
  reports : e.2.Reports crypto e.1
  token : ∀ pin out, e.2.tokenOf = some (pin, out) → TokenRule crypto e.1 pin out

theorem Event.Reports.rule (h : event.Reports crypto d) {pin : Bytes} {out : Except Error PinToken}
    (ht : event.tokenOf = some (pin, out)) : TokenRule crypto d pin out := by
  cases event with
  | agreement | retries | setPin | changePin => cases ht
  | getPinToken =>
    cases ht
    rw [show out = _ from h]
    exact token_rule
  | getPinTokenWithPermissions =>
    cases ht
    rw [show out = _ from h]
    exact token_rule

/-- Every history is the history of its register: each operation reports what the register
answers, the hash is that of the PIN set last, and a token comes only from a PIN with that hash.
The induction is on the events. -/
theorem pin_history (hd : d.Sound crypto) (hr : d.register.retries ≤ maxRetries)
    (h : History crypto d events d') : Kept crypto d events d' ∧
      ∀ before e after, events = before ++ e :: after → Told crypto d before e := by
  induction h with
  | nil =>
    refine ⟨⟨rfl, rfl, rfl, rfl, rfl, hr⟩, ?_⟩
    intro before e after hsplit
    simp at hsplit
  | @snoc d' d'' events event _ he ih =>
    obtain ⟨hkept, htold⟩ := ih
    have hsound : d'.Sound crypto := by
      refine ⟨?_, ?_, ?_⟩
      · rw [hkept.secret]
        exact hd.secret
      · rw [hkept.token]
        exact hd.blocks
      · rw [hkept.token]
        exact hd.token
    obtain ⟨rfl, hreport⟩ := happens_step hsound hkept.retries he
    refine ⟨⟨hkept.secret, hkept.token, hkept.vector, ?_, ?_, next_retries hkept.retries event⟩, ?_⟩
    · rw [List.foldl_append, ← hkept.register]
      rfl
    · rw [lastPin_concat]
      refine (next_hash hreport).trans ?_
      cases event.newPin with
      | none => exact hkept.hash
      | some pin => rfl
    · intro before e after hsplit
      rcases List.eq_nil_or_concat after with rfl | ⟨after, last, rfl⟩
      · obtain ⟨rfl, hlast⟩ := List.append_inj' hsplit rfl
        cases hlast
        exact ⟨hkept, hreport, fun pin out ht => hreport.rule ht⟩
      · have hcons : before ++ e :: (after ++ [last]) = (before ++ e :: after) ++ [last] := by simp
        rw [List.concat_eq_append, hcons] at hsplit
        exact htold before e after (List.append_inj' hsplit rfl).1

end histories

/-! ## Operations that are accepted -/

section accepted

/-- A valid PIN is sent with a session of the authenticator. -/
theorem setPin_accepted {crypto : Primitives} {session : PinSession} {d : Authenticator}
    {newPin : Bytes} {iv : Option (ByteArrayOf 16)} (hs : Agreed crypto session d)
    (hpin : validatePin newPin = .ok ()) (hiv : checkIv session.protocol iv = .ok ()) :
    ∃ op, setPin crypto session newPin iv {} = .ok op := by
  have hpadded := length_padPin (validatePin_eq_ok hpin)
  obtain ⟨newPinEnc, henc⟩ := @encrypt_ok crypto.aes session.protocol session.sharedSecret
    (padPin newPin) iv hs.length hiv (by rw [hpadded])
  have hlong := (decrypt_encrypt (padPin_ne_nil hpin) henc).2
  obtain ⟨x, y, hkey⟩ := session.platform
  have hshort : (PinRequest.mk session.protocol subcommandSetPin x y
      (some (authenticate crypto.hashes session.protocol session.sharedSecret newPinEnc))
      (some newPinEnc) none none none).Short 0 := by
    refine ⟨?_, ?_, by rintro _ ⟨⟩, by rintro _ ⟨⟩⟩
    · rintro _ ⟨⟩
      exact length_authenticate_le _ _ _ _
    · rintro _ ⟨⟩
      omega
  have hmessage : clientPinMessage (PinRequest.fields _) = .ok _ :=
    map_eq_ok.mpr ⟨_, (PinRequest.orderly hshort (by decide)).encode, rfl⟩
  obtain ⟨hlen, body, hbody, _⟩ := PinRequest.decoded hshort (by decide) hmessage
  obtain ⟨op, hop⟩ := selectThen_accepted (List.cons_ne_nil _ _) hlen
    fun response => typed response emptyPayload
  refine ⟨op, ?_⟩
  refine bind_eq_ok.mpr ⟨(), hpin, ?_⟩
  refine bind_eq_ok.mpr ⟨(), hiv, ?_⟩
  refine bind_eq_ok.mpr ⟨newPinEnc, henc, ?_⟩
  refine bind_eq_ok.mpr ⟨_, ?_, hop⟩
  rw [hkey]
  exact hmessage

/-- So is one for a token. -/
theorem getPinToken_accepted {crypto : Primitives} {session : PinSession} {d : Authenticator}
    {pin : Bytes} {iv : Option (ByteArrayOf 16)} (hs : Agreed crypto session d)
    (hpin : validatePin pin = .ok ()) (hiv : checkIv session.protocol iv = .ok ()) :
    ∃ op, getPinToken crypto session pin iv {} = .ok op := by
  have hlength := length_pinHash crypto.hashes pin
  obtain ⟨pinHashEnc, henc⟩ := @encrypt_ok crypto.aes session.protocol session.sharedSecret
    (pinHash crypto.hashes pin) iv hs.length hiv (by rw [hlength])
  have hlong := (decrypt_encrypt (pinHash_ne_nil _ _) henc).2
  obtain ⟨x, y, hkey⟩ := session.platform
  have hshort : (PinRequest.mk session.protocol subcommandGetPinToken x y none none
      (some pinHashEnc) none none).Short 0 := by
    refine ⟨by rintro _ ⟨⟩, by rintro _ ⟨⟩, ?_, by rintro _ ⟨⟩⟩
    rintro _ ⟨⟩
    omega
  have hmessage : clientPinMessage (PinRequest.fields _) = .ok _ :=
    map_eq_ok.mpr ⟨_, (PinRequest.orderly hshort (by decide)).encode, rfl⟩
  obtain ⟨hlen, body, hbody, _⟩ := PinRequest.decoded hshort (by decide) hmessage
  obtain ⟨op, hop⟩ := selectThen_accepted (List.cons_ne_nil _ _) hlen
    fun response => typed response (parsePinToken crypto session)
  refine ⟨op, ?_⟩
  refine bind_eq_ok.mpr ⟨(), hpin, ?_⟩
  refine bind_eq_ok.mpr ⟨(), hiv, ?_⟩
  refine bind_eq_ok.mpr ⟨pinHashEnc, henc, ?_⟩
  refine bind_eq_ok.mpr ⟨_, ?_, hop⟩
  rw [pinTokenEntries, hkey]
  exact hmessage

theorem getKeyAgreement_accepted {crypto : Primitives} (protocol : PinUvAuthProtocol)
    {scalar : ByteArrayOf 32} {secret : ℕ} (hs : crypto.curve.secretKey scalar = .ok secret) :
    ∃ op, getKeyAgreement crypto protocol scalar {} = .ok op := by
  have hmessage : ∃ message, clientPinMessage
      [protocolEntry protocol, (2, uint subcommandGetKeyAgreement)] = .ok message := by
    cases protocol <;> exact ⟨_, rfl⟩
  obtain ⟨message, hmessage⟩ := hmessage
  obtain ⟨hlen, body, rfl, _⟩ := short_message hmessage
  obtain ⟨op, hop⟩ := selectThen_accepted (List.cons_ne_nil _ _) hlen
    fun response => typed response (parseKeyAgreement crypto protocol secret)
  refine ⟨op, ?_⟩
  refine bind_eq_ok.mpr ⟨secret, hs, ?_⟩
  exact bind_eq_ok.mpr ⟨_, hmessage, hop⟩

end accepted

/-! ## A platform of scalar 1 and an authenticator of scalar 2 -/

/-- The bytes of a number of 16 bytes and of one of 32. -/
def block (n : ℕ) : ByteArrayOf 16 := ⟨toBeBytes 16 n, length_toBeBytes 16 n⟩

def digest (n : ℕ) : ByteArrayOf 32 := ⟨toBeBytes 32 n, length_toBeBytes 32 n⟩

/-- The generator of P-256 and its double. -/
def generatorPoint : ByteArrayOf 32 × ByteArrayOf 32 :=
  (digest 0x6b17d1f2e12c4247f8bce6e563a440f277037d812deb33a0f4a13945d898c296,
   digest 0x4fe342e2fe1a7f9b8ee7eb4a7c0f9e162bce33576b315ececbb6406837bf51f5)

def doublePoint : ByteArrayOf 32 × ByteArrayOf 32 :=
  (digest 0x7cf27b188d034f7e8a52380304b51ac3c08969e277f21b35a60b48fc47669978,
   digest 0x07775510db8ed040293d9ac69f7430dbba7dade63ce982299e04b79d227873d1)

/-- P-256 as far as the scalars 1 and 2 reach. -/
def smallCurve : P256 where
  Point := ZMod 3
  group := inferInstance
  generator := 1
  order := 3
  coordinates p := if p = 1 then generatorPoint else doublePoint
  fromSec1 b :=
    if b = 0x04 :: (generatorPoint.1.1 ++ generatorPoint.2.1) then some 1
    else if b = 0x04 :: (doublePoint.1.1 ++ doublePoint.2.1) then some 2
    else none
  order_iff n := by
    rw [nsmul_one]
    exact ZMod.natCast_eq_zero_iff n 3
  fromSec1_coordinates p hp := by
    have hall : ∀ p : ZMod 3, p ≠ 0 → p = 1 ∨ p = 2 := by decide
    rcases hall p hp with rfl | rfl <;> decide
  fromSec1_ne_zero b := by
    split_ifs <;> decide

def pin1234 : Bytes := utf8 "1234"

def pin4321 : Bytes := utf8 "4321"

/-- The secret of a credential, which the outputs are keyed with. -/
def credRandom : Bytes := List.replicate 32 3

def firstSalt : Bytes := List.replicate 32 5

def secondSalt : Bytes := List.replicate 32 6

/-- The shared secret under the first protocol, and the two keys of the second. -/
def sharedKey : Bytes :=
  toBeBytes 32 0x23775201799b2234a18e8071e409cec80d42632fe77534180afdc533c9b76f81

def hmacKey : Bytes :=
  toBeBytes 32 0x64ca541c7473e4a526a447a65f24c755d6098f8341d6731894bb241e6a6bf289

def aesKey : Bytes :=
  toBeBytes 32 0xffdd11da665666f9e5a99ba18a1cf674a4f1adf68a436bf9d7f219980910e877

/-- What the padded PIN 1234 and the salts are encrypted to. -/
def pinEnc : Bytes :=
  toBeBytes 32 0x273c79b36cac864e1a2fb43079cb850caf665116d84bd263c80f3715fdc8d76f ++
    toBeBytes 32 0x4619de0c5c1ce1d5cac70bc20dd910b0162fc99b8395fd9f82d277b99c17aa45

def oneSaltEnc : Bytes :=
  toBeBytes 32 0x7c36ad27a0d76670d71237deb2584f1f78b3766266fc1b3ac07fba5c8b07abc0

def twoSaltEnc : Bytes :=
  List.replicate 16 1 ++
    toBeBytes 32 0x8d472bf09cf771d08b1a220f62f64b3d180f657955696078ebac5c89dc77686b ++
    toBeBytes 32 0x687b8b5f46e73abb5586dfaf64cbabad604b26532d79456d5022e97c9a31895f

/-- SHA-256 on what the two sides hash. -/
def digests : List (Bytes × ℕ) :=
  [(doublePoint.1.1, 0x23775201799b2234a18e8071e409cec80d42632fe77534180afdc533c9b76f81),
    (pin1234, 0x03ac674216f3e15c761ee1a5e255f067953623c8b388b4459e13f978d7c846f4),
    (pin4321, 0xfe2592b42a727e977f055947385b709cc82b16b9a87f88c6abf3900d65d0cdc3)]

/-- HMAC-SHA-256 on what the two sides and a credential make tags of. -/
def tags : List ((Bytes × Bytes) × ℕ) :=
  [((hkdfSalt, doublePoint.1.1),
      0x0254d6278c2c5c3667289c4455ce88dfdf150024e471548ec480d3dca4d2e810),
    ((toBeBytes 32 0x0254d6278c2c5c3667289c4455ce88dfdf150024e471548ec480d3dca4d2e810,
        hkdfInfoHmac ++ [0x01]),
      0x64ca541c7473e4a526a447a65f24c755d6098f8341d6731894bb241e6a6bf289),
    ((toBeBytes 32 0x0254d6278c2c5c3667289c4455ce88dfdf150024e471548ec480d3dca4d2e810,
        hkdfInfoAes ++ [0x01]),
      0xffdd11da665666f9e5a99ba18a1cf674a4f1adf68a436bf9d7f219980910e877),
    ((sharedKey, pinEnc), 0x6a9bf75db9f2ca3f37d9dfbaeb80d23f4eabd36ad7feadf5cb7fa90e44fc0a4b),
    ((sharedKey, oneSaltEnc), 0x115bcb4806f33b9bd5f72c477b4ba26e3430e11de2782ce909d7c9a952edec1a),
    ((hmacKey, twoSaltEnc), 0xe76f323d9a04e3387e902d0ca4245c61e8c571a04f06397479eb09bbbe9821a2),
    ((credRandom, firstSalt), 0xbc25d730ec05be232e606de6281cc7b0dd381768e62bc51207ff0e203b255113),
    ((credRandom, secondSalt), 0x87fc1ce1f373d25ea24a581bce47f722ae3da85a908cebdfd257cce7e6843d28)]

def exampleHashes : Hashes where
  sha256 b := digest ((digests.lookup b).getD 0)
  hmac key message := digest ((tags.lookup (key, message)).getD 0)

/-- AES-256 under each of the two keys on what is encrypted, a block before what becomes of it. -/
def cycles (key : Bytes) : List (List ℕ) :=
  if key = sharedKey then
    [[0x31323334000000000000000000000000,
      0x273c79b36cac864e1a2fb43079cb850c,
      0xaf665116d84bd263c80f3715fdc8d76f,
      0x4619de0c5c1ce1d5cac70bc20dd910b0,
      0x162fc99b8395fd9f82d277b99c17aa45],
     [0x03ac674216f3e15c761ee1a5e255f067, 0x51345e129a9d3571a7226b587ecc771a],
     [0xfe2592b42a727e977f055947385b709c, 0x68663ecf2b61f1604d829d60d385d45d],
     [0x07070707070707070707070707070707, 0x65bd1e805f3fe9c9addf5d08510a5c28],
     [0x62ba19875838eeceaad85a0f560d5b2f, 0xa0e7a0288ccd12a96d2a382ac06c1868],
     [0x05050505050505050505050505050505, 0x7c36ad27a0d76670d71237deb2584f1f],
     [0x7933a822a5d26375d21732dbb75d4a1a, 0x78b3766266fc1b3ac07fba5c8b07abc0],
     [0xbc25d730ec05be232e606de6281cc7b0, 0x281c4894da8d349fd22e75c99cc8aa7b],
     [0xf5245ffc3ca6f18dd5d17be9a7edfb68, 0x3ed8a69055242d8707fa369cb6522a5a],
     [0xb924ba71a657ffd9a5b06e877815dd78, 0x13703205e30556035707f0c141793056],
     [0xbd4d9a5f7389bddc85503c26a7fd0d7e, 0x7d371cd0dcf00c397ecf2ef3941d1e00]]
  else if key = aesKey then
    [[0x04040404040404040404040404040404, 0x8d472bf09cf771d08b1a220f62f64b3d],
     [0x88422ef599f274d58e1f270a67f34e38, 0x180f657955696078ebac5c89dc77686b],
     [0x1e09637f536f667eedaa5a8fda716e6d, 0x687b8b5f46e73abb5586dfaf64cbabad],
     [0x6e7d8d5940e13cbd5380d9a962cdadab, 0x604b26532d79456d5022e97c9a31895f],
     [0xbc25d730ec05be232e606de6281cc7b0, 0x702caa1974dea59f394213c531940e05],
     [0xad14bd7192f5608d3ebd1de50ab15f16, 0xc5a6d62ef83d10e808908e3ff35ddf93],
     [0x425acacf0b4ec2b6aadad6243d1a28b1, 0x3d54242c3d56d9f55a57983aa7ad0f38],
     [0x93698c76adda322a880054dd41293210, 0xbe85cae7e6ed1061308744f18da12fc7]]
  else []

def exampleCrypto : Primitives where
  hashes := exampleHashes
  aes key := ((cycles key).map fun cycle => (cycle.map block).formPerm).prod
  curve := smallCurve

def exampleAuthenticator : Authenticator where
  secret := 2
  token := List.replicate 32 7
  vector := ⟨List.replicate 16 0, rfl⟩
  register := ⟨none, maxRetries, 0, none⟩

theorem exampleAuthenticator_sound : exampleAuthenticator.Sound exampleCrypto := by
  refine ⟨?_, by decide, by decide⟩
  have hnot : ¬ 3 ∣ 2 := by decide
  exact hnot

/-- The authenticator with the PIN 1234, some attempts left and what its token was granted for. -/
def afterPin (retries permissions : ℕ) : Authenticator :=
  { exampleAuthenticator with
    register := ⟨some (pinHash exampleHashes pin1234), retries, permissions, none⟩ }

theorem validatePin_example : validatePin pin1234 = .ok () ∧ validatePin pin4321 = .ok () := by
  have hfirst : String.fromUTF8? ⟨pin1234.toArray⟩ = some "1234" :=
    CtapCborParser.fromUTF8_eq_some.mpr rfl
  have hsecond : String.fromUTF8? ⟨pin4321.toArray⟩ = some "4321" :=
    CtapCborParser.fromUTF8_eq_some.mpr rfl
  rw [validatePin, validatePin, hfirst, hsecond]
  exact ⟨rfl, rfl⟩

/-- The register steps of the history: the PIN is set, missed once and met. -/
theorem example_steps :
    exampleAuthenticator.register.apply exampleCrypto.hashes (.set pin1234) =
      (.ok (), (afterPin 8 0).register) ∧
    (afterPin 8 0).register.apply exampleCrypto.hashes
        (.token (pinHash exampleCrypto.hashes pin4321) 0x03 none) =
      (.error 0x31, (afterPin 7 0).register) ∧
    (afterPin 7 0).register.apply exampleCrypto.hashes
        (.token (pinHash exampleCrypto.hashes pin1234) 0x03 none) =
      (.ok (), (afterPin 8 3).register) := by
  have hother : pinHash exampleCrypto.hashes pin4321 ≠ pinHash exampleHashes pin1234 := by
    decide +kernel
  refine ⟨?_, ?_, ?_⟩
  · simp only [Register.apply, exampleAuthenticator, Option.isSome_none, Bool.false_eq_true,
      if_false, Register.store, validatePin_example.1]
    rfl
  · simp only [Register.apply, Register.check, afterPin, if_neg hother]
    rfl
  · have hsame : pinHash exampleCrypto.hashes pin1234 = pinHash exampleHashes pin1234 := rfl
    simp only [Register.apply, Register.check, afterPin, if_pos hsame]
    rfl

/-- The PIN 1234 is set, a token is asked for with another PIN, which costs an attempt, and with
this one, which gives it back. -/
theorem pin_history_1234 : ∃ session,
    History exampleCrypto exampleAuthenticator
        [(exampleAuthenticator, .agreement (.ok session)),
          (exampleAuthenticator, .setPin pin1234 (.ok ())),
          (afterPin 8 0, .getPinToken pin4321 (.error (statusError 0x31))),
          (afterPin 7 0, .getPinToken pin1234 (.ok ⟨exampleAuthenticator.token⟩))]
        (afterPin 8 3) ∧
      TokenRule exampleCrypto (afterPin 7 0) pin1234 (.ok ⟨exampleAuthenticator.token⟩) := by
  have hone : ofBeBytes (List.replicate 31 0 ++ [0x01]) = 1 := by decide
  have hsecret : exampleCrypto.curve.secretKey ⟨List.replicate 31 0 ++ [0x01], by decide⟩ =
      .ok 1 := by
    rw [P256.secretKey, hone]
    rfl
  obtain ⟨op, hop⟩ := getKeyAgreement_accepted .v1 hsecret
  obtain ⟨session, hs, hv1, hends, hafter⟩ :=
    getKeyAgreement_execute exampleAuthenticator_sound hop ample_default
  have hagreed := Happens.agreement hop ample_default hends
  rw [hafter] at hagreed
  have hiv : checkIv session.protocol none = .ok () := by
    rw [hv1]
    rfl
  have hstripped : stripped pin1234 = pin1234 := stripped_eq (by decide)
  obtain ⟨hset, hmissed, hmet⟩ := example_steps
  -- the session outlives the PIN, since the authenticator keeps its key
  have hsession (retries permissions : ℕ) :
      Agreed exampleCrypto session (afterPin retries permissions) := ⟨hs.secret⟩
  have hsound (retries permissions : ℕ) : (afterPin retries permissions).Sound exampleCrypto :=
    ⟨exampleAuthenticator_sound.secret, exampleAuthenticator_sound.blocks,
      exampleAuthenticator_sound.token⟩
  obtain ⟨opSet, hopSet⟩ := setPin_accepted hs validatePin_example.1 hiv
  obtain ⟨hendsSet, hafterSet⟩ := setPin_execute hs hopSet ample_default
  rw [hstripped] at hendsSet hafterSet
  rw [hset] at hendsSet hafterSet
  have hstored := Happens.setPin hs hopSet ample_default hendsSet
  rw [hafterSet] at hstored
  obtain ⟨opMiss, hopMiss⟩ := getPinToken_accepted (hsession 8 0) validatePin_example.2 hiv
  obtain ⟨hendsMiss, hafterMiss⟩ :=
    getPinToken_execute (hsound 8 0) (hsession 8 0) hopMiss ample_default
  rw [hmissed] at hendsMiss hafterMiss
  have hrefused := Happens.getPinToken (hsession 8 0) hopMiss ample_default hendsMiss
  rw [hafterMiss] at hrefused
  obtain ⟨opMeet, hopMeet⟩ := getPinToken_accepted (hsession 7 0) validatePin_example.1 hiv
  obtain ⟨hendsMeet, hafterMeet⟩ :=
    getPinToken_execute (hsound 7 0) (hsession 7 0) hopMeet ample_default
  rw [hmet] at hendsMeet hafterMeet
  have hgranted := Happens.getPinToken (hsession 7 0) hopMeet ample_default hendsMeet
  rw [hafterMeet] at hgranted
  have hhistory := History.snoc (.snoc (.snoc (.snoc (.nil _) hagreed) hstored) hrefused) hgranted
  refine ⟨session, hhistory, ?_⟩
  have htold := (pin_history exampleAuthenticator_sound (le_refl _) hhistory).2
  exact (htold [_, _, _] _ [] rfl).token _ _ rfl

end CtapPinHistory
