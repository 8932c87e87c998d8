import LibCanokey.CtapConfig
import LibCanokey.CtapCredentialManagement
import LibCanokey.CtapLargeBlob
import LibCanokey.ProtocolTranscript

/-! # What the authentication parameter covers

Every message that an operation of credential management, configuration or the large-blob
write exposes, beside the bytes its authentication parameter was computed over. -/
namespace CtapMacCoverage

open BigEndian ListTraversal ProtocolError ProtocolConversation ProtocolOperation
open ProtocolTranscript CtapCbor CtapMessage CtapFields CtapSubcommand CtapLargeBlob

/-- A subcommand with the key-2 map and the token it is sent with. -/
structure SubcommandRequest where
  command : UInt8
  header : Bytes
  subcommand : UInt8
  params : Option Value
  protocol : PinUvAuthProtocol
  token : Option PinToken

/-- The authenticated input of credential management begins with the subcommand. -/
def credentialManagement (subcommand : UInt8) (params : Option Value)
    (protocol : PinUvAuthProtocol) (token : Option PinToken) : SubcommandRequest :=
  ⟨0x0a, [], subcommand, params, protocol, token⟩

/-- The authenticated input of configuration begins with `FF` 32 times and `0D`. -/
def authenticatorConfig (subcommand : UInt8) (params : Option Value)
    (protocol : PinUvAuthProtocol) (token : PinToken) : SubcommandRequest :=
  ⟨0x0d, List.replicate 32 0xff ++ [0x0d], subcommand, params, protocol, some token⟩

def SubcommandRequest.Covered (hashes : Hashes) (r : SubcommandRequest) (message : Bytes) : Prop :=
  Covers hashes r.command r.header r.subcommand r.params r.protocol r.token message

/-- Whatever it is answered, the operation exposes SELECT and these messages only. -/
def Sends {σ T : Type} (M : Machine σ T) (op : Operation σ T) (messages : Bytes → Prop) : Prop :=
  ∀ calls, ∀ c ∈ (recorded M op calls).commands,
    c = select ∨ ∃ message, c = msg message ∧ messages message

/-- `0C {2: fragment, 3: offset, 4?: length, 5: auth, 6: protocol}`, the parameter computed over
the offset as four little-endian bytes and the hash of the fragment. -/
structure FragmentCovers (hashes : Hashes) (token : PinToken) (protocol : PinUvAuthProtocol)
    (message : Bytes) : Prop where
  layout : ∃ (fragment : Bytes) (offset : ℕ) (total : Option ℕ) (le : Bytes),
    offset < 2 ^ 32 ∧ le.length = 4 ∧ ofBeBytes le.reverse = offset ∧
      message = [0x0c] ++ head [] 5 (UInt64.ofNat (4 + total.toList.length)) ++
        2 :: byteString fragment ++ 3 :: head [] 0 (UInt64.ofNat offset) ++
        keyed 4 (total.map fun total => head [] 0 (UInt64.ofNat total)) ++
        5 :: byteString (token.authenticate hashes protocol
          (List.replicate 32 0xff ++ [0x0c, 0x00] ++ le ++ (hashes.sha256 fragment).1)) ++
        [6, protocol.toU8]

theorem sends_of_invariant {σ T : Type} {M : Machine σ T} {m₀ : σ} {op : Operation σ T}
    {options : OperationOptions} {messages : Bytes → Prop} (I : σ → Prop)
    (hstep : ∀ s input c s', I s → M.next s input = (.ok (.command c), s') →
      (c = select ∨ ∃ message, c = msg message ∧ messages message) ∧ I s')
    (h₀ : I m₀) (h : Operation.fromMachine m₀ options = .ok op) : Sends M op messages :=
  fun calls => recorded_commands_mem hstep h₀ h calls

section sequences

variable {T : Type} {messages : Bytes → Prop}

/-- Every pending request is SELECT or a message of the given kind. -/
def Pending (messages : Bytes → Prop) (s : Sequence T) : Prop :=
  ∀ r ∈ s.pending, r.command = select ∨ ∃ message, r.command = msg message ∧ messages message

theorem pop_pending {s s' : Sequence T} {c : LogicalCommand} (hs : Pending messages s)
    (h : s.pop = (.ok (.command c), s')) :
    (c = select ∨ ∃ message, c = msg message ∧ messages message) ∧ Pending messages s' := by
  simp only [Sequence.pop] at h
  cases hp : s.pending with
  | nil =>
    rw [hp] at h
    cases h
  | cons r rest =>
    rw [hp] at h
    cases h
    rw [Pending, hp] at hs
    obtain ⟨hr, hrest⟩ := List.forall_mem_cons.mp hs
    exact ⟨hr, hrest⟩

theorem sequence_pending {s s' : Sequence T} {input : Option ResponseData} {c : LogicalCommand}
    (hs : Pending messages s) (h : (sequence T).next s input = (.ok (.command c), s')) :
    (c = select ∨ ∃ message, c = msg message ∧ messages message) ∧ Pending messages s' := by
  cases input with
  | none => exact pop_pending hs h
  | some r =>
    simp only [CtapMessage.sequence, Sequence.next] at h
    by_cases hnil : s.pending = []
    · rw [if_pos hnil] at h
      simp only [Sequence.finish] at h
      split at h
      · cases h
      · obtain ⟨hr, _⟩ := Prod.mk.inj h
        obtain ⟨_, _, hact⟩ := map_eq_ok.mp hr
        cases hact
    · rw [if_neg hnil] at h
      split at h
      · cases h
      · split_ifs at h
        · exact pop_pending hs h
        · cases h

/-- `select_then` exposes its one message. -/
theorem selectThen_sends {message : Bytes} {options : OperationOptions}
    {parse : CtapResponse → Except Error T} {op : Operation (Sequence T) T}
    (h : selectThen message options parse = .ok op) (hm : messages message) :
    Sends (sequence T) op messages := by
  obtain ⟨_, _, h⟩ := bind_eq_ok.mp h
  obtain ⟨_, _, h⟩ := bind_eq_ok.mp h
  obtain ⟨_, _, h⟩ := bind_eq_ok.mp h
  obtain ⟨_, _, h⟩ := bind_eq_ok.mp h
  refine sends_of_invariant (Pending messages) (fun _ _ _ _ => sequence_pending) ?_ h
  intro r hr
  rcases List.mem_cons.mp hr with rfl | hr
  · exact Or.inl rfl
  · rw [List.mem_singleton.mp hr]
    exact Or.inr ⟨message, rfl, hm⟩

end sequences

section enumerations

open CtapCredentialManagement

variable {T : Type} {messages : Bytes → Prop}

/-- Both messages of an enumeration are of the given kind. -/
def Enumerates (messages : Bytes → Prop) (s : Enumerate T) : Prop :=
  messages s.beginMessage ∧ messages s.getNextMessage

theorem enumeration_sends {s s' : Enumerate T} {input : Option ResponseData} {c : LogicalCommand}
    (hs : Enumerates messages s) (h : (enumeration T).next s input = (.ok (.command c), s')) :
    (c = select ∨ ∃ message, c = msg message ∧ messages message) ∧ Enumerates messages s' := by
  simp only [enumeration, Enumerate.next] at h
  split at h
  · simp only [Enumerate.selectNext] at h
    split at h
    · cases h
      exact ⟨Or.inl rfl, hs⟩
    · split at h
      · cases h
      · cases h
        exact ⟨Or.inr ⟨_, rfl, hs.1⟩, hs⟩
  · cases h
  · simp only [Enumerate.beginNext] at h
    split at h
    · cases h
    · cases h
    · split_ifs at h
      · cases h
      · cases h
      · cases h
        exact ⟨Or.inr ⟨_, rfl, hs.2⟩, hs⟩
  · simp only [Enumerate.entryNext] at h
    split at h
    · cases h
    · split_ifs at h
      · cases h
      · cases h
        exact ⟨Or.inr ⟨_, rfl, hs.2⟩, hs⟩

theorem enumerate_sends {beginMessage getNextMessage : Bytes} {totalKey : ℤ}
    {parseEntry : Value → Except Error T} {options : OperationOptions}
    {op : Operation (Enumerate T) (List T)}
    (h : enumerate beginMessage getNextMessage totalKey parseEntry options = .ok op)
    (hb : messages beginMessage) (hn : messages getNextMessage) :
    Sends (enumeration T) op messages := by
  obtain ⟨_, _, h⟩ := bind_eq_ok.mp h
  obtain ⟨_, _, h⟩ := bind_eq_ok.mp h
  obtain ⟨_, _, h⟩ := bind_eq_ok.mp h
  obtain ⟨_, _, h⟩ := bind_eq_ok.mp h
  obtain ⟨_, _, h⟩ := bind_eq_ok.mp h
  obtain ⟨_, _, h⟩ := bind_eq_ok.mp h
  refine sends_of_invariant (Enumerates messages) (fun _ _ _ _ => enumeration_sends) ?_ h
  exact ⟨hb, hn⟩

end enumerations

section fragments

variable {hashes : Hashes} {messages : Bytes → Prop}

theorem writing_sends {s s' : WriteArray} {input : Option ResponseData} {c : LogicalCommand}
    (hs : ∀ m ∈ s.messages, messages m) (h : writing.next s input = (.ok (.command c), s')) :
    (c = select ∨ ∃ message, c = msg message ∧ messages message) ∧
      ∀ m ∈ s'.messages, messages m := by
  have hnext {s : WriteArray} (hs : ∀ m ∈ s.messages, messages m)
      (h : s.nextFragment = (.ok (.command c), s')) :
      (c = select ∨ ∃ message, c = msg message ∧ messages message) ∧
        ∀ m ∈ s'.messages, messages m := by
    simp only [WriteArray.nextFragment] at h
    cases hm : s.messages with
    | nil =>
      rw [hm] at h
      cases h
    | cons m rest =>
      rw [hm] at h hs
      cases h
      obtain ⟨hm, hrest⟩ := List.forall_mem_cons.mp hs
      exact ⟨Or.inr ⟨m, rfl, hm⟩, hrest⟩
  simp only [writing, WriteArray.next] at h
  split at h
  · simp only [WriteArray.selectNext] at h
    split at h
    · cases h
      exact ⟨Or.inl rfl, hs⟩
    · split at h
      · cases h
      · exact hnext (s := { s with stage := .exchange }) hs h
  · cases h
  · simp only [WriteArray.exchangeNext] at h
    split at h
    · cases h
    · exact hnext hs h

theorem toLeBytes32_spec {n : ℕ} (h : n < 2 ^ 32) :
    (toLeBytes32 n).length = 4 ∧ ofBeBytes (toLeBytes32 n).reverse = n := by
  refine ⟨by simp [toLeBytes32], ?_⟩
  rw [toLeBytes32, List.reverse_reverse]
  exact ofBeBytes_toBeBytes h

theorem setMessage_covers {token : PinToken} {protocol : PinUvAuthProtocol} {fragment : Bytes}
    {offset : ℕ} {total : Option ℕ} {message : Bytes}
    (h : setMessage hashes fragment offset total (some (token, protocol)) = .ok message) :
    FragmentCovers hashes token protocol message := by
  obtain ⟨auth, hauth, h⟩ := bind_eq_ok.mp h
  obtain ⟨body, hbody, h⟩ := bind_eq_ok.mp h
  cases h
  simp only [fragmentAuth] at hauth
  split_ifs at hauth with hoffset
  cases hauth
  obtain ⟨hle, hvalue⟩ := toLeBytes32_spec hoffset
  refine ⟨fragment, offset, total, toLeBytes32 offset, hoffset, hle, hvalue, ?_⟩
  rw [encode_setFields] at hbody
  cases hbody
  have hcount : (setFields fragment offset total (some (token.authenticate hashes protocol
      (macInput hashes fragment offset), protocol))).length = 4 + total.toList.length := by
    simp [setFields]
    omega
  rw [setBody, hcount]
  simp only [authBytes, macInput, uintBytes, List.append_assoc, List.cons_append, List.nil_append]
  rfl

/-- Every prebuilt message is a fragment of the data with its offset. -/
theorem fragmentMessages_mem {options : OperationOptions} {total : ℕ}
    {token : Option (PinToken × PinUvAuthProtocol)} {chunks : List Bytes} {offset : ℕ}
    {prebuilt : List Bytes}
    (h : fragmentMessages hashes options total token chunks offset = .ok prebuilt) :
    ∀ m ∈ prebuilt, ∃ fragment offset total,
      setMessage hashes fragment offset total token = .ok m := by
  induction chunks generalizing offset prebuilt with
  | nil =>
    cases h
    simp
  | cons chunk chunks ih =>
    obtain ⟨message, hmessage, h⟩ := bind_eq_ok.mp h
    obtain ⟨rest, hrest, h⟩ := bind_eq_ok.mp h
    cases h
    obtain ⟨m, hset, hmessage⟩ := bind_eq_ok.mp hmessage
    obtain ⟨_, _, hmessage⟩ := bind_eq_ok.mp hmessage
    obtain ⟨_, _, hmessage⟩ := bind_eq_ok.mp hmessage
    cases hmessage
    exact List.forall_mem_cons.mpr ⟨⟨_, _, _, hset⟩, ih hrest⟩

theorem writeArray_sends {data : Bytes} {token : PinToken} {protocol : PinUvAuthProtocol}
    {options : OperationOptions} {op : Operation WriteArray Unit}
    (h : writeArray hashes data (some (token, protocol)) options = .ok op) :
    Sends writing op (FragmentCovers hashes token protocol) := by
  simp only [writeArray] at h
  split_ifs at h
  obtain ⟨o, _, h⟩ := bind_eq_ok.mp h
  split_ifs at h
  obtain ⟨prebuilt, hmessages, h⟩ := bind_eq_ok.mp h
  split_ifs at h
  obtain ⟨_, _, h⟩ := bind_eq_ok.mp h
  refine sends_of_invariant (fun s => ∀ m ∈ s.messages, FragmentCovers hashes token protocol m)
    (fun _ _ _ _ => writing_sends) ?_ h
  intro m hm
  obtain ⟨_, _, _, hset⟩ := fragmentMessages_mem hmessages m hm
  exact setMessage_covers hset

end fragments

/-- Every request of the crate and its authentication parameter, with the messages that each
operation sends. -/
structure MacCovered (hashes : Hashes) : Prop where
  getCredsMetadata : ∀ token protocol options op,
    CtapCredentialManagement.getCredsMetadata hashes token protocol options = .ok op →
      Sends (sequence _) op
        ((credentialManagement 0x01 none protocol (some token)).Covered hashes)
  enumerateRps : ∀ token protocol options op,
    CtapCredentialManagement.enumerateRps hashes token protocol options = .ok op →
      Sends (CtapCredentialManagement.enumeration _) op fun message =>
        (credentialManagement 0x02 none protocol (some token)).Covered hashes message ∨
          (credentialManagement 0x03 none protocol none).Covered hashes message
  enumerateCredentials : ∀ token protocol rpIdHash metadataOnly options op,
    CtapCredentialManagement.enumerateCredentials hashes token protocol rpIdHash metadataOnly
        options = .ok op →
      Sends (CtapCredentialManagement.enumeration _) op fun message =>
        (credentialManagement 0x04 (some (CtapCredentialManagement.enumerateCredentialsParams
          rpIdHash metadataOnly)) protocol (some token)).Covered hashes message ∨
          (credentialManagement 0x05 none protocol none).Covered hashes message
  deleteCredential : ∀ token protocol credentialId options op,
    CtapCredentialManagement.deleteCredential hashes token protocol credentialId options = .ok op →
      Sends (sequence _) op
        ((credentialManagement 0x06 (some (CtapCredentialManagement.deleteCredentialParams
          credentialId)) protocol (some token)).Covered hashes)
  updateUserInformation : ∀ token protocol credentialId user options op,
    CtapCredentialManagement.updateUserInformation hashes token protocol credentialId user options =
        .ok op →
      Sends (sequence _) op
        ((credentialManagement 0x07 (some (CtapCredentialManagement.updateUserInformationParams
          credentialId user)) protocol (some token)).Covered hashes)
  toggleAlwaysUv : ∀ token protocol options op,
    CtapConfig.toggleAlwaysUv hashes token protocol options = .ok op →
      Sends (sequence _) op ((authenticatorConfig 0x02 none protocol token).Covered hashes)
  setMinPinLength : ∀ token protocol length force rpIds options op,
    CtapConfig.setMinPinLength hashes token protocol length force rpIds options = .ok op →
      Sends (sequence _) op ((authenticatorConfig 0x03 (some (CtapConfig.setMinPinLengthParams
        length force rpIds)) protocol token).Covered hashes)
  enableLongTouchForReset : ∀ token protocol options op,
    CtapConfig.enableLongTouchForReset hashes token protocol options = .ok op →
      Sends (sequence _) op ((authenticatorConfig 0x04 none protocol token).Covered hashes)
  writeArray : ∀ data token protocol options op,
    CtapLargeBlob.writeArray hashes data (some (token, protocol)) options = .ok op →
      Sends writing op (FragmentCovers hashes token protocol)

theorem credentialManagement_covered {hashes : Hashes} {subcommand : UInt8}
    {params : Option Value} {protocol : PinUvAuthProtocol} {token : Option PinToken}
    {message : Bytes} (hsub : subcommand.toNat < 24)
    (h : CtapCredentialManagement.message hashes subcommand params protocol token = .ok message) :
    (credentialManagement subcommand params protocol token).Covered hashes message :=
  subcommandMessage_covers hsub h

theorem config_covered {hashes : Hashes} {subcommand : UInt8} {params : Option Value}
    {protocol : PinUvAuthProtocol} {token : PinToken} {message : Bytes}
    (hsub : subcommand.toNat < 24)
    (h : CtapConfig.message hashes subcommand params protocol token = .ok message) :
    (authenticatorConfig subcommand params protocol token).Covered hashes message :=
  subcommandMessage_covers hsub h

/-- The authentication parameter covers exactly what is sent. -/
theorem mac_covers_sent (hashes : Hashes) : MacCovered hashes where
  getCredsMetadata := by
    intro token protocol options op h
    obtain ⟨message, hm, h⟩ := bind_eq_ok.mp h
    exact selectThen_sends h (credentialManagement_covered (by decide) hm)
  enumerateRps := by
    intro token protocol options op h
    obtain ⟨beginMessage, hb, h⟩ := bind_eq_ok.mp h
    obtain ⟨getNextMessage, hn, h⟩ := bind_eq_ok.mp h
    exact enumerate_sends h (Or.inl (credentialManagement_covered (by decide) hb))
      (Or.inr (credentialManagement_covered (by decide) hn))
  enumerateCredentials := by
    intro token protocol rpIdHash metadataOnly options op h
    obtain ⟨beginMessage, hb, h⟩ := bind_eq_ok.mp h
    obtain ⟨getNextMessage, hn, h⟩ := bind_eq_ok.mp h
    exact enumerate_sends h (Or.inl (credentialManagement_covered (by decide) hb))
      (Or.inr (credentialManagement_covered (by decide) hn))
  deleteCredential := by
    intro token protocol credentialId options op h
    simp only [CtapCredentialManagement.deleteCredential] at h
    split_ifs at h
    obtain ⟨message, hm, h⟩ := bind_eq_ok.mp h
    exact selectThen_sends h (credentialManagement_covered (by decide) hm)
  updateUserInformation := by
    intro token protocol credentialId user options op h
    simp only [CtapCredentialManagement.updateUserInformation] at h
    split_ifs at h
    obtain ⟨message, hm, h⟩ := bind_eq_ok.mp h
    exact selectThen_sends h (credentialManagement_covered (by decide) hm)
  toggleAlwaysUv := by
    intro token protocol options op h
    obtain ⟨message, hm, h⟩ := bind_eq_ok.mp h
    exact selectThen_sends h (config_covered (by decide) hm)
  setMinPinLength := by
    intro token protocol length force rpIds options op h
    simp only [CtapConfig.setMinPinLength] at h
    split_ifs at h
    obtain ⟨message, hm, h⟩ := bind_eq_ok.mp h
    exact selectThen_sends h (config_covered (by decide) hm)
  enableLongTouchForReset := by
    intro token protocol options op h
    obtain ⟨message, hm, h⟩ := bind_eq_ok.mp h
    exact selectThen_sends h (config_covered (by decide) hm)
  writeArray := fun _ _ _ _ _ h => writeArray_sends h

/-- Hashes that are all zero. -/
def zeroHashes : Hashes where
  sha256 := fun _ => ⟨List.replicate 32 0, rfl⟩
  hmac := fun _ _ => ⟨List.replicate 32 0, rfl⟩

/-- The toggle of alwaysUv sends `{1: 2, 3: 1, 4: auth}` after SELECT. -/
theorem mac_covers_sent_toggle :
    ∃ op, CtapConfig.toggleAlwaysUv zeroHashes ⟨List.replicate 32 7⟩ .v1 {} = .ok op ∧
      (recorded (sequence Unit) op [.start, .advance [0x90, 0]]).commands =
        [select, msg ([0x0d, 0xa3, 1, 2, 3, 1, 4, 0x50] ++ List.replicate 16 0)] ∧
      Sends (sequence Unit) op ((authenticatorConfig 0x02 none .v1
        ⟨List.replicate 32 7⟩).Covered zeroHashes) := by
  have hop : CtapConfig.toggleAlwaysUv zeroHashes ⟨List.replicate 32 7⟩ .v1 {} = .ok _ := rfl
  exact ⟨_, hop, rfl, (mac_covers_sent zeroHashes).toggleAlwaysUv _ _ _ _ hop⟩

end CtapMacCoverage
