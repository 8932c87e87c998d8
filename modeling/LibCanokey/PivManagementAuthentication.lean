import LibCanokey.PivManagement
import LibCanokey.ProtocolTranscript

/-! # What completes a management authentication

The two commands of an authentication and the two replies that complete it, for any block
cipher and any sequence of replies. -/
namespace PivManagementAuthentication

open BigEndian ListTraversal ProtocolError ProtocolApdu ProtocolConversation ProtocolOperation
open ProtocolTranscript ProtocolTlvFields CompatProfile PivCommand PivManagement

/-- GENERAL AUTHENTICATE of the management key with a template. -/
def authentication (a : ManagementKeyAlgorithm) (fields : List (UInt8 × Bytes)) : LogicalCommand :=
  cmd 0x87 a.wireId 0x9b (template fields) .absent

def success (data : Bytes) : ResponseData := ⟨data, ⟨0x9000⟩⟩

/-- The block sent back for the block of the first reply. -/
def response (cipher : BlockCipher) (auth : ManagementAuthentication)
    (b : Block auth.key.algorithm) : Block auth.key.algorithm :=
  match auth.mode with
  | .external => cipher auth.key.algorithm auth.key.bytes b
  | .mutualAuth _ => (cipher auth.key.algorithm auth.key.bytes).symm b

def firstCommand (auth : ManagementAuthentication) : LogicalCommand :=
  authentication auth.key.algorithm [(auth.mode.firstTag, [])]

def secondCommand (cipher : BlockCipher) (auth : ManagementAuthentication)
    (b : Block auth.key.algorithm) : LogicalCommand :=
  authentication auth.key.algorithm (auth.mode.fields (response cipher auth b).1)

def firstReply (auth : ManagementAuthentication) (b : Block auth.key.algorithm) : ResponseData :=
  success (template [(auth.mode.firstTag, b.1)])

/-- The only reply to the second command that completes the authentication. -/
def finalReply (cipher : BlockCipher) (auth : ManagementAuthentication) : ResponseData :=
  match auth.mode with
  | .external => success []
  | .mutualAuth challenge =>
    success (template [(0x82, (cipher auth.key.algorithm auth.key.bytes challenge).1)])

theorem eq_success {r : ResponseData} (h : r.status.isSuccess = true) : r = success r.data := by
  obtain ⟨data, ⟨raw⟩⟩ := r
  have hraw : raw = 0x9000 := by simpa [StatusWord.isSuccess] using h
  rw [hraw]
  rfl

theorem success_isSuccess (data : Bytes) : (success data).status.isSuccess = true := rfl

theorem authStatus_eq_ok {r : ResponseData} {u : Unit} :
    authStatus r = .ok u ↔ r.status.isSuccess = true := by
  simp only [authStatus]
  split_ifs with h <;> simp [h]

theorem crypt_block (cipher : BlockCipher) (key : ManagementKey) (b : Block key.algorithm)
    (decrypt : Bool) : key.crypt cipher b.1 decrypt =
      .ok (if decrypt then ((cipher key.algorithm key.bytes).symm b).1
        else (cipher key.algorithm key.bytes b).1) := by
  rw [ManagementKey.crypt, dif_pos b.2]

theorem firstTag_short {a : ManagementKeyAlgorithm} (mode : Mode a) : ShortTag mode.firstTag := by
  have h80 : ShortTag 0x80 := by decide
  have h81 : ShortTag 0x81 := by decide
  cases mode
  · exact h81
  · exact h80

theorem block_length {a : ManagementKeyAlgorithm} (b : Block a) : b.1.length ≤ 16 := by
  rw [b.2]
  exact blockLen_le a

theorem initial_eq (auth : ManagementAuthentication) : auth.initial = .ok (firstCommand auth) := by
  apply authCommand_template
  · intro f hf
    obtain rfl := List.mem_singleton.mp hf
    exact ⟨firstTag_short auth.mode, Nat.zero_lt_succ 127⟩
  · simp [field]

theorem fields_command {a : ManagementKeyAlgorithm} (mode : Mode a) (b : Block a) :
    authCommand a (mode.fields b.1) = .ok (authentication a (mode.fields b.1)) := by
  have hb := block_length b
  have h80 : ShortTag 0x80 := by decide
  have h81 : ShortTag 0x81 := by decide
  have h82 : ShortTag 0x82 := by decide
  apply authCommand_template
  · intro f hf
    cases mode with
    | external =>
      obtain rfl := List.mem_singleton.mp hf
      exact ⟨h82, by dsimp only; omega⟩
    | mutualAuth challenge =>
      have hc := block_length challenge
      rcases List.mem_cons.mp hf with rfl | hf
      · exact ⟨h80, by dsimp only; omega⟩
      · obtain rfl := List.mem_singleton.mp hf
        exact ⟨h81, by dsimp only; omega⟩
  · cases mode with
    | external =>
      simp only [Mode.fields, List.flatMap_cons, List.flatMap_nil, List.append_nil, length_field]
      omega
    | mutualAuth challenge =>
      have hc := block_length challenge
      simp only [Mode.fields, List.flatMap_cons, List.flatMap_nil, List.append_nil,
        List.length_append, length_field]
      omega

/-- The first stage accepts a success whose template is one block under the expected tag. -/
theorem respond_eq_ok {cipher : BlockCipher} {auth : ManagementAuthentication}
    {input : Option ResponseData} {fields : List (UInt8 × Bytes)} :
    auth.respond cipher input = .ok fields ↔ ∃ b, input = some (firstReply auth b) ∧
      fields = auth.mode.fields (response cipher auth b).1 := by
  have hblock : ∀ b : Block auth.key.algorithm,
      auth.key.crypt cipher b.1 auth.mode.isMutual = .ok (response cipher auth b).1 := by
    intro b
    rw [crypt_block]
    obtain ⟨key, mode⟩ := auth
    cases mode <;> rfl
  have hfield (data value : Bytes) := @authField_eq_ok data _ _ value (firstTag_short auth.mode)
    (blockLen_le auth.key.algorithm)
  rw [ManagementAuthentication.respond, bind_eq_ok]
  constructor
  · rintro ⟨r, hr, h⟩
    cases input with
    | none => cases hr
    | some r' =>
      cases hr
      obtain ⟨_, hs, h⟩ := bind_eq_ok.mp h
      obtain ⟨value, hv, h⟩ := bind_eq_ok.mp h
      obtain ⟨hdata, hlen⟩ := (hfield _ _).mp hv
      obtain ⟨answer, ha, h⟩ := bind_eq_ok.mp h
      cases h
      rw [hblock ⟨value, hlen⟩] at ha
      cases ha
      refine ⟨⟨value, hlen⟩, ?_, rfl⟩
      rw [eq_success (authStatus_eq_ok.mp hs), hdata]
      rfl
  · rintro ⟨b, rfl, rfl⟩
    refine ⟨_, rfl, bind_eq_ok.mpr ⟨(), authStatus_eq_ok.mpr rfl, bind_eq_ok.mpr
      ⟨b.1, (hfield _ _).mpr ⟨rfl, b.2⟩, ?_⟩⟩⟩
    rw [hblock b]
    rfl

theorem verify_eq_ok {cipher : BlockCipher} {auth : ManagementAuthentication}
    {input : Option ResponseData} {u : Unit} :
    auth.verify cipher input = .ok u ↔ input = some (finalReply cipher auth) := by
  obtain ⟨key, mode⟩ := auth
  have hfield (data value : Bytes) := @authField_eq_ok data 0x82 _ value (by decide)
    (blockLen_le key.algorithm)
  rw [ManagementAuthentication.verify, bind_eq_ok]
  constructor
  · rintro ⟨r, hr, h⟩
    cases input with
    | none => cases hr
    | some r' =>
      cases hr
      obtain ⟨_, hs, h⟩ := bind_eq_ok.mp h
      have hok := eq_success (authStatus_eq_ok.mp hs)
      rw [hok]
      cases mode with
      | external =>
        dsimp only at h
        split_ifs at h with hd
        rw [not_not.mp hd]
        rfl
      | mutualAuth challenge =>
        obtain ⟨value, hv, h⟩ := bind_eq_ok.mp h
        obtain ⟨hdata, _⟩ := (hfield _ _).mp hv
        obtain ⟨expected, he, h⟩ := bind_eq_ok.mp h
        rw [crypt_block] at he
        cases he
        by_cases heq : (cipher key.algorithm key.bytes challenge).1 = value
        · rw [hdata, ← heq]
          rfl
        · simp [heq] at h
  · rintro rfl
    cases mode with
    | external => exact ⟨_, rfl, rfl⟩
    | mutualAuth challenge =>
      refine ⟨_, rfl, bind_eq_ok.mpr ⟨(), authStatus_eq_ok.mpr rfl, bind_eq_ok.mpr
        ⟨(cipher key.algorithm key.bytes challenge).1,
          (hfield _ _).mpr ⟨rfl, (cipher key.algorithm key.bytes challenge).2⟩, ?_⟩⟩⟩
      rw [crypt_block]
      exact if_neg (not_not.mpr rfl)

section runs

variable {cipher : BlockCipher} {auth : ManagementAuthentication}

theorem next_begin (input : Option ResponseData) :
    (management cipher).next ⟨auth, 0⟩ input = (.ok (.command (firstCommand auth)), ⟨auth, 1⟩) := by
  simp only [management, ManagementMachine.next, initial_eq]
  rfl

theorem next_respond {b : Block auth.key.algorithm} :
    (management cipher).next ⟨auth, 1⟩ (some (firstReply auth b)) =
      (.ok (.command (secondCommand cipher auth b)), ⟨auth, 2⟩) := by
  simp only [management, ManagementMachine.next]
  rw [respond_eq_ok.mpr ⟨b, rfl, rfl⟩]
  dsimp only
  rw [fields_command]
  rfl

/-- A turn after the first command that does not fail. -/
theorem next_respond_ok {input : Option ResponseData} {action : Action Unit}
    {m : ManagementMachine} (h : (management cipher).next ⟨auth, 1⟩ input = (.ok action, m)) :
    ∃ b, input = some (firstReply auth b) ∧ action = .command (secondCommand cipher auth b) ∧
      m = ⟨auth, 2⟩ := by
  cases hr : auth.respond cipher input with
  | error e =>
    simp only [management, ManagementMachine.next, hr] at h
    cases h
  | ok fields =>
    obtain ⟨b, rfl, _⟩ := respond_eq_ok.mp hr
    rw [next_respond] at h
    cases h
    exact ⟨b, rfl, rfl, rfl⟩

theorem next_verify :
    (management cipher).next ⟨auth, 2⟩ (some (finalReply cipher auth)) =
      (.ok (.done ()), ⟨auth, 3⟩) := by
  simp only [management, ManagementMachine.next]
  rw [(verify_eq_ok (u := ())).mpr rfl]

theorem next_verify_ok {input : Option ResponseData} {action : Action Unit}
    {m : ManagementMachine} (h : (management cipher).next ⟨auth, 2⟩ input = (.ok action, m)) :
    input = some (finalReply cipher auth) ∧ action = .done () ∧ m = ⟨auth, 3⟩ := by
  cases hr : auth.verify cipher input with
  | error e =>
    simp only [management, ManagementMachine.next, hr] at h
    cases h
  | ok u =>
    obtain rfl := verify_eq_ok.mp hr
    rw [next_verify] at h
    cases h
    exact ⟨rfl, rfl, rfl⟩

/-- An authentication under way has sent one command, or two around an accepted reply. -/
theorem management_trace {cs : List LogicalCommand} {rs : List ResponseData}
    {m : ManagementMachine} (h : Trace (management cipher) (.new auth) cs rs m) :
    (cs = [firstCommand auth] ∧ rs = [] ∧ m = ⟨auth, 1⟩) ∨
      ∃ b, cs = [firstCommand auth, secondCommand cipher auth b] ∧ rs = [firstReply auth b] ∧
        m = ⟨auth, 2⟩ := by
  induction h with
  | opened h =>
    rw [ManagementMachine.new, next_begin] at h
    cases h
    exact Or.inl ⟨rfl, rfl, rfl⟩
  | answered _ h ih =>
    rcases ih with ⟨rfl, rfl, rfl⟩ | ⟨b, rfl, rfl, rfl⟩
    · obtain ⟨b, hr, hc, rfl⟩ := next_respond_ok h
      cases hr
      cases hc
      exact Or.inr ⟨b, rfl, rfl, rfl⟩
    · obtain ⟨_, hc, _⟩ := next_verify_ok h
      cases hc

theorem respond_trace (cipher : BlockCipher) (b : Block auth.key.algorithm) :
    Trace (management cipher) (.new auth) [firstCommand auth, secondCommand cipher auth b]
      [firstReply auth b] ⟨auth, 2⟩ :=
  .answered (.opened (next_begin none)) next_respond

/-- The exchanges that complete an authentication, one for each block of the card. -/
theorem completes_iff {cs : List LogicalCommand} {rs : List ResponseData}
    {m : ManagementMachine} {u : Unit} :
    LastTurn (management cipher) (.new auth) (.ok (.done u)) cs rs m ↔
      ∃ b, cs = [firstCommand auth, secondCommand cipher auth b] ∧
        rs = [firstReply auth b, finalReply cipher auth] ∧ m = ⟨auth, 3⟩ := by
  constructor
  · intro h
    cases h with
    | opening h =>
      rw [ManagementMachine.new, next_begin] at h
      cases h
    | answering ht h =>
      rcases management_trace ht with ⟨rfl, rfl, rfl⟩ | ⟨b, rfl, rfl, rfl⟩
      · obtain ⟨_, _, hc, _⟩ := next_respond_ok h
        cases hc
      · obtain ⟨hr, _, rfl⟩ := next_verify_ok h
        cases hr
        exact ⟨b, rfl, rfl, rfl⟩
  · rintro ⟨b, rfl, rfl, rfl⟩
    change LastTurn _ _ _ _ ([firstReply auth b] ++ [finalReply cipher auth]) _
    exact .answering (respond_trace cipher b) next_verify

end runs

theorem statusKind_not_limit (sw : StatusWord) (phase : Phase)
    (reference : Option SecretReference) : statusKind sw phase reference ≠ .limitExceeded := by
  simp only [statusKind]
  split_ifs <;> exact ErrorKind.noConfusion

theorem authStatus_not_limit {r : ResponseData} {e : Error} (h : authStatus r = .error e) :
    e.kind ≠ .limitExceeded := by
  simp only [authStatus] at h
  split_ifs at h
  · cases h
    exact ErrorKind.noConfusion
  · cases h
    exact statusKind_not_limit _ _ _

section limits

variable {cipher : BlockCipher} {auth : ManagementAuthentication} {r : ResponseData} {e : Error}

/-- Reading a reply that carries one block, whatever its tag, meets no limit. -/
def MeetsNoLimit (auth : ManagementAuthentication) (r : ResponseData) : Prop :=
  ∀ tag' e, authField r.data tag' auth.key.algorithm.blockLen = .error e →
    e.kind ≠ .limitExceeded

theorem template_meetsNoLimit {tag : UInt8} (htag : ShortTag tag) (b : Block auth.key.algorithm)
    (hr : r.data = template [(tag, b.1)]) : MeetsNoLimit auth r := by
  intro tag' e he
  rw [hr, authField_template htag (block_length b)] at he
  split_ifs at he
  cases he
  exact ErrorKind.noConfusion

theorem crypt_not_limit {key : ManagementKey} {input : Bytes} {decrypt : Bool}
    (h : key.crypt cipher input decrypt = .error e) : e.kind ≠ .limitExceeded := by
  simp only [ManagementKey.crypt] at h
  split_ifs at h
  cases h
  exact ErrorKind.noConfusion

theorem respond_not_limit (hr : MeetsNoLimit auth r)
    (h : auth.respond cipher (some r) = .error e) : e.kind ≠ .limitExceeded := by
  rcases bind_eq_error.mp h with h | ⟨_, ha, h⟩
  · cases h
  cases ha
  rcases bind_eq_error.mp h with h | ⟨_, _, h⟩
  · exact authStatus_not_limit h
  rcases bind_eq_error.mp h with h | ⟨_, _, h⟩
  · exact hr _ e h
  rcases bind_eq_error.mp h with h | ⟨_, _, h⟩
  · exact crypt_not_limit h
  · cases h

theorem verify_not_limit (hr : MeetsNoLimit auth r)
    (h : auth.verify cipher (some r) = .error e) : e.kind ≠ .limitExceeded := by
  obtain ⟨key, mode⟩ := auth
  rcases bind_eq_error.mp h with h | ⟨_, ha, h⟩
  · cases h
  cases ha
  rcases bind_eq_error.mp h with h | ⟨_, _, h⟩
  · exact authStatus_not_limit h
  cases mode with
  | external =>
    dsimp only at h
    split_ifs at h
    cases h
    exact ErrorKind.noConfusion
  | mutualAuth challenge =>
    rcases bind_eq_error.mp h with h | ⟨_, _, h⟩
    · exact hr _ e h
    rcases bind_eq_error.mp h with h | ⟨_, _, h⟩
    · exact crypt_not_limit h
    split_ifs at h
    cases h
    exact ErrorKind.noConfusion

/-- A turn of a running authentication meets a limit only in the reply it reads. -/
theorem management_not_limit {cs : List LogicalCommand} {rs : List ResponseData}
    {m m' : ManagementMachine} (ht : Trace (management cipher) (.new auth) cs rs m)
    (hr : MeetsNoLimit auth r) (h : (management cipher).next m (some r) = (.error e, m')) :
    e.kind ≠ .limitExceeded := by
  rcases management_trace ht with ⟨_, _, rfl⟩ | ⟨b', _, _, rfl⟩
  · simp only [management, ManagementMachine.next] at h
    split at h
    · next he =>
      cases h
      exact respond_not_limit hr he
    · next fields hf =>
      obtain ⟨b', _, rfl⟩ := respond_eq_ok.mp hf
      rw [fields_command] at h
      cases h
  · simp only [management, ManagementMachine.next] at h
    split at h
    · next he =>
      cases h
      exact verify_not_limit hr he
    · cases h

end limits

/-- A card that holds the key, in the middle of an authentication with a block of its own. -/
inductive KeyHolder (key : ManagementKey) where
  | idle (own : Block key.algorithm)
  | witnessed (own : Block key.algorithm)
  | challenged (own : Block key.algorithm)

def refused (sw : UInt16) : ResponseData := ⟨[], ⟨sw⟩⟩

/-- The two blocks of the answer to a witness: the witness decrypted and a challenge. -/
def answerBlocks {a : ManagementKeyAlgorithm} (data : Bytes) : Option (Block a × Block a) :=
  let witness := (data.drop 4).take a.blockLen
  let challenge := data.drop (6 + a.blockLen)
  if h : witness.length = a.blockLen ∧ challenge.length = a.blockLen then
    if data = template [(0x80, witness), (0x81, challenge)] then
      some (⟨witness, h.1⟩, ⟨challenge, h.2⟩)
    else none
  else none

/-- The card follows the protocol: it offers an encrypted witness or a plain challenge and
checks what comes back. -/
def keyHolder (cipher : BlockCipher) (key : ManagementKey) :
    KeyHolder key → LogicalCommand → ResponseData × KeyHolder key
  | .idle own, c =>
    if c.data = template [(0x80, [])] then
      (success (template [(0x80, (cipher key.algorithm key.bytes own).1)]), .witnessed own)
    else if c.data = template [(0x81, [])] then
      (success (template [(0x81, own.1)]), .challenged own)
    else (refused 0x6a80, .idle own)
  | .witnessed own, c =>
    match answerBlocks c.data with
    | some (witness, challenge) =>
      if witness = own then
        (success (template [(0x82, (cipher key.algorithm key.bytes challenge).1)]), .idle own)
      else (refused 0x6982, .idle own)
    | none => (refused 0x6a80, .idle own)
  | .challenged own, c =>
    if c.data = template [(0x82, (cipher key.algorithm key.bytes own).1)] then
      (success [], .idle own)
    else (refused 0x6982, .idle own)

theorem answerBlocks_template {a : ManagementKeyAlgorithm} (w c : Block a) :
    answerBlocks (template [(0x80, w.1), (0x81, c.1)]) = some (w, c) := by
  obtain ⟨w, hw⟩ := w
  obtain ⟨c, hc⟩ := c
  have hwitness : ((template [(0x80, w), (0x81, c)]).drop 4).take a.blockLen = w := by
    simp [template, field, ← hw]
  have hchallenge : (template [(0x80, w), (0x81, c)]).drop (6 + a.blockLen) = c := by
    simp [template, field, ← hw, show 6 + w.length = w.length + 2 + 4 by omega]
  simp only [answerBlocks, hwitness, hchallenge]
  rw [dif_pos ⟨hw, hc⟩, if_pos trivial]

/-- A card holding the key completes the authentication, whatever block it chose. -/
theorem keyHolder_completes (cipher : BlockCipher) (auth : ManagementAuthentication)
    (own : Block auth.key.algorithm) :
    dialogue (management cipher) (keyHolder cipher auth.key) 3 (.new auth) (.idle own) none =
      some (.ok ()) := by
  obtain ⟨key, mode⟩ := auth
  have hfirst : (keyHolder cipher key (.idle own) (firstCommand ⟨key, mode⟩)).1 =
      firstReply ⟨key, mode⟩ (match mode with
        | .external => own
        | .mutualAuth _ => cipher key.algorithm key.bytes own) := by
    cases mode <;> rfl
  have hsecond : ∀ b, (mode.isMutual = true → b = cipher key.algorithm key.bytes own) →
      (mode.isMutual = false → b = own) →
      (keyHolder cipher key (keyHolder cipher key (.idle own) (firstCommand ⟨key, mode⟩)).2
        (secondCommand cipher ⟨key, mode⟩ b)).1 = finalReply cipher ⟨key, mode⟩ := by
    intro b hm he
    cases mode with
    | external =>
      obtain rfl := he rfl
      exact congrArg Prod.fst (if_pos rfl)
    | mutualAuth challenge =>
      obtain rfl := hm rfl
      have hown : response cipher ⟨key, .mutualAuth challenge⟩
          (cipher key.algorithm key.bytes own) = own := Equiv.symm_apply_apply _ _
      have hblocks := answerBlocks_template own challenge
      simp only [secondCommand, hown, authentication, cmd, Mode.fields, keyHolder, firstCommand,
        Mode.firstTag, if_true, hblocks]
      rfl
  simp only [dialogue, ManagementMachine.new, next_begin, hfirst, next_respond]
  rw [hsecond]
  · simp only [next_verify]
  · intro h
    cases mode
    · cases h
    · rfl
  · intro h
    cases mode
    · rfl
    · cases h

/-- What an authentication decides about the card, over the cipher `cipher`. -/
structure Decides (cipher : BlockCipher) : Prop where
  mutualAuth : ∀ (key : ManagementKey) (challenge : Block key.algorithm) cs rs m u,
    LastTurn (management cipher) (.new ⟨key, .mutualAuth challenge⟩) (.ok (.done u)) cs rs m →
      ∃ witness : Block key.algorithm,
        cs = [authentication key.algorithm [(0x80, [])],
          authentication key.algorithm
            [(0x80, ((cipher key.algorithm key.bytes).symm witness).1), (0x81, challenge.1)]] ∧
        rs = [success (template [(0x80, witness.1)]),
          success (template [(0x82, (cipher key.algorithm key.bytes challenge).1)])]
  external : ∀ (key : ManagementKey) cs rs m u,
    LastTurn (management cipher) (.new (.external key)) (.ok (.done u)) cs rs m →
      ∃ challenge : Block key.algorithm,
        cs = [authentication key.algorithm [(0x81, [])],
          authentication key.algorithm [(0x82, (cipher key.algorithm key.bytes challenge).1)]] ∧
        rs = [success (template [(0x81, challenge.1)]), success []]
  holder : ∀ (auth : ManagementAuthentication) (own : Block auth.key.algorithm),
    dialogue (management cipher) (keyHolder cipher auth.key) 3 (.new auth) (.idle own) none =
      some (.ok ())
  writers : ∀ (auth : ManagementAuthentication) (b : Block auth.key.algorithm),
    auth.initial = .ok (firstCommand auth) ∧
      authCommand auth.key.algorithm (auth.mode.fields b.1) =
        .ok (authentication auth.key.algorithm (auth.mode.fields b.1))
  reader : ∀ (auth : ManagementAuthentication) (b : Block auth.key.algorithm) cs rs m m' tag
    (r : ResponseData) e, Trace (management cipher) (.new auth) cs rs m → ShortTag tag →
      r.data = template [(tag, b.1)] →
      (management cipher).next m (some r) = (.error e, m') → e.kind ≠ .limitExceeded

/-- Management authentication decides correctly against any card. -/
theorem management_authentication_decides (cipher : BlockCipher) : Decides cipher where
  mutualAuth := by
    intro key challenge cs rs m u h
    obtain ⟨witness, hcs, hrs, _⟩ := completes_iff.mp h
    exact ⟨witness, hcs, hrs⟩
  external := by
    intro key cs rs m u h
    obtain ⟨challenge, hcs, hrs, _⟩ := completes_iff.mp h
    exact ⟨challenge, hcs, hrs⟩
  holder := keyHolder_completes cipher
  writers := fun auth b => ⟨initial_eq auth, fields_command auth.mode b⟩
  reader := by
    intro auth b cs rs m m' tag r e ht htag hr h
    exact management_not_limit ht (template_meetsNoLimit htag b hr) h

def exampleKey : ManagementKey :=
  ⟨.aes192, (List.range 24).map UInt8.ofNat, by decide⟩

def exampleChallenge : Block .aes192 :=
  ⟨[0x00, 0x11, 0x22, 0x33, 0x44, 0x55, 0x66, 0x77, 0x88, 0x99, 0xaa, 0xbb, 0xcc, 0xdd, 0xee,
    0xff], by decide⟩

def exampleCryptogram : Block .aes192 :=
  ⟨[0xdd, 0xa9, 0x7c, 0xa4, 0x86, 0x4c, 0xdf, 0xe0, 0x6e, 0xaf, 0x70, 0xa0, 0xec, 0x0d, 0x71,
    0x91], by decide⟩

/-- Agrees with AES-192 under the example key on the example challenge. -/
def exampleCipher : BlockCipher
  | .aes192, _ => Equiv.swap exampleChallenge exampleCryptogram
  | .tdes, _ => Equiv.refl _

def exampleAuthentication : ManagementAuthentication :=
  ⟨exampleKey, .mutualAuth exampleChallenge⟩

theorem management_authentication_decides_aes :
    ∃ cs rs m, LastTurn (management exampleCipher) (.new exampleAuthentication) (.ok (.done ()))
        cs rs m ∧
      cs = [authentication .aes192 [(0x80, [])],
        authentication .aes192 [(0x80, exampleChallenge.1), (0x81, exampleChallenge.1)]] ∧
      ∃ witness : Block .aes192, rs = [success (template [(0x80, witness.1)]),
        success (template [(0x82, exampleCryptogram.1)])] := by
  have hdone : LastTurn (management exampleCipher) (.new exampleAuthentication)
      (.ok (.done ())) _ _ _ :=
    completes_iff.mpr ⟨exampleCryptogram, rfl, rfl, rfl⟩
  obtain ⟨witness, _, hrs⟩ :=
    (management_authentication_decides exampleCipher).mutualAuth _ _ _ _ _ _ hdone
  refine ⟨_, _, _, hdone, by decide, witness, hrs.trans ?_⟩
  have hsend : (exampleCipher .aes192 exampleKey.bytes exampleChallenge).1 =
      exampleCryptogram.1 := by decide
  exact congrArg (fun b => [success (template [(0x80, witness.1)]),
    success (template [(0x82, b)])]) hsend

end PivManagementAuthentication
