import LibCanokey.CtapPinHistory

/-! # The number of outputs of an hmac-secret exchange

What an exchange of one salt or two returns. The length of the output is checked, but against
either number of salts: the input does not keep how many it was prepared from. -/
namespace CtapHmacOutput

open BigEndian CheckedCursor ListTraversal ProtocolError CtapCbor CtapCose CtapMessage
open CtapAuthData CtapHmacSecret CtapClientPin CtapPinHistory

/-- `HmacSecretSalts::count`. -/
def count (salts : HmacSecretSalts) : ℕ := salts.1.length / saltLen

/-- Decryption keeps the length of whole blocks. -/
def LengthPreserving (aes : Aes256Cbc) : Prop :=
  ∀ key iv text, text.length % 16 = 0 → (aes.decrypt key iv text).length = text.length

/-- The bytes in front of the blocks. -/
def framing : PinUvAuthProtocol → ℕ
  | .v1 => 0
  | .v2 => 16

/-- At least one block, and only whole ones, behind the framing. -/
def Framed (protocol : PinUvAuthProtocol) (ciphertext : Bytes) : Prop :=
  framing protocol + 16 ≤ ciphertext.length ∧ (ciphertext.length - framing protocol) % 16 = 0

/-- The byte string under the key of the extension. -/
def answered (authData : AuthenticatorData) (key : String) : Option Bytes :=
  (authData.extensions.bind (·.mapGetText key)).bind Value.asBytes

/-- The exchange is rejected or returns one output for each of the `k` salts. -/
def OutputMatches (aes : Aes256Cbc) (input : HmacSecretInput) (authData : AuthenticatorData)
    (key : String) (k : ℕ) : Prop :=
  exchangeOutput aes authData key (some input) = .error invalid ∨
    ∃ output, exchangeOutput aes authData key (some input) = .ok (some output) ∧
      output.length = saltLen * k

section exchange

variable {aes : Aes256Cbc} {hashes : Hashes} {session : PinSession} {salts : HmacSecretSalts}
  {iv : Option (ByteArrayOf 16)} {input : HmacSecretInput} {authData : AuthenticatorData}
  {key : String} {ciphertext : Bytes}

theorem count_cases (salts : HmacSecretSalts) : count salts = 1 ∨ count salts = 2 := by
  rcases salts.2 with hone | htwo
  · left
    rw [count, hone]
    rfl
  · right
    rw [count, htwo]
    rfl

/-- Salts were encrypted under the session, so its secret holds the key. -/
theorem key_of_new (h : HmacSecretInput.new aes hashes session salts iv = .ok input) :
    input.session = session ∧
      (session.protocol = .v1 → ∃ k, slice session.sharedSecret 0 32 = some k) ∧
      (session.protocol = .v2 → ∃ k, slice session.sharedSecret 32 64 = some k) := by
  simp only [HmacSecretInput.new] at h
  obtain ⟨_, _, h⟩ := bind_eq_ok.mp h
  obtain ⟨saltEnc, henc, h⟩ := bind_eq_ok.mp h
  cases h
  have hkey {start stop : ℕ} {k : Bytes}
      (hk : keyOf session.sharedSecret start stop invalidArgument = .ok k) :
      ∃ k, slice session.sharedSecret start stop = some k := by
    rw [keyOf] at hk
    cases hs : slice session.sharedSecret start stop with
    | none =>
      rw [hs] at hk
      cases hk
    | some k => exact ⟨k, rfl⟩
  refine ⟨rfl, ?_, ?_⟩
  · intro hv
    rw [hv] at henc
    obtain ⟨k, hk, _⟩ := bind_eq_ok.mp henc
    exact hkey hk
  · intro hv
    rw [hv] at henc
    obtain ⟨k, hk, _⟩ := bind_eq_ok.mp henc
    exact hkey hk

/-- What is framed is decrypted and anything else is refused. -/
theorem decrypt_spec (h : HmacSecretInput.new aes hashes session salts iv = .ok input)
    (ciphertext : Bytes) :
    ∃ k vector,
      (Framed session.protocol ciphertext →
        decrypt aes input.session.protocol input.session.sharedSecret ciphertext =
          .ok (aes.decrypt k vector (ciphertext.drop (framing session.protocol)))) ∧
      (¬ Framed session.protocol ciphertext →
        decrypt aes input.session.protocol input.session.sharedSecret ciphertext =
          .error invalid) := by
  obtain ⟨hsession, hone, htwo⟩ := key_of_new h
  rw [hsession]
  cases hv : session.protocol with
  | v1 =>
    obtain ⟨k, hk⟩ := hone hv
    refine ⟨k, zeroIv, ?_, ?_⟩
    · rintro ⟨hlong, hwhole⟩
      simp only [framing, Nat.sub_zero] at hlong hwhole
      have hgood : ¬ (ciphertext = [] ∨ ciphertext.length % 16 ≠ 0) := by
        rintro (hnil | hodd)
        · rw [hnil] at hlong
          exact absurd hlong (by decide)
        · exact hodd hwhole
      simp only [decrypt]
      rw [if_neg hgood, keyOf, hk]
      exact if_neg (not_not.mpr hwhole)
    · intro hframed
      have hbad : ciphertext = [] ∨ ciphertext.length % 16 ≠ 0 := by
        by_contra hgood
        push Not at hgood
        have hpos := List.length_pos_iff.mpr hgood.1
        apply hframed
        refine ⟨?_, hgood.2⟩
        simp only [framing]
        omega
      simp only [decrypt]
      rw [if_pos hbad]
  | v2 =>
    obtain ⟨k, hk⟩ := htwo hv
    refine ⟨k, ciphertext.take 16, ?_, ?_⟩
    · rintro ⟨hlong, hwhole⟩
      simp only [framing] at hlong hwhole ⊢
      simp only [decrypt]
      rw [if_neg (by omega), keyOf, hk]
      refine if_neg (not_not.mpr ?_)
      rw [List.length_drop]
      exact hwhole
    · intro hframed
      simp only [Framed, framing] at hframed
      simp only [decrypt]
      rw [if_pos (by omega)]

/-- One output or two behind the framing are returned, whatever number was asked for. -/
theorem decryptOutput_accepts (haes : LengthPreserving aes)
    (h : HmacSecretInput.new aes hashes session salts iv = .ok input) {n : ℕ}
    (hn : n = 1 ∨ n = 2) (hlen : ciphertext.length = framing session.protocol + saltLen * n) :
    ∃ output, input.decryptOutput aes ciphertext = .ok output ∧ output.length = saltLen * n := by
  obtain ⟨k, vector, hdecrypt, _⟩ := decrypt_spec h ciphertext
  have hblocks : (ciphertext.drop (framing session.protocol)).length = saltLen * n := by
    rw [List.length_drop, hlen]
    omega
  have hwhole : saltLen * n % 16 = 0 := by
    rcases hn with rfl | rfl
    · rfl
    · rfl
  have hlength := haes k vector _ (hblocks.symm ▸ hwhole)
  have hframed : Framed session.protocol ciphertext := by
    simp only [saltLen] at hwhole hlen
    refine ⟨?_, ?_⟩ <;> omega
  refine ⟨_, ?_, hlength.trans hblocks⟩
  rw [HmacSecretInput.decryptOutput, hdecrypt hframed]
  refine if_neg ?_
  rw [hlength, hblocks]
  rcases hn with rfl | rfl
  · exact fun hno => hno.1 rfl
  · exact fun hno => hno.2 rfl

/-- Nothing else is. -/
theorem decryptOutput_cases (haes : LengthPreserving aes)
    (h : HmacSecretInput.new aes hashes session salts iv = .ok input) (ciphertext : Bytes) :
    input.decryptOutput aes ciphertext = .error invalid ∨
      ∃ n, (n = 1 ∨ n = 2) ∧ ciphertext.length = framing session.protocol + saltLen * n := by
  obtain ⟨k, vector, hdecrypt, hrefuse⟩ := decrypt_spec h ciphertext
  by_cases hframed : Framed session.protocol ciphertext
  · have hdrop : (ciphertext.drop (framing session.protocol)).length =
        ciphertext.length - framing session.protocol := List.length_drop
    have hlength := haes k vector (ciphertext.drop (framing session.protocol))
      (by rw [hdrop]; exact hframed.2)
    rw [hdrop] at hlength
    by_cases hone : ciphertext.length = framing session.protocol + saltLen * 1
    · exact Or.inr ⟨1, Or.inl rfl, hone⟩
    · by_cases htwo : ciphertext.length = framing session.protocol + saltLen * 2
      · exact Or.inr ⟨2, Or.inr rfl, htwo⟩
      · left
        rw [HmacSecretInput.decryptOutput, hdecrypt hframed]
        refine if_pos ?_
        have hlong := hframed.1
        rw [hlength]
        simp only [saltLen] at hone htwo ⊢
        omega
  · left
    rw [HmacSecretInput.decryptOutput, hrefuse hframed]
    rfl

/-- Without a byte string there is no output, with one it is what is decrypted from it. -/
theorem exchangeOutput_eq (input : HmacSecretInput) :
    exchangeOutput aes authData key (some input) =
      match answered authData key with
      | none => .error invalid
      | some ciphertext => (input.decryptOutput aes ciphertext).map some := by
  simp only [exchangeOutput, answered]
  cases hv : authData.extensions.bind (·.mapGetText key) with
  | none => rfl
  | some value =>
    dsimp only [Option.bind_some]
    cases hb : value.asBytes with
    | none => rfl
    | some ciphertext => rfl

/-- An exchange of some salts returns as many outputs, exactly where the authenticator did not
answer with the other number of them. -/
theorem hmac_output_matches_iff (haes : LengthPreserving aes)
    (h : HmacSecretInput.new aes hashes session salts iv = .ok input)
    (authData : AuthenticatorData) (key : String) :
    OutputMatches aes input authData key (count salts) ↔
      ∀ ciphertext, answered authData key = some ciphertext →
        ciphertext.length ≠ framing session.protocol + saltLen * (3 - count salts) := by
  have hcount := count_cases salts
  rw [OutputMatches, exchangeOutput_eq]
  cases hanswer : answered authData key with
  | none =>
    constructor
    · rintro _ ciphertext hnone
      cases hnone
    · intro _
      exact Or.inl rfl
  | some ciphertext =>
    constructor
    · rintro hmatches answer hsome hlen
      cases hsome
      obtain ⟨output, hok, hlength⟩ :=
        decryptOutput_accepts haes h (n := 3 - count salts) (by omega) hlen
      dsimp only at hmatches
      rw [hok] at hmatches
      rcases hmatches with herror | ⟨output', hok', hlength'⟩
      · cases herror
      · cases hok'
        simp only [saltLen] at hlength hlength'
        omega
    · intro hother
      dsimp only
      rcases decryptOutput_cases haes h ciphertext with herror | ⟨n, hn, hlen⟩
      · left
        rw [herror]
        rfl
      · right
        have hne := hother ciphertext rfl
        have hsame : n = count salts := by
          by_contra hdiff
          have hthree : n = 3 - count salts := by omega
          exact hne (hthree ▸ hlen)
        obtain ⟨output, hok, hlength⟩ := decryptOutput_accepts haes h hn hlen
        refine ⟨output, ?_, hsame ▸ hlength⟩
        rw [hok]
        rfl

end exchange

/-! ## Salts of the platform of scalar 1 -/

/-- CBC over the blocks of the exchange; a vector of another length leaves the text alone. -/
def exampleCbc : Aes256Cbc where
  encrypt := (cbc exampleCrypto.aes).encrypt
  decrypt key iv text :=
    if iv.length = 16 then (cbc exampleCrypto.aes).decrypt key iv text else text

theorem exampleCbc_length : LengthPreserving exampleCbc := by
  intro key iv text htext
  change (if _ then _ else _ : Bytes).length = _
  split_ifs with hiv
  · have hblocks := BlockChaining.length_decrypt xorBlocks (exampleCrypto.aes key)
    exact BlockChaining.length_chained hblocks hiv (Nat.dvd_of_mod_eq_zero htext)
  · rfl

/-- The session of the two scalars. -/
def exampleSession (protocol : PinUvAuthProtocol) : PinSession where
  protocol := protocol
  keyAgreement := platformKey smallCurve 1
  sharedSecret := if protocol = .v1 then sharedKey else hmacKey ++ aesKey
  platform := ⟨_, _, rfl⟩

/-- One salt for the first protocol and two for the second. -/
def exampleSalts (protocol : PinUvAuthProtocol) : HmacSecretSalts :=
  if protocol = .v1 then ⟨firstSalt, Or.inl rfl⟩ else ⟨firstSalt ++ secondSalt, Or.inr rfl⟩

def exampleVector (protocol : PinUvAuthProtocol) : Option (ByteArrayOf 16) :=
  if protocol = .v1 then none else some (block 0x01010101010101010101010101010101)

def exampleInput (protocol : PinUvAuthProtocol) : HmacSecretInput where
  session := exampleSession protocol
  saltEnc := if protocol = .v1 then oneSaltEnc else twoSaltEnc
  saltAuth := authenticate exampleHashes protocol (exampleSession protocol).sharedSecret
    (if protocol = .v1 then oneSaltEnc else twoSaltEnc)

theorem example_encrypted (protocol : PinUvAuthProtocol) :
    checkIv protocol (exampleVector protocol) = .ok () ∧
      encrypt (cbc exampleCrypto.aes) protocol (exampleSession protocol).sharedSecret
          (exampleVector protocol) (exampleSalts protocol).1 =
        .ok (exampleInput protocol).saltEnc := by
  cases protocol <;> decide +kernel

theorem exampleInput_new (protocol : PinUvAuthProtocol) :
    HmacSecretInput.new exampleCbc exampleHashes (exampleSession protocol) (exampleSalts protocol)
      (exampleVector protocol) = .ok (exampleInput protocol) := by
  obtain ⟨hiv, henc⟩ := example_encrypted protocol
  refine bind_eq_ok.mpr ⟨(), hiv, ?_⟩
  exact bind_eq_ok.mpr ⟨_, henc, rfl⟩

/-- What the outputs of one salt and of both are encrypted to under the first protocol, and those
of both under the second. -/
def oneEnc : Bytes :=
  toBeBytes 32 0x281c4894da8d349fd22e75c99cc8aa7b3ed8a69055242d8707fa369cb6522a5a

def twoEnc : Bytes :=
  oneEnc ++ toBeBytes 32 0x13703205e30556035707f0c1417930567d371cd0dcf00c397ecf2ef3941d1e00

def vectorEnc : Bytes :=
  List.replicate 16 0 ++
    toBeBytes 32 0x702caa1974dea59f394213c531940e05c5a6d62ef83d10e808908e3ff35ddf93 ++
    toBeBytes 32 0x3d54242c3d56d9f55a57983aa7ad0f38be85cae7e6ed1061308744f18da12fc7

/-- Authenticator data of one extension: `hmac-secret` with a ciphertext. -/
def answerData (ciphertext : Bytes) : AuthenticatorData where
  raw := (digest 5).1 ++ [0x80, 0, 0, 0, 0, 0xa1, 0x6b] ++ utf8 "hmac-secret" ++
    [0x58, UInt8.ofNat ciphertext.length] ++ ciphertext
  rpIdHash := digest 5
  flags := 0x80
  signCount := 0
  attestedCredentialData := none
  extensions := some (.map [(.text "hmac-secret", .bytes ciphertext)])

/-- One salt answered by two outputs, by one, and two salts answered by two. -/
theorem hmac_output_matches_iff_two :
    ¬ OutputMatches exampleCbc (exampleInput .v1) (answerData twoEnc) "hmac-secret"
        (count (exampleSalts .v1)) ∧
      OutputMatches exampleCbc (exampleInput .v1) (answerData oneEnc) "hmac-secret"
        (count (exampleSalts .v1)) ∧
      OutputMatches exampleCbc (exampleInput .v2) (answerData vectorEnc) "hmac-secret"
        (count (exampleSalts .v2)) := by
  have hiff (protocol : PinUvAuthProtocol) (ciphertext : Bytes) :=
    hmac_output_matches_iff exampleCbc_length (exampleInput_new protocol) (answerData ciphertext)
      "hmac-secret"
  refine ⟨fun hmatches => ?_, (hiff _ _).mpr ?_, (hiff _ _).mpr ?_⟩
  · exact (hiff _ _).mp hmatches twoEnc rfl rfl
  · rintro _ ⟨⟩
    decide
  · rintro _ ⟨⟩
    decide

/-- One salt was sent and the outputs of two come back, and are returned. -/
theorem hmac_output_doubled :
    ∃ input authData, HmacSecretInput.new exampleCbc exampleHashes (exampleSession .v1)
        (exampleSalts .v1) none = .ok input ∧
      AuthenticatorData.parse (answerData twoEnc).raw = .ok authData ∧
      exchangeOutput exampleCbc authData "hmac-secret" (some input) =
        .ok (some ((exampleHashes.hmac credRandom firstSalt).1 ++
          (exampleHashes.hmac credRandom secondSalt).1)) ∧
      ¬ OutputMatches exampleCbc input authData "hmac-secret" (count (exampleSalts .v1)) := by
  have hparse : AuthenticatorData.parse (answerData twoEnc).raw = .ok (answerData twoEnc) := by
    decide +kernel
  have hok : exchangeOutput exampleCbc (answerData twoEnc) "hmac-secret"
      (some (exampleInput .v1)) = .ok (some ((exampleHashes.hmac credRandom firstSalt).1 ++
        (exampleHashes.hmac credRandom secondSalt).1)) := by decide +kernel
  refine ⟨_, answerData twoEnc, exampleInput_new .v1, hparse, hok, ?_⟩
  rw [OutputMatches, hok]
  rintro (herror | ⟨output, hsome, hlen⟩)
  · cases herror
  · cases hsome
    rw [List.length_append, (exampleHashes.hmac _ _).2, (exampleHashes.hmac _ _).2] at hlen
    exact absurd hlen (by decide)

end CtapHmacOutput
