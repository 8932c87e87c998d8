import LibCanokey.CtapCredentialReports
import LibCanokey.CtapRequestCanonical

/-! # An hmac-secret exchange with an authenticator

The salts of a platform are opened by an authenticator that agreed on a key with it, and what the
platform decrypts from the answer is the pseudorandom function of each salt. -/
namespace CtapHmacExchange

open BigEndian CheckedCursor ListTraversal ProtocolError ProtocolConversation ProtocolOperation
open ProtocolSession CtapCbor CtapCose CtapCborLanguage CtapCborEncoder CtapCborWritten CtapFields
open CtapMessage CtapCredentialManagement CtapCredential CtapAuthData CtapCoseReading
open CtapLargeBlobFirmware CtapEnvelope CtapHmacSecret CtapMembers CtapCredentialReports
open CtapRequestCanonical CtapClientPin CtapPinMessage CtapPinAuthenticator CtapPinHistory

/-! ## The authenticator -/

/-- The outputs of one salt or two. -/
def outputs (prf : Bytes → ByteArrayOf 32) (salts : Bytes) : Bytes :=
  if salts.length = saltLen then (prf salts).1
  else (prf (salts.take saltLen)).1 ++ (prf (salts.drop saltLen)).1

/-- The authenticator's side of an exchange, whose entry it was sent. -/
def evaluate (crypto : Primitives) (d : Authenticator) (prf : Bytes → ByteArrayOf 32)
    (entry : Value) : Except UInt8 Bytes := do
  let protocol ← need ((uintAt entry 4).bind protocolOf)
  let key ← need (entry.mapGetInt 1)
  let shared ← d.shared crypto protocol key
  let saltEnc ← need (bytesAt entry 2)
  verified crypto protocol shared saltEnc (bytesAt entry 3)
  let salts ← unlocked crypto protocol shared saltEnc
  if salts.length ≠ saltLen ∧ salts.length ≠ 2 * saltLen then .error 0x03
  else
    (encrypt (cbc crypto.aes) protocol shared (if protocol = .v1 then none else some d.vector)
      (outputs prf salts)).mapError fun _ => 0x7f

/-- The entry of an extension in a request that keeps them under a label. -/
def entryAt (request : Value) (label : ℤ) (name : String) : Option Value :=
  (request.mapGetInt label).bind (·.mapGetText name)

/-- The extension holds what the authenticator made of the entry in the request. -/
def Evaluated (crypto : Primitives) (d : Authenticator) (prf : Bytes → ByteArrayOf 32)
    (body : Bytes) (label : ℤ) (name : String) (data : AuthenticatorData) : Prop :=
  ∀ request entry ciphertext, decoded body = .ok request → entryAt request label name = some entry →
    evaluate crypto d prf entry = .ok ciphertext →
      Announced (extensionEntries data) (.text name) SpellsBytes (some ciphertext)

section exchange

variable {crypto : Primitives} {session : PinSession} {d : Authenticator} {salts : HmacSecretSalts}
  {iv : Option (ByteArrayOf 16)} {input : HmacSecretInput} {prf : Bytes → ByteArrayOf 32}

theorem length_outputs (prf : Bytes → ByteArrayOf 32) (salts : HmacSecretSalts) :
    (outputs prf salts.1).length = salts.1.length := by
  rw [outputs]
  rcases salts.2 with hone | htwo
  · rw [if_pos hone, hone]
    exact (prf salts.1).2
  · have hne : salts.1.length ≠ saltLen := by
      rw [htwo]
      decide
    rw [if_neg hne, List.length_append, (prf _).2, (prf _).2, htwo]
    rfl

theorem salts_whole (salts : HmacSecretSalts) :
    salts.1.length % 16 = 0 ∧ salts.1 ≠ [] ∧ salts.1.length ≤ 64 := by
  have hlen := salts.2
  simp only [saltLen] at hlen
  refine ⟨by omega, ?_, by omega⟩
  intro hnil
  rw [hnil, List.length_nil] at hlen
  omega

/-- What an input holds that was made of salts. -/
structure Prepared (crypto : Primitives) (session : PinSession) (iv : Option (ByteArrayOf 16))
    (salts : Bytes) (input : HmacSecretInput) : Prop where
  same : input.session = session
  encrypted : encrypt (cbc crypto.aes) session.protocol session.sharedSecret iv salts =
    .ok input.saltEnc
  tagged : input.saltAuth =
    authenticate crypto.hashes session.protocol session.sharedSecret input.saltEnc

theorem prepared
    (h : HmacSecretInput.new (cbc crypto.aes) crypto.hashes session salts iv = .ok input) :
    Prepared crypto session iv salts.1 input := by
  obtain ⟨_, _, h⟩ := bind_eq_ok.mp h
  obtain ⟨saltEnc, hsaltEnc, h⟩ := bind_eq_ok.mp h
  cases h
  exact ⟨rfl, hsaltEnc, rfl⟩

/-- The authenticator opens the salts and the platform its outputs, through one shared secret. -/
theorem evaluate_prepared (hs : Agreed crypto session d)
    (h : Prepared crypto session iv salts.1 input) :
    ∃ ciphertext, evaluate crypto d prf input.toValue = .ok ciphertext ∧
      input.decryptOutput (cbc crypto.aes) ciphertext = .ok (outputs prf salts.1) := by
  obtain ⟨hblocks, hne, _⟩ := salts_whole salts
  have hlength := length_outputs prf salts
  have hiv : checkIv session.protocol
      (if session.protocol = .v1 then none else some d.vector) = .ok () := by
    cases session.protocol <;> rfl
  obtain ⟨ciphertext, hciphertext⟩ := @encrypt_ok crypto.aes session.protocol session.sharedSecret
    (outputs prf salts.1) _ hs.length hiv (by rw [hlength, hblocks])
  have hout : outputs prf salts.1 ≠ [] := by
    apply List.ne_nil_of_length_pos
    rw [hlength]
    exact List.length_pos_iff.mpr hne
  have hdecrypt := (decrypt_encrypt hout hciphertext).1
  have hwidth : ¬ (salts.1.length ≠ saltLen ∧ salts.1.length ≠ 2 * saltLen) := by
    rcases salts.2 with hone | htwo
    · exact fun hno => hno.1 hone
    · exact fun hno => hno.2 htwo
  have hprotocol : uintAt input.toValue 4 = some session.protocol.toU8.toUInt64.toNat := by
    rw [← h.same]
    rfl
  have hkey : input.toValue.mapGetInt 1 = some session.keyAgreement.toValue := by
    rw [← h.same]
    rfl
  have hsaltEnc : bytesAt input.toValue 2 = some input.saltEnc := rfl
  have hsaltAuth : bytesAt input.toValue 3 =
      some (authenticate crypto.hashes session.protocol session.sharedSecret input.saltEnc) := by
    rw [← h.tagged]
    rfl
  refine ⟨ciphertext, ?_, ?_⟩
  · rw [evaluate, hprotocol, hkey, hsaltEnc, hsaltAuth]
    refine bind_eq_ok.mpr ⟨session.protocol, need_eq_ok.mpr (protocolOf_toU8 _), ?_⟩
    refine bind_eq_ok.mpr ⟨_, need_eq_ok.mpr rfl, bind_eq_ok.mpr ⟨_, hs.secret, ?_⟩⟩
    refine bind_eq_ok.mpr ⟨_, need_eq_ok.mpr rfl, ?_⟩
    refine bind_eq_ok.mpr ⟨(), verified_authenticate _ _ _, ?_⟩
    refine bind_eq_ok.mpr ⟨salts.1, unlocked_encrypt hne h.encrypted, ?_⟩
    rw [if_neg hwidth, hciphertext]
    rfl
  · rw [HmacSecretInput.decryptOutput, h.same]
    refine bind_eq_ok.mpr ⟨_, hdecrypt, if_neg ?_⟩
    rwa [hlength]

/-- The entry of an exchange is written in order. -/
theorem entry_ordered (h : Prepared crypto session iv salts.1 input) : Ordered input.toValue := by
  obtain ⟨x, y, hpoint⟩ := session.platform
  obtain ⟨_, hne, hlong⟩ := salts_whole salts
  have hsaltEnc := (decrypt_encrypt hne h.encrypted).2
  have hsaltAuth := length_authenticate_le crypto.hashes session.protocol session.sharedSecret
    input.saltEnc
  rw [← h.tagged] at hsaltAuth
  have horderly : Orderly 300 [(1, input.session.keyAgreement.toValue), (2, .bytes input.saltEnc),
      (3, .bytes input.saltAuth), (4, .unsigned input.session.protocol.toU8.toUInt64)] := by
    have hkeys : [1, 2, 3, 4].Pairwise (· < ·) := by decide
    have hsmall (raw : Bytes) (hraw : raw.length ≤ 96) : Good 63 (.bytes raw) ∧
        Ordered (.bytes raw) ∧ (wire (.bytes raw)).length ≤ 300 := by
      obtain ⟨hgood, hordered, hwire⟩ := bytes_orderly hraw (by decide)
      exact ⟨hgood, hordered, by omega⟩
    refine ⟨hkeys, ?_, ?_, Nat.le_of_ble_eq_true rfl⟩
    · intro f hf
      simp only [List.mem_cons, List.not_mem_nil, or_false] at hf
      rcases hf with rfl | rfl | rfl | rfl <;> exact Nat.le_of_ble_eq_true rfl
    · intro f hf
      simp only [List.mem_cons, List.not_mem_nil, or_false] at hf
      rcases hf with rfl | rfl | rfl | rfl
      · rw [h.same, hpoint]
        exact key_orderly x y
      · exact hsmall _ (by omega)
      · exact hsmall _ hsaltAuth
      · obtain ⟨hgood, hordered, hwire⟩ := uint_orderly input.session.protocol.toU8.toUInt64.toNat
        rw [uint, UInt64.ofNat_toNat] at hgood hordered hwire
        exact ⟨hgood, hordered, Nat.le_trans hwire (by decide)⟩
  exact horderly.good.2

end exchange

/-! ## The entry in an encoded request -/

/-- What stands in a map under a key stands sorted in the sorted map. -/
theorem mapGet_sort {es : List (Value × Value)} {key v : Value} (h : DistinctKeys (.map es))
    (hmem : (key, v) ∈ es) : (sort (.map es)).mapGet (sort key) = some (sort v) := by
  have hd := distinct_sort h
  rw [sort_map] at hd ⊢
  exact (mapGet_eq_some hd).mpr
    (KeyedSorting.mem_sortBy.mpr (List.mem_map_of_mem (f := sortEntry) hmem))

section request

variable {fields : List (ℕ × Value)} {body : Bytes} {extensions : List (String × Value)}
  {label : ℕ} {name : String} {entry : Value}

theorem decoded_encode {v : Value} (hbody : encode v = .ok body) (hlen : body.length ≤ usizeMax)
    (hdistinct : DistinctKeys v) : decoded body = .ok (sort v) := by
  have hword : usizeMax < 2 ^ 64 := by decide
  have hwritten := encodeInto_written hbody
  have hstorable := hwritten.storable (Nat.lt_of_le_of_lt hlen hword)
  cases (encode_eq hwritten.depth hstorable).symm.trans hbody
  exact (decoded_eq_ok hlen).mpr ⟨encodes_iff.mpr ⟨storable_sort hstorable, rfl⟩,
    depth_sort hwritten.depth, distinct_sort hdistinct⟩

/-- An extension of a request is found by its reader, sorted. -/
theorem entry_found (hdistinct : DistinctKeys (fieldMap fields))
    (hfield : (label, extensionMap extensions) ∈ fields) (hext : (name, entry) ∈ extensions) :
    ((sort (fieldMap fields)).mapGet (uint label)).bind (·.mapGet (.text name)) =
      some (sort entry) := by
  have hfield : (uint label, extensionMap extensions) ∈ fields.map fun f => (uint f.1, f.2) :=
    List.mem_map_of_mem (f := fun f : ℕ × Value => (uint f.1, f.2)) hfield
  have hext : (.text name, entry) ∈ extensions.map fun e => (Value.text e.1, e.2) :=
    List.mem_map_of_mem (f := fun e : String × Value => (Value.text e.1, e.2)) hext
  have hinner : DistinctKeys (extensionMap extensions) :=
    ((everywhere_map.mp hdistinct).2 _ hfield).2
  have houter := mapGet_sort hdistinct hfield
  rw [sort_scalar (v := uint label) trivial] at houter
  have hname := mapGet_sort hinner hext
  rw [sort_scalar (v := .text name) trivial] at hname
  change ((sort (.map _)).mapGet (uint label)).bind _ = _
  rw [houter]
  exact hname

end request

/-! ## Both operations -/

section card

variable {crypto : Primitives} {session : PinSession} {d : Authenticator} {salts : HmacSecretSalts}
  {iv : Option (ByteArrayOf 16)} {input : HmacSecretInput} {prf : Bytes → ByteArrayOf 32}
  {body : Bytes} {fields : List (ℕ × Value)} {extensions : List (String × Value)} {label : ℕ}
  {name : String} {data : AuthenticatorData}

/-- What the platform decrypts of an evaluated answer. -/
theorem outputs_announced (hs : Agreed crypto session d)
    (h : Prepared crypto session iv salts.1 input) (hbody : encode (fieldMap fields) = .ok body)
    (hlen : body.length ≤ usizeMax) (hdistinct : DistinctKeys (fieldMap fields))
    (hfield : (label, extensionMap extensions) ∈ fields) (hext : (name, input.toValue) ∈ extensions)
    (hlabel : uint label = .fromInt label)
    (hdata : Evaluated crypto d prf body label name data) :
    Announced (extensionEntries data) (.text name) (SpellsOutput (cbc crypto.aes) input)
      (some (outputs prf salts.1)) := by
  have hfound := entry_found hdistinct hfield hext
  rw [sort_eq_self.mpr (entry_ordered h), hlabel] at hfound
  obtain ⟨ciphertext, hevaluate, hdecrypt⟩ := @evaluate_prepared _ _ _ _ _ _ prf hs h
  obtain ⟨v, hv, hspells⟩ := hdata _ _ _ (decoded_encode hbody hlen hdistinct) hfound hevaluate
  exact ⟨v, hv, ciphertext, hspells, hdecrypt⟩

variable {κ : Type*} {respond : κ → Bytes → Bytes × κ} {a : κ} {options : OperationOptions}

/-- A payload that spells an assertion whose extensions hold the evaluated output. -/
def EvaluatedAssertion (crypto : Primitives) (d : Authenticator) (prf : Bytes → ByteArrayOf 32)
    (body payload : Bytes) (r : GetAssertionResponse) : Prop :=
  AssertionPayload (cbc crypto.aes) none r payload ∧
    Evaluated crypto d prf body 4 extHmacSecret r.authData

/-- A payload that spells a credential whose extensions hold the evaluated output. -/
def EvaluatedCredential (crypto : Primitives) (d : Authenticator) (prf : Bytes → ByteArrayOf 32)
    (body payload : Bytes) (r : MakeCredentialResponse) : Prop :=
  CredentialPayload (cbc crypto.aes) none r payload ∧
    Evaluated crypto d prf body 6 extHmacSecretMc r.authData

/-- An assertion of an authenticator that evaluates the exchange is reported with the function of
each salt, whatever else is in the request and the response. -/
theorem getAssertion_evaluated {params : GetAssertionParams}
    {op : Operation (Sequence GetAssertionResponse) GetAssertionResponse}
    (hs : Agreed crypto session d)
    (hnew : HmacSecretInput.new (cbc crypto.aes) crypto.hashes session salts iv = .ok input)
    (hinput : params.hmacSecret = some input)
    (hvalues : ∀ e ∈ params.extensions, DistinctKeys e.2)
    (hnames : DistinctNames params.extensions ∧ DistinctNames params.options)
    (hop : getAssertion (cbc crypto.aes) params options = .ok op)
    (hroom : ∀ body, encode (fieldMap params.fields) = .ok body → body.length ≤ usizeMax ∧
      Room options (0x02 :: body) (respond a (0x02 :: body)).1)
    (hanswer : ∀ body, encode (fieldMap params.fields) = .ok body → ∃ payload r,
      (respond a (0x02 :: body)).1 = 0x00 :: payload ∧
        EvaluatedAssertion crypto d prf body payload r) :
    ∃ body payload r, encode (fieldMap params.fields) = .ok body ∧
      (respond a (0x02 :: body)).1 = 0x00 :: payload ∧
      EvaluatedAssertion crypto d prf body payload r ∧
      Ends (execute (sequence GetAssertionResponse) (messageApplet respond) op a).1
        (.ok { r with hmacSecret := some (outputs prf salts.1) }) := by
  have hrefused : ¬ params.Refused := by
    intro hrefused
    rw [getAssertion, if_pos hrefused] at hop
    cases hop
  obtain ⟨body, hbody, hreports, _⟩ := getAssertion_reports hop fun body hbody =>
    (hroom body hbody).2
  obtain ⟨payload, r, hpayload, ⟨es, hstrict, hspells⟩, hdata⟩ := hanswer body hbody
  have hlen := (hroom body hbody).1
  have hword : usizeMax < 2 ^ 64 := by decide
  have hstored := (encodeInto_written hbody).storable (Nat.lt_of_le_of_lt hlen hword)
  have hdistinct := (getAssertion_distinct hrefused hstored hvalues).mpr hnames
  have hext : (extHmacSecret, input.toValue) ∈ params.allExtensions := by
    rw [GetAssertionParams.allExtensions, hinput]
    simp
  have hfield : (4, extensionMap params.allExtensions) ∈ params.fields := by
    have hmember : (4, extensionMap params.allExtensions) ∈
        listMember 4 params.allExtensions (extensionMap params.allExtensions) := by
      rw [listMember, if_neg (List.ne_nil_of_mem hext)]
      exact List.mem_singleton_self _
    simp only [GetAssertionParams.fields, List.mem_append]
    exact Or.inl (Or.inl (Or.inr hmember))
  have hout := outputs_announced hs (prepared hnew) hbody hlen hdistinct hfield hext rfl hdata
  have hspelled : SpellsAssertion (cbc crypto.aes) (some input) es
      { r with hmacSecret := some (outputs prf salts.1) } :=
    ⟨hspells.credential, hspells.authData, hspells.signature, hspells.user,
      hspells.numberOfCredentials, hspells.userSelected, hspells.largeBlobKey, .asked hout⟩
  refine ⟨body, payload, r, hbody, hpayload, ⟨⟨es, hstrict, hspells⟩, hdata⟩, ?_⟩
  rw [hinput] at hreports
  exact (hreports.accepted _).mpr ⟨payload, hpayload, es, hstrict, hspelled⟩

/-- A credential made by an authenticator that evaluates the exchange is reported with the function
of each salt. -/
theorem makeCredential_evaluated {params : MakeCredentialParams}
    {op : Operation (Sequence MakeCredentialResponse) MakeCredentialResponse}
    (hs : Agreed crypto session d)
    (hnew : HmacSecretInput.new (cbc crypto.aes) crypto.hashes session salts iv = .ok input)
    (hinput : params.hmacSecretMc = some input)
    (hvalues : ∀ e ∈ params.extensions, DistinctKeys e.2)
    (hnames : DistinctNames params.extensions ∧ DistinctNames params.options)
    (hop : makeCredential (cbc crypto.aes) params options = .ok op)
    (hroom : ∀ body, encode (fieldMap params.fields) = .ok body → body.length ≤ usizeMax ∧
      Room options (0x01 :: body) (respond a (0x01 :: body)).1)
    (hanswer : ∀ body, encode (fieldMap params.fields) = .ok body → ∃ payload r,
      (respond a (0x01 :: body)).1 = 0x00 :: payload ∧
        EvaluatedCredential crypto d prf body payload r) :
    ∃ body payload r, encode (fieldMap params.fields) = .ok body ∧
      (respond a (0x01 :: body)).1 = 0x00 :: payload ∧
      EvaluatedCredential crypto d prf body payload r ∧
      Ends (execute (sequence MakeCredentialResponse) (messageApplet respond) op a).1
        (.ok { r with hmacSecretMc := some (outputs prf salts.1) }) := by
  have hrefused : ¬ params.Refused := by
    intro hrefused
    rw [makeCredential, if_pos hrefused] at hop
    cases hop
  obtain ⟨body, hbody, hreports, _⟩ := makeCredential_reports hop fun body hbody =>
    (hroom body hbody).2
  obtain ⟨payload, r, hpayload, ⟨es, hstrict, hspells⟩, hdata⟩ := hanswer body hbody
  have hlen := (hroom body hbody).1
  have hword : usizeMax < 2 ^ 64 := by decide
  have hstored := (encodeInto_written hbody).storable (Nat.lt_of_le_of_lt hlen hword)
  have hdistinct := (makeCredential_distinct hrefused hstored hvalues).mpr hnames
  have hext : (extHmacSecretMc, input.toValue) ∈ params.allExtensions := by
    rw [MakeCredentialParams.allExtensions, hinput]
    simp
  have hfield : (6, extensionMap params.allExtensions) ∈ params.fields := by
    have hmember : (6, extensionMap params.allExtensions) ∈
        listMember 6 params.allExtensions (extensionMap params.allExtensions) := by
      rw [listMember, if_neg (List.ne_nil_of_mem hext)]
      exact List.mem_singleton_self _
    simp only [MakeCredentialParams.fields, List.mem_append]
    exact Or.inl (Or.inl (Or.inl (Or.inr hmember)))
  have hout := outputs_announced hs (prepared hnew) hbody hlen hdistinct hfield hext rfl hdata
  have hspelled : SpellsCredential (cbc crypto.aes) (some input) es
      { r with hmacSecretMc := some (outputs prf salts.1) } :=
    ⟨hspells.fmt, hspells.authData, hspells.attStmt, hspells.epAtt, hspells.largeBlobKey,
      hspells.supported, .asked hout⟩
  refine ⟨body, payload, r, hbody, hpayload, ⟨⟨es, hstrict, hspells⟩, hdata⟩, ?_⟩
  rw [hinput] at hreports
  exact (hreports.accepted _).mpr ⟨payload, hpayload, es, hstrict, hspelled⟩

end card

/-! ## Salts between the platform of scalar 1 and the authenticator of scalar 2 -/

section example_exchange

open CtapHmacOutput

theorem exampleSession_agreed (protocol : PinUvAuthProtocol) :
    Agreed exampleCrypto (exampleSession protocol) exampleAuthenticator := by
  have hnot : ¬ 3 ∣ 1 := by decide
  have hshared := @shared_platformKey exampleCrypto exampleAuthenticator 1 hnot protocol
  have hsecret : deriveSharedSecret exampleCrypto.hashes protocol
      (exampleCrypto.curve.diffieHellman 2 (exampleCrypto.curve.publicKey 1)) =
        (exampleSession protocol).sharedSecret := by
    cases protocol <;> decide +kernel
  exact ⟨hsecret ▸ hshared⟩

theorem exampleInput_prepared (protocol : PinUvAuthProtocol) :
    HmacSecretInput.new (cbc exampleCrypto.aes) exampleCrypto.hashes (exampleSession protocol)
      (exampleSalts protocol) (exampleVector protocol) = .ok (exampleInput protocol) := by
  obtain ⟨hiv, henc⟩ := example_encrypted protocol
  refine bind_eq_ok.mpr ⟨(), hiv, ?_⟩
  exact bind_eq_ok.mpr ⟨_, henc, rfl⟩

theorem evaluate_exampleInput (protocol : PinUvAuthProtocol) :
    evaluate exampleCrypto exampleAuthenticator (exampleHashes.hmac credRandom)
      (exampleInput protocol).toValue = .ok (exampleEnc protocol) := by
  cases protocol <;> decide +kernel

/-- A request whose entry is the input is evaluated to the outputs. -/
theorem exampleData_evaluated {protocol : PinUvAuthProtocol} {body : Bytes} {label : ℤ}
    {name : String} {request : Value} (hrequest : decoded body = .ok request)
    (hentry : entryAt request label name = some (exampleInput protocol).toValue) :
    Evaluated exampleCrypto exampleAuthenticator (exampleHashes.hmac credRandom) body label name
      (exampleData protocol name) := by
  intro request' entry ciphertext hdecoded hfound hevaluate
  cases hrequest.symm.trans hdecoded
  cases hentry.symm.trans hfound
  cases (evaluate_exampleInput protocol).symm.trans hevaluate
  exact ⟨_, List.mem_singleton_self _, rfl⟩

/-- A login ends with the function of each salt. -/
def LoginReturns (protocol : PinUvAuthProtocol) (output : Bytes) : Prop :=
  ∃ op, getAssertion (cbc exampleCrypto.aes) (exampleLogin protocol) {} = .ok op ∧
    ∃ r, Ends (execute (sequence GetAssertionResponse)
      (messageApplet fun n _ => (exampleAssertionAnswer protocol, n + 1)) op 0).1 (.ok r) ∧
      r.hmacSecret = some output

set_option maxRecDepth 8000 in
/-- One salt under the first protocol and two under the second. -/
theorem getAssertion_evaluated_salts :
    LoginReturns .v1 (exampleHashes.hmac credRandom firstSalt).1 ∧
      LoginReturns .v2 ((exampleHashes.hmac credRandom firstSalt).1 ++
        (exampleHashes.hmac credRandom secondSalt).1) := by
  have hreturns (protocol : PinUvAuthProtocol) : LoginReturns protocol
      (outputs (exampleHashes.hmac credRandom) (exampleSalts protocol).1) := by
    obtain ⟨op, hop⟩ : ∃ op,
        getAssertion (cbc exampleCrypto.aes) (exampleLogin protocol) {} = .ok op := by
      cases protocol <;> exact ⟨_, rfl⟩
    obtain ⟨short, request, hshort, hlen, hrequest, hentry⟩ : ∃ short request,
        encode (fieldMap (exampleLogin protocol).fields) = .ok short ∧
          (0x02 :: short : Bytes).length ≤ 2500 ∧ decoded short = .ok request ∧
          entryAt request 4 extHmacSecret = some (exampleInput protocol).toValue := by
      cases protocol <;> exact ⟨_, _, rfl, by decide, rfl, rfl⟩
    have hanswer : (exampleAssertionAnswer protocol).length ≤ 512 := by
      cases protocol <;> decide
    have hvalues : ∀ e ∈ (exampleLogin protocol).extensions, DistinctKeys e.2 := fun _ he =>
      absurd he List.not_mem_nil
    obtain ⟨body, payload, r, _, _, _, hends⟩ := @getAssertion_evaluated exampleCrypto
      (exampleSession protocol) exampleAuthenticator (exampleSalts protocol)
      (exampleVector protocol) (exampleInput protocol) (exampleHashes.hmac credRandom) ℕ
      (fun n _ => (exampleAssertionAnswer protocol, n + 1)) 0 {} (exampleLogin protocol) op
      (exampleSession_agreed protocol) (exampleInput_prepared protocol) rfl hvalues
      ⟨List.nodup_nil, List.nodup_nil⟩ hop (short_room hshort hlen hanswer) fun body hsent => by
        cases hshort.symm.trans hsent
        exact ⟨_, exampleAssertion protocol, rfl, exampleAssertion_spelled protocol,
          exampleData_evaluated hrequest hentry⟩
    exact ⟨op, hop, _, hends, rfl⟩
  exact ⟨hreturns .v1, hreturns .v2⟩

/-- A registration ends with the function of each salt. -/
def RegistrationReturns (protocol : PinUvAuthProtocol) (output : Bytes) : Prop :=
  ∃ op, makeCredential (cbc exampleCrypto.aes) (exampleRegistration protocol) {} = .ok op ∧
    ∃ r, Ends (execute (sequence MakeCredentialResponse)
      (messageApplet fun n _ => (exampleCredentialAnswer protocol, n + 1)) op 0).1 (.ok r) ∧
      r.hmacSecretMc = some output

set_option maxRecDepth 8000 in
theorem makeCredential_evaluated_salts :
    RegistrationReturns .v1 (exampleHashes.hmac credRandom firstSalt).1 ∧
      RegistrationReturns .v2 ((exampleHashes.hmac credRandom firstSalt).1 ++
        (exampleHashes.hmac credRandom secondSalt).1) := by
  have hreturns (protocol : PinUvAuthProtocol) : RegistrationReturns protocol
      (outputs (exampleHashes.hmac credRandom) (exampleSalts protocol).1) := by
    obtain ⟨op, hop⟩ : ∃ op,
        makeCredential (cbc exampleCrypto.aes) (exampleRegistration protocol) {} = .ok op := by
      cases protocol <;> exact ⟨_, rfl⟩
    obtain ⟨short, request, hshort, hlen, hrequest, hentry⟩ : ∃ short request,
        encode (fieldMap (exampleRegistration protocol).fields) = .ok short ∧
          (0x01 :: short : Bytes).length ≤ 2500 ∧ decoded short = .ok request ∧
          entryAt request 6 extHmacSecretMc = some (exampleInput protocol).toValue := by
      cases protocol <;> exact ⟨_, _, rfl, by decide, rfl, rfl⟩
    have hanswer : (exampleCredentialAnswer protocol).length ≤ 512 := by
      cases protocol <;> decide
    have hvalues : ∀ e ∈ (exampleRegistration protocol).extensions, DistinctKeys e.2 := fun _ he =>
      absurd he List.not_mem_nil
    obtain ⟨body, payload, r, _, _, _, hends⟩ := @makeCredential_evaluated exampleCrypto
      (exampleSession protocol) exampleAuthenticator (exampleSalts protocol)
      (exampleVector protocol) (exampleInput protocol) (exampleHashes.hmac credRandom) ℕ
      (fun n _ => (exampleCredentialAnswer protocol, n + 1)) 0 {} (exampleRegistration protocol) op
      (exampleSession_agreed protocol) (exampleInput_prepared protocol) rfl hvalues
      ⟨List.nodup_nil, List.nodup_nil⟩ hop (short_room hshort hlen hanswer) fun body hsent => by
        cases hshort.symm.trans hsent
        exact ⟨_, exampleCredential protocol, rfl, exampleCredential_spelled protocol,
          exampleData_evaluated hrequest hentry⟩
    exact ⟨op, hop, _, hends, rfl⟩
  exact ⟨hreturns .v1, hreturns .v2⟩

end example_exchange

end CtapHmacExchange
