import LibCanokey.CtapCborWritten
import LibCanokey.CtapCredential
import LibCanokey.CtapMacCoverage
import LibCanokey.CtapReading

/-! # Canonical requests

The body of a request to make a credential or an assertion, read by the strict parser of the
crate itself. -/
namespace CtapRequestCanonical

open BigEndian CheckedCursor ListTraversal ProtocolError ProtocolConversation ProtocolOperation
open CtapCbor CtapCose CtapCborLanguage CtapCborCanonical CtapCborWritten CtapFields CtapReading
open CtapMessage CtapCredentialManagement CtapAuthData CtapHmacSecret CtapCredential
open CtapMacCoverage ProtocolTranscript

/-- No two entries of a caller's list have one name. -/
def DistinctNames {α : Type} (entries : List (String × α)) : Prop :=
  (entries.map Prod.fst).Nodup

instance {α : Type} (entries : List (String × α)) : Decidable (DistinctNames entries) :=
  inferInstanceAs (Decidable (List.Nodup _))

section maps

theorem distinct_scalar {v : Value} (hs : Scalar v) : DistinctKeys v := by
  refine (everywhere_scalar hs).mpr ?_
  cases v with
  | map => cases hs
  | _ => trivial

@[simp] theorem distinct_text (s : String) : DistinctKeys (.text s) := distinct_scalar trivial

@[simp] theorem distinct_bytes (raw : Bytes) : DistinctKeys (.bytes raw) := distinct_scalar trivial

@[simp] theorem distinct_bool (b : Bool) : DistinctKeys (.bool b) := distinct_scalar trivial

@[simp] theorem distinct_unsigned (n : UInt64) : DistinctKeys (.unsigned n) :=
  distinct_scalar trivial

@[simp] theorem distinct_uint (n : ℕ) : DistinctKeys (uint n) := distinct_unsigned _

@[simp] theorem distinct_fromInt (n : ℤ) : DistinctKeys (.fromInt n) := by
  rw [Value.fromInt]
  split_ifs
  · exact distinct_scalar trivial
  · exact distinct_scalar trivial

@[simp] theorem distinct_array {items : List Value} :
    DistinctKeys (.array items) ↔ ∀ v ∈ items, DistinctKeys v := by
  refine everywhere_array.trans ⟨And.right, ?_⟩
  intro h
  exact ⟨trivial, h⟩

/-- A map whose keys are no containers. -/
theorem distinct_map {α : Type} {key : α → Value} {entries : List (α × Value)}
    (hkeys : ∀ e ∈ entries, Scalar (key e.1)) :
    DistinctKeys (.map (entries.map fun e => (key e.1, e.2))) ↔
      (entries.map fun e => canonical (key e.1)).Nodup ∧ ∀ e ∈ entries, DistinctKeys e.2 := by
  refine everywhere_map.trans (and_congr ?_ ?_)
  · rw [DistinctKeysAt, List.map_map]
    rfl
  · refine List.forall_mem_map.trans (forall₂_congr fun e he => ?_)
    exact and_iff_right (distinct_scalar (hkeys e he))

theorem canonical_text_injective {s t : String} (hs : Storable (.text s)) (ht : Storable (.text t))
    (h : canonical (.text s) = canonical (.text t)) : s = t := by
  have hsort (u : String) : sort (.text u) = .text u := sort_scalar (v := .text u) trivial
  rw [canonical, canonical, hsort, hsort] at h
  exact Value.text.inj (wire_injective hs ht h)

theorem distinct_texts {entries : List (String × Value)}
    (hstore : ∀ e ∈ entries, Storable (.text e.1)) :
    DistinctKeys (extensionMap entries) ↔
      DistinctNames entries ∧ ∀ e ∈ entries, DistinctKeys e.2 := by
  refine (@distinct_map String .text entries fun _ _ => trivial).trans (and_congr_left' ?_)
  rw [DistinctNames, List.Nodup, List.Nodup, List.pairwise_map, List.pairwise_map]
  constructor
  · intro h
    exact h.imp fun hne heq => hne (congrArg (fun s => canonical (.text s)) heq)
  · intro h
    refine h.imp_of_mem ?_
    intro e d he hd hne heq
    exact hne (canonical_text_injective (hstore e he) (hstore d hd) heq)

/-- Fields under increasing one-byte keys repeat none. -/
theorem distinct_fieldMap {fields : List (ℕ × Value)}
    (hkeys : (fields.map Prod.fst).Pairwise (· < ·)) (hsmall : ∀ f ∈ fields, f.1 < 24) :
    DistinctKeys (fieldMap fields) ↔ ∀ f ∈ fields, DistinctKeys f.2 := by
  refine (@distinct_map ℕ uint fields fun _ _ => trivial).trans (and_iff_right ?_)
  rw [List.Nodup, List.pairwise_map]
  refine (List.pairwise_map.mp hkeys).imp_of_mem ?_
  intro f g hf hg hlt heq
  rw [canonical_key (hsmall f hf), canonical_key (hsmall g hg)] at heq
  have := key_injective (hsmall f hf) (hsmall g hg) (List.head_eq_of_cons_eq heq)
  omega

theorem storable_fieldMap {fields : List (ℕ × Value)} (h : Storable (fieldMap fields)) :
    ∀ f ∈ fields, Storable f.2 := by
  intro f hf
  exact ((everywhere_map.mp h).2 _ (List.mem_map_of_mem hf)).2

theorem storable_extensionMap {entries : List (String × Value)}
    (h : Storable (extensionMap entries)) : ∀ e ∈ entries, Storable (.text e.1) := by
  intro e he
  exact ((everywhere_map.mp h).2 _ (List.mem_map_of_mem he)).1

end maps

section values

/-- The names under which the members of entities, descriptors and algorithms stand. -/
def memberNames : List String := ["type", "alg", "id", "name", "displayName", "transports"]

theorem distinct_members {entries : List (String × Value)}
    (hnames : (entries.map Prod.fst).Sublist memberNames)
    (hvalues : ∀ e ∈ entries, DistinctKeys e.2) : DistinctKeys (extensionMap entries) := by
  have hshort : ∀ name ∈ memberNames, (utf8 name).length < 2 ^ 64 := by decide
  have hdistinct : memberNames.Nodup := by decide
  refine (distinct_texts fun e he => ?_).mpr ⟨hdistinct.sublist hnames, hvalues⟩
  have hname := hshort _ (hnames.subset (List.mem_map_of_mem he))
  exact (@everywhere_scalar _ (.text e.1) trivial).mpr hname

theorem distinct_relyingParty (rp : RelyingParty) : DistinctKeys (relyingPartyValue rp) := by
  rcases rp with ⟨id, _ | name⟩
  · exact @distinct_members [("id", .text id)] (show List.Sublist ["id"] _ by decide) (by simp)
  · exact @distinct_members [("id", .text id), ("name", .text name)]
      (show List.Sublist ["id", "name"] _ by decide) (by simp)

theorem distinct_user (user : UserEntity) : DistinctKeys (userValue user) := by
  rcases user with ⟨id, _ | name, _ | displayName⟩
  · exact @distinct_members [("id", .bytes id)] (show List.Sublist ["id"] _ by decide) (by simp)
  · exact @distinct_members [("id", .bytes id), ("displayName", .text displayName)]
      (show List.Sublist ["id", "displayName"] _ by decide) (by simp)
  · exact @distinct_members [("id", .bytes id), ("name", .text name)]
      (show List.Sublist ["id", "name"] _ by decide) (by simp)
  · exact @distinct_members
      [("id", .bytes id), ("name", .text name), ("displayName", .text displayName)]
      (show List.Sublist ["id", "name", "displayName"] _ by decide) (by simp)

theorem distinct_descriptor (descriptor : PublicKeyCredentialDescriptor) :
    DistinctKeys (descriptorValue descriptor) := by
  rw [descriptorValue]
  by_cases h : descriptor.transports = []
  · rw [if_pos h]
    exact @distinct_members [("type", .text descriptor.type), ("id", .bytes descriptor.id)]
      (show List.Sublist ["type", "id"] _ by decide) (by simp)
  · rw [if_neg h]
    exact @distinct_members [("type", .text descriptor.type), ("id", .bytes descriptor.id),
        ("transports", .array (descriptor.transports.map .text))]
      (show List.Sublist ["type", "id", "transports"] _ by decide) (by simp)

theorem distinct_algorithm (algorithm : CoseAlgorithm) :
    DistinctKeys (algorithmValue algorithm) :=
  @distinct_members [("type", .text "public-key"), ("alg", .fromInt algorithm.id)]
    (show List.Sublist ["type", "alg"] _ by decide) (by simp)

theorem distinct_point (algorithm : CoseAlgorithm) (x y : ByteArrayOf 32) :
    DistinctKeys (CoseKey.toValue (.p256 algorithm x y)) := by
  refine (@distinct_map ℤ .fromInt [(1, .fromInt 2), (3, .fromInt algorithm.id),
    (-1, .fromInt 1), (-2, .bytes x.1), (-3, .bytes y.1)] ?_).mpr ⟨?_, by simp⟩
  · simp [Value.fromInt, Scalar]
  · exact (show List.Nodup ([1, 3, -1, -2, -3].map fun n : ℤ => canonical (.fromInt n)) by decide)

theorem distinct_hmacSecret (input : HmacSecretInput) : DistinctKeys input.toValue := by
  obtain ⟨x, y, hpoint⟩ := input.session.platform
  refine (@distinct_fieldMap [(1, input.session.keyAgreement.toValue), (2, .bytes input.saltEnc),
    (3, .bytes input.saltAuth), (4, .unsigned input.session.protocol.toU8.toUInt64)]
    (show List.Pairwise (· < ·) [1, 2, 3, 4] by decide) (by simp)).mpr ?_
  simp [hpoint, distinct_point]

end values

section members

variable {α : Type} {p : Value → Prop}

theorem listMember_keys (key : ℕ) (entries : List α) (value : Value) :
    ((listMember key entries value).map Prod.fst).Sublist [key] := by
  rw [listMember]
  by_cases h : entries = []
  · rw [if_pos h]
    exact List.nil_sublist _
  · rw [if_neg h]
    exact List.Sublist.refl _

theorem forall_listMember {key : ℕ} {entries : List α} {value : Value} :
    (∀ f ∈ listMember key entries value, p f.2) ↔ (entries = [] ∨ p value) := by
  rw [listMember]
  by_cases h : entries = []
  · simp [h]
  · simp [h]

theorem authMembers_keys (key : ℕ) (pinUvAuth : Option PinUvAuth) :
    ((authMembers key pinUvAuth).map Prod.fst).Sublist [key, key + 1] := by
  cases pinUvAuth with
  | none => exact List.nil_sublist _
  | some auth => exact List.Sublist.refl _

theorem authMembers_distinct (key : ℕ) (pinUvAuth : Option PinUvAuth) :
    ∀ f ∈ authMembers key pinUvAuth, DistinctKeys f.2 := by
  cases pinUvAuth with
  | none => simp [authMembers]
  | some auth => simp [authMembers]

/-- A list of descriptors repeats no key. -/
theorem descriptors_distinct (descriptors : List PublicKeyCredentialDescriptor) :
    DistinctKeys (.array (descriptors.map descriptorValue)) := by
  refine distinct_array.mpr (List.forall_mem_map.mpr ?_)
  intro d _
  exact distinct_descriptor d

theorem options_distinct {options : List (String × Bool)}
    (hstore : options = [] ∨ Storable (optionMap options)) :
    (options = [] ∨ DistinctKeys (optionMap options)) ↔ DistinctNames options := by
  have hmap : optionMap options = extensionMap (options.map fun e => (e.1, .bool e.2)) := by
    simp [optionMap, extensionMap]
  have hnames : DistinctNames (options.map fun e => (e.1, Value.bool e.2)) ↔
      DistinctNames options := by
    simp [DistinctNames, Function.comp_def]
  rcases hstore with rfl | hstore
  · simp [DistinctNames]
  · have hvalues : ∀ e ∈ options.map fun e => (e.1, Value.bool e.2), DistinctKeys e.2 := by
      refine List.forall_mem_map.mpr ?_
      intro e _
      exact distinct_bool e.2
    rw [hmap] at hstore ⊢
    rw [distinct_texts (storable_extensionMap hstore), hnames, and_iff_left hvalues]
    by_cases hnil : options = []
    · simp [hnil, DistinctNames]
    · simp [hnil]

theorem extensions_distinct {extensions : List (String × Value)}
    (hstore : extensions = [] ∨ Storable (extensionMap extensions))
    (hvalues : ∀ e ∈ extensions, DistinctKeys e.2) :
    (extensions = [] ∨ DistinctKeys (extensionMap extensions)) ↔ DistinctNames extensions := by
  rcases hstore with rfl | hstore
  · simp [DistinctNames]
  · rw [distinct_texts (storable_extensionMap hstore), and_iff_left hvalues]
    by_cases hnil : extensions = []
    · simp [hnil, DistinctNames]
    · simp [hnil]

end members

section requests

/-- Typed extensions that are not among the raw ones add no repetition. -/
theorem distinctNames_append {raw typed : List (String × Value)} (htyped : DistinctNames typed)
    (hfresh : ∀ e ∈ typed, rawExtension raw e.1 = false) :
    DistinctNames (raw ++ typed) ↔ DistinctNames raw := by
  rw [DistinctNames, List.map_append, List.nodup_append]
  refine ⟨And.left, ?_⟩
  intro hraw
  refine ⟨hraw, htyped, ?_⟩
  intro name hname _ hmem heq
  subst heq
  obtain ⟨e, he, rfl⟩ := List.mem_map.mp hmem
  obtain ⟨d, hd, hsame⟩ := List.mem_map.mp hname
  have hpresent : rawExtension raw e.1 = true := List.any_eq_true.mpr ⟨d, hd, by simpa using hsame⟩
  rw [hfresh e he] at hpresent
  cases hpresent

theorem makeCredential_names {params : MakeCredentialParams} (h : ¬ params.Refused) :
    DistinctNames params.allExtensions ↔ DistinctNames params.extensions := by
  simp only [MakeCredentialParams.Refused, not_or, not_and, Bool.not_eq_true] at h
  obtain ⟨_, _, _, _, _, hraw, hmc⟩ := h
  rw [MakeCredentialParams.allExtensions, List.append_assoc]
  by_cases hs : params.hmacSecret = true
  · rw [if_pos hs]
    cases hinput : params.hmacSecretMc with
    | none =>
      refine distinctNames_append (by decide +revert) ?_
      simpa using hraw hs
    | some input =>
      obtain ⟨_, hrawMc⟩ := hmc (by rw [hinput]; rfl)
      refine distinctNames_append ?_ ?_
      · exact (show List.Nodup [extHmacSecret, extHmacSecretMc] by decide)
      · simpa using ⟨hraw hs, hrawMc⟩
  · have hnone : params.hmacSecretMc = none := by
      cases hinput : params.hmacSecretMc with
      | none => rfl
      | some input =>
        obtain ⟨hon, _⟩ := hmc (by rw [hinput]; rfl)
        exact absurd hon (by simpa using hs)
    simp [hs, hnone]

theorem getAssertion_names {params : GetAssertionParams} (h : ¬ params.Refused) :
    DistinctNames params.allExtensions ↔ DistinctNames params.extensions := by
  simp only [GetAssertionParams.Refused, not_or, not_and, Bool.not_eq_true] at h
  obtain ⟨_, hraw⟩ := h
  rw [GetAssertionParams.allExtensions]
  cases hinput : params.hmacSecret with
  | none => simp
  | some input =>
    refine distinctNames_append ?_ ?_
    · exact List.nodup_singleton extHmacSecret
    · simpa using hraw (by rw [hinput]; rfl)

theorem makeCredential_allValues {params : MakeCredentialParams}
    (h : ∀ e ∈ params.extensions, DistinctKeys e.2) :
    ∀ e ∈ params.allExtensions, DistinctKeys e.2 := by
  intro e he
  rw [MakeCredentialParams.allExtensions] at he
  rcases List.mem_append.mp he with he | he
  · rcases List.mem_append.mp he with he | he
    · exact h e he
    · split_ifs at he
      · rw [List.mem_singleton.mp he]
        exact distinct_bool true
      · cases he
  · obtain ⟨input, _, rfl⟩ := List.mem_map.mp he
    exact distinct_hmacSecret input

theorem getAssertion_allValues {params : GetAssertionParams}
    (h : ∀ e ∈ params.extensions, DistinctKeys e.2) :
    ∀ e ∈ params.allExtensions, DistinctKeys e.2 := by
  intro e he
  rw [GetAssertionParams.allExtensions] at he
  rcases List.mem_append.mp he with he | he
  · exact h e he
  · obtain ⟨input, _, rfl⟩ := List.mem_map.mp he
    exact distinct_hmacSecret input

theorem enterprise_keys (n : Option UInt32) :
    ((n.toList.map fun n => (10, uint n.toNat)).map Prod.fst).Sublist [10] := by
  cases n with
  | none => exact List.nil_sublist _
  | some n => exact List.Sublist.refl _

theorem increasing {fields : List (ℕ × Value)}
    (h : (fields.map Prod.fst).Sublist (List.range 11)) :
    (fields.map Prod.fst).Pairwise (· < ·) ∧ ∀ f ∈ fields, f.1 < 24 := by
  refine ⟨List.pairwise_lt_range.sublist h, ?_⟩
  intro f hf
  have := List.mem_range.mp (h.subset (List.mem_map_of_mem hf))
  omega

theorem makeCredential_keys (params : MakeCredentialParams) :
    (params.fields.map Prod.fst).Sublist (List.range 11) := by
  have hkeys : List.Sublist ([1, 2, 3, 4] ++ [5] ++ [6] ++ [7] ++ [8, 8 + 1] ++ [10])
    (List.range 11) := by decide
  refine List.Sublist.trans ?_ hkeys
  simp only [MakeCredentialParams.fields, List.map_append]
  refine ((((List.Sublist.append ?_ ?_).append ?_).append ?_).append ?_).append ?_
  · exact List.Sublist.refl _
  · exact listMember_keys 5 _ _
  · exact listMember_keys 6 _ _
  · exact listMember_keys 7 _ _
  · exact authMembers_keys 8 _
  · exact enterprise_keys _

theorem getAssertion_keys (params : GetAssertionParams) :
    (params.fields.map Prod.fst).Sublist (List.range 11) := by
  have hkeys : List.Sublist ([1, 2] ++ [3] ++ [4] ++ [5] ++ [6, 6 + 1]) (List.range 11) := by
    decide
  refine List.Sublist.trans ?_ hkeys
  simp only [GetAssertionParams.fields, List.map_append]
  refine (((List.Sublist.append ?_ ?_).append ?_).append ?_).append ?_
  · exact List.Sublist.refl _
  · exact listMember_keys 3 _ _
  · exact listMember_keys 4 _ _
  · exact listMember_keys 5 _ _
  · exact authMembers_keys 6 _

/-- What the body of a request to make a credential repeats, its callers' lists repeat. -/
theorem makeCredential_distinct {params : MakeCredentialParams} (h : ¬ params.Refused)
    (hstore : Storable (fieldMap params.fields))
    (hvalues : ∀ e ∈ params.extensions, DistinctKeys e.2) :
    DistinctKeys (fieldMap params.fields) ↔
      DistinctNames params.extensions ∧ DistinctNames params.options := by
  obtain ⟨hkeys, hsmall⟩ := increasing (makeCredential_keys params)
  have hstored := storable_fieldMap hstore
  rw [MakeCredentialParams.fields] at hstored
  simp only [List.forall_mem_append, forall_listMember] at hstored
  obtain ⟨⟨⟨⟨_, hextensions⟩, hoptions⟩, _⟩, _⟩ := hstored
  rw [distinct_fieldMap hkeys hsmall, MakeCredentialParams.fields]
  simp only [List.forall_mem_append, forall_listMember]
  rw [extensions_distinct hextensions (makeCredential_allValues hvalues), makeCredential_names h,
    options_distinct hoptions]
  have hfixed : ∀ f ∈ [(1, .bytes params.clientDataHash.1), (2, relyingPartyValue params.rp),
      (3, userValue params.user), (4, .array (params.pubKeyCredParams.map algorithmValue))],
      DistinctKeys (Prod.snd f) := by
    have halgorithms := fun algorithm (_ : algorithm ∈ params.pubKeyCredParams) =>
      distinct_algorithm algorithm
    simpa [distinct_relyingParty, distinct_user] using halgorithms
  have henterprise : ∀ f ∈ params.enterpriseAttestation.toList.map fun n => (10, uint n.toNat),
      DistinctKeys f.2 := by
    simp
  have hexclude : params.excludeList = [] ∨ _ := Or.inr (descriptors_distinct params.excludeList)
  constructor
  · rintro ⟨⟨⟨⟨_, he⟩, ho⟩, _⟩, _⟩
    exact ⟨he, ho⟩
  · rintro ⟨he, ho⟩
    exact ⟨⟨⟨⟨⟨hfixed, hexclude⟩, he⟩, ho⟩, authMembers_distinct 8 _⟩, henterprise⟩

theorem getAssertion_distinct {params : GetAssertionParams} (h : ¬ params.Refused)
    (hstore : Storable (fieldMap params.fields))
    (hvalues : ∀ e ∈ params.extensions, DistinctKeys e.2) :
    DistinctKeys (fieldMap params.fields) ↔
      DistinctNames params.extensions ∧ DistinctNames params.options := by
  obtain ⟨hkeys, hsmall⟩ := increasing (getAssertion_keys params)
  have hstored := storable_fieldMap hstore
  rw [GetAssertionParams.fields] at hstored
  simp only [List.forall_mem_append, forall_listMember] at hstored
  obtain ⟨⟨⟨_, hextensions⟩, hoptions⟩, _⟩ := hstored
  rw [distinct_fieldMap hkeys hsmall, GetAssertionParams.fields]
  simp only [List.forall_mem_append, forall_listMember]
  rw [extensions_distinct hextensions (getAssertion_allValues hvalues), getAssertion_names h,
    options_distinct hoptions]
  have hfixed : ∀ f ∈ [(1, .text params.rpId), (2, .bytes params.clientDataHash.1)],
      DistinctKeys (Prod.snd f) := by
    simp
  have hallow : params.allowList = [] ∨ _ := Or.inr (descriptors_distinct params.allowList)
  constructor
  · rintro ⟨⟨⟨_, he⟩, ho⟩, _⟩
    exact ⟨he, ho⟩
  · rintro ⟨he, ho⟩
    exact ⟨⟨⟨⟨hfixed, hallow⟩, he⟩, ho⟩, authMembers_distinct 6 _⟩

end requests

section emitted

variable {T : Type}

/-- The message that an operation holds after SELECT, and the only other one it exposes. -/
structure Emits (op : Operation (Sequence T) T) (message : Bytes) : Prop where
  queue : ∃ s, op.machine = some s ∧ s.pending.map Request.command = [select, msg message]
  sends : Sends (CtapMessage.sequence T) op (· = message)

theorem selectThen_emits {message : Bytes} {options : OperationOptions}
    {parse : CtapResponse → Except Error T} {op : Operation (Sequence T) T}
    (h : selectThen message options parse = .ok op) :
    Emits op message ∧ message.length ≤ options.limits.maxInputBytes := by
  have hsends : Sends (CtapMessage.sequence T) op (· = message) := selectThen_sends h rfl
  obtain ⟨o, hvalid, hrest⟩ := bind_eq_ok.mp h
  obtain ⟨_, rfl⟩ := validate_eq_ok.mp hvalid
  obtain ⟨_, hchecked, hrest⟩ := bind_eq_ok.mp hrest
  obtain ⟨_, _, hrest⟩ := bind_eq_ok.mp hrest
  obtain ⟨_, _, hop⟩ := bind_eq_ok.mp hrest
  constructor
  · simp only [Operation.fromMachine, hvalid] at hop
    cases hop
    exact ⟨⟨_, rfl, rfl⟩, hsends⟩
  · rw [checkedMessage] at hchecked
    split_ifs at hchecked with hnil hlong
    omega

/-- The body that follows the command byte is one that the strict parser accepts. -/
def StrictBody (body : Bytes) : Prop := ∃ value, parse body = .ok value

/-- Requests of one command, with the bodies that exactly the given condition makes strict. -/
def StrictExactly (command : UInt8) (op : Operation (Sequence T) T) (p : Prop) : Prop :=
  ∃ body, Emits op (command :: body) ∧ (StrictBody body ↔ p)

end emitted

/-- The requests of both operations are canonical exactly when the names that a caller lists as
extensions are distinct and so are those it lists as options. -/
structure RequestsCanonical (aes : Aes256Cbc) : Prop where
  makeCredential : ∀ params options op, (∀ e ∈ params.extensions, DistinctKeys e.2) →
    options.limits.maxInputBytes ≤ usizeMax → makeCredential aes params options = .ok op →
      StrictExactly 0x01 op (DistinctNames params.extensions ∧ DistinctNames params.options)
  getAssertion : ∀ params options op, (∀ e ∈ params.extensions, DistinctKeys e.2) →
    options.limits.maxInputBytes ≤ usizeMax → getAssertion aes params options = .ok op →
      StrictExactly 0x02 op (DistinctNames params.extensions ∧ DistinctNames params.options)

theorem selectThen_strict {T : Type} {command : UInt8} {fields : List (ℕ × Value)} {body : Bytes}
    {options : OperationOptions} {parse : CtapResponse → Except Error T}
    {op : Operation (Sequence T) T} {p : Prop} (hword : options.limits.maxInputBytes ≤ usizeMax)
    (hbody : encode (fieldMap fields) = .ok body)
    (h : selectThen (command :: body) options parse = .ok op)
    (hp : Storable (fieldMap fields) → (DistinctKeys (fieldMap fields) ↔ p)) :
    StrictExactly command op p := by
  obtain ⟨hemits, hlong⟩ := selectThen_emits h
  rw [List.length_cons] at hlong
  have hlen : body.length ≤ usizeMax := by omega
  have hmachine : usizeMax < 2 ^ 64 := by decide
  have hstored := (encodeInto_written hbody).storable (by omega)
  exact ⟨body, hemits, (encoded_parses hbody hlen).trans (hp hstored)⟩

theorem requests_canonical (aes : Aes256Cbc) : RequestsCanonical aes where
  makeCredential := by
    intro params options op hvalues hword h
    rw [CtapCredential.makeCredential] at h
    split_ifs at h with hrefused
    obtain ⟨body, hbody, h⟩ := bind_eq_ok.mp h
    exact selectThen_strict hword hbody h fun hs => makeCredential_distinct hrefused hs hvalues
  getAssertion := by
    intro params options op hvalues hword h
    rw [CtapCredential.getAssertion] at h
    split_ifs at h with hrefused
    obtain ⟨body, hbody, h⟩ := bind_eq_ok.mp h
    exact selectThen_strict hword hbody h fun hs => getAssertion_distinct hrefused hs hvalues

/-- A cipher that leaves the text as it is. -/
def plainCipher : Aes256Cbc where
  encrypt := fun _ _ text => text
  decrypt := fun _ _ text => text

/-- A request of one relying party, user and algorithm, under the given extensions and options. -/
def sampleRequest (extensions : List (String × Value)) (options : List (String × Bool)) :
    MakeCredentialParams where
  clientDataHash := ⟨List.replicate 32 0xaa, by decide⟩
  rp := ⟨"example.com", none⟩
  user := ⟨[1], none, none⟩
  pubKeyCredParams := [.es256]
  extensions := extensions
  options := options

/-- What comes before the extensions in the body of `sampleRequest`. -/
def sampleBody : Bytes :=
  [1, 0x58, 32] ++ List.replicate 32 0xaa ++ [2, 0xa1, 0x62, 0x69, 0x64, 0x6b] ++
    utf8 "example.com" ++ [3, 0xa1, 0x62, 0x69, 0x64, 0x41, 1, 4, 0x81, 0xa2, 0x63] ++
    utf8 "alg" ++ [0x26, 0x64] ++ utf8 "type" ++ [0x6a] ++ utf8 "public-key"

set_option maxRecDepth 8000 in
/-- One extension and one option make a strict body. -/
theorem requests_canonical_rk :
    ∃ op, makeCredential plainCipher (sampleRequest [("credProtect", uint 2)] [("rk", true)]) {} =
        .ok op ∧ StrictExactly 0x01 op (DistinctNames [("credProtect", uint 2)] ∧
          DistinctNames [("rk", true)]) := by
  have hop :
      makeCredential plainCipher (sampleRequest [("credProtect", uint 2)] [("rk", true)]) {} =
        .ok _ := rfl
  refine ⟨_, hop, (requests_canonical plainCipher).makeCredential _ _ _ ?_ (by decide) hop⟩
  simp [sampleRequest]

set_option maxRecDepth 8000 in
/-- The option `rk` listed twice is sent twice, and the strict parser rejects the body. -/
theorem repeated_option_sent :
    ∃ op, makeCredential plainCipher (sampleRequest [] [("rk", true), ("rk", false)]) {} = .ok op ∧
      (recorded (CtapMessage.sequence MakeCredentialResponse) op
          [.start, .advance [0x90, 0]]).commands =
        [select, msg (0x01 :: 0xa5 :: sampleBody ++
          [7, 0xa2, 0x62, 0x72, 0x6b, 0xf5, 0x62, 0x72, 0x6b, 0xf4])] ∧
      parse (0xa5 :: sampleBody ++ [7, 0xa2, 0x62, 0x72, 0x6b, 0xf5, 0x62, 0x72, 0x6b, 0xf4]) =
        refuse invalid :=
  ⟨_, rfl, rfl, rfl⟩

end CtapRequestCanonical
