import LibCanokey.CtapAuthData
import LibCanokey.CtapCredentialManagement
import LibCanokey.FallibleResults

/-! # Private components of COSE keys

The labels of the private part of a key, and which maps that carry one are refused: the rule is
checked for the resolved algorithms only, so a map of any other algorithm is kept as it is. -/
namespace CtapPrivateKeys

open BigEndian ListTraversal ProtocolError CtapCbor CtapCborLanguage CtapCborParser CtapCose
open CtapCborCanonical CtapAuthData CtapCredentialManagement FallibleResults

def keyType (value : Value) : Option ℤ := (value.mapGetInt 1).bind Value.asInt

def algorithmId (value : Value) : Option ℤ := (value.mapGetInt 3).bind Value.asInt

/-- Where a key of the type has its private part. -/
def privateLabel (kty : ℤ) : Option ℤ :=
  if kty = 1 ∨ kty = 2 then some (-4) else if kty = 7 then some (-2) else none

/-- The map has an entry under the private label of its key type. -/
def CarriesPrivate (value : Value) : Prop :=
  ∃ kty label, keyType value = some kty ∧ privateLabel kty = some label ∧
    (value.mapGetInt label).isSome = true

/-- A parsed key whose map still has a private part. -/
def Retains (key : CoseKey) : Prop := CarriesPrivate key.toValue

/-- The identifiers that are resolved to an algorithm. -/
def resolvedIds : List ℤ := [-7, -9, -8, -19, -48, -49, -50, -25]

/-- The parser of the keys of an algorithm. -/
def keyOf (algorithm : CoseAlgorithm) (kty : ℤ) (value : Value) : Except Error CoseKey :=
  match algorithm with
  | .es256 => p256Key .es256 kty value
  | .ecdhEsHkdf256 => p256Key .ecdhEsHkdf256 kty value
  | .ed25519 => ed25519Key kty value
  | .mlDsa44 => mlDsaKey .mlDsa44 kty value
  | .mlDsa65 => mlDsaKey .mlDsa65 kty value
  | .mlDsa87 => mlDsaKey .mlDsa87 kty value
  | .unknown _ => .ok (.unknown value)

/-- A map from which a private component can never be taken over. -/
structure PrivateRejected (value : Value) : Prop where
  refused : CarriesPrivate value → CoseKey.fromValue value = .error invalid
  key : ∀ key, CoseKey.fromValue value = .ok key → ¬ Retains key
  attested : ∀ bytes p q d a, AuthenticatorData.parse bytes = .ok d → Divides bytes p d →
    p.attested = some q → Strict q.key value → d.attestedCredentialData = some a →
    ¬ Retains a.credentialPublicKey
  entry : ∀ v e key, v.mapGetInt 8 = some value → parseCredentialEntry v = .ok e →
    e.publicKey = some key → ¬ Retains key

section key

variable {value : Value} {kty id : ℤ} {algorithm : CoseAlgorithm} {key : CoseKey}

theorem fromId_resolved (h : id ∈ resolvedIds) (n : ℤ) : CoseAlgorithm.fromId id ≠ .unknown n := by
  intro hn
  simp only [resolvedIds, List.mem_cons, List.not_mem_nil, or_false] at h
  rcases h with rfl | rfl | rfl | rfl | rfl | rfl | rfl | rfl <;> cases hn

theorem fromId_unresolved (h : id ∉ resolvedIds) : CoseAlgorithm.fromId id = .unknown id := by
  simp only [resolvedIds, List.mem_cons, List.not_mem_nil, or_false, not_or] at h
  simp [CoseAlgorithm.fromId, h]

theorem fromValue_eq (hmap : value.asMap.isSome = true) (hkty : keyType value = some kty)
    (hid : algorithmId value = some id) :
    CoseKey.fromValue value = keyOf (CoseAlgorithm.fromId id) kty value := by
  obtain ⟨entries, hentries⟩ := Option.isSome_iff_exists.mp hmap
  rw [keyType] at hkty
  rw [algorithmId] at hid
  rw [CoseKey.fromValue, hentries, hkty, hid]
  rfl

theorem carriesPrivate_iff (hkty : keyType value = some kty) :
    CarriesPrivate value ↔
      ((kty = 1 ∨ kty = 2) ∧ (value.mapGetInt (-4)).isSome = true) ∨
        (kty = 7 ∧ (value.mapGetInt (-2)).isSome = true) := by
  constructor
  · rintro ⟨k, label, hk, hlabel, hsome⟩
    cases hkty.symm.trans hk
    unfold privateLabel at hlabel
    split_ifs at hlabel with hec hakp
    · cases hlabel
      exact Or.inl ⟨hec, hsome⟩
    · cases hlabel
      exact Or.inr ⟨hakp, hsome⟩
  · rintro (⟨hec, hsome⟩ | ⟨rfl, hsome⟩)
    · exact ⟨kty, -4, hkty, if_pos hec, hsome⟩
    · exact ⟨7, -2, hkty, rfl, hsome⟩

/-- Each resolved algorithm refuses the private label of its own key type and every other type. -/
theorem keyOf_refuses (hres : ∀ n, algorithm ≠ .unknown n) (hkty : keyType value = some kty)
    (h : CarriesPrivate value) : keyOf algorithm kty value = .error invalid := by
  rw [carriesPrivate_iff hkty] at h
  have hp256 : kty ≠ 2 ∨ (value.mapGetInt (-4)).isSome = true := by
    rcases h with ⟨_, hsome⟩ | ⟨rfl, _⟩
    · exact Or.inr hsome
    · exact Or.inl (by decide)
  have hokp : kty ≠ 1 ∨ (value.mapGetInt (-4)).isSome = true := by
    rcases h with ⟨_, hsome⟩ | ⟨rfl, _⟩
    · exact Or.inr hsome
    · exact Or.inl (by decide)
  have hakp : kty ≠ 7 ∨ (value.mapGetInt (-2)).isSome = true := by
    rcases h with ⟨rfl | rfl, _⟩ | ⟨_, hsome⟩
    · exact Or.inl (by decide)
    · exact Or.inl (by decide)
    · exact Or.inr hsome
  cases algorithm with
  | es256 | ecdhEsHkdf256 => exact if_pos hp256
  | ed25519 => exact if_pos hokp
  | mlDsa44 | mlDsa65 | mlDsa87 => exact if_pos hakp
  | unknown n => exact absurd rfl (hres n)

theorem p256_public (x y : {b : Bytes // b.length = 32}) : ¬ Retains (.p256 algorithm x y) := by
  rw [Retains, carriesPrivate_iff (show keyType _ = some 2 from rfl)]
  rintro (⟨_, hsome⟩ | ⟨hseven, _⟩)
  · exact absurd hsome Bool.false_ne_true
  · exact absurd hseven (by decide)

theorem ed25519_public (x : {b : Bytes // b.length = 32}) : ¬ Retains (.ed25519 x) := by
  rw [Retains, carriesPrivate_iff (show keyType _ = some 1 from rfl)]
  rintro (⟨_, hsome⟩ | ⟨hseven, _⟩)
  · exact absurd hsome Bool.false_ne_true
  · exact absurd hseven (by decide)

theorem mlDsa_public (bytes : Bytes) : ¬ Retains (.mlDsa algorithm bytes) := by
  rw [Retains, carriesPrivate_iff (show keyType _ = some 7 from rfl)]
  rintro (⟨hec, _⟩ | ⟨_, hsome⟩)
  · exact absurd hec (by decide)
  · exact absurd hsome Bool.false_ne_true

/-- What a resolved algorithm returns has only the labels that it has read. -/
theorem keyOf_public (hres : ∀ n, algorithm ≠ .unknown n) :
    Ensures (keyOf algorithm kty value) fun key => ¬ Retains key := by
  have hp256 (algorithm : CoseAlgorithm) :
      Ensures (p256Key algorithm kty value) fun key => ¬ Retains key := by
    apply Ensures.guarded
    intro _
    apply Ensures.after
    intro crv
    apply Ensures.after
    intro x
    apply Ensures.after
    intro y
    apply Ensures.guarded
    intro _
    exact ensures_ok.mpr (p256_public x y)
  have hakp (algorithm : CoseAlgorithm) :
      Ensures (mlDsaKey algorithm kty value) fun key => ¬ Retains key := by
    apply Ensures.guarded
    intro _
    apply Ensures.after
    intro bytes
    apply Ensures.guarded
    intro _
    exact ensures_ok.mpr (mlDsa_public bytes)
  cases algorithm with
  | es256 => exact hp256 .es256
  | ecdhEsHkdf256 => exact hp256 .ecdhEsHkdf256
  | mlDsa44 => exact hakp .mlDsa44
  | mlDsa65 => exact hakp .mlDsa65
  | mlDsa87 => exact hakp .mlDsa87
  | unknown n => exact absurd rfl (hres n)
  | ed25519 =>
    apply Ensures.guarded
    intro _
    apply Ensures.after
    intro crv
    apply Ensures.after
    intro x
    apply Ensures.guarded
    intro _
    exact ensures_ok.mpr (ed25519_public x)

/-- What is read from a map without a private part has none either. -/
theorem public_of_fromValue (hkty : keyType value = some kty) (hid : algorithmId value = some id)
    (hmap : value.asMap.isSome = true) (h : id ∈ resolvedIds ∨ ¬ CarriesPrivate value)
    (hkey : CoseKey.fromValue value = .ok key) : ¬ Retains key := by
  rw [fromValue_eq hmap hkty hid] at hkey
  by_cases hres : id ∈ resolvedIds
  · exact keyOf_public (fromId_resolved hres) key hkey
  · rw [fromId_unresolved hres] at hkey
    cases hkey
    exact h.resolve_left hres

end key

/-- The key of an attested credential is the one that its bytes hold. -/
theorem attested_key {bytes : Bytes} {p : Parts} {q : AttestedParts} {d : AuthenticatorData}
    {a : AttestedCredentialData} {value : Value} (h : Divides bytes p d)
    (hp : p.attested = some q) (hq : Strict q.key value)
    (ha : d.attestedCredentialData = some a) :
    CoseKey.fromValue value = .ok a.credentialPublicKey := by
  have hpresent := h.attested
  rw [hp, ha] at hpresent
  cases hpresent with
  | present _ hreads =>
    obtain ⟨v, hv, hkey⟩ := hreads.key
    obtain ⟨hwire, hgood⟩ := strict_iff.mp hv
    obtain ⟨hwire', hgood'⟩ := strict_iff.mp hq
    have happend := congrArg (fun bytes : Bytes => bytes ++ []) (hwire'.symm.trans hwire)
    obtain ⟨rfl, _⟩ := wire_determined hgood'.storable hgood.storable happend
    exact hkey

/-- The public key of an entry is the one under its label. -/
theorem entry_key {v value : Value} {e : CredentialEntry} {key : CoseKey}
    (hv : v.mapGetInt 8 = some value) (he : parseCredentialEntry v = .ok e)
    (hkey : e.publicKey = some key) : CoseKey.fromValue value = .ok key := by
  simp only [parseCredentialEntry] at he
  obtain ⟨_, _, he⟩ := bind_eq_ok.mp he
  obtain ⟨user, _, he⟩ := bind_eq_ok.mp he
  obtain ⟨found, _, he⟩ := bind_eq_ok.mp he
  obtain ⟨id, _, he⟩ := bind_eq_ok.mp he
  obtain ⟨publicKey, hpublic, he⟩ := bind_eq_ok.mp he
  obtain ⟨algorithm, _, he⟩ := bind_eq_ok.mp he
  split_ifs at he
  obtain ⟨protection, _, he⟩ := bind_eq_ok.mp he
  obtain ⟨blob, _, he⟩ := bind_eq_ok.mp he
  cases he
  dsimp only at hkey
  subst hkey
  simp only [CtapCredentialManagement.optional, hv] at hpublic
  obtain ⟨k, hk, hsome⟩ := map_eq_ok.mp hpublic
  cases hsome
  exact hk

/-- A private component is refused, and retained nowhere, exactly where the algorithm is resolved
or there is none. -/
theorem private_keys_rejected_iff {value : Value} {kty id : ℤ}
    (hmap : value.asMap.isSome = true) (hkty : keyType value = some kty)
    (hid : algorithmId value = some id) :
    PrivateRejected value ↔ id ∈ resolvedIds ∨ ¬ CarriesPrivate value := by
  constructor
  · intro h
    by_contra hno
    push Not at hno
    obtain ⟨hres, hprivate⟩ := hno
    have hrefused := h.refused hprivate
    rw [fromValue_eq hmap hkty hid, fromId_unresolved hres] at hrefused
    cases hrefused
  · intro h
    have hpublic : ∀ key, CoseKey.fromValue value = .ok key → ¬ Retains key :=
      fun key => public_of_fromValue hkty hid hmap h
    refine ⟨?_, hpublic, ?_, ?_⟩
    · intro hprivate
      have hres := h.resolve_right (not_not.mpr hprivate)
      rw [fromValue_eq hmap hkty hid]
      exact keyOf_refuses (fromId_resolved hres) hkty hprivate
    · intro bytes p q d a _ hd hp hq ha
      exact hpublic _ (attested_key hd hp hq ha)
    · intro v e key hv he hkey
      exact hpublic _ (entry_key hv he hkey)

/-- An EC2 key of an unassigned algorithm, with its private part. -/
def unassignedKey : Value :=
  .map [(.fromInt 1, .fromInt 2), (.fromInt 3, .fromInt (-65535)), (.fromInt (-4), .bytes [7])]

theorem private_keys_rejected_iff_unassigned :
    PrivateRejected unassignedKey ↔
      (-65535 : ℤ) ∈ resolvedIds ∨ ¬ CarriesPrivate unassignedKey :=
  private_keys_rejected_iff rfl rfl rfl

/-- The key type is EC2 and label -4 is there, and the map is returned as a key. -/
theorem private_key_retained :
    ¬ ∀ value kty id, value.asMap.isSome = true → keyType value = some kty →
      algorithmId value = some id → CarriesPrivate value →
      ∃ e, CoseKey.fromValue value = .error e := by
  intro h
  obtain ⟨e, he⟩ := h unassignedKey 2 (-65535) rfl rfl rfl ⟨2, -4, rfl, rfl, rfl⟩
  cases he

end CtapPrivateKeys
