import Mathlib.Data.List.Nodup
import LibCanokey.CtapCborCanonical
import LibCanokey.CtapPrivateKeys

/-! # What a COSE key is read from

Only the entries under a few integer labels decide a key, in whatever order they stand, and its own
map has them again. -/
namespace CtapCoseReading

open BigEndian CheckedCursor KeyedSorting ListTraversal ProtocolError FallibleResults
open CtapCbor CtapCborLanguage CtapCborParser CtapCborCanonical CtapCose
open CtapPrivateKeys

/-- The integers of the source's `i64`. -/
def IsI64 (n : ℤ) : Prop := -2 ^ 63 ≤ n ∧ n < 2 ^ 63

theorem asInt_fromInt {n : ℤ} (h : IsI64 n) : (Value.fromInt n).asInt = some n := by
  obtain ⟨hlow, hhigh⟩ := h
  by_cases hn : 0 ≤ n
  · have hlt : n.toNat < 2 ^ 64 := by omega
    have hnat : (UInt64.ofNat n.toNat).toNat = n.toNat := UInt64.toNat_ofNat_of_lt' hlt
    have hle : n.toNat ≤ i64Max := by
      simp only [i64Max]
      omega
    rw [Value.fromInt, if_pos hn, Value.asInt, hnat, if_pos hle, Int.toNat_of_nonneg hn]
  · have hlt : (-(n + 1)).toNat < 2 ^ 64 := by omega
    have hnat : (UInt64.ofNat (-(n + 1)).toNat).toNat = (-(n + 1)).toNat :=
      UInt64.toNat_ofNat_of_lt' hlt
    have hle : (-(n + 1)).toNat ≤ i64Max := by
      simp only [i64Max]
      omega
    rw [Value.fromInt, if_neg hn, Value.asInt, hnat, if_pos hle, Int.toNat_of_nonneg (by omega)]
    congr 1
    omega

theorem fromId_id (n : ℤ) : CoseAlgorithm.fromId (CoseAlgorithm.fromId n).id =
    CoseAlgorithm.fromId n := by
  by_cases h : n ∈ resolvedIds
  · simp only [resolvedIds, List.mem_cons, List.not_mem_nil, or_false] at h
    rcases h with rfl | rfl | rfl | rfl | rfl | rfl | rfl | rfl <;> decide
  · rw [fromId_unresolved h]
    exact fromId_unresolved h

section lookup

variable {es fs : List (Value × Value)} {n : ℤ} {x : Value}

/-- With distinct keys, the entry under a label is the one with that key. -/
theorem mapGetInt_eq_some (h : (es.map Prod.fst).Nodup) :
    (Value.map es).mapGetInt n = some x ↔ (Value.fromInt n, x) ∈ es := by
  have hget : (Value.map es).mapGetInt n =
      (es.find? fun entry => entry.1 = Value.fromInt n).bind fun entry => some entry.2 := rfl
  rw [hget, Option.bind_eq_some_iff]
  constructor
  · rintro ⟨entry, hfind, hx⟩
    have hkey : entry.1 = Value.fromInt n := by simpa using List.find?_some hfind
    have hmem := List.mem_of_find?_eq_some hfind
    cases hx
    rwa [← hkey]
  · intro hmem
    cases hfind : es.find? fun entry => entry.1 = Value.fromInt n with
    | none => exact absurd (List.find?_eq_none.mp hfind _ hmem) (by simp)
    | some entry =>
      have hkey : entry.1 = Value.fromInt n := by simpa using List.find?_some hfind
      have hsame := List.inj_on_of_nodup_map h (List.mem_of_find?_eq_some hfind) hmem hkey
      exact ⟨entry, rfl, by rw [hsame]⟩

theorem mapGetInt_perm (hp : es.Perm fs) (h : (es.map Prod.fst).Nodup) (n : ℤ) :
    (Value.map es).mapGetInt n = (Value.map fs).mapGetInt n := by
  have h' : (fs.map Prod.fst).Nodup := (hp.map Prod.fst).nodup_iff.mp h
  ext x
  exact (mapGetInt_eq_some h).trans (hp.mem_iff.trans (mapGetInt_eq_some h').symm)

/-- An entry whose key is no `i64` is never found under a label. -/
theorem mapGetInt_outside {key : Value} (hkey : key.asInt = none) (hn : IsI64 n)
    (before after : List (Value × Value)) (x : Value) :
    (Value.map (before ++ (key, x) :: after)).mapGetInt n =
      (Value.map (before ++ after)).mapGetInt n := by
  have hne : ¬ key = Value.fromInt n := by
    intro heq
    rw [heq, asInt_fromInt hn] at hkey
    cases hkey
  have hget (es : List (Value × Value)) : (Value.map es).mapGetInt n =
      (es.find? fun entry => entry.1 = Value.fromInt n).bind fun entry => some entry.2 := rfl
  rw [hget, hget, List.find?_append, List.find?_append, List.find?_cons_of_neg (by simpa using hne)]

end lookup

/-- What the parser reads of two maps is the same under every label. -/
structure SameLabels (v w : Value) : Prop where
  map : v.asMap.isSome = w.asMap.isSome
  int : ∀ n, (v.mapGetInt n).bind Value.asInt = (w.mapGetInt n).bind Value.asInt
  bytes : ∀ n, (v.mapGetInt n).bind Value.asBytes = (w.mapGetInt n).bind Value.asBytes
  some : ∀ n, (v.mapGetInt n).isSome = (w.mapGetInt n).isSome

theorem SameLabels.symm {v w : Value} (h : SameLabels v w) : SameLabels w v :=
  ⟨h.map.symm, fun n => (h.int n).symm, fun n => (h.bytes n).symm, fun n => (h.some n).symm⟩

/-- The entries that each kind of key is read from. -/
inductive Reads (v : Value) : CoseKey → Prop where
  | p256 {id : ℤ} {x y : {b : Bytes // b.length = 32}} (kty : keyType v = some 2)
      (alg : algorithmId v = some id)
      (resolved : CoseAlgorithm.fromId id = .es256 ∨ CoseAlgorithm.fromId id = .ecdhEsHkdf256)
      (lone : (v.mapGetInt (-4)).isSome = false)
      (crv : (v.mapGetInt (-1)).bind Value.asInt = some 1)
      (hx : (v.mapGetInt (-2)).bind Value.asBytes = some x.1)
      (hy : (v.mapGetInt (-3)).bind Value.asBytes = some y.1) :
      Reads v (.p256 (CoseAlgorithm.fromId id) x y)
  | ed25519 {id : ℤ} {x : {b : Bytes // b.length = 32}} (kty : keyType v = some 1)
      (alg : algorithmId v = some id) (resolved : CoseAlgorithm.fromId id = .ed25519)
      (lone : (v.mapGetInt (-4)).isSome = false)
      (crv : (v.mapGetInt (-1)).bind Value.asInt = some 6)
      (hx : (v.mapGetInt (-2)).bind Value.asBytes = some x.1) : Reads v (.ed25519 x)
  | mlDsa {id : ℤ} {key : Bytes} (kty : keyType v = some 7) (alg : algorithmId v = some id)
      (resolved : CoseAlgorithm.fromId id ∈ [.mlDsa44, .mlDsa65, .mlDsa87])
      (lone : (v.mapGetInt (-2)).isSome = false)
      (hkey : (v.mapGetInt (-1)).bind Value.asBytes = some key)
      (len : key.length = (CoseAlgorithm.fromId id).mlDsaLen) :
      Reads v (.mlDsa (CoseAlgorithm.fromId id) key)
  | unknown {kty id n : ℤ} (kty : keyType v = some kty) (alg : algorithmId v = some id)
      (unresolved : CoseAlgorithm.fromId id = .unknown n) : Reads v (.unknown v)

section reads

variable {v w : Value} {k : CoseKey} {kty : ℤ}

theorem fixedBytes_eq_ok {value : Option Value} {x : {b : Bytes // b.length = 32}} :
    fixedBytes value = .ok x ↔ value.bind Value.asBytes = some x.1 := by
  unfold fixedBytes
  constructor
  · intro h
    obtain ⟨bytes, hbytes, h⟩ := bind_eq_ok.mp h
    split_ifs at h
    cases h
    exact required_eq_ok.mp hbytes
  · intro h
    apply bind_eq_ok.mpr
    refine ⟨x.1, required_eq_ok.mpr h, ?_⟩
    rw [dif_pos x.2]

theorem p256Key_eq_ok {algorithm : CoseAlgorithm} : p256Key algorithm kty v = .ok k ↔
    (kty = 2 ∧ (v.mapGetInt (-4)).isSome = false) ∧
      (v.mapGetInt (-1)).bind Value.asInt = some 1 ∧
      ∃ x y : {b : Bytes // b.length = 32}, (v.mapGetInt (-2)).bind Value.asBytes = some x.1 ∧
        (v.mapGetInt (-3)).bind Value.asBytes = some y.1 ∧ k = .p256 algorithm x y := by
  unfold p256Key
  constructor
  · intro h
    split_ifs at h with hrefused
    push Not at hrefused
    obtain ⟨crv, hcrv, h⟩ := bind_eq_ok.mp h
    obtain ⟨x, hx, h⟩ := bind_eq_ok.mp h
    obtain ⟨y, hy, h⟩ := bind_eq_ok.mp h
    split_ifs at h with hone
    have hone : crv = 1 := not_not.mp hone
    cases h
    subst hone
    exact ⟨⟨hrefused.1, Bool.eq_false_iff.mpr hrefused.2⟩, required_eq_ok.mp hcrv, x, y,
      fixedBytes_eq_ok.mp hx, fixedBytes_eq_ok.mp hy, rfl⟩
  · rintro ⟨⟨rfl, hlone⟩, hcrv, x, y, hx, hy, rfl⟩
    rw [if_neg (by simp [hlone])]
    exact bind_eq_ok.mpr ⟨1, required_eq_ok.mpr hcrv, bind_eq_ok.mpr ⟨x, fixedBytes_eq_ok.mpr hx,
      bind_eq_ok.mpr ⟨y, fixedBytes_eq_ok.mpr hy, rfl⟩⟩⟩

theorem ed25519Key_eq_ok : ed25519Key kty v = .ok k ↔
    (kty = 1 ∧ (v.mapGetInt (-4)).isSome = false) ∧
      (v.mapGetInt (-1)).bind Value.asInt = some 6 ∧
      ∃ x : {b : Bytes // b.length = 32}, (v.mapGetInt (-2)).bind Value.asBytes = some x.1 ∧
        k = .ed25519 x := by
  unfold ed25519Key
  constructor
  · intro h
    split_ifs at h with hrefused
    push Not at hrefused
    obtain ⟨crv, hcrv, h⟩ := bind_eq_ok.mp h
    obtain ⟨x, hx, h⟩ := bind_eq_ok.mp h
    split_ifs at h with hsix
    have hsix : crv = 6 := not_not.mp hsix
    cases h
    subst hsix
    exact ⟨⟨hrefused.1, Bool.eq_false_iff.mpr hrefused.2⟩, required_eq_ok.mp hcrv, x,
      fixedBytes_eq_ok.mp hx, rfl⟩
  · rintro ⟨⟨rfl, hlone⟩, hcrv, x, hx, rfl⟩
    rw [if_neg (by simp [hlone])]
    exact bind_eq_ok.mpr ⟨6, required_eq_ok.mpr hcrv, bind_eq_ok.mpr ⟨x, fixedBytes_eq_ok.mpr hx,
      rfl⟩⟩

theorem mlDsaKey_eq_ok {algorithm : CoseAlgorithm} : mlDsaKey algorithm kty v = .ok k ↔
    (kty = 7 ∧ (v.mapGetInt (-2)).isSome = false) ∧
      ∃ key : Bytes, (v.mapGetInt (-1)).bind Value.asBytes = some key ∧
        key.length = algorithm.mlDsaLen ∧ k = .mlDsa algorithm key := by
  unfold mlDsaKey
  constructor
  · intro h
    split_ifs at h with hrefused
    push Not at hrefused
    obtain ⟨key, hkey, h⟩ := bind_eq_ok.mp h
    split_ifs at h with hlen
    cases h
    exact ⟨⟨hrefused.1, Bool.eq_false_iff.mpr hrefused.2⟩, key, required_eq_ok.mp hkey,
      not_not.mp hlen, rfl⟩
  · rintro ⟨⟨rfl, hlone⟩, key, hkey, hlen, rfl⟩
    rw [if_neg (by simp [hlone])]
    exact bind_eq_ok.mpr ⟨key, required_eq_ok.mpr hkey, if_neg (not_not.mpr hlen)⟩

/-- The key of an algorithm, from the entries of its own kind. -/
theorem keyOf_reads {id : ℤ} (hkty : keyType v = some kty) (halg : algorithmId v = some id) :
    keyOf (CoseAlgorithm.fromId id) kty v = .ok k ↔ Reads v k := by
  constructor
  · intro h
    cases hid : CoseAlgorithm.fromId id with
    | es256 | ecdhEsHkdf256 =>
      rw [hid] at h
      obtain ⟨⟨rfl, hlone⟩, hcrv, x, y, hx, hy, rfl⟩ := p256Key_eq_ok.mp h
      rw [← hid]
      exact .p256 hkty halg (by simp [hid]) hlone hcrv hx hy
    | ed25519 =>
      rw [hid] at h
      obtain ⟨⟨rfl, hlone⟩, hcrv, x, hx, rfl⟩ := ed25519Key_eq_ok.mp h
      exact .ed25519 hkty halg hid hlone hcrv hx
    | mlDsa44 | mlDsa65 | mlDsa87 =>
      rw [hid] at h
      obtain ⟨⟨rfl, hlone⟩, key, hkey, hlen, rfl⟩ := mlDsaKey_eq_ok.mp h
      rw [← hid] at hlen ⊢
      exact .mlDsa hkty halg (by simp [hid]) hlone hkey hlen
    | unknown n =>
      rw [hid] at h
      cases h
      exact .unknown hkty halg hid
  · intro h
    cases h with
    | p256 hkty' halg' hid hlone hcrv hx hy =>
      cases hkty.symm.trans hkty'
      cases halg.symm.trans halg'
      have hread : p256Key (CoseAlgorithm.fromId id) 2 v = .ok _ :=
        p256Key_eq_ok.mpr ⟨⟨rfl, hlone⟩, hcrv, _, _, hx, hy, rfl⟩
      rcases hid with hid | hid <;> rw [hid] at hread ⊢ <;> exact hread
    | ed25519 hkty' halg' hid hlone hcrv hx =>
      cases hkty.symm.trans hkty'
      cases halg.symm.trans halg'
      rw [hid]
      exact ed25519Key_eq_ok.mpr ⟨⟨rfl, hlone⟩, hcrv, _, hx, rfl⟩
    | mlDsa hkty' halg' hid hlone hkey hlen =>
      cases hkty.symm.trans hkty'
      cases halg.symm.trans halg'
      have hread : mlDsaKey (CoseAlgorithm.fromId id) 7 v = .ok _ :=
        mlDsaKey_eq_ok.mpr ⟨⟨rfl, hlone⟩, _, hkey, hlen, rfl⟩
      simp only [List.mem_cons, List.not_mem_nil, or_false] at hid
      rcases hid with hid | hid | hid <;> rw [hid] at hread ⊢ <;> exact hread
    | unknown hkty' halg' hid =>
      cases halg.symm.trans halg'
      rw [hid]
      rfl

theorem asMap_of_label {n m : ℤ} (h : (v.mapGetInt n).bind Value.asInt = some m) :
    v.asMap.isSome = true := by
  obtain ⟨x, hx, _⟩ := Option.bind_eq_some_iff.mp h
  obtain ⟨entries, hentries, _⟩ := Option.bind_eq_some_iff.mp hx
  rw [hentries]
  rfl

theorem Reads.labels (h : Reads v k) :
    ∃ kty id, keyType v = some kty ∧ algorithmId v = some id := by
  cases h with
  | p256 hkty halg | ed25519 hkty halg | mlDsa hkty halg | unknown hkty halg =>
    exact ⟨_, _, hkty, halg⟩

theorem reads_iff : CoseKey.fromValue v = .ok k ↔ Reads v k := by
  constructor
  · intro h
    have hopen := h
    unfold CoseKey.fromValue at hopen
    obtain ⟨_, _, hopen⟩ := bind_eq_ok.mp hopen
    obtain ⟨kty, hkty, hopen⟩ := bind_eq_ok.mp hopen
    obtain ⟨id, halg, _⟩ := bind_eq_ok.mp hopen
    have hkty : keyType v = some kty := required_eq_ok.mp hkty
    have halg : algorithmId v = some id := required_eq_ok.mp halg
    rw [fromValue_eq (asMap_of_label hkty) hkty halg] at h
    exact (keyOf_reads hkty halg).mp h
  · intro h
    obtain ⟨kty, id, hkty, halg⟩ := h.labels
    rw [fromValue_eq (asMap_of_label hkty) hkty halg]
    exact (keyOf_reads hkty halg).mpr h

theorem required_error {α : Type} {x : Option α} {e : Error} (h : required x = .error e) :
    e = invalid := by
  cases x with
  | none =>
    cases h
    rfl
  | some a => cases h

theorem fixedBytes_error {value : Option Value} {e : Error} (h : fixedBytes value = .error e) :
    e = invalid := by
  unfold fixedBytes at h
  rcases bind_eq_error.mp h with h | ⟨bytes, _, h⟩
  · exact required_error h
  · split_ifs at h
    cases h
    rfl

/-- There is one error, whatever is wrong with the map. -/
theorem keyOf_error {algorithm : CoseAlgorithm} {e : Error} (h : keyOf algorithm kty v = .error e) :
    e = invalid := by
  have refused {c : Prop} [Decidable c] {x : Except Error CoseKey}
      (hx : x = .error e → e = invalid) (h : (if c then .error invalid else x) = .error e) :
      e = invalid := by
    split_ifs at h
    · cases h
      rfl
    · exact hx h
  have hp256 {algorithm : CoseAlgorithm} (h : p256Key algorithm kty v = .error e) :
      e = invalid := by
    apply refused _ h
    intro h
    rcases bind_eq_error.mp h with h | ⟨crv, _, h⟩
    · exact required_error h
    rcases bind_eq_error.mp h with h | ⟨x, _, h⟩
    · exact fixedBytes_error h
    rcases bind_eq_error.mp h with h | ⟨y, _, h⟩
    · exact fixedBytes_error h
    apply refused _ h
    intro h
    cases h
  have hakp {algorithm : CoseAlgorithm} (h : mlDsaKey algorithm kty v = .error e) :
      e = invalid := by
    apply refused _ h
    intro h
    rcases bind_eq_error.mp h with h | ⟨key, _, h⟩
    · exact required_error h
    apply refused _ h
    intro h
    cases h
  cases algorithm with
  | es256 | ecdhEsHkdf256 => exact hp256 h
  | mlDsa44 | mlDsa65 | mlDsa87 => exact hakp h
  | unknown n => cases h
  | ed25519 =>
    apply refused _ h
    intro h
    rcases bind_eq_error.mp h with h | ⟨crv, _, h⟩
    · exact required_error h
    rcases bind_eq_error.mp h with h | ⟨x, _, h⟩
    · exact fixedBytes_error h
    apply refused _ h
    intro h
    cases h

theorem fromValue_error {e : Error} (h : CoseKey.fromValue v = .error e) : e = invalid := by
  have hopen := h
  unfold CoseKey.fromValue at hopen
  rcases bind_eq_error.mp hopen with hopen | ⟨_, _, hopen⟩
  · exact required_error hopen
  rcases bind_eq_error.mp hopen with hopen | ⟨kty, hkty, hopen⟩
  · exact required_error hopen
  rcases bind_eq_error.mp hopen with hopen | ⟨id, halg, _⟩
  · exact required_error hopen
  have hkty : keyType v = some kty := required_eq_ok.mp hkty
  have halg : algorithmId v = some id := required_eq_ok.mp halg
  rw [fromValue_eq (asMap_of_label hkty) hkty halg] at h
  exact keyOf_error h

/-- A key gives back what it was read from: its map has the same entries under the labels. -/
theorem reads_toValue (h : Reads v k) : Reads k.toValue k := by
  cases h with
  | @p256 id x y _ _ hid =>
    have hread (id : ℤ) (hid : id = -7 ∨ id = -25) :
        Reads (CoseKey.toValue (.p256 (CoseAlgorithm.fromId id) x y))
          (.p256 (CoseAlgorithm.fromId id) x y) := by
      rcases hid with rfl | rfl
      · exact .p256 rfl rfl (Or.inl rfl) rfl rfl rfl rfl
      · exact .p256 rfl rfl (Or.inr rfl) rfl rfl rfl rfl
    rcases hid with hid | hid <;> rw [hid]
    · exact hread (-7) (Or.inl rfl)
    · exact hread (-25) (Or.inr rfl)
  | @ed25519 id x =>
    have halg : algorithmId (CoseKey.toValue (.ed25519 x)) = some (-8) := rfl
    exact .ed25519 rfl halg rfl rfl rfl rfl
  | @mlDsa id key _ _ hid _ _ hlen =>
    have hread (id : ℤ) (hid : id = -48 ∨ id = -49 ∨ id = -50)
        (hlen : key.length = (CoseAlgorithm.fromId id).mlDsaLen) :
        Reads (CoseKey.toValue (.mlDsa (CoseAlgorithm.fromId id) key))
          (.mlDsa (CoseAlgorithm.fromId id) key) := by
      rcases hid with rfl | rfl | rfl <;> exact .mlDsa rfl rfl (by decide) rfl rfl hlen
    simp only [List.mem_cons, List.not_mem_nil, or_false] at hid
    rcases hid with hid | hid | hid <;> rw [hid] at hlen ⊢
    · exact hread (-48) (Or.inl rfl) hlen
    · exact hread (-49) (Or.inr (Or.inl rfl)) hlen
    · exact hread (-50) (Or.inr (Or.inr rfl)) hlen
  | unknown hkty halg hid => exact .unknown hkty halg hid

end reads

/-- The key with another map, if it keeps one. -/
def rename (w : Value) : CoseKey → CoseKey
  | .unknown _ => .unknown w
  | key => key

section labels

variable {v w : Value} {k : CoseKey}

theorem Reads.congr (h : SameLabels v w) (hk : Reads v k) : Reads w (rename w k) := by
  cases hk with
  | p256 hkty halg hid hlone hcrv hx hy =>
    exact .p256 ((h.int 1).symm.trans hkty) ((h.int 3).symm.trans halg) hid
      ((h.some _).symm.trans hlone) ((h.int _).symm.trans hcrv) ((h.bytes _).symm.trans hx)
      ((h.bytes _).symm.trans hy)
  | ed25519 hkty halg hid hlone hcrv hx =>
    exact .ed25519 ((h.int 1).symm.trans hkty) ((h.int 3).symm.trans halg) hid
      ((h.some _).symm.trans hlone) ((h.int _).symm.trans hcrv) ((h.bytes _).symm.trans hx)
  | mlDsa hkty halg hid hlone hkey hlen =>
    exact .mlDsa ((h.int 1).symm.trans hkty) ((h.int 3).symm.trans halg) hid
      ((h.some _).symm.trans hlone) ((h.bytes _).symm.trans hkey) hlen
  | unknown hkty halg hid =>
    exact .unknown ((h.int 1).symm.trans hkty) ((h.int 3).symm.trans halg) hid

end labels

/-- Equality up to the order of entries in a map that the key keeps. -/
inductive SameKey : CoseKey → CoseKey → Prop where
  | refl (k) : SameKey k k
  | kept {v w} : Reordered v w → SameKey (.unknown v) (.unknown w)

inductive SameResult : Except Error CoseKey → Except Error CoseKey → Prop where
  | refused (e) : SameResult (.error e) (.error e)
  | read {k l} : SameKey k l → SameResult (.ok k) (.ok l)

theorem sameKey_rename {v w : Value} {k : CoseKey} (hk : Reads v k) (h : Reordered v w) :
    SameKey k (rename w k) := by
  cases hk with
  | p256 | ed25519 | mlDsa => exact .refl _
  | unknown => exact .kept h

/-- Two orders of one map give the same key. -/
theorem fromValue_reordered {v w : Value} (h : SameLabels v w) (hvw : Reordered v w) :
    SameResult (CoseKey.fromValue v) (CoseKey.fromValue w) := by
  cases hv : CoseKey.fromValue v with
  | ok k =>
    have hk := reads_iff.mp hv
    rw [reads_iff.mpr (hk.congr h)]
    exact .read (sameKey_rename hk hvw)
  | error e =>
    cases hw : CoseKey.fromValue w with
    | ok l =>
      have hread := reads_iff.mpr ((reads_iff.mp hw).congr h.symm)
      rw [hv] at hread
      cases hread
    | error e' =>
      rw [fromValue_error hv, fromValue_error hw]
      exact .refused _

section sort

variable {es : List (Value × Value)} {n : ℤ} {v : Value}

theorem asInt_sort (v : Value) : (sort v).asInt = v.asInt := by
  cases v with
  | array => rw [sort_array]; rfl
  | map => rw [sort_map]; rfl
  | _ => rfl

theorem asBytes_sort (v : Value) : (sort v).asBytes = v.asBytes := by
  cases v with
  | array => rw [sort_array]; rfl
  | map => rw [sort_map]; rfl
  | _ => rfl

theorem scalar_fromInt (n : ℤ) : Scalar (.fromInt n) := by
  unfold Value.fromInt
  split_ifs <;> trivial

theorem sort_eq_fromInt {key : Value} : sort key = .fromInt n ↔ key = .fromInt n := by
  have hscalar := scalar_fromInt n
  constructor
  · intro h
    rw [← h] at hscalar
    cases key with
    | array => rw [sort_array] at hscalar; cases hscalar
    | map => rw [sort_map] at hscalar; cases hscalar
    | _ => exact h
  · intro h
    rw [h, sort_scalar hscalar]

theorem nodup_keys (h : DistinctKeys (.map es)) : (es.map Prod.fst).Nodup := by
  have hnodup : (es.map (canonical ∘ Prod.fst)).Nodup := h.here
  rw [← List.map_map] at hnodup
  exact hnodup.of_map

/-- The entry under a label of the sorted map is the sorted entry under it. -/
theorem mapGetInt_sort (h : DistinctKeys (.map es)) :
    (sort (.map es)).mapGetInt n = ((Value.map es).mapGetInt n).map sort := by
  have hsorted := nodup_keys (sort_map es ▸ distinct_sort h)
  rw [sort_map]
  ext y
  rw [Option.map_eq_some_iff, mapGetInt_eq_some hsorted, mem_sortBy]
  constructor
  · intro hmem
    obtain ⟨⟨key, x⟩, hentry, heq⟩ := List.mem_map.mp hmem
    obtain ⟨hkey, hx⟩ := Prod.mk.inj heq
    obtain rfl : key = .fromInt n := sort_eq_fromInt.mp hkey
    exact ⟨x, (mapGetInt_eq_some (nodup_keys h)).mpr hentry, hx⟩
  · rintro ⟨x, hx, rfl⟩
    apply List.mem_map.mpr
    exact ⟨_, (mapGetInt_eq_some (nodup_keys h)).mp hx, Prod.ext (sort_eq_fromInt.mpr rfl) rfl⟩

theorem sameLabels_sort (h : DistinctKeys (.map es)) : SameLabels (.map es) (sort (.map es)) := by
  refine ⟨?_, ?_, ?_, ?_⟩
  · rw [sort_map]
    rfl
  · intro n
    rw [mapGetInt_sort h]
    cases (Value.map es).mapGetInt n with
    | none => rfl
    | some x => exact (asInt_sort x).symm
  · intro n
    rw [mapGetInt_sort h]
    cases (Value.map es).mapGetInt n with
    | none => rfl
    | some x => exact (asBytes_sort x).symm
  · intro n
    rw [mapGetInt_sort h, Option.isSome_map]

end sort

end CtapCoseReading
