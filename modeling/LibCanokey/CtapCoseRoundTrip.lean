import Mathlib.Algebra.Order.BigOperators.Group.List
import LibCanokey.CtapCborWritten
import LibCanokey.CtapCoseReading

/-! # COSE keys through CBOR

A parsed key is parsed again from the map that it writes and from the encoding of that map. A map
that is kept for an unassigned algorithm has to be one that the parser reads. -/
namespace CtapCoseRoundTrip

open BigEndian CheckedCursor KeyedSorting ListTraversal ProtocolError
open CtapCbor CtapCborLanguage CtapCborParser CtapCborCanonical CtapCborWritten CtapCose
open CtapCoseReading

theorem length_shortestHead_le (major : ℕ) {n : ℕ} (hn : n < 2 ^ 64) :
    (shortestHead major n).length ≤ 9 := by
  obtain ⟨_, h⟩ | ⟨k, hk, _, _, h⟩ := shortestHead_cases major hn
  · rw [h, List.length_singleton]
    decide
  · rw [h, List.length_cons, length_toBeBytes]
    have hpow : 2 ^ k ≤ 2 ^ 3 := Nat.pow_le_pow_right (by decide) (by omega)
    omega

theorem length_wire_le {v : Value} (h : StorableAt v) :
    (wire v).length ≤ 9 + (bodyOf v).length := by
  rw [wire_eq, List.length_append]
  have hhead := length_shortestHead_le (majorOf v) (argumentOf_lt h)
  omega

theorem length_wire_map_le {es : List (Value × Value)} {n : ℕ} (hes : es.length < 2 ^ 64)
    (h : ∀ e ∈ es, (entryWire e).length ≤ n) :
    (wire (.map es)).length ≤ 9 + es.length * n := by
  rw [wire_map, List.length_append, List.length_flatMap]
  have hhead := length_shortestHead_le 5 hes
  have hsum : (es.map fun e => (entryWire e).length).sum ≤ _ * n :=
    List.sum_le_card_nsmul _ n (by
      intro m hm
      obtain ⟨e, he, rfl⟩ := List.mem_map.mp hm
      exact h e he)
  rw [List.length_map] at hsum
  omega

/-- A map under integer labels. -/
def labelled (labels : List (ℤ × Value)) : Value := .map (labels.map fun e => (.fromInt e.1, e.2))

/-- A few labels with values that hold no others. -/
structure Flat (labels : List (ℤ × Value)) : Prop where
  few : labels.length ≤ 5
  distinct : (labels.map fun e => canonical (.fromInt e.1)).Nodup
  values : ∀ e ∈ labels, Scalar e.2 ∧ (bodyOf e.2).length ≤ 2592

section flat

variable {labels : List (ℤ × Value)}

theorem storable_of_body {v : Value} (hs : Scalar v) (h : (bodyOf v).length < 2 ^ 64) :
    StorableAt v := by
  cases v with
  | array | map => cases hs
  | bytes | text => exact h
  | _ => trivial

theorem storable_fromInt (n : ℤ) : StorableAt (.fromInt n) := by
  unfold Value.fromInt
  split_ifs <;> trivial

theorem body_fromInt (n : ℤ) : bodyOf (.fromInt n) = [] := by
  unfold Value.fromInt
  split_ifs <;> rfl

theorem Flat.good (h : Flat labels) : Good maxDepth (labelled labels) := by
  have hfew := h.few
  refine good_map.mpr ⟨?_, ?_, ?_⟩
  · rw [List.length_map]
    omega
  · rw [List.map_map]
    exact h.distinct
  · intro e he
    obtain ⟨label, hlabel, rfl⟩ := List.mem_map.mp he
    obtain ⟨hs, hbody⟩ := h.values label hlabel
    exact ⟨(good_scalar (scalar_fromInt _)).mpr (storable_fromInt _),
      (good_scalar hs).mpr (storable_of_body hs (by omega))⟩

theorem Flat.length (h : Flat labels) : (canonical (labelled labels)).length ≤ usizeMax := by
  have hfew := h.few
  have hentry (label : ℤ × Value) (hlabel : label ∈ labels) :
      (entryWire (sortEntry (.fromInt label.1, label.2))).length ≤ 2610 := by
    obtain ⟨hs, hbody⟩ := h.values label hlabel
    have hkey := length_wire_le (storable_fromInt label.1)
    have hvalue := length_wire_le (storable_of_body hs (by omega))
    rw [body_fromInt, List.length_nil] at hkey
    rw [sortEntry, sort_scalar (scalar_fromInt _), sort_scalar hs, entryWire, List.length_append]
    dsimp only
    omega
  rw [canonical, labelled, sort_map, List.map_map]
  have hperm := @perm_sortBy _ _ keyOrder (fun e : Value × Value => wire e.1)
    (labels.map (sortEntry ∘ fun e => (Value.fromInt e.1, e.2)))
  have hcount := hperm.length_eq
  rw [List.length_map] at hcount
  apply Nat.le_trans (@length_wire_map_le _ 2610 (by omega) _)
  · rw [hcount]
    simp only [usizeMax]
    omega
  · intro e he
    obtain ⟨label, hlabel, rfl⟩ := List.mem_map.mp (hperm.mem_iff.mp he)
    exact hentry label hlabel

end flat

theorem distinct_labels : ([1, 3, -1, -2, -3].map fun n => canonical (.fromInt n)).Nodup := by
  decide

/-- The map of a key that is not kept as it came. -/
theorem toValue_flat {v : Value} {k : CoseKey} (h : Reads v k) :
    (∃ map, k = .unknown map) ∨ ∃ labels, Flat labels ∧ k.toValue = labelled labels := by
  cases h with
  | @p256 id x y =>
    refine Or.inr ⟨[(1, .fromInt 2), (3, .fromInt (CoseAlgorithm.fromId id).id), (-1, .fromInt 1),
      (-2, .bytes x.1), (-3, .bytes y.1)], ⟨Nat.le_refl 5, distinct_labels, ?_⟩, rfl⟩
    intro e he
    simp only [List.mem_cons, List.not_mem_nil, or_false] at he
    rcases he with rfl | rfl | rfl | rfl | rfl
    · exact ⟨trivial, by decide⟩
    · exact ⟨scalar_fromInt _, by rw [body_fromInt]; decide⟩
    · exact ⟨trivial, by decide⟩
    · exact ⟨trivial, by rw [bodyOf, x.2]; decide⟩
    · exact ⟨trivial, by rw [bodyOf, y.2]; decide⟩
  | @ed25519 id x =>
    refine Or.inr ⟨[(1, .fromInt 1), (3, .fromInt CoseAlgorithm.ed25519.id), (-1, .fromInt 6),
      (-2, .bytes x.1)],
      ⟨Nat.le_succ 4, distinct_labels.sublist (List.sublist_append_left _ [_]), ?_⟩, rfl⟩
    intro e he
    simp only [List.mem_cons, List.not_mem_nil, or_false] at he
    rcases he with rfl | rfl | rfl | rfl
    · exact ⟨trivial, by decide⟩
    · exact ⟨trivial, by decide⟩
    · exact ⟨trivial, by decide⟩
    · exact ⟨trivial, by rw [bodyOf, x.2]; decide⟩
  | @mlDsa id key _ _ hid _ _ hlen =>
    refine Or.inr ⟨[(1, .fromInt 7), (3, .fromInt (CoseAlgorithm.fromId id).id), (-1, .bytes key)],
      ⟨Nat.le_add_right 3 2, distinct_labels.sublist (List.sublist_append_left _ [_, _]), ?_⟩,
      rfl⟩
    intro e he
    simp only [List.mem_cons, List.not_mem_nil, or_false] at he
    rcases he with rfl | rfl | rfl
    · exact ⟨trivial, by decide⟩
    · exact ⟨scalar_fromInt _, by rw [body_fromInt]; decide⟩
    · refine ⟨trivial, ?_⟩
      rw [bodyOf, hlen]
      simp only [List.mem_cons, List.not_mem_nil, or_false] at hid
      rcases hid with hid | hid | hid <;> rw [hid] <;> decide
  | unknown => exact Or.inl ⟨v, rfl⟩

/-- What the encoding of a key is parsed as gives the key again. -/
def Reparses (k : CoseKey) : Prop :=
  ∃ out w l, encode k.toValue = .ok out ∧ out.length ≤ usizeMax ∧ parse out = .ok w ∧
    CoseKey.fromValue w = .ok l ∧ SameKey k l

/-- A kept map is no deeper than the parser reads and repeats no key. -/
def Representable : CoseKey → Prop
  | .unknown map => Good maxDepth map ∧ (canonical map).length ≤ usizeMax
  | _ => True

theorem reparses_of_good {k : CoseKey} (hk : CoseKey.fromValue k.toValue = .ok k)
    (h : Good maxDepth k.toValue) (hlen : (canonical k.toValue).length ≤ usizeMax) :
    Reparses k := by
  have hparse : parse (canonical k.toValue) = .ok (sort k.toValue) :=
    (parse_eq_ok hlen).mpr ⟨encodes_iff.mpr ⟨storable_sort h.storable, rfl⟩,
      depth_sort h.depth, distinct_sort h.distinct⟩
  have hresult : SameResult (CoseKey.fromValue k.toValue)
      (CoseKey.fromValue (sort k.toValue)) := by
    cases hmap : k.toValue with
    | map es =>
      rw [hmap] at h
      exact fromValue_reordered (sameLabels_sort h.distinct) (reordered_sort _)
    | _ =>
      rw [hmap] at hk
      cases hk
  rw [hk] at hresult
  cases hl : CoseKey.fromValue (sort k.toValue) with
  | ok l =>
    rw [hl] at hresult
    cases hresult with
    | read hsame => exact ⟨_, _, l, encode_good (le_refl _) h, hlen, hparse, hl, hsame⟩
  | error e =>
    rw [hl] at hresult
    cases hresult

theorem reparses_iff {v : Value} {k : CoseKey} (h : CoseKey.fromValue v = .ok k) :
    Reparses k ↔ Representable k := by
  have hread := reads_iff.mp h
  have hagain := reads_iff.mpr (reads_toValue hread)
  rcases toValue_flat hread with ⟨map, rfl⟩ | ⟨labels, hflat, hvalue⟩
  · constructor
    · rintro ⟨out, w, l, hout, hlen, hw, _⟩
      have hout : encode map = .ok out := hout
      have hwritten := encodeInto_written hout
      have hstorable := hwritten.storable (Nat.lt_of_le_of_lt hlen (by decide))
      have hgood : Good maxDepth map :=
        ⟨hstorable, hwritten.depth, (encoded_parses hout hlen).mp ⟨w, hw⟩⟩
      cases (encode_good (le_refl _) hgood).symm.trans hout
      exact ⟨hgood, hlen⟩
    · rintro ⟨hgood, hlen⟩
      exact reparses_of_good hagain hgood hlen
  · have hgood : Good maxDepth k.toValue := hvalue ▸ hflat.good
    have hlen : (canonical k.toValue).length ≤ usizeMax := hvalue ▸ hflat.length
    refine iff_of_true (reparses_of_good hagain hgood hlen) ?_
    cases hread with
    | p256 | ed25519 | mlDsa => exact trivial
    | unknown => exact ⟨hgood, hlen⟩

theorem fromValue_perm {es fs : List (Value × Value)} (hp : es.Perm fs)
    (h : (es.map Prod.fst).Nodup) :
    SameResult (CoseKey.fromValue (.map es)) (CoseKey.fromValue (.map fs)) := by
  apply fromValue_reordered _ (.entries hp)
  exact ⟨rfl, fun n => by rw [mapGetInt_perm hp h], fun n => by rw [mapGetInt_perm hp h],
    fun n => by rw [mapGetInt_perm hp h]⟩

/-- A parsed key is the key of its own map, and of the parsed encoding of that map exactly when a
kept map is one that the parser reads; the order of entries, the aliases of an algorithm and
integers that are no `i64` make no difference. -/
theorem cose_keys_round_trip :
    (∀ v k, CoseKey.fromValue v = .ok k →
      CoseKey.fromValue k.toValue = .ok k ∧ (Reparses k ↔ Representable k)) ∧
    (∀ es fs : List (Value × Value), es.Perm fs → (es.map Prod.fst).Nodup →
      SameResult (CoseKey.fromValue (.map es)) (CoseKey.fromValue (.map fs))) ∧
    (∀ n, CoseAlgorithm.fromId (CoseAlgorithm.fromId n).id = CoseAlgorithm.fromId n) ∧
    (∀ n, IsI64 n → (Value.fromInt n).asInt = some n) ∧
    ∀ (key x : Value) (before after : List (Value × Value)) (n : ℤ), key.asInt = none → IsI64 n →
      (Value.map (before ++ (key, x) :: after)).mapGetInt n =
        (Value.map (before ++ after)).mapGetInt n := by
  refine ⟨?_, ?_, fromId_id, ?_, ?_⟩
  · intro v k h
    exact ⟨reads_iff.mpr (reads_toValue (reads_iff.mp h)), reparses_iff h⟩
  · intro es fs hp h
    exact fromValue_perm hp h
  · intro n h
    exact asInt_fromInt h
  · intro key x before after n hkey hn
    exact mapGetInt_outside hkey hn before after x

/-- A platform key for key agreement. -/
def agreementKey : CoseKey :=
  .p256 .ecdhEsHkdf256 ⟨List.replicate 32 1, rfl⟩ ⟨List.replicate 32 2, rfl⟩

theorem cose_keys_round_trip_agreement :
    CoseKey.fromValue agreementKey.toValue = .ok agreementKey ∧ Reparses agreementKey ∧
      (Value.fromInt (-25)).asInt = some (-25) := by
  obtain ⟨hkeys, _, _, hint, _⟩ := cose_keys_round_trip
  obtain ⟨hvalue, hreparses⟩ := hkeys agreementKey.toValue agreementKey rfl
  exact ⟨hvalue, hreparses.mpr trivial, hint (-25) ⟨by decide, by decide⟩⟩

/-- The map of a key of an unassigned algorithm. -/
def unassigned (entries : List (Value × Value)) : Value :=
  .map ([(.fromInt 1, .fromInt 2), (.fromInt 3, .fromInt (-65535))] ++ entries)

def repeatedLabel : Value := unassigned [(.fromInt 5, .null), (.fromInt 5, .null)]

def nested : ℕ → Value
  | 0 => .null
  | levels + 1 => .array [nested levels]

theorem depth_nested (levels : ℕ) : depth (nested levels) = levels + 1 := by
  induction levels with
  | zero => rfl
  | succ levels ih => simp [nested, depth, itemsDepth, ih]

/-- Both maps are kept as keys, and their encodings are not read again: the first is refused by
the parser, the second already by the encoder. -/
theorem kept_keys_not_reparsed :
    (CoseKey.fromValue repeatedLabel = .ok (.unknown repeatedLabel) ∧
      ¬ Reparses (.unknown repeatedLabel)) ∧
    CoseKey.fromValue (unassigned [(.fromInt 5, nested 63)]) =
        .ok (.unknown (unassigned [(.fromInt 5, nested 63)])) ∧
      ¬ Reparses (.unknown (unassigned [(.fromInt 5, nested 63)])) := by
  have hrepeated : CoseKey.fromValue repeatedLabel = .ok (.unknown repeatedLabel) := rfl
  have hdeep : CoseKey.fromValue (unassigned [(.fromInt 5, nested 63)]) =
      .ok (.unknown (unassigned [(.fromInt 5, nested 63)])) := rfl
  refine ⟨⟨hrepeated, ?_⟩, hdeep, ?_⟩
  · intro h
    obtain ⟨hgood, _⟩ := (reparses_iff hrepeated).mp h
    have hnodup := hgood.distinct.here
    revert hnodup
    show ¬ List.Nodup _
    decide
  · intro h
    obtain ⟨hgood, _⟩ := (reparses_iff hdeep).mp h
    have hdepth := (depth_map_le.mp hgood.depth _ (List.mem_append_right _ List.mem_cons_self)).2
    rw [depth_nested] at hdepth
    exact absurd hdepth (by decide)

end CtapCoseRoundTrip
