import LibCanokey.CtapCborParser

/-! # Encoding is a canonical form

Encodings are prefix-free, so two values have one canonical encoding exactly when they
differ by the order of map entries alone. -/
namespace CtapCborCanonical

open BigEndian CheckedCursor KeyedSorting ListTraversal ProtocolError CtapCbor
open CtapCborLanguage CtapCborEncoder CtapCborParser

/-! ## Prefix-freeness -/

theorem toBeBytes_append_inj {w m n : ℕ} {r r' : Bytes} (hm : m < 256 ^ w) (hn : n < 256 ^ w)
    (h : toBeBytes w m ++ r = toBeBytes w n ++ r') : m = n ∧ r = r' := by
  obtain ⟨hb, hr⟩ := List.append_inj h (by rw [length_toBeBytes, length_toBeBytes])
  exact ⟨toBeBytes_injective hm hn hb, hr⟩

theorem shortestHead_append_inj {m n m' n' : ℕ} {r r' : Bytes} (hm : m < 8) (hm' : m' < 8)
    (hn : n < 2 ^ 64) (hn' : n' < 2 ^ 64)
    (h : shortestHead m n ++ r = shortestHead m' n' ++ r') : m = m' ∧ n = n' ∧ r = r' := by
  obtain ⟨hs, hh⟩ | ⟨k, hk, _, hup, hh⟩ := shortestHead_cases m hn <;>
    obtain ⟨hs', hh'⟩ | ⟨k', hk', _, hup', hh'⟩ := shortestHead_cases m' hn' <;>
    rw [hh, hh', List.cons_append, List.cons_append] at h <;>
    obtain ⟨hb, ht⟩ := List.cons.inj h
  · obtain ⟨rfl, rfl⟩ := initialByte_injective hm (by omega) hm' (by omega) hb
    exact ⟨rfl, rfl, ht⟩
  · obtain ⟨_, hi⟩ := initialByte_injective hm (by omega) hm' (by omega) hb
    omega
  · obtain ⟨_, hi⟩ := initialByte_injective hm (by omega) hm' (by omega) hb
    omega
  · obtain ⟨rfl, hi⟩ := initialByte_injective hm (by omega) hm' (by omega) hb
    obtain rfl : k = k' := by omega
    obtain ⟨rfl, hr⟩ := toBeBytes_append_inj hup hup' ht
    exact ⟨rfl, rfl, hr⟩

theorem utf8_injective {s t : String} (h : utf8 s = utf8 t) : s = t := by
  have hs := fromUTF8_eq_some.mpr (rfl : utf8 s = utf8 s)
  have ht := fromUTF8_eq_some.mpr h.symm
  exact Option.some.inj (hs.symm.trans ht)

/-- The value at the front of an input is determined by the input. -/
def Determined (v : Value) : Prop :=
  ∀ {w r r'}, Storable w → wire v ++ r = wire w ++ r' → v = w ∧ r = r'

theorem entry_determined {e d : Value × Value} {r r' : Bytes} (hk : Determined e.1)
    (hv : Determined e.2) (hd : Storable d.1 ∧ Storable d.2)
    (h : entryWire e ++ r = entryWire d ++ r') : e = d ∧ r = r' := by
  rw [entryWire, entryWire, List.append_assoc, List.append_assoc] at h
  obtain ⟨hkey, h⟩ := hk hd.1 h
  obtain ⟨hvalue, hr⟩ := hv hd.2 h
  exact ⟨Prod.ext hkey hvalue, hr⟩

/-- Two encodings that start alike have the same head, and their bodies start alike. -/
theorem wire_append_inj {v w : Value} {r r' : Bytes} (hv : Storable v) (hw : Storable w)
    (h : wire v ++ r = wire w ++ r') :
    majorOf v = majorOf w ∧ argumentOf v = argumentOf w ∧ bodyOf v ++ r = bodyOf w ++ r' := by
  rw [wire_eq, wire_eq, List.append_assoc, List.append_assoc] at h
  exact shortestHead_append_inj (majorOf_ne_six v).1 (majorOf_ne_six w).1
    (argumentOf_lt hv.here) (argumentOf_lt hw.here) h

theorem scalar_determined {v : Value} (hscalar : Scalar v) (hv : Storable v) : Determined v := by
  intro w r r' hw h
  obtain ⟨hmajor, harg, hbody⟩ := wire_append_inj hv hw h
  cases v with
  | unsigned n =>
    cases w with
    | unsigned n' => exact ⟨congrArg Value.unsigned (UInt64.toNat_inj.mp harg), hbody⟩
    | _ => cases hmajor
  | negative n =>
    cases w with
    | negative n' => exact ⟨congrArg Value.negative (UInt64.toNat_inj.mp harg), hbody⟩
    | _ => cases hmajor
  | bytes raw =>
    cases w with
    | bytes raw' =>
      obtain ⟨hraw, hr⟩ := List.append_inj hbody harg
      exact ⟨congrArg Value.bytes hraw, hr⟩
    | _ => cases hmajor
  | text s =>
    cases w with
    | text s' =>
      obtain ⟨hutf8, hr⟩ := List.append_inj hbody harg
      exact ⟨congrArg Value.text (utf8_injective hutf8), hr⟩
    | _ => cases hmajor
  | bool b =>
    cases w with
    | bool b' =>
      refine ⟨?_, hbody⟩
      cases b <;> cases b' <;> first | rfl | cases harg
    | null => cases b <;> cases harg
    | _ => cases hmajor
  | null =>
    cases w with
    | null => exact ⟨rfl, hbody⟩
    | bool b' => cases b' <;> cases harg
    | _ => cases hmajor
  | array => cases hscalar
  | map => cases hscalar

/-- No encoding is a proper prefix of another, nor the encoding of two values. -/
theorem wire_determined {v : Value} (hv : Storable v) : Determined v := by
  induction v using value_induction with
  | scalar v hscalar => exact scalar_determined hscalar hv
  | array items ih =>
    intro w r r' hw h
    obtain ⟨hmajor, harg, hbody⟩ := wire_append_inj hv hw h
    cases w with
    | array items' =>
      have hitems := (everywhere_array.mp hv).2
      obtain ⟨rfl, hr⟩ := flatMap_append_inj (fun v hm => ih v hm (hitems v hm))
        (everywhere_array.mp hw).2 harg hbody
      exact ⟨rfl, hr⟩
    | _ => cases hmajor
  | map entries ih =>
    intro w r r' hw h
    obtain ⟨hmajor, harg, hbody⟩ := wire_append_inj hv hw h
    cases w with
    | map entries' =>
      have hentries := (everywhere_map.mp hv).2
      obtain ⟨rfl, hr⟩ := flatMap_append_inj (fun e he => entry_determined
        ((ih e he).1 (hentries e he).1) ((ih e he).2 (hentries e he).2))
        (everywhere_map.mp hw).2 harg hbody
      exact ⟨rfl, hr⟩
    | _ => cases hmajor

theorem wire_injective {v w : Value} (hv : Storable v) (hw : Storable w) (h : wire v = wire w) :
    v = w := by
  have hnil : wire v ++ [] = wire w ++ [] := by rw [h]
  exact (wire_determined hv hw hnil).1

/-! ## Equality up to the order of entries -/

/-- The least congruence that identifies the orders of a map's entries. -/
inductive Reordered : Value → Value → Prop where
  | refl (v) : Reordered v v
  | symm {v w} : Reordered v w → Reordered w v
  | trans {u v w} : Reordered u v → Reordered v w → Reordered u w
  | item {before after v w} : Reordered v w →
      Reordered (.array (before ++ v :: after)) (.array (before ++ w :: after))
  | key {before after k l v} : Reordered k l →
      Reordered (.map (before ++ (k, v) :: after)) (.map (before ++ (l, v) :: after))
  | value {before after k v w} : Reordered v w →
      Reordered (.map (before ++ (k, v) :: after)) (.map (before ++ (k, w) :: after))
  | entries {es fs} : es.Perm fs → Reordered (.map es) (.map fs)

theorem reordered_items (before : List Value) {items : List Value}
    (h : ∀ v ∈ items, Reordered v (sort v)) :
    Reordered (.array (before ++ items)) (.array (before ++ items.map sort)) := by
  induction items generalizing before with
  | nil => exact .refl _
  | cons v vs ih =>
    obtain ⟨hv, hvs⟩ := List.forall_mem_cons.mp h
    have hrest := ih (before ++ [sort v]) hvs
    rw [List.append_assoc, List.append_assoc] at hrest
    exact .trans (.item hv) hrest

theorem reordered_entries (before : List (Value × Value)) {entries : List (Value × Value)}
    (h : ∀ e ∈ entries, Reordered e.1 (sort e.1) ∧ Reordered e.2 (sort e.2)) :
    Reordered (.map (before ++ entries)) (.map (before ++ entries.map sortEntry)) := by
  induction entries generalizing before with
  | nil => exact .refl _
  | cons e es ih =>
    obtain ⟨⟨hk, hv⟩, hes⟩ := List.forall_mem_cons.mp h
    have hrest := ih (before ++ [sortEntry e]) hes
    rw [List.append_assoc, List.append_assoc] at hrest
    exact .trans (.trans (.key hk) (.value hv)) hrest

theorem reordered_sort (v : Value) : Reordered v (sort v) := by
  induction v using value_induction with
  | scalar v hs =>
    rw [sort_scalar hs]
    exact .refl v
  | array items ih =>
    rw [sort_array]
    exact reordered_items [] ih
  | map entries ih =>
    rw [sort_map]
    exact .trans (reordered_entries [] ih) (.entries (perm_sortBy _).symm)

theorem distinct_split {before after : List (Value × Value)} {k v : Value} :
    DistinctKeys (.map (before ++ (k, v) :: after)) ↔
      ((before ++ (k, v) :: after).map fun e => canonical e.1).Nodup ∧
      (∀ e ∈ before, DistinctKeys e.1 ∧ DistinctKeys e.2) ∧
      (DistinctKeys k ∧ DistinctKeys v) ∧ ∀ e ∈ after, DistinctKeys e.1 ∧ DistinctKeys e.2 := by
  rw [DistinctKeys, everywhere_map, List.forall_mem_append, List.forall_mem_cons]
  rfl

/-- Reordering keeps keys distinct, and distinct keys make the sorted form unique. -/
theorem Reordered.sort_eq {v w : Value} (h : Reordered v w) :
    (DistinctKeys v ↔ DistinctKeys w) ∧ (DistinctKeys v → sort v = sort w) := by
  induction h with
  | refl v => exact ⟨Iff.rfl, fun _ => rfl⟩
  | symm _ ih => exact ⟨ih.1.symm, fun h => (ih.2 (ih.1.mpr h)).symm⟩
  | trans _ _ ih ih' => exact ⟨ih.1.trans ih'.1, fun h => (ih.2 h).trans (ih'.2 (ih.1.mp h))⟩
  | @item before after v w _ ih =>
    have hsplit : ∀ x, DistinctKeys (.array (before ++ x :: after)) ↔
        (∀ y ∈ before, DistinctKeys y) ∧ DistinctKeys x ∧ ∀ y ∈ after, DistinctKeys y := by
      intro x
      rw [DistinctKeys, everywhere_array, List.forall_mem_append, List.forall_mem_cons]
      exact iff_of_eq (true_and _)
    refine ⟨by rw [hsplit, hsplit, ih.1], fun hd => ?_⟩
    have hx := ih.2 ((hsplit v).mp hd).2.1
    rw [sort_array, sort_array, List.map_append, List.map_append, List.map_cons, List.map_cons, hx]
  | @key before after k l v _ ih =>
    have hkeys : DistinctKeys k → (before ++ (k, v) :: after).map (fun e => canonical e.1) =
        (before ++ (l, v) :: after).map fun e => canonical e.1 := by
      intro hk
      rw [List.map_append, List.map_append, List.map_cons, List.map_cons, canonical, ih.2 hk]
      rfl
    constructor
    · rw [distinct_split, distinct_split, ← ih.1]
      constructor
      · rintro ⟨hn, hb, ⟨hk, hv⟩, ha⟩
        exact ⟨hkeys hk ▸ hn, hb, ⟨hk, hv⟩, ha⟩
      · rintro ⟨hn, hb, ⟨hk, hv⟩, ha⟩
        exact ⟨(hkeys hk).symm ▸ hn, hb, ⟨hk, hv⟩, ha⟩
    · intro hd
      have hx := ih.2 (distinct_split.mp hd).2.2.1.1
      rw [sort_map, sort_map, List.map_append, List.map_append, List.map_cons, List.map_cons,
        sortEntry, sortEntry, hx]
  | @value before after k v w _ ih =>
    constructor
    · rw [distinct_split, distinct_split, ih.1, List.map_append, List.map_append, List.map_cons,
        List.map_cons]
    · intro hd
      have hx := ih.2 (distinct_split.mp hd).2.2.1.2
      rw [sort_map, sort_map, List.map_append, List.map_append, List.map_cons, List.map_cons,
        sortEntry, sortEntry, hx]
  | @entries es fs h =>
    constructor
    · rw [DistinctKeys, everywhere_map, everywhere_map]
      apply and_congr (h.map _).nodup_iff
      exact forall_congr' fun e => imp_congr_left h.mem_iff
    · intro hd
      have hn : ((es.map sortEntry).map fun e => wire e.1).Nodup := by
        rw [List.map_map]
        exact (everywhere_map.mp hd).1
      rw [sort_map, sort_map, sortBy_perm (h.map sortEntry) hn]

theorem canonical_eq_iff {v w : Value} (hv : Storable v) (hw : Storable w) (hd : DistinctKeys v) :
    canonical v = canonical w ↔ Reordered v w := by
  constructor
  · intro h
    have hs : sort v = sort w := wire_injective (storable_sort hv) (storable_sort hw) h
    exact (reordered_sort v).trans (hs ▸ (reordered_sort w).symm)
  · intro h
    rw [canonical, h.sort_eq.2 hd, canonical]

/-- The canonical encoding, and the parser as its inverse: it reads the sorted value back
from the front of any input, tells values apart up to the order of entries, and rewrites
an accepted input exactly when some map was out of order. -/
theorem encode_canonical :
    (∀ v, Good maxDepth v → ∃ out, encode v = .ok out ∧ ∀ rest,
      (out ++ rest).length ≤ usizeMax → parseItem (out ++ rest) = .ok (sort v, out.length)) ∧
    (∀ v w, Good maxDepth v → Good maxDepth w → (encode v = encode w ↔ Reordered v w)) ∧
    ∀ bytes v, bytes.length ≤ usizeMax → parse bytes = .ok v →
      (∃ out, encode v = .ok out) ∧ (encode v = .ok bytes ↔ Ordered v) := by
  refine ⟨?_, ?_, ?_⟩
  · intro v hv
    refine ⟨canonical v, encode_good (le_refl _) hv, fun rest hlen => ?_⟩
    refine (parseAt_eq_ok hlen (le_refl _)).mpr ⟨⟨?_, Nat.zero_add _, ?_⟩, ?_⟩
    · rw [List.drop_zero, List.drop_left, canonical]
    · rw [List.length_append]
      exact Nat.le_add_right _ _
    · exact ⟨storable_sort hv.storable, depth_sort hv.depth, distinct_sort hv.distinct⟩
  · intro v w hv hw
    rw [encode_good (le_refl _) hv, encode_good (le_refl _) hw, Except.ok.injEq]
    exact canonical_eq_iff hv.storable hw.storable hv.distinct
  · intro bytes v hlen h
    obtain ⟨he, hd, hk⟩ := (parse_eq_ok hlen).mp h
    obtain ⟨hs, rfl⟩ := encodes_iff.mp he
    have henc := encode_good (le_refl _) ⟨hs, hd, hk⟩
    refine ⟨⟨_, henc⟩, ?_⟩
    rw [henc, Except.ok.injEq, ← sort_eq_self]
    constructor
    · exact wire_injective (storable_sort hs) hs
    · intro hsort
      rw [canonical, hsort]

theorem encode_canonical_mixed_keys :
    encode mixedKeys = .ok [0xa3, 0x01, 0xf5, 0x20, 0x81, 0x18, 0x18, 0x61, 0x61, 0xf6] ∧
      parseItem [0xa3, 0x01, 0xf5, 0x20, 0x81, 0x18, 0x18, 0x61, 0x61, 0xf6, 0xff] =
        .ok (sort mixedKeys, 10) ∧
      Reordered mixedKeys (sort mixedKeys) ∧ ¬Ordered mixedKeys := by
  obtain ⟨hread, hiff, hparsed⟩ := encode_canonical
  have hlen : mixedKeysBytes.length ≤ usizeMax := by decide
  have hp : parse mixedKeysBytes = .ok mixedKeys := rfl
  obtain ⟨he, hd, hk⟩ := (parse_eq_ok hlen).mp hp
  have hgood : Good maxDepth mixedKeys := ⟨(encodes_iff.mp he).1, hd, hk⟩
  have hsorted : Good maxDepth (sort mixedKeys) :=
    ⟨storable_sort hgood.storable, depth_sort hd, distinct_sort hk⟩
  obtain ⟨out, hout, hrest⟩ := hread mixedKeys hgood
  have henc : encode mixedKeys =
      .ok [0xa3, 0x01, 0xf5, 0x20, 0x81, 0x18, 0x18, 0x61, 0x61, 0xf6] := rfl
  obtain rfl := Except.ok.inj (henc.symm.trans hout)
  refine ⟨henc, hrest [0xff] (by decide), (hiff _ _ hgood hsorted).mp rfl, fun hord => ?_⟩
  have hsame := (hparsed mixedKeysBytes mixedKeys hlen hp).2.mpr hord
  exact absurd (Except.ok.inj (henc.symm.trans hsame)) (by decide)

end CtapCborCanonical
