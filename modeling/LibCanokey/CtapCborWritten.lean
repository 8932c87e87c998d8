import LibCanokey.CtapCborCanonical
import LibCanokey.CtapFields

/-! # What the encoder has written

An encoding that fits a machine word comes from a value of bounded depth that was held in
memory. The strict parser accepts it exactly when no map of the value repeats a key. -/
namespace CtapCborWritten

open BigEndian CheckedCursor ListTraversal KeyedSorting ProtocolError CtapCbor CtapCborLanguage
open CtapCborEncoder CtapCborParser CtapCborCanonical CtapFields

section everywhere

variable {p q : Value → Prop}

theorem everywhere_of_sort (h : ∀ v, q (sort v) → p v) {v : Value} (hv : Everywhere q (sort v)) :
    Everywhere p v := by
  induction v using value_induction with
  | array items ih =>
    have hp := h _ hv.here
    rw [sort_array] at hv
    refine everywhere_array.mpr ⟨hp, fun v hm => ih v hm ?_⟩
    exact (everywhere_array.mp hv).2 _ (List.mem_map_of_mem hm)
  | map entries ih =>
    have hp := h _ hv.here
    rw [sort_map] at hv
    refine everywhere_map.mpr ⟨hp, fun e hm => ?_⟩
    have he := (everywhere_map.mp hv).2 _ (mem_sortBy.mpr (List.mem_map_of_mem hm))
    exact ⟨(ih e hm).1 he.1, (ih e hm).2 he.2⟩
  | scalar v hs => exact (everywhere_scalar hs).mpr (h v hv.here)

theorem distinct_of_sort {v : Value} (h : DistinctKeys (sort v)) : DistinctKeys v := by
  refine everywhere_of_sort (fun v hv => ?_) h
  cases v with
  | map entries =>
    rw [sort_map] at hv
    exact (sorted_keys entries).nodup_iff.mp hv
  | _ => trivial

end everywhere

/-- A fold whose steps append does not drop what a step appended. -/
theorem foldlM_parts {α : Type} {f : Bytes → α → Except Error Bytes} {Part : α → ℕ → Prop}
    {xs : List α} (hf : ∀ x ∈ xs, ∀ acc out, f acc x = .ok out →
      ∃ n, Part x n ∧ 0 < n ∧ out.length = acc.length + n) {acc out : Bytes}
    (h : xs.foldlM f acc = .ok out) :
    acc.length + xs.length ≤ out.length ∧
      ∀ x ∈ xs, ∃ n, Part x n ∧ acc.length + n ≤ out.length := by
  induction xs generalizing acc with
  | nil =>
    cases h
    refine ⟨Nat.le_refl _, ?_⟩
    intro x hx
    cases hx
  | cons x xs ih =>
    obtain ⟨hx, hxs⟩ := List.forall_mem_cons.mp hf
    rw [List.foldlM_cons] at h
    obtain ⟨next, hnext, h⟩ := bind_eq_ok.mp h
    obtain ⟨n, hpart, hpos, hlen⟩ := hx acc next hnext
    obtain ⟨hcount, hrest⟩ := ih hxs h
    constructor
    · rw [List.length_cons]
      omega
    · intro y hy
      rcases List.mem_cons.mp hy with rfl | hy
      · exact ⟨n, hpart, by omega⟩
      · obtain ⟨m, hm, hle⟩ := hrest y hy
        exact ⟨m, hm, by omega⟩

theorem encodeInto_part {levels : ℕ} {v : Value} {acc out : Bytes}
    (h : encodeInto levels v acc = .ok out) :
    ∃ part, encodeInto levels v [] = .ok part ∧ out = acc ++ part := by
  have happend := encodeInto_append levels v acc []
  rw [List.append_nil, h] at happend
  obtain ⟨part, hpart, hout⟩ := map_eq_ok.mp happend.symm
  exact ⟨part, hpart, hout.symm⟩

theorem head_pos (out : Bytes) (major : UInt8) (argument : UInt64) :
    out.length < (head out major argument).length := by
  rw [head]
  split_ifs <;> simp

/-- What one encoded value takes, and what its size says about the value. -/
structure Written (levels : ℕ) (v : Value) (part : Bytes) : Prop where
  nonempty : 0 < part.length
  depth : depth v ≤ levels
  storable : part.length < 2 ^ 64 → Storable v

/-- The keys of a map, encoded each on its own. -/
theorem keys_encoded {levels : ℕ} {entries : List (Value × Value)}
    {encoded : List (Bytes × Value)}
    (h : entries.mapM (fun entry => (encodeInto levels entry.1 []).map fun keyBytes =>
      (keyBytes, entry.2)) = .ok encoded) :
    encoded.length = entries.length ∧ ∀ e ∈ entries, ∃ keyBytes,
      encodeInto levels e.1 [] = .ok keyBytes ∧ (keyBytes, e.2) ∈ encoded := by
  induction entries generalizing encoded with
  | nil =>
    cases h
    refine ⟨rfl, ?_⟩
    intro e he
    cases he
  | cons e entries ih =>
    rw [List.mapM_cons] at h
    obtain ⟨first, hfirst, h⟩ := bind_eq_ok.mp h
    obtain ⟨rest, hrest, h⟩ := bind_eq_ok.mp h
    cases h
    obtain ⟨keyBytes, hkey, rfl⟩ := map_eq_ok.mp hfirst
    obtain ⟨hlen, hmem⟩ := ih hrest
    refine ⟨by rw [List.length_cons, List.length_cons, hlen], ?_⟩
    intro d hd
    rcases List.mem_cons.mp hd with rfl | hd
    · exact ⟨keyBytes, hkey, List.mem_cons_self⟩
    · obtain ⟨bytes, hbytes, hin⟩ := hmem d hd
      exact ⟨bytes, hbytes, List.mem_cons_of_mem _ hin⟩

/-- The induction is on the levels; a container is bounded by what its parts take. -/
theorem encodeInto_written {levels : ℕ} {v : Value} {part : Bytes}
    (h : encodeInto levels v [] = .ok part) : Written levels v part := by
  induction levels generalizing v part with
  | zero => cases h
  | succ levels ih =>
    have hscalar {v : Value} (hs : Scalar v) (hpos : 0 < part.length)
        (hstore : part.length < 2 ^ 64 → StorableAt v) : Written (levels + 1) v part := by
      refine ⟨hpos, ?_, fun hlen => (everywhere_scalar hs).mpr (hstore hlen)⟩
      cases v with
      | array => cases hs
      | map => cases hs
      | _ => exact Nat.le_add_left 1 levels
    cases v with
    | unsigned n =>
      cases h
      exact hscalar trivial (head_pos [] 0 n) fun _ => trivial
    | negative n =>
      cases h
      exact hscalar trivial (head_pos [] 1 n) fun _ => trivial
    | bytes raw =>
      cases h
      have hhead := head_pos [] 2 (UInt64.ofNat raw.length)
      refine hscalar trivial ?_ fun hlen => ?_
      · rw [List.length_append]
        omega
      · rw [List.length_append] at hlen
        exact Nat.lt_of_le_of_lt (Nat.le_add_left _ _) hlen
    | text s =>
      cases h
      have hhead := head_pos [] 3 (UInt64.ofNat (utf8 s).length)
      refine hscalar trivial ?_ fun hlen => ?_
      · rw [List.length_append]
        omega
      · rw [List.length_append] at hlen
        exact Nat.lt_of_le_of_lt (Nat.le_add_left _ _) hlen
    | bool b =>
      refine hscalar trivial ?_ fun _ => trivial
      cases b <;> cases h <;> exact Nat.zero_lt_one
    | null =>
      refine hscalar trivial ?_ fun _ => trivial
      cases h
      exact Nat.zero_lt_one
    | array items =>
      have hhead := head_pos [] 4 (UInt64.ofNat items.length)
      obtain ⟨hcount, hparts⟩ := @foldlM_parts Value _
        (fun item n => ∃ bytes, Written levels item bytes ∧ bytes.length = n) items
        (fun item _ acc out hitem => by
          obtain ⟨bytes, hbytes, rfl⟩ := encodeInto_part hitem
          have hwritten := ih hbytes
          exact ⟨bytes.length, ⟨bytes, hwritten, rfl⟩, hwritten.nonempty, List.length_append⟩)
        _ _ h
      refine ⟨by omega, depth_array_le.mpr fun item hitem => ?_, fun hlen => ?_⟩
      · obtain ⟨_, ⟨bytes, hwritten, _⟩, _⟩ := hparts item hitem
        exact hwritten.depth
      · refine everywhere_array.mpr ⟨show items.length < 2 ^ 64 by omega, fun item hitem => ?_⟩
        obtain ⟨_, ⟨bytes, hwritten, rfl⟩, hle⟩ := hparts item hitem
        exact hwritten.storable (by omega)
    | map entries =>
      obtain ⟨encoded, hencoded, h⟩ := bind_eq_ok.mp h
      obtain ⟨hlength, hkeys⟩ := keys_encoded hencoded
      have hsorted : (sortBy keyOrder Prod.fst encoded).length = entries.length := by
        rw [(perm_sortBy encoded).length_eq, hlength]
      have hhead := head_pos [] 5 (UInt64.ofNat (sortBy keyOrder Prod.fst encoded).length)
      obtain ⟨hcount, hparts⟩ := @foldlM_parts (Bytes × Value) _
        (fun entry n => ∃ bytes, Written levels entry.2 bytes ∧
          entry.1.length + bytes.length = n) (sortBy keyOrder Prod.fst encoded)
        (fun entry _ acc out hentry => by
          obtain ⟨bytes, hbytes, rfl⟩ := encodeInto_part hentry
          have hwritten := ih hbytes
          have hpos := hwritten.nonempty
          refine ⟨_, ⟨bytes, hwritten, rfl⟩, by omega, ?_⟩
          rw [List.length_append, List.length_append, Nat.add_assoc])
        _ _ h
      refine ⟨by omega, depth_map_le.mpr fun e he => ?_, fun hlen => ?_⟩
      · obtain ⟨keyBytes, hkey, hmem⟩ := hkeys e he
        obtain ⟨_, ⟨bytes, hwritten, _⟩, _⟩ := hparts _ (mem_sortBy.mpr hmem)
        exact ⟨(ih hkey).depth, hwritten.depth⟩
      · refine everywhere_map.mpr ⟨show entries.length < 2 ^ 64 by omega, fun e he => ?_⟩
        obtain ⟨keyBytes, hkey, hmem⟩ := hkeys e he
        obtain ⟨_, ⟨bytes, hwritten, rfl⟩, hle⟩ := hparts _ (mem_sortBy.mpr hmem)
        dsimp only at hle
        exact ⟨(ih hkey).storable (by omega), hwritten.storable (by omega)⟩

/-- What was encoded is parsed back exactly when no map repeats a key. -/
theorem encoded_parses {v : Value} {body : Bytes} (h : encode v = .ok body)
    (hlen : body.length ≤ usizeMax) : (∃ w, parse body = .ok w) ↔ DistinctKeys v := by
  have hword : usizeMax < 2 ^ 64 := by decide
  have hwritten := encodeInto_written h
  have hstorable := hwritten.storable (Nat.lt_of_le_of_lt hlen hword)
  cases (encode_eq hwritten.depth hstorable).symm.trans h
  constructor
  · rintro ⟨w, hw⟩
    obtain ⟨he, _, hdistinct⟩ := (parse_eq_ok hlen).mp hw
    obtain ⟨hs, hwire⟩ := encodes_iff.mp he
    have hsame : sort v = w := wire_injective (storable_sort hstorable) hs hwire
    rw [← hsame] at hdistinct
    exact distinct_of_sort hdistinct
  · intro hdistinct
    exact ⟨sort v, (parse_eq_ok hlen).mpr ⟨encodes_iff.mpr ⟨storable_sort hstorable, rfl⟩,
      depth_sort hwritten.depth, distinct_sort hdistinct⟩⟩

end CtapCborWritten
