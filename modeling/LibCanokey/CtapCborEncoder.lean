import LibCanokey.CtapCborLanguage
import LibCanokey.ListTraversal

/-! # The encoder writes the canonical form -/
namespace CtapCborEncoder

open BigEndian KeyedSorting ListTraversal ProtocolError CtapCbor CtapCborLanguage

/-- Shifting the major type in and adding the information, for the head bytes in use. -/
theorem tag_or (major info : ℕ) (hm : major < 8) (hi : info < 32) :
    (UInt8.ofNat major <<< 5 ||| UInt8.ofNat info : Byte) = initialByte major info := by
  have hall : ∀ m < 8, ∀ i < 32,
      (UInt8.ofNat m <<< 5 ||| UInt8.ofNat i : Byte) = initialByte m i := by decide +kernel
  exact hall major hm info hi

theorem head_eq (out : Bytes) {major : ℕ} (hm : major < 8) (argument : UInt64) :
    head out (UInt8.ofNat major) argument = out ++ shortestHead major argument.toNat := by
  have h24 : argument < 24 ↔ argument.toNat < 24 := UInt64.lt_iff_toNat_lt
  have h8 : argument ≤ 0xff ↔ argument.toNat < 2 ^ 8 :=
    UInt64.le_iff_toNat_le.trans Nat.lt_succ_iff.symm
  have h16 : argument ≤ 0xffff ↔ argument.toNat < 2 ^ 16 :=
    UInt64.le_iff_toNat_le.trans Nat.lt_succ_iff.symm
  have h32 : argument ≤ 0xffffffff ↔ argument.toNat < 2 ^ 32 :=
    UInt64.le_iff_toNat_le.trans Nat.lt_succ_iff.symm
  have hbyte : argument.toUInt8 = UInt8.ofNat argument.toNat := by
    apply byte_ext
    rw [UInt64.toNat_toUInt8, toNat_ofNat_mod]
  have hone : toBeBytes 1 argument.toNat = [argument.toUInt8] := by
    rw [hbyte, toBeBytes, toBeBytes, Nat.pow_zero, Nat.div_one]
  have htag : ∀ info < 32,
      (UInt8.ofNat major <<< 5 ||| UInt8.ofNat info : Byte) = initialByte major info :=
    fun info hi => tag_or major info hm hi
  simp only [head, shortestHead, h24, h8, h16, h32]
  split_ifs with hs
  · rw [hbyte, htag _ (by omega)]
  · rw [← htag 24 (by decide), hone, List.append_assoc]
    rfl
  · rw [← htag 25 (by decide), List.append_assoc]
    rfl
  · rw [← htag 26 (by decide), List.append_assoc]
    rfl
  · rw [← htag 27 (by decide), List.append_assoc]
    rfl

theorem head_length (out : Bytes) {major n : ℕ} (hm : major < 8) (hn : n < 2 ^ 64) :
    head out (UInt8.ofNat major) (UInt64.ofNat n) = out ++ shortestHead major n := by
  rw [head_eq out hm, UInt64.toNat_ofNat_of_lt' hn]

/-- With the levels a value needs, the encoder appends its canonical encoding. -/
theorem encodeInto_eq {levels : ℕ} {v : Value} (hd : depth v ≤ levels) (hs : Storable v)
    (out : Bytes) : encodeInto levels v out = .ok (out ++ canonical v) := by
  induction levels generalizing v out with
  | zero => exact absurd hd (by have := depth_pos v; omega)
  | succ levels ih =>
    cases v with
    | unsigned n => exact congrArg Except.ok (head_eq out (by decide : 0 < 8) n)
    | negative n => exact congrArg Except.ok (head_eq out (by decide : 1 < 8) n)
    | bytes raw =>
      have hh := head_length out (by decide : 2 < 8) hs.here
      have hc : canonical (.bytes raw) = shortestHead 2 raw.length ++ raw := rfl
      rw [hc, ← List.append_assoc, ← hh]
      rfl
    | text s =>
      have hh := head_length out (by decide : 3 < 8) hs.here
      have hc : canonical (.text s) = shortestHead 3 (utf8 s).length ++ utf8 s := rfl
      rw [hc, ← List.append_assoc, ← hh]
      rfl
    | array items =>
      have hh := head_length out (by decide : 4 < 8) hs.here
      have hitem : ∀ v ∈ items, ∀ out, encodeInto levels v out = .ok (out ++ canonical v) :=
        fun v hv => ih (depth_array_le.mp hd v hv) ((everywhere_array.mp hs).2 v hv)
      rw [canonical, sort_array, wire_array, List.length_map, List.flatMap_map,
        ← List.append_assoc, ← hh]
      exact foldlM_append hitem _
    | map entries =>
      have hh := head_length out (by decide : 5 < 8) hs.here
      have hentry : ∀ e ∈ entries, ∀ out, encodeInto levels e.1 out = .ok (out ++ canonical e.1) ∧
          encodeInto levels e.2 out = .ok (out ++ canonical e.2) := fun e he out =>
        ⟨ih (depth_map_le.mp hd e he).1 ((everywhere_map.mp hs).2 e he).1 out,
          ih (depth_map_le.mp hd e he).2 ((everywhere_map.mp hs).2 e he).2 out⟩
      let sorted := sortBy keyOrder (fun e => canonical e.1) entries
      have hkeys : entries.mapM (fun e => (encodeInto levels e.1 []).map fun k => (k, e.2)) =
          .ok (entries.map fun e => (canonical e.1, e.2)) :=
        mapM_of_forall fun e he => by rw [(hentry e he []).1]; rfl
      -- both the encoded pairs and the sorted entries are images of the entries in key order
      have hpairs : sortBy keyOrder Prod.fst (entries.map fun e => (canonical e.1, e.2)) =
          sorted.map fun e => (canonical e.1, e.2) := (map_sortBy fun _ _ => rfl).symm
      have hsorted : sortBy keyOrder (fun e => wire e.1) (entries.map sortEntry) =
          sorted.map sortEntry := (map_sortBy fun _ _ => rfl).symm
      have hlen : sorted.length = entries.length := (perm_sortBy entries).length_eq
      have hfold : ∀ p ∈ sorted.map fun e => (canonical e.1, e.2), ∀ out,
          encodeInto levels p.2 (out ++ p.1) = .ok (out ++ (p.1 ++ canonical p.2)) := by
        intro p hp out
        obtain ⟨e, he, rfl⟩ := List.mem_map.mp hp
        rw [(hentry e (mem_sortBy.mp he) _).2, List.append_assoc]
      rw [canonical, sort_map, hsorted, wire_map, List.length_map, hlen, List.flatMap_map,
        ← List.append_assoc, ← hh]
      unfold encodeInto
      apply bind_eq_ok.mpr
      refine ⟨_, hkeys, ?_⟩
      dsimp only
      rw [hpairs, List.length_map, hlen, foldlM_append hfold, List.flatMap_map]
      rfl
    | bool b => cases b <;> rfl
    | null => rfl

theorem encode_eq {v : Value} (hd : depth v ≤ maxDepth) (hs : Storable v) :
    encode v = .ok (canonical v) := encodeInto_eq hd hs []

end CtapCborEncoder
