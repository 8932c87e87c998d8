import LibCanokey.CtapCborParser
import LibCanokey.CtapFields
import LibCanokey.CtapValue

/-! # Maps with small integer keys, read back

What the parser makes of an encoded map and the entries a reader finds in it. -/
namespace CtapReading

open BigEndian CheckedCursor KeyedSorting ProtocolError CtapCbor CtapCborLanguage CtapCborEncoder
open CtapCborParser CtapMessage CtapFields

/-- Fields whose values have no parts and fit memory, under increasing one-byte keys. -/
structure Plain (fields : List (ℕ × Value)) : Prop where
  keys : (fields.map Prod.fst).Pairwise (· < ·)
  small : ∀ f ∈ fields, f.1 < 24
  values : ∀ f ∈ fields, Scalar f.2 ∧ StorableAt f.2
  length : fields.length < 2 ^ 64

theorem canonical_key {k : ℕ} (h : k < 24) : canonical (uint k) = [UInt8.ofNat k] := by
  have hc : canonical (uint k) = shortestHead 0 (UInt64.ofNat k).toNat := rfl
  have hh := head_eq [] (by decide : 0 < 8) (UInt64.ofNat k)
  rw [List.nil_append] at hh
  rw [hc, ← hh]
  exact head_small h

theorem key_injective {m n : ℕ} (hm : m < 24) (hn : n < 24)
    (h : UInt8.ofNat m = UInt8.ofNat n) : m = n := by
  have := congrArg UInt8.toNat h
  rw [toNat_ofNat_of_lt (by omega), toNat_ofNat_of_lt (by omega)] at this
  exact this

theorem Plain.good {fields : List (ℕ × Value)} (h : Plain fields) :
    Good maxDepth (fieldMap fields) ∧ Ordered (fieldMap fields) := by
  have hcanonical : ∀ f ∈ fields, canonical (uint f.1) = [UInt8.ofNat f.1] :=
    fun f hf => canonical_key (h.small f hf)
  have hpairs := List.pairwise_map.mp h.keys
  constructor
  · refine (@good_map 63 _).mpr ⟨by rw [List.length_map]; exact h.length, ?_, ?_⟩
    · rw [List.map_map, List.Nodup, List.pairwise_map]
      refine hpairs.imp_of_mem ?_
      intro f g hf hg hlt heq
      dsimp only [Function.comp_apply] at heq
      rw [hcanonical f hf, hcanonical g hg] at heq
      have := key_injective (h.small f hf) (h.small g hg) (List.head_eq_of_cons_eq heq)
      omega
    · intro e he
      obtain ⟨f, hf, rfl⟩ := List.mem_map.mp he
      obtain ⟨hscalar, hstorable⟩ := h.values f hf
      exact ⟨(good_scalar (v := uint f.1) trivial).mpr trivial, (good_scalar hscalar).mpr hstorable⟩
  · refine everywhere_map.mpr ⟨?_, ?_⟩
    · rw [OrderedAt, List.pairwise_map]
      refine hpairs.imp_of_mem ?_
      intro f g hf hg hlt
      rw [KeyLe, hcanonical f hf, hcanonical g hg]
      exact keyOrder_small hlt (h.small g hg)
    · intro e he
      obtain ⟨f, hf, rfl⟩ := List.mem_map.mp he
      have hvalue : OrderedAt f.2 := by
        have := (h.values f hf).1
        cases hv : f.2 <;> first | trivial | (rw [hv] at this; exact this.elim)
      exact ⟨(everywhere_scalar (v := uint f.1) trivial).mpr trivial,
        (everywhere_scalar (h.values f hf).1).mpr hvalue⟩

/-- The parser reads an encoded map back. -/
theorem decoded_fieldMap {fields : List (ℕ × Value)} (h : Plain fields) {body : Bytes}
    (hbody : encode (fieldMap fields) = .ok body) (hlen : body.length ≤ usizeMax) :
    decoded body = .ok (fieldMap fields) := by
  obtain ⟨hgood, hordered⟩ := h.good
  cases (encode_eq hgood.depth hgood.storable).symm.trans hbody
  have hwire : canonical (fieldMap fields) = wire (fieldMap fields) := by
    rw [canonical, sort_eq_self.mpr hordered]
  have hparse := (parse_eq_ok hlen).mpr
    ⟨encodes_iff.mpr ⟨hgood.storable, hwire⟩, hgood.depth, hgood.distinct⟩
  rw [decoded, hparse]

theorem uint_eq_iff {m n : ℕ} (hm : m < 2 ^ 64) (hn : n < 2 ^ 64) : uint m = uint n ↔ m = n := by
  constructor
  · intro h
    have := congrArg UInt64.toNat (Value.unsigned.inj h)
    rwa [UInt64.toNat_ofNat_of_lt' hm, UInt64.toNat_ofNat_of_lt' hn] at this
  · rintro rfl
    rfl

/-- The entry under a key is the first field with that key. -/
theorem mapGetInt_fieldMap {fields : List (ℕ × Value)} (hsmall : ∀ f ∈ fields, f.1 < 24) {k : ℕ}
    (hk : k < 24) :
    (fieldMap fields).mapGetInt k = (fields.find? fun f => f.1 = k).map Prod.snd := by
  have hkey : Value.fromInt (k : ℤ) = uint k := by
    rw [Value.fromInt, if_pos (Int.natCast_nonneg k), Int.toNat_natCast, uint]
  have hget : (fieldMap fields).mapGetInt k =
      ((fields.map fun f => (uint f.1, f.2)).find? fun e => e.1 = uint k).map Prod.snd := by
    simp only [Value.mapGetInt, Value.mapGet, hkey, fieldMap, Value.asMap]
    rw [Option.bind_eq_bind, Option.bind_some]
    cases (fields.map fun f => (uint f.1, f.2)).find? fun e => e.1 = uint k <;> rfl
  rw [hget]
  clear hget
  induction fields with
  | nil => rfl
  | cons f fields ih =>
    obtain ⟨hf, hfields⟩ := List.forall_mem_cons.mp hsmall
    have hiff := uint_eq_iff (m := f.1) (n := k) (by omega) (by omega)
    by_cases heq : f.1 = k
    · simp [heq]
    · have hne : ¬ uint f.1 = uint k := fun h => heq (hiff.mp h)
      rw [List.map_cons, List.find?_cons_of_neg (by simpa using hne),
        List.find?_cons_of_neg (by simpa using heq)]
      exact ih hfields

theorem length_head_le {major n : ℕ} (hm : major < 8) (hn : n < 2 ^ 16) :
    (head [] (UInt8.ofNat major) (UInt64.ofNat n)).length ≤ 3 := by
  rw [head_length [] hm (by omega), List.nil_append, shortestHead]
  split_ifs <;> simp

end CtapReading
