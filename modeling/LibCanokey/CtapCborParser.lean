import LibCanokey.CtapCborEncoder

/-! # The parser accepts exactly the strict language

Every routine of the parser has one lemma: it succeeds exactly when the bytes at the cursor
are the encoding of what it returns. A second pass shows that nothing panics. -/
namespace CtapCborParser

open BigEndian CheckedCursor KeyedSorting ListTraversal ProtocolError CtapCbor
open CtapCborLanguage CtapCborEncoder

section outcome

variable {α : Type} {a b c : ℕ}

theorem orRefuse_eq_ok {x : Option α} {e : Error} {y : α} : orRefuse x e = .ok y ↔ x = some y := by
  cases x <;> simp [orRefuse, refuse]

theorem orPanic_eq_ok {x : Option α} {y : α} : orPanic x = .ok y ↔ x = some y := by
  cases x <;> simp [orPanic]

theorem add_eq_ok : add a b = .ok c ↔ a + b = c ∧ a + b ≤ usizeMax := by
  rw [add, orPanic_eq_ok, checkedAdd_eq_some]

theorem sub_eq_ok : sub a b = .ok c ↔ b ≤ a ∧ a - b = c := by
  simp only [sub]
  split_ifs with h <;> simp [h]

theorem guard_eq_ok {p : Prop} [Decidable p] {e : Error} {x : Outcome α} {y : α} :
    (if p then refuse e else x) = .ok y ↔ ¬p ∧ x = .ok y := by
  split_ifs with h <;> simp [h, refuse]

end outcome

/-! ## Heads -/

theorem initialByte_split (b : Byte) :
    ∃ m < 8, ∃ i < 32, b = initialByte m i ∧ b >>> 5 = UInt8.ofNat m ∧
      b &&& 0x1f = UInt8.ofNat i := by
  have hall : ∀ b : Byte, (b >>> 5).toNat < 8 ∧ (b &&& 0x1f).toNat < 32 ∧
      b = initialByte (b >>> 5).toNat (b &&& 0x1f).toNat :=
    forall_byte (by decide +kernel)
  obtain ⟨hm, hi, hb⟩ := hall b
  exact ⟨_, hm, _, hi, hb, UInt8.ofNat_toNat.symm, UInt8.ofNat_toNat.symm⟩

theorem initialByte_injective {m i n j : ℕ} (hm : m < 8) (hi : i < 32) (hn : n < 8) (hj : j < 32)
    (h : initialByte m i = initialByte n j) : m = n ∧ i = j := by
  have ht := congrArg UInt8.toNat h
  rw [initialByte, initialByte, toNat_ofNat_of_lt (by omega), toNat_ofNat_of_lt (by omega)] at ht
  omega

section parser

variable {bytes : Bytes} {pos stop : ℕ}

theorem readBe_eq_ok (ha : bytes.length ≤ usizeMax) {count : ℕ} (hc : count ≤ 8) {value : UInt64} :
    readBe bytes pos count = .ok (value, stop) ↔
      ∃ raw, raw.length = count ∧ Consumes bytes pos raw stop ∧ value.toNat = ofBeBytes raw := by
  simp only [readBe]
  simp only [bind_eq_ok, orRefuse_eq_ok, checkedAdd_eq_some, slice_eq_some]
  constructor
  · rintro ⟨_, ⟨rfl, _⟩, raw, hraw, h⟩
    cases h
    have hlen : raw.length = count := by have := hraw.stops; omega
    exact ⟨raw, hlen, hraw, toNat_foldl_shiftIn (by omega)⟩
  · rintro ⟨raw, rfl, hraw, hv⟩
    refine ⟨stop, ⟨hraw.stops, ?_⟩, raw, hraw, ?_⟩
    · rw [hraw.stops]
      exact Nat.le_trans hraw.inside ha
    · have hfold : raw.foldl shiftIn 0 = value :=
        UInt64.toNat_inj.mp ((toNat_foldl_shiftIn hc).trans hv.symm)
      rw [hfold]
      rfl

theorem info_le {i : ℕ} (hi : i < 32) (n : ℕ) (hn : n < 32) :
    UInt8.ofNat i ≤ UInt8.ofNat n ↔ i ≤ n := by
  rw [UInt8.le_iff_toNat_le, toNat_ofNat_of_lt (by omega), toNat_ofNat_of_lt (by omega)]

/-- The argument is read exactly when the cursor stands at its shortest head. -/
theorem readArgument_eq_ok (ha : bytes.length ≤ usizeMax) {m i : ℕ} (hm : m < 8) (hi : i < 32)
    (hb : bytes[pos]? = some (initialByte m i)) {argument : UInt64} :
    readArgument bytes pos (UInt8.ofNat i) = .ok (argument, stop) ↔
      Consumes bytes pos (shortestHead m argument.toNat) stop := by
  have hin : pos < bytes.length := (List.getElem?_eq_some_iff.mp hb).1
  have h23 : UInt8.ofNat i ≤ 23 ↔ i ≤ 23 := info_le hi 23 (by decide)
  have h27 : UInt8.ofNat i ≤ 27 ↔ i ≤ 27 := info_le hi 27 (by decide)
  have hinfo : (UInt8.ofNat i : Byte).toNat = i := toNat_ofNat_of_lt (by omega)
  have hadd : add pos 1 = .ok (pos + 1) := add_eq_ok.mpr ⟨rfl, by omega⟩
  simp only [readArgument]
  simp only [h23, h27, hinfo, hadd]
  constructor
  · intro h
    split_ifs at h with hs hw
    · cases h
      have hv : (UInt8.ofNat i : Byte).toUInt64.toNat = i := by
        rw [UInt8.toNat_toUInt64, hinfo]
      rw [hv, shortestHead_immediate (by omega)]
      exact consumes_cons.mpr ⟨hb, consumes_nil.mpr ⟨rfl, hin⟩⟩
    · obtain ⟨k, rfl⟩ : ∃ k, i = 24 + k := ⟨i - 24, by omega⟩
      have hk : k < 4 := by omega
      have hcount : 2 ^ k ≤ 8 := Nat.pow_le_pow_right (by decide) (by omega : k ≤ 3)
      rw [Nat.add_sub_cancel_left] at h
      obtain ⟨_, hnext, h⟩ := bind_eq_ok.mp h
      cases hnext
      obtain ⟨⟨value, stop'⟩, hread, h⟩ := bind_eq_ok.mp h
      obtain ⟨hmin, h⟩ := guard_eq_ok.mp h
      cases h
      obtain ⟨raw, hlen, hraw, hv⟩ := (readBe_eq_ok ha hcount).mp hread
      have hup : value.toNat < 256 ^ 2 ^ k := by
        rw [hv, ← hlen]
        exact ofBeBytes_lt raw
      rw [shortestHead_wide hk (Nat.le_of_not_lt hmin) hup, hv, ← hlen, toBeBytes_ofBeBytes]
      exact consumes_cons.mpr ⟨hb, hraw⟩
    · cases h
  · intro h
    obtain ⟨hs, hh⟩ | ⟨k, hk, hlow, hup, hh⟩ := shortestHead_cases m argument.toNat_lt
    · rw [hh] at h
      obtain ⟨hget, hrest⟩ := consumes_cons.mp h
      obtain ⟨rfl, _⟩ := consumes_nil.mp hrest
      obtain ⟨_, rfl⟩ := initialByte_injective hm hi hm (by omega)
        (Option.some.inj (hb.symm.trans hget))
      rw [if_pos (by omega)]
      have hv : (UInt8.ofNat argument.toNat : Byte).toUInt64 = argument := by
        apply UInt64.toNat_inj.mp
        rw [UInt8.toNat_toUInt64, hinfo]
      exact congrArg (fun a => Except.ok (a, pos + 1)) hv
    · rw [hh] at h
      obtain ⟨hget, hrest⟩ := consumes_cons.mp h
      obtain ⟨_, rfl⟩ := initialByte_injective hm hi hm (by omega)
        (Option.some.inj (hb.symm.trans hget))
      have hcount : 2 ^ k ≤ 8 := Nat.pow_le_pow_right (by decide) (by omega : k ≤ 3)
      have hread : readBe bytes (pos + 1) (2 ^ k) = .ok (argument, stop) :=
        (readBe_eq_ok ha hcount).mpr
          ⟨_, length_toBeBytes _ _, hrest, (ofBeBytes_toBeBytes hup).symm⟩
      rw [if_neg (by omega), if_pos (by omega), Nat.add_sub_cancel_left]
      apply bind_eq_ok.mpr
      refine ⟨_, rfl, bind_eq_ok.mpr ⟨_, hread, ?_⟩⟩
      exact guard_eq_ok.mpr ⟨Nat.not_lt.mpr hlow, rfl⟩

theorem take_eq_ok (ha : bytes.length ≤ usizeMax) (hpos : pos ≤ bytes.length) {length : ℕ}
    {raw : Bytes} :
    take bytes pos (bytes.length - pos) length = .ok (raw, stop) ↔
      raw.length = length ∧ Consumes bytes pos raw stop := by
  simp only [take]
  rw [guard_eq_ok]
  simp only [bind_eq_ok, add_eq_ok, orPanic_eq_ok, slice_eq_some]
  constructor
  · rintro ⟨_, _, ⟨rfl, _⟩, _, hraw, h⟩
    cases h
    exact ⟨by have := hraw.stops; omega, hraw⟩
  · rintro ⟨rfl, hraw⟩
    have hstop := hraw.stops
    have hin := hraw.inside
    exact ⟨by omega, stop, ⟨hstop, by omega⟩, raw, hraw, rfl⟩

end parser

/-! ## Items -/

theorem good_scalar {levels : ℕ} {v : Value} (hs : Scalar v) :
    Good (levels + 1) v ↔ StorableAt v := by
  constructor
  · exact fun h => h.storable.here
  · intro h
    refine ⟨(everywhere_scalar hs).mpr h, ?_, (everywhere_scalar hs).mpr ?_⟩
    · cases v with
      | array => cases hs
      | map => cases hs
      | _ => exact Nat.le_add_left 1 levels
    · cases v with
      | map => cases hs
      | _ => trivial

theorem good_array {levels : ℕ} {items : List Value} :
    Good (levels + 1) (.array items) ↔ items.length < 2 ^ 64 ∧ ∀ v ∈ items, Good levels v := by
  constructor
  · rintro ⟨hs, hd, hk⟩
    obtain ⟨hlen, hs⟩ := everywhere_array.mp hs
    exact ⟨hlen, fun v hv => ⟨hs v hv, depth_array_le.mp hd v hv, (everywhere_array.mp hk).2 v hv⟩⟩
  · rintro ⟨hlen, h⟩
    exact ⟨everywhere_array.mpr ⟨hlen, fun v hv => (h v hv).storable⟩,
      depth_array_le.mpr fun v hv => (h v hv).depth,
      everywhere_array.mpr ⟨trivial, fun v hv => (h v hv).distinct⟩⟩

theorem good_map {levels : ℕ} {entries : List (Value × Value)} :
    Good (levels + 1) (.map entries) ↔ entries.length < 2 ^ 64 ∧
      (entries.map fun e => canonical e.1).Nodup ∧
      ∀ e ∈ entries, Good levels e.1 ∧ Good levels e.2 := by
  constructor
  · rintro ⟨hs, hd, hk⟩
    obtain ⟨hlen, hs⟩ := everywhere_map.mp hs
    obtain ⟨hnodup, hk⟩ := everywhere_map.mp hk
    have hd := depth_map_le.mp hd
    exact ⟨hlen, hnodup, fun e he =>
      ⟨⟨(hs e he).1, (hd e he).1, (hk e he).1⟩, ⟨(hs e he).2, (hd e he).2, (hk e he).2⟩⟩⟩
  · rintro ⟨hlen, hnodup, h⟩
    exact ⟨everywhere_map.mpr ⟨hlen, fun e he => ⟨(h e he).1.storable, (h e he).2.storable⟩⟩,
      depth_map_le.mpr fun e he => ⟨(h e he).1.depth, (h e he).2.depth⟩,
      everywhere_map.mpr ⟨hnodup, fun e he => ⟨(h e he).1.distinct, (h e he).2.distinct⟩⟩⟩

theorem encode_good {levels : ℕ} (hl : levels ≤ maxDepth) {v : Value} (h : Good levels v) :
    encode v = .ok (canonical v) := encode_eq (Nat.le_trans h.depth hl) h.storable

/-- A parser of single items that accepts exactly the good values. -/
def Accepts (bytes : Bytes) (item : ℕ → Outcome (Value × ℕ)) (levels : ℕ) : Prop :=
  ∀ {pos v stop}, item pos = .ok (v, stop) ↔ Consumes bytes pos (wire v) stop ∧ Good levels v

section containers

variable {bytes : Bytes} {item : ℕ → Outcome (Value × ℕ)} {levels pos stop : ℕ}

theorem parseItems_eq_ok (hitem : Accepts bytes item levels) {count : ℕ} {items : List Value}
    (hpos : pos ≤ bytes.length) :
    parseItems item count pos = .ok (items, stop) ↔ items.length = count ∧
      Consumes bytes pos (items.flatMap wire) stop ∧ ∀ v ∈ items, Good levels v := by
  induction count generalizing pos items with
  | zero =>
    constructor
    · intro h
      cases h
      exact ⟨rfl, consumes_nil.mpr ⟨rfl, hpos⟩, fun _ h => by cases h⟩
    · rintro ⟨hlen, hc, _⟩
      obtain rfl := List.eq_nil_of_length_eq_zero hlen
      obtain ⟨rfl, _⟩ := consumes_nil.mp hc
      rfl
  | succ count ih =>
    simp only [parseItems]
    rw [bind_eq_ok]
    constructor
    · rintro ⟨⟨v, next⟩, hv, h⟩
      obtain ⟨⟨vs, stop'⟩, hvs, h⟩ := bind_eq_ok.mp h
      cases h
      obtain ⟨hc, hg⟩ := hitem.mp hv
      obtain ⟨rfl, hcs, hgs⟩ := (ih hc.inside).mp hvs
      exact ⟨rfl, hc.trans hcs, List.forall_mem_cons.mpr ⟨hg, hgs⟩⟩
    · rintro ⟨hlen, hc, hg⟩
      cases items with
      | nil => cases hlen
      | cons v vs =>
        obtain ⟨hgv, hgvs⟩ := List.forall_mem_cons.mp hg
        obtain ⟨next, hcv, hcvs⟩ := consumes_append.mp hc
        refine ⟨(v, next), hitem.mpr ⟨hcv, hgv⟩, ?_⟩
        exact bind_eq_ok.mpr ⟨(vs, stop),
          (ih hcv.inside).mpr ⟨Nat.succ.inj hlen, hcvs, hgvs⟩, rfl⟩

theorem parseEntries_eq_ok (hitem : Accepts bytes item levels) (hl : levels ≤ maxDepth)
    {count : ℕ} {entries : List (Value × Value)} {seen : List Bytes} (hpos : pos ≤ bytes.length) :
    parseEntries item count pos seen = .ok (entries, stop) ↔ entries.length = count ∧
      Consumes bytes pos (entries.flatMap entryWire) stop ∧
      (entries.map fun e => canonical e.1).Nodup ∧ (∀ e ∈ entries, canonical e.1 ∉ seen) ∧
      ∀ e ∈ entries, Good levels e.1 ∧ Good levels e.2 := by
  induction count generalizing pos entries seen with
  | zero =>
    constructor
    · intro h
      cases h
      exact ⟨rfl, consumes_nil.mpr ⟨rfl, hpos⟩, List.nodup_nil, (fun _ h => by cases h),
        fun _ h => by cases h⟩
    · rintro ⟨hlen, hc, _⟩
      obtain rfl := List.eq_nil_of_length_eq_zero hlen
      obtain ⟨rfl, _⟩ := consumes_nil.mp hc
      rfl
  | succ count ih =>
    simp only [parseEntries]
    rw [bind_eq_ok]
    constructor
    · rintro ⟨⟨key, next⟩, hk, h⟩
      obtain ⟨hck, hgk⟩ := hitem.mp hk
      obtain ⟨keyBytes, hkb, h⟩ := bind_eq_ok.mp h
      rw [orRefuse_eq_ok, encode_good hl hgk] at hkb
      obtain rfl := Option.some.inj hkb
      obtain ⟨hfresh, h⟩ := guard_eq_ok.mp h
      obtain ⟨⟨value, next'⟩, hv, h⟩ := bind_eq_ok.mp h
      obtain ⟨hcv, hgv⟩ := hitem.mp hv
      obtain ⟨⟨es, stop'⟩, hes, h⟩ := bind_eq_ok.mp h
      cases h
      obtain ⟨rfl, hces, hnodup, hseen, hges⟩ := (ih hcv.inside).mp hes
      refine ⟨rfl, (hck.trans hcv).trans hces, ?_, ?_, ?_⟩
      · rw [List.map_cons, List.nodup_cons]
        refine ⟨fun hmem => ?_, hnodup⟩
        obtain ⟨e, he, hke⟩ := List.mem_map.mp hmem
        exact hseen e he (hke ▸ List.mem_cons_self)
      · exact List.forall_mem_cons.mpr
          ⟨hfresh, fun e he hmem => hseen e he (List.mem_cons_of_mem _ hmem)⟩
      · exact List.forall_mem_cons.mpr ⟨⟨hgk, hgv⟩, hges⟩
    · rintro ⟨hlen, hc, hnodup, hseen, hg⟩
      cases entries with
      | nil => cases hlen
      | cons e es =>
        obtain ⟨⟨hgk, hgv⟩, hges⟩ := List.forall_mem_cons.mp hg
        obtain ⟨hfresh, hseen⟩ := List.forall_mem_cons.mp hseen
        rw [List.map_cons, List.nodup_cons] at hnodup
        obtain ⟨next', hce, hces⟩ := consumes_append.mp hc
        obtain ⟨next, hck, hcv⟩ := consumes_append.mp hce
        have hrest : ∀ d ∈ es, canonical d.1 ∉ canonical e.1 :: seen := by
          intro d hd hmem
          rcases List.mem_cons.mp hmem with heq | hmem
          · exact hnodup.1 (List.mem_map.mpr ⟨d, hd, heq⟩)
          · exact hseen d hd hmem
        refine ⟨(e.1, next), hitem.mpr ⟨hck, hgk⟩, ?_⟩
        apply bind_eq_ok.mpr
        refine ⟨canonical e.1, ?_, guard_eq_ok.mpr ⟨hfresh, ?_⟩⟩
        · rw [encode_good hl hgk]
          rfl
        · apply bind_eq_ok.mpr
          refine ⟨(e.2, next'), hitem.mpr ⟨hcv, hgv⟩, ?_⟩
          exact bind_eq_ok.mpr ⟨(es, stop),
            (ih hcv.inside).mpr ⟨Nat.succ.inj hlen, hces, hnodup.2, hrest, hges⟩, rfl⟩

end containers

theorem fromUTF8_eq_some {raw : Bytes} {s : String} :
    String.fromUTF8? ⟨raw.toArray⟩ = some s ↔ utf8 s = raw := by
  unfold String.fromUTF8?
  constructor
  · intro h
    split_ifs at h
    obtain rfl := Option.some.inj h
    rfl
  · rintro rfl
    have hbytes : (⟨(utf8 s).toArray⟩ : ByteArray) = s.toByteArray := rfl
    rw [hbytes, dif_pos s.isValidUTF8]
    rfl

theorem length_le_flatMap_wire (items : List Value) :
    items.length ≤ (items.flatMap wire).length := by
  induction items with
  | nil => exact le_refl _
  | cons v vs ih =>
    have hv := length_wire_pos v
    rw [List.flatMap_cons, List.length_append, List.length_cons]
    omega

theorem two_mul_length_le_flatMap_entryWire (entries : List (Value × Value)) :
    2 * entries.length ≤ (entries.flatMap entryWire).length := by
  induction entries with
  | nil => exact le_refl _
  | cons e es ih =>
    have hk := length_wire_pos e.1
    have hv := length_wire_pos e.2
    rw [List.flatMap_cons, List.length_append, List.length_cons, entryWire, List.length_append]
    omega

section content

variable {bytes : Bytes} {item : ℕ → Outcome (Value × ℕ)} {levels pos stop : ℕ}

theorem parseContent_eq_ok (ha : bytes.length ≤ usizeMax) (hitem : Accepts bytes item levels)
    (hl : levels ≤ maxDepth) (hpos : pos ≤ bytes.length) {m : ℕ} (hm : m < 6)
    {argument : UInt64} {v : Value} :
    parseContent bytes item (UInt8.ofNat m) argument pos = .ok (v, stop) ↔
      majorOf v = m ∧ argumentOf v = argument.toNat ∧ Consumes bytes pos (bodyOf v) stop ∧
        Good (levels + 1) v := by
  have hsub : sub bytes.length pos = .ok (bytes.length - pos) := sub_eq_ok.mpr ⟨hpos, rfl⟩
  have hlt := argument.toNat_lt
  simp only [parseContent]
  rw [hsub]
  constructor
  · intro h
    obtain ⟨_, hrem, h⟩ := bind_eq_ok.mp h
    cases hrem
    obtain rfl | rfl | rfl | rfl | rfl | rfl :
      m = 0 ∨ m = 1 ∨ m = 2 ∨ m = 3 ∨ m = 4 ∨ m = 5 := by omega
    · cases h
      exact ⟨rfl, rfl, consumes_nil.mpr ⟨rfl, hpos⟩, (good_scalar (by trivial)).mpr trivial⟩
    · cases h
      exact ⟨rfl, rfl, consumes_nil.mpr ⟨rfl, hpos⟩, (good_scalar (by trivial)).mpr trivial⟩
    · obtain ⟨⟨raw, stop'⟩, htake, h⟩ := bind_eq_ok.mp h
      cases h
      obtain ⟨hlen, hc⟩ := (take_eq_ok ha hpos).mp htake
      have hword : raw.length < 2 ^ 64 := hlen ▸ hlt
      exact ⟨rfl, hlen, hc, (good_scalar (by trivial)).mpr hword⟩
    · obtain ⟨⟨raw, stop'⟩, htake, h⟩ := bind_eq_ok.mp h
      obtain ⟨s, hs, h⟩ := bind_eq_ok.mp h
      cases h
      obtain ⟨hlen, hc⟩ := (take_eq_ok ha hpos).mp htake
      obtain rfl := fromUTF8_eq_some.mp (orRefuse_eq_ok.mp hs)
      have hword : (utf8 s).length < 2 ^ 64 := hlen ▸ hlt
      exact ⟨rfl, hlen, hc, (good_scalar (by trivial)).mpr hword⟩
    · obtain ⟨_, h⟩ := guard_eq_ok.mp h
      obtain ⟨⟨items, stop'⟩, hitems, h⟩ := bind_eq_ok.mp h
      cases h
      obtain ⟨hlen, hc, hg⟩ := (parseItems_eq_ok hitem hpos).mp hitems
      exact ⟨rfl, hlen, hc, good_array.mpr ⟨hlen ▸ hlt, hg⟩⟩
    · obtain ⟨_, h⟩ := guard_eq_ok.mp h
      obtain ⟨⟨entries, stop'⟩, hentries, h⟩ := bind_eq_ok.mp h
      cases h
      obtain ⟨hlen, hc, hnodup, _, hg⟩ := (parseEntries_eq_ok hitem hl hpos).mp hentries
      exact ⟨rfl, hlen, hc, good_map.mpr ⟨hlen ▸ hlt, hnodup, hg⟩⟩
  · rintro ⟨rfl, harg, hc, hg⟩
    have hstop := hc.stops
    have hin := hc.inside
    apply bind_eq_ok.mpr
    refine ⟨_, rfl, ?_⟩
    cases v with
    | unsigned n =>
      obtain rfl := UInt64.toNat_inj.mp harg
      obtain ⟨rfl, _⟩ := consumes_nil.mp hc
      rfl
    | negative n =>
      obtain rfl := UInt64.toNat_inj.mp harg
      obtain ⟨rfl, _⟩ := consumes_nil.mp hc
      rfl
    | bytes raw => exact bind_eq_ok.mpr ⟨_, (take_eq_ok ha hpos).mpr ⟨harg, hc⟩, rfl⟩
    | text s =>
      apply bind_eq_ok.mpr
      refine ⟨_, (take_eq_ok ha hpos).mpr ⟨harg, hc⟩, ?_⟩
      exact bind_eq_ok.mpr ⟨s, orRefuse_eq_ok.mpr (fromUTF8_eq_some.mpr rfl), rfl⟩
    | array items =>
      obtain ⟨_, hg⟩ := good_array.mp hg
      have hlen := length_le_flatMap_wire items
      have harg : items.length = argument.toNat := harg
      have hstop : pos + (items.flatMap wire).length = stop := hstop
      apply guard_eq_ok.mpr
      refine ⟨by omega, ?_⟩
      exact bind_eq_ok.mpr ⟨_, (parseItems_eq_ok hitem hpos).mpr ⟨harg, hc, hg⟩, rfl⟩
    | map entries =>
      obtain ⟨_, hnodup, hg⟩ := good_map.mp hg
      have hlen := two_mul_length_le_flatMap_entryWire entries
      have harg : entries.length = argument.toNat := harg
      have hstop : pos + (entries.flatMap entryWire).length = stop := hstop
      apply guard_eq_ok.mpr
      refine ⟨by omega, ?_⟩
      exact bind_eq_ok.mpr ⟨_, (parseEntries_eq_ok hitem hl hpos).mpr
        ⟨harg, hc, hnodup, (fun _ _ h => by cases h), hg⟩, rfl⟩
    | bool b => exact absurd hm (by simp [majorOf])
    | null => exact absurd hm (by simp [majorOf])

end content

theorem simpleValue_eq_ok {i : ℕ} (hi : i < 32) {v : Value} :
    simpleValue (UInt8.ofNat i) = .ok v ↔ majorOf v = 7 ∧ argumentOf v = i := by
  have hinfo : ∀ n < 32, UInt8.ofNat i = UInt8.ofNat n ↔ i = n := by
    intro n hn
    rw [← UInt8.toNat_inj, toNat_ofNat_of_lt (by omega), toNat_ofNat_of_lt (by omega)]
  have h20 : (UInt8.ofNat i : Byte) = 20 ↔ i = 20 := hinfo 20 (by decide)
  have h21 : (UInt8.ofNat i : Byte) = 21 ↔ i = 21 := hinfo 21 (by decide)
  have h22 : (UInt8.ofNat i : Byte) = 22 ↔ i = 22 := hinfo 22 (by decide)
  simp only [simpleValue, h20, h21, h22]
  constructor
  · intro h
    split_ifs at h with h1 h2 h3
    · cases h
      exact ⟨rfl, h1.symm⟩
    · cases h
      exact ⟨rfl, h2.symm⟩
    · cases h
      exact ⟨rfl, h3.symm⟩
    · cases h
  · rintro ⟨hm, rfl⟩
    cases v with
    | bool b => cases b <;> rfl
    | null => rfl
    | _ => cases hm

/-- The simple values are heads without a body. -/
theorem simple_of_major {v : Value} (h : majorOf v = 7) :
    Scalar v ∧ StorableAt v ∧ argumentOf v < 24 ∧ bodyOf v = [] := by
  cases v with
  | bool b => cases b <;> exact ⟨trivial, trivial, by decide, rfl⟩
  | null => exact ⟨trivial, trivial, by decide, rfl⟩
  | _ => cases h

theorem majorOf_ne_six (v : Value) : majorOf v < 8 ∧ majorOf v ≠ 6 := by
  cases v <;> exact ⟨by simp [majorOf], by simp [majorOf]⟩

theorem argumentOf_lt {v : Value} (h : StorableAt v) : argumentOf v < 2 ^ 64 := by
  cases v with
  | unsigned n => exact n.toNat_lt
  | negative n => exact n.toNat_lt
  | bool b => cases b <;> decide
  | null => decide
  | _ => exact h

theorem initialByte_of_consumes {bytes : Bytes} {m n pos stop : ℕ} (hn : n < 2 ^ 64)
    (h : Consumes bytes pos (shortestHead m n) stop) :
    ∃ i < 32, bytes[pos]? = some (initialByte m i) := by
  obtain ⟨hs, hh⟩ | ⟨k, hk, _, _, hh⟩ := shortestHead_cases m hn
  · exact ⟨n, by omega, (consumes_cons.mp (hh ▸ h)).1⟩
  · exact ⟨24 + k, by omega, (consumes_cons.mp (hh ▸ h)).1⟩

section layers

variable {bytes : Bytes} {levels pos stop : ℕ}

/-- Dispatch on the initial byte, whose major type and information are `m` and `i`. -/
theorem parseAt_step {m i : ℕ} (hm : m < 8) (hi : i < 32)
    (hb : bytes[pos]? = some (initialByte m i)) :
    parseAt bytes (levels + 1) pos =
      if m = 7 then do
        let value ← simpleValue (UInt8.ofNat i)
        let next ← add pos 1
        pure (value, next)
      else if m = 6 then refuse invalid
      else readArgument bytes pos (UInt8.ofNat i) >>= fun found =>
        parseContent bytes (parseAt bytes levels) (UInt8.ofNat m) found.1 found.2 := by
  obtain ⟨m', hm', i', hi', heq, hmajor, hinfo⟩ := initialByte_split (initialByte m i)
  obtain ⟨rfl, rfl⟩ := initialByte_injective hm hi hm' hi' heq
  have hmaj : ∀ n < 8, UInt8.ofNat m = UInt8.ofNat n ↔ m = n := by
    intro n hn
    rw [← UInt8.toNat_inj, toNat_ofNat_of_lt (by omega), toNat_ofNat_of_lt (by omega)]
  have h7 : (UInt8.ofNat m : Byte) = 7 ↔ m = 7 := hmaj 7 (by decide)
  have h6 : (UInt8.ofNat m : Byte) = 6 ↔ m = 6 := hmaj 6 (by decide)
  have hget : orRefuse bytes[pos]? invalid = .ok (initialByte m i) := orRefuse_eq_ok.mpr hb
  simp only [parseAt]
  rw [hget]
  change (if initialByte m i >>> 5 = 7 then _ else _) = _
  simp only [hmajor, hinfo, h7, h6]

/-- One call of the parser, at any cursor and with any levels left. -/
theorem parseAt_eq_ok (ha : bytes.length ≤ usizeMax) (hl : levels ≤ maxDepth) :
    Accepts bytes (parseAt bytes levels) levels := by
  induction levels with
  | zero =>
    intro pos v stop
    constructor
    · intro h
      cases h
    · rintro ⟨_, hg⟩
      exact absurd hg.depth (by have := depth_pos v; omega)
  | succ levels ih =>
    have hl' : levels ≤ maxDepth := by omega
    have hitem : Accepts bytes (parseAt bytes levels) levels := ih hl'
    intro pos v stop
    rw [wire_eq]
    constructor
    · intro h
      obtain ⟨b, hb, _⟩ := bind_eq_ok.mp h
      rw [orRefuse_eq_ok] at hb
      have hin : pos < bytes.length := (List.getElem?_eq_some_iff.mp hb).1
      obtain ⟨m, hm, i, hi, rfl, _, _⟩ := initialByte_split b
      rw [parseAt_step hm hi hb] at h
      split_ifs at h with h7 h6
      · obtain ⟨value, hv, h⟩ := bind_eq_ok.mp h
        obtain ⟨next, hnext, h⟩ := bind_eq_ok.mp h
        cases h
        obtain ⟨rfl, _⟩ := add_eq_ok.mp hnext
        obtain ⟨hmaj, rfl⟩ := (simpleValue_eq_ok hi).mp hv
        obtain ⟨hs, hstore, harg, hbody⟩ := simple_of_major hmaj
        refine ⟨?_, (good_scalar hs).mpr hstore⟩
        rw [hbody, List.append_nil, shortestHead_immediate harg, hmaj, ← h7]
        exact consumes_cons.mpr ⟨hb, consumes_nil.mpr ⟨rfl, hin⟩⟩
      · cases h
      · obtain ⟨⟨argument, next⟩, harg, h⟩ := bind_eq_ok.mp h
        have hhead := (readArgument_eq_ok ha hm hi hb).mp harg
        obtain ⟨rfl, hargument, hbody, hg⟩ :=
          (parseContent_eq_ok ha hitem hl' hhead.inside (by omega : m < 6)).mp h
        rw [hargument]
        exact ⟨hhead.trans hbody, hg⟩
    · rintro ⟨hc, hg⟩
      obtain ⟨next, hhead, hbody⟩ := consumes_append.mp hc
      have hlt := argumentOf_lt hg.storable.here
      obtain ⟨hm, hne⟩ := majorOf_ne_six v
      obtain ⟨i, hi, hb⟩ := initialByte_of_consumes hlt hhead
      have hin : pos < bytes.length := (List.getElem?_eq_some_iff.mp hb).1
      rw [parseAt_step hm hi hb]
      split_ifs with h7
      · obtain ⟨_, _, harg, hnil⟩ := simple_of_major h7
        rw [shortestHead_immediate harg] at hhead
        obtain ⟨hget, hrest⟩ := consumes_cons.mp hhead
        obtain ⟨rfl, _⟩ := consumes_nil.mp hrest
        rw [hnil] at hbody
        obtain ⟨rfl, _⟩ := consumes_nil.mp hbody
        obtain ⟨_, rfl⟩ := initialByte_injective hm hi hm (by omega)
          (Option.some.inj (hb.symm.trans hget))
        apply bind_eq_ok.mpr
        refine ⟨v, (simpleValue_eq_ok hi).mpr ⟨h7, rfl⟩, ?_⟩
        exact bind_eq_ok.mpr ⟨_, add_eq_ok.mpr ⟨rfl, by omega⟩, rfl⟩
      · have hv : (UInt64.ofNat (argumentOf v)).toNat = argumentOf v :=
          UInt64.toNat_ofNat_of_lt' hlt
        have hread := (readArgument_eq_ok ha hm hi hb).mpr (hv.symm ▸ hhead)
        apply bind_eq_ok.mpr
        refine ⟨_, hread, ?_⟩
        exact (parseContent_eq_ok ha hitem hl' hhead.inside (by omega)).mpr
          ⟨rfl, hv.symm, hbody, hg⟩

theorem parse_eq_ok (ha : bytes.length ≤ usizeMax) {v : Value} :
    parse bytes = .ok v ↔ Strict bytes v := by
  have hparse := @parseAt_eq_ok bytes maxDepth ha (le_refl _)
  unfold parse parseItem
  rw [bind_eq_ok]
  constructor
  · rintro ⟨⟨w, consumed⟩, h, hend⟩
    obtain ⟨hlen, hv⟩ := guard_eq_ok.mp hend
    cases hv
    obtain ⟨hc, hg⟩ := hparse.mp h
    rw [not_not.mp hlen, consumes_all] at hc
    exact ⟨encodes_iff.mpr ⟨hg.storable, hc.symm⟩, hg.depth, hg.distinct⟩
  · rintro ⟨he, hd, hk⟩
    obtain ⟨hs, hb⟩ := encodes_iff.mp he
    refine ⟨(v, bytes.length), hparse.mpr ⟨consumes_all.mpr hb.symm, hs, hd, hk⟩, ?_⟩
    exact guard_eq_ok.mpr ⟨not_not.mpr rfl, rfl⟩

end layers

/-! ## Nothing panics -/

def Safe {α : Type} (x : Outcome α) : Prop := x ≠ .error .panicked

section safe

variable {α β : Type}

theorem safe_ok (y : α) : Safe (.ok y : Outcome α) := fun h => by cases h

theorem safe_refuse (e : Error) : Safe (refuse e : Outcome α) := fun h => by cases h

theorem safe_orRefuse (x : Option α) (e : Error) : Safe (orRefuse x e) := by
  cases x with
  | none => exact safe_refuse e
  | some y => exact safe_ok y

theorem safe_bind {x : Outcome α} {f : α → Outcome β} (hx : Safe x)
    (hf : ∀ y, x = .ok y → Safe (f y)) : Safe (x >>= f) := by
  cases x with
  | error e => exact fun h => hx (by cases h; rfl)
  | ok y => exact hf y rfl

theorem safe_guard {p : Prop} [Decidable p] {e : Error} {x : Outcome α} (hx : ¬p → Safe x) :
    Safe (if p then refuse e else x) := by
  split_ifs with h
  · exact safe_refuse e
  · exact hx h

theorem safe_add {a b : ℕ} (h : a + b ≤ usizeMax) : Safe (add a b) := by
  rw [add_eq_ok.mpr ⟨rfl, h⟩]
  exact safe_ok _

end safe

section layers

variable {bytes : Bytes} {item : ℕ → Outcome (Value × ℕ)} {pos : ℕ}

theorem readArgument_safe (ha : bytes.length ≤ usizeMax) (hpos : pos < bytes.length)
    (info : UInt8) : Safe (readArgument bytes pos info) := by
  have hadd : Safe (add pos 1) := safe_add (by omega)
  simp only [readArgument]
  split_ifs
  · exact safe_bind hadd fun _ _ => safe_ok _
  · refine safe_bind hadd fun _ _ => safe_bind ?_ fun _ _ => safe_guard fun _ => safe_ok _
    exact safe_bind (safe_orRefuse _ _) fun _ _ =>
      safe_bind (safe_orRefuse _ _) fun _ _ => safe_ok _
  · exact safe_refuse _

theorem take_safe (ha : bytes.length ≤ usizeMax) (hpos : pos ≤ bytes.length) (length : ℕ) :
    Safe (take bytes pos (bytes.length - pos) length) := by
  refine safe_guard fun hle => safe_bind (safe_add (by omega)) fun stop hstop => ?_
  obtain ⟨rfl, _⟩ := add_eq_ok.mp hstop
  have hslice : orPanic (slice bytes pos (pos + length)) =
      .ok ((bytes.drop pos).take (pos + length - pos)) :=
    orPanic_eq_ok.mpr (if_pos (by omega))
  rw [hslice]
  exact safe_ok _

theorem parseItems_safe (hitem : ∀ cursor, Safe (item cursor)) (count cursor : ℕ) :
    Safe (parseItems item count cursor) := by
  induction count generalizing cursor with
  | zero => exact safe_ok _
  | succ count ih =>
    exact safe_bind (hitem cursor) fun _ _ => safe_bind (ih _) fun _ _ => safe_ok _

theorem parseEntries_safe (hitem : ∀ cursor, Safe (item cursor)) (count cursor : ℕ)
    (seen : List Bytes) : Safe (parseEntries item count cursor seen) := by
  induction count generalizing cursor seen with
  | zero => exact safe_ok _
  | succ count ih =>
    refine safe_bind (hitem cursor) fun _ _ => safe_bind (safe_orRefuse _ _) fun _ _ => ?_
    refine safe_guard fun _ => safe_bind (hitem _) fun _ _ => ?_
    exact safe_bind (ih _ _) fun _ _ => safe_ok _

theorem parseContent_safe (ha : bytes.length ≤ usizeMax) (hitem : ∀ cursor, Safe (item cursor))
    (hpos : pos ≤ bytes.length) {m : ℕ} (hm : m < 6) (argument : UInt64) :
    Safe (parseContent bytes item (UInt8.ofNat m) argument pos) := by
  have hsub : sub bytes.length pos = .ok (bytes.length - pos) := sub_eq_ok.mpr ⟨hpos, rfl⟩
  simp only [parseContent]
  rw [hsub]
  refine safe_bind (safe_ok _) fun remaining hrem => ?_
  cases hrem
  obtain rfl | rfl | rfl | rfl | rfl | rfl :
    m = 0 ∨ m = 1 ∨ m = 2 ∨ m = 3 ∨ m = 4 ∨ m = 5 := by omega
  · exact safe_ok _
  · exact safe_ok _
  · exact safe_bind (take_safe ha hpos _) fun _ _ => safe_ok _
  · exact safe_bind (take_safe ha hpos _) fun _ _ =>
      safe_bind (safe_orRefuse _ _) fun _ _ => safe_ok _
  · exact safe_guard fun _ => safe_bind (parseItems_safe hitem _ _) fun _ _ => safe_ok _
  · exact safe_guard fun _ => safe_bind (parseEntries_safe hitem _ _ _) fun _ _ => safe_ok _

/-- The cursor stays inside the input, so no addition, subtraction or slice can fail. -/
theorem parseAt_safe (ha : bytes.length ≤ usizeMax) (levels cursor : ℕ) :
    Safe (parseAt bytes levels cursor) := by
  induction levels generalizing cursor with
  | zero => exact safe_refuse _
  | succ levels ih =>
    cases hget : bytes[cursor]? with
    | none =>
      simp only [parseAt]
      rw [hget]
      exact safe_refuse _
    | some b =>
      have hin : cursor < bytes.length := (List.getElem?_eq_some_iff.mp hget).1
      obtain ⟨m, hm, i, hi, rfl, _, _⟩ := initialByte_split b
      rw [parseAt_step hm hi hget]
      split_ifs with h7 h6
      · refine safe_bind ?_ fun _ _ => safe_bind (safe_add (by omega)) fun _ _ => safe_ok _
        simp only [simpleValue]
        split_ifs
        · exact safe_ok _
        · exact safe_ok _
        · exact safe_ok _
        · exact safe_refuse _
      · exact safe_refuse _
      · refine safe_bind (readArgument_safe ha hin _) fun found hfound => ?_
        have hhead := (readArgument_eq_ok ha hm hi hget).mp hfound
        exact parseContent_safe ha ih hhead.inside (by omega) _

theorem parse_safe (ha : bytes.length ≤ usizeMax) : Safe (parse bytes) :=
  safe_bind (parseAt_safe ha _ _) fun _ _ => safe_guard fun _ => safe_ok _

end layers

/-- The parser accepts exactly the strict language, one byte string for each value, and
runs out of range on no input. -/
theorem parse_strict (bytes : Bytes) (ha : bytes.length ≤ usizeMax) :
    (∀ v, parse bytes = .ok v ↔ Strict bytes v) ∧
    (∀ bytes' v, bytes'.length ≤ usizeMax → parse bytes = .ok v → parse bytes' = .ok v →
      bytes = bytes') ∧
    parse bytes ≠ .error .panicked := by
  refine ⟨fun v => parse_eq_ok ha, ?_, parse_safe ha⟩
  intro bytes' v ha' h h'
  have he := ((parse_eq_ok ha).mp h).encodes
  have he' := ((parse_eq_ok ha').mp h').encodes
  exact (encodes_iff.mp he).2.trans (encodes_iff.mp he').2.symm

def mixedKeys : Value :=
  .map [(.negative 0, .array [.unsigned 24]), (.text "a", .null), (.unsigned 1, .bool true)]

def mixedKeysBytes : Bytes := [0xa3, 0x20, 0x81, 0x18, 0x18, 0x61, 0x61, 0xf6, 0x01, 0xf5]

/-- Keys of three types, in an order the encoder would not choose. -/
theorem parse_strict_mixed_keys :
    Strict mixedKeysBytes mixedKeys ∧ parse mixedKeysBytes ≠ .error .panicked ∧
      mixedKeysBytes = wire mixedKeys := by
  obtain ⟨hiff, hinj, hsafe⟩ := parse_strict mixedKeysBytes (by decide)
  have h : parse mixedKeysBytes = .ok mixedKeys := rfl
  have hw : parse (wire mixedKeys) = .ok mixedKeys := rfl
  exact ⟨(hiff _).mp h, hsafe, hinj _ _ (by decide) h hw⟩

end CtapCborParser
