import LibCanokey.CtapCbor

/-! # The strict CTAP2 data language

The encodings of a value, stated apart from the routines that read and write them: the
shortest definite-length heads, the grammar of items, and the canonical order of maps. -/
namespace CtapCborLanguage

open BigEndian KeyedSorting CtapCbor

/-! ## Heads -/

/-- Three bits of major type, then five of additional information. -/
def initialByte (major info : ℕ) : Byte := UInt8.ofNat (32 * major + info)

/-- The definite-length heads that carry the argument `n`, of any width. -/
inductive HeadForm (major n : ℕ) : Bytes → Prop where
  | immediate : n < 24 → HeadForm major n [initialByte major n]
  | wide (k : ℕ) : k < 4 → n < 256 ^ 2 ^ k →
      HeadForm major n (initialByte major (24 + k) :: toBeBytes (2 ^ k) n)

structure Shortest (major n : ℕ) (bs : Bytes) : Prop where
  form : HeadForm major n bs
  least : ∀ bs', HeadForm major n bs' → bs.length ≤ bs'.length

def shortestHead (major n : ℕ) : Bytes :=
  if n < 24 then [initialByte major n]
  else if n < 2 ^ 8 then initialByte major 24 :: toBeBytes 1 n
  else if n < 2 ^ 16 then initialByte major 25 :: toBeBytes 2 n
  else if n < 2 ^ 32 then initialByte major 26 :: toBeBytes 4 n
  else initialByte major 27 :: toBeBytes 8 n

/-- The least argument of a width is one past the greatest of the width before. -/
theorem minimum_succ (k : ℕ) : minimum (2 ^ (k + 1)) = 256 ^ 2 ^ k := by
  have hne : 2 ^ (k + 1) ≠ 1 := by
    rw [Nat.pow_succ]
    omega
  rw [minimum, if_neg hne, Nat.pow_succ, Nat.mul_div_cancel _ (by decide), pow_mul]
  norm_num

theorem shortestHead_immediate {major n : ℕ} (h : n < 24) :
    shortestHead major n = [initialByte major n] := if_pos h

/-- A width is the shortest when the next smaller one is too narrow. -/
theorem shortestHead_wide {major n k : ℕ} (hk : k < 4) (hlow : minimum (2 ^ k) ≤ n)
    (hup : n < 256 ^ 2 ^ k) :
    shortestHead major n = initialByte major (24 + k) :: toBeBytes (2 ^ k) n := by
  obtain rfl | rfl | rfl | rfl : k = 0 ∨ k = 1 ∨ k = 2 ∨ k = 3 := by omega
  all_goals
    simp only [minimum] at hlow
    norm_num at hlow hup
    simp only [shortestHead]
  · rw [if_neg (by omega), if_pos (by omega)]
    rfl
  · rw [if_neg (by omega), if_neg (by omega), if_pos (by omega)]
    rfl
  · rw [if_neg (by omega), if_neg (by omega), if_neg (by omega), if_pos (by omega)]
    rfl
  · rw [if_neg (by omega), if_neg (by omega), if_neg (by omega), if_neg (by omega)]
    rfl

/-- Every 64-bit argument from 24 on has a width. -/
theorem exists_width {n : ℕ} (h : 24 ≤ n) (hn : n < 2 ^ 64) :
    ∃ k < 4, minimum (2 ^ k) ≤ n ∧ n < 256 ^ 2 ^ k := by
  by_cases h1 : n < 2 ^ 8
  · exact ⟨0, by decide, by simpa [minimum] using h, by norm_num; omega⟩
  by_cases h2 : n < 2 ^ 16
  · exact ⟨1, by decide, by norm_num [minimum]; omega, by norm_num; omega⟩
  by_cases h4 : n < 2 ^ 32
  · exact ⟨2, by decide, by norm_num [minimum]; omega, by norm_num; omega⟩
  · exact ⟨3, by decide, by norm_num [minimum]; omega, by norm_num; omega⟩

theorem shortestHead_cases (major : ℕ) {n : ℕ} (hn : n < 2 ^ 64) :
    (n < 24 ∧ shortestHead major n = [initialByte major n]) ∨
    ∃ k < 4, minimum (2 ^ k) ≤ n ∧ n < 256 ^ 2 ^ k ∧
      shortestHead major n = initialByte major (24 + k) :: toBeBytes (2 ^ k) n := by
  by_cases h : n < 24
  · exact Or.inl ⟨h, shortestHead_immediate h⟩
  · obtain ⟨k, hk, hlow, hup⟩ := exists_width (by omega) hn
    exact Or.inr ⟨k, hk, hlow, hup, shortestHead_wide hk hlow hup⟩

theorem HeadForm.eq_of_length {major n : ℕ} {as bs : Bytes} (ha : HeadForm major n as)
    (hb : HeadForm major n bs) (h : as.length = bs.length) : as = bs := by
  cases ha with
  | immediate _ =>
    cases hb with
    | immediate _ => rfl
    | wide k _ _ =>
      have hp : 0 < 2 ^ k := Nat.two_pow_pos k
      simp at h
  | wide k _ _ =>
    cases hb with
    | immediate _ =>
      have hp : 0 < 2 ^ k := Nat.two_pow_pos k
      simp at h
    | wide j _ _ =>
      rw [List.length_cons, List.length_cons, length_toBeBytes, length_toBeBytes] at h
      obtain rfl : k = j := Nat.pow_right_injective (le_refl 2) (Nat.succ.inj h)
      rfl

theorem HeadForm.lt {major n : ℕ} {bs : Bytes} (h : HeadForm major n bs) : n < 2 ^ 64 := by
  cases h with
  | immediate h => omega
  | wide k hk h =>
    calc n < 256 ^ 2 ^ k := h
      _ ≤ 256 ^ 8 := Nat.pow_le_pow_right (by decide) (by
        calc 2 ^ k ≤ 2 ^ 3 := Nat.pow_le_pow_right (by decide) (by omega)
          _ = 8 := by decide)
      _ = 2 ^ 64 := by decide

theorem shortestHead_shortest {major n : ℕ} (hn : n < 2 ^ 64) :
    Shortest major n (shortestHead major n) := by
  by_cases h : n < 24
  · rw [shortestHead_immediate h]
    refine ⟨.immediate h, fun bs' hb => ?_⟩
    cases hb with
    | immediate _ => exact le_refl _
    | wide k _ _ => simp
  · obtain ⟨k, hk, hlow, hup⟩ := exists_width (by omega) hn
    rw [shortestHead_wide hk hlow hup]
    refine ⟨.wide k hk hup, fun bs' hb => ?_⟩
    cases hb with
    | immediate h' => exact absurd h' h
    | wide j hj hup' =>
      have hjk : k ≤ j := by
        by_contra hlt
        obtain ⟨i, rfl⟩ : ∃ i, k = i + 1 := ⟨k - 1, by omega⟩
        have hmin : 256 ^ 2 ^ j ≤ minimum (2 ^ (i + 1)) := by
          rw [minimum_succ]
          exact Nat.pow_le_pow_right (by decide) (Nat.pow_le_pow_right (by decide) (by omega))
        omega
      rw [List.length_cons, List.length_cons, length_toBeBytes, length_toBeBytes]
      exact Nat.succ_le_succ (Nat.pow_le_pow_right (by decide) hjk)

theorem shortest_iff {major n : ℕ} {bs : Bytes} :
    Shortest major n bs ↔ n < 2 ^ 64 ∧ bs = shortestHead major n := by
  constructor
  · intro h
    have hs : Shortest major n (shortestHead major n) := shortestHead_shortest h.form.lt
    exact ⟨h.form.lt, h.form.eq_of_length hs.form
      (Nat.le_antisymm (h.least _ hs.form) (hs.least _ h.form))⟩
  · rintro ⟨hn, rfl⟩
    exact shortestHead_shortest hn

/-! ## The grammar -/

mutual

/-- A value's encodings: shortest heads, entries in the order the value holds. -/
inductive Encodes : Value → Bytes → Prop where
  | unsigned (n : UInt64) {h} : Shortest 0 n.toNat h → Encodes (.unsigned n) h
  | negative (n : UInt64) {h} : Shortest 1 n.toNat h → Encodes (.negative n) h
  | bytes (raw) {h} : Shortest 2 raw.length h → Encodes (.bytes raw) (h ++ raw)
  | text (s) {h} : Shortest 3 (utf8 s).length h → Encodes (.text s) (h ++ utf8 s)
  | array {items h body} : Shortest 4 items.length h → EncodesItems items body →
      Encodes (.array items) (h ++ body)
  | map {entries h body} : Shortest 5 entries.length h → EncodesEntries entries body →
      Encodes (.map entries) (h ++ body)
  | false : Encodes (.bool false) [0xf4]
  | true : Encodes (.bool true) [0xf5]
  | null : Encodes .null [0xf6]

inductive EncodesItems : List Value → Bytes → Prop where
  | nil : EncodesItems [] []
  | cons {v vs b bs} : Encodes v b → EncodesItems vs bs → EncodesItems (v :: vs) (b ++ bs)

inductive EncodesEntries : List (Value × Value) → Bytes → Prop where
  | nil : EncodesEntries [] []
  | cons {k v es kb vb bs} : Encodes k kb → Encodes v vb → EncodesEntries es bs →
      EncodesEntries ((k, v) :: es) (kb ++ vb ++ bs)

end

mutual

def wire : Value → Bytes
  | .unsigned n => shortestHead 0 n.toNat
  | .negative n => shortestHead 1 n.toNat
  | .bytes raw => shortestHead 2 raw.length ++ raw
  | .text s => shortestHead 3 (utf8 s).length ++ utf8 s
  | .array items => shortestHead 4 items.length ++ wireItems items
  | .map entries => shortestHead 5 entries.length ++ wireEntries entries
  | .bool false => [0xf4]
  | .bool true => [0xf5]
  | .null => [0xf6]

def wireItems : List Value → Bytes
  | [] => []
  | v :: vs => wire v ++ wireItems vs

def wireEntries : List (Value × Value) → Bytes
  | [] => []
  | (k, v) :: es => wire k ++ wire v ++ wireEntries es

end

mutual

/-- Levels of nesting; a scalar or an empty container has one. -/
def depth : Value → ℕ
  | .unsigned _ | .negative _ | .bytes _ | .text _ | .bool _ | .null => 1
  | .array items => itemsDepth items + 1
  | .map entries => entriesDepth entries + 1

def itemsDepth : List Value → ℕ
  | [] => 0
  | v :: vs => max (depth v) (itemsDepth vs)

def entriesDepth : List (Value × Value) → ℕ
  | [] => 0
  | (k, v) :: es => max (max (depth k) (depth v)) (entriesDepth es)

end

mutual

/-- The entries of every map, inside keys too, sorted by their encoded keys. -/
def sort : Value → Value
  | .unsigned n => .unsigned n
  | .negative n => .negative n
  | .bytes raw => .bytes raw
  | .text s => .text s
  | .array items => .array (sortItems items)
  | .map entries => .map (sortBy keyOrder (fun e => wire e.1) (sortEntries entries))
  | .bool b => .bool b
  | .null => .null

def sortItems : List Value → List Value
  | [] => []
  | v :: vs => sort v :: sortItems vs

def sortEntries : List (Value × Value) → List (Value × Value)
  | [] => []
  | (k, v) :: es => (sort k, sort v) :: sortEntries es

end

/-- Anything that is neither an array nor a map has no parts. -/
def Scalar : Value → Prop
  | .array _ | .map _ => False
  | _ => True

theorem value_induction {P : Value → Prop} (scalar : ∀ v, Scalar v → P v)
    (array : ∀ items, (∀ v ∈ items, P v) → P (.array items))
    (map : ∀ entries, (∀ e ∈ entries, P e.1 ∧ P e.2) → P (.map entries)) (v : Value) : P v :=
  @Value.rec P (fun items => ∀ v ∈ items, P v) (fun entries => ∀ e ∈ entries, P e.1 ∧ P e.2)
    (fun e => P e.1 ∧ P e.2) (fun _ => scalar _ trivial) (fun _ => scalar _ trivial)
    (fun _ => scalar _ trivial) (fun _ => scalar _ trivial) array map
    (fun _ => scalar _ trivial) (scalar _ trivial)
    (fun _ h => by cases h) (fun _ _ hv hvs => List.forall_mem_cons.mpr ⟨hv, hvs⟩)
    (fun _ h => by cases h) (fun _ _ he hes => List.forall_mem_cons.mpr ⟨he, hes⟩)
    (fun _ _ hk hv => ⟨hk, hv⟩) v

def entryWire (entry : Value × Value) : Bytes := wire entry.1 ++ wire entry.2

def sortEntry (entry : Value × Value) : Value × Value := (sort entry.1, sort entry.2)

theorem wire_array (items : List Value) :
    wire (.array items) = shortestHead 4 items.length ++ items.flatMap wire := by
  rw [wire]
  congr 1
  induction items with
  | nil => rfl
  | cons v vs ih => rw [wireItems, ih, List.flatMap_cons]

theorem wire_map (entries : List (Value × Value)) :
    wire (.map entries) = shortestHead 5 entries.length ++ entries.flatMap entryWire := by
  rw [wire]
  congr 1
  induction entries with
  | nil => rfl
  | cons e es ih => rw [wireEntries, ih, List.flatMap_cons, entryWire]

theorem sort_array (items : List Value) : sort (.array items) = .array (items.map sort) := by
  rw [sort]
  congr 1
  induction items with
  | nil => rfl
  | cons v vs ih => rw [sortItems, ih, List.map_cons]

theorem sort_map (entries : List (Value × Value)) :
    sort (.map entries) =
      .map (sortBy keyOrder (fun e => wire e.1) (entries.map sortEntry)) := by
  have h : sortEntries entries = entries.map sortEntry := by
    induction entries with
    | nil => rfl
    | cons e es ih => rw [sortEntries, ih, List.map_cons, sortEntry]
  rw [sort, h]

theorem depth_pos (v : Value) : 1 ≤ depth v := by cases v <;> simp [depth]

theorem depth_array_le {items : List Value} {n : ℕ} :
    depth (.array items) ≤ n + 1 ↔ ∀ v ∈ items, depth v ≤ n := by
  rw [depth, Nat.add_le_add_iff_right]
  induction items with
  | nil => simp [itemsDepth]
  | cons v vs ih => rw [itemsDepth, Nat.max_le, ih, List.forall_mem_cons]

theorem depth_map_le {entries : List (Value × Value)} {n : ℕ} :
    depth (.map entries) ≤ n + 1 ↔ ∀ e ∈ entries, depth e.1 ≤ n ∧ depth e.2 ≤ n := by
  rw [depth, Nat.add_le_add_iff_right]
  induction entries with
  | nil => simp [entriesDepth]
  | cons e es ih => rw [entriesDepth, Nat.max_le, Nat.max_le, ih, List.forall_mem_cons]

def majorOf : Value → ℕ
  | .unsigned _ => 0
  | .negative _ => 1
  | .bytes _ => 2
  | .text _ => 3
  | .array _ => 4
  | .map _ => 5
  | .bool _ | .null => 7

def argumentOf : Value → ℕ
  | .unsigned n | .negative n => n.toNat
  | .bytes raw => raw.length
  | .text s => (utf8 s).length
  | .array items => items.length
  | .map entries => entries.length
  | .bool false => 20
  | .bool true => 21
  | .null => 22

def bodyOf : Value → Bytes
  | .bytes raw => raw
  | .text s => utf8 s
  | .array items => items.flatMap wire
  | .map entries => entries.flatMap entryWire
  | _ => []

/-- Every encoding is a head and a body; the simple values are heads of major type seven. -/
theorem wire_eq (v : Value) : wire v = shortestHead (majorOf v) (argumentOf v) ++ bodyOf v := by
  cases v with
  | array items => exact wire_array items
  | map entries => exact wire_map entries
  | bool b => cases b <;> rfl
  | bytes raw => rfl
  | text s => rfl
  | null => rfl
  | _ => exact (List.append_nil _).symm

/-! ## Conditions at every level -/

inductive Within (w : Value) : Value → Prop where
  | self : Within w w
  | item {v items} : v ∈ items → Within w v → Within w (.array items)
  | key {e entries} : e ∈ entries → Within w e.1 → Within w (.map entries)
  | value {e entries} : e ∈ entries → Within w e.2 → Within w (.map entries)

def Everywhere (p : Value → Prop) (v : Value) : Prop := ∀ w, Within w v → p w

/-- The encoding of a value in canonical map order, whatever its depth. -/
def canonical (v : Value) : Bytes := wire (sort v)

/-- Every length in memory fits the machine word. -/
def StorableAt : Value → Prop
  | .bytes raw => raw.length < 2 ^ 64
  | .text s => (utf8 s).length < 2 ^ 64
  | .array items => items.length < 2 ^ 64
  | .map entries => entries.length < 2 ^ 64
  | _ => True

def DistinctKeysAt : Value → Prop
  | .map entries => (entries.map fun e => canonical e.1).Nodup
  | _ => True

def OrderedAt : Value → Prop
  | .map entries => entries.Pairwise (KeyLe keyOrder fun e => canonical e.1)
  | _ => True

abbrev Storable : Value → Prop := Everywhere StorableAt

abbrev DistinctKeys : Value → Prop := Everywhere DistinctKeysAt

abbrev Ordered : Value → Prop := Everywhere OrderedAt

/-- Values held in memory, at most `levels` deep, with distinct keys in every map. -/
structure Good (levels : ℕ) (v : Value) : Prop where
  storable : Storable v
  depth : depth v ≤ levels
  distinct : DistinctKeys v

/-- The byte strings of the language; a text string is valid UTF-8 by its type. -/
structure Strict (b : Bytes) (v : Value) : Prop where
  encodes : Encodes v b
  depth : depth v ≤ maxDepth
  distinct : DistinctKeys v

section everywhere

variable {p q : Value → Prop}

theorem Everywhere.here {v : Value} (h : Everywhere p v) : p v := h v .self

theorem everywhere_array {items : List Value} :
    Everywhere p (.array items) ↔ p (.array items) ∧ ∀ v ∈ items, Everywhere p v := by
  constructor
  · exact fun h => ⟨h.here, fun v hv w hw => h w (.item hv hw)⟩
  · rintro ⟨h, hitems⟩ w hw
    cases hw with
    | self => exact h
    | item hv hw => exact hitems _ hv w hw

theorem everywhere_map {entries : List (Value × Value)} :
    Everywhere p (.map entries) ↔
      p (.map entries) ∧ ∀ e ∈ entries, Everywhere p e.1 ∧ Everywhere p e.2 := by
  constructor
  · exact fun h => ⟨h.here, fun e he =>
      ⟨fun w hw => h w (.key he hw), fun w hw => h w (.value he hw)⟩⟩
  · rintro ⟨h, hentries⟩ w hw
    cases hw with
    | self => exact h
    | key he hw => exact (hentries _ he).1 w hw
    | value he hw => exact (hentries _ he).2 w hw

theorem everywhere_scalar {v : Value} (hs : Scalar v) : Everywhere p v ↔ p v := by
  refine ⟨Everywhere.here, fun h w hw => ?_⟩
  cases hw with
  | self => exact h
  | item => cases hs
  | key => cases hs
  | value => cases hs

theorem sort_scalar {v : Value} (hs : Scalar v) : sort v = v := by
  cases v with
  | array => cases hs
  | map => cases hs
  | _ => rfl

/-- A condition that sorting turns into another one does so at every level. -/
theorem everywhere_sort (h : ∀ v, p v → q (sort v)) {v : Value} (hv : Everywhere p v) :
    Everywhere q (sort v) := by
  induction v using value_induction with
  | array items ih =>
    have hq := h _ hv.here
    rw [sort_array] at hq ⊢
    refine everywhere_array.mpr ⟨hq, fun w hw => ?_⟩
    obtain ⟨v, hm, rfl⟩ := List.mem_map.mp hw
    exact ih v hm ((everywhere_array.mp hv).2 v hm)
  | map entries ih =>
    have hq := h _ hv.here
    rw [sort_map] at hq ⊢
    refine everywhere_map.mpr ⟨hq, fun w hw => ?_⟩
    obtain ⟨e, hm, rfl⟩ := List.mem_map.mp (mem_sortBy.mp hw)
    have he := (everywhere_map.mp hv).2 e hm
    exact ⟨(ih e hm).1 he.1, (ih e hm).2 he.2⟩
  | scalar v hs =>
    have hq := h v hv.here
    rw [sort_scalar hs] at hq ⊢
    exact (everywhere_scalar hs).mpr hq

end everywhere

/-! ## The grammar has one encoding for each storable value -/

theorem length_shortestHead_pos (major n : ℕ) : 1 ≤ (shortestHead major n).length := by
  simp only [shortestHead]
  split_ifs <;> simp

theorem length_wire_pos (v : Value) : 1 ≤ (wire v).length := by
  cases v with
  | unsigned n => exact length_shortestHead_pos _ _
  | negative n => exact length_shortestHead_pos _ _
  | bool b => cases b <;> simp [wire]
  | null => simp [wire]
  | _ =>
    simp only [wire, List.length_append]
    exact Nat.le_trans (length_shortestHead_pos _ _) (Nat.le_add_right _ _)

theorem encodes_scalar {v : Value} (hs : Scalar v) (b : Bytes) :
    Encodes v b ↔ StorableAt v ∧ b = wire v := by
  constructor
  · intro h
    cases h with
    | unsigned n h => exact ⟨trivial, (shortest_iff.mp h).2⟩
    | negative n h => exact ⟨trivial, (shortest_iff.mp h).2⟩
    | bytes raw h => exact ⟨(shortest_iff.mp h).1, by rw [(shortest_iff.mp h).2, wire]⟩
    | text s h => exact ⟨(shortest_iff.mp h).1, by rw [(shortest_iff.mp h).2, wire]⟩
    | array => cases hs
    | map => cases hs
    | false => exact ⟨trivial, rfl⟩
    | true => exact ⟨trivial, rfl⟩
    | null => exact ⟨trivial, rfl⟩
  · rintro ⟨h, rfl⟩
    cases v with
    | unsigned n => exact .unsigned n (shortestHead_shortest n.toNat_lt)
    | negative n => exact .negative n (shortestHead_shortest n.toNat_lt)
    | bytes raw => exact .bytes raw (shortestHead_shortest h)
    | text s => exact .text s (shortestHead_shortest h)
    | array => cases hs
    | map => cases hs
    | bool b =>
      cases b with
      | false => exact .false
      | true => exact .true
    | null => exact .null

theorem encodesItems_iff {items : List Value} {b : Bytes}
    (ih : ∀ v ∈ items, ∀ b, Encodes v b ↔ Storable v ∧ b = wire v) :
    EncodesItems items b ↔ (∀ v ∈ items, Storable v) ∧ b = items.flatMap wire := by
  induction items generalizing b with
  | nil =>
    constructor
    · intro h
      cases h
      exact ⟨(fun _ h => by cases h), rfl⟩
    · rintro ⟨_, rfl⟩
      exact .nil
  | cons v vs ihs =>
    obtain ⟨ihv, ihvs⟩ := List.forall_mem_cons.mp ih
    rw [List.forall_mem_cons]
    constructor
    · intro h
      cases h with
      | cons hv hvs =>
        obtain ⟨hsv, rfl⟩ := (ihv _).mp hv
        obtain ⟨hsvs, rfl⟩ := (ihs ihvs).mp hvs
        exact ⟨⟨hsv, hsvs⟩, rfl⟩
    · rintro ⟨⟨hsv, hsvs⟩, rfl⟩
      exact .cons ((ihv _).mpr ⟨hsv, rfl⟩) ((ihs ihvs).mpr ⟨hsvs, rfl⟩)

theorem encodesEntries_iff {entries : List (Value × Value)} {b : Bytes}
    (ih : ∀ e ∈ entries, (∀ b, Encodes e.1 b ↔ Storable e.1 ∧ b = wire e.1) ∧
      ∀ b, Encodes e.2 b ↔ Storable e.2 ∧ b = wire e.2) :
    EncodesEntries entries b ↔
      (∀ e ∈ entries, Storable e.1 ∧ Storable e.2) ∧ b = entries.flatMap entryWire := by
  induction entries generalizing b with
  | nil =>
    constructor
    · intro h
      cases h
      exact ⟨(fun _ h => by cases h), rfl⟩
    · rintro ⟨_, rfl⟩
      exact .nil
  | cons e es ihs =>
    obtain ⟨ihe, ihes⟩ := List.forall_mem_cons.mp ih
    rw [List.forall_mem_cons]
    constructor
    · intro h
      cases h with
      | cons hk hv hes =>
        obtain ⟨hsk, rfl⟩ := (ihe.1 _).mp hk
        obtain ⟨hsv, rfl⟩ := (ihe.2 _).mp hv
        obtain ⟨hses, rfl⟩ := (ihs ihes).mp hes
        exact ⟨⟨⟨hsk, hsv⟩, hses⟩, rfl⟩
    · rintro ⟨⟨⟨hsk, hsv⟩, hses⟩, rfl⟩
      exact .cons ((ihe.1 _).mpr ⟨hsk, rfl⟩) ((ihe.2 _).mpr ⟨hsv, rfl⟩) ((ihs ihes).mpr ⟨hses, rfl⟩)

/-- A storable value has one encoding; any other value has none. -/
theorem encodes_iff {v : Value} {b : Bytes} : Encodes v b ↔ Storable v ∧ b = wire v := by
  induction v using value_induction generalizing b with
  | scalar v hs => rw [encodes_scalar hs, Storable, everywhere_scalar hs]
  | array items ih =>
    rw [Storable, everywhere_array, wire_array]
    constructor
    · intro h
      cases h with
      | array h hitems =>
        obtain ⟨hlen, rfl⟩ := shortest_iff.mp h
        obtain ⟨hall, rfl⟩ := (encodesItems_iff fun v hv _ => ih v hv).mp hitems
        exact ⟨⟨hlen, hall⟩, rfl⟩
    · rintro ⟨⟨hlen, hall⟩, rfl⟩
      exact .array (shortestHead_shortest hlen)
        ((encodesItems_iff fun v hv _ => ih v hv).mpr ⟨hall, rfl⟩)
  | map entries ih =>
    have ih' : ∀ e ∈ entries, (∀ b, Encodes e.1 b ↔ Storable e.1 ∧ b = wire e.1) ∧
        ∀ b, Encodes e.2 b ↔ Storable e.2 ∧ b = wire e.2 :=
      fun e he => ⟨fun _ => (ih e he).1, fun _ => (ih e he).2⟩
    rw [Storable, everywhere_map, wire_map]
    constructor
    · intro h
      cases h with
      | map h hentries =>
        obtain ⟨hlen, rfl⟩ := shortest_iff.mp h
        obtain ⟨hall, rfl⟩ := (encodesEntries_iff ih').mp hentries
        exact ⟨⟨hlen, hall⟩, rfl⟩
    · rintro ⟨⟨hlen, hall⟩, rfl⟩
      exact .map (shortestHead_shortest hlen) ((encodesEntries_iff ih').mpr ⟨hall, rfl⟩)

/-! ## Sorting -/

instance : Std.TransCmp keyOrder := inferInstanceAs (Std.TransCmp (shortlex compare))

instance : Std.LawfulEqCmp keyOrder := inferInstanceAs (Std.LawfulEqCmp (shortlex compare))

theorem sort_sort (v : Value) : sort (sort v) = sort v := by
  induction v using value_induction with
  | scalar v hs => rw [sort_scalar hs, sort_scalar hs]
  | array items ih =>
    rw [sort_array, sort_array, List.map_map]
    congr 1
    exact List.map_congr_left ih
  | map entries ih =>
    have hfix : ∀ e ∈ entries, sortEntry (sortEntry e) = sortEntry e := fun e he =>
      Prod.ext (ih e he).1 (ih e he).2
    have hmap : (sortBy keyOrder (fun e => wire e.1) (entries.map sortEntry)).map sortEntry =
        sortBy keyOrder (fun e => wire e.1) (entries.map sortEntry) := by
      apply (List.map_congr_left _).trans (List.map_id _)
      intro e he
      obtain ⟨d, hd, rfl⟩ := List.mem_map.mp (mem_sortBy.mp he)
      exact hfix d hd
    rw [sort_map, sort_map, hmap, sortBy_of_pairwise (pairwise_sortBy _)]

theorem canonical_sort (v : Value) : canonical (sort v) = canonical v := by
  rw [canonical, sort_sort, canonical]

theorem depth_sort {v : Value} {n : ℕ} (h : depth v ≤ n) : depth (sort v) ≤ n := by
  induction v using value_induction generalizing n with
  | scalar v hs => rwa [sort_scalar hs]
  | array items ih =>
    obtain ⟨m, rfl⟩ : ∃ m, n = m + 1 := ⟨n - 1, by have := depth_pos (.array items); omega⟩
    rw [sort_array]
    refine depth_array_le.mpr fun w hw => ?_
    obtain ⟨v, hv, rfl⟩ := List.mem_map.mp hw
    exact ih v hv (depth_array_le.mp h v hv)
  | map entries ih =>
    obtain ⟨m, rfl⟩ : ∃ m, n = m + 1 := ⟨n - 1, by have := depth_pos (.map entries); omega⟩
    rw [sort_map]
    refine depth_map_le.mpr fun w hw => ?_
    obtain ⟨e, he, rfl⟩ := List.mem_map.mp (mem_sortBy.mp hw)
    have hd := depth_map_le.mp h e he
    exact ⟨(ih e he).1 hd.1, (ih e he).2 hd.2⟩

theorem storable_sort {v : Value} (h : Storable v) : Storable (sort v) := by
  refine everywhere_sort (fun v hv => ?_) h
  cases v with
  | array items => rw [sort_array]; simpa [StorableAt] using hv
  | map entries =>
    rw [sort_map, StorableAt, (perm_sortBy _).length_eq, List.length_map]
    exact hv
  | _ => exact hv

/-- The canonical keys of a sorted map are those of the map. -/
theorem sorted_keys (entries : List (Value × Value)) :
    ((sortBy keyOrder (fun e => wire e.1) (entries.map sortEntry)).map fun e => canonical e.1).Perm
      (entries.map fun e => canonical e.1) := by
  have hk : (entries.map sortEntry).map (fun e => canonical e.1) =
      entries.map fun e => canonical e.1 := by
    rw [List.map_map]
    exact List.map_congr_left fun e _ => canonical_sort e.1
  rw [← hk]
  exact (perm_sortBy _).map _

theorem distinct_sort {v : Value} (h : DistinctKeys v) : DistinctKeys (sort v) := by
  refine everywhere_sort (fun v hv => ?_) h
  cases v with
  | array items => rw [sort_array]; trivial
  | map entries =>
    rw [sort_map]
    exact (sorted_keys entries).nodup_iff.mpr hv
  | _ => trivial

theorem ordered_sort (v : Value) : Ordered (sort v) := by
  have hany : Everywhere (fun _ => True) v := fun _ _ => trivial
  refine everywhere_sort (fun v _ => ?_) hany
  cases v with
  | array items => rw [sort_array]; trivial
  | map entries =>
    rw [sort_map]
    apply (pairwise_sortBy _).imp_of_mem
    intro a b ha hb hab
    obtain ⟨c, _, rfl⟩ := List.mem_map.mp (mem_sortBy.mp ha)
    obtain ⟨d, _, rfl⟩ := List.mem_map.mp (mem_sortBy.mp hb)
    rw [KeyLe] at hab ⊢
    rw [show canonical (sortEntry c).1 = wire (sortEntry c).1 from canonical_sort c.1,
      show canonical (sortEntry d).1 = wire (sortEntry d).1 from canonical_sort d.1]
    exact hab
  | _ => trivial

/-- Sorting leaves alone exactly what is in order at every level. -/
theorem sort_eq_self {v : Value} : sort v = v ↔ Ordered v := by
  constructor
  · intro h
    rw [← h]
    exact ordered_sort v
  · intro h
    induction v using value_induction with
    | scalar v hs => exact sort_scalar hs
    | array items ih =>
      rw [sort_array]
      congr 1
      apply (List.map_congr_left _).trans (List.map_id _)
      exact fun v hv => ih v hv ((everywhere_array.mp h).2 v hv)
    | map entries ih =>
      have hfix : ∀ e ∈ entries, sortEntry e = e := fun e he =>
        Prod.ext ((ih e he).1 ((everywhere_map.mp h).2 e he).1)
          ((ih e he).2 ((everywhere_map.mp h).2 e he).2)
      have hmap : entries.map sortEntry = entries :=
        (List.map_congr_left hfix).trans (List.map_id _)
      have hord : entries.Pairwise (KeyLe keyOrder fun e => wire e.1) := by
        apply (everywhere_map.mp h).1.imp_of_mem
        intro a b ha hb hab
        have ka : sort a.1 = a.1 := congrArg Prod.fst (hfix a ha)
        have kb : sort b.1 = b.1 := congrArg Prod.fst (hfix b hb)
        rw [KeyLe, canonical, canonical, ka, kb] at hab
        exact hab
      rw [sort_map, hmap, sortBy_of_pairwise hord]

end CtapCborLanguage
