import LibCanokey.CtapCborEncoder
import LibCanokey.CtapMessage

/-! # Maps with small integer keys

An encoded value is the same bytes at every depth that admits it and after any output, so a
map whose keys are already in order is its head and its encoded entries, one after another. -/
namespace CtapFields

open BigEndian ListTraversal ProtocolError CtapCbor KeyedSorting CtapMessage

theorem head_append (out : Bytes) (major : UInt8) (argument : UInt64) :
    head out major argument = out ++ head [] major argument := by
  simp only [head]
  split_ifs <;> simp

/-- What a fold appends does not depend on what is there before. -/
theorem foldlM_prefix {α ε : Type} {f : Bytes → α → Except ε Bytes} (out : Bytes) {xs : List α}
    (h : ∀ x ∈ xs, ∀ acc, f (out ++ acc) x = (f acc x).map (out ++ ·)) (acc : Bytes) :
    xs.foldlM f (out ++ acc) = (xs.foldlM f acc).map (out ++ ·) := by
  induction xs generalizing acc with
  | nil => rfl
  | cons x xs ih =>
    obtain ⟨hx, hxs⟩ := List.forall_mem_cons.mp h
    rw [List.foldlM_cons, List.foldlM_cons, hx]
    cases f acc x with
    | error e => rfl
    | ok next => exact ih hxs next

theorem encodeInto_append (levels : ℕ) (v : Value) (out acc : Bytes) :
    encodeInto levels v (out ++ acc) = (encodeInto levels v acc).map (out ++ ·) := by
  induction levels generalizing v out acc with
  | zero => rfl
  | succ levels ih =>
    have hhead (major : UInt8) (argument : UInt64) :
        head (out ++ acc) major argument = out ++ head acc major argument := by
      rw [head_append, head_append acc, List.append_assoc]
    cases v with
    | unsigned n => exact congrArg Except.ok (hhead 0 n)
    | negative n => exact congrArg Except.ok (hhead 1 n)
    | bytes raw => simp [encodeInto, hhead, Except.map]
    | text s => simp [encodeInto, hhead, Except.map]
    | array items =>
      rw [encodeInto, encodeInto, hhead]
      exact foldlM_prefix out (fun v _ acc => ih v out acc) _
    | map entries =>
      rw [encodeInto, encodeInto]
      cases entries.mapM fun entry =>
          (encodeInto levels entry.1 []).map fun keyBytes => (keyBytes, entry.2) with
      | error e => rfl
      | ok encoded =>
        dsimp only [bind, Except.bind]
        rw [hhead]
        apply foldlM_prefix
        intro e _ acc
        rw [List.append_assoc]
        exact ih e.2 out (acc ++ e.1)
    | bool b => cases b <;> simp [encodeInto, Except.map]
    | null => simp [encodeInto, Except.map]

theorem foldlM_weaken {α ε : Type} {f g : Bytes → α → Except ε Bytes} {xs : List α}
    {acc out : Bytes} (h : ∀ x ∈ xs, ∀ acc out, f acc x = .ok out → g acc x = .ok out)
    (hf : xs.foldlM f acc = .ok out) : xs.foldlM g acc = .ok out := by
  induction xs generalizing acc with
  | nil => exact hf
  | cons x xs ih =>
    obtain ⟨hx, hxs⟩ := List.forall_mem_cons.mp h
    rw [List.foldlM_cons] at hf ⊢
    obtain ⟨next, hnext, hf⟩ := bind_eq_ok.mp hf
    exact bind_eq_ok.mpr ⟨next, hx _ _ hnext, ih hxs hf⟩

/-- A value that fits the levels left fits one more. -/
theorem encodeInto_succ {levels : ℕ} {v : Value} {acc out : Bytes}
    (h : encodeInto levels v acc = .ok out) : encodeInto (levels + 1) v acc = .ok out := by
  induction levels generalizing v acc out with
  | zero => cases h
  | succ levels ih =>
    cases v with
    | array items =>
      rw [encodeInto] at h ⊢
      exact foldlM_weaken (fun v _ acc out => ih) h
    | map entries =>
      rw [encodeInto] at h ⊢
      obtain ⟨encoded, hkeys, h⟩ := bind_eq_ok.mp h
      refine bind_eq_ok.mpr ⟨encoded, ?_, foldlM_weaken (fun e _ acc out => ih) h⟩
      rw [mapM_eq_ok] at hkeys ⊢
      refine hkeys.imp ?_
      intro entry pair hpair
      obtain ⟨k, hk, rfl⟩ := map_eq_ok.mp hpair
      exact map_eq_ok.mpr ⟨k, ih hk, rfl⟩
    | bool b => cases b <;> exact h
    | unsigned | negative | bytes | text | null => exact h

theorem encodeInto_mono {levels levels' : ℕ} (hle : levels ≤ levels') {v : Value}
    {acc out : Bytes} (h : encodeInto levels v acc = .ok out) :
    encodeInto levels' v acc = .ok out := by
  induction hle with
  | refl => exact h
  | step _ ih => exact encodeInto_succ ih

/-- The entries of a map, each a one-byte key and the encoding of its value. -/
inductive Fields (levels : ℕ) : List (ℕ × Value) → Bytes → Prop where
  | nil : Fields levels [] []
  | cons {k : ℕ} {v : Value} {fields : List (ℕ × Value)} {part body : Bytes}
      (hv : encodeInto levels v [] = .ok part) (hs : Fields levels fields body) :
      Fields levels ((k, v) :: fields) (UInt8.ofNat k :: part ++ body)

def fieldMap (fields : List (ℕ × Value)) : Value := .map (fields.map fun f => (uint f.1, f.2))

theorem head_small {n : ℕ} (h : n < 24) : head [] 0 (UInt64.ofNat n) = [UInt8.ofNat n] := by
  have hall : ∀ n < 24, head [] 0 (UInt64.ofNat n) = [UInt8.ofNat n] := by decide
  exact hall n h

theorem encode_uint_small {levels n : ℕ} (h : n < 24) :
    encodeInto (levels + 1) (uint n) [] = .ok [UInt8.ofNat n] :=
  congrArg Except.ok (head_small h)

/-- One-byte keys are ordered as numbers. -/
theorem keyOrder_small {m n : ℕ} (h : m < n) (hn : n < 24) :
    (keyOrder [UInt8.ofNat m] [UInt8.ofNat n]).isLE = true := by
  have hall : ∀ n < 24, ∀ m < n, (keyOrder [UInt8.ofNat m] [UInt8.ofNat n]).isLE = true := by
    decide
  exact hall n hn m h

theorem fields_foldlM {levels : ℕ} {fields : List (ℕ × Value)} {acc out : Bytes} :
    (fields.map fun f => ([UInt8.ofNat f.1], f.2)).foldlM
        (fun out entry => encodeInto levels entry.2 (out ++ entry.1)) acc = .ok out ↔
      ∃ body, Fields levels fields body ∧ out = acc ++ body := by
  induction fields generalizing acc with
  | nil =>
    constructor
    · intro h
      cases h
      exact ⟨[], .nil, (List.append_nil _).symm⟩
    · rintro ⟨body, h, rfl⟩
      cases h
      rw [List.append_nil]
      rfl
  | cons f fields ih =>
    obtain ⟨k, v⟩ := f
    have hv := encodeInto_append levels v (acc ++ [UInt8.ofNat k]) []
    rw [List.append_nil] at hv
    rw [List.map_cons, List.foldlM_cons]
    dsimp only
    rw [hv, bind_eq_ok]
    constructor
    · rintro ⟨next, hnext, h⟩
      obtain ⟨part, hpart, rfl⟩ := map_eq_ok.mp hnext
      obtain ⟨body, hbody, rfl⟩ := ih.mp h
      exact ⟨_, .cons hpart hbody, by simp⟩
    · rintro ⟨_, h, rfl⟩
      cases h with
      | cons hpart hbody =>
        exact ⟨_, map_eq_ok.mpr ⟨_, hpart, rfl⟩, ih.mpr ⟨_, hbody, by simp⟩⟩

/-- A map with small keys in order is its head and its fields. -/
theorem encodeInto_fieldMap {levels : ℕ} {fields : List (ℕ × Value)} {out : Bytes}
    (hkeys : (fields.map Prod.fst).Pairwise (· < ·)) (hsmall : ∀ f ∈ fields, f.1 < 24) :
    encodeInto (levels + 2) (fieldMap fields) [] = .ok out ↔
      ∃ body, Fields (levels + 1) fields body ∧
        out = head [] 5 (UInt64.ofNat fields.length) ++ body := by
  have hencoded : (fields.map fun f => (uint f.1, f.2)).mapM (fun entry =>
      (encodeInto (levels + 1) entry.1 []).map fun keyBytes => (keyBytes, entry.2)) =
        .ok (fields.map fun f => ([UInt8.ofNat f.1], f.2)) := by
    rw [List.mapM_map]
    apply mapM_of_forall
    intro f hf
    simp only [Function.comp_apply, encode_uint_small (hsmall f hf)]
    rfl
  have hsorted : sortBy keyOrder Prod.fst (fields.map fun f => ([UInt8.ofNat f.1], f.2)) =
      fields.map fun f => ([UInt8.ofNat f.1], f.2) := by
    apply sortBy_of_pairwise
    rw [List.pairwise_map] at hkeys ⊢
    refine hkeys.imp_of_mem ?_
    intro f g _ hg hlt
    exact keyOrder_small hlt (hsmall g hg)
  rw [fieldMap, encodeInto, hencoded]
  dsimp only [bind, Except.bind]
  rw [hsorted, List.length_map]
  exact fields_foldlM

theorem Fields.mono {levels levels' : ℕ} (hle : levels ≤ levels') {fields : List (ℕ × Value)}
    {body : Bytes} (h : Fields levels fields body) : Fields levels' fields body := by
  induction h with
  | nil => exact .nil
  | cons hv _ ih => exact .cons (encodeInto_mono hle hv) ih

theorem fields_append {levels : ℕ} {fields fields' : List (ℕ × Value)} {body : Bytes} :
    Fields levels (fields ++ fields') body ↔
      ∃ front back, Fields levels fields front ∧ Fields levels fields' back ∧
        body = front ++ back := by
  induction fields generalizing body with
  | nil =>
    constructor
    · intro h
      exact ⟨[], body, .nil, h, rfl⟩
    · rintro ⟨_, back, hnil, h, rfl⟩
      cases hnil
      exact h
  | cons f fields ih =>
    constructor
    · intro h
      cases h with
      | cons hv hs =>
        obtain ⟨front, back, hfront, hback, rfl⟩ := ih.mp hs
        exact ⟨_, back, .cons hv hfront, hback, by simp⟩
    · rintro ⟨_, back, hfront, hback, rfl⟩
      cases hfront with
      | cons hv hs =>
        rw [List.append_assoc]
        exact .cons hv (ih.mpr ⟨_, back, hs, hback, rfl⟩)

theorem fields_singleton {levels k : ℕ} {v : Value} {part body : Bytes}
    (hv : encodeInto levels v [] = .ok part) :
    Fields levels [(k, v)] body ↔ body = UInt8.ofNat k :: part := by
  constructor
  · intro h
    cases h with
    | cons hv' hs =>
      cases hs
      cases hv.symm.trans hv'
      exact List.append_nil _
  · rintro rfl
    have h : Fields levels [(k, v)] (UInt8.ofNat k :: part ++ []) := .cons hv .nil
    rwa [List.append_nil] at h

/-- The values of an encoded map are there as they encode alone. -/
theorem encode_fieldMap {fields : List (ℕ × Value)} {out : Bytes}
    (hkeys : (fields.map Prod.fst).Pairwise (· < ·)) (hsmall : ∀ f ∈ fields, f.1 < 24)
    (h : encode (fieldMap fields) = .ok out) :
    ∃ body, Fields maxDepth fields body ∧
      out = head [] 5 (UInt64.ofNat fields.length) ++ body := by
  obtain ⟨body, hbody, rfl⟩ := (encodeInto_fieldMap hkeys hsmall).mp h
  exact ⟨body, hbody.mono (by decide), rfl⟩

end CtapFields
