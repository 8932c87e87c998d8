import LibCanokey.CtapCborLanguage

/-! # Access to CBOR values

Equality of values, the typed readers and the look-up of a map entry. -/
namespace CtapCbor

open BigEndian ProtocolError CtapCborLanguage

mutual

def Value.beq : Value → Value → Bool
  | .unsigned m, .unsigned n => m == n
  | .negative m, .negative n => m == n
  | .bytes raw, .bytes raw' => raw == raw'
  | .text s, .text s' => s == s'
  | .array items, .array items' => beqItems items items'
  | .map entries, .map entries' => beqEntries entries entries'
  | .bool b, .bool b' => b == b'
  | .null, .null => true
  | _, _ => false

def beqItems : List Value → List Value → Bool
  | [], [] => true
  | v :: vs, w :: ws => v.beq w && beqItems vs ws
  | _, _ => false

def beqEntries : List (Value × Value) → List (Value × Value) → Bool
  | [], [] => true
  | (k, v) :: es, (k', v') :: es' => k.beq k' && v.beq v' && beqEntries es es'
  | _, _ => false

end

theorem beqItems_iff {items : List Value} (h : ∀ v ∈ items, ∀ w, v.beq w = true ↔ v = w)
    (items' : List Value) : beqItems items items' = true ↔ items = items' := by
  induction items generalizing items' with
  | nil => cases items' <;> simp [beqItems]
  | cons v vs ih =>
    obtain ⟨hv, hvs⟩ := List.forall_mem_cons.mp h
    cases items' with
    | nil => simp [beqItems]
    | cons w ws => simp [beqItems, hv, ih hvs]

theorem beqEntries_iff {entries : List (Value × Value)}
    (h : ∀ e ∈ entries, (∀ w, e.1.beq w = true ↔ e.1 = w) ∧ ∀ w, e.2.beq w = true ↔ e.2 = w)
    (entries' : List (Value × Value)) : beqEntries entries entries' = true ↔ entries = entries' :=
    by
  induction entries generalizing entries' with
  | nil => cases entries' <;> simp [beqEntries]
  | cons e es ih =>
    obtain ⟨⟨hk, hv⟩, hes⟩ := List.forall_mem_cons.mp h
    obtain ⟨k, v⟩ := e
    cases entries' with
    | nil => simp [beqEntries]
    | cons d ds =>
      obtain ⟨k', v'⟩ := d
      simp [beqEntries, hk, hv, ih hes]

theorem beq_iff (v w : Value) : v.beq w = true ↔ v = w := by
  induction v using value_induction generalizing w with
  | scalar v hv =>
    cases v with
    | array | map => exact hv.elim
    | unsigned | negative | bytes | text | bool | null => cases w <;> simp [Value.beq]
  | array items ih =>
    cases w with
    | array items' => simp [Value.beq, beqItems_iff ih]
    | unsigned | negative | bytes | text | map | bool | null => simp [Value.beq]
  | map entries ih =>
    cases w with
    | map entries' => simp [Value.beq, beqEntries_iff ih]
    | unsigned | negative | bytes | text | array | bool | null => simp [Value.beq]

instance : DecidableEq Value := fun v w => decidable_of_iff (v.beq w = true) (beq_iff v w)

/-- `u64::try_from` of a non-negative `i64` and of what a negative one leaves. -/
def Value.fromInt (value : ℤ) : Value :=
  if 0 ≤ value then .unsigned (UInt64.ofNat value.toNat)
  else .negative (UInt64.ofNat (-(value + 1)).toNat)

def Value.asMap : Value → Option (List (Value × Value))
  | .map entries => some entries
  | _ => none

def Value.asArray : Value → Option (List Value)
  | .array items => some items
  | _ => none

def Value.asBytes : Value → Option Bytes
  | .bytes raw => some raw
  | _ => none

def Value.asText : Value → Option String
  | .text s => some s
  | _ => none

def Value.asUint : Value → Option UInt64
  | .unsigned n => some n
  | _ => none

def Value.asBool : Value → Option Bool
  | .bool b => some b
  | _ => none

def i64Max : ℕ := 2 ^ 63 - 1

def Value.asInt : Value → Option ℤ
  | .unsigned n => if n.toNat ≤ i64Max then some n.toNat else none
  | .negative n => if n.toNat ≤ i64Max then some (-1 - n.toNat) else none
  | _ => none

def Value.mapGet (value key : Value) : Option Value := do
  let entries ← value.asMap
  let entry ← entries.find? fun entry => entry.1 = key
  some entry.2

def Value.mapGetInt (value : Value) (key : ℤ) : Option Value := value.mapGet (.fromInt key)

def Value.mapGetText (value : Value) (key : String) : Option Value := value.mapGet (.text key)

/-- `required` and `ok_or_else(invalid)`. -/
def required {α : Type} : Option α → Except Error α
  | none => .error invalid
  | some value => .ok value

theorem required_eq_ok {α : Type} {x : Option α} {a : α} : required x = .ok a ↔ x = some a := by
  cases x with
  | none => simp [required]
  | some b => simp [required]

end CtapCbor
