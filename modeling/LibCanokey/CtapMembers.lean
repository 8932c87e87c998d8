import LibCanokey.CtapCoseReading
import LibCanokey.CtapCredential
import LibCanokey.CtapEnvelope

/-! # Reading the members of a response

Readers of single values, what the entries of a strict map say under a key, in any order and among
any others, and what a typed operation reports of an answer. -/
namespace CtapMembers

open BigEndian CheckedCursor ListTraversal ProtocolError ProtocolConversation ProtocolOperation
open ProtocolSession CtapCbor CtapCborLanguage CtapCborParser CtapMessage CtapCredential
open CtapCoseReading CtapEnvelope

def text (value : Value) : Except Error String := required value.asText

def uint64 (value : Value) : Except Error UInt64 := required value.asUint

def boolean (value : Value) : Except Error Bool := required value.asBool

def byteString (value : Value) : Except Error Bytes := required value.asBytes

def textArray (value : Value) : Except Error (List String) := do
  (← required value.asArray).mapM text

def uintArray (value : Value) : Except Error (List UInt64) := do
  (← required value.asArray).mapM uint64

/-! ## Single values -/

/-- What a reader of one value accepts. -/
def Exact {α : Type} (parse : Value → Except Error α) (spells : α → Value → Prop) : Prop :=
  ∀ v a, DistinctKeys v → (parse v = .ok a ↔ spells a v)

def SpellsText (s : String) (v : Value) : Prop := v = .text s

def SpellsUint (n : UInt64) (v : Value) : Prop := v = .unsigned n

def SpellsBool (b : Bool) (v : Value) : Prop := v = .bool b

def SpellsBytes (bytes : Bytes) (v : Value) : Prop := v = .bytes bytes

def SpellsTexts (texts : List String) (v : Value) : Prop := v = .array (texts.map .text)

def SpellsUints (ns : List UInt64) (v : Value) : Prop := v = .array (ns.map .unsigned)

section single

variable {v : Value}

theorem text_eq_ok {s : String} : text v = .ok s ↔ v = .text s := by
  rw [text, required_eq_ok]
  cases v <;> simp [Value.asText]

theorem uint64_eq_ok {n : UInt64} : uint64 v = .ok n ↔ v = .unsigned n := by
  rw [uint64, required_eq_ok]
  cases v <;> simp [Value.asUint]

theorem boolean_eq_ok {b : Bool} : boolean v = .ok b ↔ v = .bool b := by
  rw [boolean, required_eq_ok]
  cases v <;> simp [Value.asBool]

theorem byteString_eq_ok {bytes : Bytes} : byteString v = .ok bytes ↔ v = .bytes bytes := by
  rw [byteString, required_eq_ok]
  cases v <;> simp [Value.asBytes]

theorem asArray_eq_ok {items : List Value} : required v.asArray = .ok items ↔ v = .array items := by
  rw [required_eq_ok]
  cases v <;> simp [Value.asArray]

theorem asMap_eq_ok {entries : List (Value × Value)} :
    required v.asMap = .ok entries ↔ v = .map entries := by
  rw [required_eq_ok]
  cases v <;> simp [Value.asMap]

/-- An integer is read from the value of its label. -/
theorem asInt_eq_some {n : ℤ} : v.asInt = some n ↔ v = .fromInt n ∧ IsI64 n := by
  constructor
  · intro h
    cases v with
    | unsigned m =>
      simp only [Value.asInt] at h
      split_ifs at h with hm
      cases h
      rw [i64Max] at hm
      refine ⟨?_, by omega, by omega⟩
      rw [Value.fromInt, if_pos (Int.natCast_nonneg _), Int.toNat_natCast, UInt64.ofNat_toNat]
    | negative m =>
      simp only [Value.asInt] at h
      split_ifs at h with hm
      cases h
      rw [i64Max] at hm
      refine ⟨?_, by omega, by omega⟩
      rw [Value.fromInt, if_neg (by omega), show (-(-1 - (m.toNat : ℤ) + 1)).toNat = m.toNat by
        omega, UInt64.ofNat_toNat]
    | bytes | text | array | map | bool | null => cases h
  · rintro ⟨rfl, hn⟩
    exact asInt_fromInt hn

/-- An array whose items have an inverse is read item by item. -/
theorem items_eq_ok {α : Type} {f : Value → Except Error α} {g : α → Value}
    (h : ∀ v a, f v = .ok a ↔ v = g a) {as : List α} :
    (do (← required v.asArray).mapM f) = .ok as ↔ v = .array (as.map g) := by
  have hinverse (v : Value) (a : α) : f v = .ok a ↔ True ∧ v = g a := by
    rw [h, true_and]
  rw [bind_eq_ok]
  constructor
  · rintro ⟨items, hitems, hall⟩
    obtain ⟨_, rfl⟩ := (mapM_inverse hinverse).mp hall
    exact asArray_eq_ok.mp hitems
  · rintro rfl
    exact ⟨_, rfl, (mapM_inverse hinverse).mpr ⟨fun _ _ => trivial, rfl⟩⟩

end single

theorem text_exact : Exact text SpellsText := fun _ _ _ => text_eq_ok

theorem uint64_exact : Exact uint64 SpellsUint := fun _ _ _ => uint64_eq_ok

theorem boolean_exact : Exact boolean SpellsBool := fun _ _ _ => boolean_eq_ok

theorem byteString_exact : Exact byteString SpellsBytes := fun _ _ _ => byteString_eq_ok

theorem textArray_exact : Exact textArray SpellsTexts := fun _ _ _ =>
  items_eq_ok fun _ _ => text_eq_ok

theorem uintArray_exact : Exact uintArray SpellsUints := fun _ _ _ =>
  items_eq_ok fun _ _ => uint64_eq_ok

/-! ## The entries of a map -/

/-- What entries say under a key: nothing, or one value that spells the member. -/
def Announced {α : Type} (es : List (Value × Value)) (key : Value) (spells : α → Value → Prop) :
    Option α → Prop
  | none => ∀ v, (key, v) ∉ es
  | some a => ∃ v, (key, v) ∈ es ∧ spells a v

/-- A value that may be missing. -/
def looked {α : Type} (value : Option Value) (parse : Value → Except Error α) :
    Except Error (Option α) :=
  value.elim (.ok none) fun value => (parse value).map some

section entries

variable {es : List (Value × Value)} {α : Type} {parse : Value → Except Error α}
  {spells : α → Value → Prop} {key : Value} {x : Option α} {a : α}

/-- With distinct keys, the entry under a key is the one with that key. -/
theorem mapGet_eq_some (h : DistinctKeys (.map es)) {v : Value} :
    (Value.map es).mapGet key = some v ↔ (key, v) ∈ es := by
  have hkeys := nodup_keys h
  have hget : (Value.map es).mapGet key =
      (es.find? fun entry => entry.1 = key).bind fun entry => some entry.2 := rfl
  rw [hget, Option.bind_eq_some_iff]
  constructor
  · rintro ⟨entry, hfind, hv⟩
    have hkey : entry.1 = key := by simpa using List.find?_some hfind
    have hmem := List.mem_of_find?_eq_some hfind
    cases hv
    rwa [← hkey]
  · intro hmem
    cases hfind : es.find? fun entry => entry.1 = key with
    | none => exact absurd (List.find?_eq_none.mp hfind _ hmem) (by simp)
    | some entry =>
      have hkey : entry.1 = key := by simpa using List.find?_some hfind
      have hsame := List.inj_on_of_nodup_map hkeys (List.mem_of_find?_eq_some hfind) hmem hkey
      exact ⟨entry, rfl, by rw [hsame]⟩

/-- Without the key, nothing is announced under it. -/
theorem announced_absent (h : DistinctKeys (.map es)) (hget : (Value.map es).mapGet key = none) :
    Announced es key spells x ↔ x = none := by
  have habsent : ∀ v, (key, v) ∉ es := by
    intro v hv
    rw [(mapGet_eq_some h).mpr hv] at hget
    cases hget
  cases x with
  | none => exact ⟨fun _ => rfl, fun _ => habsent⟩
  | some a =>
    constructor
    · rintro ⟨v, hv, _⟩
      exact absurd hv (habsent v)
    · intro hx
      cases hx

/-- With it, its value is. -/
theorem announced_present (h : DistinctKeys (.map es)) {v : Value}
    (hget : (Value.map es).mapGet key = some v) :
    Announced es key spells x ↔ ∃ a, x = some a ∧ spells a v := by
  have hmem := (mapGet_eq_some h).mp hget
  cases x with
  | none =>
    constructor
    · intro habsent
      exact absurd hmem (habsent v)
    · rintro ⟨a, hx, _⟩
      cases hx
  | some a =>
    constructor
    · rintro ⟨w, hw, hspells⟩
      have hsame := (mapGet_eq_some h).mpr hw
      rw [hget] at hsame
      cases hsame
      exact ⟨a, rfl, hspells⟩
    · rintro ⟨b, hx, hspells⟩
      cases hx
      exact ⟨v, hmem, hspells⟩

theorem looked_eq_ok (h : DistinctKeys (.map es)) (hexact : Exact parse spells) :
    looked ((Value.map es).mapGet key) parse = .ok x ↔ Announced es key spells x := by
  cases hget : (Value.map es).mapGet key with
  | none =>
    rw [announced_absent h hget]
    simp only [looked, Option.elim_none, Except.ok.injEq, eq_comm]
  | some v =>
    have hv : DistinctKeys v := ((everywhere_map.mp h).2 _ ((mapGet_eq_some h).mp hget)).2
    rw [announced_present h hget, looked, Option.elim_some, map_eq_ok]
    constructor
    · rintro ⟨a, ha, rfl⟩
      exact ⟨a, rfl, (hexact v a hv).mp ha⟩
    · rintro ⟨a, rfl, ha⟩
      exact ⟨a, (hexact v a hv).mpr ha, rfl⟩

theorem opt_eq_ok (h : DistinctKeys (.map es)) (hexact : Exact parse spells) {label : ℤ} :
    opt (.map es) label parse = .ok x ↔ Announced es (.fromInt label) spells x := by
  have hopt (map : Value) : opt map label parse = looked (map.mapGetInt label) parse := by
    rw [opt, looked]
    cases map.mapGetInt label <;> rfl
  rw [hopt]
  exact looked_eq_ok h hexact

/-- A member that may not be missing. -/
theorem member_eq_ok (h : DistinctKeys (.map es)) (hexact : Exact parse spells) :
    (do parse (← required ((Value.map es).mapGet key))) = .ok a ↔
      Announced es key spells (some a) := by
  rw [← looked_eq_ok h hexact]
  cases (Value.map es).mapGet key with
  | none => simp [required, looked, bind, Except.bind]
  | some v =>
    dsimp only [required, bind, Except.bind, looked, Option.elim_some]
    rw [map_eq_ok]
    simp

end entries

theorem decoded_eq_ok {bytes : Bytes} (hlen : bytes.length ≤ usizeMax) {v : Value} :
    decoded bytes = .ok v ↔ Strict bytes v := by
  rw [← parse_eq_ok hlen, decoded]
  cases parse bytes with
  | ok w => simp
  | error halt => cases halt <;> simp

/-! ## What is reported of an answer -/

section reports

variable {T : Type}

/-- What a typed operation makes of an answer: its value exactly when the answer is a success that
spells it. -/
structure Reports (spells : T → Bytes → Prop) (answer : Bytes) (op : Operation (Sequence T) T) :
    Prop where
  accepted : ∀ x, Ends op (.ok x) ↔ ∃ payload, answer = 0x00 :: payload ∧ spells x payload
  refused : ∀ status payload, answer = status :: payload → status ≠ 0x00 →
    Ends op (.error (statusError status))
  otherwise : (∀ x, ¬ Ends op (.ok x)) → ∃ err, Ends op (.error err)

/-- A typed parser on a whole answer. -/
def readTyped (parse : Bytes → Except Error T) (answer : Bytes) : Except Error T := do
  let response ← splitStatus ⟨answer, ⟨0x9000⟩⟩
  typed response parse

variable {parse : Bytes → Except Error T} {spells : T → Bytes → Prop}

theorem readTyped_success (payload : Bytes) : readTyped parse (0x00 :: payload) = parse payload :=
  rfl

theorem readTyped_refused {status : UInt8} (h : status ≠ 0x00) (payload : Bytes) :
    readTyped parse (status :: payload) = .error (statusError status) := by
  have hsplit : splitStatus ⟨status :: payload, ⟨0x9000⟩⟩ = .ok ⟨⟨status⟩, payload⟩ :=
    splitStatus_carried status payload
  have hensure := ensure_eq status
  rw [if_neg h] at hensure
  rw [readTyped, hsplit]
  dsimp only [bind, Except.bind]
  rw [typed, hensure]
  rfl

theorem readTyped_eq_ok {answer : Bytes} {x : T} :
    readTyped parse answer = .ok x ↔
      ∃ payload, answer = 0x00 :: payload ∧ parse payload = .ok x := by
  cases answer with
  | nil =>
    constructor
    · intro h
      cases h
    · rintro ⟨payload, h, _⟩
      cases h
  | cons status payload =>
    by_cases hstatus : status = 0x00
    · subst hstatus
      rw [readTyped_success]
      constructor
      · intro h
        exact ⟨payload, rfl, h⟩
      · rintro ⟨_, hanswer, h⟩
        cases hanswer
        exact h
    · rw [readTyped_refused hstatus]
      constructor
      · intro h
        cases h
      · rintro ⟨_, hanswer, _⟩
        cases hanswer
        exact absurd rfl hstatus

variable {κ : Type*} {respond : κ → Bytes → Bytes × κ} {a : κ} {options : OperationOptions}
  {message : Bytes} {op : Operation (Sequence T) T}

/-- A typed operation reports what its parser reads in the answer to its message. -/
theorem typed_reports
    (hexact : ∀ payload x, payload.length ≤ usizeMax → (parse payload = .ok x ↔ spells x payload))
    (hop : selectThen message options (fun response => typed response parse) = .ok op)
    (hroom : Room options message (respond a message).1) :
    Reports spells (respond a message).1
        (execute (sequence T) (messageApplet respond) op a).1 ∧
      (execute (sequence T) (messageApplet respond) op a).2 = (respond a message).2 := by
  obtain ⟨hends, hafter⟩ := selectThen_execute hop hroom
  change Ends _ (readTyped parse (respond a message).1) at hends
  have hlen : (respond a message).1.length ≤ usizeMax :=
    Nat.le_trans hroom.bytes (Nat.min_le_left _ _)
  refine ⟨⟨?_, ?_, ?_⟩, hafter⟩
  · intro x
    have hread : Ends (execute (sequence T) (messageApplet respond) op a).1 (.ok x) ↔
        readTyped parse (respond a message).1 = .ok x := by
      constructor
      · intro h
        exact ends_unique hends h
      · intro h
        rwa [h] at hends
    rw [hread, readTyped_eq_ok]
    have hpayload {payload : Bytes} (h : (respond a message).1 = 0x00 :: payload) :
        payload.length ≤ usizeMax := by
      rw [h, List.length_cons] at hlen
      omega
    constructor
    · rintro ⟨payload, hanswer, h⟩
      exact ⟨payload, hanswer, (hexact payload x (hpayload hanswer)).mp h⟩
    · rintro ⟨payload, hanswer, h⟩
      exact ⟨payload, hanswer, (hexact payload x (hpayload hanswer)).mpr h⟩
  · intro status payload hanswer hstatus
    rwa [hanswer, readTyped_refused hstatus] at hends
  · intro hnone
    cases hread : readTyped parse (respond a message).1 with
    | ok x =>
      rw [hread] at hends
      exact absurd hends (hnone x)
    | error err =>
      rw [hread] at hends
      exact ⟨err, hends⟩

theorem emptyPayload_eq_ok {payload : Bytes} : emptyPayload payload = .ok () ↔ payload = [] := by
  rw [emptyPayload]
  split_ifs with h <;> simp [h]

end reports

end CtapMembers
