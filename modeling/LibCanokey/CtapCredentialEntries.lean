import LibCanokey.CtapCredentialReports
import LibCanokey.CtapEnumeration

/-! # The entries of relying parties and credentials

What both enumerations read in a response, and what they return of an authenticator that has so
many entries to tell. -/
namespace CtapCredentialEntries

open BigEndian CheckedCursor ListTraversal ProtocolError ProtocolConversation ProtocolOperation
open ProtocolTranscript ProtocolSession ProtocolDelivery ProtocolCompletion CtapCbor CtapCose
open CtapCborLanguage CtapMessage CtapFields CtapAuthData CtapCredentialManagement CtapCredential
open CtapCoseReading CtapEnvelope CtapCredentialReports CtapEnumeration
open CtapMembers hiding Reports

/-! ## The members of an entry -/

/-- The part of `parseRpEntry` that reads the relying party. -/
def relyingParty (value : Value) : Except Error RelyingParty := do
  let id ← text (← required (value.mapGetText "id"))
  let name ← optionalText (value.mapGetText "name")
  .ok ⟨id, name⟩

def SpellsRelyingParty (rp : RelyingParty) (v : Value) : Prop :=
  ∃ es, v = .map es ∧ Announced es (.text "id") SpellsText (some rp.id) ∧
    Announced es (.text "name") SpellsText rp.name

def SpellsHash (hash : {b : Bytes // b.length = 32}) (v : Value) : Prop := v = .bytes hash.1

def SpellsKey (key : CoseKey) (v : Value) : Prop := Reads v key

def SpellsInt (n : ℤ) (v : Value) : Prop := v = .fromInt n ∧ IsI64 n

/-- The relying party that entries spell, in any order and among any others. -/
structure SpellsRpEntry (e : RpEntry) (es : List (Value × Value)) : Prop where
  rp : Announced es (.unsigned 3) SpellsRelyingParty (some e.rp)
  rpIdHash : Announced es (.unsigned 4) SpellsHash (some e.rpIdHash)

/-- The credential that entries spell: with its key, or with the algorithm of the key. -/
structure SpellsCredentialEntry (e : CredentialEntry) (es : List (Value × Value)) : Prop where
  user : Announced es (.unsigned 6) SpellsUser e.user
  credentialId : Announced es (.unsigned 7) SpellsDescriptor (some e.credentialId)
  publicKey : Announced es (.unsigned 8) SpellsKey e.publicKey
  coseAlgorithm : Announced es (.unsigned 0x80) SpellsInt e.coseAlgorithm
  one : e.publicKey.isSome ≠ e.coseAlgorithm.isSome
  credProtect : Announced es (.unsigned 0x0a) SpellsUint e.credProtect
  largeBlobKey : Announced es (.unsigned 0x0b) SpellsBytes e.largeBlobKey

/-- What a reader of a map accepts. -/
def MapExact {α : Type} (parse : Value → Except Error α)
    (spells : α → List (Value × Value) → Prop) : Prop :=
  Exact parse fun a v => ∃ es, v = .map es ∧ spells a es

section members

variable {es : List (Value × Value)} {v : Value}

theorem key_exact : Exact CoseKey.fromValue SpellsKey := fun _ _ _ => reads_iff

theorem int_exact : Exact (fun value => required value.asInt) SpellsInt := by
  intro v n _
  rw [required_eq_ok]
  exact asInt_eq_some

theorem optional_eq_ok {α : Type} {parse : Value → Except Error α} {spells : α → Value → Prop}
    {label : ℤ} {x : Option α} (h : DistinctKeys (.map es)) (hexact : Exact parse spells) :
    CtapCredentialManagement.optional (.map es) label parse = .ok x ↔
      Announced es (.fromInt label) spells x := opt_eq_ok h hexact

theorem hash_exact : Exact (fun value => fixedBytes (some value)) SpellsHash := by
  intro v hash _
  rw [fixedBytes_eq_ok, Option.bind_some, SpellsHash]
  cases v <;> simp [Value.asBytes]

/-- A hash that may not be missing. -/
theorem hash_eq_ok {hash : {b : Bytes // b.length = 32}} {label : ℤ}
    (h : DistinctKeys (.map es)) : fixedBytes ((Value.map es).mapGetInt label) = .ok hash ↔
      Announced es (.fromInt label) SpellsHash (some hash) := by
  rw [← member_eq_ok h hash_exact]
  change fixedBytes ((Value.map es).mapGet _) = _ ↔ _
  cases (Value.map es).mapGet (.fromInt label) with
  | none =>
    constructor
    · intro hnone
      cases hnone
    · intro hnone
      cases hnone
  | some v => exact Iff.rfl

theorem relyingParty_exact : Exact relyingParty SpellsRelyingParty := by
  intro v rp hv
  constructor
  · intro h
    obtain ⟨i, hi, h⟩ := bind_eq_ok.mp h
    obtain ⟨id, hid, h⟩ := bind_eq_ok.mp h
    obtain ⟨name, hname, h⟩ := bind_eq_ok.mp h
    cases h
    have hid : (do text (← required (v.mapGetText "id"))) = .ok id :=
      bind_eq_ok.mpr ⟨i, hi, hid⟩
    obtain ⟨es, rfl⟩ := map_of_member hid
    exact ⟨es, rfl, (member_eq_ok hv text_exact).mp hid, (optionalText_eq_ok hv).mp hname⟩
  · rintro ⟨es, rfl, hid, hname⟩
    obtain ⟨i, hi, hid⟩ := bind_eq_ok.mp ((member_eq_ok hv text_exact).mpr hid)
    refine bind_eq_ok.mpr ⟨i, hi, bind_eq_ok.mpr ⟨_, hid, ?_⟩⟩
    exact bind_eq_ok.mpr ⟨_, (optionalText_eq_ok hv).mpr hname, rfl⟩

theorem parseRpEntry_exact : MapExact parseRpEntry SpellsRpEntry := by
  intro v e hv
  constructor
  · intro h
    obtain ⟨es, hes, h⟩ := bind_eq_ok.mp h
    obtain rfl := asMap_eq_ok.mp hes
    obtain ⟨rpValue, hrp, h⟩ := bind_eq_ok.mp h
    obtain ⟨i, hi, h⟩ := bind_eq_ok.mp h
    obtain ⟨id, hid, h⟩ := bind_eq_ok.mp h
    obtain ⟨name, hname, h⟩ := bind_eq_ok.mp h
    obtain ⟨hash, hhash, h⟩ := bind_eq_ok.mp h
    cases h
    have hread : relyingParty rpValue = .ok ⟨id, name⟩ := by
      refine bind_eq_ok.mpr ⟨i, hi, bind_eq_ok.mpr ⟨id, hid, ?_⟩⟩
      exact bind_eq_ok.mpr ⟨name, hname, rfl⟩
    exact ⟨es, rfl, (member_eq_ok hv relyingParty_exact).mp (bind_eq_ok.mpr ⟨_, hrp, hread⟩),
      (hash_eq_ok hv).mp hhash⟩
  · rintro ⟨es, rfl, hrp, hhash⟩
    obtain ⟨rpValue, hfound, hrp⟩ := bind_eq_ok.mp ((member_eq_ok hv relyingParty_exact).mpr hrp)
    obtain ⟨i, hi, hrp⟩ := bind_eq_ok.mp hrp
    obtain ⟨id, hid, hrp⟩ := bind_eq_ok.mp hrp
    obtain ⟨name, hname, hrp⟩ := bind_eq_ok.mp hrp
    obtain ⟨rp, hash⟩ := e
    cases hrp
    refine bind_eq_ok.mpr ⟨es, asMap_eq_ok.mpr rfl, bind_eq_ok.mpr ⟨rpValue, hfound, ?_⟩⟩
    refine bind_eq_ok.mpr ⟨i, hi, bind_eq_ok.mpr ⟨id, hid, bind_eq_ok.mpr ⟨name, hname, ?_⟩⟩⟩
    exact bind_eq_ok.mpr ⟨hash, (hash_eq_ok hv).mpr hhash, rfl⟩

theorem parseCredentialEntry_exact : MapExact parseCredentialEntry SpellsCredentialEntry := by
  intro v e hv
  constructor
  · intro h
    obtain ⟨es, hes, h⟩ := bind_eq_ok.mp h
    obtain rfl := asMap_eq_ok.mp hes
    obtain ⟨user, huser, h⟩ := bind_eq_ok.mp h
    obtain ⟨w, hw, h⟩ := bind_eq_ok.mp h
    obtain ⟨id, hid, h⟩ := bind_eq_ok.mp h
    obtain ⟨publicKey, hkey, h⟩ := bind_eq_ok.mp h
    obtain ⟨algorithm, halgorithm, h⟩ := bind_eq_ok.mp h
    split_ifs at h with hsame
    obtain ⟨protection, hprotection, h⟩ := bind_eq_ok.mp h
    obtain ⟨blobKey, hblob, h⟩ := bind_eq_ok.mp h
    cases h
    refine ⟨es, rfl, ?_⟩
    constructor
    · exact (optional_eq_ok hv parseUser_exact).mp huser
    · exact (member_eq_ok hv parseDescriptor_exact).mp (bind_eq_ok.mpr ⟨w, hw, hid⟩)
    · exact (optional_eq_ok hv key_exact).mp hkey
    · exact (optional_eq_ok hv int_exact).mp halgorithm
    · exact hsame
    · exact (optional_eq_ok hv uint64_exact).mp hprotection
    · exact (optional_eq_ok hv byteString_exact).mp hblob
  · rintro ⟨es, rfl, h⟩
    obtain ⟨w, hw, hid⟩ :=
      bind_eq_ok.mp ((member_eq_ok hv parseDescriptor_exact).mpr h.credentialId)
    refine bind_eq_ok.mpr ⟨es, asMap_eq_ok.mpr rfl, ?_⟩
    refine bind_eq_ok.mpr ⟨_, (optional_eq_ok hv parseUser_exact).mpr h.user, ?_⟩
    refine bind_eq_ok.mpr ⟨w, hw, bind_eq_ok.mpr ⟨_, hid, ?_⟩⟩
    refine bind_eq_ok.mpr ⟨_, (optional_eq_ok hv key_exact).mpr h.publicKey, ?_⟩
    refine bind_eq_ok.mpr ⟨_, (optional_eq_ok hv int_exact).mpr h.coseAlgorithm, ?_⟩
    rw [if_neg h.one]
    refine bind_eq_ok.mpr ⟨_, (optional_eq_ok hv uint64_exact).mpr h.credProtect, ?_⟩
    exact bind_eq_ok.mpr ⟨_, (optional_eq_ok hv byteString_exact).mpr h.largeBlobKey, rfl⟩

end members

/-! ## The responses of an enumeration -/

section responses

variable {T : Type} {parse : Value → Except Error T} {spells : T → List (Value × Value) → Prop}
  {r : ResponseData} {item : T} {total : UInt64} {label : ℤ}

/-- A response that spells an entry in the strict encoding. -/
def Tells (spells : T → List (Value × Value) → Prop) (r : ResponseData) (item : T) : Prop :=
  ∃ payload es, r = carried 0x00 payload ∧ Strict payload (.map es) ∧ spells item es

/-- A first response, which tells how many entries there are as well. -/
def Counts (spells : T → List (Value × Value) → Prop) (label : ℤ) (r : ResponseData)
    (total : UInt64) (item : T) : Prop :=
  ∃ payload es, r = carried 0x00 payload ∧ Strict payload (.map es) ∧ spells item es ∧
    Announced es (.fromInt label) SpellsUint (some total) ∧ total ≠ 0

theorem carries_iff (hlen : r.data.length ≤ usizeMax) {v : Value} :
    Carries r v ↔ ∃ payload, r = carried 0x00 payload ∧ Strict payload v := by
  have hpayload {payload : Bytes} (h : r = carried 0x00 payload) : payload.length ≤ usizeMax := by
    rw [h] at hlen
    exact Nat.le_of_succ_le hlen
  constructor
  · rintro ⟨payload, hsplit, hdecoded⟩
    have hr := splitStatus_eq_ok.mp hsplit
    exact ⟨payload, hr, (decoded_eq_ok (hpayload hr)).mp hdecoded⟩
  · rintro ⟨payload, hr, hstrict⟩
    exact ⟨payload, splitStatus_eq_ok.mpr hr, (decoded_eq_ok (hpayload hr)).mpr hstrict⟩

/-- An entry response is one that spells the entry. -/
theorem entry_iff (hexact : MapExact parse spells) (hlen : r.data.length ≤ usizeMax) :
    Entry parse r item ↔ Tells spells r item := by
  constructor
  · rintro ⟨v, hv, hparse⟩
    obtain ⟨payload, hr, hstrict⟩ := (carries_iff hlen).mp hv
    obtain ⟨es, rfl, hspells⟩ := (hexact _ _ hstrict.distinct).mp hparse
    exact ⟨payload, es, hr, hstrict, hspells⟩
  · rintro ⟨payload, es, hr, hstrict, hspells⟩
    exact ⟨.map es, (carries_iff hlen).mpr ⟨payload, hr, hstrict⟩,
      (hexact _ _ hstrict.distinct).mpr ⟨es, rfl, hspells⟩⟩

theorem reports_iff (hexact : MapExact parse spells) (hlen : r.data.length ≤ usizeMax) :
    Reports label parse r total item ↔ Counts spells label r total item := by
  have htotal {es : List (Value × Value)} (h : DistinctKeys (.map es)) :
      (Value.map es).mapGetInt label = some (.unsigned total) ↔
        Announced es (.fromInt label) SpellsUint (some total) := by
    change (Value.map es).mapGet _ = _ ↔ _
    rw [mapGet_eq_some h]
    constructor
    · exact fun hmem => ⟨_, hmem, rfl⟩
    · rintro ⟨v, hmem, rfl⟩
      exact hmem
  constructor
  · rintro ⟨v, hv, _, hfound, hzero, hparse⟩
    obtain ⟨payload, hr, hstrict⟩ := (carries_iff hlen).mp hv
    obtain ⟨es, rfl, hspells⟩ := (hexact _ _ hstrict.distinct).mp hparse
    exact ⟨payload, es, hr, hstrict, hspells, (htotal hstrict.distinct).mp hfound, hzero⟩
  · rintro ⟨payload, es, hr, hstrict, hspells, hfound, hzero⟩
    exact ⟨.map es, (carries_iff hlen).mpr ⟨payload, hr, hstrict⟩, rfl,
      (htotal hstrict.distinct).mpr hfound, hzero,
      (hexact _ _ hstrict.distinct).mpr ⟨es, rfl, hspells⟩⟩

/-- What a list was returned from: nothing after a status that there is nothing, or one response
for each entry, the first with their number. -/
inductive Told (spells : T → List (Value × Value) → Prop) (label : ℤ) (s : Enumerate T) :
    List LogicalCommand → List ResponseData → List T → Prop where
  | nothing (selected : ResponseData) {r : ResponseData} (h : NoEntries r) :
      Told spells label s (listCommands s 0) [selected, r] []
  | entries (selected : ResponseData) {first : ResponseData} {given : List ResponseData}
      {total : UInt64} {item : T} {rest : List T}
      (hfirst : Counts spells label first total item)
      (hgiven : List.Forall₂ (Tells spells) given rest)
      (hcount : (item :: rest).length = total.toNat) :
      Told spells label s (listCommands s rest.length) (selected :: first :: given) (item :: rest)

theorem told_of_listed {s : Enumerate T} {cs : List LogicalCommand} {rs : List ResponseData}
    {items : List T} (hexact : MapExact s.parseEntry spells)
    (hlen : ∀ r ∈ rs, r.data.length ≤ usizeMax) (h : Listed s cs rs items) :
    Told spells s.totalKey s cs rs items := by
  cases h with
  | nothing selected hnone => exact .nothing selected hnone
  | @entries selected first given total item rest hfirst hgiven hcount =>
    have hlast : total.toNat - 1 = rest.length := by
      rw [← hcount, List.length_cons, Nat.add_sub_cancel]
    rw [hlast]
    obtain ⟨_, hlen⟩ := List.forall_mem_cons.mp hlen
    obtain ⟨hlenFirst, hlenGiven⟩ := List.forall_mem_cons.mp hlen
    have hboth := (List.forall₂_and_left _ _).mpr ⟨hlenGiven, hgiven⟩
    have hall := hboth.imp fun r item h => (entry_iff hexact h.1).mp h.2
    exact .entries selected ((reports_iff hexact hlenFirst).mp hfirst) hall hcount

end responses

/-! ## Against an authenticator -/

section authenticator

variable {T : Type} {κ : Type} {parse : Value → Except Error T}
  {spells : T → List (Value × Value) → Prop} {label : ℤ} {s : Enumerate T}
  {options : OperationOptions} {op : Operation (Enumerate T) (List T)}
  {respond : κ → Bytes → Bytes × κ} {state : ℕ → κ} {answer : ℕ → Bytes} {items : List T}

/-- The responses to SELECT and to the messages. -/
def responseOf (answer : ℕ → Bytes) : ℕ → ResponseData
  | 0 => ⟨[], ⟨0x9000⟩⟩
  | i + 1 => ⟨answer i, ⟨0x9000⟩⟩

/-- An authenticator that tells the number of its entries with the first of them, and then the
others in order. -/
structure Telling (spells : T → List (Value × Value) → Prop) (label : ℤ) (s : Enumerate T)
    (respond : κ → Bytes → Bytes × κ) (state : ℕ → κ) (answer : ℕ → Bytes) (items : List T) :
    Prop where
  begun : respond (state 0) s.beginMessage = (answer 0, state 1)
  continued : ∀ i, i + 1 < items.length →
    respond (state (i + 1)) s.getNextMessage = (answer (i + 1), state (i + 2))
  counts : ∃ total item, items.length = total.toNat ∧ items[0]? = some item ∧
    Counts spells label ⟨answer 0, ⟨0x9000⟩⟩ total item
  tells : ∀ i item, items[i + 1]? = some item → Tells spells ⟨answer (i + 1), ⟨0x9000⟩⟩ item

/-- An enumeration of entries that are spelled so. -/
structure Enumerates (spells : T → List (Value × Value) → Prop) (label : ℤ) (s : Enumerate T)
    (options : OperationOptions) (op : Operation (Enumerate T) (List T)) : Prop where
  returns : ∀ {κ : Type} (respond : κ → Bytes → Bytes × κ) (state : ℕ → κ) (answer : ℕ → Bytes)
    (items : List T), Telling spells label s respond state answer items →
    Sufficient options s (responseOf answer) items.length →
    Ends (execute (enumeration T) (messageApplet respond) op (state 0)).1 (.ok items)
  nothing : ∀ {κ : Type} (respond : κ → Bytes → Bytes × κ) (a a' : κ) (payload : Bytes),
    respond a s.beginMessage = (0x2e :: payload, a') →
    Sufficient options s (responseOf fun _ => 0x2e :: payload) 1 →
    Ends (execute (enumeration T) (messageApplet respond) op a).1 (.ok [])
  returned : ∀ calls items, (recorded (enumeration T) op calls).op.output = some items →
    (∀ r ∈ (recorded (enumeration T) op calls).responses, r.data.length ≤ usizeMax) →
    Told spells label s (recorded (enumeration T) op calls).commands
      (recorded (enumeration T) op calls).responses items
  excess : ∀ calls call r total item,
    ProtocolTranscript.answer (recorded (enumeration T) op calls).op call = some r →
    r.data.length ≤ usizeMax →
    (recorded (enumeration T) op calls).commands = listCommands s 0 →
    Counts spells label r total item → options.limits.maxExchanges - 2 < total.toNat - 1 →
    ((recorded (enumeration T) op calls).op.call (enumeration T) call).1 = .step (.error limit) ∧
      ∀ more, (recorded (enumeration T) op (calls ++ call :: more)).commands = listCommands s 0

/-- Each response of the session fits memory. -/
theorem length_answer_le (h : Sufficient options s (responseOf answer) items.length) {i : ℕ}
    (hi : i < items.length) : (answer i).length ≤ usizeMax := by
  have hmem : responseOf answer (i + 1) ∈ (List.range (items.length + 1)).map (responseOf answer) :=
    List.mem_map_of_mem (List.mem_range.mpr (Nat.succ_lt_succ hi))
  have hsum : (answer i).length ≤
      responseLength ((List.range (items.length + 1)).map (responseOf answer)) :=
    List.single_le_sum (fun _ _ => Nat.zero_le _) _ (List.mem_map_of_mem hmem)
  exact Nat.le_trans hsum (Nat.le_trans h.bytes (Nat.min_le_left _ _))

/-- What the authenticator tells is what the enumeration is served. -/
theorem Telling.serving (h : Telling spells label s respond state answer items)
    (hexact : MapExact s.parseEntry spells) (hlabel : s.totalKey = label)
    (hb : Sufficient options s (responseOf answer) items.length) :
    ∃ total, Serving (messageApplet respond) (fun i a => a = state (i - 1)) s (responseOf answer)
      total items := by
  obtain ⟨total, item, hcount, hitem, hcounts⟩ := h.counts
  have hpos : 0 < items.length := (List.getElem?_eq_some_iff.mp hitem).1
  refine ⟨total, ?_, ?_, hcount, ⟨item, hitem, ?_⟩, ?_⟩
  · rintro i hi a rfl
    rcases i with _ | _ | i
    · exact ⟨state 0, rfl, rfl⟩
    · refine ⟨state 1, ?_, rfl⟩
      change messageApplet respond (state 0) _ = _
      rw [sessionCommand, messageApplet_msg, h.begun]
      rfl
    · refine ⟨state (i + 2), ?_, rfl⟩
      change messageApplet respond (state (i + 1)) _ = _
      rw [sessionCommand, messageApplet_msg, h.continued i (by omega)]
      rfl
  · intro i _
    cases i <;> rfl
  · rw [hlabel]
    exact (reports_iff hexact (length_answer_le hb hpos)).mpr hcounts
  · intro i item hitem
    have hi := (List.getElem?_eq_some_iff.mp hitem).1
    exact (entry_iff hexact (length_answer_le hb hi)).mpr (h.tells i item hitem)

/-- A status that there is nothing is a complete answer. -/
theorem nothing_returns (h : Ready options s) (hop : Operation.fromMachine s options = .ok op)
    {a a' : κ} {payload : Bytes} (hbegun : respond a s.beginMessage = (0x2e :: payload, a'))
    (hb : Sufficient options s (responseOf fun _ => 0x2e :: payload) 1) :
    Ends (execute (enumeration T) (messageApplet respond) op a).1 (.ok []) := by
  obtain ⟨_, hselected⟩ := @command_answered T s options κ (messageApplet respond) h 0
    ⟨[], ⟨0x9000⟩⟩ a a rfl (hb.page 0 (by decide)) rfl
  obtain ⟨_, hnothing⟩ := @command_answered T s options κ (messageApplet respond) h 1
    ⟨0x2e :: payload, ⟨0x9000⟩⟩ a a'
    (by rw [sessionCommand, messageApplet_msg, hbegun]) (hb.page 1 (by decide)) rfl
  have hanswered := ProtocolCompletion.Answered.command (.command (.nothing a) hselected) hnothing
  have hdone : (beginning s).beginNext ⟨0x2e :: payload, ⟨0x9000⟩⟩ =
      (.ok (.done []), beginning s) := by
    have hnone : NoEntries ⟨0x2e :: payload, ⟨0x9000⟩⟩ := ⟨payload, splitStatus_carried _ _⟩
    simp only [Enumerate.beginNext, beginResponse_none hnone]
  have hbegin : (enumeration T).next s (some ⟨[], ⟨0x9000⟩⟩) =
      (.ok (.command (msg s.beginMessage)), beginning s) := by
    rcases next_selected h.fresh ⟨[], ⟨0x9000⟩⟩ with ⟨e, hs⟩ | hs
    · simp only [enumeration, Enumerate.next, h.fresh.stage, Enumerate.selectNext] at hs
      cases hs
    · exact hs
  have hturns : LastTurn (enumeration T) s (.ok (.done [])) [select, msg s.beginMessage]
      [⟨[], ⟨0x9000⟩⟩, ⟨0x2e :: payload, ⟨0x9000⟩⟩] (beginning s) :=
    .answering (.answered (.opened (next_opening h.fresh)) hbegin) hdone
  have hexchanges : 0 + exchangesOf options (sessionCommand s 0) 0 +
      exchangesOf options (sessionCommand s 1) (payload.length + 1) ≤
        options.limits.maxExchanges := by
    rw [Nat.zero_add]
    exact hb.exchanges
  exact (execute_done hop hturns (List.cons_ne_nil _ _) hanswered hexchanges hb.bytes).1

theorem enumerates {beginMessage getNextMessage : Bytes} (hexact : MapExact parse spells)
    (h : enumerate beginMessage getNextMessage label parse options = .ok op) :
    ∃ s : Enumerate T, s.beginMessage = beginMessage ∧ s.getNextMessage = getNextMessage ∧
      Enumerates spells label s options op := by
  obtain ⟨s, hready, hbegin, hnext, rfl, rfl, hop⟩ := enumerate_eq_ok h
  have hruns := enumeration_runs hready hop
  refine ⟨s, hbegin, hnext, ?_, ?_, ?_, ?_⟩
  · intro κ respond state answer items htelling hb
    obtain ⟨total, hserving⟩ := htelling.serving hexact rfl hb
    exact (hruns.complete _ _ _ _ _ _ hserving rfl hb).1
  · intro κ respond a a' payload hbegun hb
    exact nothing_returns hready hop hbegun hb
  · intro calls items hout hlen
    exact told_of_listed hexact hlen (hruns.returned calls items hout)
  · intro calls call r total item hr hlen hcs hcounts hmany
    exact hruns.excess calls call r total item hr hcs ((reports_iff hexact hlen).mpr hcounts) hmany

end authenticator

section operations

variable {hashes : Hashes} {token : PinToken} {protocol : PinUvAuthProtocol}
  {options : OperationOptions}

/-- What is listed under two subcommands, the first with parameters and the token's tag. -/
def Lists {T : Type} (spells : T → List (Value × Value) → Prop) (label : ℤ) (hashes : Hashes)
    (token : PinToken) (protocol : PinUvAuthProtocol) (first next : UInt8) (params : Option Value)
    (options : OperationOptions) (op : Operation (Enumerate T) (List T)) : Prop :=
  ∃ s : Enumerate T, message hashes first params protocol (some token) = .ok s.beginMessage ∧
    message hashes next none protocol none = .ok s.getNextMessage ∧
    Enumerates spells label s options op

theorem enumerateRps_lists {op : Operation (Enumerate RpEntry) (List RpEntry)}
    (h : enumerateRps hashes token protocol options = .ok op) :
    Lists SpellsRpEntry 5 hashes token protocol 0x02 0x03 none options op := by
  obtain ⟨_, hbegin, h⟩ := bind_eq_ok.mp h
  obtain ⟨_, hnext, h⟩ := bind_eq_ok.mp h
  obtain ⟨s, rfl, rfl, hruns⟩ := enumerates parseRpEntry_exact h
  exact ⟨s, hbegin, hnext, hruns⟩

theorem enumerateCredentials_lists {rpIdHash : {b : Bytes // b.length = 32}} {metadataOnly : Bool}
    {op : Operation (Enumerate CredentialEntry) (List CredentialEntry)}
    (h : enumerateCredentials hashes token protocol rpIdHash metadataOnly options = .ok op) :
    Lists SpellsCredentialEntry 9 hashes token protocol 0x04 0x05
      (some (enumerateCredentialsParams rpIdHash metadataOnly)) options op := by
  obtain ⟨_, hbegin, h⟩ := bind_eq_ok.mp h
  obtain ⟨_, hnext, h⟩ := bind_eq_ok.mp h
  obtain ⟨s, rfl, rfl, hruns⟩ := enumerates parseCredentialEntry_exact h
  exact ⟨s, hbegin, hnext, hruns⟩

/-- Relying parties and credentials are listed as the authenticator spells them, all or none. -/
theorem entries_listed (hashes : Hashes) (token : PinToken) (protocol : PinUvAuthProtocol)
    (options : OperationOptions) :
    (∀ op, enumerateRps hashes token protocol options = .ok op →
      Lists SpellsRpEntry 5 hashes token protocol 0x02 0x03 none options op) ∧
    ∀ rpIdHash metadataOnly op,
      enumerateCredentials hashes token protocol rpIdHash metadataOnly options = .ok op →
      Lists SpellsCredentialEntry 9 hashes token protocol 0x04 0x05
        (some (enumerateCredentialsParams rpIdHash metadataOnly)) options op :=
  ⟨fun _ h => enumerateRps_lists h, fun _ _ _ h => enumerateCredentials_lists h⟩

end operations

/-! ## Two relying parties, and two credentials of the first -/

section example_entries

open CtapPinHistory

/-- The hashes of `example.org` and `example.net`. -/
def firstHash : ByteArrayOf 32 :=
  digest 0xbfabc37432958b063360d3ad6461c9c4735ae7f8edd46592a5e0f01452b2e4b5

def secondHash : ByteArrayOf 32 :=
  digest 0x3daab7cff97925bbd07d11df5dc3b0e37e2d965520175ada0ec62ce72cda5ed2

def entryToken : PinToken := ⟨exampleAuthenticator.token⟩

/-- HMAC-SHA-256 on the authenticated inputs of both first messages. -/
def entryTags : List (Bytes × ℕ) :=
  [([0x02], 0x469e03123f1c9c6d5c3ffaa260c7fef9f863c0b6af93f7dcae5c13cbfdadfca5),
    ([0x04, 0xa1, 0x01, 0x58, 0x20] ++ firstHash.1,
      0xbf43539919d6593f57adf9922cbf0c945866dbbc87955ed5492a240ae0d7f999)]

def entryHashes : Hashes :=
  { exampleHashes with hmac := fun key message =>
      if key = entryToken.token then digest ((entryTags.lookup message).getD 0)
      else exampleHashes.hmac key message }

/-- An authenticator that checks the tag of the first message and then counts. -/
def serve (beginMessage getNextMessage : Bytes) (answers : List Bytes) (n : ℕ) (message : Bytes) :
    Bytes × ℕ :=
  if message = beginMessage then (answers.getD 0 [], 1)
  else if message = getNextMessage ∧ 0 < n then (answers.getD n [0x30], n + 1)
  else ([0x33], n)

def rpEntries : List RpEntry :=
  [⟨⟨"example.org", some "Example"⟩, firstHash⟩, ⟨⟨"example.net", none⟩, secondHash⟩]

def rpBegin : Bytes :=
  [0x0a, 0xa3, 0x01, 0x02, 0x03, 0x01, 0x04, 0x50] ++
    toBeBytes 16 0x469e03123f1c9c6d5c3ffaa260c7fef9

def rpGetNext : Bytes := [0x0a, 0xa2, 0x01, 0x03, 0x03, 0x01]

def rpAnswers : List Bytes :=
  [[0x00, 0xa3, 0x03, 0xa2, 0x62] ++ utf8 "id" ++ [0x6b] ++ utf8 "example.org" ++ [0x64] ++
      utf8 "name" ++ [0x67] ++ utf8 "Example" ++ [0x04, 0x58, 0x20] ++ firstHash.1 ++ [0x05, 0x02],
    [0x00, 0xa2, 0x03, 0xa1, 0x62] ++ utf8 "id" ++ [0x6b] ++ utf8 "example.net" ++
      [0x04, 0x58, 0x20] ++ secondHash.1]

/-- The first credential has a protection level, the second a key for large blobs. -/
def credentialEntries : List CredentialEntry :=
  [⟨some ⟨[1], some "ann", none⟩, ⟨"public-key", [9], []⟩,
      some (.p256 .es256 generatorPoint.1 generatorPoint.2), some 2, none, none⟩,
    ⟨some ⟨[2], none, none⟩, ⟨"public-key", [10], []⟩,
      some (.p256 .es256 doublePoint.1 doublePoint.2), none, some secondHash.1, none⟩]

def credentialBegin : Bytes :=
  [0x0a, 0xa4, 0x01, 0x04, 0x02, 0xa1, 0x01, 0x58, 0x20] ++ firstHash.1 ++
    [0x03, 0x02, 0x04, 0x58, 0x20] ++
    toBeBytes 32 0xbf43539919d6593f57adf9922cbf0c945866dbbc87955ed5492a240ae0d7f999

def credentialGetNext : Bytes := [0x0a, 0xa2, 0x01, 0x05, 0x03, 0x02]

/-- A user, a credential and its key, in that order. -/
def credentialMembers (user id : UInt8) (name : Bytes) (point : ByteArrayOf 32 × ByteArrayOf 32) :
    Bytes :=
  [0x06, if name = [] then 0xa1 else 0xa2, 0x62] ++ utf8 "id" ++ [0x41, user] ++ name ++
    [0x07, 0xa2, 0x62] ++ utf8 "id" ++ [0x41, id, 0x64] ++ utf8 "type" ++ [0x6a] ++
    utf8 "public-key" ++ [0x08, 0xa5, 0x01, 0x02, 0x03, 0x26, 0x20, 0x01, 0x21, 0x58, 0x20] ++
    point.1.1 ++ [0x22, 0x58, 0x20] ++ point.2.1

def credentialAnswers : List Bytes :=
  [[0x00, 0xa5] ++ credentialMembers 1 9 ([0x64] ++ utf8 "name" ++ [0x63] ++ utf8 "ann")
      generatorPoint ++ [0x09, 0x02, 0x0a, 0x02],
    [0x00, 0xa4] ++ credentialMembers 2 10 [] doublePoint ++ [0x0b, 0x58, 0x20] ++ secondHash.1]

/-- An authenticator of two entries, whose answers are read as they are. -/
theorem serve_telling {T : Type} {parse : Value → Except Error T}
    {spells : T → List (Value × Value) → Prop} {label : ℤ} {s : Enumerate T}
    {beginMessage getNextMessage : Bytes} {first second : Bytes} {item item' : T}
    (hexact : MapExact parse spells) (hbegin : s.beginMessage = beginMessage)
    (hnext : s.getNextMessage = getNextMessage) (hne : getNextMessage ≠ beginMessage)
    (hlen : first.length ≤ usizeMax ∧ second.length ≤ usizeMax)
    (hfirst : Reports label parse ⟨first, ⟨0x9000⟩⟩ 2 item)
    (hsecond : Entry parse ⟨second, ⟨0x9000⟩⟩ item') :
    Telling spells label s (serve beginMessage getNextMessage [first, second]) id
      (fun i => [first, second].getD i []) [item, item'] := by
  refine ⟨?_, ?_, ⟨2, item, rfl, rfl, (reports_iff hexact hlen.1).mp hfirst⟩, ?_⟩
  · rw [hbegin, serve, if_pos rfl]
    rfl
  · intro i hi
    obtain rfl : i = 0 := by
      simp only [List.length_cons, List.length_nil] at hi
      omega
    rw [hnext, serve, if_neg hne, if_pos ⟨rfl, Nat.succ_pos _⟩]
    rfl
  · intro i entry hentry
    rcases i with _ | i
    · cases hentry
      exact (entry_iff hexact hlen.2).mp hsecond
    · simp at hentry

theorem rp_reports : Reports 5 parseRpEntry ⟨rpAnswers.getD 0 [], ⟨0x9000⟩⟩ 2
    ⟨⟨"example.org", some "Example"⟩, firstHash⟩ :=
  ⟨_, ⟨_, rfl, rfl⟩, rfl, rfl, by decide, rfl⟩

theorem rp_entry : Entry parseRpEntry ⟨rpAnswers.getD 1 [], ⟨0x9000⟩⟩
    ⟨⟨"example.net", none⟩, secondHash⟩ :=
  ⟨_, ⟨_, rfl, rfl⟩, rfl⟩

set_option maxRecDepth 8000 in
theorem credential_reports : Reports 9 parseCredentialEntry
    ⟨credentialAnswers.getD 0 [], ⟨0x9000⟩⟩ 2 (credentialEntries.get ⟨0, by decide⟩) :=
  ⟨_, ⟨_, rfl, rfl⟩, rfl, rfl, by decide, rfl⟩

set_option maxRecDepth 8000 in
theorem credential_entry : Entry parseCredentialEntry
    ⟨credentialAnswers.getD 1 [], ⟨0x9000⟩⟩ (credentialEntries.get ⟨1, by decide⟩) :=
  ⟨_, ⟨_, rfl, rfl⟩, rfl⟩

/-- Budgets for two entries. -/
theorem two_sufficient {T : Type} {s : Enumerate T} {beginMessage getNextMessage : Bytes}
    {answers : List Bytes} (hbegin : s.beginMessage = beginMessage)
    (hnext : s.getNextMessage = getNextMessage)
    (hexchanges : exchangesOf {} select 0 +
      (exchangesOf {} (msg beginMessage) (answers.getD 0 []).length +
        (exchangesOf {} (msg getNextMessage) (answers.getD 1 []).length + 0)) ≤ 16)
    (hbytes : (answers.getD 0 []).length + (answers.getD 1 []).length ≤ 1024) :
    Sufficient {} s (responseOf fun i => answers.getD i []) 2 := by
  refine ⟨?_, ?_, ?_⟩
  · intro i _
    exact Nat.add_le_add_right (Nat.min_le_right _ _) 2
  · change exchangesOf {} select 0 + (exchangesOf {} (msg s.beginMessage) _ +
      (exchangesOf {} (msg s.getNextMessage) _ + 0)) ≤ _
    rw [hbegin, hnext]
    exact Nat.le_trans hexchanges (by decide)
  · have hsum : 0 + ((answers.getD 0 []).length + ((answers.getD 1 []).length + 0)) ≤ 1024 := by
      omega
    exact Nat.le_trans hsum (by decide)

set_option maxRecDepth 8000 in
/-- The relying parties under the first protocol, and the credentials of the first under the
second. -/
theorem entries_listed_two :
    (∃ op, enumerateRps entryHashes entryToken .v1 {} = .ok op ∧
      Ends (execute (enumeration RpEntry) (messageApplet (serve rpBegin rpGetNext rpAnswers)) op
        0).1 (.ok rpEntries)) ∧
    ∃ op, enumerateCredentials entryHashes entryToken .v2 firstHash false {} = .ok op ∧
      Ends (execute (enumeration CredentialEntry)
        (messageApplet (serve credentialBegin credentialGetNext credentialAnswers)) op
          0).1 (.ok credentialEntries) := by
  constructor
  · obtain ⟨op, hop⟩ : ∃ op, enumerateRps entryHashes entryToken .v1 {} = .ok op := ⟨_, rfl⟩
    obtain ⟨s, hfirst, hsecond, hruns⟩ := (entries_listed entryHashes entryToken .v1 {}).1 _ hop
    have hsent : message entryHashes 0x02 none .v1 (some entryToken) = .ok rpBegin := rfl
    have hasked : message entryHashes 0x03 none .v1 none = .ok rpGetNext := rfl
    have hbegin := Except.ok.inj (hfirst.symm.trans hsent)
    have hnext := Except.ok.inj (hsecond.symm.trans hasked)
    have htelling := serve_telling parseRpEntry_exact hbegin hnext (by decide)
      ⟨by decide, by decide⟩ rp_reports rp_entry
    have hb := @two_sufficient _ s _ _ rpAnswers hbegin hnext (by decide +kernel)
      (by decide +kernel)
    exact ⟨op, hop, hruns.returns _ _ _ _ htelling hb⟩
  · obtain ⟨op, hop⟩ : ∃ op,
        enumerateCredentials entryHashes entryToken .v2 firstHash false {} = .ok op := ⟨_, rfl⟩
    obtain ⟨s, hfirst, hsecond, hruns⟩ :=
      (entries_listed entryHashes entryToken .v2 {}).2 _ _ _ hop
    have hsent : message entryHashes 0x04 (some (enumerateCredentialsParams firstHash false)) .v2
        (some entryToken) = .ok credentialBegin := rfl
    have hasked : message entryHashes 0x05 none .v2 none = .ok credentialGetNext := rfl
    have hbegin := Except.ok.inj (hfirst.symm.trans hsent)
    have hnext := Except.ok.inj (hsecond.symm.trans hasked)
    have htelling := serve_telling parseCredentialEntry_exact hbegin hnext (by decide)
      ⟨by decide +kernel, by decide +kernel⟩ credential_reports credential_entry
    have hb := @two_sufficient _ s _ _ credentialAnswers hbegin hnext (by decide +kernel)
      (by decide +kernel)
    exact ⟨op, hop, hruns.returns _ _ _ _ htelling hb⟩

end example_entries

end CtapCredentialEntries
