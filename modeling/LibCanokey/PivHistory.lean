import LibCanokey.CrashStores
import LibCanokey.PivObjectRoundTrip
import LibCanokey.ProtocolInterruption

/-! # Histories of the objects of a card

Objects are written, deleted and read under any access, and each session may stop anywhere: at a
refused PIN, between two fragments of a container, or before the answer to the last of them. On
any card that keeps objects each of them then holds the value last written, or one of the values
that writes since then may have brought it to. -/
namespace PivHistory

open BigEndian CheckedCursor ListTraversal ProtocolError ProtocolApdu ProtocolApduDecoder
open ProtocolConversation ProtocolOperation ProtocolTranscript ProtocolSession ProtocolInterruption
open ProtocolTlv ProtocolTlvRoundTrip ProtocolTlvFields CompatProfile PivCommand PivManagement
open PivManagementAuthentication PivAccess PivAccessOrdering PivWrite PivObjectStore PivObjects
open PivKeyRotation PivObjectRoundTrip CrashStores

variable {κ : Type*} {cipher : BlockCipher} {profile : DeviceProfile} {A : Applet κ}
  {objects : κ → ObjectStore}

def putHeader : ApduHeader := ⟨0, 0xdb, 0x3f, 0xff⟩
def getHeader : ApduHeader := ⟨0, 0xcb, 0x3f, 0xff⟩

/-- SELECT, GENERAL AUTHENTICATE, VERIFY and GET DATA. -/
def Quiet (header : ApduHeader) : Prop := header.ins ∈ [(0xa4 : UInt8), 0x87, 0x20, 0xcb]

/-- A card that keeps objects: PUT DATA is applied where it succeeds, GET DATA returns the
container where it succeeds, and neither it nor what leads to it changes an object. -/
structure Keeps (A : Applet κ) (objects : κ → ObjectStore) : Prop where
  put : ∀ a d, d.header = putHeader → objects (A a d).2 =
    if (A a d).1.status.isSuccess then (objects a).put d.data else objects a
  get : ∀ a d, d.header = getHeader → (A a d).1.status.isSuccess = true →
    (A a d).1.data = objects a (d.data.drop 2)
  quiet : ∀ a d, Quiet d.header → objects (A a d).2 = objects a
  status : ∀ a d, is61 (A a d).1.status.raw = false ∧ is6c (A a d).1.status.raw = false

/-- The value that reads make of a container, under a limit that every container meets. -/
def stored (profile : DeviceProfile) (id : ObjectId) (container : Bytes) : Option Bytes :=
  (objectReply profile id usizeMax false .ok (success container)).toOption

def content (profile : DeviceProfile) (store : ObjectStore) : ObjectId → Option Bytes :=
  fun id => stored profile id (store id.asBytes)

/-- Writes wrap every value in 53; under the tag 7E reads accept no such container. -/
def readable (id : ObjectId) (data : Bytes) : Option Bytes :=
  if id.tag.value = 0x7e then none else some data

/-- What a torn write can leave: the value before or its own. -/
def left (old new v : Option Bytes) : Prop := v = old ∨ v = new

inductive Session where
  | writeObject (id : ObjectId) (data : Bytes) (access : Access) (options : OperationOptions)
      (stop : Stop)
  | writeCertificate (slot : Slot) (der : Bytes) (access : Access) (options : OperationOptions)
      (stop : Stop)
  | deleteCertificate (slot : Slot) (access : Access) (options : OperationOptions) (stop : Stop)
  | readObject (id : ObjectId) (access : Access) (options : OperationOptions) (stop : Stop)

/-- A write of a value that was or was not accepted as an operation. -/
def writing (cipher : BlockCipher) (A : Applet κ) (id : ObjectId) (data : Bytes) (a : κ)
    (stop : Stop) : Except Error Writing → κ × Option (Event ObjectId (Option Bytes))
  | .error _ => (a, none)
  | .ok op =>
    let result := interrupted (selectedMachine cipher (sequence MutationResult)) A op a stop
    (result.2, some (if result.1.state = .completed then .wrote id (readable id data)
      else .torn id (readable id data)))

def reading (cipher : BlockCipher) (A : Applet κ) (id : ObjectId) (a : κ) (stop : Stop) :
    Except Error (Operation (Selected (Sequence Bytes)) Bytes) →
      κ × Option (Event ObjectId (Option Bytes))
  | .error _ => (a, none)
  | .ok op =>
    let result := interrupted (selectedMachine cipher (sequence Bytes)) A op a stop
    (result.2, result.1.result.toOption.map fun value => .read id (some value))

/-- The card after a session, and what the host has learned. -/
def hold (cipher : BlockCipher) (profile : DeviceProfile) (A : Applet κ) (a : κ) :
    Session → κ × Option (Event ObjectId (Option Bytes))
  | .writeObject id data access options stop =>
    writing cipher A id data a stop (writeObject profile id data access options)
  | .writeCertificate slot der access options stop =>
    writing cipher A (.certificate slot) (certificateValue der) a stop
      (writeCertificate profile slot der access options)
  | .deleteCertificate slot access options stop =>
    writing cipher A (.certificate slot) [] a stop (deleteCertificate profile slot access options)
  | .readObject id access options stop =>
    reading cipher A id a stop (readObject profile id access options)

section content

variable {id : ObjectId} {data container v : Bytes} {store : ObjectStore}

theorem asBytes_injective {id id' : ObjectId} (h : id.asBytes = id'.asBytes) : id = id' := by
  have hsame : Tag.fromBytes id.asBytes = Tag.fromBytes id'.asBytes := by rw [h]
  rw [fromBytes_eq_ok.mpr (show id.tag.toBytes = id.asBytes from rfl),
    fromBytes_eq_ok.mpr (show id'.tag.toBytes = id'.asBytes from rfl)] at hsame
  cases id
  cases id'
  cases hsame
  rfl

/-- What a read makes of a container under its own limit is what is stored. -/
theorem stored_of_reply {limit : ℕ} {r : ResponseData}
    (h : objectReply profile id limit false .ok r = .ok v) :
    r.status.isSuccess = true ∧ stored profile id r.data = some v := by
  obtain ⟨u, hok, h⟩ := bind_eq_ok.mp h
  have hsuccess := ensureSuccess_eq_ok.mp hok
  refine ⟨hsuccess, ?_⟩
  have hreply : objectReply profile id usizeMax false .ok (success r.data) = .ok v := by
    have hstart : (success r.data).ensureSuccess .command = .ok u := rfl
    rw [objectReply, hstart]
    change (if profile.legacyUnwrappedObjects = true ∧ unwrapped id r.data = true then _ else
      _ >>= _) = _
    by_cases hlegacy : profile.legacyUnwrappedObjects = true ∧ unwrapped id r.data = true
    · rw [if_pos hlegacy] at h ⊢
      exact h
    · rw [if_neg hlegacy] at h ⊢
      obtain ⟨field, hsole, hvalue⟩ := bind_eq_ok.mp h
      obtain ⟨hbytes, hfield, haccept, hadmitted, _⟩ := (sole_eq_ok rfl).mp hsole
      have hvalue : (.ok field.value : Except Error Bytes) = .ok v := hvalue
      have hsize := hadmitted.size
      have hlong : field.value.length ≤ (encodeField (field.tag, field.value)).length := by
        rw [encodeField, List.length_append]
        exact Nat.le_add_left _ _
      have hsole' := @sole_complete (.new r.data { maxValueBytes := usizeMax })
        (fun field => field.tag.value == containerTag id) malformed (field.tag, field.value)
        hbytes ⟨hadmitted.word, hsize, Nat.le_trans hlong hsize⟩ (show 1 ≤ 16 by decide)
        haccept
      change (sole (.new r.data { maxValueBytes := usizeMax }) _ _ >>= _) = _
      rw [hsole']
      exact hvalue
  rw [stored, hreply]
  rfl

theorem stored_written (hlen : data.length < 2 ^ 32)
    (hfit : (fieldBytes [0x53] data).length ≤ usizeMax) :
    stored profile id (fieldBytes [0x53] data) = readable id data := by
  by_cases hid : id.tag.value = 0x7e
  · rw [readable, if_pos hid]
    cases hs : stored profile id (fieldBytes [0x53] data) with
    | none => rfl
    | some v =>
      exfalso
      rw [stored] at hs
      cases hr : objectReply profile id usizeMax false .ok (success (fieldBytes [0x53] data)) with
      | error e =>
        rw [hr] at hs
        cases hs
      | ok v' =>
        obtain ⟨_, _, hr⟩ := bind_eq_ok.mp hr
        have hunwrapped : unwrapped id (success (fieldBytes [0x53] data)).data = false := by
          have hhead : (success (fieldBytes [0x53] data)).data.head? = some 0x53 := rfl
          rw [unwrapped, hhead]
          simp
        rw [if_neg (by rw [hunwrapped]; simp)] at hr
        obtain ⟨field, hsole, _⟩ := bind_eq_ok.mp hr
        obtain ⟨hbytes, _, haccept, _, _⟩ := (sole_eq_ok rfl).mp hsole
        -- the tag that the read wants is not the one that the write has put there
        have hwanted : field.tag.value = 0x7e := by
          rw [containerTag, if_pos hid] at haccept
          simpa using haccept
        have htag : field.tag = shortTag 0x7e (by decide) := eq_shortTag (by decide) hwanted
        have hhead : (encodeField (field.tag, field.value)).head? = some 0x7e := by
          rw [encodeField, htag, shortTag_toBytes]
          rfl
        rw [← hbytes] at hhead
        cases hhead
  · have hreply := @objectReply_stored Bytes profile id .ok data usizeMax hid hlen
      (by rw [Nat.min_self]; exact hfit)
    rw [readable, if_neg hid, stored, hreply]
    rfl

theorem content_put (hlen : data.length < 2 ^ 32)
    (hfit : (fieldBytes [0x53] data).length ≤ usizeMax) :
    content profile (store.put (putData id data)) =
      Function.update (content profile store) id (readable id data) := by
  rw [put_putData]
  funext id'
  by_cases hid : id' = id
  · subst hid
    rw [Function.update_self, content, Function.update_self, stored_written hlen hfit]
  · have hbytes : id'.asBytes ≠ id.asBytes := fun h => hid (asBytes_injective h)
    rw [Function.update_of_ne hid, content, Function.update_of_ne hbytes]
    rfl

end content

section calls

variable {options : OperationOptions} {a a' : κ} {c : LogicalCommand} {r : ResponseData}
  {cs : List LogicalCommand} {rs : List ResponseData} {store : ObjectStore}

/-- What an applet that keeps objects does with a command, whatever its Le. -/
theorem calls_quiet (hkeeps : Keeps A objects) (hc : Quiet c.header)
    (h : Calls A options a c r a') : objects a' = objects a := by
  obtain ⟨le, _, hcall⟩ := h
  have hquiet := hkeeps.quiet a ⟨c.header, c.data, le⟩ hc
  rw [hcall] at hquiet
  exact hquiet

theorem calls_put (hkeeps : Keeps A objects) (hc : c.header = putHeader)
    (h : Calls A options a c r a') : objects a' =
      if r.status.isSuccess then (objects a).put c.data else objects a := by
  obtain ⟨le, _, hcall⟩ := h
  have hput := hkeeps.put a ⟨c.header, c.data, le⟩ hc
  rw [hcall] at hput
  exact hput

theorem calls_get {id : ObjectId} (hkeeps : Keeps A objects)
    (h : Calls A options a (getData id) r a') (hr : r.status.isSuccess = true) :
    r.data = objects a id.asBytes := by
  obtain ⟨le, _, hcall⟩ := h
  have hget := hkeeps.get a ⟨(getData id).header, (getData id).data, le⟩ rfl
  rw [hcall] at hget
  exact hget hr

theorem replies_quiet (hkeeps : Keeps A objects) (h : Replies A options a cs rs a')
    (hcs : ∀ c ∈ cs, Quiet c.header) : objects a' = objects a := by
  induction h with
  | nothing => rfl
  | @called cs rs a₁ a₂ c r _ hcall ih =>
    have hlast := calls_quiet hkeeps (hcs c (by simp)) hcall
    exact hlast.trans (ih fun c' hc' => hcs c' (List.mem_append_left _ hc'))

/-- A command in the form in which every PIV command is sent. -/
def Plain (c : LogicalCommand) : Prop :=
  c.header.cla = 0 ∧ c.header.ins ≠ 0xc0 ∧ c.continuation = .iso7816 0

theorem plain_carriable (hkeeps : Keeps A objects) {legacy : Bool} (hc : Plain c) :
    Carriable A options a (explicitLe legacy c) := by
  have hcont : (explicitLe legacy c).continuation = c.continuation := by
    rw [explicitLe]
    split_ifs <;> rfl
  refine ⟨?_, ⟨0, hcont.trans hc.2.2, by decide⟩, ?_⟩
  · rw [explicitLe_header, hc.1]
    exact ⟨by decide, hc.2.1⟩
  · rintro r a' ⟨le, _, hcall⟩
    have hstatus := hkeeps.status a ⟨(explicitLe legacy c).header, (explicitLe legacy c).data, le⟩
    rw [hcall] at hstatus
    exact hstatus

theorem preamble_plain {access : Access} (h : Preamble cipher access cs rs) :
    ∀ c ∈ cs, Plain c ∧ Quiet c.header := by
  have hquiet (c : LogicalCommand) (hcla : c.header.cla = 0) (hcont : c.continuation = .iso7816 0)
      (hins : c.header.ins = 0xa4 ∨ c.header.ins = 0x87 ∨ c.header.ins = 0x20) :
      Plain c ∧ Quiet c.header := by
    rw [Plain, Quiet]
    rcases hins with hins | hins | hins
    all_goals
      rw [hins]
      exact ⟨⟨hcla, by decide, hcont⟩, by decide⟩
  apply h.each
  · exact hquiet _ rfl rfl (Or.inl rfl)
  · intro algorithm fields
    exact hquiet _ rfl rfl (Or.inr (Or.inl rfl))
  · intro pin
    exact hquiet _ rfl rfl (Or.inr (Or.inr rfl))

end calls

section single

variable {T : Type} {command : LogicalCommand} {parse : ResponseData → Except Error T}
  {legacy : Bool} {access : Access} {options : OperationOptions} {a a' : κ}
  {cs : List LogicalCommand} {c : LogicalCommand} {rs : List ResponseData}
  {s : Selected (Sequence T)}

/-- Everything asked before the command of a target is its preamble. -/
theorem single_asked
    (ht : Trace (selectedMachine cipher (sequence T))
      (.new legacy access ⟨[request command .command none], none, some parse⟩) (cs ++ [c]) rs s) :
    (∀ c' ∈ cs, ∃ plain, c' = explicitLe legacy plain ∧ Plain plain ∧ Quiet plain.header) ∧
      ((∃ plain, c = explicitLe legacy plain ∧ Plain plain ∧ Quiet plain.header) ∨
        c = explicitLe legacy command) := by
  obtain ⟨plain, hplain, hs⟩ := selected_trace ht
  obtain ⟨pre, own, rfl, ⟨full, answers, hfull, hpre⟩, hown⟩ := staged_prefix hs
  have hguard : ∀ p ∈ pre, Plain p ∧ Quiet p.header :=
    fun p hp => preamble_plain hfull p (hpre.subset hp)
  by_cases hnil : own = []
  · rw [hnil, List.append_nil] at hplain
    have heach : ∀ c' ∈ cs ++ [c], ∃ plain, c' = explicitLe legacy plain ∧ Plain plain ∧
        Quiet plain.header := by
      intro c' hc'
      rw [hplain] at hc'
      obtain ⟨p, hp, rfl⟩ := List.mem_map.mp hc'
      exact ⟨p, rfl, hguard p hp⟩
    exact ⟨fun c' hc' => heach c' (List.mem_append_left _ hc'),
      Or.inl (heach c (List.mem_append_right _ List.mem_cons_self))⟩
  · obtain ⟨_, _, _, _, _, htrace⟩ := hown hnil
    rw [(single_trace htrace).1, List.map_append] at hplain
    obtain ⟨rfl, hlast⟩ := List.append_inj' hplain rfl
    cases hlast
    refine ⟨?_, Or.inr rfl⟩
    intro c' hc'
    obtain ⟨p, hp, rfl⟩ := List.mem_map.mp hc'
    exact ⟨p, rfl, hguard p hp⟩

theorem single_talks (hkeeps : Keeps A objects) (hcommand : Plain command) :
    Talks (selectedMachine cipher (sequence T)) A options
      (.new legacy access ⟨[request command .command none], none, some parse⟩) a := by
  intro cs c rs s a' ht _
  rcases (single_asked ht).2 with ⟨plain, rfl, hplain, _⟩ | rfl
  · exact plain_carriable hkeeps hplain
  · exact plain_carriable hkeeps hcommand

theorem explicit_quiet {c : LogicalCommand}
    (h : ∃ plain, c = explicitLe legacy plain ∧ Plain plain ∧ Quiet plain.header) :
    Quiet c.header := by
  obtain ⟨plain, rfl, _, hquiet⟩ := h
  rw [explicitLe_header]
  exact hquiet

/-- Where a session has stopped, the objects are as they were or as the command left them. -/
theorem single_stopped (hkeeps : Keeps A objects)
    (ht : Trace (selectedMachine cipher (sequence T))
      (.new legacy access ⟨[request command .command none], none, some parse⟩) (cs ++ [c]) rs s)
    (hr : Replies A options a cs rs a' ∨ ∃ r, Replies A options a (cs ++ [c]) (rs ++ [r]) a') :
    objects a' = objects a ∨ ∃ a₁ r, objects a₁ = objects a ∧
      Calls A options a₁ (explicitLe legacy command) r a' := by
  obtain ⟨hbefore, hlast⟩ := single_asked ht
  have hquiet : ∀ c' ∈ cs, Quiet c'.header := fun c' hc' => explicit_quiet (hbefore c' hc')
  rcases hr with hr | ⟨r, hr⟩
  · exact Or.inl (replies_quiet hkeeps hr hquiet)
  · obtain ⟨rs', r', a₁, _, hr', hcall⟩ := hr.last
    have hsame := replies_quiet hkeeps hr' hquiet
    rcases hlast with hguard | rfl
    · exact Or.inl ((calls_quiet hkeeps (explicit_quiet hguard) hcall).trans hsame)
    · exact Or.inr ⟨a₁, r', hsame, hcall⟩

/-- A session that is done has had the command answered, and its parser has taken the answer. -/
theorem single_done (hkeeps : Keeps A objects) {value : T}
    (ht : LastTurn (selectedMachine cipher (sequence T))
      (.new legacy access ⟨[request command .command none], none, some parse⟩)
      (.ok (.done value)) cs rs s) (hr : Replies A options a cs rs a') :
    ∃ a₁ r, objects a₁ = objects a ∧ Calls A options a₁ (explicitLe legacy command) r a' ∧
      parse r = .ok value := by
  obtain ⟨pre, own, answers, given, hfull, hcs, hrs, hturn⟩ := selected_done ht
  cases hturn with
  | opening h => cases h
  | @answering own' given' m m' r htrace h =>
    obtain ⟨rfl, rfl⟩ := single_trace htrace
    have hparse : (parse r).map Action.done = .ok (.done value) := (Prod.mk.inj h).1
    obtain ⟨v, hv, hdone⟩ := map_eq_ok.mp hparse
    cases hdone
    rw [hcs, List.map_append] at hr
    obtain ⟨rs', r', a₁, hsplit, hr', hcall⟩ := hr.last
    rw [hrs, ← List.append_assoc] at hsplit
    obtain ⟨_, hsame⟩ := List.append_inj' hsplit rfl
    cases hsame
    refine ⟨a₁, r, replies_quiet hkeeps hr' ?_, hcall, hv⟩
    intro c hc
    obtain ⟨p, hp, rfl⟩ := List.mem_map.mp hc
    rw [explicitLe_header]
    exact (preamble_plain hfull p hp).2

end single

section sessions

variable {id : ObjectId} {data : Bytes} {access : Access} {options : OperationOptions}

theorem writing_shows (hkeeps : Keeps A objects) {put : LogicalCommand} {op : Writing}
    (hput : putCommand profile id data options = .ok put)
    (hop : withAccess profile access (mutating put) options = .ok op) (a : κ) (stop : Stop) :
    Shows left (content profile (objects a)) (writing cipher A id data a stop (.ok op)).2
      (content profile (objects (writing cipher A id data a stop (.ok op)).1)) := by
  obtain ⟨hcommand, _, _, hlen, hfit, _⟩ := putCommand_eq_ok hput
  obtain ⟨_, hmade⟩ := withAccess_eq_ok.mp hop
  have hdata : put.data = putData id data := by rw [hcommand]; rfl
  have hheader : (explicitLe profile.legacyExplicitLe put).header = putHeader := by
    rw [explicitLe_header, hcommand]
    rfl
  have hplain : Plain put := by
    rw [hcommand]
    exact ⟨rfl, show (0xdb : UInt8) ≠ 0xc0 by decide, rfl⟩
  have hwhole : (fieldBytes [0x53] data).length ≤ usizeMax := by
    rw [putData, List.length_append] at hfit
    omega
  have hafter (a₁ a' : κ) (r : ResponseData) (hsame : objects a₁ = objects a)
      (hcall : Calls A options a₁ (explicitLe profile.legacyExplicitLe put) r a') :
      content profile (objects a') = if r.status.isSuccess then
        Function.update (content profile (objects a)) id (readable id data)
      else content profile (objects a) := by
    rw [calls_put hkeeps hheader hcall, hsame, explicitLe_data, hdata]
    by_cases hok : r.status.isSuccess = true
    · rw [if_pos hok, if_pos hok, content_put hlen hwhole]
    · rw [if_neg hok, if_neg hok]
  have hatomic := interrupted_stands (M := selectedMachine cipher (sequence MutationResult)) hmade
    (single_talks hkeeps hplain (a := a)) stop
  simp only [writing]
  generalize interrupted (selectedMachine cipher (sequence MutationResult)) A op a stop = result
    at hatomic ⊢
  by_cases hs : result.1.state = .completed
  · rw [if_pos hs]
    obtain ⟨cs, rs, m, value, ht, hr, _⟩ := hatomic.done hs
    obtain ⟨a₁, r, hsame, hcall, hparse⟩ := single_done hkeeps ht hr
    obtain ⟨rfl, _⟩ := mutation_eq_ok.mp hparse
    rw [hafter a₁ result.2 _ hsame hcall, if_pos (success_isSuccess [])]
    exact .event (.wrote id (readable id data))
  · rw [if_neg hs]
    have hkept : Shows left (content profile (objects a))
        (some (.torn id (readable id data))) (content profile (objects a)) :=
      .event (.torn_kept (Or.inl rfl))
    rcases hatomic.applet with hsame | ⟨cs, c, rs, m, ht, hr⟩
    · rw [hsame]
      exact hkept
    · rcases single_stopped hkeeps ht hr with hsame | ⟨a₁, r, hsame, hcall⟩
      · rw [hsame]
        exact hkept
      · rw [hafter a₁ result.2 r hsame hcall]
        by_cases hok : r.status.isSuccess = true
        · rw [if_pos hok]
          exact .event (.torn id _ _ (Or.inr rfl))
        · rw [if_neg hok]
          exact hkept

theorem reading_shows (hkeeps : Keeps A objects)
    {op : Operation (Selected (Sequence Bytes)) Bytes}
    (hop : readObject profile id access options = .ok op) (a : κ) (stop : Stop) :
    Shows left (content profile (objects a)) (reading cipher A id a stop (.ok op)).2
      (content profile (objects (reading cipher A id a stop (.ok op)).1)) := by
  obtain ⟨target, htarget, hop⟩ := bind_eq_ok.mp hop
  obtain ⟨_, _, htarget⟩ := bind_eq_ok.mp htarget
  obtain ⟨_, rfl⟩ := prepare_eq_ok.mp htarget
  obtain ⟨_, hmade⟩ := withAccess_eq_ok.mp hop
  have hplain : Plain (getData id) := ⟨rfl, show (0xcb : UInt8) ≠ 0xc0 by decide, rfl⟩
  have hsame : explicitLe profile.legacyExplicitLe (getData id) = getData id := by
    rw [explicitLe, if_neg (fun h => by cases h.2)]
  have hget : Quiet (getData id).header := by
    rw [Quiet]
    exact show (0xcb : UInt8) ∈ [(0xa4 : UInt8), 0x87, 0x20, 0xcb] by decide
  have hatomic := interrupted_stands (M := selectedMachine cipher (sequence Bytes)) hmade
    (single_talks hkeeps hplain (a := a)) stop
  simp only [reading]
  generalize interrupted (selectedMachine cipher (sequence Bytes)) A op a stop = result
    at hatomic ⊢
  by_cases hs : result.1.state = .completed
  · obtain ⟨cs, rs, m, value, ht, hr, hout⟩ := hatomic.done hs
    obtain ⟨a₁, r, hbefore, hcall, hparse⟩ := single_done hkeeps ht hr
    rw [hsame] at hcall
    obtain ⟨hok, hstored⟩ := stored_of_reply hparse
    rw [calls_get hkeeps hcall hok, hbefore] at hstored
    have hvalue : content profile (objects a) id = some value := hstored
    have hresult : result.1.result = .ok value := by
      rw [Operation.result, if_neg (not_not.mpr hs), hout]
    rw [hresult, calls_quiet hkeeps hget hcall, hbefore]
    exact .event (.read_eq hvalue)
  · have hresult : result.1.result = .error stateError := if_pos hs
    have hkept : objects result.2 = objects a := by
      rcases hatomic.applet with hkept | ⟨cs, c, rs, m, ht, hr⟩
      · rw [hkept]
      · rcases single_stopped hkeeps ht hr with hkept | ⟨a₁, r, hbefore, hcall⟩
        · exact hkept
        · rw [hsame] at hcall
          exact (calls_quiet hkeeps hget hcall).trans hbefore
    rw [hresult, hkept]
    exact .nothing

theorem hold_shows (hkeeps : Keeps A objects) (a : κ) (e : Session) :
    Shows left (content profile (objects a)) (hold cipher profile A a e).2
      (content profile (objects (hold cipher profile A a e).1)) := by
  cases e with
  | writeObject id data access options stop =>
    cases hop : writeObject profile id data access options with
    | error e =>
      simp only [hold, hop]
      exact .nothing
    | ok op =>
      simp only [hold, hop]
      obtain ⟨_, _, h⟩ := bind_eq_ok.mp hop
      obtain ⟨target, htarget, hmade⟩ := bind_eq_ok.mp h
      obtain ⟨put, hput, rfl⟩ := prepareWriteObject_eq_ok htarget
      exact writing_shows hkeeps hput hmade a stop
  | writeCertificate slot der access options stop =>
    cases hop : writeCertificate profile slot der access options with
    | error e =>
      simp only [hold, hop]
      exact .nothing
    | ok op =>
      simp only [hold, hop]
      obtain ⟨_, _, h⟩ := bind_eq_ok.mp hop
      obtain ⟨target, htarget, hmade⟩ := bind_eq_ok.mp h
      obtain ⟨_, _, _, htarget⟩ := prepareWriteCertificate_eq_ok htarget
      obtain ⟨put, hput, rfl⟩ := prepareWriteObject_eq_ok htarget
      exact writing_shows hkeeps hput hmade a stop
  | deleteCertificate slot access options stop =>
    cases hop : deleteCertificate profile slot access options with
    | error e =>
      simp only [hold, hop]
      exact .nothing
    | ok op =>
      simp only [hold, hop]
      obtain ⟨_, _, h⟩ := bind_eq_ok.mp hop
      obtain ⟨target, htarget, hmade⟩ := bind_eq_ok.mp h
      obtain ⟨_, _, htarget⟩ := bind_eq_ok.mp htarget
      obtain ⟨put, hput, rfl⟩ := prepareWriteObject_eq_ok htarget
      exact writing_shows hkeeps hput hmade a stop
  | readObject id access options stop =>
    cases hop : readObject profile id access options with
    | error e =>
      simp only [hold, hop]
      exact .nothing
    | ok op =>
      simp only [hold, hop]
      exact reading_shows hkeeps hop a stop

end sessions

/-- Over any sessions with it, each stopped anywhere, a card that keeps objects is a store that
survives them. -/
theorem objects_serve (cipher : BlockCipher) (profile : DeviceProfile) (hkeeps : Keeps A objects)
    (a : κ) (sessions : List Session) :
    Serves left (content profile (objects a)) (logged (hold cipher profile A) a sessions).2
      (content profile (objects (logged (hold cipher profile A) a sessions).1)) := by
  exact @logged_serves _ _ _ _ _ left (hold cipher profile A)
    (fun a => content profile (objects a)) (fun a e => hold_shows hkeeps a e) a sessions

theorem shelf_keeps : Keeps shelf fun store => store := by
  constructor
  · intro store d hd
    have hshelf : shelf store d = (success [], store.put d.data) := if_pos hd
    rw [hshelf, if_pos (success_isSuccess [])]
  · intro store d hd hok
    have hput : ¬ d.header = ⟨0, 0xdb, 0x3f, 0xff⟩ := by
      rw [hd]
      decide
    have hshelf : shelf store d = (success (store (d.data.drop 2)), store) :=
      (if_neg hput).trans (if_pos hd)
    rw [hshelf]
    rfl
  · intro store d hd
    rw [shelf]
    split_ifs with hput
    · rw [Quiet, hput] at hd
      exact absurd hd (by decide)
    · rfl
    · rfl
  · intro store d
    rw [shelf]
    split_ifs <;> exact ⟨show is61 0x9000 = false by decide, show is6c 0x9000 = false by decide⟩

/-- The second write stops after the first of its two fragments, and of the deletion the answer is
lost. -/
def shelfSessions : List Session :=
  [.writeObject .printed [7, 8, 9] .existing narrowWrite ⟨9, false⟩,
    .writeObject .printed [5, 5, 5] .existing narrowWrite ⟨1, false⟩,
    .readObject .printed .existing {} ⟨9, false⟩,
    .writeCertificate .signature [1, 2] .existing {} ⟨9, false⟩,
    .readObject (.certificate .signature) .existing {} ⟨9, false⟩,
    .deleteCertificate .signature .existing {} ⟨0, true⟩,
    .readObject (.certificate .signature) .existing {} ⟨9, false⟩]

theorem objects_serve_shelf :
    Serves left (content exampleProfile emptyStore)
      (logged (hold exampleCipher exampleProfile shelf) emptyStore shelfSessions).2
      (content exampleProfile
        (logged (hold exampleCipher exampleProfile shelf) emptyStore shelfSessions).1) ∧
    (logged (hold exampleCipher exampleProfile shelf) emptyStore shelfSessions).2 =
      [.wrote .printed (some [7, 8, 9]), .torn .printed (some [5, 5, 5]),
        .read .printed (some [7, 8, 9]),
        .wrote (.certificate .signature) (some (certificateValue [1, 2])),
        .read (.certificate .signature) (some (certificateValue [1, 2])),
        .torn (.certificate .signature) (some []),
        .read (.certificate .signature) (some [])] :=
  ⟨objects_serve exampleCipher exampleProfile shelf_keeps emptyStore shelfSessions,
    by decide +kernel⟩

end PivHistory
