import LibCanokey.CompatAlgorithms
import LibCanokey.OpenPgpExecute
import LibCanokey.OpenPgpFraming
import LibCanokey.ProtocolStages

/-! # The order of OpenPGP operations

What every run of an operation exposes, in which order, and which answers of the card let it go
on: the attributes of a key before a password, the password before the target. -/
namespace OpenPgpOrdering

open BigEndian ListTraversal ProtocolError ProtocolApdu ProtocolConversation ProtocolOperation
open ProtocolTranscript ProtocolStages CompatProfile OpenPgpTypes OpenPgpKeys OpenPgpExecute

/-- The application data gives the slot an algorithm that the request may go on with. -/
def Agreed (profile : DeviceProfile) (request : Request) (data : Bytes) : Prop :=
  ∃ slot expected a, request.key = some (slot, expected) ∧ observed data slot profile = .ok a ∧
    (∀ e, expected = some e → a = e) ∧
    (profile.openpgpAlgorithmSupport a request.generates).support = .supported

/-- Whether the firmware sends the application data with their own tag. -/
def sendsTag (profile : DeviceProfile) : Bool :=
  decide ((profile.capability .openPgpWrappedData).support = .supported)

/-- Agreement by the grammar of the answer: it is the application data of this firmware, with one
discretionary template and in it one field of attributes for the slot. -/
theorem agreed_iff {profile : DeviceProfile} {request : Request} {data : Bytes}
    (hsize : data.length ≤ CheckedCursor.usizeMax) : Agreed profile request data ↔
      (profile.capability .openPgp).require = .ok () ∧ ∃ slot expected a,
        request.key = some (slot, expected) ∧
        OpenPgpFraming.Announces (sendsTag profile) data slot a ∧
        (∀ e, expected = some e → a = e) ∧
        (profile.openpgpAlgorithmSupport a request.generates).support = .supported := by
  have hframes (happlet : (profile.capability .openPgp).require = .ok ()) :
      OpenPgpFraming.Frames profile 0x6e (sendsTag profile) := ⟨happlet, _, rfl, rfl⟩
  constructor
  · rintro ⟨slot, expected, a, hkey, hobserved, hexpected, hsupport⟩
    obtain ⟨_, happ, _⟩ := bind_eq_ok.mp hobserved
    obtain ⟨_, hcontents, _⟩ := bind_eq_ok.mp happ
    obtain ⟨_, happlet, _⟩ := bind_eq_ok.mp hcontents
    have hannounced := (OpenPgpFraming.observed_eq_ok (hframes happlet) hsize).mp hobserved
    exact ⟨happlet, slot, expected, a, hkey, hannounced, hexpected, hsupport⟩
  · rintro ⟨happlet, slot, expected, a, hkey, hannounced, hexpected, hsupport⟩
    have hobserved := (OpenPgpFraming.observed_eq_ok (hframes happlet) hsize).mpr hannounced
    exact ⟨slot, expected, a, hkey, hobserved, hexpected, hsupport⟩

/-- The answers after which a machine goes on. -/
inductive Passed (profile : DeviceProfile) (request : Request) : Stage → ResponseData → Prop where
  | select {r : ResponseData} (hd : r.data = []) : Passed profile request .select r
  | metadata {r : ResponseData} (hr : r.status.isSuccess = true)
      (h : Agreed profile request r.data) : Passed profile request .metadata r
  | authenticate {reference : PasswordReference} {r : ResponseData}
      (hr : r.status.isSuccess = true) (hd : r.data = []) :
      Passed profile request (.authenticate reference) r
  | acknowledge {r : ResponseData} (hr : r.status.isSuccess = true) (hd : r.data = []) :
      Passed profile request .acknowledge r

section turns

theorem accept_agreed {s : OpenPgp} {data : Bytes} {a : Algorithm} (h : s.accept data = .ok a) :
    Agreed s.profile s.request data := by
  obtain ⟨⟨slot, expected⟩, hkey, h⟩ := bind_eq_ok.mp h
  obtain ⟨b, hobserved, h⟩ := bind_eq_ok.mp h
  split_ifs at h with hexpected
  obtain ⟨_, hsupport, _⟩ := bind_eq_ok.mp h
  have hkey : s.request.key = some (slot, expected) := by
    cases hk : s.request.key with
    | none =>
      rw [hk] at hkey
      cases hkey
    | some key =>
      rw [hk] at hkey
      cases hkey
      rfl
  refine ⟨slot, expected, b, hkey, hobserved, ?_, require_eq_ok.mp hsupport⟩
  rintro e rfl
  simp only [Option.any_some, bne_iff_ne, ne_eq, not_not] at hexpected
  exact hexpected.symm

/-- The next entry of the queue is sent. -/
structure Popped (s : OpenPgp) (c : LogicalCommand) (s' : OpenPgp) : Prop where
  queue : ∃ stage, s.queue = (c, stage) :: s'.queue ∧ s'.pending = some stage
  request : s'.request = s.request
  profile : s'.profile = s.profile

theorem pop_popped {s s' : OpenPgp} {c : LogicalCommand} (h : s.pop = (.ok (.command c), s')) :
    Popped s c s' := by
  rw [OpenPgp.pop] at h
  cases hq : s.queue with
  | nil =>
    rw [hq] at h
    cases h
  | cons entry rest =>
    obtain ⟨c', stage⟩ := entry
    rw [hq] at h
    cases h
    exact ⟨⟨stage, hq, rfl⟩, rfl, rfl⟩

theorem succeeded_passed {s s' : OpenPgp} {stage : Stage} {r : ResponseData} {c : LogicalCommand}
    (hr : r.status.isSuccess = true ∨ stage = .select)
    (h : s.succeeded stage r.data = (.ok (.command c), s')) :
    Passed s.profile s.request stage r ∧ Popped s c s' := by
  have hempty (h : (if r.data = [] then s.pop else (.error invalid, s)) = (.ok (.command c), s')) :
      r.data = [] ∧ Popped s c s' := by
    split_ifs at h with hd
    · exact ⟨hd, pop_popped h⟩
    · cases h
  cases stage with
  | select =>
    obtain ⟨hd, hpop⟩ := hempty h
    exact ⟨.select hd, hpop⟩
  | metadata =>
    rw [OpenPgp.succeeded] at h
    cases ha : s.accept r.data with
    | error e =>
      rw [ha] at h
      cases h
    | ok a =>
      rw [ha] at h
      obtain ⟨hqueue, hrequest, hprofile⟩ := pop_popped h
      exact ⟨.metadata (hr.resolve_right (by simp)) (accept_agreed ha), hqueue, hrequest, hprofile⟩
  | authenticate reference =>
    obtain ⟨hd, hpop⟩ := hempty h
    exact ⟨.authenticate (hr.resolve_right (by simp)) hd, hpop⟩
  | acknowledge =>
    obtain ⟨hd, hpop⟩ := hempty h
    exact ⟨.acknowledge (hr.resolve_right (by simp)) hd, hpop⟩
  | target =>
    obtain ⟨hresult, _⟩ := Prod.mk.inj h
    obtain ⟨_, _, hvalue⟩ := map_eq_ok.mp hresult
    cases hvalue

/-- A report ends the run. -/
theorem reported_ends {s : OpenPgp} {stage : Stage} {r : ResponseData} {c : LogicalCommand} :
    s.reported stage r ≠ some (.ok (.command c)) := by
  intro h
  rw [OpenPgp.reported] at h
  split_ifs at h
  · cases h
  · obtain ⟨_, _, hvalue⟩ := Option.map_eq_some_iff.mp h
    cases hvalue

theorem answered_passed {s s' : OpenPgp} {stage : Stage} {r : ResponseData} {c : LogicalCommand}
    (h : s.answered stage r = (.ok (.command c), s')) :
    Passed s.profile s.request stage r ∧ Popped s c s' := by
  rw [OpenPgp.answered] at h
  cases hreport : s.reported stage r with
  | some answer =>
    rw [hreport] at h
    obtain ⟨rfl, _⟩ := Prod.mk.inj h
    exact absurd hreport reported_ends
  | none =>
    rw [hreport] at h
    dsimp only at h
    split_ifs at h with hbad
    · cases h
    · refine succeeded_passed ?_ h
      by_cases hr : r.status.isSuccess = true
      · exact Or.inl hr
      · have hselect : s.terminatedSelect stage r = true := not_not.mp fun hn => hbad ⟨hr, hn⟩
        rw [OpenPgp.terminatedSelect] at hselect
        simp only [Bool.and_eq_true, beq_iff_eq] at hselect
        exact Or.inr hselect.1.1.1

/-- Where an operation stands: the entries answered, the one awaited and the rest. -/
structure Staged (s₀ : OpenPgp) (cs : List LogicalCommand) (rs : List ResponseData)
    (m : OpenPgp) : Prop where
  entries : ∃ front c stage, s₀.queue = front ++ (c, stage) :: m.queue ∧
    cs = front.map Prod.fst ++ [c] ∧ m.pending = some stage ∧
    List.Forall₂ (fun entry r => Passed s₀.profile s₀.request entry.2 r) front rs
  request : m.request = s₀.request
  profile : m.profile = s₀.profile

theorem openPgp_described (s₀ : OpenPgp) : Described openPgp s₀ (Staged s₀) where
  opening := by
    intro c m h
    obtain ⟨⟨stage, hqueue, hpending⟩, hrequest, hprofile⟩ := pop_popped h
    exact ⟨⟨[], c, stage, hqueue, rfl, hpending, .nil⟩, hrequest, hprofile⟩
  answering := by
    intro cs rs m r c m' hm h
    obtain ⟨⟨front, c₁, stage, hqueue, rfl, hpending, hfront⟩, hrequest, hprofile⟩ := hm
    simp only [openPgp, OpenPgp.next, hpending] at h
    obtain ⟨hpassed, ⟨stage', hqueue', hpending'⟩, hrequest', hprofile'⟩ := answered_passed h
    dsimp only at hpassed hqueue' hrequest' hprofile'
    rw [hrequest, hprofile] at hpassed
    refine ⟨⟨front ++ [(c₁, stage)], c, stage', ?_, ?_, hpending', ?_⟩,
      hrequest'.trans hrequest, hprofile'.trans hprofile⟩
    · rw [hqueue, hqueue', List.append_assoc]
      rfl
    · rw [List.map_append]
      rfl
    · exact List.rel_append hfront (.cons hpassed .nil)

end turns

section runs

variable {profile : DeviceProfile} {request : Request} {access : Option Access}
  {options : OperationOptions}

/-- SELECT, GET DATA 6E for keys, VERIFY, SELECT DATA for certificates and the target. -/
def plan (profile : DeviceProfile) (request : Request) (access : Option Access)
    (own : Option LogicalCommand) : List LogicalCommand :=
  ([select] ++ (if request.key.isSome then [readObject 0x6e] else []) ++
    access.toList.map verify ++ request.certificate.toList.map selectCertificate ++
    own.toList).map (withLe profile.legacyExplicitLe)

/-- The place of VERIFY in a plan with an access. -/
def verifyAt (request : Request) : ℕ := if request.key.isSome then 2 else 1

/-- What every run of an operation keeps to. -/
structure Ordered (profile : DeviceProfile) (request : Request) (access : Option Access)
    (t : Recorded OpenPgp Outcome) : Prop where
  plan : ∃ own, target request = .ok own ∧ t.commands <+: plan profile request access own
  metadata : request.key.isSome = true → 2 < t.commands.length →
    ∃ r, t.responses[1]? = some r ∧ r.status.isSuccess = true ∧ Agreed profile request r.data
  password : access.isSome = true → verifyAt request + 1 < t.commands.length →
    ∃ r, t.responses[verifyAt request]? = some r ∧ r.status.isSuccess = true ∧ r.data = []
  certificate : ∀ slot, request.certificate = some slot → ∃ front own,
    target request = .ok (some own) ∧ OpenPgpOrdering.plan profile request access (some own) =
      front ++ [withLe profile.legacyExplicitLe (selectCertificate slot),
        withLe profile.legacyExplicitLe own]
  carried : ∀ reference, request.required = some reference →
    ∃ a, access = some a ∧ a.reference = reference

theorem queue_plan (own : Option LogicalCommand) :
    (queue profile.legacyExplicitLe request access own).map Prod.fst =
      plan profile request access own := by
  have hkey :
      (if request.key.isSome then [(readObject 0x6e, Stage.metadata)] else []).map Prod.fst =
        if request.key.isSome then [readObject 0x6e] else [] := by
    split_ifs <;> rfl
  simp only [queue, entries, plan, List.map_append, List.map_map, ← hkey]
  congr 1

/-- An operation starts with the queue of its request, whose access was checked. -/
theorem operation_starts {op : Operation OpenPgp Outcome}
    (h : operation profile request access options = .ok op) :
    ∃ own s₀, target request = .ok own ∧ checkAccess request access = .ok () ∧
      s₀.queue = queue profile.legacyExplicitLe request access own ∧ s₀.request = request ∧
      s₀.profile = profile ∧ Operation.fromMachine s₀ options = .ok op := by
  obtain ⟨_, _, h⟩ := bind_eq_ok.mp h
  obtain ⟨_, _, h⟩ := bind_eq_ok.mp h
  obtain ⟨_, _, h⟩ := bind_eq_ok.mp h
  obtain ⟨_, _, h⟩ := bind_eq_ok.mp h
  obtain ⟨_, haccess, h⟩ := bind_eq_ok.mp h
  obtain ⟨own, htarget, h⟩ := bind_eq_ok.mp h
  obtain ⟨_, _, h⟩ := bind_eq_ok.mp h
  obtain ⟨_, _, h⟩ := bind_eq_ok.mp h
  split_ifs at h
  exact ⟨own, _, htarget, haccess, rfl, rfl, rfl, h⟩

theorem checkAccess_carried (h : checkAccess request access = .ok ())
    {reference : PasswordReference} (hr : request.required = some reference) :
    ∃ a, access = some a ∧ a.reference = reference := by
  rw [checkAccess] at h
  split_ifs at h with hmissing
  rw [hr] at hmissing
  simp only [Option.isSome_some, true_and, ne_eq, not_not] at hmissing
  exact Option.map_eq_some_iff.mp hmissing

theorem certificate_target {slot : Slot} {own : Option LogicalCommand}
    (h : request.certificate = some slot) (hown : target request = .ok own) :
    ∃ c, own = some c := by
  cases request with
  | readCertificate => cases hown; exact ⟨_, rfl⟩
  | writeCertificate =>
    simp only [target] at hown
    split_ifs at hown
    cases hown
    exact ⟨_, rfl⟩
  | _ => cases h

theorem plan_certificate {slot : Slot} (h : request.certificate = some slot) (c : LogicalCommand) :
    ∃ front, plan profile request access (some c) =
      front ++ [withLe profile.legacyExplicitLe (selectCertificate slot),
        withLe profile.legacyExplicitLe c] := by
  refine ⟨([select] ++ (if request.key.isSome then [readObject 0x6e] else []) ++
    access.toList.map verify).map (withLe profile.legacyExplicitLe), ?_⟩
  simp [plan, h]

/-- An answered entry of the queue has passed. -/
theorem answered_at {s₀ m : OpenPgp} {cs : List LogicalCommand} {given rs : List ResponseData}
    {i : ℕ} {entry : LogicalCommand × Stage} (h : Staged s₀ cs given m) (hrs : given <+: rs)
    (hentry : s₀.queue[i]? = some entry) (hi : i + 1 < cs.length) :
    ∃ r, rs[i]? = some r ∧ Passed s₀.profile s₀.request entry.2 r := by
  obtain ⟨⟨front, c, stage, hqueue, rfl, _, hfront⟩, _, _⟩ := h
  have hlen : i < front.length := by
    simp at hi
    omega
  have hgiven : i < given.length := hfront.length_eq ▸ hlen
  rw [hqueue, List.getElem?_append_left hlen, List.getElem?_eq_getElem hlen] at hentry
  obtain ⟨rest, rfl⟩ := hrs
  refine ⟨given[i], ?_, ?_⟩
  · rw [List.getElem?_append_left hgiven, List.getElem?_eq_getElem hgiven]
  · have hpassed := hfront.get hlen hgiven
    simp only [List.get_eq_getElem] at hpassed
    rw [Option.some.inj hentry] at hpassed
    exact hpassed

/-- Every run of an operation follows its plan, past answers that allow it. -/
theorem openPgp_ordering {op : Operation OpenPgp Outcome}
    (h : operation profile request access options = .ok op) (calls : List Call) :
    Ordered profile request access (recorded openPgp op calls) := by
  obtain ⟨own, s₀, htarget, haccess, hqueue, rfl, rfl, hop⟩ := operation_starts h
  have hexposed := (openPgp_described s₀).exposed hop calls
  refine ⟨⟨own, htarget, ?_⟩, ?_, ?_, ?_, fun _ => checkAccess_carried haccess⟩
  · rcases hexposed with hnil | ⟨rs, m, hrs, hstaged⟩
    · rw [hnil]
      exact List.nil_prefix
    · obtain ⟨front, c, stage, hfront, hcs, _⟩ := hstaged.entries
      rw [← queue_plan, ← hqueue, hfront, hcs]
      exact ⟨m.queue.map Prod.fst, by simp⟩
  · intro hkey hlen
    rcases hexposed with hnil | ⟨rs, m, hrs, hstaged⟩
    · rw [hnil] at hlen
      cases hlen
    · have hentry : s₀.queue[1]? =
          some (withLe s₀.profile.legacyExplicitLe (readObject 0x6e), Stage.metadata) := by
        simp [hqueue, queue, entries, hkey]
      obtain ⟨r, hr, hpassed⟩ := answered_at hstaged hrs hentry hlen
      cases hpassed with
      | metadata hsuccess hagreed => exact ⟨r, hr, hsuccess, hagreed⟩
  · intro hsome hlen
    obtain ⟨a, ha⟩ := Option.isSome_iff_exists.mp hsome
    rcases hexposed with hnil | ⟨rs, m, hrs, hstaged⟩
    · rw [hnil] at hlen
      cases hlen
    · have hentry : s₀.queue[verifyAt s₀.request]? =
          some (withLe s₀.profile.legacyExplicitLe (verify a), .authenticate a.reference) := by
        by_cases hkey : s₀.request.key.isSome = true
        · simp [hqueue, queue, entries, hkey, ha, verifyAt]
        · simp [hqueue, queue, entries, hkey, ha, verifyAt]
      obtain ⟨r, hr, hpassed⟩ := answered_at hstaged hrs hentry hlen
      cases hpassed with
      | authenticate hsuccess hempty => exact ⟨r, hr, hsuccess, hempty⟩
  · intro slot hslot
    obtain ⟨c, rfl⟩ := certificate_target hslot htarget
    obtain ⟨front, hfront⟩ := plan_certificate hslot c
    exact ⟨front, c, htarget, hfront⟩

/-- A 3.1.0 device. -/
def modernProfile : DeviceProfile :=
  { firmware := some ⟨3, 1, 0, none⟩
    pivVersion := none
    config := none
    legacyPivExtensions := none
    warnings := [] }

def signAccess : Access where
  reference := .pw1Sign
  password := ⟨[0x31, 0x32, 0x33, 0x34, 0x35, 0x36], by decide, by decide⟩

/-- Application data with the attributes of P-256 for signatures. -/
def p256Data : Bytes :=
  [0x6e, 13, 0x73, 11, 0xc1, 9, 0x13, 0x2a, 0x86, 0x48, 0xce, 0x3d, 3, 1, 7]

def signRequest : Request := .sign .eccP256 (List.replicate 32 0xaa)

/-- SELECT, GET DATA, VERIFY and the signature. -/
theorem openPgp_ordering_sign :
    ∃ op, operation modernProfile signRequest (some signAccess) {} = .ok op ∧
      (recorded openPgp op [.start, .advance [0x90, 0], .advance (p256Data ++ [0x90, 0]),
        .advance [0x90, 0]]).commands =
          [select, readObject 0x6e, verify signAccess,
            command 0x2a 0x9e 0x9a (List.replicate 32 0xaa) false false] ∧
      Ordered modernProfile signRequest (some signAccess) (recorded openPgp op
        [.start, .advance [0x90, 0], .advance (p256Data ++ [0x90, 0]), .advance [0x90, 0]]) := by
  have hop : operation modernProfile signRequest (some signAccess) {} = .ok _ := rfl
  exact ⟨_, hop, rfl, openPgp_ordering hop _⟩

end runs

end OpenPgpOrdering
