import LibCanokey.AdminPatch
import LibCanokey.CompatAlgorithms
import LibCanokey.ProtocolCompletion

/-! # Runs of a configuration patch

What the operation exposes after READ CONFIG, for every answer of the card: the commands of the
patch when it can be applied as a whole, and nothing otherwise. -/
namespace AdminConfigure

open BigEndian ListTraversal ProtocolError ProtocolApdu ProtocolConversation ProtocolOperation
open ProtocolTranscript ProtocolStages ProtocolSession ProtocolCompletion CompatProfile
open CompatAlgorithms AdminTypes AdminExecute AdminPatch SparseUpdates

section turns

variable {s s' : Admin} {stage : Stage} {r : ResponseData}

/-- What no turn changes. -/
structure Kept (s s' : Admin) : Prop where
  request : s'.request = s.request
  options : s'.options = s.options
  profile : s'.profile = s.profile

theorem Kept.trans {s'' : Admin} (h : Kept s s') (h' : Kept s' s'') : Kept s s'' :=
  ⟨h'.request.trans h.request, h'.options.trans h.options, h'.profile.trans h.profile⟩

theorem Kept.idle (h : Kept s s') : Kept s { s' with pending := none } :=
  ⟨h.request, h.options, h.profile⟩

theorem withOutcome_kept {f : Outcome → Outcome} (h : s.withOutcome f = .ok s') :
    Kept s s' ∧ s'.queue = s.queue := by
  rw [Admin.withOutcome] at h
  cases ho : s.outcome with
  | none =>
    rw [ho] at h
    cases h
  | some outcome =>
    rw [ho] at h
    cases h
    exact ⟨⟨rfl, rfl, rfl⟩, rfl⟩

/-- An answer to a command that is no read leaves the queue as it is. -/
theorem acknowledged_kept (h : s.acknowledged stage r = .ok s') :
    Kept s s' ∧ s'.queue = s.queue := by
  cases stage with
  | write reprobe =>
    simp only [Admin.acknowledged] at h
    split_ifs at h
    exact withOutcome_kept h
  | _ =>
    simp only [Admin.acknowledged] at h
    split_ifs at h
    cases h
    exact ⟨⟨rfl, rfl, rfl⟩, rfl⟩

theorem reprobe_kept (h : s.reprobe stage = .ok s') : Kept s s' ∧ s'.queue = s.queue := by
  rw [Admin.reprobe] at h
  split_ifs at h
  · exact withOutcome_kept h
  · cases h
    exact ⟨⟨rfl, rfl, rfl⟩, rfl⟩

theorem pop_command {c : LogicalCommand} (h : s.pop = (.ok (.command c), s')) :
    Kept s s' ∧ ∃ stage, s.queue = (c, stage) :: s'.queue ∧ s'.pending = some stage := by
  rw [Admin.pop] at h
  cases hq : s.queue with
  | nil =>
    rw [hq] at h
    cases ho : s.outcome with
    | none =>
      rw [ho] at h
      cases h
    | some outcome =>
      rw [ho] at h
      cases h
  | cons entry rest =>
    obtain ⟨c', stage⟩ := entry
    rw [hq] at h
    dsimp only at h
    cases hr : { s with queue := rest }.reprobe stage with
    | error e =>
      rw [hr] at h
      cases h
    | ok s₁ =>
      rw [hr] at h
      cases h
      obtain ⟨hkept, hqueue⟩ := reprobe_kept hr
      exact ⟨⟨hkept.request, hkept.options, hkept.profile⟩, stage, by rw [hqueue], rfl⟩

theorem pop_done {outcome : Outcome} (h : s.pop = (.ok (.done outcome), s')) : s.queue = [] := by
  rw [Admin.pop] at h
  cases hq : s.queue with
  | nil => rfl
  | cons entry rest =>
    obtain ⟨c, stage⟩ := entry
    rw [hq] at h
    dsimp only at h
    cases hr : { s with queue := rest }.reprobe stage with
    | error e =>
      rw [hr] at h
      cases h
    | ok s₁ =>
      rw [hr] at h
      cases h

/-- The READ of a patch puts the writes of the patch into the queue. -/
theorem parse_configure {p : ConfigurationPatch} (hrequest : s.request = .configure p)
    (h : s.parse r = .ok s') :
    Kept s s' ∧ r.status.isSuccess = true ∧ ∃ writes,
      patchWrites s.profile s.options r.data p = .ok writes ∧
      s'.queue = s.queue ++ writes.map fun c => (c, Stage.write true) := by
  obtain ⟨⟨writes, value⟩, hparsed, h⟩ := bind_eq_ok.mp h
  obtain ⟨hkept, hqueue⟩ := withOutcome_kept h
  have hpin : ¬ isPinStatus s.request = true := by
    rw [hrequest]
    simp [isPinStatus]
  rw [Admin.parsed, if_neg hpin] at hparsed
  obtain ⟨_, hsuccess, hparsed⟩ := bind_eq_ok.mp hparsed
  simp only [parseValue, hrequest] at hparsed
  obtain ⟨ws, hwrites, hws⟩ := map_eq_ok.mp hparsed
  cases hws
  refine ⟨⟨hkept.request, hkept.options, hkept.profile⟩, ?_, writes, hwrites, hqueue⟩
  exact ensureSuccess_eq_ok.mp hsuccess

theorem next_ok {action : Action Outcome} (hp : s.pending = some stage)
    (h : s.next (some r) = (.ok action, s')) :
    ∃ s₁, { s with pending := none }.answered stage r = .ok s₁ ∧ s₁.pop = (.ok action, s') := by
  simp only [Admin.next] at h
  rw [hp] at h
  dsimp only at h
  cases ha : { s with pending := none }.answered stage r with
  | error e =>
    rw [ha] at h
    cases h
  | ok s₁ =>
    rw [ha] at h
    exact ⟨s₁, rfl, h⟩

end turns

/-- The queue that a patch starts with ends in its only read. -/
structure Starts (s₀ : Admin) (p : ConfigurationPatch) : Prop where
  request : s₀.request = .configure p
  queue : ∃ front c, s₀.queue = front ++ [(c, Stage.read)] ∧ ∀ e ∈ front, e.2 ≠ Stage.read

/-- The answer to READ CONFIG lets the patch write. -/
structure Writes (s₀ : Admin) (p : ConfigurationPatch) (rs : List ResponseData)
    (writes : List LogicalCommand) : Prop where
  read : ∃ r, rs[s₀.queue.length - 1]? = some r ∧ r.status.isSuccess = true ∧
    patchWrites s₀.profile s₀.options r.data p = .ok writes

/-- Between two commands: `cs` are answered by `rs` and the queue is still to be sent. -/
inductive Reached (s₀ : Admin) (p : ConfigurationPatch) (cs : List LogicalCommand)
    (rs : List ResponseData) (s : Admin) : Prop where
  | opening {front : List (LogicalCommand × Stage)} (hkept : Kept s₀ s)
      (hqueue : s₀.queue = front ++ s.queue) (hne : s.queue ≠ []) (hcs : cs = front.map Prod.fst)
      (hrs : rs.length = front.length)
  | writing {writes front back : List LogicalCommand} (hkept : Kept s₀ s)
      (hwrites : Writes s₀ p rs writes) (hsplit : writes = front ++ back)
      (hqueue : s.queue = back.map fun c => (c, Stage.write true))
      (hcs : cs = s₀.queue.map Prod.fst ++ front)

/-- While a command waits for its answer. -/
inductive Configuring (s₀ : Admin) (p : ConfigurationPatch) (cs : List LogicalCommand)
    (rs : List ResponseData) (s : Admin) : Prop where
  | opening {front : List (LogicalCommand × Stage)} {c : LogicalCommand} {stage : Stage}
      (hkept : Kept s₀ s) (hqueue : s₀.queue = front ++ (c, stage) :: s.queue)
      (hcs : cs = front.map Prod.fst ++ [c]) (hpending : s.pending = some stage)
      (hrs : rs.length = front.length)
  | writing {writes front back : List LogicalCommand} {c : LogicalCommand} (hkept : Kept s₀ s)
      (hwrites : Writes s₀ p rs writes) (hsplit : writes = front ++ c :: back)
      (hqueue : s.queue = back.map fun c => (c, Stage.write true))
      (hcs : cs = s₀.queue.map Prod.fst ++ front ++ [c])
      (hpending : s.pending = some (.write true))

section stages

variable {s₀ s s' : Admin} {p : ConfigurationPatch} {cs : List LogicalCommand}
  {rs : List ResponseData} {r : ResponseData} {c : LogicalCommand}

theorem Starts.read_last (hs : Starts s₀ p) {front rest : List (LogicalCommand × Stage)}
    (h : s₀.queue = front ++ (c, Stage.read) :: rest) : rest = [] := by
  obtain ⟨pre, d, hqueue, hpre⟩ := hs.queue
  rcases List.eq_nil_or_concat rest with hnil | ⟨init, last, rfl⟩
  · exact hnil
  · have hsplit : pre ++ [(d, Stage.read)] = (front ++ (c, Stage.read) :: init) ++ [last] := by
      rw [← hqueue, h]
      simp
    obtain ⟨hfront, _⟩ := List.append_inj' hsplit rfl
    exact absurd rfl (hpre (c, Stage.read) (by rw [hfront]; simp))

theorem Writes.later {writes : List LogicalCommand} (h : Writes s₀ p rs writes)
    (r : ResponseData) : Writes s₀ p (rs ++ [r]) writes := by
  obtain ⟨r', hr', hsuccess, hwrites⟩ := h.read
  have hlt := (List.getElem?_eq_some_iff.mp hr').1
  exact ⟨r', by rw [List.getElem?_append_left hlt]; exact hr', hsuccess, hwrites⟩

theorem Reached.sends (h : Reached s₀ p cs rs s) (hpop : s.pop = (.ok (.command c), s')) :
    Configuring s₀ p (cs ++ [c]) rs s' := by
  obtain ⟨hkept, stage, hqueue, hpending⟩ := pop_command hpop
  cases h with
  | opening hk hq _ hcs hrs =>
    exact .opening (hk.trans hkept) (by rw [hq, hqueue]) (by rw [hcs]) hpending hrs
  | @writing writes front back hk hw hsplit hq hcs =>
    rw [hqueue] at hq
    cases back with
    | nil => cases hq
    | cons d back =>
      obtain ⟨hhead, htail⟩ := List.cons.inj hq
      cases hhead
      exact .writing (hk.trans hkept) hw hsplit htail (by rw [hcs]) hpending

theorem Reached.ends {outcome : Outcome} (h : Reached s₀ p cs rs s)
    (hpop : s.pop = (.ok (.done outcome), s')) :
    ∃ writes, Writes s₀ p rs writes ∧ cs = s₀.queue.map Prod.fst ++ writes := by
  have hnil := pop_done hpop
  cases h with
  | opening _ _ hne => exact absurd hnil hne
  | @writing writes front back _ hw hsplit hq hcs =>
    rw [hq] at hnil
    rw [List.map_eq_nil_iff.mp hnil, List.append_nil] at hsplit
    exact ⟨writes, hw, by rw [hcs, hsplit]⟩

theorem Configuring.answered (hs : Starts s₀ p) (h : Configuring s₀ p cs rs s) {stage : Stage}
    (hpending : s.pending = some stage)
    (ha : { s with pending := none }.answered stage r = .ok s') :
    Reached s₀ p cs (rs ++ [r]) s' := by
  rw [Admin.answered] at ha
  cases h with
  | @opening front c stage' hk hq hcs hp hrs =>
    cases hp.symm.trans hpending
    by_cases hread : stage = .read
    · subst hread
      rw [if_pos rfl] at ha
      have hlast := hs.read_last hq
      obtain ⟨hkept, hsuccess, writes, hwrites, hqueue⟩ :=
        @parse_configure { s with pending := none } _ _ p (hk.request.trans hs.request) ha
      have hfront : s₀.queue.length - 1 = rs.length := by
        rw [hq, hlast, hrs]
        simp
      have hw : Writes s₀ p (rs ++ [r]) writes := by
        refine ⟨r, ?_, hsuccess, ?_⟩
        · rw [hfront, List.getElem?_concat_length]
        · rw [← hk.profile, ← hk.options]
          exact hwrites
      refine .writing (hk.idle.trans hkept) hw (List.nil_append _).symm ?_ ?_
      · rw [hqueue]
        change s.queue ++ _ = _
        rw [hlast, List.nil_append]
      · rw [hcs, hq, hlast]
        simp
    · rw [if_neg hread] at ha
      obtain ⟨hkept, hqueue⟩ := acknowledged_kept ha
      refine @Reached.opening _ _ _ _ _ (front ++ [(c, stage)]) (hk.idle.trans hkept) ?_ ?_ ?_ ?_
      · rw [hqueue, hq]
        simp
      · rw [hqueue]
        intro hnil
        obtain ⟨pre, d, hstart, _⟩ := hs.queue
        change s.queue = [] at hnil
        rw [hnil, hstart] at hq
        cases (List.append_inj' hq rfl).2
        exact hread rfl
      · rw [hcs]
        simp
      · simp [hrs]
  | @writing writes front back c hk hw hsplit hq hcs hp =>
    cases hp.symm.trans hpending
    rw [if_neg (by simp)] at ha
    obtain ⟨hkept, hqueue⟩ := acknowledged_kept ha
    refine @Reached.writing _ _ _ _ _ writes (front ++ [c]) back (hk.idle.trans hkept)
      (hw.later r) ?_ ?_ ?_
    · rw [hsplit]
      simp
    · rw [hqueue]
      exact hq
    · rw [hcs, List.append_assoc]

theorem Configuring.pending (h : Configuring s₀ p cs rs s) : ∃ stage, s.pending = some stage := by
  cases h with
  | opening _ _ _ hp => exact ⟨_, hp⟩
  | writing _ _ _ _ _ hp => exact ⟨_, hp⟩

theorem admin_described (hs : Starts s₀ p) : Described admin s₀ (Configuring s₀ p) where
  opening := by
    intro c m h
    have hstart : Reached s₀ p [] [] s₀ := by
      obtain ⟨front, d, hqueue, _⟩ := hs.queue
      exact @Reached.opening _ _ _ _ _ [] ⟨rfl, rfl, rfl⟩ rfl (by simp [hqueue]) rfl rfl
    exact hstart.sends h
  answering := by
    intro cs rs m r c m' hm h
    obtain ⟨stage, hpending⟩ := hm.pending
    obtain ⟨s₁, ha, hpop⟩ := next_ok hpending h
    exact (hm.answered hs hpending ha).sends hpop

end stages

/-- An empty success. -/
def accepted : ResponseData := ⟨[], ⟨0x9000⟩⟩

/-- The queue of `s` is what the machine turns to after `cs` and their answers. -/
def Turns (s₀ : Admin) (cs : List LogicalCommand) (rs : List ResponseData) (s : Admin) : Prop :=
  ∀ result m, s.pop = (result, m) → LastTurn admin s₀ result cs rs m

section progress

variable {s₀ s : Admin} {cs : List LogicalCommand} {rs : List ResponseData} {c : LogicalCommand}
  {stage : Stage} {rest : List (LogicalCommand × Stage)} {o : Outcome}

theorem turns_opening (s₀ : Admin) : Turns s₀ [] [] s₀ := fun _ _ h => .opening h

theorem Turns.answered (h : Turns s₀ cs rs s) {m : Admin} (hpop : s.pop = (.ok (.command c), m))
    (hpending : m.pending = some stage) {r : ResponseData} {s' : Admin}
    (ha : { m with pending := none }.answered stage r = .ok s') :
    Turns s₀ (cs ++ [c]) (rs ++ [r]) s' := by
  intro result m' hpop'
  refine .answering (h _ _ hpop).trace ?_
  change Admin.next m (some r) = (result, m')
  simp only [Admin.next]
  rw [hpending]
  dsimp only
  rw [ha]
  exact hpop'

/-- What the next entry of the queue makes of the machine. -/
theorem pop_cons (hq : s.queue = (c, stage) :: rest) (ho : s.outcome = some o) :
    s.pop = (.ok (.command c), { s with
      queue := rest
      pending := some stage
      outcome :=
        some { o with reprobeRequired := stage == .write true || o.reprobeRequired } }) := by
  rw [Admin.pop, hq]
  dsimp only
  by_cases hstage : stage = .write true
  · simp only [Admin.reprobe, if_pos hstage, Admin.withOutcome, ho]
    simp [hstage]
  · have hne : (stage == Stage.write true) = false := beq_eq_false_iff_ne.mpr hstage
    simp only [Admin.reprobe, if_neg hstage]
    simp [hne, ho]

theorem pop_sends (hq : s.queue = (c, stage) :: rest) (ho : s.outcome = some o) :
    ∃ m o', s.pop = (.ok (.command c), m) ∧ m.queue = rest ∧ m.pending = some stage ∧
      m.outcome = some o' ∧ Kept s m :=
  ⟨_, _, pop_cons hq ho, rfl, rfl, rfl, rfl, rfl, rfl⟩

theorem acknowledges (hstage : stage ≠ .read) (ho : s.outcome = some o) :
    ∃ s' o', s.answered stage accepted = .ok s' ∧ s'.queue = s.queue ∧ s'.outcome = some o' ∧
      Kept s s' := by
  have hsuccess : accepted.status.isSuccess = true := by decide
  have hempty : accepted.data = [] := rfl
  rw [Admin.answered, if_neg hstage]
  cases stage with
  | read => exact absurd rfl hstage
  | write reprobe =>
    simp only [Admin.acknowledged, hsuccess, hempty, Admin.withOutcome, ho]
    exact ⟨_, _, rfl, rfl, rfl, rfl, rfl, rfl⟩
  | _ =>
    simp only [Admin.acknowledged, hsuccess, hempty]
    exact ⟨_, _, rfl, rfl, ho, rfl, rfl, rfl⟩

/-- Commands that need no more than a success are sent one after another. -/
theorem Turns.entries (h : Turns s₀ cs rs s) (entries : List (LogicalCommand × Stage))
    (hq : s.queue = entries ++ rest) (hentries : ∀ e ∈ entries, e.2 ≠ Stage.read)
    (ho : s.outcome = some o) :
    ∃ s' o', Turns s₀ (cs ++ entries.map Prod.fst)
      (rs ++ List.replicate entries.length accepted) s' ∧ s'.queue = rest ∧
      s'.outcome = some o' ∧ Kept s s' := by
  induction entries generalizing s cs rs o with
  | nil => exact ⟨s, o, by simpa using h, hq, ho, rfl, rfl, rfl⟩
  | cons e entries ih =>
    obtain ⟨c, stage⟩ := e
    obtain ⟨hstage, hentries⟩ := List.forall_mem_cons.mp hentries
    obtain ⟨m, o₁, hpop, hmq, hpending, hmo, hkept⟩ := pop_sends hq ho
    obtain ⟨s₁, o₂, ha, hsq, hso, hkept'⟩ :=
      @acknowledges { m with pending := none } stage o₁ hstage hmo
    obtain ⟨s', o', hturns, hq', ho', hkept''⟩ :=
      ih (h.answered hpop hpending ha) (by rw [hsq]; exact hmq) hentries hso
    refine ⟨s', o', ?_, hq', ho', (hkept.idle.trans hkept').trans hkept''⟩
    rw [List.map_cons, List.length_cons, List.replicate_succ]
    simpa using hturns

/-- The patch's own read puts its writes behind the rest of the queue. -/
theorem Turns.read {p : ConfigurationPatch} (h : Turns s₀ cs rs s)
    (hq : s.queue = [(c, Stage.read)]) (ho : s.outcome = some o)
    (hrequest : s.request = .configure p) {raw : Bytes} {writes : List LogicalCommand}
    (hwrites : patchWrites s.profile s.options raw p = .ok writes) :
    ∃ s' o', Turns s₀ (cs ++ [c]) (rs ++ [⟨raw, ⟨0x9000⟩⟩]) s' ∧
      s'.queue = writes.map (fun c => (c, Stage.write true)) ∧ s'.outcome = some o' := by
  obtain ⟨m, o₁, hpop, hmq, hpending, hmo, hkept⟩ := pop_sends hq ho
  have hparsed : ({ m with pending := none } : Admin).parsed ⟨raw, ⟨0x9000⟩⟩ =
      .ok (writes, .none) := by
    have hpin : ¬ isPinStatus m.request = true := by
      rw [hkept.request, hrequest]
      simp [isPinStatus]
    have hsuccess : (⟨raw, ⟨0x9000⟩⟩ : ResponseData).ensureSuccess .command = .ok () := rfl
    rw [Admin.parsed, if_neg hpin, hsuccess]
    change parseValue _ raw = _
    simp only [parseValue, hkept.request, hrequest, hkept.profile, hkept.options, hwrites]
    rfl
  have ha : ({ m with pending := none } : Admin).answered .read ⟨raw, ⟨0x9000⟩⟩ =
      .ok { m with
        pending := none
        queue := m.queue ++ writes.map fun c => (c, Stage.write true)
        outcome := some { o₁ with value := .none } } := by
    rw [Admin.answered, if_pos rfl, Admin.parse, hparsed]
    change Admin.withOutcome _ _ = _
    rw [Admin.withOutcome]
    simp only [hmo]
  refine ⟨_, _, h.answered hpop hpending ha, ?_, rfl⟩
  change m.queue ++ _ = _
  rw [hmq, List.nil_append]

end progress

section layouts

variable {profile : DeviceProfile} {p : ConfigurationPatch} {layout : AdminConfigurationLayout}

theorem layout_exists (h : (profile.capability .admin).support = .supported) :
    ∃ layout, profile.adminConfigurationLayout = .ok layout := by
  obtain ⟨v, hbase, _⟩ := (@firmwareRange_supported _ ⟨1, 3, 0⟩ ⟨3, 1, 0⟩).mp h
  rw [DeviceProfile.adminConfigurationLayout, @require_eq_ok _ () |>.mpr h, hbase]
  simp only [bind, Except.bind]
  split_ifs <;> exact ⟨_, rfl⟩

/-- Feature bits can be patched only where READ CONFIG returns them. -/
theorem layout_features (hlayout : profile.adminConfigurationLayout = .ok layout)
    (h : (profile.capability .adminExtendedConfiguration).support = .supported) :
    layout = .features := by
  obtain ⟨v, hbase, _, hfirst, _⟩ :=
    (@firmwareRange_supported _ ⟨3, 1, 0⟩ ⟨3, 1, 0⟩).mp h
  rw [DeviceProfile.adminConfigurationLayout] at hlayout
  obtain ⟨_, _, hlayout⟩ := bind_eq_ok.mp hlayout
  rw [hbase] at hlayout
  have hnewer : v ≠ ⟨1, 3, 0⟩ ∧ v.lt ⟨1, 6, 2⟩ = false ∧ v.lt ⟨3, 0, 0⟩ = false ∧
      v.lt ⟨3, 1, 0⟩ = false := by
    obtain ⟨major, minor, patch⟩ := v
    simp only [Version.le, Bool.or_eq_true, Bool.and_eq_true, decide_eq_true_eq, beq_iff_eq]
      at hfirst
    simp only [Version.lt, Version.le, ne_eq, Version.mk.injEq, Bool.not_eq_false',
      Bool.or_eq_true, Bool.and_eq_true, decide_eq_true_eq, beq_iff_eq]
    omega
  obtain ⟨hne, h162, h300, h310⟩ := hnewer
  simp only [hne, h162, h300, h310, if_false, Bool.false_eq_true] at hlayout
  exact (Except.ok.inj hlayout).symm

theorem selectable {request : Request} (hp : request = .configure p)
    (hlayout : profile.adminConfigurationLayout = .ok layout)
    (hcapability : requestCapability profile request = .ok ())
    (hcheck : checkPatch request = .ok ()) : Selectable layout p := by
  subst hp
  rw [checkPatch] at hcheck
  split_ifs at hcheck with hbits
  push Not at hbits
  refine ⟨hbits.1, hbits.2, ?_⟩
  intro hlegacy
  by_contra hmask
  simp only [requestCapability, if_pos hmask] at hcapability
  have hrequire : (profile.capability .adminExtendedConfiguration).require = .ok () := by
    split_ifs at hcapability
    · obtain ⟨_, _, hcapability⟩ := bind_eq_ok.mp hcapability
      exact hcapability
    · exact hcapability
  exact hlegacy (layout_features hlayout (require_eq_ok.mp hrequire))

end layouts

/-- SELECT, VERIFY and READ CONFIG. -/
def opening (profile : DeviceProfile) (access : Access) : List LogicalCommand :=
  (queue profile.legacyExplicitLe access (some readConfiguration, .read)).map Prod.fst

/-- READ CONFIG was answered by a configuration to which the patch can be applied as a whole. -/
structure Granted (options : OperationOptions) (layout : AdminConfigurationLayout)
    (p : ConfigurationPatch) (access : Access) (rs : List ResponseData) (raw : Bytes) : Prop where
  read : ∃ r, rs[(preamble access).length]? = some r ∧ r.status.isSuccess = true ∧ r.data = raw
  applicable : Applicable options layout raw p

/-- What the operation of a patch has exposed when its caller has made some calls. -/
structure Configures (profile : DeviceProfile) (options : OperationOptions)
    (layout : AdminConfigurationLayout) (p : ConfigurationPatch) (access : Access)
    (t : Recorded Admin Outcome) : Prop where
  exposed : t.commands <+: opening profile access ∨
    ∃ raw, Granted options layout p access t.responses raw ∧
      t.commands <+: opening profile access ++ patchCommands layout p raw
  finished : t.op.state = .completed → ∃ raw, Granted options layout p access t.responses raw ∧
    t.commands = opening profile access ++ patchCommands layout p raw
  refused : t.responses[(preamble access).length]?.isSome = true →
    (∀ raw, ¬ Granted options layout p access t.responses raw) →
      t.op.state = .failed ∧ t.commands = opening profile access

/-- The answers of a card that accepts a patch. -/
def grantingAnswers (access : Access) (raw : Bytes) (writes : ℕ) : List ResponseData :=
  List.replicate (preamble access).length accepted ++
    [⟨raw, ⟨0x9000⟩⟩] ++ List.replicate writes accepted

/-- A card that holds a configuration, where every command succeeds. -/
def configurationCard : ProtocolSession.Applet Bytes := fun raw d =>
  if d.header = readConfiguration.header then (⟨raw, ⟨0x9000⟩⟩, raw)
  else (accepted, cardWrite raw { header := d.header, data := d.data, le := d.le })

/-- What the operation of a patch makes of a configuration that it can be applied to: any card
that grants the patch takes it to its end, and the card it is for is left with the result. -/
structure Patches (options : OperationOptions) (layout : AdminConfigurationLayout)
    (p : ConfigurationPatch) (opening : List LogicalCommand) (answers : ℕ → List ResponseData)
    (op : Operation Admin Outcome) (raw : Bytes) : Prop where
  exactly : Exact options layout p raw ((patchCommands layout p raw).foldl cardWrite raw)
  ends : ∀ (κ : Type) (A : ProtocolSession.Applet κ) (a a' : κ) (n : ℕ),
    Answered A options a (opening ++ patchCommands layout p raw)
      (answers (patchCommands layout p raw).length) n a' →
    n ≤ options.limits.maxExchanges →
    raw.length ≤ min CheckedCursor.usizeMax options.limits.maxTotalResponseBytes →
    ∃ outcome, Ends (execute admin A op a).1 (.ok outcome) ∧ (execute admin A op a).2 = a'
  leaves : opening.length + (patchCommands layout p raw).length ≤ options.limits.maxExchanges →
    raw.length + 2 ≤ options.exchange.maxResponseBytes →
    raw.length ≤ min CheckedCursor.usizeMax options.limits.maxTotalResponseBytes →
    ∃ outcome, Ends (execute admin configurationCard op raw).1 (.ok outcome) ∧
      (execute admin configurationCard op raw).2 =
        (patchCommands layout p raw).foldl cardWrite raw

section runs

variable {profile : DeviceProfile} {options : OperationOptions} {p : ConfigurationPatch}
  {access : Access} {layout : AdminConfigurationLayout}

def configureState (profile : DeviceProfile) (p : ConfigurationPatch) (access : Access)
    (options : OperationOptions) : Admin :=
  ⟨queue profile.legacyExplicitLe access (some readConfiguration, .read), none, .configure p,
    options, profile, some ⟨.none, 0, false⟩⟩

/-- What the construction of a patch has checked. -/
theorem configure_starts {op : Operation Admin Outcome}
    (h : operationWithAccess profile (.configure p) access options = .ok op) :
    Operation.fromMachine (configureState profile p access options) options = .ok op ∧
      validateQueue options
        (queue profile.legacyExplicitLe access (some readConfiguration, .read)) = .ok () ∧
      ∃ layout, profile.adminConfigurationLayout = .ok layout ∧ Selectable layout p := by
  obtain ⟨_, hadmin, h⟩ := bind_eq_ok.mp h
  obtain ⟨_, hcapability, h⟩ := bind_eq_ok.mp h
  obtain ⟨_, _, h⟩ := bind_eq_ok.mp h
  obtain ⟨_, hcheck, h⟩ := bind_eq_ok.mp h
  obtain ⟨own, htarget, h⟩ := bind_eq_ok.mp h
  obtain ⟨_, hqueue, h⟩ := bind_eq_ok.mp h
  obtain ⟨_, _, h⟩ := bind_eq_ok.mp h
  cases htarget
  obtain ⟨layout, hlayout⟩ := layout_exists (require_eq_ok.mp hadmin)
  exact ⟨h, hqueue, layout, hlayout, selectable rfl hlayout hcapability hcheck⟩

theorem configureState_queue (profile : DeviceProfile) (p : ConfigurationPatch) (access : Access)
    (options : OperationOptions) :
    ∃ front c, (configureState profile p access options).queue = front ++ [(c, Stage.read)] ∧
      (∀ e ∈ front, e.2 ≠ Stage.read) ∧ front.length = (preamble access).length := by
  cases access with
  | existing => exact ⟨[], _, rfl, by simp, rfl⟩
  | none => exact ⟨[_], _, rfl, by simp, rfl⟩
  | pin pin => exact ⟨[_, _], _, rfl, by simp, rfl⟩

theorem configureState_starts (profile : DeviceProfile) (p : ConfigurationPatch) (access : Access)
    (options : OperationOptions) : Starts (configureState profile p access options) p := by
  obtain ⟨front, c, hqueue, hfront, _⟩ := configureState_queue profile p access options
  exact ⟨rfl, front, c, hqueue, hfront⟩

/-- What lets the machine write is what lets the patch be applied. -/
theorem writes_iff (hlayout : profile.adminConfigurationLayout = .ok layout)
    (hselect : Selectable layout p) {rs : List ResponseData} {writes : List LogicalCommand} :
    Writes (configureState profile p access options) p rs writes ↔
      ∃ raw, Granted options layout p access rs raw ∧ writes = patchCommands layout p raw := by
  obtain ⟨front, c, hqueue, _, hlength⟩ := configureState_queue profile p access options
  have hat : (configureState profile p access options).queue.length - 1 =
      (preamble access).length := by
    rw [hqueue, List.length_append, List.length_singleton, Nat.add_sub_cancel, hlength]
  constructor
  · rintro ⟨r, hr, hsuccess, hwrites⟩
    rw [hat] at hr
    obtain ⟨happlicable, rfl⟩ := (patchWrites_eq_ok hlayout hselect).mp hwrites
    exact ⟨r.data, ⟨⟨r, hr, hsuccess, rfl⟩, happlicable⟩, rfl⟩
  · rintro ⟨raw, ⟨⟨r, hr, hsuccess, rfl⟩, happlicable⟩, rfl⟩
    refine ⟨r, by rw [hat]; exact hr, hsuccess, ?_⟩
    exact (patchWrites_eq_ok hlayout hselect).mpr ⟨happlicable, rfl⟩

section standing

variable {s₀ m m' : Admin} {cs : List LogicalCommand} {rs : List ResponseData} {r : ResponseData}
  {op : Operation Admin Outcome}

theorem Configuring.writes (h : Configuring s₀ p cs rs m)
    (hread : s₀.queue.length - 1 < rs.length) : ∃ writes, Writes s₀ p rs writes := by
  cases h with
  | opening _ hqueue _ _ hrs =>
    rw [hqueue, List.length_append, List.length_cons] at hread
    omega
  | writing _ hw => exact ⟨_, hw⟩

/-- A turn that goes on after the answer to READ CONFIG has found the patch applicable. -/
theorem Configuring.answered_writes (hs : Starts s₀ p) (h : Configuring s₀ p cs rs m)
    {action : Action Outcome} (hn : admin.next m (some r) = (.ok action, m'))
    (hread : s₀.queue.length - 1 < (rs ++ [r]).length) :
    ∃ writes, Writes s₀ p (rs ++ [r]) writes := by
  obtain ⟨stage, hpending⟩ := h.pending
  obtain ⟨s₁, ha, hpop⟩ := next_ok hpending hn
  cases h.answered hs hpending ha with
  | opening _ hqueue hne _ hrs =>
    rw [hqueue, List.length_append, hrs] at hread
    have := List.length_pos_iff.mpr hne
    omega
  | writing _ hw => exact ⟨_, hw⟩

/-- Where the answer to READ CONFIG does not let the patch write, the operation has failed and
nothing but its opening was exposed. -/
theorem refused_standing (hs : Starts s₀ p) (h : Standing admin s₀ cs rs op)
    (hread : s₀.queue.length - 1 < rs.length) (hno : ∀ writes, ¬ Writes s₀ p rs writes) :
    op.state = .failed ∧ cs = s₀.queue.map Prod.fst := by
  have hsome (h : ∃ writes, Writes s₀ p rs writes) : False := by
    obtain ⟨writes, hw⟩ := h
    exact hno writes hw
  have htrace {cs : List LogicalCommand} {m : Admin} (ht : Trace admin s₀ cs rs m) : False :=
    hsome (((admin_described hs).trace ht).writes hread)
  have hok {m : Admin} {action : Action Outcome} (ht : LastTurn admin s₀ (.ok action) cs rs m) :
      False := by
    cases ht with
    | opening => simp at hread
    | answering ht hn =>
      exact hsome (((admin_described hs).trace ht).answered_writes hs hn hread)
  cases h with
  | created _ _ _ hrs =>
    rw [hrs] at hread
    simp at hread
  | awaiting _ _ _ ht => exact (htrace ht).elim
  | completed _ _ ht => exact (hok ht).elim
  | cancelled _ _ ht =>
    rcases ht with ⟨_, hrs⟩ | ⟨_, ht⟩
    · rw [hrs] at hread
      simp at hread
    · exact (htrace ht).elim
  | broke _ _ ht => exact (htrace ht).elim
  | rejected _ _ _ ht => exact (hok ht).elim
  | failed m e hstate ht =>
    refine ⟨hstate, ?_⟩
    cases ht with
    | opening => simp at hread
    | @answering _ _ s₁ _ _ ht _ =>
      cases (admin_described hs).trace ht with
      | opening _ hqueue hcs _ hrs =>
        rw [hqueue, List.length_append, List.length_cons, List.length_append,
          List.length_singleton, hrs] at hread
        have hnil : s₁.queue = [] := List.eq_nil_of_length_eq_zero (by omega)
        rw [hcs, hqueue, hnil]
        simp
      | writing _ hw => exact absurd (hw.later _) (hno _)

end standing

theorem configure_exposed {op : Operation Admin Outcome}
    (hop : Operation.fromMachine (configureState profile p access options) options = .ok op)
    (hlayout : profile.adminConfigurationLayout = .ok layout) (hselect : Selectable layout p)
    (calls : List Call) :
    Configures profile options layout p access (recorded admin op calls) := by
  have hs := configureState_starts profile p access options
  obtain ⟨front, c, hqueue, _, hlength⟩ := configureState_queue profile p access options
  have hat : (configureState profile p access options).queue.length - 1 =
      (preamble access).length := by
    rw [hqueue, List.length_append, List.length_singleton, Nat.add_sub_cancel, hlength]
  have hstanding := (recorded_follows admin hop calls).standing
  refine ⟨?_, ?_, ?_⟩
  · rcases (admin_described hs).exposed hop calls with hnil | ⟨rs, m, hrs, hstage⟩
    · rw [hnil]
      exact Or.inl List.nil_prefix
    · cases hstage with
      | opening _ hq hcs =>
        refine Or.inl ⟨m.queue.map Prod.fst, ?_⟩
        rw [hcs]
        change _ = (configureState profile p access options).queue.map Prod.fst
        rw [hq]
        simp
      | @writing writes front back c _ hw hsplit _ hcs =>
        obtain ⟨raw, hgranted, hwrites⟩ := (writes_iff hlayout hselect).mp hw
        obtain ⟨r, hr, hsuccess, hraw⟩ := hgranted.read
        have hread : (recorded admin op calls).responses[(preamble access).length]? = some r := by
          obtain ⟨later, hlater⟩ := hrs
          rw [← hlater, List.getElem?_append_left (List.getElem?_eq_some_iff.mp hr).1]
          exact hr
        refine Or.inr ⟨raw, ⟨⟨r, hread, hsuccess, hraw⟩, hgranted.applicable⟩, back, ?_⟩
        rw [hcs, ← hwrites, hsplit]
        simp [opening, configureState]
  · intro hstate
    obtain ⟨m, value, ht, _⟩ := hstanding.of_finished (Or.inl hstate)
    generalize (recorded admin op calls).commands = cs at ht ⊢
    generalize (recorded admin op calls).responses = rs at ht ⊢
    cases ht with
    | opening hn =>
      rw [pop_done hn] at hqueue
      simp at hqueue
    | answering ht hn =>
      have hstage := (admin_described hs).trace ht
      obtain ⟨stage, hpending⟩ := hstage.pending
      obtain ⟨s₁, ha, hpop⟩ := next_ok hpending hn
      obtain ⟨writes, hw, hcs⟩ := (hstage.answered hs hpending ha).ends hpop
      obtain ⟨raw, hgranted, hwrites⟩ := (writes_iff hlayout hselect).mp hw
      exact ⟨raw, hgranted, by rw [hcs, hwrites]; rfl⟩
  · intro hread hno
    refine refused_standing hs hstanding ?_ ?_
    · rw [hat]
      simpa using hread
    · intro writes hw
      obtain ⟨raw, hgranted, _⟩ := (writes_iff hlayout hselect).mp hw
      exact hno raw hgranted

/-- A card that grants the patch and confirms its writes takes the operation to its end. -/
theorem configure_ends {op : Operation Admin Outcome}
    (hop : Operation.fromMachine (configureState profile p access options) options = .ok op)
    (hlayout : profile.adminConfigurationLayout = .ok layout) (hselect : Selectable layout p)
    {raw : Bytes} (happlicable : Applicable options layout raw p) {κ : Type}
    {A : ProtocolSession.Applet κ} {a a' : κ} {n : ℕ}
    (hanswered : Answered A options a (opening profile access ++ patchCommands layout p raw)
      (grantingAnswers access raw (patchCommands layout p raw).length) n a')
    (he : n ≤ options.limits.maxExchanges)
    (hb : raw.length ≤ min CheckedCursor.usizeMax options.limits.maxTotalResponseBytes) :
    ∃ outcome, Ends (execute admin A op a).1 (.ok outcome) ∧ (execute admin A op a).2 = a' := by
  obtain ⟨front, c, hqueue, hfront, hlength⟩ := configureState_queue profile p access options
  have hwrites := (patchWrites_eq_ok hlayout hselect).mpr ⟨happlicable, rfl⟩
  obtain ⟨s₁, o₁, hturns₁, hq₁, ho₁, hkept⟩ :=
    (turns_opening (configureState profile p access options)).entries front hqueue hfront rfl
  have hwrites₁ : patchWrites s₁.profile s₁.options raw p = .ok (patchCommands layout p raw) := by
    rw [hkept.profile, hkept.options]
    exact hwrites
  obtain ⟨s₂, o₂, hturns₂, hq₂, ho₂⟩ := hturns₁.read hq₁ ho₁ hkept.request hwrites₁
  obtain ⟨s₃, o₃, hturns₃, hq₃, ho₃, _⟩ :=
    @Turns.entries _ _ _ _ [] _ hturns₂ _ (by rw [hq₂, List.append_nil]) (by simp) ho₂
  have hpop : s₃.pop = (.ok (.done o₃), { s₃ with outcome := none }) := by
    rw [Admin.pop, hq₃]
    dsimp only
    rw [ho₃]
  have hcs : [] ++ front.map Prod.fst ++ [c] ++
      ((patchCommands layout p raw).map fun c => (c, Stage.write true)).map Prod.fst =
      opening profile access ++ patchCommands layout p raw := by
    have hopening : opening profile access = (front ++ [(c, Stage.read)]).map Prod.fst := by
      rw [← hqueue]
      rfl
    rw [hopening, List.map_map]
    simp [Function.comp_def]
  have hrs : [] ++ List.replicate front.length accepted ++ [⟨raw, ⟨0x9000⟩⟩] ++
      List.replicate
        ((patchCommands layout p raw).map fun c => (c, Stage.write true)).length accepted =
      grantingAnswers access raw (patchCommands layout p raw).length := by
    rw [hlength, List.length_map, List.nil_append]
    rfl
  have hlast := hturns₃ _ _ hpop
  rw [hcs, hrs] at hlast
  refine ⟨o₃, execute_done hop hlast ?_ hanswered he ?_⟩
  · rw [← hcs]
    simp
  · have hlen : responseLength (grantingAnswers access raw (patchCommands layout p raw).length) =
        raw.length := by
      simp [responseLength, grantingAnswers, accepted]
    rw [hlen]
    exact hb

section card

/-- A command that the card of a patch confirms. -/
structure Confirmed (options : OperationOptions) (c : LogicalCommand) : Prop where
  valid : validateCommand c options = .ok ()
  alone : c.allowChaining = false
  continuation : c.continuation = .none ∨ ∃ cla, c.continuation = .iso7816 cla ∧ cla &&& 0x10 = 0
  header : c.header.cla = 0 ∧ c.header.ins ∉ [(0xc0 : UInt8), 0x42]
  le : c.le = .absent ∨ c.le = .exact 256

theorem Confirmed.answers {raw : Bytes} {c : LogicalCommand} (h : Confirmed options c) :
    ∃ k,
      ProtocolSession.Answers configurationCard options raw c k accepted (cardWrite raw c) 1 := by
  obtain ⟨hvalid, k, hk⟩ := validateCommand_eq_ok.mp h.valid
  have hresp := hvalid.response
  have hread : c.header ≠ readConfiguration.header := by
    intro heq
    have hins : c.header.ins = 0x42 := congrArg ApduHeader.ins heq
    exact h.header.2 (by rw [hins]; decide)
  have hins : c.header.ins ≠ 0xc0 := by
    intro heq
    exact h.header.2 (by rw [heq]; decide)
  have hfit : accepted.data.length ≤ 256 ∧
      accepted.data.length + 2 ≤ options.exchange.maxResponseBytes := by
    have hnone : accepted.data.length = 0 := rfl
    omega
  refine ⟨k, .short hk h.alone h.continuation ⟨by rw [h.header.1]; decide, hins⟩ h.le ?_ hfit ?_⟩
  · intro le
    exact if_neg hread
  · exact ⟨show is61 0x9000 = false by decide, show is6c 0x9000 = false by decide⟩

theorem confirmed_answered {cs : List LogicalCommand} (h : ∀ c ∈ cs, Confirmed options c)
    (raw : Bytes) :
    Answered configurationCard options raw cs (List.replicate cs.length accepted) cs.length
      (cs.foldl cardWrite raw) := by
  induction cs using List.reverseRecOn with
  | nil => exact .nothing raw
  | append_singleton cs c ih =>
    have hcs := ih fun c' hc' => h c' (List.mem_append_left _ hc')
    obtain ⟨k, hc⟩ := @Confirmed.answers options (cs.foldl cardWrite raw) c
      (h c (List.mem_append_right _ List.mem_cons_self))
    rw [List.length_append, List.length_singleton, List.replicate_succ', List.foldl_concat]
    exact .command hcs hc

theorem read_answers {raw : Bytes} (hvalid : validateCommand readConfiguration options = .ok ())
    (hlen : raw.length ≤ 256) (hroom : raw.length + 2 ≤ options.exchange.maxResponseBytes) :
    ∃ k, ProtocolSession.Answers configurationCard options raw readConfiguration k
      ⟨raw, ⟨0x9000⟩⟩ raw 1 := by
  obtain ⟨_, k, hk⟩ := validateCommand_eq_ok.mp hvalid
  refine ⟨k, .short hk rfl (Or.inr ⟨0, rfl, by decide⟩) ⟨by decide, by decide⟩ (Or.inr rfl) ?_
    ⟨hlen, hroom⟩ ?_⟩
  · intro le
    exact if_pos rfl
  · exact ⟨show is61 0x9000 = false by decide, show is6c 0x9000 = false by decide⟩

theorem update_confirmed (legacy : Bool) {u : ℕ × UInt8}
    (hfits : validateCommand (updateCommand legacy u) options = .ok ()) :
    Confirmed options (updateCommand legacy u) := by
  have hwrite : (8 : UInt8) ∉ [(0xc0 : UInt8), 0x42] ∧ (0x40 : UInt8) ∉ [(0xc0 : UInt8), 0x42] := by
    decide
  rw [updateCommand] at hfits ⊢
  by_cases hplace : u.1 = 2
  · rw [if_pos hplace] at hfits ⊢
    cases legacy
    · exact ⟨hfits, rfl, Or.inl rfl, ⟨rfl, hwrite.1⟩, Or.inl rfl⟩
    · exact ⟨hfits, rfl, Or.inl rfl, ⟨rfl, hwrite.1⟩, Or.inr rfl⟩
  · rw [if_neg hplace] at hfits ⊢
    cases legacy
    · exact ⟨hfits, rfl, Or.inl rfl, ⟨rfl, hwrite.2⟩, Or.inl rfl⟩
    · exact ⟨hfits, rfl, Or.inl rfl, ⟨rfl, hwrite.2⟩, Or.inr rfl⟩

/-- SELECT and VERIFY are confirmed and write nothing. -/
theorem preamble_confirmed (legacy : Bool) {e : LogicalCommand × Stage} (he : e ∈ preamble access)
    (hvalid : validateCommand (withLe legacy e.1) options = .ok ()) (raw : Bytes) :
    Confirmed options (withLe legacy e.1) ∧ cardWrite raw (withLe legacy e.1) = raw := by
  have hselect (hvalid : validateCommand (withLe legacy select) options = .ok ()) :
      Confirmed options (withLe legacy select) ∧ cardWrite raw (withLe legacy select) = raw := by
    have hins : (0xa4 : UInt8) ∉ [(0xc0 : UInt8), 0x42] := by decide
    cases legacy
    · exact ⟨⟨hvalid, rfl, Or.inr ⟨0, rfl, by decide⟩, ⟨rfl, hins⟩, Or.inl rfl⟩, rfl⟩
    · exact ⟨⟨hvalid, rfl, Or.inr ⟨0, rfl, by decide⟩, ⟨rfl, hins⟩, Or.inr rfl⟩, rfl⟩
  cases access with
  | existing => cases he
  | none =>
    rw [List.mem_singleton.mp he] at hvalid ⊢
    exact hselect hvalid
  | pin pin =>
    have hins : (0x20 : UInt8) ∉ [(0xc0 : UInt8), 0x42] := by decide
    rcases List.mem_cons.mp he with rfl | he
    · exact hselect hvalid
    · rw [List.mem_singleton.mp he] at hvalid ⊢
      cases legacy
      · exact ⟨⟨hvalid, rfl, Or.inl rfl, ⟨rfl, hins⟩, Or.inl rfl⟩, rfl⟩
      · exact ⟨⟨hvalid, rfl, Or.inl rfl, ⟨rfl, hins⟩, Or.inr rfl⟩, rfl⟩

/-- The card answers the opening of a patch and all its writes, one exchange for each. -/
theorem card_answered {raw : Bytes}
    (hqueue : validateQueue options
      (queue profile.legacyExplicitLe access (some readConfiguration, .read)) = .ok ())
    (happlicable : Applicable options layout raw p) (hlen : raw.length ≤ 256)
    (hroom : raw.length + 2 ≤ options.exchange.maxResponseBytes) :
    Answered configurationCard options raw (opening profile access ++ patchCommands layout p raw)
      (grantingAnswers access raw (patchCommands layout p raw).length)
      ((opening profile access).length + (patchCommands layout p raw).length)
      ((patchCommands layout p raw).foldl cardWrite raw) := by
  have hopening : opening profile access =
      (preamble access).map (fun e => withLe profile.legacyExplicitLe e.1) ++
        [readConfiguration] := by
    have hread : withLe profile.legacyExplicitLe readConfiguration = readConfiguration :=
      if_neg (fun h => by cases h.2)
    rw [opening, queue]
    simp [hread]
  have hvalid := forM_eq_ok.mp hqueue
  have hconfirmed : ∀ e ∈ preamble access,
      Confirmed options (withLe profile.legacyExplicitLe e.1) ∧
        ∀ raw, cardWrite raw (withLe profile.legacyExplicitLe e.1) = raw := by
    intro e he
    have haccepted := hvalid (withLe profile.legacyExplicitLe e.1, e.2)
      (List.mem_map_of_mem (List.mem_append_left _ he))
    exact ⟨(preamble_confirmed _ he haccepted raw).1,
      fun raw => (preamble_confirmed _ he haccepted raw).2⟩
  have hfirst := @confirmed_answered options
    ((preamble access).map fun e => withLe profile.legacyExplicitLe e.1) (by
      intro c hc
      obtain ⟨e, he, rfl⟩ := List.mem_map.mp hc
      exact (hconfirmed e he).1) raw
  have hunwritten : ((preamble access).map fun e => withLe profile.legacyExplicitLe e.1).foldl
      cardWrite raw = raw := by
    generalize preamble access = entries at hconfirmed
    induction entries with
    | nil => rfl
    | cons e entries ih =>
      obtain ⟨he, hentries⟩ := List.forall_mem_cons.mp hconfirmed
      rw [List.map_cons, List.foldl_cons, he.2]
      exact ih hentries
  rw [hunwritten, List.length_map] at hfirst
  have hread : validateCommand readConfiguration options = .ok () := by
    have hlast := hvalid (readConfiguration, .read) (by
      rw [queue]
      refine List.mem_map.mpr ⟨(readConfiguration, .read), by simp, ?_⟩
      rw [withLe, if_neg (fun h => by cases h.2)])
    exact hlast
  obtain ⟨k, hreading⟩ := read_answers hread hlen hroom
  have hwrites := @confirmed_answered options (patchCommands layout p raw) (by
      intro c hc
      obtain ⟨u, hu, rfl⟩ := List.mem_map.mp hc
      exact update_confirmed _ (happlicable.fits u hu)) raw
  have hall := (hfirst.command hreading).append hwrites
  rw [hopening, grantingAnswers, List.length_append, List.length_map, List.length_singleton]
  exact hall

end card

/-- A configuration patch is exact, minimal and applied as a whole or not at all. -/
theorem configuration_patches {op : Operation Admin Outcome}
    (h : operationWithAccess profile (.configure p) access options = .ok op) :
    ∃ layout, profile.adminConfigurationLayout = .ok layout ∧
      (∀ calls, Configures profile options layout p access (recorded admin op calls)) ∧
      ∀ raw, Applicable options layout raw p →
        Patches options layout p (opening profile access) (grantingAnswers access raw) op raw := by
  obtain ⟨hop, hqueue, layout, hlayout, hselect⟩ := configure_starts h
  refine ⟨layout, hlayout, configure_exposed hop hlayout hselect, ?_⟩
  intro raw happlicable
  refine ⟨exact_of_applicable happlicable hselect, ?_, ?_⟩
  · intro κ A a a' n hanswered he hb
    exact configure_ends hop hlayout hselect happlicable hanswered he hb
  · intro he hroom hb
    have hlen := Accepts.length_le happlicable.accepted
    exact configure_ends hop hlayout hselect happlicable
      (card_answered hqueue happlicable (by omega) hroom) he hb

/-- A 3.1.0 device. -/
def patchProfile : DeviceProfile := ⟨some ⟨3, 1, 0, none⟩, some (5, 7, 4), none, none, []⟩

/-- A 2.0.0 device. -/
def legacyProfile : DeviceProfile := ⟨some ⟨2, 0, 0, none⟩, none, none, none, []⟩

def examplePatch : ConfigurationPatch :=
  { ledOn := some true, ndefReadOnly := some false, featureMask := 0x03, featureValues := 0x02 }

def legacyPatch : ConfigurationPatch :=
  { ledOn := some false, ndefReadOnly := some true, webusbLanding := some true }

def examplePin : Pin := ⟨[0x31, 0x32, 0x33, 0x34, 0x35, 0x36], by decide⟩

theorem examplePatch_applicable : Applicable {} .features [0, 1, 0, 1, 1, 0x05] examplePatch := by
  refine ⟨⟨rfl, by decide⟩, by decide, ?_, by decide⟩
  have hchanges : changes (updates examplePatch [0, 1, 0, 1, 1, 0x05]) [0, 1, 0, 1, 1, 0x05] =
      [(0, 1), (5, 0x06)] := by decide
  rw [hchanges]
  intro f hf
  have hmask : f = 0x06 := by simpa using hf
  rw [hmask]
  decide

theorem legacyPatch_applicable :
    Applicable {} .keyboardReturn [1, 0, 0, 1, 1, 0] legacyPatch := by
  refine ⟨⟨rfl, by decide⟩, by decide, ?_, by decide⟩
  have hchanges : changes (updates legacyPatch [1, 0, 0, 1, 1, 0]) [1, 0, 0, 1, 1, 0] =
      [(0, 0), (2, 1)] := by decide
  rw [hchanges]
  simp

/-- On 3.1 the LED and the features change and NDEF was writable already; on 2.0 the LED and NDEF
change behind a PIN and WebUSB was on already. -/
theorem configuration_patches_led :
    (∃ op outcome,
      operationWithAccess patchProfile (.configure examplePatch) .existing {} = .ok op ∧
      (recorded admin op [.start, .advance ([0, 1, 0, 1, 1, 0x05] ++ [0x90, 0]),
        .advance [0x90, 0], .advance [0x90, 0]]).commands =
          [readConfiguration, write 0x40 1 1 [], write 0x40 6 0x06 []] ∧
      Ends (execute admin configurationCard op [0, 1, 0, 1, 1, 0x05]).1 (.ok outcome) ∧
      (execute admin configurationCard op [0, 1, 0, 1, 1, 0x05]).2 = [1, 1, 0, 1, 1, 0x06]) ∧
    ∃ op outcome,
      operationWithAccess legacyProfile (.configure legacyPatch) (.pin examplePin) {} = .ok op ∧
      Ends (execute admin configurationCard op [1, 0, 0, 1, 1, 0]).1 (.ok outcome) ∧
      (execute admin configurationCard op [1, 0, 0, 1, 1, 0]).2 = [0, 0, 1, 1, 1, 0] := by
  constructor
  · have hop : operationWithAccess patchProfile (.configure examplePatch) .existing {} =
        .ok _ := rfl
    obtain ⟨layout, hlayout, _, happly⟩ := configuration_patches hop
    cases hlayout
    obtain ⟨outcome, hends, hleft⟩ :=
      (happly _ examplePatch_applicable).leaves (by decide) (by decide) (by decide)
    exact ⟨_, outcome, hop, rfl, hends, hleft⟩
  · have hop : operationWithAccess legacyProfile (.configure legacyPatch) (.pin examplePin) {} =
        .ok _ := rfl
    obtain ⟨layout, hlayout, _, happly⟩ := configuration_patches hop
    cases hlayout
    have hanswered := @card_answered legacyProfile {} legacyPatch (.pin examplePin) _ _ rfl
      legacyPatch_applicable (by decide) (by decide)
    obtain ⟨outcome, hends, hleft⟩ := (happly _ legacyPatch_applicable).ends _ _ _ _ _ hanswered
      (by decide) (by decide)
    exact ⟨_, outcome, hop, hends, hleft⟩

end runs

end AdminConfigure
