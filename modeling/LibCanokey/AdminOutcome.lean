import LibCanokey.AdminConfigure

/-! # Outcomes of Admin runs

What the outcome of an operation says about the writes of its run: how many the card has
acknowledged, and whether one that touches what a profile was made from has left the host. -/
namespace AdminOutcome

open BigEndian ListTraversal ProtocolError ProtocolApdu ProtocolConversation ProtocolOperation
open ProtocolTranscript ProtocolStages CompatProfile AdminTypes AdminExecute AdminPatch
open AdminConfigure

/-- The instructions that select, verify or read and do nothing else. -/
def quietInstructions : List UInt8 := [0xa4, 0x20, 0x11, 0x31, 0x32, 0x41, 0x42, 0x43, 0x46]

/-- NFC is read and written by one instruction. -/
def IsWrite (c : LogicalCommand) : Prop :=
  c.header.ins ∉ quietInstructions ∧ ¬(c.header.ins = 0x14 ∧ c.header.p1 = 0)

/-- Of the writes only CHANGE PIN leaves alone what a profile is made from. -/
def AffectsProfile (c : LogicalCommand) : Prop := IsWrite c ∧ c.header.ins ≠ 0x21

instance (c : LogicalCommand) : Decidable (IsWrite c) := by
  unfold IsWrite
  infer_instance

instance (c : LogicalCommand) : Decidable (AffectsProfile c) := by
  unfold AffectsProfile
  infer_instance

/-- The writes that were answered by an empty 9000. -/
def confirmed (cs : List LogicalCommand) (rs : List ResponseData) : ℕ :=
  (cs.zip rs).countP fun e => IsWrite e.1 ∧ e.2 = accepted

structure Truthful (cs : List LogicalCommand) (rs : List ResponseData) (o : Outcome) : Prop where
  writes : o.confirmedWrites = confirmed cs rs
  reprobe : (∃ c ∈ cs, AffectsProfile c) → o.reprobeRequired = true

/-- Every outcome that the caller can see is truthful, and a failure does not hide it. -/
structure Honest (t : Recorded Admin Outcome) : Prop where
  shown : ∀ o, t.op.currentProgress admin = some o ∨ t.op.result = .ok o ∨
    t.op.takeResult.1 = .ok o → Truthful t.commands t.responses o
  available : t.op.state = .created ∨ t.op.state = .awaitingResponse ∨ t.op.state = .failed →
    ∃ o, t.op.currentProgress admin = some o
  returned : t.op.state = .completed → ∃ o, t.op.result = .ok o

section counting

variable {cs : List LogicalCommand} {rs : List ResponseData} {c : LogicalCommand}
  {r : ResponseData} {o : Outcome}

/-- A command that waits for its answer confirms nothing. -/
theorem confirmed_pending (h : cs.length = rs.length) (c : LogicalCommand) :
    confirmed (cs ++ [c]) rs = confirmed cs rs := by
  have hzip : (cs ++ [c]).zip (rs ++ []) = cs.zip rs ++ [c].zip [] := List.zip_append h
  rw [List.append_nil, List.zip_nil_right, List.append_nil] at hzip
  rw [confirmed, hzip, confirmed]

theorem confirmed_answered (h : cs.length = rs.length) (c : LogicalCommand) (r : ResponseData) :
    confirmed (cs ++ [c]) (rs ++ [r]) =
      confirmed cs rs + if IsWrite c ∧ r = accepted then 1 else 0 := by
  rw [confirmed, List.zip_append h, List.countP_append, confirmed]
  by_cases hc : IsWrite c ∧ r = accepted
  · simp [hc]
  · simp [hc]

/-- What is true with one more exposed command was true before. -/
theorem Truthful.earlier (h : Truthful (cs ++ [c]) rs o) (hlength : cs.length = rs.length) :
    Truthful cs rs o := by
  refine ⟨by rw [← confirmed_pending hlength c, h.writes], ?_⟩
  rintro ⟨d, hd, haffects⟩
  exact h.reprobe ⟨d, List.mem_append_left _ hd, haffects⟩

end counting

/-- The stage of a queued command says what the command does. -/
structure Tagged (c : LogicalCommand) (stage : Stage) : Prop where
  write : IsWrite c ↔ ∃ reprobe, stage = .write reprobe
  affects : AffectsProfile c → stage = .write true

section tags

variable {c : LogicalCommand} {stage : Stage}

theorem tagged_quiet (hc : ¬IsWrite c) (hstage : ∀ reprobe, stage ≠ .write reprobe) :
    Tagged c stage :=
  ⟨⟨fun h => absurd h hc, fun ⟨reprobe, h⟩ => absurd h (hstage reprobe)⟩, fun h => absurd h.1 hc⟩

theorem tagged_write (h : AffectsProfile c) : Tagged c (.write true) :=
  ⟨⟨fun _ => ⟨true, rfl⟩, fun _ => h.1⟩, fun _ => rfl⟩

/-- The tag depends on the instruction and P1 alone. -/
theorem Tagged.withLe (h : Tagged c stage) (explicitLe : Bool) :
    Tagged (withLe explicitLe c) stage := by
  rw [AdminExecute.withLe]
  by_cases hle : explicitLe ∧ c.le = .absent
  · rw [if_pos hle]
    exact ⟨h.write, h.affects⟩
  · rw [if_neg hle]
    exact h

theorem preamble_tagged (access : Access) : ∀ e ∈ preamble access, Tagged e.1 e.2 := by
  have hselect : Tagged select .select := tagged_quiet (by decide) (by simp)
  intro e he
  cases access with
  | existing => cases he
  | none =>
    rw [List.mem_singleton.mp he]
    exact hselect
  | pin pin =>
    rcases List.mem_cons.mp he with rfl | he
    · exact hselect
    · rw [List.mem_singleton.mp he]
      exact tagged_quiet (by simp [IsWrite, quietInstructions, write, cmd]) (by simp)

/-- Every request queues its own command in the stage that the command calls for. -/
theorem target_tagged {request : Request} {own : Option LogicalCommand × Stage}
    (h : target request = .ok own) : ∀ c ∈ own.1, Tagged c own.2 := by
  intro c hc
  cases request with
  | setPassSlot slot config =>
    obtain ⟨data, _, hown⟩ := map_eq_ok.mp h
    subst hown
    cases hc
    exact tagged_write (by simp [AffectsProfile, IsWrite, quietInstructions, write, cmd])
  | verifyPin =>
    cases h
    cases hc
  | changePin p =>
    cases h
    cases hc
    refine ⟨⟨fun _ => ⟨false, rfl⟩, fun _ => ?_⟩, fun haffects => absurd rfl haffects.2⟩
    simp [IsWrite, quietInstructions, write, cmd]
  | resetApplet a =>
    cases h
    cases hc
    apply tagged_write
    cases a <;> decide
  | setLegacyOpenPgpTouch t =>
    cases h
    cases hc
    apply tagged_write
    cases t <;>
      simp [AffectsProfile, IsWrite, quietInstructions, touchCommand, write, cmd]
  | setKeyboardKeymap _ _ | clearKeyboardKeymap | setPassConfiguration _ | setNfc _
  | setKeyboardInterface _ | setKeyboardReturn _ | setLegacyPivExtensions _ | writeLegacySm2 _
  | factoryReset =>
    cases h
    cases hc
    apply tagged_write
    simp [AffectsProfile, IsWrite, quietInstructions, plain, write, cmd]
  | _ =>
    cases h
    cases hc
    exact tagged_quiet (by decide) (by simp)

theorem queue_tagged {request : Request} {own : Option LogicalCommand × Stage}
    (h : target request = .ok own) (explicitLe : Bool) (access : Access) :
    ∀ e ∈ queue explicitLe access own, Tagged e.1 e.2 := by
  intro e he
  rw [queue] at he
  obtain ⟨entry, hentry, rfl⟩ := List.mem_map.mp he
  apply Tagged.withLe
  rcases List.mem_append.mp hentry with hentry | hentry
  · exact preamble_tagged access entry hentry
  · obtain ⟨c, hc, rfl⟩ := List.mem_map.mp hentry
    exact target_tagged h c (Option.mem_toList.mp hc)

end tags

section writes

variable {options : OperationOptions} {p : ConfigurationPatch} {raw : Bytes}
  {ws : List LogicalCommand} {s : Admin} {r : ResponseData} {value : Value}

theorem setting_affects {setting : Setting} (h : setting.ins = 8 ∨ setting.ins = 0x40) (b : Bool) :
    AffectsProfile (setting.command b) := by
  have hins : (setting.command b).header.ins = setting.ins := by
    rw [Setting.command]
    split_ifs with h8
    · exact h8.symm
    · rfl
  rcases h with h | h
  · simp [AffectsProfile, IsWrite, quietInstructions, hins, h]
  · simp [AffectsProfile, IsWrite, quietInstructions, hins, h]

theorem settings_ins (ledOn ndefReadOnly ndefEnabled webusbLanding : Option Bool) :
    ∀ setting ∈ settings p ledOn ndefReadOnly ndefEnabled webusbLanding,
      setting.ins = 8 ∨ setting.ins = 0x40 := by
  simp [settings]

theorem changes_affect {setting : Setting} (h : setting.ins = 8 ∨ setting.ins = 0x40) :
    ∀ c ∈ setting.changes, AffectsProfile c := by
  intro c hc
  rw [Setting.changes] at hc
  cases hv : setting.value with
  | none =>
    rw [hv] at hc
    cases hc
  | some b =>
    rw [hv] at hc
    dsimp only at hc
    split_ifs at hc with hsame
    · cases hc
    · rw [List.mem_singleton.mp hc]
      exact setting_affects h b

theorem legacyWrites_affect {config : LegacyConfiguration}
    (h : legacyWrites options config p = .ok ws) : ∀ c ∈ ws, AffectsProfile c := by
  intro c hc
  rw [((legacyWrites_eq_ok config).mp h).2] at hc
  obtain ⟨d, hd, rfl⟩ := List.mem_map.mp hc
  obtain ⟨setting, hsetting, hd⟩ := List.mem_flatMap.mp hd
  exact changes_affect (settings_ins _ _ _ _ setting hsetting) d hd

theorem featureWrite_affects {old : UInt8} (h : featureWrite old p = .ok ws) :
    ∀ c ∈ ws, AffectsProfile c := by
  intro c hc
  rw [featureWrite] at h
  split_ifs at h
  · cases h
    cases hc
  · cases h
    rw [List.mem_singleton.mp hc]
    simp [AffectsProfile, IsWrite, quietInstructions, write, cmd]

theorem featureWrites_affect {config : Configuration}
    (h : featureWrites options config p = .ok ws) : ∀ c ∈ ws, AffectsProfile c := by
  obtain ⟨features, hfeatures, h⟩ := bind_eq_ok.mp h
  obtain ⟨_, _, h⟩ := bind_eq_ok.mp h
  cases h
  intro c hc
  rcases List.mem_append.mp hc with hc | hc
  · obtain ⟨setting, hsetting, hc⟩ := List.mem_flatMap.mp hc
    exact changes_affect (settings_ins _ _ _ _ setting hsetting) c hc
  · exact featureWrite_affects hfeatures c hc

theorem patchWrites_affect {profile : DeviceProfile}
    (h : patchWrites profile options raw p = .ok ws) : ∀ c ∈ ws, AffectsProfile c := by
  obtain ⟨layout, _, h⟩ := bind_eq_ok.mp h
  by_cases hlegacy : layout ≠ .features
  · rw [if_pos hlegacy] at h
    obtain ⟨config, _, h⟩ := bind_eq_ok.mp h
    exact legacyWrites_affect h
  · rw [if_neg hlegacy] at h
    obtain ⟨config, _, h⟩ := bind_eq_ok.mp h
    exact featureWrites_affect h

theorem sm2Writes_affect {patch : Sm2Patch} (h : sm2Writes raw patch = .ok ws) :
    ∀ c ∈ ws, AffectsProfile c := by
  intro c hc
  obtain ⟨old, _, h⟩ := bind_eq_ok.mp h
  dsimp only at h
  split_ifs at h
  · cases h
    cases hc
  · obtain ⟨_, _, h⟩ := bind_eq_ok.mp h
    cases h
    rw [List.mem_singleton.mp hc]
    simp [AffectsProfile, IsWrite, quietInstructions, write, cmd]

/-- Whatever an answer adds to the queue is a write. -/
theorem parseValue_affects (h : parseValue s raw = .ok (ws, value)) :
    ∀ c ∈ ws, AffectsProfile c := by
  have hempty {ws : List LogicalCommand} (h : ws = []) : ∀ c ∈ ws, AffectsProfile c := by
    simp [h]
  have hmapped {α : Type} {x : Except Error α} {f : α → Value}
      (h : x.map (fun a => (([] : List LogicalCommand), f a)) = .ok (ws, value)) :
      ∀ c ∈ ws, AffectsProfile c := by
    obtain ⟨a, _, h⟩ := map_eq_ok.mp h
    cases h
    simp
  unfold parseValue at h
  cases hrequest : s.request with
  | configure p =>
    rw [hrequest] at h
    obtain ⟨writes, hwrites, h⟩ := map_eq_ok.mp h
    cases h
    exact patchWrites_affect hwrites
  | configureSm2 patch =>
    rw [hrequest] at h
    obtain ⟨writes, hwrites, h⟩ := map_eq_ok.mp h
    cases h
    exact sm2Writes_affect hwrites
  | configuration | sm2Configuration | keyboardKeymap | passSlots =>
    rw [hrequest] at h
    exact hmapped h
  | _ =>
    rw [hrequest] at h
    apply hempty
    dsimp only at h
    grind

theorem parsed_affects (h : s.parsed r = .ok (ws, value)) : ∀ c ∈ ws, AffectsProfile c := by
  rw [Admin.parsed] at h
  by_cases hpin : isPinStatus s.request = true
  · rw [if_pos hpin] at h
    split_ifs at h
    cases hstatus : pinStatus r.status with
    | none =>
      rw [hstatus] at h
      cases h
    | some status =>
      rw [hstatus] at h
      cases h
      simp
  · rw [if_neg hpin] at h
    obtain ⟨_, _, h⟩ := bind_eq_ok.mp h
    exact parseValue_affects h

end writes

/-- Between two turns: `cs` are answered by `rs` and the outcome counts them. -/
structure Counted (cs : List LogicalCommand) (rs : List ResponseData) (s : Admin) : Prop where
  queue : ∀ e ∈ s.queue, Tagged e.1 e.2
  outcome : ∃ o, s.outcome = some o ∧ Truthful cs rs o

/-- While the last command waits for its answer. -/
structure Waiting (cs : List LogicalCommand) (rs : List ResponseData) (s : Admin) : Prop
    extends Counted cs rs s where
  pending : ∃ own c stage, cs = own ++ [c] ∧ own.length = rs.length ∧
    s.pending = some stage ∧ Tagged c stage

section turns

variable {s s' m : Admin} {cs : List LogicalCommand} {rs : List ResponseData}
  {c : LogicalCommand} {stage : Stage} {r : ResponseData} {o : Outcome}

theorem withOutcome_eq (ho : s.outcome = some o) (f : Outcome → Outcome) :
    s.withOutcome f = .ok { s with outcome := some (f o) } := by
  rw [Admin.withOutcome, ho]

/-- The flag is set before the command that calls for it leaves the host. -/
theorem Counted.sends (h : Counted cs rs s) (hlength : cs.length = rs.length)
    (hpop : s.pop = (.ok (.command c), m)) : Waiting (cs ++ [c]) rs m := by
  obtain ⟨o, ho, htrue⟩ := h.outcome
  obtain ⟨_, stage, hqueue, _⟩ := pop_command hpop
  have htag : Tagged c stage := h.queue (c, stage) (by rw [hqueue]; exact List.mem_cons_self)
  have htags : ∀ e ∈ m.queue, Tagged e.1 e.2 := by
    intro e he
    exact h.queue e (by rw [hqueue]; exact List.mem_cons_of_mem _ he)
  have hm : m.outcome =
      some { o with reprobeRequired := stage == .write true || o.reprobeRequired } ∧
      m.pending = some stage := by
    have hcons := (pop_cons hqueue ho).symm.trans hpop
    rw [← (Prod.mk.inj hcons).2]
    exact ⟨rfl, rfl⟩
  refine ⟨⟨htags, _, hm.1, ?_, ?_⟩, cs, c, stage, rfl, hlength, hm.2, htag⟩
  · rw [confirmed_pending hlength]
    exact htrue.writes
  · rintro ⟨d, hd, haffects⟩
    rcases List.mem_append.mp hd with hd | hd
    · simp [htrue.reprobe ⟨d, hd, haffects⟩]
    · rw [List.mem_singleton.mp hd] at haffects
      simp [htag.affects haffects]

theorem Counted.ends (h : Counted cs rs s) (hpop : s.pop = (.ok (.done o), m)) :
    Truthful cs rs o := by
  obtain ⟨o', ho, htrue⟩ := h.outcome
  have hnil := pop_done hpop
  rw [Admin.pop, hnil, ho] at hpop
  cases hpop
  exact htrue

/-- With an outcome at hand a turn that the answer allows does not fail. -/
theorem Counted.pops (h : Counted cs rs s) (e : Error) : s.pop ≠ (.error e, m) := by
  obtain ⟨o, ho, _⟩ := h.outcome
  intro hpop
  cases hq : s.queue with
  | nil =>
    rw [Admin.pop, hq, ho] at hpop
    cases hpop
  | cons entry rest =>
    obtain ⟨c, stage⟩ := entry
    obtain ⟨m', o', hsends, _⟩ := pop_sends hq ho
    rw [hsends] at hpop
    cases hpop

/-- The outcome after the answer to a command, whether or not the machine goes on. -/
theorem truthful_answered {own : List LogicalCommand} (h : Truthful (own ++ [c]) rs o)
    (hlength : own.length = rs.length) {count : ℕ}
    (hcount : count = o.confirmedWrites + if IsWrite c ∧ r = accepted then 1 else 0)
    (value : Value) :
    Truthful (own ++ [c]) (rs ++ [r]) ⟨value, count, o.reprobeRequired⟩ := by
  refine ⟨?_, h.reprobe⟩
  rw [confirmed_answered hlength, hcount, h.writes, confirmed_pending hlength]

theorem accepted_eq (hsuccess : r.status.isSuccess = true) (hdata : r.data = []) :
    r = accepted := by
  obtain ⟨data, ⟨raw⟩⟩ := r
  cases hdata
  simp only [StatusWord.isSuccess, beq_iff_eq] at hsuccess
  subst hsuccess
  rfl

/-- An answer that lets a command that is no read pass is an empty success. -/
theorem acknowledged_accepted (h : s.acknowledged stage r = .ok s') : r = accepted := by
  unfold Admin.acknowledged at h
  by_cases hsuccess : r.status.isSuccess = true
  · rw [if_neg (not_not.mpr hsuccess)] at h
    by_cases hdata : r.data = []
    · exact accepted_eq hsuccess hdata
    · rw [if_pos hdata] at h
      cases h
  · rw [if_pos hsuccess] at h
    cases h

theorem acknowledged_write (ho : s.outcome = some o) (reprobe : Bool) :
    s.acknowledged (.write reprobe) accepted =
      .ok { s with outcome := some { o with confirmedWrites := o.confirmedWrites + 1 } } := by
  simp [Admin.acknowledged, accepted, StatusWord.isSuccess, withOutcome_eq ho]

/-- An accepted answer is counted when it acknowledges a write, and only then. -/
theorem Waiting.answered (h : Waiting cs rs s) (hpending : s.pending = some stage)
    (ha : { s with pending := none }.answered stage r = .ok s') : Counted cs (rs ++ [r]) s' := by
  obtain ⟨o, ho, htrue⟩ := h.outcome
  obtain ⟨own, c, stage', rfl, hlength, hpending', htag⟩ := h.pending
  cases hpending'.symm.trans hpending
  have ho' : { s with pending := none }.outcome = some o := ho
  rw [Admin.answered] at ha
  cases stage with
  | read =>
    rw [if_pos rfl] at ha
    have hquiet : ¬IsWrite c := by
      intro hwrite
      obtain ⟨_, hread⟩ := htag.write.mp hwrite
      cases hread
    obtain ⟨⟨writes, value⟩, hparsed, ha⟩ := bind_eq_ok.mp ha
    have hparse (queue : List (LogicalCommand × Stage)) (f : Outcome → Outcome) :
        { s with queue := queue, pending := none }.withOutcome f =
          .ok { s with queue := queue, pending := none, outcome := some (f o) } :=
      @withOutcome_eq { s with queue := queue, pending := none } o ho f
    dsimp only at ha
    rw [hparse] at ha
    cases ha
    refine ⟨?_, _, rfl, truthful_answered htrue hlength ?_ value⟩
    · intro e he
      rcases List.mem_append.mp he with he | he
      · exact h.queue e he
      · obtain ⟨d, hd, rfl⟩ := List.mem_map.mp he
        exact tagged_write (parsed_affects hparsed d hd)
    · rw [if_neg fun hboth => hquiet hboth.1, Nat.add_zero]
  | write reprobe =>
    rw [if_neg (by simp)] at ha
    have hr := acknowledged_accepted ha
    subst hr
    rw [acknowledged_write ho'] at ha
    cases ha
    refine ⟨h.queue, _, rfl, truthful_answered htrue hlength ?_ o.value⟩
    rw [if_pos ⟨htag.write.mpr ⟨reprobe, rfl⟩, rfl⟩]
  | select | authenticate =>
    rw [if_neg (by simp)] at ha
    have hquiet : ¬IsWrite c := by
      intro hwrite
      obtain ⟨_, hother⟩ := htag.write.mp hwrite
      cases hother
    simp only [Admin.acknowledged] at ha
    split_ifs at ha
    cases ha
    refine ⟨h.queue, o, ho, truthful_answered htrue hlength ?_ o.value⟩
    rw [if_neg fun hboth => hquiet hboth.1, Nat.add_zero]

/-- An answer that fails the machine acknowledges no write and leaves the outcome. -/
theorem Waiting.fails (h : Waiting cs rs s) (hpending : s.pending = some stage) {e : Error}
    (ha : { s with pending := none }.answered stage r = .error e) :
    ∃ o, s.outcome = some o ∧ Truthful cs (rs ++ [r]) o := by
  obtain ⟨o, ho, htrue⟩ := h.outcome
  obtain ⟨own, c, stage', rfl, hlength, hpending', htag⟩ := h.pending
  cases hpending'.symm.trans hpending
  refine ⟨o, ho, truthful_answered htrue hlength ?_ o.value⟩
  rw [if_neg, Nat.add_zero]
  rintro ⟨hwrite, rfl⟩
  obtain ⟨reprobe, rfl⟩ := htag.write.mp hwrite
  have ho' : { s with pending := none }.outcome = some o := ho
  rw [Admin.answered, if_neg (by simp), acknowledged_write ho'] at ha
  cases ha

end turns

section runs

variable {s₀ m m' : Admin} {cs : List LogicalCommand} {rs : List ResponseData}
  {c : LogicalCommand} {r : ResponseData} {e : Error} {o : Outcome}

theorem waiting_described (h₀ : Counted [] [] s₀) : Described admin s₀ Waiting where
  opening := by
    intro c m h
    exact h₀.sends rfl h
  answering := by
    intro cs rs m r c m' hm h
    obtain ⟨own, c', stage, hcs, hlength, hpending, _⟩ := hm.pending
    obtain ⟨s₁, ha, hpop⟩ := next_ok hpending h
    refine (hm.answered hpending ha).sends ?_ hpop
    rw [hcs]
    simp [hlength]

/-- Whatever the last turn gives, the outcome that it leaves is true. -/
theorem turn_command (h₀ : Counted [] [] s₀)
    (h : LastTurn admin s₀ (.ok (.command c)) cs rs m) :
    ∃ o, m.outcome = some o ∧ Truthful cs rs o := by
  have hwaiting := (waiting_described h₀).trace h.trace
  obtain ⟨o, ho, htrue⟩ := hwaiting.outcome
  have hlength : (cs ++ [c]).length = rs.length + 1 := h.trace.length
  exact ⟨o, ho, htrue.earlier (by simpa using hlength)⟩

theorem turn_done (h₀ : Counted [] [] s₀) (h : LastTurn admin s₀ (.ok (.done o)) cs rs m) :
    Truthful cs rs o := by
  cases h with
  | opening h => exact h₀.ends h
  | answering ht h =>
    have hwaiting := (waiting_described h₀).trace ht
    obtain ⟨own, c, stage, _, _, hpending, _⟩ := hwaiting.pending
    obtain ⟨s₁, ha, hpop⟩ := next_ok hpending h
    exact (hwaiting.answered hpending ha).ends hpop

theorem turn_error (h₀ : Counted [] [] s₀) (h : LastTurn admin s₀ (.error e) cs rs m) :
    ∃ o, m.outcome = some o ∧ Truthful cs rs o := by
  cases h with
  | opening h => exact absurd h (h₀.pops e)
  | @answering _ _ s _ r ht h =>
    have hwaiting := (waiting_described h₀).trace ht
    obtain ⟨own, c, stage, _, _, hpending, _⟩ := hwaiting.pending
    change s.next (some r) = (.error e, m) at h
    simp only [Admin.next] at h
    rw [hpending] at h
    dsimp only at h
    cases ha : { s with pending := none }.answered stage r with
    | ok s₁ =>
      rw [ha] at h
      exact absurd h ((hwaiting.answered hpending ha).pops e)
    | error e' =>
      rw [ha] at h
      cases h
      exact hwaiting.fails hpending ha

section follows

variable {options : OperationOptions} {history : List (Call × Reply Outcome)}
  {t : Recorded Admin Outcome}

/-- A run that has ended well holds the outcome of the machine's last turn. -/
theorem completed_truthful (h₀ : Counted [] [] s₀) (h : Follows admin s₀ options history t)
    (hstate : t.op.state = .completed) :
    ∃ o, t.op.result = .ok o ∧ Truthful t.commands t.responses o := by
  obtain ⟨m, o, ht, _, hout⟩ := h.standing.of_finished (Or.inl hstate)
  exact ⟨o, by simp [Operation.result, hstate, hout hstate], turn_done h₀ ht⟩

/-- A run that has given its machine away has nothing to report. -/
theorem given_away (h : Follows admin s₀ options history t)
    (hs : t.op.state = .completed ∨ t.op.state = .cancelled ∨ t.op.state = .resultTaken)
    (hp : t.op.progress = none) : t.op.currentProgress admin = none := by
  have hmachine : t.op.machine = none := by
    rw [← Option.not_isSome_iff_eq_none, h.lifecycle.machine]
    rcases hs with hs | hs | hs <;> simp [hs]
  simp [Operation.currentProgress, hp, hmachine]

/-- Where the operation still has progress, it is the outcome of the machine's last turn. -/
theorem progress_truthful (h₀ : Counted [] [] s₀) (h : Follows admin s₀ options history t) :
    (t.op.state = .completed ∨ t.op.state = .cancelled ∨ t.op.state = .resultTaken) ∧
        t.op.currentProgress admin = none ∨
      ∃ o, t.op.currentProgress admin = some o ∧ Truthful t.commands t.responses o := by
  cases h.standing with
  | created hs hm hcs hrs hp =>
    obtain ⟨o, ho, htrue⟩ := h₀.outcome
    rw [hcs, hrs]
    exact Or.inr ⟨o, by simp [Operation.currentProgress, hp, hm, admin, ho], htrue⟩
  | awaiting m hs hm ht hp =>
    obtain ⟨o, ho, htrue⟩ := ((waiting_described h₀).trace ht).outcome
    exact Or.inr ⟨o, by simp [Operation.currentProgress, hp, hm, admin, ho], htrue⟩
  | completed m value ht hp hs =>
    have hstate : t.op.state = .completed ∨ t.op.state = .cancelled ∨
        t.op.state = .resultTaken := hs.imp And.left fun h => Or.inr h.1
    exact Or.inl ⟨hstate, given_away h hstate hp⟩
  | cancelled hs hp ht =>
    have hstate : t.op.state = .completed ∨ t.op.state = .cancelled ∨
        t.op.state = .resultTaken := Or.inr (Or.inl hs)
    exact Or.inl ⟨hstate, given_away h hstate hp⟩
  | broke m hs ht hp =>
    obtain ⟨o, ho, htrue⟩ := ((waiting_described h₀).trace ht).outcome
    exact Or.inr ⟨o, by simp [Operation.currentProgress, hp, admin, ho], htrue⟩
  | failed m e hs ht he hp =>
    obtain ⟨o, ho, htrue⟩ := turn_error h₀ ht
    exact Or.inr ⟨o, by simp [Operation.currentProgress, hp, admin, ho], htrue⟩
  | rejected m c hs ht hbad hp =>
    obtain ⟨o, ho, htrue⟩ := turn_command h₀ ht
    exact Or.inr ⟨o, by simp [Operation.currentProgress, hp, admin, ho], htrue⟩

/-- A caller that looks at a run sees what the card has done. -/
theorem honest_follows (h₀ : Counted [] [] s₀) (h : Follows admin s₀ options history t) :
    Honest t := by
  refine ⟨?_, ?_, ?_⟩
  · intro o ho
    rcases ho with ho | ho
    · rcases progress_truthful h₀ h with ⟨_, hnone⟩ | ⟨o', ho', htrue⟩
      · rw [hnone] at ho
        cases ho
      · rw [ho'] at ho
        cases ho
        exact htrue
    · obtain ⟨hstate, hout⟩ := returned_output ho
      obtain ⟨o', hresult, htrue⟩ := completed_truthful h₀ h hstate
      obtain ⟨_, hout'⟩ := returned_output (Or.inl hresult)
      rw [hout] at hout'
      cases hout'
      exact htrue
  · intro hstate
    rcases progress_truthful h₀ h with ⟨hother, _⟩ | ⟨o, ho, _⟩
    · rcases hstate with hs | hs | hs <;> simp [hs] at hother
    · exact ⟨o, ho⟩
  · intro hstate
    obtain ⟨o, hresult, _⟩ := completed_truthful h₀ h hstate
    exact ⟨o, hresult⟩

end follows

/-- Partial results of every Admin run tell the truth. -/
theorem outcomes_honest {profile : DeviceProfile} {request : Request} {access : Access}
    {options : OperationOptions} {op : Operation Admin Outcome}
    (h : operationWithAccess profile request access options = .ok op) (calls : List Call) :
    Honest (recorded admin op calls) := by
  obtain ⟨_, _, h⟩ := bind_eq_ok.mp h
  obtain ⟨_, _, h⟩ := bind_eq_ok.mp h
  obtain ⟨_, _, h⟩ := bind_eq_ok.mp h
  obtain ⟨_, _, h⟩ := bind_eq_ok.mp h
  obtain ⟨own, htarget, h⟩ := bind_eq_ok.mp h
  obtain ⟨_, _, h⟩ := bind_eq_ok.mp h
  obtain ⟨_, _, h⟩ := bind_eq_ok.mp h
  refine honest_follows ?_ (recorded_follows admin h calls)
  exact ⟨queue_tagged htarget _ access, _, rfl, rfl, by simp⟩

/-- The LED is switched; the write of the features is exposed, but its answer is an error. -/
theorem outcomes_honest_features :
    ∃ op, operationWithAccess patchProfile (.configure examplePatch) .existing {} = .ok op ∧
      (recorded admin op [.start, .advance ([0, 1, 0, 1, 1, 0x05] ++ [0x90, 0]),
        .advance [0x90, 0], .advance [0x6f, 0]]).op.currentProgress admin =
          some ⟨.none, 1, true⟩ ∧
      Honest (recorded admin op [.start, .advance ([0, 1, 0, 1, 1, 0x05] ++ [0x90, 0]),
        .advance [0x90, 0], .advance [0x6f, 0]]) := by
  have hop : operationWithAccess patchProfile (.configure examplePatch) .existing {} = .ok _ := rfl
  exact ⟨_, hop, rfl, outcomes_honest hop _⟩

end runs

end AdminOutcome
