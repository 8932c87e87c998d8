import LibCanokey.AdminExecute
import LibCanokey.CompatRecognition
import LibCanokey.PivCommand
import LibCanokey.ProtocolStages

/-! # The device probe

The machine that discovers a device: what it reads of every reply, where a serial that is known
already takes the place of its read, and the order of what it exposes. -/
namespace DeviceProbe

open BigEndian ListTraversal ProtocolError ProtocolApdu ProtocolConversation ProtocolOperation
open ProtocolTranscript ProtocolStages CompatProfile

inductive ProbeMode where
  | minimal
  | piv
  deriving DecidableEq, Repr

abbrev Serial := { s : Bytes // s.length = 4 }

structure ProbeOptions where
  mode : ProbeMode := .piv
  observedSerial : Option Serial := none
  operation : OperationOptions := {}

/-- The observations with the model text, which no capability reads. -/
structure Observations extends DeviceObservations where
  model : Option String := none

structure DeviceInfo where
  firmwareText : Bytes
  firmware : Option FirmwareVersion
  model : Option String
  serial : Option Bytes
  pivVersion : Option (UInt8 × UInt8 × UInt8)
  deriving DecidableEq, Repr

/-- A profile with its `info`. -/
structure Discovered where
  info : DeviceInfo
  profile : DeviceProfile
  deriving DecidableEq, Repr

def Discovered.fromObservations (o : Observations) : Except Error Discovered :=
  (DeviceProfile.fromObservations o.toDeviceObservations).map fun p =>
    ⟨⟨o.firmwareText, p.firmware, o.model, o.serial, o.pivVersion⟩, p⟩

structure Probe where
  stage : ℕ
  mode : ProbeMode
  observedSerial : Option Serial
  observations : Observations

def Probe.warn (p : Probe) (warning : CompatibilityWarning) : Probe :=
  { p with observations :=
      { p.observations with warnings := p.observations.warnings ++ [warning] } }

/-- Whether an optional read has succeeded; some refusals are warnings. -/
def Probe.optional (p : Probe) (r : ResponseData) (name : String) : Except Error (Bool × Probe) :=
  if r.status.isSuccess then .ok (true, p)
  else if r.status.raw ∈ [0x6d00, 0x6e00, 0x6a81, 0x6a86] then
    .ok (false, p.warn (.optionalCommandUnsupported name))
  else if r.status.raw = 0x6982 then
    .ok (false, p.warn (.optionalCommandNeedsAuthentication name))
  else .error (.status r.status .command none)

/-- What a reply adds to the observations, by the stage that it answers. -/
def Probe.received (p : Probe) (r : ResponseData) : Except Error Probe :=
  match p.stage with
  | 1 => (r.ensureSuccess .select).map fun _ => p
  | 2 => do
    r.ensureSuccess .command
    if r.data = [] ∨ r.data.length > 256 then .error invalidResponse
    else .ok { p with observations := { p.observations with firmwareText := r.data } }
  | 3 => do
    let (succeeded, p) ← p.optional r "model"
    if succeeded then
      match String.fromUTF8? ⟨r.data.toArray⟩ with
      | none => .error invalidResponse
      | some model => .ok { p with observations := { p.observations with model := some model } }
    else .ok p
  | 4 => do
    let (succeeded, p) ← p.optional r "serial"
    if succeeded then
      if r.data.length ≠ 4 then .error invalidResponse
      else .ok { p with observations := { p.observations with serial := some r.data } }
    else .ok p
  | 5 => (r.ensureSuccess .select).map fun _ => p
  | 6 => do
    r.ensureSuccess .command
    match r.data with
    | [a, b, c] =>
      .ok { p with observations := { p.observations with pivVersion := some (a, b, c) } }
    | _ => .error invalidResponse
  | 7 => do
    let (succeeded, p) ← p.optional r "algorithm_config"
    if succeeded then do
      let config ← AlgorithmConfig.parse r.data
      .ok { p with observations := { p.observations with algorithmConfig := some config } }
    else .ok p
  | _ => .error (.new .protocolViolation)

/-- A serial that is known takes the place of its read. -/
def Probe.skipSerial (p : Probe) : Probe :=
  match p.observedSerial with
  | none => p
  | some serial =>
    if p.stage = 3 then
      { p with
        stage := 4
        observedSerial := none
        observations := { p.observations with serial := some serial.1 } }
    else p

def Probe.finish (p : Probe) : Except Error (Action Discovered) :=
  (Discovered.fromObservations p.observations).map .done

def firmware : LogicalCommand := AdminExecute.read 0x31 0

def model : LogicalCommand := AdminExecute.read 0x31 1

def serial : LogicalCommand := AdminExecute.read 0x32 0

/-- Every command carries an explicit Le, which SELECT needs before the firmware is known. -/
def Probe.send (p : Probe) (c : LogicalCommand) : Except Error (Action Discovered) × Probe :=
  (.ok (.command (AdminExecute.withLe true c)), { p with stage := p.stage + 1 })

def Probe.proceed (p : Probe) : Except Error (Action Discovered) × Probe :=
  match p.stage with
  | 0 => p.send AdminExecute.select
  | 1 => p.send firmware
  | 2 => p.send model
  | 3 => p.send serial
  | 4 => if p.mode = .minimal then (p.finish, p) else p.send PivCommand.select
  | 5 => p.send PivCommand.version
  | 6 =>
    match Discovered.fromObservations p.observations with
    | .error e => (.error e, p)
    | .ok found =>
      if found.profile.algorithmConfigReadSupport.support ≠ .supported then (p.finish, p)
      else p.send PivCommand.algorithmConfig
  | 7 => (p.finish, p)
  | _ => (.error (.new .protocolViolation), p)

def Probe.next (p : Probe) (response : Option ResponseData) :
    Except Error (Action Discovered) × Probe :=
  match response with
  | none => p.skipSerial.proceed
  | some r =>
    match p.received r with
    | .error e => (.error e, p)
    | .ok p => p.skipSerial.proceed

def probe : Machine Probe Discovered where
  next := Probe.next

def probeDevice (options : ProbeOptions) : Except Error (Operation Probe Discovered) :=
  Operation.fromMachine ⟨0, options.mode, options.observedSerial, { firmwareText := [] }⟩
    options.operation

/-- The commands of every stage, as they are exposed. -/
def stageCommands : List LogicalCommand :=
  [AdminExecute.select, firmware, model, serial, PivCommand.select, PivCommand.version,
    PivCommand.algorithmConfig].map (AdminExecute.withLe true)

/-- The read-only sequence of a mode; the serial is left out when it is known. -/
def fixedSequence (mode : ProbeMode) (known : Bool) : List LogicalCommand :=
  let all := if mode = .piv then stageCommands else stageCommands.take 4
  if known then all.eraseIdx 3 else all

/-- The recognized firmware of the 3.x and 4.0 series. -/
def ConfigurationFirmware (v : FirmwareVersion) : Prop :=
  (v.major = 3 ∧ (v.minor = 0 ∧ v.patch ≤ 3 ∨ v.minor = 1)) ∨ (v.major = 4 ∧ v.minor = 0)

/-- What any run of a probe keeps to: the sequence, and the firmware that the last read of it
needs. -/
structure Sequenced (options : ProbeOptions) (t : Recorded Probe Discovered) : Prop where
  fixed : t.commands <+: fixedSequence options.mode options.observedSerial.isSome
  configured : AdminExecute.withLe true PivCommand.algorithmConfig ∈ t.commands →
    ∃ r v, t.responses[1]? = some r ∧ parseFirmware r.data = some v ∧ ConfigurationFirmware v

section turns

variable {p p' q : Probe} {r : ResponseData} {c : LogicalCommand}

/-- What no reply changes. -/
structure Same (p q : Probe) : Prop where
  stage : q.stage = p.stage
  mode : q.mode = p.mode
  observedSerial : q.observedSerial = p.observedSerial

theorem optional_same {name : String} {succeeded : Bool}
    (h : p.optional r name = .ok (succeeded, q)) :
    Same p q ∧ q.observations.firmwareText = p.observations.firmwareText := by
  rw [Probe.optional] at h
  split_ifs at h <;> cases h <;> exact ⟨⟨rfl, rfl, rfl⟩, rfl⟩

/-- An accepted reply; only the one to the firmware read gives the firmware its text. -/
structure Accepted (p : Probe) (r : ResponseData) (q : Probe) : Prop where
  same : Same p q
  firmware : q.observations.firmwareText =
    if p.stage = 2 then r.data else p.observations.firmwareText

theorem received_accepted (h : p.received r = .ok q) : Accepted p r q := by
  have hoptional {name : String} {succeeded : Bool} {p₁ : Probe}
      (hp : p.optional r name = .ok (succeeded, p₁)) (hstage : p.stage ≠ 2)
      {f : Observations → Observations} (hf : ∀ o, (f o).firmwareText = o.firmwareText) :
      Accepted p r { p₁ with observations := f p₁.observations } := by
    obtain ⟨⟨hs, hm, ho⟩, hfirmware⟩ := optional_same hp
    refine ⟨⟨hs, hm, ho⟩, ?_⟩
    rw [if_neg hstage]
    change (f p₁.observations).firmwareText = _
    rw [hf, hfirmware]
  unfold Probe.received at h
  split at h
  · next hs =>
    obtain ⟨_, _, h⟩ := map_eq_ok.mp h
    subst h
    exact ⟨⟨rfl, rfl, rfl⟩, by simp [hs]⟩
  · next hs =>
    obtain ⟨_, _, h⟩ := bind_eq_ok.mp h
    split_ifs at h
    cases h
    exact ⟨⟨rfl, rfl, rfl⟩, by simp [hs]⟩
  · next hs =>
    obtain ⟨⟨succeeded, p₁⟩, hp, h⟩ := bind_eq_ok.mp h
    dsimp only at h
    split at h
    · split at h
      · cases h
      · next text _ =>
        cases h
        exact hoptional hp (by omega) (f := fun o => { o with model := some text }) fun _ => rfl
    · cases h
      exact hoptional hp (by omega) (f := id) fun _ => rfl
  · next hs =>
    obtain ⟨⟨succeeded, p₁⟩, hp, h⟩ := bind_eq_ok.mp h
    dsimp only at h
    split at h
    · split_ifs at h
      cases h
      exact hoptional hp (by omega) (f := fun o => { o with serial := some r.data }) fun _ => rfl
    · cases h
      exact hoptional hp (by omega) (f := id) fun _ => rfl
  · next hs =>
    obtain ⟨_, _, h⟩ := map_eq_ok.mp h
    subst h
    exact ⟨⟨rfl, rfl, rfl⟩, by simp [hs]⟩
  · next hs =>
    obtain ⟨_, _, h⟩ := bind_eq_ok.mp h
    split at h
    · cases h
      exact ⟨⟨rfl, rfl, rfl⟩, by simp [hs]⟩
    · cases h
  · next hs =>
    obtain ⟨⟨succeeded, p₁⟩, hp, h⟩ := bind_eq_ok.mp h
    dsimp only at h
    split at h
    · obtain ⟨config, _, h⟩ := bind_eq_ok.mp h
      cases h
      exact hoptional hp (by omega) (f := fun o => { o with algorithmConfig := some config })
        fun _ => rfl
    · cases h
      exact hoptional hp (by omega) (f := id) fun _ => rfl
  · cases h

/-- The command that a stage exposes. -/
structure Exposes (p : Probe) (c : LogicalCommand) (p' : Probe) : Prop where
  command : stageCommands[p.stage]? = some c
  next : p' = { p with stage := p.stage + 1 }
  mode : p.stage = 4 → p.mode = .piv
  firmware : p.stage = 6 → ∃ v, parseFirmware p.observations.firmwareText = some v ∧
    ConfigurationFirmware v

theorem configurationFirmware_of_range {v : FirmwareVersion}
    (hrecognized : v.compatibilityBase.recognized = true)
    (hrange : (Version.le ⟨3, 0, 0⟩ v.compatibilityBase &&
      v.compatibilityBase.le ⟨3, 1, 0⟩) = true) : ConfigurationFirmware v := by
  have hseries := CompatRecognition.recognized_iff.mp hrecognized
  obtain ⟨major, minor, patch, suffix⟩ := v
  simp only [FirmwareVersion.compatibilityBase, CompatRecognition.Recognized] at hrange hseries
  split_ifs at hrange with hpatch
  · simp only [ConfigurationFirmware]
    omega
  · simp only [ConfigurationFirmware]
    simp [Version.le] at hrange
    omega

/-- The configuration is read from recognized firmware of the 3.x and 4.0 series. -/
theorem readSupport_firmware {found : Discovered} {o : Observations}
    (h : Discovered.fromObservations o = .ok found)
    (hs : found.profile.algorithmConfigReadSupport.support = .supported) :
    ∃ v, parseFirmware o.firmwareText = some v ∧ ConfigurationFirmware v := by
  obtain ⟨profile, hprofile, rfl⟩ := map_eq_ok.mp h
  have hfirmware := (CompatRecognition.fromObservations_eq_ok hprofile).1
  rw [DeviceProfile.algorithmConfigReadSupport] at hs
  split_ifs at hs
  obtain ⟨base, hbase, hrecognized, hfirst, hlast⟩ := firmwareRange_supported.mp hs
  rw [DeviceProfile.base, hfirmware] at hbase
  obtain ⟨v, hv, rfl⟩ := Option.map_eq_some_iff.mp hbase
  exact ⟨v, hv, configurationFirmware_of_range hrecognized (by rw [hfirst, hlast]; rfl)⟩

theorem proceed_exposes (h : p.proceed = (.ok (.command c), p')) : Exposes p c p' := by
  have hfinish {x : Probe} (h : (p.finish, x) = (.ok (.command c), p')) : False := by
    obtain ⟨found, _, h⟩ := map_eq_ok.mp (Prod.mk.inj h).1
    cases h
  have hsend {d : LogicalCommand} (h : p.send d = (.ok (.command c), p'))
      (hd : stageCommands[p.stage]? = some (AdminExecute.withLe true d))
      (hmode : p.stage = 4 → p.mode = .piv)
      (hfirmware : p.stage = 6 → ∃ v, parseFirmware p.observations.firmwareText = some v ∧
        ConfigurationFirmware v) : Exposes p c p' := by
    cases h
    exact ⟨hd, rfl, hmode, hfirmware⟩
  unfold Probe.proceed at h
  split at h
  · next hs => exact hsend h (by rw [hs]; rfl) (by omega) (by omega)
  · next hs => exact hsend h (by rw [hs]; rfl) (by omega) (by omega)
  · next hs => exact hsend h (by rw [hs]; rfl) (by omega) (by omega)
  · next hs => exact hsend h (by rw [hs]; rfl) (by omega) (by omega)
  · next hs =>
    by_cases hmode : p.mode = .minimal
    · rw [if_pos hmode] at h
      exact (hfinish h).elim
    · have hpiv : p.mode = .piv := by
        cases hm : p.mode with
        | minimal => exact absurd hm hmode
        | piv => rfl
      rw [if_neg hmode] at h
      exact hsend h (by rw [hs]; rfl) (fun _ => hpiv) (by omega)
  · next hs => exact hsend h (by rw [hs]; rfl) (by omega) (by omega)
  · next hs =>
    split at h
    · cases h
    · next found hfound =>
      by_cases hsupport : found.profile.algorithmConfigReadSupport.support = .supported
      · rw [if_neg (not_not.mpr hsupport)] at h
        exact hsend h (by rw [hs]; rfl) (by omega) fun _ => readSupport_firmware hfound hsupport
      · rw [if_pos hsupport] at h
        exact (hfinish h).elim
  · exact (hfinish h).elim
  · cases h

end turns

/-- How many commands of the sequence come before a stage. -/
def position (known : Bool) (stage : ℕ) : ℕ :=
  if known ∧ 4 ≤ stage then stage - 1 else stage

/-- Between two turns: `rs` have answered all of `cs`. -/
structure Settled (options : ProbeOptions) (cs : List LogicalCommand) (rs : List ResponseData)
    (p : Probe) : Prop where
  mode : p.mode = options.mode
  later : 5 ≤ p.stage → p.mode = .piv
  known : p.observedSerial = if p.stage ≤ 3 then options.observedSerial else none
  commands : cs = (fixedSequence options.mode options.observedSerial.isSome).take
    (position options.observedSerial.isSome p.stage)
  count : rs.length = position options.observedSerial.isSome p.stage
  firmware : 2 ≤ p.stage → ∃ r, rs[1]? = some r ∧ r.data = p.observations.firmwareText
  configured : p.stage = 7 → ∃ v, parseFirmware p.observations.firmwareText = some v ∧
    ConfigurationFirmware v

/-- While the last of `cs` waits for its answer. -/
structure Probing (options : ProbeOptions) (cs : List LogicalCommand) (rs : List ResponseData)
    (p : Probe) : Prop where
  stage : 1 ≤ p.stage ∧ p.stage ≤ 7
  mode : p.mode = options.mode
  later : 5 ≤ p.stage → p.mode = .piv
  known : p.observedSerial = if p.stage ≤ 3 then options.observedSerial else none
  commands : cs = (fixedSequence options.mode options.observedSerial.isSome).take
    (position options.observedSerial.isSome p.stage)
  count : rs.length + 1 = position options.observedSerial.isSome p.stage
  firmware : 3 ≤ p.stage → ∃ r, rs[1]? = some r ∧ r.data = p.observations.firmwareText
  configured : p.stage = 7 → ∃ v, parseFirmware p.observations.firmwareText = some v ∧
    ConfigurationFirmware v

section stages

variable {options : ProbeOptions} {cs : List LogicalCommand} {rs : List ResponseData}
  {p q : Probe} {r : ResponseData} {c : LogicalCommand}

theorem Probing.answered (h : Probing options cs rs p) (hr : p.received r = .ok q) :
    Settled options cs (rs ++ [r]) q := by
  obtain ⟨⟨hstage, hmode, hserial⟩, hfirmware⟩ := received_accepted hr
  refine ⟨?_, ?_, ?_, ?_, ?_, ?_, ?_⟩
  · rw [hmode, h.mode]
  · rw [hstage, hmode]
    exact h.later
  · rw [hstage, hserial, h.known]
  · rw [hstage, h.commands]
  · rw [hstage, ← h.count, List.length_append, List.length_singleton]
  · rw [hstage, hfirmware]
    intro hle
    by_cases h2 : p.stage = 2
    · have hlen : rs.length = 1 := by
        have hcount := h.count
        rw [h2, position, if_neg (by omega)] at hcount
        omega
      exact ⟨r, by rw [← hlen, List.getElem?_concat_length], by rw [if_pos h2]⟩
    · obtain ⟨r', hr', hdata⟩ := h.firmware (by omega)
      refine ⟨r', ?_, by rw [if_neg h2, hdata]⟩
      rw [List.getElem?_append_left (List.getElem?_eq_some_iff.mp hr').1]
      exact hr'
  · rw [hstage, hfirmware]
    intro h7
    rw [if_neg (by omega)]
    exact h.configured h7

/-- A known serial moves the machine on, and in the sequence it stays where it is. -/
theorem Settled.skips (h : Settled options cs rs p) : Settled options cs rs p.skipSerial ∧
    (options.observedSerial.isSome = true → p.skipSerial.stage ≠ 3) := by
  rw [Probe.skipSerial]
  cases hserial : p.observedSerial with
  | none =>
    refine ⟨h, ?_⟩
    intro hknown h3
    dsimp only at h3
    rw [h.known, if_pos (by omega)] at hserial
    rw [hserial] at hknown
    cases hknown
  | some s =>
    dsimp only
    by_cases h3 : p.stage = 3
    · rw [if_pos h3]
      have hsome : options.observedSerial = some s := by
        rw [← hserial, h.known, if_pos (by omega)]
      have hsame : position options.observedSerial.isSome p.stage =
          position options.observedSerial.isSome 4 := by
        rw [hsome, h3]
        rfl
      refine ⟨⟨h.mode, by simp, by simp, ?_, ?_, ?_, by simp⟩, by simp⟩
      · rw [h.commands, hsame]
      · rw [h.count, hsame]
      · intro _
        exact h.firmware (by omega)
    · rw [if_neg h3]
      exact ⟨h, fun _ => h3⟩

theorem fixedSequence_at {mode : ProbeMode} {known : Bool} {stage : ℕ}
    (hc : stageCommands[stage]? = some c) (hskip : known = true → stage ≠ 3)
    (hmode : 4 ≤ stage → mode = .piv) :
    (fixedSequence mode known)[position known stage]? = some c := by
  have hlt : stage < 7 := (List.getElem?_eq_some_iff.mp hc).1
  cases known with
  | false =>
    have hat : position false stage = stage := by simp [position]
    rw [hat, fixedSequence]
    cases mode with
    | piv => exact hc
    | minimal =>
      have h4 : stage < 4 := by
        by_contra hge
        cases hmode (by omega)
      simp only [reduceCtorEq, if_false, Bool.false_eq_true]
      rw [List.getElem?_take_of_lt h4]
      exact hc
  | true =>
    have h3 := hskip rfl
    cases mode with
    | piv =>
      have hall : ∀ stage < 7, stage ≠ 3 →
          (fixedSequence .piv true)[position true stage]? = stageCommands[stage]? := by decide
      rw [hall stage hlt h3, hc]
    | minimal =>
      have hall : ∀ stage < 4, stage ≠ 3 →
          (fixedSequence .minimal true)[position true stage]? = stageCommands[stage]? := by decide
      have h4 : stage < 4 := by
        by_contra hge
        cases hmode (by omega)
      rw [hall stage h4 h3, hc]

theorem Settled.sends (h : Settled options cs rs p) {p' : Probe}
    (hskip : options.observedSerial.isSome = true → p.stage ≠ 3) (he : Exposes p c p') :
    Probing options (cs ++ [c]) rs p' := by
  have hlt : p.stage < 7 := (List.getElem?_eq_some_iff.mp he.command).1
  have hmode : 4 ≤ p.stage → p.mode = .piv := by
    intro hle
    by_cases h4 : p.stage = 4
    · exact he.mode h4
    · exact h.later (by omega)
  have hnext : position options.observedSerial.isSome (p.stage + 1) =
      position options.observedSerial.isSome p.stage + 1 := by
    cases hknown : options.observedSerial.isSome with
    | false => simp [position]
    | true =>
      have h3 := hskip hknown
      simp only [position, true_and]
      by_cases h4 : 4 ≤ p.stage
      · rw [if_pos h4, if_pos (by omega)]
        omega
      · rw [if_neg h4, if_neg (by omega)]
  rw [he.next]
  refine ⟨⟨by simp, by simp; omega⟩, h.mode, ?_, ?_, ?_, ?_, ?_, ?_⟩
  · intro hle
    exact hmode (by simpa using hle)
  · dsimp only
    rw [h.known]
    by_cases h3 : p.stage = 3
    · have hnone : options.observedSerial = none := by
        cases hobserved : options.observedSerial with
        | none => rfl
        | some s => exact absurd h3 (hskip (by rw [hobserved]; rfl))
      simp [hnone]
    · by_cases hle : p.stage ≤ 3
      · rw [if_pos hle, if_pos (by omega)]
      · rw [if_neg hle, if_neg (by omega)]
  · dsimp only
    rw [hnext, List.take_add_one, ← h.commands]
    have hat : (fixedSequence options.mode options.observedSerial.isSome)[position
        options.observedSerial.isSome p.stage]? = some c := by
      apply fixedSequence_at he.command hskip
      rw [← h.mode]
      exact hmode
    rw [hat]
    rfl
  · dsimp only
    rw [hnext, h.count]
  · intro hle
    exact h.firmware (by simpa using hle)
  · intro h7
    exact he.firmware (by simpa using h7)

theorem next_ok {action : Action Discovered} {p' : Probe}
    (h : p.next (some r) = (.ok action, p')) :
    ∃ q, p.received r = .ok q ∧ q.skipSerial.proceed = (.ok action, p') := by
  rw [Probe.next] at h
  cases hr : p.received r with
  | error e =>
    rw [hr] at h
    cases h
  | ok q =>
    rw [hr] at h
    exact ⟨q, rfl, h⟩

def initial (options : ProbeOptions) : Probe :=
  ⟨0, options.mode, options.observedSerial, { firmwareText := [] }⟩

theorem initial_settled (options : ProbeOptions) : Settled options [] [] (initial options) :=
  ⟨rfl, by simp [initial], by simp [initial], by simp [initial, position],
    by simp [initial, position], by simp [initial], by simp [initial]⟩

theorem probe_described (options : ProbeOptions) :
    Described probe (initial options) (Probing options) where
  opening := by
    intro c p h
    obtain ⟨hsettled, hskip⟩ := (initial_settled options).skips
    exact hsettled.sends hskip (proceed_exposes h)
  answering := by
    intro cs rs p r c p' hp h
    obtain ⟨q, hr, hproceed⟩ := next_ok h
    obtain ⟨hsettled, hskip⟩ := (hp.answered hr).skips
    exact hsettled.sends hskip (proceed_exposes hproceed)

theorem probing_sequenced {t : Recorded Probe Discovered} (h : Probing options t.commands rs p)
    (hrs : rs <+: t.responses) : Sequenced options t := by
  refine ⟨?_, ?_⟩
  · rw [h.commands]
    exact List.take_prefix _ _
  · intro hmem
    have hearly (mode : ProbeMode) (known : Bool) : ∀ stage < 7,
        AdminExecute.withLe true PivCommand.algorithmConfig ∉
          (fixedSequence mode known).take (position known stage) := by
      cases mode <;> cases known <;> decide
    have h7 : p.stage = 7 := by
      by_contra hne
      rw [h.commands] at hmem
      have := h.stage
      exact hearly _ _ p.stage (by omega) hmem
    obtain ⟨v, hv, hfirmware⟩ := h.configured h7
    obtain ⟨r, hr, hdata⟩ := h.firmware (by omega)
    refine ⟨r, v, ?_, by rw [hdata, hv], hfirmware⟩
    obtain ⟨more, hmore⟩ := hrs
    rw [← hmore, List.getElem?_append_left (List.getElem?_eq_some_iff.mp hr).1]
    exact hr

/-- Whatever the card replies and the caller does, a probe keeps to its sequence. -/
theorem probe_sequenced {op : Operation Probe Discovered} (h : probeDevice options = .ok op)
    (calls : List Call) : Sequenced options (recorded probe op calls) := by
  rcases (probe_described options).exposed h calls with hnil | ⟨rs, p, hrs, hprobing⟩
  · refine ⟨by rw [hnil]; exact List.nil_prefix, ?_⟩
    intro hmem
    rw [hnil] at hmem
    cases hmem
  · exact probing_sequenced hprobing hrs

end stages

end DeviceProbe
