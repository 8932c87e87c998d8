import LibCanokey.DeviceProbe
import LibCanokey.ProtocolBudgets

/-! # A probe that knows the serial

Two runs of the probe on one script: one reads the serial, the other was told it and gets the
script without that reply. -/
namespace ProbeSerial

open BigEndian ListTraversal ProtocolError ProtocolApdu ProtocolConversation ProtocolOperation
open ProtocolTranscript ProtocolStages ProtocolBudgets CompatProfile DeviceProbe ScriptedRuns

/-- The calls of a caller that starts an operation and hands it a script of replies. -/
def script (replies : List Bytes) : List Call := .start :: advances replies

def serialCommand : LogicalCommand := AdminExecute.withLe true serial

/-- After `before` the serial read is exposed, and `during` answers it with `value`. -/
structure SerialRead (op : Operation Probe Discovered) (before during : List Bytes)
    (value : Serial) : Prop where
  exposed : ∃ init last, before = init ++ [last] ∧
    begun probe (recorded probe op (script init)).op (.advance last) = some serialCommand
  answered : ∃ init last, during = init ++ [last] ∧
    (recorded probe op (script (before ++ init))).responses.length = 3 ∧
    answer (recorded probe op (script (before ++ init))).op (.advance last) =
      some ⟨value.1, ⟨0x9000⟩⟩

/-- The run `t` that reads the serial and the run `t'` that knows it. -/
structure Equivalent (t t' : Recorded Probe Discovered) : Prop where
  commands : t.commands[3]? = some serialCommand ∧ t'.commands = t.commands.eraseIdx 3
  frames : ∃ early own late, t.frames = early ++ own ++ late ∧ t'.frames = early ++ late
  ended : t'.op.state = t.op.state ∧ t'.op.result = t.op.result ∧ t'.op.error = t.op.error ∧
    t'.op.command = t.op.command

/-- The probe told the serial. -/
def knows (value : Serial) (p : Probe) : Probe := { p with observedSerial := some value }

section turns

variable {p q : Probe} {r : ResponseData} {value : Serial}

theorem optional_knows (p : Probe) (value : Serial) (r : ResponseData) (name : String) :
    (knows value p).optional r name =
      (p.optional r name).map fun e => (e.1, knows value e.2) := by
  rw [Probe.optional, Probe.optional]
  split_ifs <;> rfl

/-- What a reply means does not depend on the serial. -/
theorem received_knows (p : Probe) (value : Serial) (r : ResponseData) :
    (knows value p).received r = (p.received r).map (knows value) := by
  have hstage : (knows value p).stage = p.stage := rfl
  unfold Probe.received
  rw [hstage]
  generalize p.stage = stage
  split
  · cases r.ensureSuccess .select <;> rfl
  · cases r.ensureSuccess .command with
    | error e => rfl
    | ok _ =>
      change (if _ then _ else _) = Except.map _ (if _ then _ else _)
      split_ifs <;> rfl
  · rw [optional_knows]
    rcases p.optional r "model" with e | ⟨_ | _, q⟩
    · rfl
    · rfl
    · dsimp only [Except.map, bind, Except.bind]
      cases String.fromUTF8? ⟨r.data.toArray⟩ <;> rfl
  · rw [optional_knows]
    rcases p.optional r "serial" with e | ⟨_ | _, q⟩
    · rfl
    · rfl
    · change (if _ then _ else _) = Except.map _ (if _ then _ else _)
      split_ifs <;> rfl
  · cases r.ensureSuccess .select <;> rfl
  · cases r.ensureSuccess .command with
    | error e => rfl
    | ok _ =>
      obtain ⟨data, status⟩ := r
      rcases data with _ | ⟨a, _ | ⟨b, _ | ⟨c, _ | ⟨d, data⟩⟩⟩⟩ <;> rfl
  · rw [optional_knows]
    rcases p.optional r "algorithm_config" with e | ⟨_ | _, q⟩
    · rfl
    · rfl
    · change (AlgorithmConfig.parse r.data >>= _) =
        Except.map _ (AlgorithmConfig.parse r.data >>= _)
      cases AlgorithmConfig.parse r.data <;> rfl
  · rfl

theorem skipSerial_early (h : p.stage ≠ 3) : p.skipSerial = p := by
  rw [Probe.skipSerial]
  cases p.observedSerial with
  | none => rfl
  | some value => exact if_neg h

theorem proceed_knows (h : p.stage ≤ 2) (value : Serial) :
    (knows value p).proceed = (p.proceed.1, knows value p.proceed.2) := by
  have hstage : (knows value p).stage = p.stage := rfl
  have hcases : p.stage = 0 ∨ p.stage = 1 ∨ p.stage = 2 := by omega
  unfold Probe.proceed
  rw [hstage]
  rcases hcases with h | h | h <;> rw [h] <;> rfl

/-- Before the serial is due, knowing it changes nothing. -/
theorem next_knows (hstage : p.stage ≤ 2) :
    (knows value p).next (some r) = ((p.next (some r)).1, knows value (p.next (some r)).2) := by
  rw [Probe.next, Probe.next, received_knows]
  cases hr : p.received r with
  | error e => rfl
  | ok q =>
    have hq : q.stage ≤ 2 := by
      rw [(received_accepted hr).same.stage]
      exact hstage
    have hk : (knows value q).stage ≠ 3 := by
      change q.stage ≠ 3
      omega
    change (knows value q).skipSerial.proceed =
      (q.skipSerial.proceed.1, knows value q.skipSerial.proceed.2)
    rw [skipSerial_early hk, skipSerial_early (by omega), proceed_knows hq]

/-- The reply to the model read, with the serial known, does what the reply to the serial read
does after it. -/
theorem known_takes_place (hstage : p.stage = 3) (hserial : p.observedSerial = none)
    {p₁ : Probe} (h : p.next (some r) = (.ok (.command serialCommand), p₁)) :
    (knows value p).next (some r) = p₁.next (some ⟨value.1, ⟨0x9000⟩⟩) := by
  obtain ⟨q, hr, hproceed⟩ := next_ok h
  obtain ⟨⟨hqstage, hmode, hqserial⟩, _⟩ := received_accepted hr
  rw [hstage] at hqstage
  rw [hserial] at hqserial
  have hskip : q.skipSerial = q := by
    rw [Probe.skipSerial, hqserial]
  rw [hskip] at hproceed
  have hp₁ : p₁ = { q with stage := 4 } := by
    rw [(proceed_exposes hproceed).next, hqstage]
  have hknown : (knows value p).received r = .ok (knows value q) := by
    rw [received_knows, hr]
    rfl
  have hanswer : p₁.received ⟨value.1, ⟨0x9000⟩⟩ = .ok { p₁ with
      observations := { p₁.observations with serial := some value.1 } } := by
    have hlength : ¬ value.1.length ≠ 4 := not_not.mpr value.2
    rw [hp₁]
    change (if value.1.length ≠ 4 then _ else _) = _
    rw [if_neg hlength]
  rw [Probe.next, Probe.next, hknown, hanswer]
  dsimp only
  have hleft : (knows value q).skipSerial = { q with
      stage := 4
      observedSerial := none
      observations := { q.observations with serial := some value.1 } } := if_pos hqstage
  rw [hleft, skipSerial_early (p := { p₁ with
    observations := { p₁.observations with serial := some value.1 } })]
  · rw [hp₁, ← hqserial]
  · rw [hp₁]
    simp

end turns

section runs

variable {mode : ProbeMode} {options : OperationOptions} {value : Serial}
  {op op' : Operation Probe Discovered}

theorem script_concat (replies : List Bytes) (bytes : Bytes) :
    script (replies ++ [bytes]) = script replies ++ [.advance bytes] := by
  simp [script, advances]

/-- A run that is waiting for a reply, with the machine and its place in the sequence. -/
structure Waits (options : ProbeOptions) (t : Recorded Probe Discovered) (p : Probe) : Prop where
  machine : t.op.machine = some p
  trace : Trace probe (initial options) t.commands t.responses p
  probing : Probing options t.commands t.responses p
  fresh : Fresh options.operation t.op

theorem waits_of_awaiting {options : ProbeOptions} (h : probeDevice options = .ok op)
    {calls : List Call} (hs : (recorded probe op calls).op.state = .awaitingResponse) :
    ∃ p, Waits options (recorded probe op calls) p := by
  have hfollows := recorded_follows probe h calls
  obtain ⟨p, hm, ht, hp⟩ := hfollows.standing.of_awaiting hs
  obtain ⟨hout, herr⟩ := hfollows.lifecycle.idle (Or.inr hs)
  exact ⟨p, hm, ht, (probe_described options).trace ht, hout, hp, herr,
    hfollows.lifecycle.options⟩

/-- Without a known serial the stage is the number of exposed commands. -/
theorem waits_stage {t : Recorded Probe Discovered} {p : Probe}
    (h : Waits ⟨mode, none, options⟩ t p) :
    p.stage = t.commands.length ∧ p.stage = t.responses.length + 1 ∧ p.observedSerial = none := by
  have hcount := h.probing.count
  have hlength := h.trace.length
  have hknown := h.probing.known
  simp only [position, Option.isSome_none, Bool.false_eq_true, false_and, if_false] at hcount
  simp only [ite_self] at hknown
  exact ⟨by omega, by omega, hknown⟩

theorem awaiting_before {t : Recorded Probe Discovered} {bytes : Bytes}
    (h : (Recorded.call probe t (.advance bytes)).2.op.state = .awaitingResponse) :
    t.op.state = .awaitingResponse := by
  by_contra hs
  have hsame : (Recorded.call probe t (.advance bytes)).2.op = t.op := by
    have hadvance : t.op.advance probe bytes = (.error stateError, t.op) := if_pos hs
    simp only [Recorded.call, Operation.call, hadvance]
  rw [hsame] at h
  exact hs h

/-- Until the serial read is exposed the two runs are the same but for what they know. -/
theorem early_beside (h : probeDevice ⟨mode, none, options⟩ = .ok op)
    (h' : probeDevice ⟨mode, some value, options⟩ = .ok op') (init rest : List Bytes)
    (hs : (recorded probe op (script init)).op.state = .awaitingResponse)
    (hcommands : (recorded probe op (script init)).commands.length ≤ 3)
    (hsuff : Sufficient options 1 0 (init ++ rest)) :
    Beside (knows value) { op := op } { op := op' } rest (recorded probe op (script init))
      (recorded probe op' (script init)) := by
  induction init using List.reverseRecOn generalizing rest with
  | nil => exact started_beside h h' rfl (fun _ => rfl) hsuff
  | append_singleton init bytes ih =>
    rw [script_concat, recorded_concat] at hs hcommands ⊢
    rw [recorded_concat]
    have hbefore := awaiting_before hs
    obtain ⟨p, hp⟩ := waits_of_awaiting h hbefore
    obtain ⟨hstage, hcount, hserial⟩ := waits_stage hp
    have hgrow : (recorded probe op (script init)).commands.length ≤ 3 := by
      refine le_trans ?_ hcommands
      simp [Recorded.call]
    have hbeside := ih (bytes :: rest) hbefore hgrow (by simpa using hsuff)
    refine hbeside.step ⟨?_, fun _ => rfl⟩
    intro m r hm hr
    rw [hp.machine] at hm
    cases hm
    apply next_knows
    -- The reply is complete, so that the next command must come before the serial read.
    have hcalls : (Recorded.call probe (recorded probe op (script init)) (.advance bytes)).2 =
        recorded probe op (script init ++ [.advance bytes]) := (recorded_concat ..).symm
    rw [hcalls] at hs hcommands
    obtain ⟨q, hq⟩ := waits_of_awaiting h hs
    obtain ⟨hstage', hcount', _⟩ := waits_stage hq
    have hresponses : (recorded probe op (script init ++ [.advance bytes])).responses.length =
        (recorded probe op (script init)).responses.length + 1 := by
      rw [recorded_concat]
      simp [Recorded.call, answer, handed, hr]
    omega

theorem serialCommand_stage {stage : ℕ} (h : stageCommands[stage]? = some serialCommand) :
    stage = 3 := by
  have hlt := (List.getElem?_eq_some_iff.mp h).1
  have hall : ∀ stage < 7, stageCommands[stage]? = some serialCommand → stage = 3 := by decide
  exact hall stage hlt h

/-- Where the serial read is exposed, three commands are answered but for the last. -/
theorem exposed_turn (h : probeDevice ⟨mode, none, options⟩ = .ok op) {init : List Bytes}
    {last : Bytes} (hbegun : begun probe (recorded probe op (script init)).op (.advance last) =
      some serialCommand) :
    ∃ p p₁ r, Waits ⟨mode, none, options⟩ (recorded probe op (script init)) p ∧
      p.stage = 3 ∧ completed (recorded probe op (script init)).op last = some r ∧
      p.next (some r) = (.ok (.command serialCommand), p₁) ∧ p₁.stage = 4 ∧
      Waits ⟨mode, none, options⟩ (recorded probe op (script (init ++ [last]))) p₁ := by
  have hfollows := recorded_follows probe h (script init)
  obtain ⟨input, m, p₁, k, total, hhanded, hm, hnext, _, _, hcall⟩ :=
    begun_eq_some hfollows.lifecycle hbegun
  obtain ⟨r, hr, rfl⟩ := Option.map_eq_some_iff.mp hhanded
  obtain ⟨p, hp⟩ := waits_of_awaiting h (completed_eq_some.mp hr).1
  have hmachine : m = p := Option.some.inj (hm.symm.trans hp.machine)
  rw [hmachine] at hnext
  obtain ⟨_, _, hserial⟩ := waits_stage hp
  have hstages : p.stage = 3 ∧ p₁.stage = 4 := by
    obtain ⟨q, hq, hproceed⟩ := next_ok hnext
    obtain ⟨⟨hqstage, _, hqserial⟩, _⟩ := received_accepted hq
    have hskip : q.skipSerial = q := by
      rw [Probe.skipSerial, hqserial, hserial]
    rw [hskip] at hproceed
    have hthree := serialCommand_stage (proceed_exposes hproceed).command
    rw [(proceed_exposes hproceed).next]
    exact ⟨by omega, by simp [hthree]⟩
  have hafter : (recorded probe op (script (init ++ [last]))).op.machine = some p₁ ∧
      (recorded probe op (script (init ++ [last]))).op.state = .awaitingResponse := by
    rw [script_concat, recorded_concat]
    simp only [Recorded.call, hcall]
    exact ⟨trivial, trivial⟩
  obtain ⟨p₂, hp₂⟩ := waits_of_awaiting h hafter.2
  have hmachine₂ : p₂ = p₁ := Option.some.inj (hp₂.machine.symm.trans hafter.1)
  rw [hmachine₂] at hp₂
  exact ⟨p, p₁, r, hp, hstages.1, hr, hnext, hstages.2, hp₂⟩

/-- Only pages of one answer lie between two moments with the same responses. -/
theorem waits_same {options : ProbeOptions} {t t' : Recorded Probe Discovered} {p p' : Probe}
    (h : Waits options t p) (h' : Waits options t' p') (hle : t.responses <+: t'.responses)
    (hlength : t'.responses.length = t.responses.length) :
    p' = p ∧ t'.commands = t.commands := by
  have hresponses : t.responses = t'.responses := hle.eq_of_length hlength.symm
  have htrace := h'.trace
  rw [← hresponses] at htrace
  obtain ⟨hcommands, hmachine⟩ := trace_determined h.trace htrace
  exact ⟨hmachine, hcommands⟩

/-- The start of the sequence, up to the serial. -/
theorem opening_commands {options : ProbeOptions} {t : Recorded Probe Discovered} {p : Probe}
    (h : Waits options t p) (hnone : options.observedSerial = none) (hstage : p.stage ≤ 4) :
    t.commands = stageCommands.take p.stage := by
  rw [h.probing.commands, hnone]
  have hposition : position (Option.isSome (none : Option Serial)) p.stage = p.stage := by
    simp [position]
  rw [hposition, fixedSequence]
  cases options.mode with
  | piv => rfl
  | minimal =>
    change (stageCommands.take 4).take p.stage = _
    rw [List.take_take, Nat.min_eq_left hstage]

/-- A probe that knows the serial does what one that reads it does, but for the read. -/
theorem serial_read_skipped (h : probeDevice ⟨mode, none, options⟩ = .ok op)
    (h' : probeDevice ⟨mode, some value, options⟩ = .ok op') {before during after : List Bytes}
    (hread : SerialRead op before during value)
    (hsuff : Sufficient options 1 0 (before ++ during ++ after)) :
    Equivalent (recorded probe op (script (before ++ during ++ after)))
      (recorded probe op' (script (before ++ after))) := by
  obtain ⟨init, last, rfl, hbegun⟩ := hread.exposed
  obtain ⟨init', last', rfl, hthree, hanswer⟩ := hread.answered
  obtain ⟨p, p₁, r, hp, hstage, hr, hnext, hstage₁, hp₁⟩ := exposed_turn h hbegun
  obtain ⟨hcommands, _, hserial⟩ := waits_stage hp
  obtain ⟨_, hresponses₁, _⟩ := waits_stage hp₁
  -- The runs part when the reply to the model read is complete,
  have hbeside := early_beside h h' init ([last] ++ (init' ++ [last']) ++ after)
    (completed_eq_some.mp hr).1 (by omega) (by simpa using hsuff)
  obtain ⟨e, b, hsuff', hop'⟩ := hbeside.op
  have hr' : completed (recorded probe op' (script init)).op last = some r := by
    rw [hop', completed_shifted hbeside.spent hsuff', hr]
  -- and meet again when the serial is.
  have hmid : completed (recorded probe op (script (init ++ [last] ++ init'))).op last' =
      some ⟨value.1, ⟨0x9000⟩⟩ := by
    obtain ⟨d, hd, hsome⟩ := Option.map_eq_some_iff.mp (answer_eq_some.mp hanswer)
    cases hsome
    exact hd
  obtain ⟨m, hm⟩ := waits_of_awaiting h (completed_eq_some.mp hmid).1
  have hscript : script (init ++ [last] ++ init') = script (init ++ [last]) ++ advances init' := by
    simp [script, advances]
  obtain ⟨rfl, hsame⟩ := waits_same hp₁ hm (by rw [hscript]; exact (recorded_longer ..).1)
    (by omega)
  have hfresh : Fresh options (recorded probe op' (script init)).op := by
    rw [hop']
    exact ⟨hp.fresh.output, hp.fresh.progress, hp.fresh.error, hp.fresh.options⟩
  have hmachine : (recorded probe op' (script init)).op.machine = some (knows value p) := by
    rw [hop', shifted, hp.machine]
    rfl
  have hleft : Sufficient options
      (recorded probe op (script (init ++ [last] ++ init'))).op.exchanges
      (recorded probe op (script (init ++ [last] ++ init'))).op.responseBytes ([last'] ++ after) :=
    sufficient_after h (by simpa using hsuff)
  have hright : Sufficient options (recorded probe op' (script init)).op.exchanges
      (recorded probe op' (script init)).op.responseBytes ([last] ++ after) := by
    have hoptions : (recorded probe op (script init)).op.options = options := hp.fresh.options
    rw [hop', ← hoptions]
    exact hsuff'.fewer
  have hswitch := switched_beside (M := probe) hm.fresh hfresh hmid hr' hm.machine hmachine
    (known_takes_place hstage hserial hnext) hleft hright
  rw [← recorded_concat, ← recorded_concat, ← script_concat, ← script_concat] at hswitch
  have hrun := @Beside.run _ _ probe _ _ _ _ after [] (by rw [List.append_nil]; exact hswitch)
  rw [← recorded_more, ← recorded_more] at hrun
  have hlong : script (init ++ [last] ++ (init' ++ [last']) ++ after) =
      script (init ++ [last] ++ init' ++ [last']) ++ advances after := by
    simp [script, advances]
  have hshort : script (init ++ [last] ++ after) = script (init ++ [last]) ++ advances after := by
    simp [script, advances]
  rw [hlong, hshort]
  have hopening : (recorded probe op (script init)).commands = stageCommands.take 3 := by
    rw [opening_commands hp rfl (by omega), hstage]
  have hserialRead : (recorded probe op (script (init ++ [last] ++ init'))).commands =
      stageCommands.take 4 := by
    rw [hsame, opening_commands hp₁ rfl (by omega), hstage₁]
  refine ⟨?_, ?_, hrun.same⟩
  · obtain ⟨late, hlate, hlate'⟩ := hrun.commands
    obtain ⟨early, hearly, hearly'⟩ := hbeside.commands
    rw [List.nil_append] at hearly hearly'
    rw [hlate, hlate', hearly', ← hearly, hopening, hserialRead]
    exact ⟨rfl, rfl⟩
  · obtain ⟨late, hlate, hlate'⟩ := hrun.frames
    obtain ⟨early, hearly, hearly'⟩ := hbeside.frames
    rw [List.nil_append] at hearly hearly'
    have hgrow : script (init ++ [last] ++ init') = script init ++ advances ([last] ++ init') := by
      simp [script, advances]
    obtain ⟨own, hown⟩ := (recorded_longer probe op (script init) (advances ([last] ++ init'))).2
    refine ⟨early, own, late, ?_, ?_⟩
    · rw [hlate, hgrow, ← hown, hearly]
    · rw [hlate', hearly']

/-- The two halves for every mode: knowing the serial saves its read and nothing else, and no run
leaves the fixed sequence. -/
theorem probe_discovery (mode : ProbeMode) (options : OperationOptions) :
    (∀ (value : Serial) (op op' : Operation Probe Discovered) (before during after : List Bytes),
      probeDevice ⟨mode, none, options⟩ = .ok op →
      probeDevice ⟨mode, some value, options⟩ = .ok op' →
      SerialRead op before during value →
      Sufficient options 1 0 (before ++ during ++ after) →
      Equivalent (recorded probe op (script (before ++ during ++ after)))
        (recorded probe op' (script (before ++ after)))) ∧
    ∀ (observed : Option Serial) (op : Operation Probe Discovered) (calls : List Call),
      probeDevice ⟨mode, observed, options⟩ = .ok op →
      Sequenced ⟨mode, observed, options⟩ (recorded probe op calls) := by
  refine ⟨?_, ?_⟩
  · intro value op op' before during after h h' hread hsuff
    exact serial_read_skipped h h' hread hsuff
  · intro observed op calls h
    exact probe_sequenced h calls

def exampleBefore : List Bytes := [[0x90, 0], [0x33, 0x2e, 0x31, 0x2e, 0x30, 0x90, 0], [0x6d, 0]]

def exampleDuring : List Bytes := [[1, 2, 0x61, 2], [3, 4, 0x90, 0]]

def exampleAfter : List Bytes := [[0x90, 0], [5, 4, 0, 0x90, 0], [0x6d, 0]]

/-- Firmware 3.1.0 without a model, whose serial comes in two pages. -/
theorem probe_discovery_pages : ∃ op op',
    probeDevice ⟨.piv, none, {}⟩ = .ok op ∧
      probeDevice ⟨.piv, some ⟨[1, 2, 3, 4], rfl⟩, {}⟩ = .ok op' ∧
      SerialRead op exampleBefore exampleDuring ⟨[1, 2, 3, 4], rfl⟩ ∧
      Equivalent (recorded probe op (script (exampleBefore ++ exampleDuring ++ exampleAfter)))
        (recorded probe op' (script (exampleBefore ++ exampleAfter))) := by
  have hop : probeDevice ⟨.piv, none, {}⟩ = .ok _ := rfl
  have hop' : probeDevice ⟨.piv, some ⟨[1, 2, 3, 4], rfl⟩, {}⟩ = .ok _ := rfl
  have hread (op : Operation Probe Discovered) (h : probeDevice ⟨.piv, none, {}⟩ = .ok op) :
      SerialRead op exampleBefore exampleDuring ⟨[1, 2, 3, 4], rfl⟩ := by
    cases h
    exact ⟨⟨[[0x90, 0], [0x33, 0x2e, 0x31, 0x2e, 0x30, 0x90, 0]], [0x6d, 0], rfl, rfl⟩,
      ⟨[[1, 2, 0x61, 2]], [3, 4, 0x90, 0], rfl, rfl, rfl⟩⟩
  exact ⟨_, _, hop, hop', hread _ hop, (probe_discovery .piv {}).1 _ _ _ _ _ _ hop hop'
    (hread _ hop) ⟨by decide, by decide⟩⟩

end runs

end ProbeSerial
