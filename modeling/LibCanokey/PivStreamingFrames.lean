import LibCanokey.PivAccessOrdering
import LibCanokey.PivStreaming
import LibCanokey.ProtocolFraming

/-! # Streamed signatures on the wire

The frames that carry a message to be signed, those of the outer tag and of the rest of the
template, and how far any run of an operation gets through them. -/
namespace PivStreamingFrames

open BigEndian ListTraversal ProtocolError ProtocolApdu ProtocolApduDecoder ProtocolConversation
open ProtocolSegmentation ProtocolOperation ProtocolTranscript ProtocolFraming ProtocolTlv
open ProtocolTlvFields CompatProfile PivCommand PivAccess PivAccessOrdering
open PivManagement PivManagementAuthentication PivKeys PivPrivate PivStreaming

def streamedFields (input : StreamingSignInput) : List (Bytes × Bytes) :=
  identityField 0x80 input.userId ++ [([0x82], []), ([0x81], input.message)]

/-- The body of the template. -/
def streamedBody (input : StreamingSignInput) : Bytes :=
  (streamedFields input).flatMap fun field => fieldBytes field.1 field.2

/-- The frames of one chained command that carries some data. -/
structure Chain (mode : UInt8) (slot : Slot) (data : Bytes) (ds : List DecodedCommand) : Prop where
  data : ds.flatMap DecodedCommand.data = data
  header : ∀ d ∈ ds, d.header.ins = 0x87 ∧ d.header.p1 = mode ∧ d.header.p2 = slot.reference
  chained : ∀ i d, ds[i]? = some d → i + 1 < ds.length → d.header.cla = 0x10
  last : ∃ d, ds.getLast? = some d ∧ d.header.cla = 0

section template

variable {options : OperationOptions} {input : StreamingSignInput} {template : Bytes}

theorem streamingTemplate_ok (h : streamingTemplate input options = .ok template) :
    template = fieldBytes [0x7c] (streamedBody input) ∧ (streamedBody input).length ≤ 65535 := by
  obtain ⟨_, _, h⟩ := bind_eq_ok.mp h
  obtain ⟨inner, hinner, h⟩ := bind_eq_ok.mp h
  obtain ⟨outer, houter, h⟩ := bind_eq_ok.mp h
  cases h
  obtain ⟨hbody, hlen⟩ := pushTags_appends hinner (by simp)
  have hbody : inner.bytes = streamedBody input := hbody
  obtain ⟨htemplate, _, _⟩ := pushTag_appends houter
  rw [hbody] at htemplate hlen
  have hlimit : (streamedBody input).length ≤ min options.limits.maxInputBytes 65535 := hlen
  exact ⟨htemplate, by omega⟩

end template

section frames

variable {options : OperationOptions} {mode : UInt8} {slot : Slot} {algorithm : Algorithm}
  {template data : Bytes}

/-- The frames of the whole template, or of what follows its tag. -/
theorem streamingCommand_chain {k : ConversationState}
    (h : ConversationState.new (streamingCommand mode slot data) options = .ok k) :
    ∃ ds : List DecodedCommand, k.frames.map (fun f => decode f.bytes) = ds.map some ∧
      Chain mode slot data ds := by
  obtain ⟨le, ds, _, _, hmap, hdec⟩ := new_decoded h
  obtain ⟨last, hlast, hheader, _⟩ := hdec.last
  refine ⟨ds, hmap, hdec.data, ?_, ?_, last, hlast, by rw [hheader]; rfl⟩
  · intro d hd
    obtain ⟨i, hi, rfl⟩ := List.mem_iff_getElem.mp hd
    by_cases hmore : i + 1 < ds.length
    · obtain ⟨hfragment, _⟩ := hdec.fragment i ds[i] (List.getElem?_eq_getElem hi) hmore
      rw [hfragment]
      exact ⟨rfl, rfl, rfl⟩
    · have hi' : i = ds.length - 1 := by omega
      have hsame : ds[i] = last := by
        rw [List.getLast?_eq_getElem?, ← hi', List.getElem?_eq_getElem hi] at hlast
        exact Option.some.inj hlast
      rw [hsame, hheader]
      exact ⟨rfl, rfl, rfl⟩
  · intro i d hd hmore
    obtain ⟨hfragment, _⟩ := hdec.fragment i d hd hmore
    rw [hfragment]
    exact show (0 : UInt8) ||| 0x10 = 0x10 by decide

/-- The frame of the outer tag. -/
theorem prefixCommand_decoded {k : ConversationState}
    (h : ConversationState.new (prefixCommand mode slot) options = .ok k) :
    ∃ f le, k.frames = [f] ∧
      decode f.bytes = some ⟨⟨0x10, 0x87, mode, slot.reference⟩, [0x7c], le⟩ := by
  obtain ⟨le, encoding, cmd, _, hcmd, rfl⟩ := new_single rfl h
  exact ⟨cmd, le, rfl, decode_of_encode hcmd⟩

/-- The chain goes on from the frame of the outer tag. -/
theorem Chain.tagged {ds : List DecodedCommand} (h : Chain mode slot data ds)
    (le : ExpectedLength) :
    Chain mode slot (0x7c :: data) (⟨⟨0x10, 0x87, mode, slot.reference⟩, [0x7c], le⟩ :: ds) := by
  obtain ⟨last, hlast, hcla⟩ := h.last
  refine ⟨?_, ?_, ?_, last, ?_, hcla⟩
  · rw [List.flatMap_cons, h.data]
    rfl
  · intro d hd
    rcases List.mem_cons.mp hd with rfl | hd
    · exact ⟨rfl, rfl, rfl⟩
    · exact h.header d hd
  · intro i d hd hmore
    cases i with
    | zero =>
      cases hd
      rfl
    | succ i => exact h.chained i d hd (by simpa using hmore)
  · rw [List.getLast?_cons, hlast]
    rfl

end frames

/-! ## The machine -/

section machine

variable {initial : Option LogicalCommand} {command : LogicalCommand}
  {parse : ResponseData → Except Error Signature}

/-- A machine that is ready to send an optional first command and another one. -/
def prepared (initial : Option LogicalCommand) (command : LogicalCommand)
    (parse : ResponseData → Except Error Signature) : StreamingMachine :=
  ⟨initial, false, [request command .command none], none, some parse⟩

/-- Where the machine stands. -/
inductive Streaming (initial : Option LogicalCommand) (command : LogicalCommand)
    (parse : ResponseData → Except Error Signature) :
    List LogicalCommand → List ResponseData → StreamingMachine → Prop where
  | tagged {first : LogicalCommand} (hfirst : initial = some first) :
      Streaming initial command parse [first] []
        ⟨none, true, [request command .command none], none, some parse⟩
  | sent : Streaming initial command parse (initial.toList ++ [command])
      (initial.toList.map fun _ => ⟨[], ⟨0x9000⟩⟩)
      ⟨none, false, [], some (.command, none), some parse⟩

theorem acknowledged_ok {r : ResponseData} {u : Unit} (h : acknowledged (some r) = .ok u) :
    r = ⟨[], ⟨0x9000⟩⟩ := by
  obtain ⟨_, hs, h⟩ := bind_eq_ok.mp h
  by_cases hdata : r.data = []
  · have hsuccess := ensureSuccess_eq_ok.mp hs
    obtain ⟨data, ⟨raw⟩⟩ := r
    have hraw : raw = 0x9000 := by simpa [StatusWord.isSuccess] using hsuccess
    rw [show data = [] from hdata, hraw]
  · rw [if_pos hdata] at h
    cases h

/-- A turn of a machine that sent its first command. -/
theorem tagged_next {first : LogicalCommand} {r : ResponseData} {action : Action Signature}
    {m : StreamingMachine} (hfirst : initial = some first)
    (h : streaming.next ⟨none, true, [request command .command none], none, some parse⟩ (some r) =
      (.ok action, m)) :
    action = .command command ∧
      Streaming initial command parse (initial.toList ++ [command]) [r] m := by
  simp only [streaming, StreamingMachine.next, if_true] at h
  cases ha : acknowledged (some r) with
  | error e =>
    rw [ha] at h
    cases h
  | ok u =>
    rw [ha] at h
    cases h
    obtain rfl := acknowledged_ok ha
    have hsent := @Streaming.sent initial command parse
    rw [hfirst] at hsent ⊢
    exact ⟨rfl, hsent⟩

/-- After its last command the machine only has a result. -/
theorem sent_next {r : ResponseData} {action : Action Signature} {m : StreamingMachine}
    (h : streaming.next ⟨none, false, [], some (.command, none), some parse⟩ (some r) =
      (.ok action, m)) : ∃ value, action = .done value := by
  obtain ⟨hr, _⟩ := Prod.mk.inj h
  obtain ⟨value, _, hvalue⟩ := map_eq_ok.mp hr
  exact ⟨value, hvalue.symm⟩

theorem streaming_trace {own : List LogicalCommand} {given : List ResponseData}
    {m : StreamingMachine} (h : Trace streaming (prepared initial command parse) own given m) :
    Streaming initial command parse own given m := by
  induction h with
  | opened h =>
    cases initial with
    | none =>
      cases h
      exact .sent
    | some first =>
      cases h
      exact .tagged rfl
  | answered ht h ih =>
    cases ih with
    | tagged hfirst =>
      obtain ⟨hc, hsent⟩ := tagged_next hfirst h
      cases hc
      subst hfirst
      exact hsent
    | sent =>
      obtain ⟨value, hvalue⟩ := sent_next h
      cases hvalue

/-- A machine with a result has sent its commands. -/
theorem streaming_done {own : List LogicalCommand} {given : List ResponseData}
    {m : StreamingMachine} {value : Signature}
    (h : LastTurn streaming (prepared initial command parse) (.ok (.done value)) own given m) :
    own = initial.toList ++ [command] ∧
      (initial.toList.map fun _ => (⟨[], ⟨0x9000⟩⟩ : ResponseData)) <+: given := by
  cases h with
  | opening h =>
    cases initial with
    | none => cases h
    | some first => cases h
  | answering ht h =>
    cases streaming_trace ht with
    | tagged hfirst =>
      obtain ⟨hc, _⟩ := tagged_next hfirst h
      cases hc
    | sent => exact ⟨rfl, List.prefix_append _ _⟩

end machine

/-! ## The frames of a run -/

/-- The frames of a prepared machine. -/
inductive Wire (options : OperationOptions) (command : LogicalCommand) :
    Option LogicalCommand → List CommandApdu → Prop where
  | whole {k : ConversationState} (hk : ConversationState.new command options = .ok k) :
      Wire options command none k.frames
  | tagged {first : LogicalCommand} {k₀ k : ConversationState} {f : CommandApdu}
      (hfirst : ConversationState.new first options = .ok k₀) (hf : k₀.frames = [f])
      (hcorrect : first.correctLe = false) (hcont : first.continuation = .none)
      (hk : ConversationState.new command options = .ok k) :
      Wire options command (some first) (f :: k.frames)

/-- The frames in order, or all of them and requests for the rest of the answer. -/
def InOrder (frames target : List CommandApdu) : Prop :=
  target <+: frames ∨ ∃ rest, target = frames ++ rest ∧ ∀ f ∈ rest, Requests (.iso7816 0) f

section run

variable {options : OperationOptions} {initial : Option LogicalCommand} {command : LogicalCommand}
  {frames fs : List CommandApdu} {pre : List LogicalCommand} {current : Option ConversationState}

theorem tagged_shown {first : LogicalCommand} (h : Wire options command (some first) frames)
    (hshown : Shown options (pre ++ [first]) fs current) :
    ∃ before f k, fs = before ++ [f] ∧ Shown options pre before k ∧ [f] <+: frames := by
  cases h with
  | @tagged _ k₀ k f hfirst hf hcorrect hcont hk =>
    obtain ⟨before, gs, earlier, k', rfl, hbefore, hshowing, _⟩ := shown_concat hshown
    obtain ⟨k₁, hnew, hsent⟩ := showing_sent hcorrect hshowing
    cases hfirst.symm.trans hnew
    rw [hf, hcont] at hsent
    obtain rfl := sent_single hsent (showing_ne_nil hshowing)
    exact ⟨before, f, earlier, rfl, hbefore, ⟨k.frames, rfl⟩⟩

theorem whole_shown (hcorrect : command.correctLe = false)
    (hcont : command.continuation = .iso7816 0) {k : ConversationState}
    (hk : ConversationState.new command options = .ok k)
    (hshown : Shown options (pre ++ [command]) fs current) :
    ∃ before target earlier, fs = before ++ target ∧ Shown options pre before earlier ∧
      InOrder k.frames target ∧
      ∀ k', current = some k' → k'.pending = [] → k.frames <+: target := by
  obtain ⟨before, target, earlier, k', rfl, hbefore, hshowing, rfl⟩ := shown_concat hshown
  obtain ⟨k₁, hnew, hsent⟩ := showing_sent hcorrect hshowing
  cases hk.symm.trans hnew
  rw [hcont] at hsent
  refine ⟨before, target, earlier, rfl, hbefore, hsent.shown, ?_⟩
  intro k₂ hsame hp
  cases hsame
  obtain ⟨rest, rfl, _⟩ := hsent.all hp
  exact List.prefix_append _ _

/-- What is shown for both commands. -/
theorem wire_shown (hcorrect : command.correctLe = false)
    (hcont : command.continuation = .iso7816 0) (h : Wire options command initial frames)
    (hshown : Shown options (pre ++ (initial.toList ++ [command])) fs current) :
    ∃ before target earlier, fs = before ++ target ∧ Shown options pre before earlier ∧
      InOrder frames target ∧
      ∀ k, current = some k → k.pending = [] → frames <+: target := by
  cases h with
  | whole hk => exact whole_shown hcorrect hcont hk hshown
  | @tagged first k₀ k f hfirst hf hcorrect' hcont' hk =>
    have hboth : pre ++ ((some first).toList ++ [command]) = (pre ++ [first]) ++ [command] := by
      rw [Option.toList_some, List.append_assoc]
    rw [hboth] at hshown
    obtain ⟨front, target, earlier, rfl, hfront, horder, hall⟩ :=
      whole_shown hcorrect hcont hk hshown
    obtain ⟨before, f', k₁, rfl, hbefore, hpre⟩ :=
      tagged_shown (.tagged hfirst hf hcorrect' hcont' hk) hfront
    obtain rfl : f' = f := by
      obtain ⟨rest, hrest⟩ := hpre
      exact (List.cons.inj hrest).1
    refine ⟨before, f' :: target, k₁, ?_, hbefore, ?_, ?_⟩
    · rw [List.append_assoc]
      rfl
    · rcases horder with horder | ⟨rest, rfl, hrest⟩
      · exact Or.inl ((List.prefix_cons_inj f').mpr horder)
      · exact Or.inr ⟨rest, rfl, hrest⟩
    · intro k' hk' hp
      exact (List.prefix_cons_inj f').mpr (hall k' hk' hp)

end run

section preparation

variable {der : EcDer} {profile : DeviceProfile} {slot : Slot} {input : StreamingSignInput}
  {options : OperationOptions} {m₀ : StreamingMachine}

/-- Streaming needs newer firmware than an explicit Le does. -/
theorem streaming_modern {algorithm : Algorithm} {u : Unit}
    (h : (profile.streamingSigningSupport algorithm).require = .ok u) :
    profile.legacyExplicitLe = false := by
  have hrange : (profile.firmwareRange ⟨3, 1, 0⟩ ⟨3, 1, 0⟩).support = .supported := by
    have hsupport := require_eq_ok.mp h
    by_contra hne
    rw [DeviceProfile.streamingSigningSupport] at hsupport
    by_cases hother : algorithm ≠ .mlDsa65 ∧ algorithm ≠ .ed25519 ∧ algorithm ≠ .sm2
    · rw [if_pos hother] at hsupport
      cases hsupport
    · rw [if_neg hother] at hsupport
      dsimp only at hsupport
      rw [if_pos hne] at hsupport
      exact hne hsupport
  cases hbase : profile.base with
  | none =>
    simp only [DeviceProfile.firmwareRange, hbase] at hrange
    cases hrange
  | some v =>
    simp only [DeviceProfile.legacyExplicitLe, DeviceProfile.firmwareRange, hbase] at hrange ⊢
    by_cases hknown : v.recognized = true
    · rw [if_pos hknown] at hrange ⊢
      have hle : Version.le ⟨3, 1, 0⟩ v = true := by
        by_contra hnot
        simp [hnot] at hrange
      have hnewer : v.le ⟨3, 0, 3⟩ = false := by
        simp only [Version.le, Bool.or_eq_true, Bool.and_eq_true, decide_eq_true_eq, beq_iff_eq,
          Bool.or_eq_false_iff, Bool.and_eq_false_iff, decide_eq_false_iff_not,
          beq_eq_false_iff_ne] at hle ⊢
        omega
      rw [hnewer]
      simp
    · rw [if_neg hknown] at hrange
      cases hrange

/-- A prepared machine with its frames. -/
structure Sends (profile : DeviceProfile) (slot : Slot) (input : StreamingSignInput)
    (options : OperationOptions) (m₀ : StreamingMachine) (frames : List CommandApdu)
    (ds : List DecodedCommand) : Prop where
  decoded : frames.map (fun f => decode f.bytes) = ds.map some
  mode : ∃ id, keyId profile slot input.algorithm = .ok id ∧
    Chain (wireMode input.algorithm id) slot (fieldBytes [0x7c] (streamedBody input)) ds ∧
    (input.algorithm = .sm2 → 1 < ds.length ∧
      ∃ le, ds.head? = some ⟨⟨0x10, 0x87, id, slot.reference⟩, [0x7c], le⟩)
  body : (streamedBody input).length ≤ 65535
  modern : profile.legacyExplicitLe = false
  machine : ∃ initial command parse, m₀ = prepared initial command parse ∧
    Wire options command initial frames ∧ command.correctLe = false ∧
    command.continuation = .iso7816 0 ∧ (input.algorithm = .sm2 → initial.isSome = true)

theorem prepareSignStreaming_sends (h : prepareSignStreaming der profile slot input options =
    .ok m₀) : ∃ frames ds, Sends profile slot input options m₀ frames ds := by
  obtain ⟨_, _, h⟩ := bind_eq_ok.mp h
  obtain ⟨_, hsupport, h⟩ := bind_eq_ok.mp h
  obtain ⟨id, hid, h⟩ := bind_eq_ok.mp h
  by_cases hlong : input.inputLen > min options.limits.maxInputBytes maxStreamingMessage
  · rw [if_pos hlong] at h
    cases h
  rw [if_neg hlong] at h
  obtain ⟨template, htemplate, h⟩ := bind_eq_ok.mp h
  obtain ⟨initial, hinitial, h⟩ := bind_eq_ok.mp h
  obtain ⟨target, htarget, h⟩ := bind_eq_ok.mp h
  cases h
  obtain ⟨rfl, hbody⟩ := streamingTemplate_ok htemplate
  obtain ⟨hvalidate, rfl⟩ := prepare_eq_ok.mp htarget
  obtain ⟨_, k, hk⟩ := validateCommand_eq_ok.mp hvalidate
  obtain ⟨ds, hmap, hchain⟩ := streamingCommand_chain hk
  have hmodern := streaming_modern hsupport
  by_cases hsm2 : input.algorithm = .sm2
  · rw [streamingPrefix, if_pos hsm2] at hinitial
    obtain ⟨_, hfirst, hinitial⟩ := bind_eq_ok.mp hinitial
    cases hinitial
    obtain ⟨_, k₀, hk₀⟩ := validateCommand_eq_ok.mp hfirst
    obtain ⟨f, le, hf, hd⟩ := prefixCommand_decoded hk₀
    rw [remainingTemplate, if_pos hsm2] at hchain
    have hmode : wireMode input.algorithm id = id := by
      rw [wireMode, hsm2]
      rfl
    obtain ⟨last, hlast, _⟩ := hchain.last
    have hne : ds ≠ [] := by
      rintro rfl
      cases hlast
    refine ⟨f :: k.frames,
      ⟨⟨0x10, 0x87, wireMode input.algorithm id, slot.reference⟩, [0x7c], le⟩ :: ds, ?_,
      ⟨id, hid, hchain.tagged le, ?_⟩, hbody, hmodern, some _, _, _, rfl,
      .tagged hk₀ hf rfl rfl hk, rfl, rfl, fun _ => rfl⟩
    · rw [List.map_cons, List.map_cons, hmap, hd]
    · intro _
      rw [hmode]
      refine ⟨?_, le, rfl⟩
      rw [List.length_cons]
      have hpos := List.length_pos_iff.mpr hne
      omega
  · rw [streamingPrefix, if_neg hsm2] at hinitial
    cases hinitial
    rw [remainingTemplate, if_neg hsm2] at hchain
    refine ⟨k.frames, ds, hmap, ⟨id, hid, hchain, fun h => absurd h hsm2⟩, hbody, hmodern, none, _,
      _, rfl, .whole hk, rfl, rfl, fun h => absurd h hsm2⟩

end preparation

/-! ## Every run -/

/-- What an operation has shown of the frames of its target. -/
structure Streamed (cipher : BlockCipher) (access : Access) (options : OperationOptions)
    (algorithm : Algorithm) (frames : List CommandApdu)
    (s : Recorded (Selected StreamingMachine) Signature) : Prop where
  shown : ∃ pre full answers before target current, Preamble cipher access full answers ∧
    pre <+: full ∧ Shown options pre before current ∧ s.frames = before ++ target ∧
    (target ≠ [] → pre = full ∧ answers <+: s.responses) ∧
    InOrder frames target ∧
    (algorithm = .sm2 → 1 < target.length → answers ++ [⟨[], ⟨0x9000⟩⟩] <+: s.responses) ∧
    (s.op.state = .completed ∨ s.op.state = .resultTaken → frames <+: target)

section runs

variable {cipher : BlockCipher} {der : EcDer} {profile : DeviceProfile} {slot : Slot}
  {input : StreamingSignInput} {access : Access} {options : OperationOptions}
  {m₀ : StreamingMachine} {frames : List CommandApdu} {ds : List DecodedCommand}
  {s : Recorded (Selected StreamingMachine) Signature}

theorem explicitLe_modern : explicitLe false = id := by
  funext c
  rw [explicitLe, if_neg (by simp)]
  rfl

/-- A run that is not finished, from what it has exposed. -/
theorem streamed_unfinished {history : List (Call × Reply Signature)}
    (hsends : Sends profile slot input options m₀ frames ds)
    (hf : Follows (selectedMachine cipher streaming) (.new false access m₀) options history s)
    (hs : ¬ (s.op.state = .completed ∨ s.op.state = .resultTaken)) :
    Streamed cipher access options input.algorithm frames s := by
  obtain ⟨initial, command, parse, rfl, hwire, hcorrect, hcont, hsm2⟩ := hsends.machine
  obtain ⟨pre, own, hcs, ⟨full, answers, hp, hpre⟩, hown⟩ := follows_commands hf
  rw [explicitLe_modern, List.map_id] at hcs
  obtain ⟨current, hshown, _⟩ := hf.shown
  by_cases hnil : own = []
  · subst hnil
    rw [List.append_nil] at hcs
    rw [hcs] at hshown
    refine ⟨pre, full, answers, s.frames, [], current, hp, hpre, hshown, by simp, ?_, ?_, ?_, ?_⟩
    · intro hne
      exact absurd rfl hne
    · exact Or.inl List.nil_prefix
    · intro _ hlen
      simp at hlen
    · intro hfinished
      exact absurd hfinished hs
  · obtain ⟨_, answers, given, t, hp, hgiven, ht⟩ := hown hnil
    have hanswers : answers <+: s.responses := (List.prefix_append _ _).trans hgiven
    rw [hcs] at hshown
    cases streaming_trace ht with
    | tagged hfirst =>
      subst hfirst
      obtain ⟨before, f, earlier, hframes, hbefore, horder⟩ := tagged_shown hwire hshown
      refine ⟨pre, pre, answers, before, [f], earlier, hp, List.prefix_rfl, hbefore, hframes,
        fun _ => ⟨rfl, hanswers⟩, Or.inl horder, ?_, fun hfinished => absurd hfinished hs⟩
      intro _ hlen
      simp at hlen
    | sent =>
      obtain ⟨before, target, earlier, hframes, hbefore, horder, _⟩ :=
        wire_shown hcorrect hcont hwire hshown
      refine ⟨pre, pre, answers, before, target, earlier, hp, List.prefix_rfl, hbefore, hframes,
        fun _ => ⟨rfl, hanswers⟩, horder, ?_, fun hfinished => absurd hfinished hs⟩
      intro halgorithm _
      obtain ⟨first, rfl⟩ := Option.isSome_iff_exists.mp (hsm2 halgorithm)
      exact hgiven

theorem streamed_finished {history : List (Call × Reply Signature)}
    (hsends : Sends profile slot input options m₀ frames ds)
    (hf : Follows (selectedMachine cipher streaming) (.new false access m₀) options history s)
    (hs : s.op.state = .completed ∨ s.op.state = .resultTaken)
    (hlast : s.commands ≠ [] → ∃ k, Shown options s.commands s.frames (some k) ∧ k.pending = []) :
    Streamed cipher access options input.algorithm frames s := by
  obtain ⟨initial, command, parse, rfl, hwire, hcorrect, hcont, hsm2⟩ := hsends.machine
  obtain ⟨m, value, ht, _⟩ := hf.standing.of_finished hs
  obtain ⟨pre, own, answers, given, hp, hcs, hrs, htarget⟩ := selected_done ht
  obtain ⟨rfl, hacknowledged⟩ := streaming_done htarget
  rw [explicitLe_modern, List.map_id] at hcs
  obtain ⟨k, hshown, hpending⟩ := hlast (by rw [hcs]; simp)
  rw [hcs] at hshown
  obtain ⟨before, target, earlier, hframes, hbefore, horder, hall⟩ :=
    wire_shown hcorrect hcont hwire hshown
  refine ⟨pre, pre, answers, before, target, earlier, hp, List.prefix_rfl, hbefore, hframes, ?_,
    horder, ?_, ?_⟩
  · intro _
    rw [hrs]
    exact ⟨rfl, List.prefix_append _ _⟩
  · intro halgorithm _
    obtain ⟨first, rfl⟩ := Option.isSome_iff_exists.mp (hsm2 halgorithm)
    rw [hrs]
    exact (List.prefix_append_right_inj answers).mpr hacknowledged
  · intro _
    exact hall k rfl hpending

end runs

/-- A streamed message goes over the wire once and as a whole. -/
theorem streaming_sends_message (cipher : BlockCipher) {der : EcDer} {profile : DeviceProfile}
    {slot : Slot} {input : StreamingSignInput} {access : Access} {options : OperationOptions}
    {op : Operation (Selected StreamingMachine) Signature}
    (h : signStreaming der profile slot input access options = .ok op) :
    ∃ id frames, ∃ ds : List DecodedCommand, keyId profile slot input.algorithm = .ok id ∧
      frames.map (fun f => decode f.bytes) = ds.map some ∧
      Chain (wireMode input.algorithm id) slot (fieldBytes [0x7c] (streamedBody input)) ds ∧
      (streamedBody input).length ≤ 65535 ∧
      (input.algorithm = .sm2 → 1 < ds.length ∧
        ∃ le, ds.head? = some ⟨⟨0x10, 0x87, id, slot.reference⟩, [0x7c], le⟩) ∧
      ∀ calls, Streamed cipher access options input.algorithm frames
        (recorded (selectedMachine cipher streaming) op calls) := by
  obtain ⟨m₀, hm₀, h⟩ := bind_eq_ok.mp h
  obtain ⟨frames, ds, hsends⟩ := prepareSignStreaming_sends hm₀
  obtain ⟨id, hid, hchain, hfirst⟩ := hsends.mode
  refine ⟨id, frames, ds, hid, hsends.decoded, hchain, hsends.body, hfirst, ?_⟩
  intro calls
  obtain ⟨_, hop⟩ := withAccess_eq_ok.mp h
  rw [hsends.modern] at hop
  have hf := recorded_follows (selectedMachine cipher streaming) hop calls
  by_cases hs : (recorded (selectedMachine cipher streaming) op calls).op.state = .completed ∨
    (recorded (selectedMachine cipher streaming) op calls).op.state = .resultTaken
  · exact streamed_finished hsends hf hs (finished_shown hop hs)
  · exact streamed_unfinished hsends hf hs

/-- A configuration of 3.1, with the identifier 54 for SM2. -/
def sm2Configuration : Bytes := [1, 0xe0, 0x05, 0x16, 0xe1, 0x53, 0x15, 0x54, 0xe2, 0xe3]

/-- A 3.1.0 device whose configuration was read. -/
def sm2Profile : DeviceProfile :=
  { exampleProfile with config := (AlgorithmConfig.parse sm2Configuration).toOption }

/-- An SM2 signature is not converted when it is asked for. -/
def noDer : EcDer := ⟨fun _ => none, fun _ => none, fun _ => none⟩

def longMessage : Bytes := List.replicate 600 7

set_option maxRecDepth 4000 in
/-- A message of 600 bytes under SM2: the outer tag alone, then its length with both fields in three
frames of one chain. -/
theorem streaming_sends_message_long : ∃ config op,
    AlgorithmConfig.parse sm2Configuration = .ok config ∧ sm2Profile.config = some config ∧
      signStreaming noDer sm2Profile .authentication (.sm2 longMessage none) .existing {} =
        .ok op ∧
      (recorded (selectedMachine exampleCipher streaming) op
        (.start :: List.replicate 3 (.advance [0x90, 0]))).frames.map (fun f => f.bytes.take 8) =
          [[0x10, 0x87, 0x54, 0x9a, 1, 0x7c],
            [0x10, 0x87, 0x54, 0x9a, 255, 0x82, 0x02, 0x5e],
            [0x10, 0x87, 0x54, 0x9a, 255, 7, 7, 7], [0, 0x87, 0x54, 0x9a, 99, 7, 7, 7]] ∧
      ∃ frames, Streamed exampleCipher .existing {} .sm2 frames
        (recorded (selectedMachine exampleCipher streaming) op
          (.start :: List.replicate 3 (.advance [0x90, 0]))) := by
  have hparse : AlgorithmConfig.parse sm2Configuration = .ok _ := rfl
  have h : signStreaming noDer sm2Profile .authentication (.sm2 longMessage none) .existing {} =
      .ok _ := rfl
  obtain ⟨id, frames, ds, _, _, _, _, _, hruns⟩ := streaming_sends_message exampleCipher h
  exact ⟨_, _, hparse, rfl, h, rfl, frames, hruns _⟩

end PivStreamingFrames
