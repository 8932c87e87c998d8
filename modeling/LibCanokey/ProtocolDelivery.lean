import LibCanokey.ProtocolSession

/-! # What a card has been given

The physical frames of any run, whatever they were answered, collected by a card. Its applet
has performed the logical commands in order, all of them but possibly the one still open. -/
namespace ProtocolDelivery

open BigEndian ListTraversal ProtocolError ProtocolApdu ProtocolApduDecoder
open ProtocolConversation ProtocolSegmentation ProtocolExposure ProtocolOperation
open ProtocolTranscript ProtocolSession ScriptedRuns

variable {σ T κ : Type*}

/-- The card after some frames. -/
def delivered (A : Applet κ) (card : Card κ) (frames : List CommandApdu) : Card κ :=
  frames.foldl (fun card frame => (card.exchange A frame.bytes).2) card

/-- The applet after some commands. -/
def performed (A : Applet κ) (a : κ) (cs : List LogicalCommand) : κ :=
  cs.foldl (fun a c => (A a ⟨c.header, c.data, c.le⟩).2) a

/-- A command that a card collects and hands to its applet as it is. -/
structure Relayed (c : LogicalCommand) : Prop where
  header : c.header.cla &&& 0x10 = 0 ∧ c.header.ins ≠ 0xc0
  correct : c.correctLe = false
  continuation : ∃ cla, c.continuation = .iso7816 cla ∧ cla &&& 0x10 = 0

theorem delivered_concat (A : Applet κ) (card : Card κ) (frames : List CommandApdu)
    (frame : CommandApdu) : delivered A card (frames ++ [frame]) =
      ((delivered A card frames).exchange A frame.bytes).2 := by
  simp [delivered]

theorem performed_concat (A : Applet κ) (a : κ) (cs : List LogicalCommand) (c : LogicalCommand) :
    performed A a (cs ++ [c]) = (A (performed A a cs) ⟨c.header, c.data, c.le⟩).2 := by
  simp [performed]

/-- The frames of an open conversation still to come after the current one, and the card that
was given the frames up to it: it collects, or its applet has performed the command. -/
inductive Open (A : Applet κ) (a : κ) (c : LogicalCommand) (k : ConversationState)
    (card : Card κ) : Prop where
  | collecting (init : List DecodedCommand) (last : DecodedCommand)
      (hinit : ∀ d ∈ init, d.header.cla &&& 0x10 ≠ 0)
      (hlast : last.header = c.header ∧ last.le = c.le)
      (hpending : k.pending.map (fun f => decode f.bytes) = (init ++ [last]).map some)
      (hdata : card.pending ++ (init ++ [last]).flatMap DecodedCommand.data = c.data)
      (hcard : card.applet = a)
  | performed (hpending : k.pending = []) (hcard : card.pending = [])
      (happlet : card.applet = (A a ⟨c.header, c.data, c.le⟩).2)
      (hcurrent : k.correctLe = true → Encoded k.current ∧
        IsContinuation c.continuation k.current)

section conversation

variable {A : Applet κ} {a : κ} {c : LogicalCommand} {k k' : ConversationState} {card : Card κ}

theorem exchange_chained {frame : CommandApdu} {d : DecodedCommand}
    (hd : decode frame.bytes = some d) (hchain : d.header.cla &&& 0x10 ≠ 0) :
    (card.exchange A frame.bytes).2 =
      { card with pending := card.pending ++ d.data, rest := [] } := by
  simp only [Card.exchange, hd]
  rw [if_pos hchain]

theorem page_applet (card : Card κ) (le : ℕ) :
    (card.page le).2.applet = card.applet ∧ (card.page le).2.pending = card.pending := by
  rw [Card.page]
  split_ifs <;> exact ⟨rfl, rfl⟩

/-- The last frame of a command hands the command to the applet. -/
theorem exchange_last (hc : Relayed c) {frame : CommandApdu} {d : DecodedCommand}
    (hd : decode frame.bytes = some d) (hlast : d.header = c.header ∧ d.le = c.le)
    (hdata : card.pending ++ d.data = c.data) :
    (card.exchange A frame.bytes).2.applet = (A card.applet ⟨c.header, c.data, c.le⟩).2 ∧
      (card.exchange A frame.bytes).2.pending = [] := by
  obtain ⟨header, data, le⟩ := d
  obtain ⟨rfl, rfl⟩ := hlast
  simp only [Card.exchange, hd]
  rw [if_neg (not_not.mpr hc.header.1), if_neg hc.header.2, hdata]
  exact page_applet _ _

theorem exchange_continuation {continuation : Continuation}
    (hcont : ∃ cla, continuation = .iso7816 cla ∧ cla &&& 0x10 = 0) {frame : CommandApdu}
    (h : IsContinuation continuation frame) :
    (card.exchange A frame.bytes).2.applet = card.applet ∧
      (card.exchange A frame.bytes).2.pending = card.pending := by
  obtain ⟨cla, rfl, hcla⟩ := hcont
  obtain ⟨n, hn⟩ := h
  simp only [Card.exchange, hn]
  rw [if_neg (not_not.mpr hcla), if_pos trivial]
  exact page_applet _ _

/-- One more frame of a collected command. -/
theorem collect (hc : Relayed c) {init : List DecodedCommand} {last : DecodedCommand}
    (hinit : ∀ d ∈ init, d.header.cla &&& 0x10 ≠ 0)
    (hlast : last.header = c.header ∧ last.le = c.le)
    (hframes : k.frames.map (fun f => decode f.bytes) = (init ++ [last]).map some)
    (hdata : card.pending ++ (init ++ [last]).flatMap DecodedCommand.data = c.data)
    (hcard : card.applet = a) (hcorrect : k.correctLe = false) :
    Open A a c k (card.exchange A k.current.bytes).2 := by
  cases init with
  | nil =>
    simp only [ConversationState.frames, List.map_cons, List.nil_append, List.map_nil,
      List.cons.injEq, List.map_eq_nil_iff] at hframes
    simp only [List.nil_append, List.flatMap_cons, List.flatMap_nil, List.append_nil] at hdata
    obtain ⟨happ, hpend⟩ := exchange_last (A := A) hc hframes.1 hlast hdata
    rw [hcard] at happ
    refine .performed hframes.2 hpend happ ?_
    intro hle
    rw [hcorrect] at hle
    cases hle
  | cons d init =>
    simp only [ConversationState.frames, List.map_cons, List.cons_append, List.cons.injEq]
      at hframes
    rw [exchange_chained hframes.1 (hinit d List.mem_cons_self)]
    refine .collecting init last (fun d' hd' => hinit d' (List.mem_cons_of_mem _ hd')) hlast
      hframes.2 ?_ hcard
    rw [List.cons_append, List.flatMap_cons, ← List.append_assoc] at hdata
    exact hdata

/-- The first frame of a command goes to a card that collects nothing. -/
theorem open_first {options : OperationOptions} (hc : Relayed c)
    (hnew : ConversationState.new c options = .ok k) (hpend : card.pending = [])
    (hcard : card.applet = a) : Open A a c k (card.exchange A k.current.bytes).2 := by
  obtain ⟨le, cmds, hrange, hclamp, hmap, hdec⟩ := new_decoded hnew
  have hle : le = c.le := by
    rcases clampLe_eq_ok hrange hclamp with ⟨hle, _⟩ | ⟨_, _, hcor, _⟩
    · exact hle
    · rw [hc.correct] at hcor
      cases hcor
  subst hle
  obtain ⟨init, last, rfl, hinit, hheader, hle⟩ := hdec.split
  have hcorrect : k.correctLe = false := by
    rw [new_initial hnew]
    exact hc.correct
  refine collect hc hinit ⟨hheader, hle⟩ hmap ?_ hcard hcorrect
  rw [hpend, List.nil_append]
  exact hdec.data

/-- A conversation that goes on keeps its command open. -/
theorem open_goes {options : OperationOptions} (hc : Relayed c)
    (hk : k.continuation = c.continuation) (hcorrect : k.pending ≠ [] → k.correctLe = false)
    (h : Open A a c k card) {r : ResponseApdu} (hgo : Goes options k r k') :
    Open A a c k' (card.exchange A k'.current.bytes).2 := by
  cases h with
  | collecting init last hinit hlast hpending hdata hcard =>
    have hne : k.pending ≠ [] := by
      intro hnil
      rw [hnil] at hpending
      simp at hpending
    cases hgo with
    | acknowledged next rest hp hr =>
      rw [hp] at hpending
      exact collect hc hinit hlast hpending hdata hcard (hcorrect hne)
    | corrected _ _ _ hp => exact absurd hp hne
    | sentRemaining _ _ _ hp => exact absurd hp hne
    | gotResponse _ _ hp => exact absurd hp hne
  | performed hpending hcard happlet hcurrent =>
    have hcont : ∀ k' : ConversationState, k'.pending = [] → Encoded k'.current →
        IsContinuation c.continuation k'.current →
        Open A a c k' (card.exchange A k'.current.bytes).2 := by
      intro k' hp henc hcont
      obtain ⟨happ, hpend⟩ := @exchange_continuation _ A card _ hc.continuation _ hcont
      exact .performed hp (hpend.trans hcard) (happ.trans happlet) fun _ => ⟨henc, hcont⟩
    cases hgo with
    | acknowledged next rest hp =>
      rw [hpending] at hp
      cases hp
    | corrected current hsw hle hp _ hfit hcur hlen =>
      obtain ⟨henc, hiscont⟩ := hcurrent hle
      obtain ⟨henc', d, hd, hd'⟩ := henc.corrected hcur
      refine hcont _ hpending henc' ?_
      obtain ⟨cla, hiso, _⟩ := hc.continuation
      rw [hiso] at hiscont ⊢
      obtain ⟨n, hn⟩ := hiscont
      cases hd.symm.trans hn
      exact ⟨_, hd'⟩
    | sentRemaining i probe current hp hoath =>
      obtain ⟨cla, hiso, _⟩ := hc.continuation
      rw [hk, hiso] at hoath
      cases hoath
    | gotResponse cla current hp hiso hsw hd hcur =>
      refine hcont _ hpending ⟨_, _, _, _, hcur⟩ ?_
      rw [← hk, hiso]
      exact ⟨_, decode_of_encode hcur⟩

theorem goes_keeps {options : OperationOptions} (hk : k.continuation = c.continuation)
    (hcorrect : k.pending ≠ [] → k.correctLe = false) {r : ResponseApdu}
    (hgo : Goes options k r k') :
    k'.continuation = c.continuation ∧ (k'.pending ≠ [] → k'.correctLe = false) := by
  cases hgo with
  | corrected _ _ _ hp => exact ⟨hk, fun h => absurd hp h⟩
  | acknowledged next rest hp => exact ⟨hk, fun _ => hcorrect (by rw [hp]; simp)⟩
  | sentRemaining _ _ _ hp => exact ⟨hk, fun _ => rfl⟩
  | gotResponse _ _ hp => exact ⟨hk, fun h => absurd hp h⟩

end conversation

/-- The exchanges that a command of so many frames and an answer of so many bytes take. -/
def exchangesOf (options : OperationOptions) (c : LogicalCommand) (answer : ℕ) : ℕ :=
  (match ConversationState.new c options with
    | .ok k => k.frames.length
    | .error _ => 0) +
    divCeil (answer - 256) (min 256 (options.exchange.maxResponseBytes - 2))

/-- An accepted command without Le is answered. -/
theorem Relayed.answers {A : Applet κ} {options : OperationOptions} {a a' : κ}
    {c : LogicalCommand} {r : ResponseData} (hc : Relayed c) (hle : c.le = .absent)
    (hnew : ∃ k, ConversationState.new c options = .ok k)
    (hr : A a ⟨c.header, c.data, c.le⟩ = (r, a'))
    (hpage : min r.data.length 256 + 2 ≤ options.exchange.maxResponseBytes)
    (hstatus : r.status = ⟨0x9000⟩) :
    ∃ k, Answers A options a c k r a' (exchangesOf options c r.data.length) := by
  obtain ⟨k, hk⟩ := hnew
  have hclamp : clampLe c options = .ok .absent := by simp only [clampLe, hle]
  rw [hle] at hr
  obtain ⟨cla, hcont, hcla⟩ := hc.continuation
  refine ⟨k, hk, hc.header, fun _ _ => .paged cla hcont hcla, ⟨.absent, hclamp, hr, hpage, ?_⟩, ?_⟩
  · simp only [exchangesOf, hk]
    rfl
  · rw [hstatus]
    decide

/-- The card of a recorded operation: its applet has performed a prefix of the commands, and
while a command is open the card stands at its current frame. -/
structure Carried (A : Applet κ) (a : κ) (s : Recorded σ T) : Prop where
  done : ∃ done, done <+: s.commands ∧ s.commands.dropLast <+: done ∧
    (delivered A { applet := a } s.frames).applet = performed A a done
  opened : s.op.state = .awaitingResponse → ∃ cs c k, s.commands = cs ++ [c] ∧
    s.op.conversation = some k ∧ k.continuation = c.continuation ∧
    (k.pending ≠ [] → k.correctLe = false) ∧
    Open A (performed A a cs) c k (delivered A { applet := a } s.frames)

theorem performs_of_open {A : Applet κ} {a : κ} {cs : List LogicalCommand} {c : LogicalCommand}
    {k : ConversationState} {card : Card κ} (h : Open A (performed A a cs) c k card) :
    ∃ done, done <+: cs ++ [c] ∧ (cs ++ [c]).dropLast <+: done ∧
      card.applet = performed A a done := by
  rw [List.dropLast_concat]
  cases h with
  | collecting _ _ _ _ _ _ hcard =>
    exact ⟨cs, List.prefix_append _ _, ⟨[], by simp⟩, hcard⟩
  | performed _ _ happlet _ =>
    refine ⟨cs ++ [c], ⟨[], by simp⟩, List.prefix_append _ _, ?_⟩
    rw [happlet, performed_concat]

theorem Carried.of_open {A : Applet κ} {a : κ} {s : Recorded σ T} {cs : List LogicalCommand}
    {c : LogicalCommand} {k : ConversationState} (hcs : s.commands = cs ++ [c])
    (hk : s.op.conversation = some k) (hcont : k.continuation = c.continuation)
    (hcorrect : k.pending ≠ [] → k.correctLe = false)
    (h : Open A (performed A a cs) c k (delivered A { applet := a } s.frames)) :
    Carried A a s := by
  refine ⟨?_, fun _ => ⟨cs, c, k, hcs, hk, hcont, hcorrect, h⟩⟩
  rw [hcs]
  exact performs_of_open h

section run

variable {M : Machine σ T} {A : Applet κ} {a : κ} {m₀ : σ} {options : OperationOptions}
  {history : List (Call × Reply T)} {s : Recorded σ T} {call : Call}

/-- The conversation that answered leaves a card that collects nothing. -/
theorem settled {op : Operation σ T} {call : Call} {input : Option ResponseData}
    {cs : List LogicalCommand} {c : LogicalCommand} {k : ConversationState} {card : Card κ}
    (hh : handed op call = some input) (hs : op.state = .awaitingResponse)
    (hk : op.conversation = some k) (h : Open A (performed A a cs) c k card) :
    card.pending = [] ∧ card.applet = performed A a (cs ++ [c]) := by
  have hpending := answered_pending hh hs hk
  cases h with
  | collecting init last _ _ hp =>
    rw [hpending] at hp
    simp at hp
  | performed _ hcard happlet _ =>
    exact ⟨hcard, by rw [happlet, performed_concat]⟩

/-- A card that meets the first frame of a command has performed those before. -/
theorem ready (hf : Follows M m₀ options history s) (h : Carried A a s)
    {input : Option ResponseData} (hh : handed s.op call = some input) :
    (delivered A { applet := a } s.frames).pending = [] ∧
      (delivered A { applet := a } s.frames).applet = performed A a s.commands := by
  rcases handed_state hh with ⟨hs, _⟩ | ⟨hs, _⟩
  · obtain ⟨_, hcs, _⟩ := hf.standing.of_created hs
    obtain ⟨k, hshown, _⟩ := hf.shown
    rw [hcs] at hshown ⊢
    have hfs : s.frames = [] := by
      generalize s.frames = fs at hshown
      generalize hnil : ([] : List LogicalCommand) = cs at hshown
      cases hshown with
      | nothing => rfl
      | command => simp at hnil
    rw [hfs]
    exact ⟨rfl, rfl⟩
  · obtain ⟨cs, c, k, hcs, hk, _, _, hopen⟩ := h.opened hs
    rw [hcs]
    exact settled hh hs hk hopen

theorem Carried.same {s' : Recorded σ T} (h : Carried A a s) (hcs : s'.commands = s.commands)
    (hfs : s'.frames = s.frames) (hs : s'.op.state ≠ .awaitingResponse) : Carried A a s' := by
  refine ⟨?_, fun hawait => absurd hawait hs⟩
  rw [hcs, hfs]
  exact h.done

theorem Carried.step (hM : ∀ c ∈ (Recorded.call M s call).2.commands, Relayed c)
    (hf : Follows M m₀ options history s) (h : Carried A a s) :
    Carried A a (Recorded.call M s call).2 := by
  have hmv := call_moves M hf.lifecycle call
  have hstate : (Recorded.call M s call).2.op = (s.op.call M call).2 := rfl
  by_cases hx : (s.op.call M call).1.isExchange = true
  swap
  · have hx : (s.op.call M call).1.isExchange = false := by simpa using hx
    obtain ⟨hb, hs⟩ := quiet_of_not_exchange hx
    have hcs : (Recorded.call M s call).2.commands = s.commands := by simp [Recorded.call, hb]
    have hfs : (Recorded.call M s call).2.frames = s.frames := by simp [Recorded.call, hs]
    generalize hcall : s.op.call M call = result at hmv hx hstate
    obtain ⟨reply, op'⟩ := result
    dsimp only at hx hmv hstate
    cases hmv with
    | refused =>
      refine ⟨?_, ?_⟩
      · rw [hcs, hfs]
        exact h.done
      · rw [hcs, hfs, hstate]
        exact h.opened
    | went => cases hx
    | began => cases hx
    | cancelled | taken | broke | done | failed | rejected =>
      exact h.same hcs hfs (by rw [hstate]; simp)
  have hshown : shown M s.op call = (s.op.call M call).2.conversation.map (·.current) := if_pos hx
  have hframes : (Recorded.call M s call).2.frames =
      s.frames ++ (shown M s.op call).toList := rfl
  have hcommands : (Recorded.call M s call).2.commands =
      s.commands ++ (begun M s.op call).toList := rfl
  have hbegun {input : Option ResponseData} {m m' : σ} {c : LogicalCommand} :=
    @begun_of_command σ T M s.op call input m m' c hx
  generalize s.op.call M call = result at hmv hx hstate hshown
  obtain ⟨reply, op'⟩ := result
  dsimp only at hx hmv hstate hshown
  cases hmv with
  | refused => exact absurd hx (by rw [refusal_not_exchange]; simp)
  | cancelled | taken | broke | done | failed | rejected => cases hx
  | went bytes k k' r hh hs hk hgo hlt =>
    obtain ⟨cs, c, k₀, hcs, hk₀, hcont, hcorrect, hopen⟩ := h.opened hs
    cases hk.symm.trans hk₀
    rw [(begun_of_handed_none hh).1] at hcommands
    rw [hshown] at hframes
    have hc : Relayed c := hM c (by rw [hcommands, hcs]; simp)
    have hgoes := advance_goes.mp hgo
    have hkeep := goes_keeps hcont hcorrect hgoes
    have hsame : (Recorded.call M s call).2.commands = cs ++ [c] := by
      rw [hcommands, hcs]
      simp
    refine Carried.of_open hsame (by rw [hstate]) hkeep.1 hkeep.2 ?_
    rw [hframes, Option.map_some, Option.toList_some, delivered_concat]
    exact open_goes hc hcont hcorrect hopen hgoes
  | began bytes m m' input c k hh hm hn hnew hlt =>
    rw [hbegun hh hm hn] at hcommands
    rw [hshown] at hframes
    have hc : Relayed c := hM c (by rw [hcommands]; simp)
    have hready := ready hf h hh
    have hsame : (Recorded.call M s call).2.commands = s.commands ++ [c] := hcommands
    refine Carried.of_open hsame (by rw [hstate]) ?_ ?_ ?_
    · rw [new_initial hnew]
      rfl
    · rw [new_initial hnew]
      exact fun _ => hc.correct
    · rw [hframes, Option.map_some, Option.toList_some, delivered_concat]
      exact open_first hc hnew hready.1 hready.2

end run

/-- Whatever the calls, the card has performed the commands in order, but for the open one. -/
theorem recorded_carried {M : Machine σ T} {m₀ : σ} {options : OperationOptions}
    {op : Operation σ T} (h : Operation.fromMachine m₀ options = .ok op) (A : Applet κ) (a : κ)
    {calls : List Call} (hM : ∀ c ∈ (recorded M op calls).commands, Relayed c) :
    Carried A a (recorded M op calls) := by
  induction calls using List.reverseRecOn with
  | nil =>
    refine ⟨⟨[], List.nil_prefix, List.nil_prefix, rfl⟩, ?_⟩
    intro hs
    obtain ⟨_, _, ht, _⟩ := (fromMachine_follows h (M := M)).standing.of_awaiting hs
    have hlen := ht.length
    simp at hlen
  | append_singleton calls call ih =>
    rw [recorded_concat] at hM ⊢
    refine (ih ?_).step hM (recorded_follows M h calls)
    intro c hc
    exact hM c (List.mem_append_left _ hc)

/-- The frames of a run up to some frame are those of a shorter run. -/
theorem frames_prefix (M : Machine σ T) (op : Operation σ T) {calls : List Call}
    {frames : List CommandApdu} (h : frames <+: (recorded M op calls).frames) :
    ∃ calls', calls' <+: calls ∧ (recorded M op calls').frames = frames := by
  induction calls using List.reverseRecOn generalizing frames with
  | nil => exact ⟨[], List.nil_prefix, (List.prefix_nil.mp h).symm⟩
  | append_singleton calls call ih =>
    rw [recorded_concat] at h
    by_cases hall : frames <+: (recorded M op calls).frames
    · obtain ⟨calls', hcalls, hframes⟩ := ih hall
      exact ⟨calls', hcalls.trans (List.prefix_append _ _), hframes⟩
    · refine ⟨calls ++ [call], ⟨[], by simp⟩, ?_⟩
      rw [recorded_concat]
      have hstep : (Recorded.call M (recorded M op calls) call).2.frames =
          (recorded M op calls).frames ++ (shown M (recorded M op calls).op call).toList := rfl
      rw [hstep] at h ⊢
      cases hshown : shown M (recorded M op calls).op call with
      | none =>
        rw [hshown, Option.toList_none, List.append_nil] at h
        exact absurd h hall
      | some frame =>
        rw [hshown, Option.toList_some] at h
        rcases List.prefix_concat_iff.mp h with heq | hpre
        · exact heq.symm
        · exact absurd hpre hall

theorem recorded_prefix (M : Machine σ T) (op : Operation σ T) {calls calls' : List Call}
    (h : calls' <+: calls) :
    (recorded M op calls').commands <+: (recorded M op calls).commands := by
  obtain ⟨tail, rfl⟩ := h
  induction tail using List.reverseRecOn with
  | nil => exact ⟨[], by simp⟩
  | append_singleton tail call ih =>
    rw [← List.append_assoc, recorded_concat]
    exact ih.trans (List.prefix_append _ _)

/-- A card given some of the frames, in order, has performed some of the commands, in order. -/
theorem delivered_performed {M : Machine σ T} {m₀ : σ} {options : OperationOptions}
    {op : Operation σ T} (h : Operation.fromMachine m₀ options = .ok op) (A : Applet κ) (a : κ)
    {calls : List Call} (hM : ∀ c ∈ (recorded M op calls).commands, Relayed c)
    {frames : List CommandApdu} (hframes : frames <+: (recorded M op calls).frames) :
    ∃ done, done <+: (recorded M op calls).commands ∧
      (delivered A { applet := a } frames).applet = performed A a done := by
  obtain ⟨calls', hcalls, rfl⟩ := frames_prefix M op hframes
  have hpre := recorded_prefix M op hcalls
  obtain ⟨done, hdone, _, happlet⟩ :=
    (recorded_carried h A a fun c hc => hM c (hpre.subset hc)).done
  exact ⟨done, hdone.trans hpre, happlet⟩

end ProtocolDelivery
