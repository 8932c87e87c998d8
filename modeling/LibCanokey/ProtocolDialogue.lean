import LibCanokey.ProtocolCompletion
import LibCanokey.ProtocolDelivery

/-! # Dialogues that come to an end

A machine and an applet talking in complete commands and responses from an open command to the
last turn. A dialogue of commands that each take one exchange is a session of an operation. -/
namespace ProtocolDialogue

open CheckedCursor ProtocolError ProtocolApdu ProtocolApduDecoder ProtocolConversation
open ListTraversal ProtocolSegmentation ProtocolOperation ProtocolTranscript ScriptedRuns
open ProtocolSession ProtocolDelivery ProtocolCompletion

variable {σ T κ : Type*}

/-- What an applet answers a command of a machine with. -/
def reply (A : Applet κ) (a : κ) (c : LogicalCommand) : ResponseData :=
  (A a ⟨c.header, c.data, c.le⟩).1

/-- The commands and responses from an open command to the last turn, each exchange of a kind. -/
inductive Talks (M : Machine σ T) (A : Applet κ) (Q : LogicalCommand → ResponseData → Prop) :
    σ → κ → LogicalCommand → List LogicalCommand → List ResponseData → Except Error T → Prop where
  | done {m m' : σ} {a : κ} {c : LogicalCommand} {value : T} (hq : Q c (reply A a c))
      (hn : M.next m (some (reply A a c)) = (.ok (.done value), m')) :
      Talks M A Q m a c [c] [reply A a c] (.ok value)
  | failed {m m' : σ} {a : κ} {c : LogicalCommand} {e : Error} (hq : Q c (reply A a c))
      (hn : M.next m (some (reply A a c)) = (.error e, m')) :
      Talks M A Q m a c [c] [reply A a c] (.error e)
  | more {m m' : σ} {a : κ} {c c' : LogicalCommand} {cs : List LogicalCommand}
      {rs : List ResponseData} {out : Except Error T} (hq : Q c (reply A a c))
      (hn : M.next m (some (reply A a c)) = (.ok (.command c'), m'))
      (rest : Talks M A Q m' (performed A a [c]) c' cs rs out) :
      Talks M A Q m a c (c :: cs) (reply A a c :: rs) out

variable {M : Machine σ T} {A : Applet κ} {Q : LogicalCommand → ResponseData → Prop}

theorem Talks.head {m : σ} {a : κ} {c : LogicalCommand} {cs : List LogicalCommand}
    {rs : List ResponseData} {out : Except Error T} (h : Talks M A Q m a c cs rs out) :
    ∃ tail, cs = c :: tail ∧ Q c (reply A a c) := by
  cases h with
  | done hq hn => exact ⟨[], rfl, hq⟩
  | failed hq hn => exact ⟨[], rfl, hq⟩
  | more hq hn rest => exact ⟨_, rfl, hq⟩

/-! ## The record of a dialogue -/

section record

variable {options : OperationOptions} {op : Operation σ T} {k : ConversationState} {m m' : σ}
  {a a' : κ} {c c' : LogicalCommand} {r : ResponseData} {card : Card κ} {e b : ℕ}

/-- One exchange with the card completes the response of the applet. -/
theorem completed_once (h : Answers A options a c k r a' 1) (hopt : op.options = options)
    (hresp : 3 ≤ options.exchange.maxResponseBytes) (hcard : card.pending = [])
    (ha : card.applet = a)
    (hb : b + r.data.length ≤ min usizeMax options.limits.maxTotalResponseBytes) :
    completed (waitingOp op k e b) (card.exchange A k.current.bytes).1 = some r ∧
      (card.exchange A k.current.bytes).2 = { applet := a', status := r.status } := by
  subst hopt
  obtain ⟨le, hclamp, hans, hpage, hcount⟩ := h.answer
  obtain ⟨le', cmds, hrange, hclamp', hmap, hdec⟩ := new_decoded h.accepted
  cases hclamp.symm.trans hclamp'
  obtain ⟨last, hlast, hheader, hle⟩ := hdec.last
  change last.header = c.header at hheader
  change last.le = le at hle
  have hframes : k.frames.length = k.pending.length + 1 := rfl
  have hpending : k.pending = [] := List.eq_nil_of_length_eq_zero (by omega)
  have hcmds : cmds = [last] := by
    have hlen := congrArg List.length hmap
    rw [List.length_map, List.length_map, hframes, hpending, List.length_nil] at hlen
    obtain ⟨d, rfl⟩ := List.length_eq_one_iff.mp hlen.symm
    cases hlast
    rfl
  subst hcmds
  have hcurrent : decode k.current.bytes = some last := by
    rw [ConversationState.frames, hpending] at hmap
    exact (List.cons.inj hmap).1
  have hdata : last.data = c.data := by
    rw [← hdec.data]
    simp
  have hpaged : r.data.length ≤ pageLimit le := by
    by_contra hlong
    have hpages := @divCeil_step (min 256 (op.options.exchange.maxResponseBytes - 2))
      (r.data.length - pageLimit le) (by omega) (by omega)
    omega
  have hcla : ¬ last.header.cla &&& 0x10 ≠ 0 := by
    rw [hheader]
    exact not_not.mpr h.header.1
  have hins : last.header.ins ≠ 0xc0 := by
    rw [hheader]
    exact h.header.2
  have hcall : A card.applet ⟨last.header, card.pending ++ last.data, last.le⟩ = (r, a') := by
    rw [hcard, ha, hheader, hle, hdata, List.nil_append, hans]
  have hx : card.exchange A k.current.bytes =
      (responseFrame r.data r.status.raw, { applet := a', status := r.status }) := by
    rw [hle] at hcall
    simp only [Card.exchange, hcurrent, hcla, hins, if_false, hle, hcall, Card.page, hpaged,
      if_true]
  have hk := new_initial h.accepted
  have hempty : k.data = [] := by rw [hk]; rfl
  have hkcont : k.continuation = c.continuation := by rw [hk]; rfl
  have hfinal : k.advance op.options ⟨r.data, r.status⟩ =
      .ok (some ⟨k.data ++ r.data, r.status⟩, { k with data := [] }) := by
    cases h.whole le hclamp with
    | paged cla hcont => exact advance_final hpending (hkcont.trans hcont) h.status.1 h.status.2
    | alone hcont => exact advance_alone hpending (hkcont.trans hcont) h.status.2
  rw [hempty, List.nil_append] at hfinal
  rw [hx]
  refine ⟨completed_eq_some.mpr ⟨rfl, ?_, _, k, _, parse_responseFrame _ _, rfl, hb, hfinal⟩, rfl⟩
  have hlen : (responseFrame r.data r.status.raw).length = r.data.length + 2 := by
    simp [responseFrame]
  rw [hlen]
  change r.data.length + 2 ≤ op.options.exchange.maxResponseBytes
  omega

theorem advance_once (h : Answers A options a c k r a' 1) (hopt : op.options = options)
    (hresp : 3 ≤ options.exchange.maxResponseBytes) (hcard : card.pending = [])
    (ha : card.applet = a)
    (hb : b + r.data.length ≤ min usizeMax options.limits.maxTotalResponseBytes)
    (he : e ≤ options.limits.maxExchanges) :
    ((waitingOp op k e b).advance M (card.exchange A k.current.bytes).1).2 =
      handOver M op e (b + r.data.length) r := by
  obtain ⟨card', _, _, hsession⟩ := session_answers M h hresp hopt hcard ha hb
    (show e + 1 ≤ options.limits.maxExchanges + 1 by omega) 0
  exact (Prod.ext_iff.mp hsession).1

/-- The record of the exchange that a machine answers with its next command. -/
theorem record_command {s : Recorded σ T} (h : Answers A options a c k r a' 1)
    (hs : s.op = waitingOp op k e b) (hopt : op.options = options)
    (hresp : 3 ≤ options.exchange.maxResponseBytes) (hcard : card.pending = [])
    (ha : card.applet = a)
    (hb : b + r.data.length ≤ min usizeMax options.limits.maxTotalResponseBytes)
    (he : e < options.limits.maxExchanges) (hm : op.machine = some m)
    (hn : M.next m (some r) = (.ok (.command c'), m')) {k' : ConversationState}
    (hk : ConversationState.new c' options = .ok k') :
    let s' := (Recorded.call M s (.advance (card.exchange A k.current.bytes).1)).2
    s'.op = waitingOp { op with machine := some m' } k' (e + 1) (b + r.data.length) ∧
      s'.commands = s.commands ++ [c'] ∧ s'.responses = s.responses ++ [r] := by
  obtain ⟨hcompleted, _⟩ :=
    @completed_once σ T κ A options op k a a' c r card e b h hopt hresp hcard ha hb
  have hadvance := @advance_once σ T κ M A options op k a a' c r card e b h hopt hresp hcard ha hb
    (Nat.le_of_lt he)
  rw [handOver_command hm hn (by rw [hopt]; exact hk) (by rw [hopt]; exact he)] at hadvance
  generalize (card.exchange A k.current.bytes).1 = bytes at hcompleted hadvance
  have hhanded : handed s.op (.advance bytes) = some (some r) := by
    rw [hs, handed, hcompleted]
    rfl
  have hmachine : s.op.machine = some m := by
    rw [hs]
    exact hm
  have hmoves := @advance_moves σ T M s.op m bytes (by rw [hs]; rfl) hmachine (by rw [hs]; rfl)
  have hwaits : (s.op.advance M bytes).2.state = .awaitingResponse := by
    rw [hs, hadvance]
    rfl
  have hexchange : (s.op.call M (.advance bytes)).1.isExchange = true := by
    change Reply.isExchange (.step (s.op.advance M bytes).1) = true
    generalize s.op.advance M bytes = result at hmoves hwaits
    obtain ⟨reply, op'⟩ := result
    dsimp only at hmoves hwaits ⊢
    generalize hreply : (Reply.step reply : Reply T) = reply' at hmoves ⊢
    cases hmoves with
    | went | began => rfl
    | refused hnot =>
      rw [hs] at hnot
      exact absurd rfl hnot
    | cancelled | taken | broke | done | failed | rejected => cases hwaits
  refine ⟨?_, ?_, ?_⟩
  · change (s.op.advance M bytes).2 = _
    rw [hs, hadvance]
  · simp only [Recorded.call, begun_of_command hexchange hhanded hmachine hn, Option.toList_some]
  · simp only [Recorded.call, answer, hhanded, Option.join_some, Option.toList_some]

/-- The record of the exchange after which a machine has no further command. -/
theorem record_last {s : Recorded σ T} (h : Answers A options a c k r a' 1)
    (hs : s.op = waitingOp op k e b) (hopt : op.options = options)
    (hresp : 3 ≤ options.exchange.maxResponseBytes) (hcard : card.pending = [])
    (ha : card.applet = a)
    (hb : b + r.data.length ≤ min usizeMax options.limits.maxTotalResponseBytes)
    (he : e ≤ options.limits.maxExchanges) (hm : op.machine = some m)
    (hn : ∀ c', (M.next m (some r)).1 ≠ .ok (.command c')) :
    let s' := (Recorded.call M s (.advance (card.exchange A k.current.bytes).1)).2
    s'.op = handOver M op e (b + r.data.length) r ∧ s'.commands = s.commands ∧
      s'.responses = s.responses ++ [r] := by
  obtain ⟨hcompleted, _⟩ :=
    @completed_once σ T κ A options op k a a' c r card e b h hopt hresp hcard ha hb
  have hadvance :=
    @advance_once σ T κ M A options op k a a' c r card e b h hopt hresp hcard ha hb he
  generalize (card.exchange A k.current.bytes).1 = bytes at hcompleted hadvance
  have hhanded : handed s.op (.advance bytes) = some (some r) := by
    rw [hs, handed, hcompleted]
    rfl
  have hmachine : s.op.machine = some m := by
    rw [hs]
    exact hm
  have hproposal : proposal M s.op (.advance bytes) = none := by
    simp only [proposal, hhanded, hmachine]
  refine ⟨?_, ?_, ?_⟩
  · change (s.op.advance M bytes).2 = _
    rw [hs, hadvance]
  · simp only [Recorded.call, begun, hproposal, ite_self, Option.toList_none, List.append_nil]
  · simp only [Recorded.call, answer, hhanded, Option.join_some, Option.toList_some]

/-- A session from a waiting operation as a run of calls, with what it adds to the record. -/
structure Recounted (M : Machine σ T) (A : Applet κ) (s : Recorded σ T) (card : Card κ) (n : ℕ)
    (cs : List LogicalCommand) (rs : List ResponseData) (out : Except Error T) (a : κ)
    (calls : List Call) : Prop where
  session : (session M A n s.op card).1 = (run (Recorded.call M) s calls).2.op
  ends : Ends (run (Recorded.call M) s calls).2.op out
  commands : (run (Recorded.call M) s calls).2.commands = s.commands ++ cs
  responses : (run (Recorded.call M) s calls).2.responses = s.responses ++ rs
  applet : (ProtocolSession.session M A n s.op card).2.applet = a

theorem session_call {s : Recorded σ T} (hs : s.op = waitingOp op k e b) (n : ℕ) :
    session M A (n + 1) s.op card =
      session M A n (Recorded.call M s (.advance (card.exchange A k.current.bytes).1)).2.op
        (card.exchange A k.current.bytes).2 := by
  have hcommand : s.op.command = .ok k.current := by
    rw [hs]
    rfl
  rw [session, hcommand]
  rfl

theorem recounted_last {s : Recorded σ T} (h : Answers A options a c k r a' 1)
    (hs : s.op = waitingOp op k e b) (hopt : op.options = options)
    (hresp : 3 ≤ options.exchange.maxResponseBytes) (hcard : card.pending = [])
    (ha : card.applet = a)
    (hb : b + r.data.length ≤ min usizeMax options.limits.maxTotalResponseBytes)
    (he : e ≤ options.limits.maxExchanges) (hm : op.machine = some m)
    (hn : ∀ c', (M.next m (some r)).1 ≠ .ok (.command c')) {out : Except Error T}
    (hends : Ends (handOver M op e (b + r.data.length) r) out) :
    Recounted M A s card 1 [] [r] out a' [.advance (card.exchange A k.current.bytes).1] := by
  obtain ⟨_, hcard'⟩ := @completed_once σ T κ A options op k a a' c r card e b h hopt hresp hcard ha
    hb
  obtain ⟨hop, hcommands, hresponses⟩ := record_last h hs hopt hresp hcard ha hb he hm hn
  have hsession := @session_call σ T κ M A op k card e b s hs 0
  refine ⟨?_, ?_, ?_, hresponses, ?_⟩
  · rw [hsession]
    rfl
  · change Ends (Recorded.call M s _).2.op out
    rw [hop]
    exact hends
  · rw [List.append_nil]
    exact hcommands
  · rw [hsession]
    exact congrArg Card.applet hcard'

/-- A dialogue of commands that each take one exchange is a run of calls. It records the rest of
the commands and every response, and ends as the dialogue does. -/
theorem Talks.recorded {cs : List LogicalCommand} {rs : List ResponseData} {out : Except Error T}
    (h : Talks M A Q m a c cs rs out)
    (hone : ∀ a c, Q c (reply A a c) →
      ∃ k, Answers A options a c k (reply A a c) (performed A a [c]) 1)
    (hresp : 3 ≤ options.exchange.maxResponseBytes) {s : Recorded σ T}
    (hs : s.op = waitingOp op k e b) (hopt : op.options = options)
    (hk : ConversationState.new c options = .ok k) (hm : op.machine = some m)
    (hcard : card.pending = []) (ha : card.applet = a)
    (hb : b + responseLength rs ≤ min usizeMax options.limits.maxTotalResponseBytes)
    (he : e + cs.length ≤ options.limits.maxExchanges + 1) :
    ∃ calls, Recounted M A s card cs.length cs.tail rs out (performed A a cs) calls := by
  induction h generalizing s op k e b card with
  | @done m m' a c value hq hn =>
    obtain ⟨k', hanswers⟩ := hone _ _ hq
    cases hk.symm.trans hanswers.accepted
    rw [List.length_singleton] at he
    exact ⟨_, recounted_last hanswers hs hopt hresp hcard ha hb (by omega) hm (by rw [hn]; simp)
      (handOver_done hm hn _ _)⟩
  | @failed m m' a c err hq hn =>
    obtain ⟨k', hanswers⟩ := hone _ _ hq
    cases hk.symm.trans hanswers.accepted
    rw [List.length_singleton] at he
    exact ⟨_, recounted_last hanswers hs hopt hresp hcard ha hb (by omega) hm (by rw [hn]; simp)
      (handOver_failed hm hn _ _)⟩
  | @more m m' a c c' cs rs out hq hn rest ih =>
    obtain ⟨k₁, hanswers⟩ := hone _ _ hq
    cases hk.symm.trans hanswers.accepted
    obtain ⟨tail, rfl, hq'⟩ := rest.head
    obtain ⟨k', hanswers'⟩ := hone _ _ hq'
    have hlen : responseLength (reply A a c :: rs) =
        (reply A a c).data.length + responseLength rs := rfl
    rw [hlen] at hb
    rw [List.length_cons, List.length_cons] at he
    obtain ⟨_, hcard'⟩ := @completed_once σ T κ A options op k a _ c _ card e b hanswers hopt hresp
      hcard ha (by omega)
    obtain ⟨hop, hcommands, hresponses⟩ := record_command hanswers hs hopt hresp hcard ha
      (by omega) (by omega) hm hn hanswers'.accepted
    have hsession := @session_call σ T κ M A op k card e b s hs
      (tail.length + 1)
    obtain ⟨calls, hcalls⟩ := @ih { op with machine := some m' } k'
      (card.exchange A k.current.bytes).2 (e + 1) (b + (reply A a c).data.length) _ hop hopt
      hanswers'.accepted rfl (by rw [hcard']) (by rw [hcard']) (by omega)
      (by rw [List.length_cons]; omega)
    refine ⟨.advance (card.exchange A k.current.bytes).1 :: calls, ?_⟩
    constructor
    · rw [List.length_cons, List.length_cons, hsession]
      exact hcalls.session
    · exact hcalls.ends
    · have hrest := hcalls.commands
      rw [hcommands, List.append_assoc] at hrest
      exact hrest
    · have hrest := hcalls.responses
      rw [hresponses, List.append_assoc] at hrest
      exact hrest
    · rw [List.length_cons, List.length_cons, hsession]
      exact hcalls.applet

end record

end ProtocolDialogue
