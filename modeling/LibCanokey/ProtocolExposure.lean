import LibCanokey.ProtocolSegmentation

/-! # At-most-once exposure of a command

The log of a conversation lists the exposed physical commands with the response each
got. It parses into the frames in order, then continuation commands, each at most once
up to one 6Cxx resend that directly follows the command it corrects. -/
namespace ProtocolExposure

open BigEndian ListTraversal ProtocolError ProtocolApdu ProtocolApduDecoder
open ProtocolConversation ProtocolSegmentation ScriptedRuns

abbrev Logged := CommandApdu × Option ResponseApdu

/-- The exposed commands, each with its response while the script lasts. -/
def exposureLog (options : OperationOptions) (c : ConversationState)
    (script : List ResponseApdu) : List Logged :=
  (turns (ConversationState.advance options) c script).map fun t => (t.1.current, t.2)

/-- One physical command and, at most, one resend of it. -/
structure Entry where
  command : CommandApdu
  answer : Option ResponseApdu
  resend : Option Logged

def Entry.log (e : Entry) : List Logged := (e.command, e.answer) :: e.resend.toList

/-- A resend answers 6Cxx and differs from what it corrects in Le only. -/
def Entry.ResendsOnlyLe (e : Entry) : Prop :=
  ∀ cmd a, e.resend = some (cmd, a) → ∃ r d, e.answer = some r ∧ is6c r.status.raw = true ∧
    decode e.command.bytes = some d ∧
    decode cmd.bytes = some { d with le := .exact (requestedLe r.status.raw) }

/-- GET RESPONSE for ISO, SEND REMAINING for OATH, nothing without a policy. -/
def IsContinuation (k : Continuation) (cmd : CommandApdu) : Prop :=
  match k with
  | .iso7816 cla => ∃ n, decode cmd.bytes = some ⟨⟨cla, 0xc0, 0, 0⟩, [], .exact n⟩
  | .oath instruction _ => ∃ n, decode cmd.bytes = some ⟨⟨0, instruction, 0, 0⟩, [], .exact n⟩
  | .none => False

structure ContinuationEntries (k : Continuation) (rest : List Entry) : Prop where
  command : ∀ e ∈ rest, IsContinuation k e.command
  only_le : ∀ e ∈ rest, e.ResendsOnlyLe
  resend : ∀ e ∈ rest, e.resend ≠ none → k.isIso = true

/-- `shown` entries are the frames in order; `rest` entries are continuation commands. -/
structure AtMostOnce (correctLe : Bool) (k : Continuation) (frames : List CommandApdu)
    (shown rest : List Entry) : Prop where
  in_order : shown.map Entry.command <+: frames
  frames_first : rest ≠ [] → shown.map Entry.command = frames
  acknowledged : ∀ i e, shown[i]? = some e → i + 1 < shown.length →
    e.answer = some ⟨[], ⟨0x9000⟩⟩
  only_le : ∀ e ∈ shown, e.ResendsOnlyLe
  resend : ∀ i e, shown[i]? = some e → e.resend ≠ none →
    correctLe = true ∧ i + 1 = frames.length
  continuation : ContinuationEntries k rest

def Encoded (cmd : CommandApdu) : Prop :=
  ∃ header data le encoding, CommandApdu.encode header data le encoding = .ok cmd

theorem Encoded.corrected {cmd cmd' : CommandApdu} {n : ℕ} (h : Encoded cmd)
    (hc : cmd.corrected n = .ok cmd') :
    Encoded cmd' ∧ ∃ d, decode cmd.bytes = some d ∧
      decode cmd'.bytes = some { d with le := .exact n } := by
  obtain ⟨header, data, le, encoding, he⟩ := h
  refine ⟨?_, _, decode_of_encode he, decode_of_corrected he hc⟩
  obtain ⟨_, _, rfl⟩ := encode_eq_ok.mp he
  rw [corrected_build] at hc
  exact ⟨_, _, _, _, hc⟩

theorem new_encoded {logical : LogicalCommand} {options : OperationOptions}
    {c : ConversationState} (h : ConversationState.new logical options = .ok c) :
    ∀ f ∈ c.frames, Encoded f := by
  obtain ⟨_, _, le, current, pending, _, hseg, _, rfl⟩ := new_eq_ok h
  change ∀ f ∈ current :: pending, Encoded f
  cases hseg with
  | single encoding cmd henc =>
    intro f hf
    rw [List.mem_singleton.mp hf]
    exact ⟨_, _, _, _, henc⟩
  | chained count frames hcla hpos hlong hcount hbudget henc =>
    intro f hf
    obtain ⟨_, _, hok⟩ := exists_of_mem_right henc hf
    exact ⟨_, _, _, _, hok⟩

section log

variable {options : OperationOptions} {c c' : ConversationState} {r : ResponseApdu}

theorem exposureLog_goes (h : Goes options c r c') (script : List ResponseApdu) :
    exposureLog options c (r :: script) =
      (c.current, some r) :: exposureLog options c' script := by
  rw [exposureLog, turns_cons (advance_goes.mpr h)]
  rfl

theorem exposureLog_stop (h : ∀ c', ¬ Goes options c r c') (script : List ResponseApdu) :
    exposureLog options c (r :: script) = [(c.current, some r)] := by
  rw [exposureLog, turns_cons_stop (fun t ht => h t (advance_goes.mp ht))]
  rfl

theorem Entry.resendsOnlyLe_none {e : Entry} (h : e.resend = none) : e.ResendsOnlyLe := by
  intro cmd a hs
  rw [h] at hs
  cases hs

theorem ContinuationEntries.nil {k : Continuation} : ContinuationEntries k [] :=
  ⟨fun _ h => (List.not_mem_nil h).elim, fun _ h => (List.not_mem_nil h).elim,
    fun _ h => (List.not_mem_nil h).elim⟩

theorem ContinuationEntries.cons {k : Continuation} {e : Entry} {rest : List Entry}
    (hcmd : IsContinuation k e.command) (hle : e.ResendsOnlyLe)
    (hre : e.resend ≠ none → k.isIso = true) (h : ContinuationEntries k rest) :
    ContinuationEntries k (e :: rest) := by
  refine ⟨?_, ?_, ?_⟩
  · intro f hf
    rcases List.mem_cons.mp hf with rfl | hf
    · exact hcmd
    · exact h.command f hf
  · intro f hf
    rcases List.mem_cons.mp hf with rfl | hf
    · exact hle
    · exact h.only_le f hf
  · intro f hf
    rcases List.mem_cons.mp hf with rfl | hf
    · exact hre
    · exact h.resend f hf

/-- A turn without pending frames either resends or issues a continuation command. -/
theorem goes_last (hp : c.pending = []) (hx : Encoded c.current) (h : Goes options c r c') :
    c'.pending = [] ∧ Encoded c'.current ∧ c'.continuation = c.continuation ∧
    ((c'.corrected = true ∧ c.corrected = false ∧ c.correctLe = true ∧
        is6c r.status.raw = true ∧ c'.correctLe = c.correctLe ∧
        ∃ d, decode c.current.bytes = some d ∧
          decode c'.current.bytes = some { d with le := .exact (requestedLe r.status.raw) }) ∨
      (c'.corrected = false ∧ IsContinuation c.continuation c'.current ∧
        (c'.correctLe = true → c.continuation.isIso = true))) := by
  cases h with
  | corrected current hsw hle _ hc hfit hcur hlen =>
    obtain ⟨henc, d, hd, hd'⟩ := hx.corrected hcur
    exact ⟨hp, henc, rfl, Or.inl ⟨rfl, hc, hle, hsw, rfl, d, hd, hd'⟩⟩
  | acknowledged next rest hn hr => rw [hp] at hn; cases hn
  | sentRemaining i probe current _ hcont hmore hd hcur =>
    refine ⟨hp, ⟨_, _, _, _, hcur⟩, rfl, Or.inr ⟨rfl, ?_, fun h => by cases h⟩⟩
    rw [hcont]
    exact ⟨_, decode_of_encode hcur⟩
  | gotResponse cla current _ hcont hsw hd hcur =>
    refine ⟨hp, ⟨_, _, _, _, hcur⟩, rfl, Or.inr ⟨rfl, ?_, fun _ => by rw [hcont]; rfl⟩⟩
    rw [hcont]
    exact ⟨_, decode_of_encode hcur⟩

/-- After the last frame: the current command, at most one resend of it, continuations.
The induction carries a state that is itself a resend, which is never resent again. -/
theorem log_last (options : OperationOptions) (hp : c.pending = []) (hx : Encoded c.current)
    (script : List ResponseApdu) :
    ∃ e rest, exposureLog options c script = (e :: rest).flatMap Entry.log ∧
      e.command = c.current ∧ e.ResendsOnlyLe ∧
      (e.resend ≠ none → c.corrected = false ∧ c.correctLe = true) ∧
      ContinuationEntries c.continuation rest := by
  induction script generalizing c with
  | nil =>
    exact ⟨⟨c.current, none, none⟩, [], rfl, rfl, Entry.resendsOnlyLe_none rfl,
      fun h => absurd rfl h, .nil⟩
  | cons r script ih =>
    by_cases hgo : ∃ c', Goes options c r c'
    · obtain ⟨c', hgo⟩ := hgo
      obtain ⟨hp', hx', hk, hcase⟩ := goes_last hp hx hgo
      obtain ⟨e, rest, hlog, hcmd, hle, hre, hrest⟩ := ih hp' hx'
      rw [hk] at hrest
      rw [exposureLog_goes hgo, hlog]
      rcases hcase with ⟨hc', hc, hcl, hsw, _, d, hd, hd'⟩ | ⟨hc', hcont, hiso⟩
      · -- the next state is the resend, so its own entry carries no second one
        have hnone : e.resend = none := by
          by_contra hne
          have := (hre hne).1
          rw [hc'] at this
          cases this
        refine ⟨⟨c.current, some r, some (e.command, e.answer)⟩, rest, ?_, rfl, ?_,
          fun _ => ⟨hc, hcl⟩, hrest⟩
        · simp [Entry.log, hnone]
        · intro cmd a heq
          cases heq
          rw [hcmd]
          exact ⟨r, d, rfl, hsw, hd, hd'⟩
      · refine ⟨⟨c.current, some r, none⟩, e :: rest, rfl, rfl, Entry.resendsOnlyLe_none rfl,
          fun h => absurd rfl h, hrest.cons (by rw [hcmd]; exact hcont) hle ?_⟩
        intro hne
        exact hiso (hre hne).2
    · push Not at hgo
      rw [exposureLog_stop hgo]
      exact ⟨⟨c.current, some r, none⟩, [], rfl, rfl, Entry.resendsOnlyLe_none rfl,
        fun h => absurd rfl h, .nil⟩

theorem AtMostOnce.single {correctLe : Bool} {k : Continuation} {cmd : CommandApdu}
    {frames : List CommandApdu} {e : Entry} (hcmd : e.command = cmd) (hre : e.resend = none) :
    AtMostOnce correctLe k (cmd :: frames) [e] [] := by
  refine ⟨⟨frames, by simp [hcmd]⟩, fun h => absurd rfl h, ?_, ?_, ?_, .nil⟩
  · intro i _ _ hi
    simp at hi
  · intro f hf
    rw [List.mem_singleton.mp hf]
    exact Entry.resendsOnlyLe_none hre
  · intro i f hf hs
    have hmem := List.mem_of_getElem? hf
    rw [List.mem_singleton.mp hmem] at hs
    exact absurd hre hs

/-- An acknowledged frame in front keeps the rest of the log at most once. -/
theorem AtMostOnce.cons {correctLe : Bool} {k : Continuation} {cmd : CommandApdu}
    {frames : List CommandApdu} {shown rest : List Entry}
    (h : AtMostOnce correctLe k frames shown rest) :
    AtMostOnce correctLe k (cmd :: frames)
      (⟨cmd, some ⟨[], ⟨0x9000⟩⟩, none⟩ :: shown) rest := by
  refine ⟨?_, ?_, ?_, ?_, ?_, h.continuation⟩
  · rw [List.map_cons]
    exact (List.prefix_cons_inj cmd).mpr h.in_order
  · intro hne
    rw [List.map_cons, h.frames_first hne]
  · intro i e he hi
    cases i with
    | zero => cases he; rfl
    | succ i => exact h.acknowledged i e he (by simpa using hi)
  · intro e he
    rcases List.mem_cons.mp he with rfl | he
    · exact Entry.resendsOnlyLe_none rfl
    · exact h.only_le e he
  · intro i e he hs
    cases i with
    | zero => cases he; exact absurd rfl hs
    | succ i =>
      obtain ⟨hc, hi⟩ := h.resend i e he hs
      exact ⟨hc, by rw [List.length_cons, ← hi]⟩

theorem log_frames (hc : c.corrected = false) (hx : ∀ f ∈ c.frames, Encoded f)
    (script : List ResponseApdu) :
    ∃ shown rest, exposureLog options c script = (shown ++ rest).flatMap Entry.log ∧
      AtMostOnce c.correctLe c.continuation c.frames shown rest := by
  induction script generalizing c with
  | nil =>
    exact ⟨[⟨c.current, none, none⟩], [], rfl, .single rfl rfl⟩
  | cons r script ih =>
    cases hp : c.pending with
    | nil =>
      obtain ⟨e, rest, hlog, hcmd, hle, hre, hrest⟩ :=
        log_last options hp (hx _ List.mem_cons_self) (r :: script)
      have hframes : c.frames = [c.current] := by rw [ConversationState.frames, hp]
      have hone : [e].map Entry.command = c.frames := by
        rw [hframes, List.map_singleton, hcmd]
      refine ⟨[e], rest, hlog, ?_, ?_, ?_, ?_, ?_, hrest⟩
      · exact hone ▸ List.prefix_rfl
      · exact fun _ => hone
      · intro i _ _ hi
        simp at hi
      · intro f hf
        rw [List.mem_singleton.mp hf]
        exact hle
      · intro i f hf hs
        have hi : i = 0 := by
          have := (List.getElem?_eq_some_iff.mp hf).1
          simpa using this
        subst hi
        cases hf
        exact ⟨(hre hs).2, by rw [hframes]; rfl⟩
    | cons next pending =>
      by_cases hgo : ∃ c', Goes options c r c'
      · obtain ⟨c', hgo⟩ := hgo
        rw [exposureLog_goes hgo]
        have hframes : c.frames = c.current :: next :: pending := by
          rw [ConversationState.frames, hp]
        cases hgo with
        | acknowledged n rest hn hr =>
          obtain ⟨hn, hrest⟩ := List.cons.inj (hn.symm.trans hp)
          subst hn hrest hr
          obtain ⟨shown, rest', hlog, hamo⟩ :=
            ih (c := { c with current := n, pending := rest, corrected := false }) rfl
              (fun f hf => hx f (by rw [hframes]; exact List.mem_cons_of_mem _ hf))
          refine ⟨⟨c.current, some ⟨[], ⟨0x9000⟩⟩, none⟩ :: shown, rest', ?_, ?_⟩
          · rw [hlog]; rfl
          · rw [hframes]
            exact hamo.cons
        | corrected _ _ _ hp' => rw [hp] at hp'; cases hp'
        | sentRemaining _ _ _ hp' => rw [hp] at hp'; cases hp'
        | gotResponse _ _ hp' => rw [hp] at hp'; cases hp'
      · push Not at hgo
        rw [exposureLog_stop hgo]
        exact ⟨[⟨c.current, some r, none⟩], [], rfl, .single rfl rfl⟩

end log

/-- No frame of a logical command is exposed twice, save one 6Cxx correction. -/
theorem command_exposed_at_most_once {logical : LogicalCommand} {options : OperationOptions}
    {c : ConversationState} (h : ConversationState.new logical options = .ok c)
    (script : List ResponseApdu) :
    ∃ shown rest, exposureLog options c script = (shown ++ rest).flatMap Entry.log ∧
      AtMostOnce logical.correctLe logical.continuation c.frames shown rest := by
  have hx := new_encoded h
  obtain ⟨_, _, le, current, pending, _, _, _, rfl⟩ := new_eq_ok h
  exact log_frames rfl hx script

def correctableExample : LogicalCommand := { chainedExample with correctLe := true }

/-- Three fragments, a 6C05 resend of the last one and one GET RESPONSE. -/
theorem command_exposed_at_most_once_resent :
    ∃ c log, ConversationState.new correctableExample narrowOptions = .ok c ∧
      exposureLog narrowOptions c [⟨[], ⟨0x9000⟩⟩, ⟨[], ⟨0x9000⟩⟩, ⟨[], ⟨0x6c05⟩⟩,
        ⟨[7], ⟨0x6102⟩⟩, ⟨[8, 9], ⟨0x9000⟩⟩] = log ∧
      log.map (fun l => l.1.bytes) = [[0x10, 0x87, 7, 0x9a, 2, 1, 2],
        [0x10, 0x87, 7, 0x9a, 2, 3, 4], [0, 0x87, 7, 0x9a, 1, 5, 0], [0, 0x87, 7, 0x9a, 1, 5, 5],
        [0, 0xc0, 0, 0, 2]] ∧
      ∃ shown rest, log = (shown ++ rest).flatMap Entry.log ∧
        AtMostOnce true (.iso7816 0) c.frames shown rest := by
  have h : ConversationState.new correctableExample narrowOptions = .ok _ := rfl
  exact ⟨_, _, h, rfl, rfl, command_exposed_at_most_once h _⟩

end ProtocolExposure
