import LibCanokey.ProtocolTranscript

/-! # What a command puts on the wire

The frames of a command whose Le is not corrected, in order, and after the last of them requests
for the rest of its answer. -/
namespace ProtocolFraming

open ProtocolError ProtocolApdu ProtocolApduDecoder ProtocolConversation ProtocolSegmentation
open ProtocolExposure ProtocolOperation ProtocolTranscript ScriptedRuns

/-- A request for more of an answer, as it is first made or with another Le. -/
def Requests (continuation : Continuation) (f : CommandApdu) : Prop :=
  ∃ g d le, IsContinuation continuation g ∧ decode g.bytes = some d ∧
    decode f.bytes = some { d with le := le }

theorem requests_of_isContinuation {continuation : Continuation} {f : CommandApdu}
    (h : IsContinuation continuation f) : Requests continuation f := by
  cases continuation with
  | none => exact absurd h id
  | iso7816 cla =>
    obtain ⟨n, hn⟩ := h
    exact ⟨f, _, _, ⟨n, hn⟩, hn, hn⟩
  | oath instruction probe =>
    obtain ⟨n, hn⟩ := h
    exact ⟨f, _, _, ⟨n, hn⟩, hn, hn⟩

theorem not_requests_none {f : CommandApdu} : ¬ Requests .none f := by
  rintro ⟨g, d, le, hg, _⟩
  exact hg

/-- What a conversation has shown of its frames, or after them. -/
inductive Sent (frames : List CommandApdu) (continuation : Continuation) :
    List CommandApdu → ConversationState → Prop where
  | own {gs : List CommandApdu} {k : ConversationState} (hall : gs ++ k.pending = frames)
      (hx : ∀ f ∈ k.frames, Encoded f) (hcorrect : k.correctLe = false)
      (hcont : k.continuation = continuation) : Sent frames continuation gs k
  | more {rest : List CommandApdu} {k : ConversationState} (hrest : ∀ f ∈ rest,
      Requests continuation f) (hcurrent : Requests continuation k.current)
      (hp : k.pending = []) (hx : Encoded k.current) (hcont : k.continuation = continuation) :
      Sent frames continuation (frames ++ rest) k

section sent

variable {options : OperationOptions} {frames gs : List CommandApdu} {continuation : Continuation}
  {k k' : ConversationState} {r : ResponseApdu} {c : LogicalCommand}

theorem Sent.goes (h : Sent frames continuation gs k) (hgo : Goes options k r k') :
    Sent frames continuation (gs ++ [k'.current]) k' := by
  cases h with
  | own hall hx hcorrect hcont =>
    by_cases hp : k.pending = []
    · obtain ⟨hp', hx', hcont', hcase⟩ := goes_last hp (hx _ List.mem_cons_self) hgo
      rw [hp, List.append_nil] at hall
      subst hall
      rcases hcase with ⟨_, _, hle, _⟩ | ⟨_, hrequest, _⟩
      · rw [hcorrect] at hle
        cases hle
      · rw [hcont] at hrequest
        have hcurrent := requests_of_isContinuation hrequest
        refine .more ?_ hcurrent hp' hx' (hcont'.trans hcont)
        intro f hf
        rw [List.mem_singleton.mp hf]
        exact hcurrent
    · cases hgo with
      | corrected _ _ _ hp' => exact absurd hp' hp
      | sentRemaining _ _ _ hp' => exact absurd hp' hp
      | gotResponse _ _ hp' => exact absurd hp' hp
      | acknowledged next rest hn hr =>
        refine .own ?_ ?_ hcorrect hcont
        · rw [← hall, hn, List.append_assoc]
          rfl
        · intro f hf
          have hframes : k.frames = k.current :: next :: rest := by
            rw [ConversationState.frames, hn]
          apply hx f
          rw [hframes]
          exact List.mem_cons_of_mem _ hf
  | more hrest hcurrent hp hx hcont =>
    obtain ⟨hp', hx', hcont', hcase⟩ := goes_last hp hx hgo
    have hnext : Requests continuation k'.current := by
      rcases hcase with ⟨_, _, _, _, _, d, hd, hd'⟩ | ⟨_, hrequest, _⟩
      · obtain ⟨g, d', le, hg, hgd, hf⟩ := hcurrent
        cases hf.symm.trans hd
        exact ⟨g, d', _, hg, hgd, hd'⟩
      · rw [hcont] at hrequest
        exact requests_of_isContinuation hrequest
    rw [List.append_assoc]
    refine .more ?_ hnext hp' hx' (hcont'.trans hcont)
    intro f hf
    rcases List.mem_append.mp hf with hf | hf
    · exact hrest f hf
    · rw [List.mem_singleton.mp hf]
      exact hnext

/-- What is shown for a command. The induction is on the responses. -/
theorem showing_sent (hcorrect : c.correctLe = false) (h : Showing options c gs k) :
    ∃ k₀, ConversationState.new c options = .ok k₀ ∧ Sent k₀.frames c.continuation gs k := by
  obtain ⟨k₀, script, hnew, hafter, rfl⟩ := h.shown
  refine ⟨k₀, hnew, ?_⟩
  clear h
  induction script using List.reverseRecOn generalizing k with
  | nil =>
    cases hafter
    have hx := new_encoded hnew
    obtain ⟨_, _, _, _, _, _, _, _, rfl⟩ := new_eq_ok hnew
    exact .own rfl hx hcorrect rfl
  | append_singleton script r ih =>
    obtain ⟨k₁, hafter₁, hlast⟩ := after_append_eq_some.mp hafter
    obtain ⟨k₂, hgo, hk₂⟩ := after_cons_eq_some.mp hlast
    cases hk₂
    rw [waiting_concat hafter₁ hgo, List.map_append, List.map_singleton]
    exact (ih hafter₁).goes (advance_goes.mp hgo)

/-- The frames in order, or all of them and some requests. -/
theorem Sent.shown (h : Sent frames continuation gs k) :
    gs <+: frames ∨ ∃ rest, gs = frames ++ rest ∧ ∀ f ∈ rest, Requests continuation f := by
  cases h with
  | own hall => exact Or.inl ⟨_, hall⟩
  | more hrest => exact Or.inr ⟨_, rfl, hrest⟩

theorem Sent.all (h : Sent frames continuation gs k) (hp : k.pending = []) :
    ∃ rest, gs = frames ++ rest ∧ ∀ f ∈ rest, Requests continuation f := by
  cases h with
  | own hall =>
    rw [hp, List.append_nil] at hall
    refine ⟨[], by rw [hall, List.append_nil], ?_⟩
    intro f hf
    cases hf
  | more hrest => exact ⟨_, rfl, hrest⟩

/-- A command of one frame that is followed by no request shows it. -/
theorem sent_single {f : CommandApdu} (h : Sent [f] .none gs k) (hne : gs ≠ []) : gs = [f] := by
  rcases h.shown with hpre | ⟨rest, hgs, hall⟩
  · rcases List.prefix_cons_iff.mp hpre with hnil | ⟨t, ht, htail⟩
    · exact absurd hnil hne
    · rw [ht, List.prefix_nil.mp htail]
  · cases rest with
    | nil => exact hgs
    | cons g rest => exact absurd (hall g List.mem_cons_self) not_requests_none

end sent

theorem shown_concat {options : OperationOptions} {cs : List LogicalCommand} {c : LogicalCommand}
    {fs : List CommandApdu} {current : Option ConversationState}
    (h : Shown options (cs ++ [c]) fs current) :
    ∃ before gs earlier k, fs = before ++ gs ∧ Shown options cs before earlier ∧
      Showing options c gs k ∧ current = some k := by
  generalize hall : cs ++ [c] = all at h
  cases h with
  | nothing => simp at hall
  | command hs hk =>
    obtain ⟨rfl, hc⟩ := List.append_inj' hall rfl
    cases hc
    exact ⟨_, _, _, _, rfl, hs, hk, rfl⟩

theorem showing_ne_nil {options : OperationOptions} {c : LogicalCommand} {gs : List CommandApdu}
    {k : ConversationState} (h : Showing options c gs k) : gs ≠ [] := by
  obtain ⟨k₀, script, _, _, rfl⟩ := h.shown
  intro hnil
  exact waiting_ne_nil k₀ script (List.map_eq_nil_iff.mp hnil)

section finished

variable {σ T : Type*} {M : Machine σ T} {m₀ : σ} {options : OperationOptions}
  {op : Operation σ T}

/-- An operation with a result got it in answer to the last frame of its last command. -/
theorem finished_shown (h : Operation.fromMachine m₀ options = .ok op) {calls : List Call}
    (hs : (recorded M op calls).op.state = .completed ∨
      (recorded M op calls).op.state = .resultTaken)
    (hne : (recorded M op calls).commands ≠ []) :
    ∃ k, Shown options (recorded M op calls).commands (recorded M op calls).frames (some k) ∧
      k.pending = [] := by
  induction calls using List.reverseRecOn with
  | nil =>
    obtain ⟨_, _, ht, _⟩ := (fromMachine_follows h (M := M)).standing.of_finished hs
    exact absurd rfl hne
  | append_singleton calls call ih =>
    have hf := recorded_follows M h calls
    rw [recorded_concat] at hs hne ⊢
    have hmv := call_moves M hf.lifecycle call
    by_cases hx : ((recorded M op calls).op.call M call).1.isExchange = true
    · have hs : ((recorded M op calls).op.call M call).2.state = .completed ∨
        ((recorded M op calls).op.call M call).2.state = .resultTaken := hs
      generalize (recorded M op calls).op.call M call = result at hmv hs hx
      obtain ⟨reply, op'⟩ := result
      dsimp only at hmv hs hx
      cases hmv with
      | refused =>
        rw [refusal_not_exchange] at hx
        cases hx
      | went | began => rcases hs with hs | hs <;> cases hs
      | cancelled | taken | broke | done | failed | rejected => cases hx
    · have hx : ((recorded M op calls).op.call M call).1.isExchange = false := by simpa using hx
      obtain ⟨hb, hsh⟩ := quiet_of_not_exchange hx
      have hcs : (Recorded.call M (recorded M op calls) call).2.commands =
          (recorded M op calls).commands := by
        simp only [Recorded.call, hb, Option.toList_none, List.append_nil]
      have hfs : (Recorded.call M (recorded M op calls) call).2.frames =
          (recorded M op calls).frames := by
        simp only [Recorded.call, hsh, Option.toList_none, List.append_nil]
      rw [hcs] at hne
      rw [hcs, hfs]
      have hs : ((recorded M op calls).op.call M call).2.state = .completed ∨
        ((recorded M op calls).op.call M call).2.state = .resultTaken := hs
      generalize (recorded M op calls).op.call M call = result at hmv hs
      obtain ⟨reply, op'⟩ := result
      dsimp only at hmv hs
      cases hmv with
      | refused => exact ih hs hne
      | taken value hc hcompleted => exact ih (Or.inl hcompleted) hne
      | done bytes m m' input value hh =>
        obtain ⟨current, hshown, hopen⟩ := hf.shown
        rcases handed_state hh with ⟨hcreated, _⟩ | ⟨hawait, _⟩
        · exact absurd (hf.standing.of_created hcreated).2.1 hne
        · have hsome := hf.lifecycle.conversation.mpr hawait
          rw [hopen hawait] at hsome
          obtain ⟨k, rfl⟩ := Option.isSome_iff_exists.mp hsome
          exact ⟨k, hshown, answered_pending hh hawait (hopen hawait)⟩
      | cancelled | went | broke | failed | rejected | began => rcases hs with hs | hs <;> cases hs

end finished

end ProtocolFraming
