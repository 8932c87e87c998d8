import LibCanokey.ProtocolTranscript

/-! # Turns described in stages

A description of a machine by the commands it has exposed, the responses it was given and its
state. One that every turn keeps to holds in every run of an operation over the machine. -/
namespace ProtocolStages

open ProtocolError ProtocolConversation ProtocolOperation ProtocolTranscript

variable {σ T : Type*} {M : Machine σ T} {m₀ : σ}
  {P : List LogicalCommand → List ResponseData → σ → Prop}

/-- The opening turn establishes the description and every later command keeps it. -/
structure Described (M : Machine σ T) (m₀ : σ)
    (P : List LogicalCommand → List ResponseData → σ → Prop) : Prop where
  opening : ∀ c m, M.next m₀ none = (.ok (.command c), m) → P [c] [] m
  answering : ∀ cs rs m r c m', P cs rs m → M.next m (some r) = (.ok (.command c), m') →
    P (cs ++ [c]) (rs ++ [r]) m'

theorem Described.trace (h : Described M m₀ P) {cs : List LogicalCommand}
    {rs : List ResponseData} {m : σ} (ht : Trace M m₀ cs rs m) : P cs rs m := by
  induction ht with
  | opened hn => exact h.opening _ _ hn
  | answered _ hn ih => exact h.answering _ _ _ _ _ _ ih hn

/-- The commands of a run are those of a description of some of its responses. -/
theorem Described.exposed (h : Described M m₀ P) {options : OperationOptions}
    {op : Operation σ T} (hop : Operation.fromMachine m₀ options = .ok op) (calls : List Call) :
    (recorded M op calls).commands = [] ∨ ∃ rs m,
      rs <+: (recorded M op calls).responses ∧ P (recorded M op calls).commands rs m := by
  rcases (recorded_follows M hop calls).standing.commands with hnil | ⟨rs, m, hrs, ht⟩
  · exact Or.inl hnil
  · exact Or.inr ⟨rs, m, hrs, h.trace ht⟩

/-- What every turn that finishes leaves behind holds of every completed run. -/
theorem Described.finished (h : Described M m₀ P)
    {Q : List LogicalCommand → List ResponseData → Prop}
    (hopen : ∀ value m, M.next m₀ none ≠ (.ok (.done value), m))
    (hdone : ∀ cs rs m r value m', P cs rs m → M.next m (some r) = (.ok (.done value), m') →
      Q cs (rs ++ [r]))
    {options : OperationOptions} {op : Operation σ T}
    (hop : Operation.fromMachine m₀ options = .ok op) {calls : List Call}
    (hs : (recorded M op calls).op.state = .completed) :
    Q (recorded M op calls).commands (recorded M op calls).responses := by
  obtain ⟨m, value, ht, _⟩ := (recorded_follows M hop calls).standing.of_finished (Or.inl hs)
  generalize (recorded M op calls).commands = cs at ht ⊢
  generalize (recorded M op calls).responses = rs at ht ⊢
  cases ht with
  | opening hn => exact absurd hn (hopen value m)
  | answering ht hn => exact hdone _ _ _ _ _ _ (h.trace ht) hn

/-! ## The outcome of a last turn -/

/-- An operation ended with a result, which may have been taken. -/
structure Settles (op : Operation σ T) (result : Except Error T) : Prop where
  value : ∀ v, result = .ok v →
    op.state = .completed ∧ op.output = some v ∨ op.state = .resultTaken
  error : ∀ e, result = .error e → op.state = .failed ∧ op.error = some e

section settled

variable {options : OperationOptions} {op : Operation σ T} {calls : List Call}

/-- Responses that only a last turn follows settle an operation. -/
theorem settles_of_last (hop : Operation.fromMachine m₀ options = .ok op)
    {result : Except Error T} (hne : (recorded M op calls).responses ≠ [])
    (htrace : ∀ m, ¬ Trace M m₀ (recorded M op calls).commands (recorded M op calls).responses m)
    (hlast : ∀ m out, LastTurn M m₀ out (recorded M op calls).commands
      (recorded M op calls).responses m → out = result.map .done) :
    Settles (recorded M op calls).op result := by
  have hstanding := (recorded_follows M hop calls).standing
  cases hstanding with
  | created _ _ _ hnil => exact absurd hnil hne
  | awaiting m _ _ ht => exact absurd ht (htrace m)
  | completed m value ht _ hs =>
    have hvalue := hlast m _ ht
    cases result with
    | error e => cases hvalue
    | ok v =>
      cases hvalue
      refine ⟨?_, by rintro _ ⟨⟩⟩
      rintro _ ⟨⟩
      rcases hs with ⟨hs, hout⟩ | ⟨hs, _⟩
      · exact Or.inl ⟨hs, hout⟩
      · exact Or.inr hs
  | cancelled _ _ ht =>
    rcases ht with ⟨_, hnil⟩ | ⟨m, ht⟩
    · exact absurd hnil hne
    · exact absurd ht (htrace m)
  | broke m _ ht => exact absurd ht (htrace m)
  | failed m e hs ht he =>
    have herror := hlast m _ ht
    cases result with
    | ok v => cases herror
    | error e' =>
      cases herror
      refine ⟨by rintro _ ⟨⟩, ?_⟩
      rintro _ ⟨⟩
      exact ⟨hs, he⟩
  | rejected m c _ ht =>
    have hcommand := hlast m _ ht
    cases result <;> cases hcommand

/-- A value that is held came from a last turn. -/
theorem lastTurn_of_output (hop : Operation.fromMachine m₀ options = .ok op) {value : T}
    (hout : (recorded M op calls).op.output = some value) :
    ∃ m, LastTurn M m₀ (.ok (.done value)) (recorded M op calls).commands
      (recorded M op calls).responses m := by
  have hstate := ((recorded_follows M hop calls).lifecycle.output).mp (by rw [hout]; rfl)
  obtain ⟨m, v, ht, _, hv⟩ :=
    (recorded_follows M hop calls).standing.of_finished (Or.inl hstate)
  have hvalue := hv hstate
  rw [hout] at hvalue
  cases hvalue
  exact ⟨m, ht⟩

end settled

end ProtocolStages
