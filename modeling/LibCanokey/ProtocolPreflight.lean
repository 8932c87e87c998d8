import LibCanokey.ProtocolAcceptance
import LibCanokey.ProtocolTranscript

/-! # Commands that were checked before the start

What a machine can send to a card that answers anything, from an invariant of the machine, and
the runs of an operation in which every such command begins a conversation. -/
namespace ProtocolPreflight

open ProtocolError ProtocolApdu ProtocolConversation ProtocolOperation ProtocolAcceptance
open ProtocolTranscript

variable {σ T : Type*} {M : Machine σ T} {m₀ : σ} {Q : LogicalCommand → Prop}

/-- Some dialogue with a card brings the machine to the command. -/
def Sends (M : Machine σ T) (m₀ : σ) (command : LogicalCommand) : Prop :=
  ∃ cs rs m, Trace M m₀ cs rs m ∧ command ∈ cs

/-- An invariant of the turns that end in a command, and what it gives of the command. -/
def Keeps (M : Machine σ T) (I : σ → Prop) (Q : LogicalCommand → Prop) : Prop :=
  ∀ s input c s', I s → M.next s input = (.ok (.command c), s') → Q c ∧ I s'

theorem Keeps.sends {I : σ → Prop} (h : Keeps M I Q) (h₀ : I m₀) {command : LogicalCommand}
    (hs : Sends M m₀ command) : Q command := by
  obtain ⟨cs, rs, m, ht, hmem⟩ := hs
  exact (ht.commands_mem h h₀).1 command hmem

/-- An operation whose machine sends only accepted commands has none of them rejected, after any
calls and at any call. -/
theorem rejection_none {options : OperationOptions} {op : Operation σ T}
    (hop : Operation.fromMachine m₀ options = .ok op)
    (h : ∀ c, Sends M m₀ c → Accepted options c) (calls : List Call) (call : Call) :
    rejection M (recorded M op calls).op call = none := by
  have hf := recorded_follows M hop calls
  rw [rejection]
  cases hp : proposal M (recorded M op calls).op call with
  | none => rfl
  | some c =>
    obtain ⟨rs, m, ht⟩ := hf.proposal hp
    obtain ⟨k, hk⟩ := h c ⟨_, rs, m, ht, by simp⟩
    dsimp only
    rw [hf.lifecycle.options, hk]

end ProtocolPreflight
