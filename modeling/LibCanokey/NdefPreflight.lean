import LibCanokey.NdefRoundTrip

/-! # Channels that the NDEF factories accept

What a factory checks of the channel before it returns an operation, and whether the operation
can still be stopped by the channel on a card that answers everything as it should. -/
namespace NdefPreflight

open BigEndian CheckedCursor ListTraversal ProtocolError ProtocolApdu ProtocolConversation
open ProtocolSegmentation ProtocolOperation ProtocolSession NdefMessage NdefCrashConsistency
open NdefCard NdefRoundTrip

inductive Factory where
  | readCapability
  | readMessage
  | writeMessage (message : Bytes)

def Factory.Accepts (options : OperationOptions) : Factory → Prop
  | .readCapability => ∃ op, NdefMessage.readCapability options = .ok op
  | .readMessage => ∃ op, NdefMessage.readMessage options = .ok op
  | .writeMessage message => ∃ op, NdefMessage.writeMessage message options = .ok op

/-- The host gives up: a limit of the channel, or a command that cannot be encoded. -/
def HostFailure {σ T : Type} (op : Operation σ T) : Prop :=
  ∃ e, Ends op (.error e) ∧ (e.kind = .limitExceeded ∨ e.kind = .invalidArgument)

/-- The host never gives up on a card with a well-formed container that admits the message. -/
def Factory.Unhindered (options : OperationOptions) : Factory → Prop
  | .readCapability => ∀ op cc capability card, NdefMessage.readCapability options = .ok op →
      parseCc cc = .ok capability →
      ¬ HostFailure (execute capabilityMachine (ndefApplet cc capability.fileId) op card).1
  | .readMessage => ∀ op cc capability card, NdefMessage.readMessage options = .ok op →
      parseCc cc = .ok capability → nlen card.file ≤ capability.maxMessageLength →
      ¬ HostFailure (execute readMachine (ndefApplet cc capability.fileId) op card).1
  | .writeMessage message => ∀ op cc capability card,
      NdefMessage.writeMessage message options = .ok op → parseCc cc = .ok capability →
      capability.readOnly = false → message.length ≤ capability.maxMessageLength →
      ¬ HostFailure (execute writeMachine (ndefApplet cc capability.fileId) op card).1

section capability

variable {options : OperationOptions} {cc : Bytes} {capability : NdefCapability}

theorem readCapability_eq_ok {op : Operation CapabilityMachine NdefCapability}
    (h : NdefMessage.readCapability options = .ok op) :
    options.Valid ∧ ccLen ≤ options.limits.maxTotalResponseBytes ∧
      3 ≤ options.limits.maxExchanges ∧ validateCommand (readBinary 0 ccLen) options = .ok () ∧
      Operation.fromMachine { step := .selectApplet } options = .ok op := by
  simp only [NdefMessage.readCapability] at h
  obtain ⟨o, ho, hbuilt⟩ := bind_eq_ok.mp h
  obtain ⟨hvalid, rfl⟩ := validate_eq_ok.mp ho
  split_ifs at hbuilt with hlimits
  obtain ⟨_, hcc, hop⟩ := bind_eq_ok.mp hbuilt
  push Not at hlimits
  exact ⟨hvalid, hlimits.1, hlimits.2, hcc, hop⟩

/-- The applet, the container and its content, and nothing else. -/
theorem capability_served (h : Roomy options) (hp : parseCc cc = .ok capability) (card : Tag) :
    ∃ card', Served capabilityMachine (ndefApplet cc capability.fileId) options
      { step := .selectApplet } card selectApplet 3 ccLen (.ok capability) card' := by
  have hcc := parseCc_length hp
  have hroom : ([] : Bytes).length + 2 ≤ options.exchange.maxResponseBytes :=
    Nat.le_of_succ_le h.valid.response
  obtain ⟨k₀, hk₀⟩ := @accepted_plain options h selectApplet ⟨rfl, rfl, rfl⟩ rfl
    (Or.inl (by decide)) (Or.inl rfl)
  obtain ⟨k₁, hk₁⟩ := @accepted_plain options h (selectFile ccFileId) ⟨rfl, rfl, rfl⟩ rfl
    (Or.inl (by decide)) (Or.inl rfl)
  obtain ⟨k₂, hk₂⟩ := @accepted_plain options h (readBinary 0 ccLen) ⟨rfl, rfl, rfl⟩ rfl
    (Or.inl (by decide)) (Or.inr ⟨ccLen, rfl, by decide, by decide, h.response⟩)
  have hopening := opening_calls hcc capability.fileId card
  have h₂ := answers_plain hk₂ ⟨rfl, rfl, rfl⟩ ⟨rfl, by decide⟩ hopening.content (Nat.le_of_eq hcc)
    (by rw [hcc]; exact h.response)
  have h₁ := answers_plain hk₁ ⟨rfl, rfl, rfl⟩ ⟨rfl, by decide⟩ hopening.container
    (Nat.zero_le _) hroom
  have h₀ := answers_plain hk₀ ⟨rfl, rfl, rfl⟩ ⟨rfl, by decide⟩ hopening.applet
    (Nat.zero_le _) hroom
  have hdone : capabilityMachine.next { step := .readCc } (some (succeeded cc)) =
      (.ok (.done capability), { step := .readCc }) := by
    have habsorb : ({ step := .readCc } : CapabilityMachine).absorb (succeeded cc) =
        .ok (some capability, { step := .readCc }) := by
      change (parseCc cc >>= _) = _
      rw [hp]
      rfl
    simp only [capabilityMachine, turn, habsorb]
  have hn₁ : capabilityMachine.next { step := .selectCc } (some (succeeded [])) =
      (.ok (.command (readBinary 0 ccLen)), { step := .readCc }) := rfl
  have hn₀ : capabilityMachine.next { step := .selectApplet } (some (succeeded [])) =
      (.ok (.command (selectFile ccFileId)), { step := .selectCc }) := rfl
  have hserved := Served.more h₀ hn₀ (Served.more h₁ hn₁ (Served.done h₂ hdone))
  have hlen : (succeeded cc).data.length = ccLen := hcc
  rw [hlen] at hserved
  exact ⟨_, hserved⟩

theorem capability_execute {op : Operation CapabilityMachine NdefCapability}
    (hop : NdefMessage.readCapability options = .ok op) (hsel : Selectable options)
    (hp : parseCc cc = .ok capability) (card : Tag) :
    Ends (execute capabilityMachine (ndefApplet cc capability.fileId) op card).1
      (.ok capability) := by
  obtain ⟨hvalid, htotal, hbudget, hcc, hop⟩ := readCapability_eq_ok hop
  have hroomy : Roomy options := ⟨hvalid, hsel.1, hsel.2, readCc_response hcc⟩
  obtain ⟨card', hserved⟩ := capability_served hroomy hp card
  exact (execute_served hop rfl hserved hbudget (le_min (by decide) htotal)).1

end capability

section failure

variable {options : OperationOptions} {σ T : Type} {op : Operation σ T}

theorem not_hostFailure {value : T} (h : Ends op (.ok value)) : ¬ HostFailure op := by
  rintro ⟨e, he, _⟩
  have hcompleted := h.1
  rw [he.1] at hcompleted
  cases hcompleted

theorem selectApplet_refused (h : ¬ Selectable options) :
    ConversationState.new selectApplet options = .error limitExceeded := by
  have hallowed : selectApplet.continuation.instructionAllowed = true := rfl
  have hlen : selectApplet.data.length = 7 := rfl
  simp only [ConversationState.new]
  rw [if_neg (not_not.mpr hallowed), hlen]
  by_cases hinput : 7 > options.limits.maxInputBytes
  · exact if_pos hinput
  · rw [if_neg hinput]
    have hshort : ¬ (selectApplet.data = [] ∨ selectApplet.data.length ≤ maxShort options) := by
      rintro (hnil | hfit)
      · cases hnil
      · rw [hlen, maxShort] at hfit
        apply h
        refine ⟨?_, ?_⟩ <;> omega
    have hframes : physicalFrames selectApplet options = .error limitExceeded := by
      have hextended : extendedFrames selectApplet options = .ok [] :=
        if_neg fun hext => by cases hext.1.1
      rw [physicalFrames, hextended]
      change shortFrames selectApplet options = _
      rw [shortFrames, if_neg (by decide), if_neg hshort]
      exact if_pos (Or.inl (by decide))
    change (physicalFrames selectApplet options >>= _) = _
    rw [hframes]
    rfl

/-- Where the applet cannot be selected the operation ends before it has sent anything. -/
theorem hostFailure {M : Machine σ T} {m₀ m : σ} {κ : Type} {A : Applet κ}
    (hop : Operation.fromMachine m₀ options = .ok op)
    (hn : M.next m₀ none = (.ok (.command selectApplet), m)) (h : ¬ Selectable options)
    (card : κ) : HostFailure (execute M A op card).1 :=
  ⟨limitExceeded, execute_refused hop hn (selectApplet_refused h) card, Or.inl rfl⟩

end failure

/-- The channels that a factory accepts do not hinder its operation, but for those that do not let
the applet be selected. -/
theorem ndef_preflight_iff {options : OperationOptions} (factory : Factory)
    (h : factory.Accepts options) : factory.Unhindered options ↔ Selectable options := by
  have hcard : nlen (fun _ => 0) ≤ 1022 := by decide
  constructor
  · intro hnever
    by_contra hsel
    cases factory with
    | readCapability =>
      obtain ⟨op, hop⟩ := h
      obtain ⟨_, _, _, _, hmachine⟩ := readCapability_eq_ok hop
      exact hnever op writableCc _ { file := fun _ => 0 } hop parse_writableCc
        (hostFailure hmachine rfl hsel _)
    | readMessage =>
      obtain ⟨op, hop⟩ := h
      obtain ⟨_, _, _, _, hmachine⟩ := readMessage_eq_ok hop
      exact hnever op writableCc _ { file := fun _ => 0 } hop parse_writableCc hcard
        (hostFailure hmachine rfl hsel _)
    | writeMessage message =>
      obtain ⟨op, hop⟩ := h
      obtain ⟨_, hm, _, _, _, _, _, _, _, hmachine⟩ := writeMessage_eq_ok hop
      exact hnever op writableCc _ { file := fun _ => 0 } hop parse_writableCc rfl hm
        (hostFailure hmachine rfl hsel _)
  · intro hsel
    cases factory with
    | readCapability =>
      rintro op cc capability card hop hp
      exact not_hostFailure (capability_execute hop hsel hp card)
    | readMessage =>
      rintro op cc capability card hop hp hfit
      exact not_hostFailure (read_execute hop hsel hp hfit)
    | writeMessage message =>
      rintro op cc capability card hop hp hwritable hfit
      exact not_hostFailure (write_execute hop hsel hp hwritable hfit card).1

/-- A write in chunks of seven bytes and a read in chunks of fifteen. -/
theorem ndef_preflight_iff_narrow :
    (Factory.writeMessage twentyBytes).Unhindered narrowUpdates ∧
      Factory.readMessage.Unhindered narrowReads := by
  have hwrite : (Factory.writeMessage twentyBytes).Accepts narrowUpdates := ⟨_, rfl⟩
  have hread : Factory.readMessage.Accepts narrowReads := ⟨_, rfl⟩
  exact ⟨(ndef_preflight_iff _ hwrite).mpr ⟨by decide, by decide⟩,
    (ndef_preflight_iff _ hread).mpr ⟨by decide, by decide⟩⟩

/-- Eight command bytes take the updates of a write and not the SELECT of the applet. -/
theorem ndef_preflight_narrow :
    (Factory.writeMessage [7]).Accepts { exchange := { maxCommandBytes := 8 } } ∧
      ¬ (Factory.writeMessage [7]).Unhindered { exchange := { maxCommandBytes := 8 } } := by
  have hop : NdefMessage.writeMessage [7] { exchange := { maxCommandBytes := 8 } } = .ok _ := rfl
  have hnarrow : ¬ Selectable { exchange := { maxCommandBytes := 8 } } :=
    fun hsel => absurd hsel.1 (by decide)
  refine ⟨⟨_, hop⟩, fun hnever => ?_⟩
  obtain ⟨_, hm, _, _, _, _, _, _, _, hmachine⟩ := writeMessage_eq_ok hop
  exact hnever _ writableCc _ { file := fun _ => 0 } hop parse_writableCc rfl hm
    (hostFailure hmachine rfl hnarrow _)

end NdefPreflight
