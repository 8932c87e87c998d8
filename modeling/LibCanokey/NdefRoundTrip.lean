import LibCanokey.NdefCard

/-! # Exact NDEF reads after writes

A card with one message file is written and read by the two machines, each over its own
channel. Whatever the two chunk sizes, the reader gets back the message. -/
namespace NdefRoundTrip

open BigEndian CheckedCursor ListTraversal ByteFile ProtocolError ProtocolApdu
open ProtocolConversation ProtocolSegmentation ProtocolOperation ProtocolTranscript
open ProtocolSession ScriptedRuns NdefMessage NdefCrashConsistency NdefRanges NdefCard

/-- The channel lets the NDEF applet be selected. -/
def Selectable (options : OperationOptions) : Prop :=
  13 ≤ options.exchange.maxCommandBytes ∧ 7 ≤ options.limits.maxInputBytes

theorem selectable_iff {options : OperationOptions} (hvalid : options.Valid) :
    (∃ k, ConversationState.new selectApplet options = .ok k) ↔ Selectable options := by
  rw [new_plain_iff hvalid rfl rfl rfl rfl]
  simp only [selectApplet, ndefAid, maxShort, Selectable, List.length_cons, List.length_nil]
  constructor
  · rintro ⟨hin, _, _, hnil | hshort⟩
    · cases hnil
    · omega
  · rintro ⟨hcommand, hin⟩
    exact ⟨hin, trivial, fun n hn => (by cases hn), Or.inr (by omega)⟩

theorem readCc_response {options : OperationOptions}
    (h : validateCommand (readBinary 0 ccLen) options = .ok ()) :
    ccLen + 2 ≤ options.exchange.maxResponseBytes := by
  obtain ⟨hvalid, hk⟩ := validateCommand_eq_ok.mp h
  exact ((new_plain_iff hvalid rfl rfl rfl rfl).mp hk).2.2.1 ccLen rfl

theorem firstChunk_input {message : Bytes} {size : ℕ} {options : OperationOptions}
    (h : validateFirstChunk message size options = .ok ()) :
    min message.length size ≤ options.limits.maxInputBytes := by
  simp only [validateFirstChunk] at h
  split_ifs at h with hne
  · obtain ⟨hvalid, hk⟩ := validateCommand_eq_ok.mp h
    have := ((new_plain_iff hvalid rfl rfl rfl rfl).mp hk).1
    simpa [updateBinary] using this
  · rw [not_not.mp hne]
    simp

section execution

variable {cc : Bytes} {capability : NdefCapability} {message : Bytes}
  {options : OperationOptions}

theorem write_execute {op : Operation WriteMachine Unit}
    (hop : writeMessage message options = .ok op) (hsel : Selectable options)
    (hp : parseCc cc = .ok capability)
    (hw : capability.readOnly = false) (hfit : message.length ≤ capability.maxMessageLength)
    (card : Tag) :
    Ends (execute writeMachine (ndefApplet cc capability.fileId) op card).1 (.ok ()) ∧
      Stored message (execute writeMachine (ndefApplet cc capability.fileId) op card).2.file := by
  obtain ⟨hvalid, _, size, hsize, hbudget, htotal, hcc, _, hfirst, hop⟩ :=
    writeMessage_eq_ok hop
  obtain ⟨hchunk, hpos⟩ := writeChunk_eq_ok hsize
  have hroomy : Roomy options := ⟨hvalid, hsel.1, hsel.2, readCc_response hcc⟩
  obtain ⟨card', hserved, hstored⟩ := write_served cc hroomy hp hw hfit hpos (Nat.le_of_eq hchunk)
    (firstChunk_input hfirst) card
  obtain ⟨hend, hcard⟩ := execute_served hop rfl hserved hbudget
    (le_min (by decide) htotal)
  rw [hcard]
  exact ⟨hend, hstored⟩

theorem read_execute {op : Operation ReadMachine Bytes} (hop : readMessage options = .ok op)
    (hsel : Selectable options) (hp : parseCc cc = .ok capability) {card : Tag}
    (hfit : nlen card.file ≤ capability.maxMessageLength) :
    Ends (execute readMachine (ndefApplet cc capability.fileId) op card).1
      (.ok (read card.file 2 (nlen card.file))) := by
  obtain ⟨hvalid, htotal, hbudget, hcc, hop⟩ := readMessage_eq_ok hop
  have hmax := Nat.le_trans hfit (parseCc_max hp)
  have hresp := hvalid.response
  have hroomy : Roomy options := ⟨hvalid, hsel.1, hsel.2, readCc_response hcc⟩
  have hpos : 0 < readChunk options := by
    simp only [readChunk, NdefMessage.chunk]
    omega
  obtain ⟨card', hserved⟩ := read_served cc hroomy hp hpos (Nat.le_refl _) card hfit
  have hceil := divCeil_mono hmax (readChunk options)
  have husize : ccLen + 2 + maxMessageLength ≤ usizeMax := by decide
  exact (execute_served hop rfl hserved (by omega) (by omega)).1

theorem not_selectable {σ T : Type} {M : Machine σ T} {m₀ m : σ} {op : Operation σ T}
    (hvalid : options.Valid) (hop : Operation.fromMachine m₀ options = .ok op)
    (hn : M.next m₀ none = (.ok (.command selectApplet), m)) (hsel : ¬ Selectable options)
    {A : Applet Tag} {card : Tag} {value : T} :
    ¬ Ends (execute M A op card).1 (.ok value) := by
  cases hc : ConversationState.new selectApplet options with
  | ok k => exact absurd ((selectable_iff hvalid).mp ⟨k, hc⟩) hsel
  | error err =>
    obtain ⟨hfailed, _⟩ := execute_refused (A := A) hop hn hc card
    rintro ⟨hcompleted, _⟩
    rw [hfailed] at hcompleted
    cases hcompleted

end execution

/-- Reads after writes are exact, and both machines ask for contiguous ranges only. -/
structure ReadAfterWrite (message : Bytes) (wopts ropts : OperationOptions) : Prop where
  returns : ∀ cc capability card w r, parseCc cc = .ok capability →
    capability.readOnly = false → message.length ≤ capability.maxMessageLength →
    writeMessage message wopts = .ok w → readMessage ropts = .ok r →
    Ends (execute writeMachine (ndefApplet cc capability.fileId) w card).1 (.ok ()) ∧
      Ends (execute readMachine (ndefApplet cc capability.fileId) r
        (execute writeMachine (ndefApplet cc capability.fileId) w card).2).1 (.ok message)
  reads : ∀ cc capability card r, parseCc cc = .ok capability →
    nlen card.file ≤ capability.maxMessageLength → readMessage ropts = .ok r →
    Ends (execute readMachine (ndefApplet cc capability.fileId) r card).1
      (.ok (read card.file 2 (nlen card.file)))
  updates : ∀ w calls, writeMessage message wopts = .ok w →
    ∃ stop, Tiles 2 (messageUpdates (recorded writeMachine w calls).frames) stop ∧
      stop ≤ 2 + message.length
  requests : ∀ r calls, readMessage ropts = .ok r → ReadRun (recorded readMachine r calls)

theorem parse_writableCc : parseCc writableCc = .ok ⟨1, 1022, false⟩ := by
  decide +kernel

theorem selectable_of_returns {message : Bytes} {wopts ropts : OperationOptions}
    {w : Operation WriteMachine Unit} {r : Operation ReadMachine Bytes}
    (hw : writeMessage message wopts = .ok w) (hr : readMessage ropts = .ok r)
    (h : ReadAfterWrite message wopts ropts) : Selectable wopts ∧ Selectable ropts := by
  obtain ⟨hvalid, hm, _, _, _, _, _, _, _, hop⟩ := writeMessage_eq_ok hw
  obtain ⟨hvalid', _, _, _, hop'⟩ := readMessage_eq_ok hr
  obtain ⟨hwrite, hread⟩ :=
    h.returns writableCc _ { file := fun _ => 0 } w r parse_writableCc rfl hm hw hr
  constructor
  · by_contra hsel
    exact not_selectable hvalid hop rfl hsel hwrite
  · by_contra hsel
    exact not_selectable hvalid' hop' rfl hsel hread

/-- Reads after writes are exact on just the channels that let the applet be selected. -/
theorem read_after_write_iff {message : Bytes} {wopts ropts : OperationOptions}
    {w : Operation WriteMachine Unit} {r : Operation ReadMachine Bytes}
    (hw : writeMessage message wopts = .ok w) (hr : readMessage ropts = .ok r) :
    ReadAfterWrite message wopts ropts ↔ Selectable wopts ∧ Selectable ropts := by
  constructor
  · exact selectable_of_returns hw hr
  · rintro ⟨hws, hrs⟩
    refine ⟨?_, ?_, fun w calls hw => write_tiles hw calls, fun r calls hr => read_run hr calls⟩
    · intro cc capability card w r hp hwritable hfit hw hr
      obtain ⟨hend, hlen, hmsg⟩ := write_execute hw hws hp hwritable hfit card
      refine ⟨hend, ?_⟩
      have hread := read_execute hr hrs hp (by rw [hlen]; exact hfit)
      rw [hlen, hmsg] at hread
      exact hread
    · intro cc capability card r hp hfit hr
      exact read_execute hr hrs hp hfit

/-- Responses of seventeen bytes, of which fifteen are data. -/
def narrowReads : OperationOptions := { exchange := { maxResponseBytes := 17 } }

/-- Twenty bytes are written in chunks of seven and read in chunks of fifteen. -/
theorem read_after_write_iff_narrow : ∃ w r, writeMessage twentyBytes narrowUpdates = .ok w ∧
    readMessage narrowReads = .ok r ∧
    Ends (execute readMachine (ndefApplet writableCc 1) r
      (execute writeMachine (ndefApplet writableCc 1) w { file := fun _ => 1 }).2).1
        (.ok twentyBytes) := by
  have hw : writeMessage twentyBytes narrowUpdates = .ok _ := rfl
  have hr : readMessage narrowReads = .ok _ := rfl
  have hround := (read_after_write_iff hw hr).mpr ⟨⟨by decide, by decide⟩, by decide, by decide⟩
  exact ⟨_, _, hw, hr,
    (hround.returns _ _ { file := fun _ => 1 } _ _ parse_writableCc rfl (by decide) hw hr).2⟩

/-- Eight command bytes: enough for the updates, not for the SELECT before them. -/
theorem read_after_write_narrow : ∃ w r,
    writeMessage [7] { exchange := { maxCommandBytes := 8 } } = .ok w ∧
    readMessage {} = .ok r ∧ ¬ ReadAfterWrite [7] { exchange := { maxCommandBytes := 8 } } {} := by
  have hw : writeMessage [7] { exchange := { maxCommandBytes := 8 } } = .ok _ := rfl
  have hr : readMessage {} = .ok _ := rfl
  refine ⟨_, _, hw, hr, fun h => ?_⟩
  have hsel := (selectable_of_returns hw hr h).1.1
  revert hsel
  decide

end NdefRoundTrip
