import LibCanokey.ByteFile
import LibCanokey.NdefMessage
import LibCanokey.ProtocolTranscript

/-! # Crash consistency of an NDEF write

The exposed UPDATE BINARY frames are applied to a model file, the last of them possibly
not. Every file this leaves is untouched, cleared or holds the whole message. -/
namespace NdefCrashConsistency

open BigEndian ListTraversal ByteFile ProtocolError ProtocolApdu ProtocolApduDecoder
open ProtocolConversation ProtocolOperation ProtocolTranscript ScriptedRuns NdefMessage

/-- What the card writes on UPDATE BINARY, from the frame it decodes. -/
def updateOf (d : DecodedCommand) : Option (Write Byte) :=
  if d.header.ins = 0xd6 then some ⟨d.header.p1.toNat * 256 + d.header.p2.toNat, d.data⟩
  else none

def updates (frames : List CommandApdu) : List (Write Byte) :=
  frames.filterMap fun f => (decode f.bytes).bind updateOf

def nlen (file : File Byte) : ℕ := ofBeBytes (read file 0 2)

def Stored (message : Bytes) (file : File Byte) : Prop :=
  nlen file = message.length ∧ read file 2 message.length = message

def commandUpdate (c : LogicalCommand) : Option (Write Byte) :=
  updateOf ⟨c.header, c.data, c.le⟩

/-- Commands that are one frame each and never resent. -/
def Plain (c : LogicalCommand) : Prop :=
  c.allowChaining = false ∧ c.correctLe = false ∧ c.continuation = .iso7816 0

theorem updates_shown {options : OperationOptions} {cs : List LogicalCommand}
    {fs : List CommandApdu} {k : Option ConversationState} (h : Shown options cs fs k)
    (hcs : ∀ c ∈ cs, Plain c) : updates fs = cs.filterMap commandUpdate :=
  h.filterMap updateOf (fun _ => rfl) hcs

theorem offset_bytes (o : UInt16) :
    (o >>> 8).toUInt8.toNat * 256 + o.toUInt8.toNat = o.toNat := by
  have := o.toNat_lt
  simp [UInt16.toNat_shiftRight, Nat.shiftRight_eq_div_pow]
  omega

theorem commandUpdate_updateBinary (o : UInt16) (data : Bytes) :
    commandUpdate (updateBinary o data) = some ⟨o.toNat, data⟩ := by
  simp only [commandUpdate, updateOf, updateBinary, if_true, offset_bytes]

theorem WriteMachine.command_plain (m : WriteMachine) : Plain m.command := by
  obtain ⟨step, message, chunk, fileId, offset⟩ := m
  cases step <;> exact ⟨rfl, rfl, rfl⟩

/-- The write, if any, that the command of a machine asks for. -/
def asked (m : WriteMachine) : Option (Write Byte) :=
  match m.step with
  | .zeroLength => some ⟨0, [0, 0]⟩
  | .message => some ⟨(2 + UInt16.ofNat m.offset).toNat, (m.message.drop m.offset).take m.take⟩
  | .finalLength => some ⟨0, toBeBytes 2 m.message.length⟩
  | _ => none

theorem commandUpdate_command (m : WriteMachine) : commandUpdate m.command = asked m := by
  obtain ⟨step, message, chunk, fileId, offset⟩ := m
  cases step
  case zeroLength => exact commandUpdate_updateBinary 0 _
  case message => exact commandUpdate_updateBinary _ _
  case finalLength => exact commandUpdate_updateBinary 0 _
  all_goals rfl

theorem filterMap_command (m : WriteMachine) :
    [m.command].filterMap commandUpdate = (asked m).toList := by
  rw [← commandUpdate_command]
  cases h : commandUpdate m.command <;> simp [h]

/-- The capability container was read and admits a write of the message. -/
def Admitted (message : Bytes) (rs : List ResponseData) : Prop :=
  ∃ r capability, rs[2]? = some r ∧ parseCc r.data = .ok capability ∧
    capability.readOnly = false ∧ message.length ≤ capability.maxMessageLength

theorem Admitted.mono {message : Bytes} {rs rs' : List ResponseData} (h : Admitted message rs)
    (hp : rs <+: rs') : Admitted message rs' := by
  obtain ⟨r, capability, hr, hrest⟩ := h
  obtain ⟨tail, rfl⟩ := hp
  refine ⟨r, capability, ?_, hrest⟩
  rw [List.getElem?_append_left (List.getElem?_eq_some_iff.mp hr).1]
  exact hr

/-- The file once every exposed write is applied, by the step of the machine. -/
def Stage (m : WriteMachine) (file : File Byte) (rs : List ResponseData)
    (ws : List (Write Byte)) : Prop :=
  match m.step with
  | .selectApplet => ws = [] ∧ rs.length = 0 ∧ m.offset = 0
  | .selectCc => ws = [] ∧ rs.length = 1 ∧ m.offset = 0
  | .readCc => ws = [] ∧ rs.length = 2 ∧ m.offset = 0
  | .selectNdef => ws = [] ∧ Admitted m.message rs ∧ m.offset = 0
  | .zeroLength => Admitted m.message rs ∧ Holds (writeAll file ws) 0 [0, 0] ∧ m.offset = 0
  | .message =>
    Admitted m.message rs ∧ Holds (writeAll file ws) 0 [0, 0] ∧ m.offset < m.message.length ∧
      Holds (writeAll file ws) 2 (m.message.take (m.offset + m.take))
  | .finalLength =>
    Admitted m.message rs ∧ Holds (writeAll file ws) 0 (toBeBytes 2 m.message.length) ∧
      Holds (writeAll file ws) 2 m.message

/-- What a machine started on `message` is, after any trace. -/
structure Underway (message : Bytes) (size : ℕ) (file : File Byte) (cs : List LogicalCommand)
    (rs : List ResponseData) (m : WriteMachine) : Prop where
  message : m.message = message
  chunk : m.chunk = size
  plain : ∀ c ∈ cs, Plain c
  stage : Stage m file rs (cs.filterMap commandUpdate)

/-- Everything a write machine can do on a response without finishing. -/
inductive Absorbs (m : WriteMachine) (r : ResponseData) : WriteMachine → Prop where
  | selectApplet (hs : m.step = .selectApplet) : Absorbs m r { m with step := .selectCc }
  | selectCc (hs : m.step = .selectCc) : Absorbs m r { m with step := .readCc }
  | readCc (hs : m.step = .readCc) (capability : NdefCapability)
      (hp : parseCc r.data = .ok capability) (hw : capability.readOnly = false)
      (hfit : m.message.length ≤ capability.maxMessageLength) :
      Absorbs m r { m with fileId := capability.fileId, step := .selectNdef }
  | selectNdef (hs : m.step = .selectNdef) : Absorbs m r { m with step := .zeroLength }
  | emptied (hs : m.step = .zeroLength) (he : m.message = []) :
      Absorbs m r { m with step := .finalLength }
  | cleared (hs : m.step = .zeroLength) (he : m.message ≠ []) :
      Absorbs m r { m with step := .message }
  | wrote (hs : m.step = .message) (hmore : m.offset + m.take ≠ m.message.length) :
      Absorbs m r { m with offset := m.offset + m.take, step := .message }
  | filled (hs : m.step = .message) (hend : m.offset + m.take = m.message.length) :
      Absorbs m r { m with offset := m.offset + m.take, step := .finalLength }

theorem absorb_goes {m m' : WriteMachine} {r : ResponseData}
    (h : m.absorb r = .ok (none, m')) : r.status.isSuccess = true ∧ Absorbs m r m' := by
  simp only [WriteMachine.absorb] at h
  split at h
  all_goals
    rename_i hs
    obtain ⟨_, hr, h⟩ := bind_eq_ok.mp h
    refine ⟨ensureSuccess_eq_ok.mp hr, ?_⟩
  · cases h; exact .selectApplet hs
  · cases h; exact .selectCc hs
  · obtain ⟨capability, hp, h⟩ := bind_eq_ok.mp h
    split_ifs at h with hw hbig
    cases h
    exact .readCc hs capability hp (by simpa using hw) (Nat.le_of_not_lt hbig)
  · cases h; exact .selectNdef hs
  · cases h
    by_cases he : m.message = []
    · simpa [he] using Absorbs.emptied hs he
    · simpa [he] using Absorbs.cleared hs he
  · cases h
    by_cases he : m.offset + m.take = m.message.length
    · simpa [he] using Absorbs.filled hs he
    · simpa [he] using Absorbs.wrote hs he
  · cases h

theorem absorb_finishes {m m' : WriteMachine} {r : ResponseData} {u : Unit}
    (h : m.absorb r = .ok (some u, m')) :
    r.status.isSuccess = true ∧ m.step = .finalLength := by
  simp only [WriteMachine.absorb] at h
  split at h
  all_goals
    rename_i hs
    obtain ⟨_, hr, h⟩ := bind_eq_ok.mp h
    refine ⟨ensureSuccess_eq_ok.mp hr, ?_⟩
  case h_7 => exact hs
  case h_3 =>
    obtain ⟨capability, hp, h⟩ := bind_eq_ok.mp h
    split_ifs at h
    cases h
  all_goals cases h

section stage

variable {message : Bytes} {size : ℕ} {file : File Byte} {cs : List LogicalCommand}
  {rs : List ResponseData} {m m' : WriteMachine} {r : ResponseData}

theorem admitted_concat {capability : NdefCapability} (hrs : rs.length = 2)
    (hp : parseCc r.data = .ok capability) (hw : capability.readOnly = false)
    (hfit : message.length ≤ capability.maxMessageLength) : Admitted message (rs ++ [r]) := by
  refine ⟨r, capability, ?_, hp, hw, hfit⟩
  rw [← hrs]
  simp

/-- A chunk written after its predecessors extends the message prefix in the file. -/
theorem chunk_extends {F : File Byte} {offset : ℕ} (take : ℕ)
    (hm : message.length ≤ maxMessageLength) (hle : offset + take ≤ message.length)
    (hz : Holds F 0 [0, 0])
    (hpre : Holds F 2 (message.take offset)) :
    Holds (write F ⟨(2 + UInt16.ofNat offset).toNat, (message.drop offset).take take⟩) 0 [0, 0] ∧
      Holds (write F ⟨(2 + UInt16.ofNat offset).toNat, (message.drop offset).take take⟩) 2
        (message.take (offset + take)) := by
  have hoff : (2 + UInt16.ofNat offset).toNat = 2 + offset := by
    simp only [maxMessageLength] at hm
    simp
    omega
  rw [hoff]
  have hlen : (message.take offset).length = offset := by simp; omega
  refine ⟨hz.write (Or.inl (by simp)), ?_⟩
  rw [List.take_add]
  apply holds_append.mpr
  rw [hlen]
  exact ⟨hpre.write (Or.inl (by simp [hlen])), holds_write F _⟩

theorem stored_of_holds {F : File Byte} (hm : message.length ≤ maxMessageLength)
    (hlen : Holds F 0 (toBeBytes 2 message.length)) (hmsg : Holds F 2 message) :
    Stored message F := by
  have := hlen.read_eq
  rw [length_toBeBytes] at this
  refine ⟨?_, hmsg⟩
  rw [nlen, this]
  exact ofBeBytes_toBeBytes (by simp only [maxMessageLength] at hm; omega)

theorem stage_step (hm : m.message.length ≤ maxMessageLength) {ws : List (Write Byte)}
    (h : Stage m file rs ws) (ha : Absorbs m r m') :
    Stage m' file (rs ++ [r]) (ws ++ (asked m').toList) := by
  have hp : rs <+: rs ++ [r] := List.prefix_append rs [r]
  have htake : m.take ≤ m.message.length - m.offset := Nat.min_le_left _ _
  cases ha with
  | selectApplet hs =>
    simp only [Stage, hs] at h
    simpa [Stage, asked] using h
  | selectCc hs =>
    simp only [Stage, hs] at h
    simpa [Stage, asked] using h
  | readCc hs capability hp hw hfit =>
    simp only [Stage, hs] at h
    simpa [Stage, asked, h.1, h.2.2] using admitted_concat h.2.1 hp hw hfit
  | selectNdef hs =>
    simp only [Stage, hs] at h
    simp only [Stage, asked, Option.toList_some, writeAll_concat]
    exact ⟨h.2.1.mono hp, holds_write _ _, h.2.2⟩
  | emptied hs he =>
    simp only [Stage, hs] at h
    simp only [Stage, asked, Option.toList_some, writeAll_concat]
    exact ⟨h.1.mono hp, holds_write _ _, by simp [Holds, he]⟩
  | cleared hs he =>
    simp only [Stage, hs] at h
    obtain ⟨hadm, hz, hoff⟩ := h
    have hpos : 0 < m.message.length := List.length_pos_iff.mpr he
    have hpre : Holds (writeAll file ws) 2 (m.message.take m.offset) := by
      rw [hoff]
      rfl
    obtain ⟨hz', hpre'⟩ := chunk_extends m.take hm (by omega) hz hpre
    simp only [Stage, asked, Option.toList_some, writeAll_concat]
    exact ⟨hadm.mono hp, hz', by omega, hpre'⟩
  | wrote hs hmore =>
    simp only [Stage, hs] at h
    obtain ⟨hadm, hz, hlt, hpre⟩ := h
    have htake' : ({ m with offset := m.offset + m.take, step := .message } :
        WriteMachine).take ≤ m.message.length - (m.offset + m.take) := Nat.min_le_left _ _
    obtain ⟨hz', hpre'⟩ := chunk_extends ({ m with
      offset := m.offset + m.take, step := .message } : WriteMachine).take hm (by omega) hz hpre
    simp only [Stage, asked, Option.toList_some, writeAll_concat]
    exact ⟨hadm.mono hp, hz', by omega, hpre'⟩
  | filled hs hend =>
    simp only [Stage, hs] at h
    obtain ⟨hadm, hz, hlt, hpre⟩ := h
    rw [hend, List.take_length] at hpre
    simp only [Stage, asked, Option.toList_some, writeAll_concat]
    exact ⟨hadm.mono hp, holds_write _ _, hpre.write (Or.inr (by simp))⟩

theorem trace_underway (file : File Byte) (hm : message.length ≤ maxMessageLength)
    (h : Trace writeMachine (.initial message size) cs rs m) :
    Underway message size file cs rs m := by
  induction h with
  | opened h =>
    obtain ⟨rfl, ⟨_, rfl⟩ | ⟨_, hr, _⟩⟩ := WriteMachine.next_command h
    · refine ⟨rfl, rfl, ?_, rfl, rfl, rfl⟩
      intro c hc
      rw [List.mem_singleton.mp hc]
      exact WriteMachine.command_plain _
    · cases hr
  | @answered cs rs m m' r c ht h ih =>
    obtain ⟨rfl, ⟨hr, _⟩ | ⟨_, hr, ha⟩⟩ := WriteMachine.next_command h
    · cases hr
    cases hr
    obtain ⟨_, habs⟩ := absorb_goes ha
    have hsame : m'.message = m.message ∧ m'.chunk = m.chunk := by
      cases habs <;> exact ⟨rfl, rfl⟩
    refine ⟨hsame.1.trans ih.message, hsame.2.trans ih.chunk, ?_, ?_⟩
    · intro c' hc'
      rcases List.mem_append.mp hc' with hc' | hc'
      · exact ih.plain c' hc'
      · rw [List.mem_singleton.mp hc']
        exact WriteMachine.command_plain _
    · have hstep := stage_step (by rw [ih.message]; exact hm) ih.stage habs
      rw [List.filterMap_append, filterMap_command]
      exact hstep

/-- Nothing, the cleared file, or the whole message. -/
theorem stage_consistent (hm : m.message.length ≤ maxMessageLength) {ws : List (Write Byte)}
    (h : Stage m file rs ws) :
    ws = [] ∨ nlen (writeAll file ws) = 0 ∨ Stored m.message (writeAll file ws) := by
  have hzero (hz : Holds (writeAll file ws) 0 [0, 0]) : nlen (writeAll file ws) = 0 := by
    have := hz.read_eq
    simp only [List.length_cons, List.length_nil] at this
    rw [nlen, this]
    rfl
  cases hs : m.step with
  | selectApplet => simp only [Stage, hs] at h; exact Or.inl h.1
  | selectCc => simp only [Stage, hs] at h; exact Or.inl h.1
  | readCc => simp only [Stage, hs] at h; exact Or.inl h.1
  | selectNdef => simp only [Stage, hs] at h; exact Or.inl h.1
  | zeroLength => simp only [Stage, hs] at h; exact Or.inr (Or.inl (hzero h.2.1))
  | message => simp only [Stage, hs] at h; exact Or.inr (Or.inl (hzero h.2.1))
  | finalLength =>
    simp only [Stage, hs] at h
    exact Or.inr (Or.inr (stored_of_holds hm h.2.1 h.2.2))

theorem stage_admitted {ws : List (Write Byte)} (h : Stage m file rs ws) :
    ws = [] ∨ Admitted m.message rs := by
  cases hs : m.step with
  | selectApplet => simp only [Stage, hs] at h; exact Or.inl h.1
  | selectCc => simp only [Stage, hs] at h; exact Or.inl h.1
  | readCc => simp only [Stage, hs] at h; exact Or.inl h.1
  | selectNdef => simp only [Stage, hs] at h; exact Or.inl h.1
  | zeroLength => simp only [Stage, hs] at h; exact Or.inr h.1
  | message => simp only [Stage, hs] at h; exact Or.inr h.1
  | finalLength => simp only [Stage, hs] at h; exact Or.inr h.1

/-- Without its last write the file is as the trace before left it. -/
theorem trace_dropLast (hm : message.length ≤ maxMessageLength)
    (h : Trace writeMachine (.initial message size) cs rs m) :
    (cs.filterMap commandUpdate).dropLast = [] ∨
      ∃ cs' rs' m', Trace writeMachine (.initial message size) cs' rs' m' ∧
        (cs.filterMap commandUpdate).dropLast = cs'.filterMap commandUpdate := by
  cases h with
  | opened h =>
    left
    obtain ⟨rfl, ⟨_, rfl⟩ | ⟨_, hr, _⟩⟩ := WriteMachine.next_command h
    · rfl
    · cases hr
  | @answered cs rs m' _ r c ht h =>
    obtain ⟨rfl, ⟨hr, _⟩ | ⟨_, hr, ha⟩⟩ := WriteMachine.next_command h
    · cases hr
    rw [List.filterMap_append, filterMap_command]
    cases hask : asked m with
    | some w => exact Or.inr ⟨cs, rs, m', ht, by simp⟩
    | none =>
      left
      have hu := trace_underway (fun _ => 0) hm (.answered ht h)
      have hstage := hu.stage
      rw [List.filterMap_append, filterMap_command, hask] at hstage
      cases hs : m.step with
      | selectApplet => simp only [Stage, hs] at hstage; simp_all
      | selectCc => simp only [Stage, hs] at hstage; simp_all
      | readCc => simp only [Stage, hs] at hstage; simp_all
      | selectNdef => simp only [Stage, hs] at hstage; simp_all
      | zeroLength => simp [asked, hs] at hask
      | message => simp [asked, hs] at hask
      | finalLength => simp [asked, hs] at hask

end stage

/-- What is on the card at any time of a run, and what the run can have returned. -/
structure CrashConsistent (message : Bytes) (file : File Byte)
    (history : List (Call × Reply Unit)) (s : Recorded WriteMachine Unit) : Prop where
  states : ∀ applied, applied = updates s.frames ∨ applied = (updates s.frames).dropLast →
    applied = [] ∧ writeAll file applied = file ∨ nlen (writeAll file applied) = 0 ∨
      Stored message (writeAll file applied)
  gated : ∀ r, s.responses[2]? = some r →
    (∀ capability, parseCc r.data = .ok capability →
      capability.readOnly = true ∨ capability.maxMessageLength < message.length) →
    updates s.frames = []
  done : (∃ call, (call, .step (.ok .done)) ∈ history) →
    Stored message (writeAll file (updates s.frames))

/-- Every set of applied updates a stop can leave, after a trace. -/
theorem trace_states {message : Bytes} {size : ℕ} (hm : message.length ≤ maxMessageLength)
    {cs : List LogicalCommand} {rs : List ResponseData} {m : WriteMachine}
    (h : Trace writeMachine (.initial message size) cs rs m) (file : File Byte)
    {applied : List (Write Byte)} (happ : applied = cs.filterMap commandUpdate ∨
      applied = (cs.filterMap commandUpdate).dropLast) :
    applied = [] ∨ nlen (writeAll file applied) = 0 ∨ Stored message (writeAll file applied) := by
  have hreach {cs' : List LogicalCommand} {rs' : List ResponseData} {m' : WriteMachine}
      (ht : Trace writeMachine (.initial message size) cs' rs' m') :
      cs'.filterMap commandUpdate = [] ∨
        nlen (writeAll file (cs'.filterMap commandUpdate)) = 0 ∨
          Stored message (writeAll file (cs'.filterMap commandUpdate)) := by
    have hu := trace_underway file hm ht
    have := stage_consistent (by rw [hu.message]; exact hm) hu.stage
    rw [hu.message] at this
    exact this
  rcases happ with rfl | rfl
  · exact hreach h
  · rcases trace_dropLast hm h with hnil | ⟨cs', rs', m', ht, heq⟩
    · exact Or.inl hnil
    · rw [heq]
      exact hreach ht

/-- Whatever the card answers and wherever the run stops, the file is untouched while no
update is applied, and otherwise cleared or complete. -/
theorem write_crash_consistent {message : Bytes} {options : OperationOptions}
    {op : Operation WriteMachine Unit} (h : writeMessage message options = .ok op)
    (file : File Byte) (calls : List Call) :
    CrashConsistent message file (run (Operation.call writeMachine) op calls).1
      (recorded writeMachine op calls) := by
  obtain ⟨_, hm, size, _, _, _, _, _, _, hop⟩ := writeMessage_eq_ok h
  have hf := recorded_follows writeMachine hop calls
  generalize recorded writeMachine op calls = s at hf ⊢
  generalize (run (Operation.call writeMachine) op calls).1 = history at hf ⊢
  obtain ⟨k, hshown, _⟩ := hf.shown
  refine ⟨?_, ?_, ?_⟩
  · intro applied happ
    rcases hf.standing.commands with hcs | ⟨rs, m, hrs, ht⟩
    · rw [hcs] at hshown
      have hnone : updates s.frames = [] := updates_shown hshown (by simp)
      rw [hnone] at happ
      left
      rcases happ with rfl | rfl <;> exact ⟨rfl, rfl⟩
    · have hu := trace_underway file hm ht
      rw [updates_shown hshown hu.plain] at happ
      rcases trace_states hm ht file happ with rfl | hstate
      · exact Or.inl ⟨rfl, rfl⟩
      · exact Or.inr hstate
  · intro r hr hbad
    rcases hf.standing.commands with hcs | ⟨rs, m, hrs, ht⟩
    · rw [hcs] at hshown
      exact updates_shown hshown (by simp)
    · have hu := trace_underway file hm ht
      rw [updates_shown hshown hu.plain]
      rcases stage_admitted hu.stage with hnil | hadm
      · exact hnil
      · obtain ⟨r', capability, hr', hp, hw, hfit⟩ := hadm.mono hrs
        rw [hr] at hr'
        cases hr'
        rw [hu.message] at hfit
        rcases hbad capability hp with hro | hsmall
        · rw [hw] at hro
          cases hro
        · omega
  · intro hdone
    obtain ⟨m, v, hlast, _⟩ := hf.standing.of_finished (hf.finished hdone)
    generalize s.commands = cs at hlast hshown
    generalize s.responses = rs at hlast
    cases hlast with
    | opening hn =>
      obtain ⟨_, hr, _⟩ := WriteMachine.next_done hn
      cases hr
    | answering ht hn =>
      obtain ⟨_, _, ha⟩ := WriteMachine.next_done hn
      obtain ⟨_, hs⟩ := absorb_finishes ha
      have hu := trace_underway file hm ht
      rw [updates_shown hshown hu.plain]
      have hstage := hu.stage
      simp only [Stage, hs, hu.message] at hstage
      exact stored_of_holds hm hstage.2.1 hstage.2.2

/-- A capability container that advertises a writable file of 1024 bytes. -/
def writableCc : Bytes := [0, 15, 0x20, 0, 0xff, 0, 0xff, 4, 6, 0, 1, 4, 0, 0, 0]

def success : Bytes := [0x90, 0x00]

/-- The calls that carry a write up to its first exposed update. -/
def untilFirstUpdate : List Call :=
  [.start, .advance success, .advance success, .advance (writableCc ++ success), .advance success]

def twentyBytes : Bytes := (List.range 20).map UInt8.ofNat

/-- Commands of thirteen bytes, in which an update has seven. -/
def narrowUpdates : OperationOptions := { exchange := { maxCommandBytes := 13 } }

/-- So many updates are answered. -/
def afterUpdates (n : ℕ) : List Call := untilFirstUpdate ++ List.replicate n (.advance success)

/-- A write in three chunks: stopped after two of them, and finished after the length. -/
theorem write_crash_consistent_chunks : ∃ op, writeMessage twentyBytes narrowUpdates = .ok op ∧
    updates (recorded writeMachine op (afterUpdates 2)).frames =
      [⟨0, [0, 0]⟩, ⟨2, [0, 1, 2, 3, 4, 5, 6]⟩, ⟨9, [7, 8, 9, 10, 11, 12, 13]⟩] ∧
    CrashConsistent twentyBytes (fun _ => 1)
      (run (Operation.call writeMachine) op (afterUpdates 2)).1
      (recorded writeMachine op (afterUpdates 2)) ∧
    Stored twentyBytes
      (writeAll (fun _ => 1) (updates (recorded writeMachine op (afterUpdates 5)).frames)) := by
  have hop : writeMessage twentyBytes narrowUpdates = .ok _ := rfl
  have hfinished := write_crash_consistent hop (fun _ => 1) (afterUpdates 5)
  refine ⟨_, hop, rfl, write_crash_consistent hop _ _, hfinished.done ⟨.advance success, ?_⟩⟩
  exact List.mem_of_getElem? (i := 9) rfl

/-- The first update is exposed and not applied: the file is untouched although an update
is exposed, and neither cleared nor complete. -/
theorem write_exposed_not_applied :
    ¬ ∀ (message : Bytes) (options : OperationOptions) (op : Operation WriteMachine Unit),
      writeMessage message options = .ok op → ∀ (file : File Byte) (calls : List Call) applied,
        applied = updates (recorded writeMachine op calls).frames ∨
          applied = (updates (recorded writeMachine op calls).frames).dropLast →
        updates (recorded writeMachine op calls).frames = [] ∧ writeAll file applied = file ∨
          nlen (writeAll file applied) = 0 ∨ Stored message (writeAll file applied) := by
  intro h
  obtain ⟨op, hop, hone⟩ : ∃ op, writeMessage [7] {} = .ok op ∧
      updates (recorded writeMachine op untilFirstUpdate).frames = [⟨0, [0, 0]⟩] :=
    ⟨_, rfl, rfl⟩
  rcases h [7] {} _ hop (fun _ => 1) untilFirstUpdate [] (Or.inr (by rw [hone]; rfl))
    with ⟨hnone, _⟩ | hzero | ⟨hlen, _⟩
  · rw [hone] at hnone
    cases hnone
  · revert hzero
    decide
  · revert hlen
    decide

end NdefCrashConsistency
