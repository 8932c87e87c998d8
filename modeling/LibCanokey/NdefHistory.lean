import LibCanokey.CrashStores
import LibCanokey.NdefRoundTrip
import LibCanokey.ProtocolInterruption

/-! # Histories of one tag

Writes and reads of any options follow each other on one tag, and each of them may stop after any
exchange. The message file then serves as a store with one key: a write that stops early leaves
the message before it, none, or its own, and a read that comes to its end returns what is there. -/
namespace NdefHistory

open BigEndian ListTraversal ByteFile ProtocolError ProtocolApdu ProtocolApduDecoder
open ProtocolConversation ProtocolOperation ProtocolTranscript ProtocolSession
open ProtocolInterruption CrashStores NdefMessage NdefCrashConsistency NdefRanges NdefCard

/-- The message that a tag holds. -/
def content (tag : Tag) : Unit → Bytes := fun _ => read tag.file 2 (nlen tag.file)

/-- What a torn write can leave: the message before, none, or its own. -/
def left (old new v : Bytes) : Prop := v = old ∨ v = [] ∨ v = new

/-- What a host does with the tag until it is done or stops. -/
inductive Session where
  | write (message : Bytes) (options : OperationOptions) (stop : Stop)
  | read (options : OperationOptions) (stop : Stop)

/-- The tag after a session, and what the host has learned. -/
def hold (cc : Bytes) (fileId : UInt16) (tag : Tag) : Session → Tag × Option (Event Unit Bytes)
  | .write message options stop =>
    match writeMessage message options with
    | .error _ => (tag, none)
    | .ok op =>
      ((interrupted writeMachine (ndefApplet cc fileId) op tag stop).2,
        some (if (interrupted writeMachine (ndefApplet cc fileId) op tag stop).1.state = .completed
          then .wrote () message else .torn () message))
  | .read options stop =>
    match readMessage options with
    | .error _ => (tag, none)
    | .ok op =>
      ((interrupted readMachine (ndefApplet cc fileId) op tag stop).2,
        (interrupted readMachine (ndefApplet cc fileId) op tag stop).1.result.toOption.map
          (.read ()))

section applet

variable (cc : Bytes) (fileId : UInt16) (card : Tag)

theorem ndefApplet_status (d : DecodedCommand) :
    is61 (ndefApplet cc fileId card d).1.status.raw = false ∧
      is6c (ndefApplet cc fileId card d).1.status.raw = false := by
  have hplain (r : ResponseData) (h : r.status.raw = 0x9000 ∨ r.status.raw = 0x6a82 ∨
      r.status.raw = 0x6985 ∨ r.status.raw = 0x6d00) :
      is61 r.status.raw = false ∧ is6c r.status.raw = false := by
    rcases h with h | h | h | h
    all_goals
      rw [h]
      decide
  apply hplain
  unfold ndefApplet
  dsimp only
  split_ifs
  · exact Or.inl rfl
  · exact Or.inr (Or.inl rfl)
  · split
    · exact Or.inl rfl
    · exact Or.inr (Or.inl rfl)
  · split
    · exact Or.inl rfl
    · exact Or.inl rfl
    · exact Or.inr (Or.inr (Or.inl rfl))
  · split
    · exact Or.inl rfl
    · exact Or.inr (Or.inr (Or.inl rfl))
  · exact Or.inr (Or.inr (Or.inr rfl))

/-- Only an UPDATE BINARY changes the file. -/
theorem ndefApplet_quiet {d : DecodedCommand} (h : updateOf d = none) :
    (ndefApplet cc fileId card d).2.file = card.file := by
  have hins : d.header.ins ≠ 0xd6 := by
    intro hins
    simp [updateOf, hins] at h
  unfold ndefApplet
  dsimp only
  split_ifs <;> first | rfl | (split <;> rfl)

/-- An UPDATE BINARY that succeeds is applied, and one that is refused is not. -/
theorem ndefApplet_update {d : DecodedCommand} {w : Write Byte} (h : updateOf d = some w) :
    (ndefApplet cc fileId card d).2.file =
      if (ndefApplet cc fileId card d).1.status.isSuccess then write card.file w
      else card.file := by
  have hins : d.header.ins = 0xd6 := by
    by_contra hins
    simp [updateOf, hins] at h
  simp only [updateOf, hins, if_true, Option.some.injEq] at h
  subst h
  have ha4 : ¬ (0xd6 : UInt8) = 0xa4 := by decide
  have hb0 : ¬ (0xd6 : UInt8) = 0xb0 := by decide
  simp only [ndefApplet, hins, ha4, hb0, if_false, if_true]
  cases card.selected with
  | none => rfl
  | some file => cases file <;> rfl

end applet

section calls

variable {cc : Bytes} {fileId : UInt16} {options : OperationOptions} {card card' : Tag}
  {c : LogicalCommand} {r : ResponseData}

theorem calls_plain (hc : Plain c)
    (h : Calls (ndefApplet cc fileId) options card c r card') :
    NdefCard.calls cc fileId card c = (r, card') := by
  obtain ⟨le, hclamp, hcall⟩ := h
  have hle : le = c.le := by
    simp only [clampLe, hc.2.1] at hclamp
    cases hle : c.le with
    | absent =>
      rw [hle] at hclamp
      cases hclamp
      rfl
    | exact n =>
      rw [hle] at hclamp
      simp only [Bool.false_eq_true, and_false, if_false] at hclamp
      split_ifs at hclamp
      cases hclamp
      rfl
  subst hle
  exact hcall

theorem plain_carriable (hc : Plain c) (hheader : c.header.cla = 0 ∧ c.header.ins ≠ 0xc0) :
    Carriable (ndefApplet cc fileId) options card c := by
  refine ⟨⟨by rw [hheader.1]; decide, hheader.2⟩, ⟨0, hc.2.2, by decide⟩, ?_⟩
  rintro r card' ⟨le, _, hcall⟩
  have hstatus := ndefApplet_status cc fileId card ⟨c.header, c.data, le⟩
  rw [hcall] at hstatus
  exact hstatus

/-- The file after a command that was answered with success. -/
theorem calls_success (hc : Plain c) (h : Calls (ndefApplet cc fileId) options card c r card')
    (hr : r.status.isSuccess = true) :
    card'.file = writeAll card.file (commandUpdate c).toList := by
  have hcall : ndefApplet cc fileId card ⟨c.header, c.data, c.le⟩ = (r, card') :=
    calls_plain hc h
  cases hw : commandUpdate c with
  | none =>
    have hquiet := ndefApplet_quiet cc fileId card hw
    rw [hcall] at hquiet
    exact hquiet
  | some w =>
    have hupdate := ndefApplet_update cc fileId card hw
    rw [hcall, if_pos hr] at hupdate
    exact hupdate

/-- The file after any command. -/
theorem calls_either (hc : Plain c) (h : Calls (ndefApplet cc fileId) options card c r card') :
    card'.file = card.file ∨ card'.file = writeAll card.file (commandUpdate c).toList := by
  by_cases hr : r.status.isSuccess = true
  · exact Or.inr (calls_success hc h hr)
  · left
    have hcall : ndefApplet cc fileId card ⟨c.header, c.data, c.le⟩ = (r, card') :=
      calls_plain hc h
    cases hw : commandUpdate c with
    | none =>
      have hquiet := ndefApplet_quiet cc fileId card hw
      rw [hcall] at hquiet
      exact hquiet
    | some w =>
      have hupdate := ndefApplet_update cc fileId card hw
      rw [hcall, if_neg hr] at hupdate
      exact hupdate

end calls

theorem writeAll_append (file : File Byte) (ws ws' : List (Write Byte)) :
    writeAll file (ws ++ ws') = writeAll (writeAll file ws) ws' := List.foldl_append

theorem content_stored {message : Bytes} {tag : Tag} (h : Stored message tag.file) :
    content tag = fun _ => message := by
  funext _
  rw [content, h.1, h.2]

theorem content_cleared {tag : Tag} (h : nlen tag.file = 0) : content tag = fun _ => [] := by
  funext _
  rw [content, h, read_zero]

theorem content_same {tag tag' : Tag} (h : tag'.file = tag.file) : content tag' = content tag := by
  funext _
  rw [content, content, h]

section writing

variable {cc : Bytes} {fileId : UInt16} {options : OperationOptions} {message : Bytes} {size : ℕ}
  {tag tag' : Tag} {cs : List LogicalCommand} {c : LogicalCommand} {rs : List ResponseData}
  {m : WriteMachine}

/-- Whenever a writer asks, the file is what its updates before have made of it. -/
theorem writer_file (ht : Trace writeMachine (.initial message size) (cs ++ [c]) rs m)
    (hr : Replies (ndefApplet cc fileId) options tag cs rs tag') :
    c = m.command ∧ tag'.file = writeAll tag.file (cs.filterMap commandUpdate) := by
  refine @asked_invariant _ _ _ writeMachine (ndefApplet cc fileId) options _ tag
    (fun cs m c tag' => c = m.command ∧
      tag'.file = writeAll tag.file (cs.filterMap commandUpdate)) ?_ ?_ cs c rs m tag' ht hr
  · intro c m hn
    obtain ⟨rfl, _⟩ := WriteMachine.next_command hn
    exact ⟨rfl, rfl⟩
  · rintro cs m c tag₁ r tag₂ c' m' ⟨rfl, hfile⟩ hcall hn
    obtain ⟨rfl, ⟨hnone, _⟩ | ⟨r', hsome, ha⟩⟩ := WriteMachine.next_command hn
    · cases hnone
    cases hsome
    refine ⟨rfl, ?_⟩
    rw [calls_success (WriteMachine.command_plain m) hcall (absorb_goes ha).1, hfile,
      List.filterMap_append, writeAll_append]
    cases hw : commandUpdate m.command <;> simp [hw]

theorem writer_talks : Talks writeMachine (ndefApplet cc fileId) options
    (.initial message size) tag := by
  intro cs c rs m tag' ht hr
  rw [(writer_file ht hr).1]
  exact plain_carriable (WriteMachine.command_plain m) (WriteMachine.command_header m)

/-- A writer that has stopped has left one of three messages. -/
theorem writer_stopped (hm : message.length ≤ maxMessageLength)
    (ht : Trace writeMachine (.initial message size) (cs ++ [c]) rs m)
    (hr : Replies (ndefApplet cc fileId) options tag cs rs tag' ∨
      ∃ r, Replies (ndefApplet cc fileId) options tag (cs ++ [c]) (rs ++ [r]) tag') :
    ∃ v, left (content tag ()) message v ∧ content tag' = fun _ => v := by
  have hstates {applied : List (Write Byte)} (hfile : tag'.file = writeAll tag.file applied)
      (happ : applied = (cs ++ [c]).filterMap commandUpdate ∨
        applied = ((cs ++ [c]).filterMap commandUpdate).dropLast) :
      ∃ v, left (content tag ()) message v ∧ content tag' = fun _ => v := by
    rcases trace_states hm ht tag.file happ with rfl | hcleared | hstored
    · exact ⟨_, Or.inl rfl, content_same hfile⟩
    · rw [← hfile] at hcleared
      exact ⟨[], Or.inr (Or.inl rfl), content_cleared hcleared⟩
    · rw [← hfile] at hstored
      exact ⟨message, Or.inr (Or.inr rfl), content_stored hstored⟩
  have hbefore : cs.filterMap commandUpdate = (cs ++ [c]).filterMap commandUpdate ∨
      cs.filterMap commandUpdate = ((cs ++ [c]).filterMap commandUpdate).dropLast := by
    cases hw : commandUpdate c <;> simp [List.filterMap_append, hw]
  rcases hr with hr | ⟨r, hr⟩
  · exact hstates (writer_file ht hr).2 hbefore
  · obtain ⟨rs', r', tag₁, hrs, hr', hcall⟩ := hr.last
    obtain ⟨rfl, _⟩ := List.append_inj' hrs rfl
    obtain ⟨rfl, hfile⟩ := writer_file ht hr'
    rcases calls_either (WriteMachine.command_plain m) hcall with hsame | hwritten
    · exact hstates (hsame.trans hfile) hbefore
    · have hall : tag'.file =
          writeAll tag.file ((cs ++ [m.command]).filterMap commandUpdate) := by
        rw [hwritten, hfile, List.filterMap_append, writeAll_append]
        cases hw : commandUpdate m.command <;> simp [hw]
      exact hstates hall (Or.inl rfl)

/-- A writer that is done has left its message. -/
theorem writer_done (hm : message.length ≤ maxMessageLength) {u : Unit} {m' : WriteMachine}
    (ht : LastTurn writeMachine (.initial message size) (.ok (.done u)) cs rs m')
    (hr : Replies (ndefApplet cc fileId) options tag cs rs tag') :
    content tag' = fun _ => message := by
  cases ht with
  | opening h =>
    obtain ⟨_, hnone, _⟩ := WriteMachine.next_done h
    cases hnone
  | @answering cs rs m m' r ht hn =>
    obtain ⟨_, hsome, ha⟩ := WriteMachine.next_done hn
    cases hsome
    obtain ⟨hsuccess, hs⟩ := absorb_finishes ha
    obtain ⟨own, c, rfl, _⟩ := ht.last
    obtain ⟨rs', r', tag₁, hrs, hr', hcall⟩ := hr.last
    obtain ⟨rfl, hsame⟩ := List.append_inj' hrs rfl
    cases hsame
    obtain ⟨rfl, hfile⟩ := writer_file ht hr'
    have hwritten : tag'.file =
        writeAll tag.file ((own ++ [m.command]).filterMap commandUpdate) := by
      rw [calls_success (WriteMachine.command_plain m) hcall hsuccess, hfile,
        List.filterMap_append, writeAll_append]
      cases hw : commandUpdate m.command <;> simp [hw]
    have hu := trace_underway tag.file hm ht
    have hstage := hu.stage
    simp only [Stage, hs, hu.message] at hstage
    rw [← hwritten] at hstage
    exact content_stored (stored_of_holds hm hstage.2.1 hstage.2.2)

theorem write_shows (tag : Tag) (stop : Stop) :
    Shows left (content tag) (hold cc fileId tag (.write message options stop)).2
      (content (hold cc fileId tag (.write message options stop)).1) := by
  cases hop : writeMessage message options with
  | error e =>
    simp only [hold, hop]
    exact .nothing
  | ok op =>
    simp only [hold, hop]
    obtain ⟨_, hm, size, _, _, _, _, _, _, hmade⟩ := writeMessage_eq_ok hop
    have hatomic := interrupted_stands hmade (@writer_talks cc fileId options message size tag)
      stop
    generalize interrupted writeMachine (ndefApplet cc fileId) op tag stop = result at hatomic ⊢
    have hupdate (v : Bytes) : (fun _ => v) = Function.update (content tag) () v := by
      funext _
      simp
    by_cases hs : result.1.state = .completed
    · rw [if_pos hs]
      obtain ⟨cs, rs, m, u, ht, hr, _⟩ := hatomic.done hs
      rw [writer_done hm ht hr, hupdate]
      exact .event (.wrote () message)
    · rw [if_neg hs]
      obtain ⟨v, hv, hcontent⟩ : ∃ v, left (content tag ()) message v ∧
          content result.2 = fun _ => v := by
        rcases hatomic.applet with hsame | ⟨cs, c, rs, m, ht, hr⟩
        · exact ⟨_, Or.inl rfl, by rw [hsame]⟩
        · exact writer_stopped hm ht hr
      rw [hcontent, hupdate]
      exact .event (.torn () message v hv)

end writing

section reading

variable {cc : Bytes} {capability : NdefCapability} {options : OperationOptions} {size : ℕ}
  {tag tag' : Tag} {cs : List LogicalCommand} {c : LogicalCommand} {rs : List ResponseData}
  {m m' : ReadMachine} {r : ResponseData} {v : Bytes}

/-- Where a reader and the tag are, before the reader's command. -/
def Placed (fileId : UInt16) (m : ReadMachine) (tag : Tag) : Prop :=
  match m.step with
  | .selectApplet => m.bytes = []
  | .selectCc => tag.selected = none ∧ m.bytes = []
  | .readCc => tag.selected = some .capability ∧ m.bytes = []
  | .selectNdef => tag.selected = some .capability ∧ m.bytes = [] ∧ m.fileId = fileId ∧
      m.maxMessage ≤ maxMessageLength
  | .readNlen => tag.selected = some .message ∧ m.bytes = [] ∧ m.maxMessage ≤ maxMessageLength
  | .message => tag.selected = some .message ∧ 2 ≤ m.offset ∧
      m.offset + m.remaining = 2 + nlen tag.file ∧ nlen tag.file ≤ maxMessageLength ∧
      m.bytes = read tag.file 2 (m.offset - 2)

/-- How a reader comes to its end. -/
inductive Finishes (m : ReadMachine) (r : ResponseData) : Bytes → Prop where
  | empty (hs : m.step = .readNlen) (hzero : ofBeBytes r.data = 0) : Finishes m r []
  | last (hs : m.step = .message) (hend : m.remaining - min m.remaining m.chunk = 0) :
      Finishes m r (m.bytes ++ r.data)

theorem finishes_of_absorb (h : m.absorb r = .ok (some v, m')) : Finishes m r v := by
  simp only [ReadMachine.absorb] at h
  split at h
  all_goals
    rename_i hs
    obtain ⟨_, _, h⟩ := bind_eq_ok.mp h
  · cases h
  · cases h
  · obtain ⟨capability, _, h⟩ := bind_eq_ok.mp h
    cases h
  · cases h
  · split_ifs at h with hlen hbig hzero
    · cases h
      exact .empty hs hzero
    · cases h
  · split_ifs at h with hlen hend
    · cases h
      exact .last hs hend
    · cases h

/-- The read of a message window. -/
theorem calls_window (hs : m.step = .message) (h : Placed capability.fileId m tag) :
    NdefCard.calls cc capability.fileId tag m.command =
      (succeeded (read tag.file m.offset (min m.remaining m.chunk)), tag) := by
  simp only [Placed, hs] at h
  obtain ⟨hsel, h2, hsum, hmax, _⟩ := h
  simp only [maxMessageLength] at hmax
  have hoff : (UInt16.ofNat m.offset).toNat = m.offset := by
    rw [UInt16.toNat_ofNat']
    omega
  have hcommand : m.command = readBinary (UInt16.ofNat m.offset) (min m.remaining m.chunk) := by
    simp only [ReadMachine.command, hs]
  rw [hcommand, calls_readMessage cc capability.fileId hsel _ (by omega), hoff]

theorem calls_length (hs : m.step = .readNlen) (h : Placed capability.fileId m tag) :
    NdefCard.calls cc capability.fileId tag m.command =
      (succeeded (read tag.file 0 2), tag) := by
  simp only [Placed, hs] at h
  have hcommand : m.command = readBinary 0 2 := by simp only [ReadMachine.command, hs]
  rw [hcommand]
  exact calls_readMessage cc capability.fileId h.1 0 (by decide)

theorem placed_step (hp : parseCc cc = .ok capability) (h : Placed capability.fileId m tag)
    (hcall : NdefCard.calls cc capability.fileId tag m.command = (r, tag')) (hr : Reads m r m') :
    tag'.file = tag.file ∧ Placed capability.fileId m' tag' := by
  cases hr with
  | selectApplet hs =>
    simp only [Placed, hs] at h
    simp only [ReadMachine.command, hs, calls_selectApplet, Prod.mk.injEq] at hcall
    obtain ⟨rfl, rfl⟩ := hcall
    exact ⟨rfl, rfl, h⟩
  | selectCc hs =>
    simp only [Placed, hs] at h
    simp only [ReadMachine.command, hs, calls_selectCc cc _ h.1, Prod.mk.injEq] at hcall
    obtain ⟨rfl, rfl⟩ := hcall
    exact ⟨rfl, rfl, h.2⟩
  | readCc hs capability' hp' =>
    simp only [Placed, hs] at h
    simp only [ReadMachine.command, hs, calls_readCc cc _ h.1 (parseCc_length hp),
      Prod.mk.injEq] at hcall
    obtain ⟨rfl, rfl⟩ := hcall
    have hp' : parseCc cc = .ok capability' := hp'
    cases hp.symm.trans hp'
    exact ⟨rfl, h.1, h.2, rfl, parseCc_max hp⟩
  | selectNdef hs =>
    simp only [Placed, hs] at h
    simp only [ReadMachine.command, hs, h.2.2.1, calls_selectNdef cc _ h.1,
      Prod.mk.injEq] at hcall
    obtain ⟨rfl, rfl⟩ := hcall
    exact ⟨rfl, rfl, h.2.1, h.2.2.2⟩
  | readNlen hs hlen hfit hpos =>
    rw [calls_length hs h, Prod.mk.injEq] at hcall
    obtain ⟨rfl, rfl⟩ := hcall
    simp only [Placed, hs] at h
    have hnlen : ofBeBytes (read tag.file 0 2) = nlen tag.file := rfl
    refine ⟨rfl, h.1, Nat.le_refl 2, ?_, ?_, ?_⟩
    · exact congrArg (2 + ·) hnlen
    · exact Nat.le_trans hfit h.2.2
    · rw [h.2.1]
      rfl
  | message hs hlen hmore =>
    rw [calls_window hs h, Prod.mk.injEq] at hcall
    obtain ⟨rfl, rfl⟩ := hcall
    simp only [Placed, hs] at h
    obtain ⟨hsel, h2, hsum, hmax, hbytes⟩ := h
    refine ⟨rfl, hsel, by dsimp only; omega, by dsimp only; omega, hmax, ?_⟩
    dsimp only [succeeded]
    rw [hbytes, show m.offset + min m.remaining m.chunk - 2 =
      (m.offset - 2) + min m.remaining m.chunk by omega, read_add,
      show 2 + (m.offset - 2) = m.offset by omega]

/-- Whenever a reader asks, the tag is as it was and the reader is where the tag is. -/
theorem reader_placed (hp : parseCc cc = .ok capability)
    (ht : Trace readMachine (.initial size) (cs ++ [c]) rs m)
    (hr : Replies (ndefApplet cc capability.fileId) options tag cs rs tag') :
    c = m.command ∧ tag'.file = tag.file ∧ Placed capability.fileId m tag' := by
  refine @asked_invariant _ _ _ readMachine (ndefApplet cc capability.fileId) options _ tag
    (fun _ m c tag' => c = m.command ∧ tag'.file = tag.file ∧ Placed capability.fileId m tag')
    ?_ ?_ cs c rs m tag' ht hr
  · intro c m hn
    obtain ⟨rfl, ⟨_, rfl⟩ | ⟨_, hnone, _⟩⟩ := ReadMachine.next_command hn
    · exact ⟨rfl, rfl, rfl⟩
    · cases hnone
  · rintro cs m c tag₁ r tag₂ c' m' ⟨rfl, hfile, hplaced⟩ hcall hn
    obtain ⟨rfl, ⟨hnone, _⟩ | ⟨r', hsome, ha⟩⟩ := ReadMachine.next_command hn
    · cases hnone
    cases hsome
    obtain ⟨hsame, hplaced'⟩ := placed_step hp hplaced
      (calls_plain (ReadMachine.command_plain m) hcall) (reads_of_absorb ha).2
    exact ⟨rfl, hsame.trans hfile, hplaced'⟩

theorem reader_talks (hp : parseCc cc = .ok capability) :
    Talks readMachine (ndefApplet cc capability.fileId) options (.initial size) tag := by
  intro cs c rs m tag' ht hr
  rw [(reader_placed hp ht hr).1]
  exact plain_carriable (ReadMachine.command_plain m) (ReadMachine.command_header m)

theorem command_quiet (m : ReadMachine) : commandUpdate m.command = none := by
  obtain ⟨step, chunk, fileId, maxMessage, offset, remaining, bytes⟩ := m
  cases step <;> rfl

/-- A reader leaves the message, wherever it stops. -/
theorem reader_stopped (hp : parseCc cc = .ok capability)
    (ht : Trace readMachine (.initial size) (cs ++ [c]) rs m)
    (hr : Replies (ndefApplet cc capability.fileId) options tag cs rs tag' ∨
      ∃ r, Replies (ndefApplet cc capability.fileId) options tag (cs ++ [c]) (rs ++ [r]) tag') :
    content tag' = content tag := by
  rcases hr with hr | ⟨r, hr⟩
  · exact content_same (reader_placed hp ht hr).2.1
  · obtain ⟨rs', r', tag₁, hrs, hr', hcall⟩ := hr.last
    obtain ⟨rfl, _⟩ := List.append_inj' hrs rfl
    obtain ⟨rfl, hfile, _⟩ := reader_placed hp ht hr'
    have heither := calls_either (ReadMachine.command_plain m) hcall
    rw [command_quiet, Option.toList_none, writeAll_nil, or_self] at heither
    exact content_same (heither.trans hfile)

/-- A reader that is done returns the message. -/
theorem reader_done (hp : parseCc cc = .ok capability)
    (ht : LastTurn readMachine (.initial size) (.ok (.done v)) cs rs m')
    (hr : Replies (ndefApplet cc capability.fileId) options tag cs rs tag') :
    v = content tag () ∧ content tag' = content tag := by
  cases ht with
  | opening h => cases h
  | @answering cs rs m m' r ht hn =>
    obtain ⟨_, hsome, ha⟩ :=
      @turn_done _ _ ReadMachine.absorb ReadMachine.command m m' (some r) v hn
    cases hsome
    obtain ⟨own, c, rfl, _⟩ := ht.last
    refine ⟨?_, reader_stopped hp ht (Or.inr ⟨r, hr⟩)⟩
    obtain ⟨rs', r', tag₁, hrs, hr', hcall⟩ := hr.last
    obtain ⟨rfl, hsame⟩ := List.append_inj' hrs rfl
    cases hsame
    obtain ⟨rfl, hfile, hplaced⟩ := reader_placed hp ht hr'
    have hcall := calls_plain (ReadMachine.command_plain m) hcall
    rw [← content_same hfile]
    cases finishes_of_absorb ha with
    | empty hs hzero =>
      rw [calls_length hs hplaced, Prod.mk.injEq] at hcall
      obtain ⟨rfl, _⟩ := hcall
      have hnlen : nlen tag₁.file = 0 := hzero
      rw [content_cleared hnlen]
    | last hs hend =>
      rw [calls_window hs hplaced, Prod.mk.injEq] at hcall
      obtain ⟨rfl, _⟩ := hcall
      simp only [Placed, hs] at hplaced
      obtain ⟨_, h2, hsum, _, hbytes⟩ := hplaced
      have hsplit : nlen tag₁.file = (m.offset - 2) + min m.remaining m.chunk := by omega
      rw [content, hbytes, hsplit, read_add, show 2 + (m.offset - 2) = m.offset by omega]
      rfl

theorem read_shows (hp : parseCc cc = .ok capability) (tag : Tag) (stop : Stop) :
    Shows left (content tag) (hold cc capability.fileId tag (.read options stop)).2
      (content (hold cc capability.fileId tag (.read options stop)).1) := by
  cases hop : readMessage options with
  | error e =>
    simp only [hold, hop]
    exact .nothing
  | ok op =>
    simp only [hold, hop]
    obtain ⟨_, _, _, _, hmade⟩ := readMessage_eq_ok hop
    have hatomic := interrupted_stands hmade (@reader_talks cc capability options _ tag hp) stop
    generalize interrupted readMachine (ndefApplet cc capability.fileId) op tag stop = result
      at hatomic ⊢
    by_cases hs : result.1.state = .completed
    · obtain ⟨cs, rs, m, v, ht, hr, hout⟩ := hatomic.done hs
      obtain ⟨hv, hsame⟩ := reader_done hp ht hr
      have hresult : result.1.result = .ok v := by
        rw [Operation.result, if_neg (not_not.mpr hs), hout]
      rw [hresult, hsame, hv]
      exact .event (.read ())
    · have hresult : result.1.result = .error stateError := if_pos hs
      have hsame : content result.2 = content tag := by
        rcases hatomic.applet with hsame | ⟨cs, c, rs, m, ht, hr⟩
        · rw [hsame]
        · exact reader_stopped hp ht hr
      rw [hresult, hsame]
      exact .nothing

end reading

/-- Over any sessions with it, each stopped anywhere, a tag is a store that survives them. -/
theorem tag_serves {cc : Bytes} {capability : NdefCapability} (hp : parseCc cc = .ok capability)
    (tag : Tag) (sessions : List Session) :
    Serves left (content tag) (logged (hold cc capability.fileId) tag sessions).2
      (content (logged (hold cc capability.fileId) tag sessions).1) := by
  apply logged_serves
  intro tag e
  cases e with
  | write message options stop => exact write_shows tag stop
  | read options stop => exact read_shows hp tag stop

/-- The second write stops after the length is cleared, the last before it; of the third only the
last answer is lost. -/
def tornSessions : List Session :=
  [.write [7] {} ⟨20, false⟩, .read {} ⟨20, false⟩, .write [8, 9] {} ⟨5, false⟩,
    .read {} ⟨20, false⟩, .write [6] {} ⟨6, true⟩, .write [5] {} ⟨4, false⟩,
    .read {} ⟨20, false⟩, .read {} ⟨3, true⟩]

theorem tag_serves_torn :
    Serves left (content { file := fun _ => 0 })
      (logged (hold writableCc 1) { file := fun _ => 0 } tornSessions).2
      (content (logged (hold writableCc 1) { file := fun _ => 0 } tornSessions).1) ∧
    (logged (hold writableCc 1) { file := fun _ => 0 } tornSessions).2 =
      [.wrote () [7], .read () [7], .torn () [8, 9], .read () [], .torn () [6], .torn () [5],
        .read () [6]] :=
  ⟨tag_serves NdefRoundTrip.parse_writableCc _ tornSessions, by decide +kernel⟩

end NdefHistory
