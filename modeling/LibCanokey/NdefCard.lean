import LibCanokey.NdefRanges
import LibCanokey.ProtocolSession

/-! # A Type 4 Tag and the sessions of the NDEF machines with it

The card holds a container and a message file. A writer leaves the message in the file; a
reader returns what the file announces. -/
namespace NdefCard

open BigEndian ListTraversal ByteFile ProtocolError ProtocolApdu ProtocolApduDecoder
open ProtocolConversation ProtocolSegmentation ProtocolOperation ProtocolSession NdefMessage
open NdefCrashConsistency NdefRanges

inductive NdefFile where
  | capability
  | message
  deriving DecidableEq, Repr

structure Tag where
  file : File Byte
  selected : Option NdefFile := none

def succeeded (data : Bytes) : ResponseData := ⟨data, ⟨0x9000⟩⟩
def refused (sw : UInt16) : ResponseData := ⟨[], ⟨sw⟩⟩

/-- A container that declares its own identifier is told from the message file by what is
selected already. -/
def selectById (fileId : UInt16) (selected : Option NdefFile) (id : Bytes) : Option NdefFile :=
  if id = toBeBytes 2 fileId.toNat ∧ (selected = some .capability ∨ fileId ≠ ccFileId) then
    some .message
  else if id = toBeBytes 2 ccFileId.toNat then some .capability
  else none

/-- A Type 4 Tag with the container `cc`, which declares the message file `fileId`. -/
def ndefApplet (cc : Bytes) (fileId : UInt16) : Applet Tag := fun card command =>
  let offset := command.header.p1.toNat * 256 + command.header.p2.toNat
  if command.header.ins = 0xa4 then
    if command.header.p1 = 0x04 then
      if command.data = ndefAid then (succeeded [], { card with selected := none })
      else (refused 0x6a82, card)
    else match selectById fileId card.selected command.data with
      | some file => (succeeded [], { card with selected := some file })
      | none => (refused 0x6a82, card)
  else if command.header.ins = 0xb0 then
    match card.selected, command.le with
    | some .capability, .exact n => (succeeded ((cc.drop offset).take n), card)
    | some .message, .exact n => (succeeded (read card.file offset n), card)
    | _, _ => (refused 0x6985, card)
  else if command.header.ins = 0xd6 then
    match card.selected with
    | some .message =>
      (succeeded [], { card with file := write card.file ⟨offset, command.data⟩ })
    | _ => (refused 0x6985, card)
  else (refused 0x6d00, card)

section card

variable (cc : Bytes) (fileId : UInt16) {card : Tag}

def calls (cc : Bytes) (fileId : UInt16) (card : Tag) (c : LogicalCommand) :
    ResponseData × Tag := ndefApplet cc fileId card ⟨c.header, c.data, c.le⟩

theorem calls_selectApplet :
    calls cc fileId card selectApplet = (succeeded [], { card with selected := none }) := rfl

theorem calls_selectCc (h : card.selected = none) :
    calls cc fileId card (selectFile ccFileId) =
      (succeeded [], { card with selected := some .capability }) := by
  have hsel : selectById fileId card.selected (toBeBytes 2 ccFileId.toNat) =
      some .capability := by
    rw [selectById, if_neg, if_pos rfl]
    rintro ⟨hid, hsel | hne⟩
    · rw [h] at hsel
      cases hsel
    · have := toBeBytes_injective (w := 2) ccFileId.toNat_lt fileId.toNat_lt hid
      exact hne (UInt16.toNat_inj.mp this.symm)
  have hp1 : ¬ (0 : UInt8) = 4 := by decide
  simp only [calls, ndefApplet, selectFile, if_true, hp1, if_false, hsel]

theorem calls_selectNdef (h : card.selected = some .capability) :
    calls cc fileId card (selectFile fileId) =
      (succeeded [], { card with selected := some .message }) := by
  have hsel : selectById fileId card.selected (toBeBytes 2 fileId.toNat) = some .message :=
    if_pos ⟨rfl, Or.inl h⟩
  have hp1 : ¬ (0 : UInt8) = 4 := by decide
  simp only [calls, ndefApplet, selectFile, if_true, hp1, if_false, hsel]

theorem calls_readCc (h : card.selected = some .capability) (hcc : cc.length = ccLen) :
    calls cc fileId card (readBinary 0 ccLen) = (succeeded cc, card) := by
  have htake : (cc.drop 0).take ccLen = cc := by rw [← hcc]; simp
  have hr : calls cc fileId card (readBinary 0 ccLen) =
      (succeeded ((cc.drop 0).take ccLen), card) := by
    simp only [calls, ndefApplet, readBinary, h]
    rfl
  rw [hr, htake]

theorem calls_readMessage (h : card.selected = some .message) (o : UInt16) {n : ℕ}
    (hn : n < 2 ^ 32) :
    calls cc fileId card (readBinary o n) = (succeeded (read card.file o.toNat n), card) := by
  simp only [calls, ndefApplet, readBinary, h, offset_bytes, Nat.mod_eq_of_lt hn]
  rfl

theorem calls_updateBinary (h : card.selected = some .message) (o : UInt16) (data : Bytes) :
    calls cc fileId card (updateBinary o data) =
      (succeeded [], { card with file := write card.file ⟨o.toNat, data⟩ }) := by
  simp only [calls, ndefApplet, updateBinary, h, offset_bytes]
  rfl

end card

/-- The exchanges that lead to the container and to the message file. -/
structure Opening (cc : Bytes) (fileId : UInt16) (card : Tag) : Prop where
  applet : calls cc fileId card selectApplet = (succeeded [], { card with selected := none })
  container : calls cc fileId { card with selected := none } (selectFile ccFileId) =
    (succeeded [], { card with selected := some .capability })
  content : calls cc fileId { card with selected := some .capability } (readBinary 0 ccLen) =
    (succeeded cc, { card with selected := some .capability })
  message : calls cc fileId { card with selected := some .capability } (selectFile fileId) =
    (succeeded [], { card with selected := some .message })

theorem opening_calls {cc : Bytes} (hcc : cc.length = ccLen) (fileId : UInt16) (card : Tag) :
    Opening cc fileId card where
  applet := calls_selectApplet _ _
  container := calls_selectCc _ _ rfl
  content := calls_readCc _ _ rfl hcc
  message := calls_selectNdef _ _ rfl

/-- Room for every command of either machine besides the chunks. -/
structure Roomy (options : OperationOptions) : Prop where
  valid : options.Valid
  command : 13 ≤ options.exchange.maxCommandBytes
  input : 7 ≤ options.limits.maxInputBytes
  response : ccLen + 2 ≤ options.exchange.maxResponseBytes

theorem accepted_plain {options : OperationOptions} (h : Roomy options) {c : LogicalCommand}
    (hc : Plain c) (hext : c.allowExtended = false)
    (hdata : c.data.length ≤ 7 ∨ c.data.length ≤ min 255 (options.exchange.maxCommandBytes - 6) ∧
      c.data.length ≤ options.limits.maxInputBytes)
    (hle : c.le = .absent ∨ ∃ n, c.le = .exact n ∧ 0 < n ∧ n ≤ 256 ∧
      n + 2 ≤ options.exchange.maxResponseBytes) :
    ∃ k, ConversationState.new c options = .ok k := by
  have hcommand := h.command
  have hinput := h.input
  apply (new_plain_iff h.valid hc.1 hext hc.2.1 (by rw [hc.2.2]; rfl)).mpr
  refine ⟨by omega, ?_, ?_, Or.inr (by rw [maxShort]; omega)⟩
  · rcases hle with hle | ⟨n, hle, hpos, hmax, _⟩
    · rw [hle]; trivial
    · rw [hle]; exact ⟨by omega, hmax⟩
  · intro n hn
    rcases hle with hle | ⟨n', hle, _, _, hfit⟩
    · rw [hle] at hn; cases hn
    · rw [hle] at hn; cases hn; exact hfit

section served

variable {options : OperationOptions} {card card' : Tag}
  {data : Bytes} (cc : Bytes) (fileId : UInt16)

variable {cc fileId} in
theorem answers_plain {c : LogicalCommand} {k : ConversationState}
    (hk : ConversationState.new c options = .ok k) (hc : Plain c)
    (hheader : c.header.cla = 0 ∧ c.header.ins ≠ 0xc0)
    (hcall : calls cc fileId card c = (succeeded data, card'))
    (hfit : data.length ≤ pageLimit c.le)
    (hresp : data.length + 2 ≤ options.exchange.maxResponseBytes) :
    Answers (ndefApplet cc fileId) options card c k (succeeded data) card' 1 :=
  .single hk hc.1 hc.2.1 (.paged _ hc.2.2 (by decide)) ⟨by rw [hheader.1]; decide, hheader.2⟩
    hcall hfit hresp ⟨by simp only [succeeded]; decide, by simp only [succeeded]; decide⟩

theorem WriteMachine.command_header (m : WriteMachine) :
    m.command.header.cla = 0 ∧ m.command.header.ins ≠ 0xc0 := by
  simp only [WriteMachine.command]
  split <;> simp [selectApplet, selectFile, readBinary, updateBinary]

theorem ReadMachine.command_header (m : ReadMachine) :
    m.command.header.cla = 0 ∧ m.command.header.ins ≠ 0xc0 := by
  simp only [ReadMachine.command]
  split <;> simp [selectApplet, selectFile, readBinary]

/-- Every command of a writer fits when its chunks do. -/
theorem writer_accepted (h : Roomy options) {m : WriteMachine}
    (hchunk : m.chunk ≤ min chunk (options.exchange.maxCommandBytes - 6))
    (hinput : min m.message.length m.chunk ≤ options.limits.maxInputBytes) :
    ∃ k, ConversationState.new m.command options = .ok k := by
  have hresp := h.response
  simp only [NdefMessage.chunk, ccLen] at hchunk hresp
  apply accepted_plain h (WriteMachine.command_plain m)
  · obtain ⟨step, message, size, fileId, offset⟩ := m
    cases step <;> rfl
  · obtain ⟨step, message, size, fileId, offset⟩ := m
    cases step with
    | message =>
      right
      simp only [WriteMachine.command, updateBinary, WriteMachine.take, List.length_take,
        List.length_drop]
      simp only at hchunk hinput
      omega
    | _ => left; simp [WriteMachine.command, selectApplet, selectFile, readBinary, updateBinary,
        ndefAid]
  · obtain ⟨step, message, size, fileId, offset⟩ := m
    cases step with
    | readCc => exact Or.inr ⟨15, rfl, by decide, by decide, hresp⟩
    | _ => exact Or.inl rfl

variable {cc fileId} in
theorem write_more {m m' : WriteMachine} {k : ConversationState} {n b : ℕ}
    {out : Except Error Unit} {card'' : Tag}
    (hk : ConversationState.new m.command options = .ok k)
    (hcall : calls cc fileId card m.command = (succeeded data, card'))
    (hfit : data.length ≤ pageLimit m.command.le)
    (hresp : data.length + 2 ≤ options.exchange.maxResponseBytes)
    (ha : m.absorb (succeeded data) = .ok (none, m'))
    (rest : Served writeMachine (ndefApplet cc fileId) options m' card' m'.command n b out card'') :
    Served writeMachine (ndefApplet cc fileId) options m card m.command (1 + n)
      (data.length + b) out card'' := by
  refine .more (answers_plain hk (WriteMachine.command_plain m) (WriteMachine.command_header m)
    hcall hfit hresp) ?_ rest
  simp only [writeMachine, turn, ha]
  rfl

@[simp] theorem ensureSuccess_succeeded (data : Bytes) (phase : Phase) :
    (succeeded data).ensureSuccess phase = .ok () := rfl

/-- The last write of a writer, over a file that holds the message. -/
theorem write_final (h : Roomy options) {m : WriteMachine} (hs : m.step = .finalLength)
    (hm : m.message.length ≤ maxMessageLength)
    (hchunk : m.chunk ≤ min chunk (options.exchange.maxCommandBytes - 6))
    (hinput : min m.message.length m.chunk ≤ options.limits.maxInputBytes)
    (hcard : card.selected = some .message) (hmsg : Holds card.file 2 m.message) :
    ∃ card', Served writeMachine (ndefApplet cc fileId) options m card m.command 1 0 (.ok ())
      card' ∧ Stored m.message card'.file := by
  obtain ⟨k, hk⟩ := writer_accepted h hchunk hinput
  have hcommand : m.command = updateBinary 0 (toBeBytes 2 m.message.length) := by
    simp only [WriteMachine.command, hs]
  have hcall := calls_updateBinary cc fileId hcard 0
    (toBeBytes 2 m.message.length)
  rw [← hcommand] at hcall
  have hanswers := answers_plain hk (WriteMachine.command_plain m)
    (WriteMachine.command_header m) hcall (Nat.zero_le _) (Nat.le_of_succ_le h.valid.response)
  have hlen : Holds (write card.file ⟨(0 : UInt16).toNat, toBeBytes 2 m.message.length⟩) 0
      (toBeBytes 2 m.message.length) := holds_write _ _
  have hdone : writeMachine.next m (some (succeeded [])) = (.ok (.done ()), m) := by
    simp [writeMachine, turn, WriteMachine.absorb, hs, bind, Except.bind]
  have hmsg' : Holds (write card.file ⟨(0 : UInt16).toNat, toBeBytes 2 m.message.length⟩) 2
      m.message := hmsg.write (Or.inr (by simp))
  exact ⟨_, .done hanswers hdone, stored_of_holds hm hlen hmsg'⟩

/-- The chunks from an offset on, then the final length. -/
theorem write_chunks (h : Roomy options) {m : WriteMachine} (hs : m.step = .message)
    (hlt : m.offset < m.message.length) (hm : m.message.length ≤ maxMessageLength)
    (hpos : 0 < m.chunk)
    (hchunk : m.chunk ≤ min chunk (options.exchange.maxCommandBytes - 6))
    (hinput : min m.message.length m.chunk ≤ options.limits.maxInputBytes)
    (hcard : card.selected = some .message) (hz : Holds card.file 0 [0, 0])
    (hpre : Holds card.file 2 (m.message.take m.offset)) :
    ∃ card', Served writeMachine (ndefApplet cc fileId) options m card m.command
      (divCeil (m.message.length - m.offset) m.chunk + 1) 0 (.ok ()) card' ∧
      Stored m.message card'.file := by
  induction hleft : m.message.length - m.offset using Nat.strongRecOn generalizing m card with
  | ind left ih =>
    have htake : m.take = min left m.chunk := by rw [WriteMachine.take, hleft]
    obtain ⟨k, hk⟩ := writer_accepted h hchunk hinput
    obtain ⟨hz', hpre'⟩ := chunk_extends m.take hm (by omega) hz hpre
    have hcommand : m.command = updateBinary (2 + UInt16.ofNat m.offset)
        ((m.message.drop m.offset).take m.take) := by
      simp only [WriteMachine.command, hs]
    obtain ⟨card', hcard'⟩ : ∃ card' : Tag, card' = { card with
      file := write card.file ⟨(2 + UInt16.ofNat m.offset).toNat,
        (m.message.drop m.offset).take m.take⟩ } := ⟨_, rfl⟩
    have hcall : calls cc fileId card m.command = (succeeded [], card') := by
      rw [hcommand, hcard']
      exact calls_updateBinary cc fileId hcard _ _
    have hsel : card'.selected = some .message := by rw [hcard']; exact hcard
    rw [show write card.file _ = card'.file by rw [hcard']] at hz' hpre'
    have hroom : ([] : Bytes).length + 2 ≤ options.exchange.maxResponseBytes :=
      Nat.le_of_succ_le h.valid.response
    rw [divCeil_step hpos (by omega), Nat.add_assoc]
    by_cases hend : m.offset + m.take = m.message.length
    · have habsorb : m.absorb (succeeded []) =
          .ok (none, { m with offset := m.offset + m.take, step := .finalLength }) := by
        simp [WriteMachine.absorb, hs, hend, bind, Except.bind]
      rw [hend, List.take_length] at hpre'
      obtain ⟨card'', hserved, hstored⟩ := write_final cc fileId h
        (m := { m with offset := m.offset + m.take, step := .finalLength }) rfl hm hchunk hinput
        hsel hpre'
      have hzero : left - min left m.chunk = 0 := by omega
      rw [hzero, divCeil_zero]
      exact ⟨card'', write_more hk hcall (Nat.zero_le _) hroom habsorb hserved, hstored⟩
    · have habsorb : m.absorb (succeeded []) =
          .ok (none, { m with offset := m.offset + m.take, step := .message }) := by
        simp [WriteMachine.absorb, hs, hend, bind, Except.bind]
      obtain ⟨card'', hserved, hstored⟩ := @ih (left - min left m.chunk) (by omega) card'
        { m with offset := m.offset + m.take, step := .message } rfl (by dsimp only; omega)
        hm hpos hchunk hinput hsel hz' hpre' (by dsimp only; omega)
      exact ⟨card'', write_more hk hcall (Nat.zero_le _) hroom habsorb hserved, hstored⟩

/-- The zero length and what follows it. -/
theorem write_body (h : Roomy options) {m : WriteMachine} (hs : m.step = .zeroLength)
    (hoff : m.offset = 0) (hm : m.message.length ≤ maxMessageLength) (hpos : 0 < m.chunk)
    (hchunk : m.chunk ≤ min chunk (options.exchange.maxCommandBytes - 6))
    (hinput : min m.message.length m.chunk ≤ options.limits.maxInputBytes)
    (hcard : card.selected = some .message) :
    ∃ card', Served writeMachine (ndefApplet cc fileId) options m card m.command
      (1 + (divCeil m.message.length m.chunk + 1)) 0 (.ok ()) card' ∧
      Stored m.message card'.file := by
  obtain ⟨k, hk⟩ := writer_accepted h hchunk hinput
  obtain ⟨card', hcard'⟩ : ∃ card' : Tag,
      card' = { card with file := write card.file ⟨(0 : UInt16).toNat, [0, 0]⟩ } := ⟨_, rfl⟩
  have hcall : calls cc fileId card m.command = (succeeded [], card') := by
    have hcommand : m.command = updateBinary 0 [0, 0] := by simp only [WriteMachine.command, hs]
    rw [hcommand, hcard']
    exact calls_updateBinary cc fileId hcard _ _
  have hsel : card'.selected = some .message := by rw [hcard']; exact hcard
  have hz : Holds (write card.file ⟨(0 : UInt16).toNat, [0, 0]⟩) 0 [0, 0] := holds_write _ _
  rw [show write card.file _ = card'.file by rw [hcard']] at hz
  have hroom : ([] : Bytes).length + 2 ≤ options.exchange.maxResponseBytes :=
    Nat.le_of_succ_le h.valid.response
  by_cases he : m.message = []
  · have habsorb : m.absorb (succeeded []) = .ok (none, { m with step := .finalLength }) := by
      simp [WriteMachine.absorb, hs, he, bind, Except.bind]
    obtain ⟨card'', hserved, hstored⟩ := write_final cc fileId h
      (m := { m with step := .finalLength }) rfl hm hchunk hinput hsel (by simp [Holds, he])
    have hzero : divCeil m.message.length m.chunk = 0 := by rw [he]; exact divCeil_zero _
    rw [hzero]
    exact ⟨card'', write_more hk hcall (Nat.zero_le _) hroom habsorb hserved, hstored⟩
  · have habsorb : m.absorb (succeeded []) = .ok (none, { m with step := .message }) := by
      simp [WriteMachine.absorb, hs, he, bind, Except.bind]
    have hlt : m.offset < m.message.length := by
      rw [hoff]
      exact List.length_pos_iff.mpr he
    obtain ⟨card'', hserved, hstored⟩ := write_chunks cc fileId h
      (m := { m with step := .message }) rfl hlt hm hpos hchunk hinput hsel hz
      (by dsimp only; rw [hoff]; rfl)
    have hleft : m.message.length - m.offset = m.message.length := by omega
    dsimp only at hserved
    rw [hleft] at hserved
    exact ⟨card'', write_more hk hcall (Nat.zero_le _) hroom habsorb hserved, hstored⟩

theorem WriteMachine.absorb_readCc {m : WriteMachine} (hs : m.step = .readCc)
    {capability : NdefCapability} (hp : parseCc data = .ok capability)
    (hw : capability.readOnly = false) (hfit : m.message.length ≤ capability.maxMessageLength) :
    m.absorb (succeeded data) =
      .ok (none, { m with fileId := capability.fileId, step := .selectNdef }) := by
  have hfits : ¬ m.message.length > capability.maxMessageLength := Nat.not_lt.mpr hfit
  simp only [WriteMachine.absorb, hs, ensureSuccess_succeeded]
  change (parseCc data >>= _) = _
  rw [hp]
  change (if capability.readOnly = true then _ else _) = _
  rw [if_neg (by rw [hw]; simp), if_neg hfits]

theorem write_served (h : Roomy options) {capability : NdefCapability}
    (hp : parseCc cc = .ok capability) (hw : capability.readOnly = false) {message : Bytes}
    (hfit : message.length ≤ capability.maxMessageLength) {size : ℕ} (hpos : 0 < size)
    (hchunk : size ≤ min chunk (options.exchange.maxCommandBytes - 6))
    (hinput : min message.length size ≤ options.limits.maxInputBytes) (card : Tag) :
    ∃ card', Served writeMachine (ndefApplet cc capability.fileId) options
      (.initial message size) card selectApplet (6 + divCeil message.length size) ccLen (.ok ())
      card' ∧ Stored message card'.file := by
  have hm := Nat.le_trans hfit (parseCc_max hp)
  have hcc := parseCc_length hp
  have hroom : ([] : Bytes).length + 2 ≤ options.exchange.maxResponseBytes :=
    Nat.le_of_succ_le h.valid.response
  have hk (step : WriteStep) (fileId : UInt16) := writer_accepted h
    (m := { step := step, message := message, chunk := size, fileId := fileId, offset := 0 })
    hchunk hinput
  obtain ⟨k₀, hk₀⟩ := hk .selectApplet 0
  obtain ⟨k₁, hk₁⟩ := hk .selectCc 0
  obtain ⟨k₂, hk₂⟩ := hk .readCc 0
  obtain ⟨k₃, hk₃⟩ := hk .selectNdef capability.fileId
  have hopening := opening_calls hcc capability.fileId card
  have hsel : ({ card with selected := some .message } : Tag).selected = some .message := rfl
  obtain ⟨card', hserved, hstored⟩ := write_body cc capability.fileId h
    (m := { step := .zeroLength, message := message, chunk := size,
            fileId := capability.fileId, offset := 0 }) rfl rfl hm hpos hchunk hinput hsel
  have habsorb := WriteMachine.absorb_readCc (m := { WriteMachine.initial message size with
    step := .readCc }) rfl hp hw hfit
  have h₃ := write_more hk₃ hopening.message (Nat.zero_le _) hroom rfl hserved
  have h₂ := write_more hk₂ hopening.content (Nat.le_of_eq hcc) (by rw [hcc]; exact h.response)
    habsorb h₃
  have h₁ := write_more hk₁ hopening.container (Nat.zero_le _) hroom rfl h₂
  have h₀ := write_more hk₀ hopening.applet (Nat.zero_le _) hroom rfl h₁
  rw [hcc] at h₀
  dsimp only at h₀
  rw [show 6 + divCeil message.length size =
    1 + (1 + (1 + (1 + (1 + (divCeil message.length size + 1))))) by omega]
  exact ⟨card', h₀, hstored⟩

/-- Every command of a reader fits when its chunks do. -/
theorem reader_accepted (h : Roomy options) {m : ReadMachine} (hpos : 0 < m.chunk)
    (hchunk : m.chunk ≤ min chunk (options.exchange.maxResponseBytes - 2))
    (hmore : m.step = .message → 0 < m.remaining) :
    ∃ k, ConversationState.new m.command options = .ok k := by
  have hresp := h.response
  simp only [NdefMessage.chunk, ccLen] at hchunk hresp
  apply accepted_plain h (ReadMachine.command_plain m)
  · simp only [ReadMachine.command]
    split <;> rfl
  · left
    simp only [ReadMachine.command]
    split <;> simp [selectApplet, selectFile, readBinary, ndefAid]
  · obtain ⟨step, size, fileId, maxMessage, offset, remaining, bytes⟩ := m
    cases step with
    | readCc => exact Or.inr ⟨15, rfl, by decide, by decide, hresp⟩
    | readNlen => exact Or.inr ⟨2, rfl, by decide, by decide, by omega⟩
    | message =>
      have hrem := hmore rfl
      simp only at hpos hchunk hrem
      have hsmall : min remaining size % 2 ^ 32 = min remaining size :=
        Nat.mod_eq_of_lt (by omega)
      refine Or.inr ⟨min remaining size, ?_, by omega, by omega, by omega⟩
      simp only [ReadMachine.command, readBinary, hsmall]
    | _ => exact Or.inl rfl

variable {cc fileId} in
theorem answers_reader {m : ReadMachine} {k : ConversationState}
    (hk : ConversationState.new m.command options = .ok k)
    (hcall : calls cc fileId card m.command = (succeeded data, card'))
    (hfit : data.length ≤ pageLimit m.command.le)
    (hresp : data.length + 2 ≤ options.exchange.maxResponseBytes) :
    Answers (ndefApplet cc fileId) options card m.command k (succeeded data) card' 1 :=
  answers_plain hk (ReadMachine.command_plain m) (ReadMachine.command_header m) hcall hfit hresp

variable {cc fileId} in
theorem read_more {m m' : ReadMachine} {k : ConversationState} {n b : ℕ}
    {out : Except Error Bytes} {card'' : Tag}
    (hk : ConversationState.new m.command options = .ok k)
    (hcall : calls cc fileId card m.command = (succeeded data, card'))
    (hfit : data.length ≤ pageLimit m.command.le)
    (hresp : data.length + 2 ≤ options.exchange.maxResponseBytes)
    (ha : m.absorb (succeeded data) = .ok (none, m'))
    (rest : Served readMachine (ndefApplet cc fileId) options m' card' m'.command n b out card'') :
    Served readMachine (ndefApplet cc fileId) options m card m.command (1 + n)
      (data.length + b) out card'' := by
  refine .more (answers_reader hk hcall hfit hresp) ?_ rest
  simp only [readMachine, turn, ha]
  rfl

theorem ReadMachine.absorb_last {m : ReadMachine} (hs : m.step = .message)
    (hlen : data.length = min m.remaining m.chunk)
    (hend : m.remaining - min m.remaining m.chunk = 0) :
    ∃ m', m.absorb (succeeded data) = .ok (some (m.bytes ++ data), m') := by
  simp only [ReadMachine.absorb, hs, ensureSuccess_succeeded]
  change ∃ m', (if data.length ≠ min m.remaining m.chunk then _ else _) = _
  rw [if_neg (not_not.mpr hlen), if_pos hend]
  exact ⟨_, rfl⟩

theorem ReadMachine.absorb_more {m : ReadMachine} (hs : m.step = .message)
    (hlen : data.length = min m.remaining m.chunk)
    (hmore : m.remaining - min m.remaining m.chunk ≠ 0) :
    m.absorb (succeeded data) = .ok (none,
      { m with
        bytes := m.bytes ++ data
        remaining := m.remaining - min m.remaining m.chunk
        offset := m.offset + min m.remaining m.chunk }) := by
  simp only [ReadMachine.absorb, hs, ensureSuccess_succeeded]
  change (if data.length ≠ min m.remaining m.chunk then _ else _) = _
  rw [if_neg (not_not.mpr hlen), if_neg hmore]
  rfl

/-- The chunks from an offset on, up to the announced length. -/
theorem read_chunks (h : Roomy options) {m : ReadMachine} {length : ℕ} (hs : m.step = .message)
    (h2 : 2 ≤ m.offset) (hsum : m.offset + m.remaining = 2 + length) (hrem : 0 < m.remaining)
    (hlen : length ≤ maxMessageLength) (hpos : 0 < m.chunk)
    (hchunk : m.chunk ≤ min chunk (options.exchange.maxResponseBytes - 2))
    (hcard : card.selected = some .message)
    (hbytes : m.bytes = read card.file 2 (m.offset - 2)) :
    Served readMachine (ndefApplet cc fileId) options m card m.command
      (divCeil m.remaining m.chunk) m.remaining (.ok (read card.file 2 length)) card := by
  have hresp := h.response
  induction hleft : m.remaining using Nat.strongRecOn generalizing m with
  | ind left ih =>
    obtain ⟨k, hk⟩ := reader_accepted h hpos hchunk fun _ => hrem
    obtain ⟨want, hwant⟩ : ∃ want, want = min left m.chunk := ⟨_, rfl⟩
    simp only [NdefMessage.chunk, maxMessageLength, ccLen] at hchunk hlen hresp
    have hsmall : want < 2 ^ 32 := by omega
    have hoff : (UInt16.ofNat m.offset).toNat = m.offset := by
      rw [UInt16.toNat_ofNat']
      omega
    have hcommand : m.command = readBinary (UInt16.ofNat m.offset) want := by
      simp only [ReadMachine.command, hs, hleft, hwant]
    have hcall : calls cc fileId card m.command =
        (succeeded (read card.file m.offset want), card) := by
      rw [hcommand, calls_readMessage cc fileId hcard _ hsmall, hoff]
    have hpage : (read card.file m.offset want).length ≤ pageLimit m.command.le := by
      rw [hcommand, length_read, readBinary]
      simp only [pageLimit, Nat.mod_eq_of_lt hsmall]
      exact Nat.le_refl _
    have hroom : (read card.file m.offset want).length + 2 ≤
        options.exchange.maxResponseBytes := by
      rw [length_read]
      omega
    have hgrow : m.bytes ++ read card.file m.offset want =
        read card.file 2 (m.offset + want - 2) := by
      rw [hbytes, show m.offset + want - 2 = (m.offset - 2) + want by omega, read_add,
        show 2 + (m.offset - 2) = m.offset by omega]
    rw [divCeil_step hpos (by omega), ← hwant]
    have hchunklen : (read card.file m.offset want).length = min m.remaining m.chunk := by
      rw [length_read, hleft, hwant]
    by_cases hend : left - want = 0
    · obtain ⟨m', ha⟩ := ReadMachine.absorb_last hs hchunklen (by rw [hleft, ← hwant]; exact hend)
      have hall : m.bytes ++ read card.file m.offset want = read card.file 2 length := by
        rw [hgrow]
        congr 1
        omega
      have hdone : readMachine.next m (some (succeeded (read card.file m.offset want))) =
          (.ok (.done (read card.file 2 length)), m') := by
        simp only [readMachine, turn, ha, hall]
      have hserved := Served.done (answers_reader hk hcall hpage hroom) hdone
      rw [hend, divCeil_zero]
      rw [show (succeeded (read card.file m.offset want)).data.length = left by
        rw [succeeded, length_read]; omega] at hserved
      exact hserved
    · have ha := ReadMachine.absorb_more hs hchunklen (by rw [hleft, ← hwant]; exact hend)
      rw [hleft, ← hwant] at ha
      have hrest := @ih (left - want) (by omega)
        { m with
          bytes := m.bytes ++ read card.file m.offset want
          remaining := left - want
          offset := m.offset + want } hs (Nat.le_add_right_of_le h2) (by dsimp only; omega)
        (Nat.pos_of_ne_zero hend) hpos (by simp only [NdefMessage.chunk]; exact hchunk) hgrow rfl
      have hserved := read_more hk hcall hpage hroom ha hrest
      rw [length_read, show want + (left - want) = left by omega] at hserved
      exact hserved

theorem ReadMachine.absorb_nlen {m : ReadMachine} (hs : m.step = .readNlen)
    (hlen : data.length = 2) (hfit : ofBeBytes data ≤ m.maxMessage) :
    m.absorb (succeeded data) =
      if ofBeBytes data = 0 then
        .ok (some [], { m with remaining := ofBeBytes data, offset := 2, step := .message })
      else .ok (none, { m with remaining := ofBeBytes data, offset := 2, step := .message }) := by
  simp only [ReadMachine.absorb, hs, ensureSuccess_succeeded]
  change (if data.length ≠ 2 then _ else _) = _
  rw [if_neg (not_not.mpr hlen)]
  exact if_neg (Nat.not_lt.mpr hfit)

/-- The length and the message it announces. -/
theorem read_body (h : Roomy options) (hcard : card.selected = some .message) {m : ReadMachine}
    (hs : m.step = .readNlen) (hfit : nlen card.file ≤ m.maxMessage)
    (hmax : m.maxMessage ≤ maxMessageLength) (hpos : 0 < m.chunk)
    (hchunk : m.chunk ≤ min chunk (options.exchange.maxResponseBytes - 2)) (hbytes : m.bytes = []) :
    Served readMachine (ndefApplet cc fileId) options m card m.command
      (1 + divCeil (nlen card.file) m.chunk) (2 + nlen card.file)
      (.ok (read card.file 2 (nlen card.file))) card := by
  obtain ⟨k, hk⟩ := reader_accepted h hpos hchunk (by rw [hs]; simp)
  have hcommand : m.command = readBinary 0 2 := by simp only [ReadMachine.command, hs]
  have hcall : calls cc fileId card m.command = (succeeded (read card.file 0 2), card) := by
    rw [hcommand]
    exact calls_readMessage cc fileId hcard 0 (by decide)
  have hpage : (read card.file 0 2).length ≤ pageLimit m.command.le := by
    rw [hcommand, length_read]
    exact Nat.le_refl 2
  have hroom : (read card.file 0 2).length + 2 ≤ options.exchange.maxResponseBytes := by
    have := h.response
    rw [length_read]
    simp only [ccLen] at this
    omega
  have hnlen : ofBeBytes (read card.file 0 2) = nlen card.file := rfl
  have ha := ReadMachine.absorb_nlen hs (length_read card.file 0 2) (by rw [hnlen]; exact hfit)
  rw [hnlen] at ha
  by_cases hzero : nlen card.file = 0
  · obtain ⟨m', ha⟩ : ∃ m', m.absorb (succeeded (read card.file 0 2)) = .ok (some [], m') := by
      rw [if_pos hzero] at ha
      exact ⟨_, ha⟩
    have hdone : readMachine.next m (some (succeeded (read card.file 0 2))) =
        (.ok (.done []), m') := by
      simp only [readMachine, turn, ha]
    have hserved := Served.done (answers_reader hk hcall hpage hroom) hdone
    rw [hzero, divCeil_zero]
    exact hserved
  · rw [if_neg hzero] at ha
    have hrest := read_chunks cc fileId h
      (m := { m with remaining := nlen card.file, offset := 2, step := .message })
      rfl (Nat.le_refl 2) rfl (Nat.pos_of_ne_zero hzero) (Nat.le_trans hfit hmax) hpos hchunk
      hcard hbytes
    have hserved := read_more hk hcall hpage hroom ha hrest
    rw [length_read] at hserved
    exact hserved

theorem read_served (h : Roomy options) {capability : NdefCapability}
    (hp : parseCc cc = .ok capability) {size : ℕ} (hpos : 0 < size)
    (hchunk : size ≤ min chunk (options.exchange.maxResponseBytes - 2)) (card : Tag)
    (hfit : nlen card.file ≤ capability.maxMessageLength) :
    ∃ card', Served readMachine (ndefApplet cc capability.fileId) options (.initial size) card
      selectApplet (5 + divCeil (nlen card.file) size) (ccLen + 2 + nlen card.file)
      (.ok (read card.file 2 (nlen card.file))) card' := by
  have hcc := parseCc_length hp
  have hroom : ([] : Bytes).length + 2 ≤ options.exchange.maxResponseBytes :=
    Nat.le_of_succ_le h.valid.response
  have hk {m : ReadMachine} (hm : m.chunk = size) (hs : m.step ≠ .message) :=
    reader_accepted h (m := m) (by rw [hm]; exact hpos) (by rw [hm]; exact hchunk)
      fun hno => absurd hno hs
  obtain ⟨k₀, hk₀⟩ := hk (m := .initial size) rfl (by simp [ReadMachine.initial])
  obtain ⟨k₁, hk₁⟩ := hk (m := { ReadMachine.initial size with step := .selectCc }) rfl (by simp)
  obtain ⟨k₂, hk₂⟩ := hk (m := { ReadMachine.initial size with step := .readCc }) rfl (by simp)
  obtain ⟨k₃, hk₃⟩ := hk (m := { ReadMachine.initial size with
    step := .selectNdef
    fileId := capability.fileId
    maxMessage := capability.maxMessageLength }) rfl (by simp)
  have hopening := opening_calls hcc capability.fileId card
  have hsel : ({ card with selected := some .message } : Tag).selected = some .message := rfl
  have hserved := read_body cc capability.fileId h hsel (m := { ReadMachine.initial size with
    step := .readNlen
    fileId := capability.fileId
    maxMessage := capability.maxMessageLength }) rfl hfit (parseCc_max hp) hpos hchunk rfl
  have habsorb : { ReadMachine.initial size with step := .readCc }.absorb (succeeded cc) =
      .ok (none, { ReadMachine.initial size with
        step := .selectNdef
        fileId := capability.fileId
        maxMessage := capability.maxMessageLength }) := by
    change (parseCc cc >>= _) = _
    rw [hp]
    rfl
  have h₃ := read_more hk₃ hopening.message (Nat.zero_le _) hroom rfl hserved
  have h₂ := read_more hk₂ hopening.content (Nat.le_of_eq hcc) (by rw [hcc]; exact h.response)
    habsorb h₃
  have h₁ := read_more hk₁ hopening.container (Nat.zero_le _) hroom rfl h₂
  have h₀ := read_more hk₀ hopening.applet (Nat.zero_le _) hroom rfl h₁
  rw [hcc] at h₀
  rw [show 5 + divCeil (nlen card.file) size =
      1 + (1 + (1 + (1 + (1 + divCeil (nlen card.file) size)))) by omega,
    show ccLen + 2 + nlen card.file = 0 + (0 + (ccLen + (0 + (2 + nlen card.file)))) by omega]
  exact ⟨_, h₀⟩

end served

end NdefCard
