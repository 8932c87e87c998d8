import LibCanokey.NdefCrashConsistency

/-! # The ranges NDEF machines ask for

Whatever the card answers, the message ranges a reader or a writer asks for tile a prefix
of the message, and an oversized length is an error before any of them. -/
namespace NdefRanges

open BigEndian ListTraversal ByteFile ProtocolError ProtocolApdu ProtocolApduDecoder
open ProtocolConversation ProtocolOperation ProtocolTranscript ScriptedRuns NdefMessage
open NdefCrashConsistency

/-- The offset and length READ BINARY asks for, from the frame the card decodes. -/
def readOf (d : DecodedCommand) : Option (ℕ × ℕ) :=
  if d.header.ins = 0xb0 then
    match d.le with
    | .exact n => some (d.header.p1.toNat * 256 + d.header.p2.toNat, n)
    | .absent => none
  else none

/-- Reads past the length field; those at offset zero fetch the container and the length. -/
def messageReads (frames : List CommandApdu) : List (ℕ × ℕ) :=
  (frames.filterMap fun f => (decode f.bytes).bind readOf).filter fun range => 2 ≤ range.1

/-- Updates past the length field. -/
def messageUpdates (frames : List CommandApdu) : List (ℕ × ℕ) :=
  ((updates frames).map fun w => (w.offset, w.data.length)).filter fun range => 2 ≤ range.1

def commandRead (c : LogicalCommand) : Option (ℕ × ℕ) := readOf ⟨c.header, c.data, c.le⟩

theorem ReadMachine.command_plain (m : ReadMachine) : Plain m.command := by
  obtain ⟨step, chunk, fileId, maxMessage, offset, remaining, bytes⟩ := m
  cases step <;> exact ⟨rfl, rfl, rfl⟩

theorem commandRead_readBinary (o : UInt16) {n : ℕ} (h : n < 2 ^ 32) :
    commandRead (readBinary o n) = some (o.toNat, n) := by
  simp only [commandRead, readOf, readBinary, if_true, offset_bytes, Nat.mod_eq_of_lt h]

/-- The message range that the command of a reader asks for. -/
def wanted (m : ReadMachine) : Option (ℕ × ℕ) :=
  match m.step with
  | .message => some ((UInt16.ofNat m.offset).toNat, min m.remaining m.chunk)
  | _ => none

theorem commandRead_command {m : ReadMachine} (hm : m.chunk ≤ chunk) :
    ([m.command].filterMap commandRead).filter (fun range => 2 ≤ range.1) =
      ((wanted m).toList).filter fun range => 2 ≤ range.1 := by
  obtain ⟨step, size, fileId, maxMessage, offset, remaining, bytes⟩ := m
  cases step with
  | selectApplet => rfl
  | selectCc => rfl
  | selectNdef => rfl
  | readCc =>
    have hread := commandRead_readBinary 0 (n := ccLen) (by decide)
    simp [ReadMachine.command, wanted, hread]
  | readNlen =>
    have hread := commandRead_readBinary 0 (n := 2) (by decide)
    simp [ReadMachine.command, wanted, hread]
  | message =>
    have hsmall : min remaining size < 2 ^ 32 := by
      simp only [NdefMessage.chunk] at hm
      omega
    have hread := commandRead_readBinary (UInt16.ofNat offset) hsmall
    simp only [ReadMachine.command, wanted, List.filterMap_cons, hread, List.filterMap_nil,
      Option.toList_some]

/-- Everything a reader can do on a response without finishing. -/
inductive Reads (m : ReadMachine) (r : ResponseData) : ReadMachine → Prop where
  | selectApplet (hs : m.step = .selectApplet) : Reads m r { m with step := .selectCc }
  | selectCc (hs : m.step = .selectCc) : Reads m r { m with step := .readCc }
  | readCc (hs : m.step = .readCc) (capability : NdefCapability)
      (hp : parseCc r.data = .ok capability) :
      Reads m r { m with
        fileId := capability.fileId
        maxMessage := capability.maxMessageLength
        step := .selectNdef }
  | selectNdef (hs : m.step = .selectNdef) : Reads m r { m with step := .readNlen }
  | readNlen (hs : m.step = .readNlen) (hlen : r.data.length = 2)
      (hfit : ofBeBytes r.data ≤ m.maxMessage) (hpos : ofBeBytes r.data ≠ 0) :
      Reads m r { m with remaining := ofBeBytes r.data, offset := 2, step := .message }
  | message (hs : m.step = .message) (hlen : r.data.length = min m.remaining m.chunk)
      (hmore : m.remaining - min m.remaining m.chunk ≠ 0) :
      Reads m r { m with
        bytes := m.bytes ++ r.data
        remaining := m.remaining - min m.remaining m.chunk
        offset := m.offset + min m.remaining m.chunk
        step := .message }

theorem reads_of_absorb {m m' : ReadMachine} {r : ResponseData}
    (h : m.absorb r = .ok (none, m')) : r.status.isSuccess = true ∧ Reads m r m' := by
  simp only [ReadMachine.absorb] at h
  split at h
  all_goals
    rename_i hs
    obtain ⟨_, hr, h⟩ := bind_eq_ok.mp h
    refine ⟨ensureSuccess_eq_ok.mp hr, ?_⟩
  · cases h; exact .selectApplet hs
  · cases h; exact .selectCc hs
  · obtain ⟨capability, hp, h⟩ := bind_eq_ok.mp h
    cases h
    exact .readCc hs capability hp
  · cases h; exact .selectNdef hs
  · split_ifs at h with hlen hbig hzero
    · simp at h
    · simp only [Except.ok.injEq, Prod.mk.injEq, true_and] at h
      subst h
      exact .readNlen hs (not_not.mp hlen) (Nat.le_of_not_lt hbig) hzero
  · split_ifs at h with hlen hend
    · simp at h
    · simp only [Except.ok.injEq, Prod.mk.injEq, true_and] at h
      subst h
      simpa [hs] using Reads.message hs (not_not.mp hlen) hend

/-- The container and the length were read, and the length fits the container. -/
def Announced (rs : List ResponseData) (length : ℕ) : Prop :=
  ∃ r capability ρ, rs[2]? = some r ∧ parseCc r.data = .ok capability ∧ rs[4]? = some ρ ∧
    ρ.data.length = 2 ∧ ofBeBytes ρ.data = length ∧ length ≤ capability.maxMessageLength

def rangesOf (cs : List LogicalCommand) : List (ℕ × ℕ) :=
  (cs.filterMap commandRead).filter fun range => 2 ≤ range.1

/-- Where a reader is in its message, by its step. -/
def Position (m : ReadMachine) (rs : List ResponseData) (ranges : List (ℕ × ℕ)) : Prop :=
  match m.step with
  | .selectApplet => ranges = [] ∧ rs.length = 0
  | .selectCc => ranges = [] ∧ rs.length = 1
  | .readCc => ranges = [] ∧ rs.length = 2
  | .selectNdef => ranges = [] ∧ rs.length = 3 ∧ ∃ r capability, rs[2]? = some r ∧
      parseCc r.data = .ok capability ∧ m.maxMessage = capability.maxMessageLength
  | .readNlen => ranges = [] ∧ rs.length = 4 ∧ ∃ r capability, rs[2]? = some r ∧
      parseCc r.data = .ok capability ∧ m.maxMessage = capability.maxMessageLength
  | .message => ∃ length, Announced rs length ∧ 2 ≤ m.offset ∧ 0 < m.remaining ∧
      m.offset + m.remaining = 2 + length ∧
      Tiles 2 ranges (m.offset + min m.remaining m.chunk)

theorem Announced.mono {rs rs' : List ResponseData} {length : ℕ} (h : Announced rs length)
    (hp : rs <+: rs') : Announced rs' length := by
  obtain ⟨tail, rfl⟩ := hp
  obtain ⟨r, capability, ρ, hr, hc, hρ, hrest⟩ := h
  refine ⟨r, capability, ρ, ?_, hc, ?_, hrest⟩
  · rw [List.getElem?_append_left (List.getElem?_eq_some_iff.mp hr).1, hr]
  · rw [List.getElem?_append_left (List.getElem?_eq_some_iff.mp hρ).1, hρ]

theorem wanted_ranges {m : ReadMachine} (hs : m.step = .message) (h2 : 2 ≤ m.offset)
    (hbig : m.offset < 2 ^ 16) :
    ((wanted m).toList).filter (fun range => 2 ≤ range.1) =
      [(m.offset, min m.remaining m.chunk)] := by
  have hoff : (UInt16.ofNat m.offset).toNat = m.offset := by
    rw [UInt16.toNat_ofNat']
    omega
  simp [wanted, hs, hoff, h2]

theorem getElem?_concat_length {α : Type*} (xs : List α) (x : α) {n : ℕ} (h : xs.length = n) :
    (xs ++ [x])[n]? = some x := by
  rw [← h]
  simp

theorem position_step {m m' : ReadMachine} {rs : List ResponseData} {ranges : List (ℕ × ℕ)}
    {r : ResponseData} (hchunk : 0 < m.chunk) (h : Position m rs ranges) (hr : Reads m r m') :
    Position m' (rs ++ [r])
      (ranges ++ ((wanted m').toList).filter fun range => 2 ≤ range.1) := by
  have hold {i : ℕ} {ρ : ResponseData} (hρ : rs[i]? = some ρ) : (rs ++ [r])[i]? = some ρ := by
    rw [List.getElem?_append_left (List.getElem?_eq_some_iff.mp hρ).1, hρ]
  cases hr with
  | selectApplet hs =>
    simp only [Position, hs] at h
    simp [Position, wanted, h]
  | selectCc hs =>
    simp only [Position, hs] at h
    simp [Position, wanted, h]
  | readCc hs capability hp =>
    simp only [Position, hs] at h
    obtain ⟨rfl, hlen⟩ := h
    exact ⟨rfl, by simp [hlen], r, capability, getElem?_concat_length rs r hlen, hp, rfl⟩
  | selectNdef hs =>
    simp only [Position, hs] at h
    obtain ⟨rfl, hlen, ρ, capability, hρ, hp, hmax⟩ := h
    exact ⟨rfl, by simp [hlen], ρ, capability, hold hρ, hp, hmax⟩
  | readNlen hs hlen hfit hpos =>
    simp only [Position, hs] at h
    obtain ⟨rfl, hlen', ρ, capability, hρ, hp, hmax⟩ := h
    rw [hmax] at hfit
    rw [wanted_ranges rfl (Nat.le_refl 2) (show 2 < 2 ^ 16 by decide)]
    refine ⟨ofBeBytes r.data, ⟨ρ, capability, r, hold hρ, hp,
      getElem?_concat_length rs r hlen', hlen, rfl, hfit⟩, Nat.le_refl 2,
      Nat.pos_of_ne_zero hpos, rfl, rfl, ?_, rfl⟩
    dsimp only
    omega
  | message hs hlen hmore =>
    simp only [Position, hs] at h
    obtain ⟨length, hann, h2, hrem, hsum, htiles⟩ := h
    have hann' := hann.mono (List.prefix_append rs [r])
    obtain ⟨_, capability, _, _, hp, _, _, _, hfit⟩ := hann
    have hcap := parseCc_max hp
    simp only [maxMessageLength] at hcap
    rw [wanted_ranges rfl (Nat.le_add_right_of_le h2) (by dsimp only; omega)]
    refine ⟨length, hann', ?_, ?_, ?_, ?_⟩
    · exact Nat.le_add_right_of_le h2
    · exact Nat.pos_of_ne_zero hmore
    · dsimp only
      omega
    · exact tiles_concat htiles (by dsimp only; omega)

/-- The machine of a reader with its chunk size and its position, after any trace. -/
theorem trace_position {size : ℕ} (hpos : 0 < size) (hsize : size ≤ chunk)
    {cs : List LogicalCommand} {rs : List ResponseData} {m : ReadMachine}
    (h : Trace readMachine (.initial size) cs rs m) :
    m.chunk = size ∧ (∀ c ∈ cs, Plain c) ∧ Position m rs (rangesOf cs) := by
  induction h with
  | opened h =>
    obtain ⟨rfl, ⟨_, rfl⟩ | ⟨_, hr, _⟩⟩ := ReadMachine.next_command h
    · refine ⟨rfl, ?_, rfl, rfl⟩
      intro c hc
      rw [List.mem_singleton.mp hc]
      exact ReadMachine.command_plain _
    · cases hr
  | @answered cs rs m m' r c ht h ih =>
    obtain ⟨hm, hplain, hposition⟩ := ih
    obtain ⟨rfl, ⟨hr, _⟩ | ⟨_, hr, ha⟩⟩ := ReadMachine.next_command h
    · cases hr
    cases hr
    obtain ⟨_, hreads⟩ := reads_of_absorb ha
    have hsame : m'.chunk = m.chunk := by cases hreads <;> rfl
    refine ⟨hsame.trans hm, ?_, ?_⟩
    · intro c' hc'
      rcases List.mem_append.mp hc' with hc' | hc'
      · exact hplain c' hc'
      · rw [List.mem_singleton.mp hc']
        exact ReadMachine.command_plain _
    · have hstep := position_step (by rw [hm]; exact hpos) hposition hreads
      rw [← commandRead_command (by rw [hsame, hm]; exact hsize)] at hstep
      simpa [rangesOf] using hstep

/-- The message ranges a writer has asked for, by its step. -/
def Covered (m : WriteMachine) (ranges : List (ℕ × ℕ)) : Prop :=
  match m.step with
  | .message => m.offset < m.message.length ∧ Tiles 2 ranges (2 + m.offset + m.take)
  | .finalLength => Tiles 2 ranges (2 + m.message.length)
  | _ => ranges = [] ∧ m.offset = 0

def writtenRanges (cs : List LogicalCommand) : List (ℕ × ℕ) :=
  ((cs.filterMap commandUpdate).map fun w => (w.offset, w.data.length)).filter
    fun range => 2 ≤ range.1

/-- The range of one command of a writer. -/
theorem writtenRanges_command {m : WriteMachine} (hm : m.message.length ≤ maxMessageLength)
    (hoff : m.step = .message → m.offset < m.message.length) :
    writtenRanges [m.command] =
      if m.step = .message then [(2 + m.offset, m.take)] else [] := by
  simp only [writtenRanges, filterMap_command]
  cases hs : m.step with
  | message =>
    have hlt := hoff hs
    simp only [maxMessageLength] at hm
    have htake : m.take ≤ m.message.length - m.offset := Nat.min_le_left _ _
    have hbig : (2 + UInt16.ofNat m.offset).toNat = 2 + m.offset := by
      simp
      omega
    simp only [asked, hs, hbig]
    simp
    omega
  | _ => simp [asked, hs]

theorem covered_step {m m' : WriteMachine} {ranges : List (ℕ × ℕ)} {r : ResponseData}
    (hpos : 0 < m.chunk) (h : Covered m ranges) (ha : Absorbs m r m') :
    (m'.step = .message → m'.offset < m'.message.length) ∧
      Covered m' (ranges ++ if m'.step = .message then [(2 + m'.offset, m'.take)] else []) := by
  have htake : m.take = min (m.message.length - m.offset) m.chunk := rfl
  cases ha with
  | selectApplet hs => simpa [Covered, hs] using h
  | selectCc hs => simpa [Covered, hs] using h
  | readCc hs => simpa [Covered, hs] using h
  | selectNdef hs => simpa [Covered, hs] using h
  | emptied hs he =>
    simp only [Covered, hs] at h
    simp [Covered, h.1, he, Tiles]
  | cleared hs he =>
    simp only [Covered, hs] at h
    have hlen := List.length_pos_iff.mpr he
    obtain ⟨rfl, hoff⟩ := h
    have htake' : ({ m with step := .message } : WriteMachine).take = m.take := rfl
    refine ⟨fun _ => by dsimp only; omega, ?_⟩
    simp only [Covered, if_true, List.nil_append, htake']
    exact ⟨by omega, by rw [hoff], by omega, by rw [hoff]; rfl⟩
  | wrote hs hmore =>
    simp only [Covered, hs] at h
    obtain ⟨hlt, htiles⟩ := h
    obtain ⟨take', htake'⟩ : ∃ take', take' = ({ m with
      offset := m.offset + m.take, step := .message } : WriteMachine).take := ⟨_, rfl⟩
    have hval : take' = min (m.message.length - (m.offset + m.take)) m.chunk := htake'
    refine ⟨fun _ => by dsimp only; omega, ?_⟩
    simp only [Covered, if_true, ← htake']
    refine ⟨by omega, ?_⟩
    rw [← Nat.add_assoc]
    exact tiles_concat htiles (by omega)
  | filled hs hend =>
    simp only [Covered, hs] at h
    obtain ⟨_, htiles⟩ := h
    rw [Nat.add_assoc, hend] at htiles
    simpa [Covered] using htiles

theorem trace_covered {message : Bytes} {size : ℕ} (hm : message.length ≤ maxMessageLength)
    (hpos : 0 < size) {cs : List LogicalCommand} {rs : List ResponseData} {m : WriteMachine}
    (h : Trace writeMachine (.initial message size) cs rs m) :
    Covered m (writtenRanges cs) ∧ m.message = message ∧ m.chunk = size := by
  induction h with
  | opened h =>
    obtain ⟨rfl, ⟨_, rfl⟩ | ⟨_, hr, _⟩⟩ := WriteMachine.next_command h
    · exact ⟨⟨rfl, rfl⟩, rfl, rfl⟩
    · cases hr
  | @answered cs rs m m' r c ht h ih =>
    obtain ⟨hcov, hmsg, hchunk⟩ := ih
    obtain ⟨rfl, ⟨hr, _⟩ | ⟨_, hr, ha⟩⟩ := WriteMachine.next_command h
    · cases hr
    cases hr
    obtain ⟨_, habs⟩ := absorb_goes ha
    have hsame : m'.message = m.message ∧ m'.chunk = m.chunk := by
      cases habs <;> exact ⟨rfl, rfl⟩
    obtain ⟨hoff, hcov'⟩ := covered_step (by rw [hchunk]; exact hpos) hcov habs
    have hone := writtenRanges_command (by rw [hsame.1, hmsg]; exact hm) hoff
    refine ⟨?_, hsame.1.trans hmsg, hsame.2.trans hchunk⟩
    have happ : writtenRanges (cs ++ [m'.command]) =
        writtenRanges cs ++ writtenRanges [m'.command] := by
      simp [writtenRanges]
    rw [happ, hone]
    exact hcov'

theorem covered_tiles {m : WriteMachine} {ranges : List (ℕ × ℕ)} (h : Covered m ranges) :
    ∃ stop, Tiles 2 ranges stop ∧ stop ≤ 2 + m.message.length := by
  have htake : m.take ≤ m.message.length - m.offset := Nat.min_le_left _ _
  cases hs : m.step with
  | message =>
    simp only [Covered, hs] at h
    exact ⟨_, h.2, by omega⟩
  | finalLength =>
    simp only [Covered, hs] at h
    exact ⟨_, h, Nat.le_refl _⟩
  | _ =>
    simp only [Covered, hs] at h
    rw [h.1]
    exact ⟨2, rfl, by omega⟩

theorem Announced.unique {rs : List ResponseData} {length : ℕ} (h : Announced rs length)
    {r ρ : ResponseData} {capability : NdefCapability} (hr : rs[2]? = some r)
    (hp : parseCc r.data = .ok capability) (hρ : rs[4]? = some ρ) :
    ofBeBytes ρ.data ≤ capability.maxMessageLength := by
  obtain ⟨r', capability', ρ', hr', hp', hρ', _, hlen, hfit⟩ := h
  rw [hr] at hr'
  cases hr'
  rw [hp] at hp'
  cases hp'
  rw [hρ] at hρ'
  cases hρ'
  omega

theorem position_ranges {m : ReadMachine} {rs : List ResponseData} {ranges : List (ℕ × ℕ)}
    (h : Position m rs ranges) : ranges = [] ∨ ∃ length stop, Announced rs length ∧
      Tiles 2 ranges stop ∧ stop ≤ 2 + length := by
  cases hs : m.step with
  | message =>
    simp only [Position, hs] at h
    obtain ⟨length, hann, _, _, hsum, htiles⟩ := h
    exact Or.inr ⟨length, _, hann, htiles, by omega⟩
  | selectApplet => simp only [Position, hs] at h; exact Or.inl h.1
  | selectCc => simp only [Position, hs] at h; exact Or.inl h.1
  | readCc => simp only [Position, hs] at h; exact Or.inl h.1
  | selectNdef => simp only [Position, hs] at h; exact Or.inl h.1
  | readNlen => simp only [Position, hs] at h; exact Or.inl h.1

/-- A length above the container maximum is an error, whatever the status. -/
theorem oversized_turn {m m' : ReadMachine} {rs : List ResponseData} {ranges : List (ℕ × ℕ)}
    {r ρ : ResponseData} {capability : NdefCapability} {result : Except Error (Action Bytes)}
    (h : Position m rs ranges) (hn : readMachine.next m (some r) = (result, m'))
    (hr : (rs ++ [r])[2]? = some ρ) (hp : parseCc ρ.data = .ok capability) {ρ' : ResponseData}
    (hρ' : (rs ++ [r])[4]? = some ρ')
    (hbig : capability.maxMessageLength < ofBeBytes ρ'.data) : ∃ e, result = .error e := by
  have hold {i : ℕ} (hi : i < rs.length) : (rs ++ [r])[i]? = rs[i]? :=
    List.getElem?_append_left hi
  have hlen := (List.getElem?_eq_some_iff.mp hρ').1
  rw [List.length_append, List.length_singleton] at hlen
  cases hs : m.step with
  | selectApplet => simp only [Position, hs] at h; omega
  | selectCc => simp only [Position, hs] at h; omega
  | readCc => simp only [Position, hs] at h; omega
  | selectNdef => simp only [Position, hs] at h; omega
  | readNlen =>
    simp only [Position, hs] at h
    obtain ⟨_, hcount, r₂, capability', hr₂, hp', hmax⟩ := h
    rw [hold (by omega), hr₂] at hr
    cases hr
    rw [hp] at hp'
    cases hp'
    rw [getElem?_concat_length rs r hcount] at hρ'
    cases hρ'
    simp only [readMachine, turn, ReadMachine.absorb, hs] at hn
    cases hsuccess : r.ensureSuccess .command with
    | error e =>
      rw [hsuccess] at hn
      cases hn
      exact ⟨_, rfl⟩
    | ok u =>
      rw [hsuccess] at hn
      by_cases htwo : r.data.length = 2
      · have hover : ofBeBytes r.data > m.maxMessage := by omega
        simp only [bind, Except.bind, htwo, hover, ne_eq, not_true, if_false, if_true] at hn
        cases hn
        exact ⟨_, rfl⟩
      · simp only [bind, Except.bind, htwo, ne_eq, not_false_iff, if_true] at hn
        cases hn
        exact ⟨_, rfl⟩
  | message =>
    simp only [Position, hs] at h
    obtain ⟨length, hann, _⟩ := h
    have := (hann.mono (List.prefix_append rs [r])).unique hr hp hρ'
    omega

/-- A run of a reader: what it asks for, and what an oversized length leads to. -/
structure ReadRun (s : Recorded ReadMachine Bytes) : Prop where
  ranges : messageReads s.frames = [] ∨ ∃ length stop, Announced s.responses length ∧
    Tiles 2 (messageReads s.frames) stop ∧ stop ≤ 2 + length
  oversized : ∀ r capability ρ, s.responses[2]? = some r → parseCc r.data = .ok capability →
    s.responses[4]? = some ρ → capability.maxMessageLength < ofBeBytes ρ.data →
    messageReads s.frames = [] ∧ s.op.state = .failed

theorem trace_not_oversized {size : ℕ} (hpos : 0 < size) (hsize : size ≤ chunk)
    {cs : List LogicalCommand} {rs : List ResponseData} {m : ReadMachine}
    (h : Trace readMachine (.initial size) cs rs m) {r ρ : ResponseData}
    {capability : NdefCapability} (hr : rs[2]? = some r) (hp : parseCc r.data = .ok capability)
    (hρ : rs[4]? = some ρ) : ¬ capability.maxMessageLength < ofBeBytes ρ.data := by
  intro hbig
  cases h with
  | opened h => cases hr
  | answered ht h =>
    obtain ⟨_, _, hposition⟩ := trace_position hpos hsize ht
    obtain ⟨e, he⟩ := oversized_turn hposition h hr hp hρ hbig
    cases he

theorem lastTurn_oversized {size : ℕ} (hpos : 0 < size) (hsize : size ≤ chunk)
    {cs : List LogicalCommand} {rs : List ResponseData} {m : ReadMachine}
    {result : Except Error (Action Bytes)}
    (h : LastTurn readMachine (.initial size) result cs rs m) {r ρ : ResponseData}
    {capability : NdefCapability} (hr : rs[2]? = some r) (hp : parseCc r.data = .ok capability)
    (hρ : rs[4]? = some ρ) (hbig : capability.maxMessageLength < ofBeBytes ρ.data) :
    ∃ e, result = .error e := by
  cases h with
  | opening h => cases hr
  | answering ht h =>
    obtain ⟨_, _, hposition⟩ := trace_position hpos hsize ht
    exact oversized_turn hposition h hr hp hρ hbig

theorem reads_shown {options : OperationOptions} {cs : List LogicalCommand}
    {fs : List CommandApdu} {k : Option ConversationState} (h : Shown options cs fs k)
    (hcs : ∀ c ∈ cs, Plain c) : messageReads fs = rangesOf cs := by
  simp only [messageReads, rangesOf]
  rw [h.filterMap readOf (fun _ => rfl) hcs]
  rfl

theorem read_run {options : OperationOptions} {op : Operation ReadMachine Bytes}
    (h : readMessage options = .ok op) (calls : List Call) :
    ReadRun (recorded readMachine op calls) := by
  obtain ⟨hvalid, _, _, _, hop⟩ := readMessage_eq_ok h
  have hresp := hvalid.response
  have hpos : 0 < readChunk options := by
    simp only [readChunk, NdefMessage.chunk]
    omega
  have hsize : readChunk options ≤ chunk := Nat.min_le_left _ _
  have hf := recorded_follows readMachine hop calls
  generalize recorded readMachine op calls = s at hf ⊢
  obtain ⟨k, hshown, _⟩ := hf.shown
  have hranges : messageReads s.frames = [] ∨ ∃ rs length stop, rs <+: s.responses ∧
      Announced rs length ∧ Tiles 2 (messageReads s.frames) stop ∧ stop ≤ 2 + length := by
    rcases hf.standing.commands with hcs | ⟨rs, m, hrs, ht⟩
    · rw [hcs] at hshown
      rw [reads_shown hshown (by simp)]
      exact Or.inl rfl
    · obtain ⟨_, hplain, hposition⟩ := trace_position hpos hsize ht
      rw [reads_shown hshown hplain]
      rcases position_ranges hposition with hnil | ⟨length, stop, hann, htiles, hstop⟩
      · exact Or.inl hnil
      · exact Or.inr ⟨rs, length, stop, hrs, hann, htiles, hstop⟩
  constructor
  · rcases hranges with hnil | ⟨rs, length, stop, hrs, hann, htiles, hstop⟩
    · exact Or.inl hnil
    · exact Or.inr ⟨length, stop, hann.mono hrs, htiles, hstop⟩
  · intro r capability ρ hr hp hρ hbig
    constructor
    · rcases hranges with hnil | ⟨rs, length, stop, hrs, hann, _⟩
      · exact hnil
      · have := (hann.mono hrs).unique hr hp hρ
        omega
    · have hno {cs : List LogicalCommand} {m : ReadMachine}
          (ht : Trace readMachine (.initial (readChunk options)) cs s.responses m) : False :=
        trace_not_oversized hpos hsize ht hr hp hρ hbig
      cases hf.standing with
      | created _ _ _ hrs =>
        rw [hrs] at hr
        cases hr
      | awaiting m _ _ ht => exact (hno ht).elim
      | completed m v ht =>
        obtain ⟨e, he⟩ := lastTurn_oversized hpos hsize ht hr hp hρ hbig
        cases he
      | cancelled _ _ ht =>
        rcases ht with ⟨_, hrs⟩ | ⟨m, ht⟩
        · rw [hrs] at hr
          cases hr
        · exact (hno ht).elim
      | broke _ hs => exact hs
      | failed _ _ hs => exact hs
      | rejected _ _ hs => exact hs

theorem write_tiles {message : Bytes} {options : OperationOptions}
    {op : Operation WriteMachine Unit} (h : writeMessage message options = .ok op)
    (calls : List Call) :
    ∃ stop, Tiles 2 (messageUpdates (recorded writeMachine op calls).frames) stop ∧
      stop ≤ 2 + message.length := by
  obtain ⟨_, hm, size, hsize, _, _, _, _, _, hop⟩ := writeMessage_eq_ok h
  have hpos := (writeChunk_eq_ok hsize).2
  have hf := recorded_follows writeMachine hop calls
  generalize recorded writeMachine op calls = s at hf ⊢
  obtain ⟨k, hshown, _⟩ := hf.shown
  simp only [messageUpdates]
  rcases hf.standing.commands with hcs | ⟨rs, m, hrs, ht⟩
  · rw [hcs] at hshown
    rw [updates_shown hshown (by simp)]
    exact ⟨2, rfl, by omega⟩
  · have hu := trace_underway (fun _ => 0) hm ht
    obtain ⟨hcov, hmsg, _⟩ := trace_covered hm hpos ht
    rw [updates_shown hshown hu.plain, ← hmsg]
    exact covered_tiles hcov

end NdefRanges
