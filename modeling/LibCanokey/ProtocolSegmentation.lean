import LibCanokey.ProtocolApduDecoder
import LibCanokey.ProtocolConversation

/-! # Lossless command segmentation

Whatever encoding the channel limits select, the frames of an accepted logical command
decode to that command: headers, data and Le, up to the documented Le clamp. -/
namespace ProtocolSegmentation

open BigEndian ListTraversal ProtocolError ProtocolApdu ProtocolApduDecoder
open ProtocolConversation

/-- What the frames of an accepted command are, before decoding. -/
inductive Segmented (logical : LogicalCommand) (options : OperationOptions) :
    List CommandApdu → Prop where
  | single (encoding : ApduEncoding) (cmd : CommandApdu)
      (henc : CommandApdu.encode logical.header logical.data logical.le encoding = .ok cmd) :
      Segmented logical options [cmd]
  | chained (count : ℕ) (frames : List CommandApdu) (hcla : logical.header.cla &&& 0x10 = 0)
      (hshort : 0 < maxShort options) (hlong : maxShort options < logical.data.length)
      (hcount : count = divCeil logical.data.length (maxShort options))
      (hbudget : count ≤ options.limits.maxExchanges)
      (henc : List.Forall₂ (fun chunk f => chainFrame logical count chunk = .ok f)
        (chunks (maxShort options) count logical.data).zipIdx frames) :
      Segmented logical options frames

theorem clampLe_eq_ok {logical : LogicalCommand} {options : OperationOptions}
    {le : ExpectedLength} (hr : logical.le.InRange 65536)
    (h : clampLe logical options = .ok le) :
    (le = logical.le ∧ ∀ n, logical.le = .exact n → n ≤ options.exchange.maxResponseBytes - 2) ∨
    (le = .exact (options.exchange.maxResponseBytes - 2) ∧ logical.continuation.isIso = true ∧
      logical.correctLe = true ∧
      ∃ n, logical.le = .exact n ∧ options.exchange.maxResponseBytes - 2 < n) := by
  simp only [clampLe] at h
  cases hle : logical.le with
  | absent =>
    rw [hle] at h
    cases h
    exact Or.inl ⟨rfl, fun n hn => by cases hn⟩
  | exact n =>
    rw [hle] at h hr
    dsimp only at h
    split_ifs at h with hn hc
    · have hm : (options.exchange.maxResponseBytes - 2) % 2 ^ 32 =
          options.exchange.maxResponseBytes - 2 := by
        apply Nat.mod_eq_of_lt
        have := hr.2
        omega
      rw [hm] at h
      cases h
      exact Or.inr ⟨rfl, hc.1, hc.2, n, rfl, hn⟩
    · cases h
      refine Or.inl ⟨rfl, ?_⟩
      intro m hm
      cases hm
      omega

theorem extendedFrames_eq_ok {logical : LogicalCommand} {options : OperationOptions}
    {frames : List CommandApdu} (h : extendedFrames logical options = .ok frames) :
    frames = [] ∨ ∃ cmd, frames = [cmd] ∧
      CommandApdu.encode logical.header logical.data logical.le .extended = .ok cmd := by
  simp only [extendedFrames] at h
  split_ifs at h with hx
  · obtain ⟨cmd, hcmd, hf⟩ := map_eq_ok.mp h
    split_ifs at hf with hfit
    · exact Or.inr ⟨cmd, hf.symm, hcmd⟩
    · exact Or.inl hf.symm
  · cases h
    exact Or.inl rfl

theorem shortFrames_segmented {logical : LogicalCommand} {options : OperationOptions}
    {frames : List CommandApdu} (h : shortFrames logical options = .ok frames) :
    Segmented logical options frames := by
  unfold shortFrames at h
  dsimp only at h
  split_ifs at h with hle hfit hchain hbudget
  · obtain ⟨cmd, hcmd, rfl⟩ := map_eq_ok.mp h
    exact .single .short cmd hcmd
  · push Not at hfit hchain
    exact .chained _ frames hchain.2.2 (Nat.pos_of_ne_zero hchain.2.1) hfit.2 rfl
      (Nat.le_of_not_lt hbudget) (mapM_eq_ok.mp h)

theorem physicalFrames_segmented {logical : LogicalCommand} {options : OperationOptions}
    {frames : List CommandApdu} (h : physicalFrames logical options = .ok frames) :
    Segmented logical options frames := by
  obtain ⟨extended, hx, h⟩ := bind_eq_ok.mp h
  split_ifs at h with hne
  · exact shortFrames_segmented h
  · cases h
    rcases extendedFrames_eq_ok hx with rfl | ⟨cmd, rfl, hcmd⟩
    · exact absurd rfl hne
    · exact .single .extended cmd hcmd

/-- What construction establishes about the fresh conversation. -/
theorem new_eq_ok {logical : LogicalCommand} {options : OperationOptions}
    {c : ConversationState} (h : ConversationState.new logical options = .ok c) :
    logical.le.InRange 65536 ∧ logical.data.length ≤ options.limits.maxInputBytes ∧
    ∃ le current pending, clampLe logical options = .ok le ∧
      Segmented { logical with le := le } options (current :: pending) ∧
      current.bytes.length ≤ options.exchange.maxCommandBytes ∧
      c = .initial logical current pending := by
  simp only [ConversationState.new] at h
  split_ifs at h with hi hd hle
  obtain ⟨le, hclamp, h⟩ := bind_eq_ok.mp h
  obtain ⟨frames, hf, h⟩ := bind_eq_ok.mp h
  cases frames with
  | nil => cases h
  | cons current pending =>
    dsimp only at h
    split_ifs at h with hfit
    cases h
    exact ⟨hle, Nat.le_of_not_lt hd, le, current, pending, hclamp, physicalFrames_segmented hf,
      Nat.le_of_not_lt hfit, rfl⟩

theorem new_initial {logical : LogicalCommand} {options : OperationOptions}
    {c : ConversationState} (h : ConversationState.new logical options = .ok c) :
    c = .initial logical c.current c.pending := by
  obtain ⟨_, _, _, current, pending, _, _, _, rfl⟩ := new_eq_ok h
  rfl

/-- Without chaining an accepted command is one frame. -/
theorem new_single {logical : LogicalCommand} {options : OperationOptions}
    {c : ConversationState} (hchain : logical.allowChaining = false)
    (h : ConversationState.new logical options = .ok c) :
    ∃ le encoding cmd, clampLe logical options = .ok le ∧
      CommandApdu.encode logical.header logical.data le encoding = .ok cmd ∧
      c = .initial logical cmd [] := by
  simp only [ConversationState.new] at h
  split_ifs at h with hi hd hle
  obtain ⟨le, hclamp, h⟩ := bind_eq_ok.mp h
  obtain ⟨frames, hf, h⟩ := bind_eq_ok.mp h
  have hone : ∃ encoding cmd, frames = [cmd] ∧
      CommandApdu.encode logical.header logical.data le encoding = .ok cmd := by
    obtain ⟨extended, hx, hf⟩ := bind_eq_ok.mp hf
    split_ifs at hf with hne
    · simp only [shortFrames, hchain] at hf
      split_ifs at hf with hbig hfit hno
      · obtain ⟨cmd, hcmd, rfl⟩ := map_eq_ok.mp hf
        exact ⟨.short, cmd, rfl, hcmd⟩
      · simp at hno
    · cases hf
      rcases extendedFrames_eq_ok hx with rfl | ⟨cmd, rfl, hcmd⟩
      · exact absurd rfl hne
      · exact ⟨.extended, cmd, rfl, hcmd⟩
  obtain ⟨encoding, cmd, rfl, hcmd⟩ := hone
  dsimp only at h
  split_ifs at h
  cases h
  exact ⟨le, encoding, cmd, hclamp, hcmd, rfl⟩

theorem length_short (h : ApduHeader) (d : Bytes) (le : ExpectedLength) :
    (CommandApdu.build h d le .short).bytes.length =
      4 + (if d = [] then 0 else 1 + d.length) + if le = .absent then 0 else 1 := by
  rw [length_build]
  cases le with
  | absent =>
    by_cases hd : d = []
    · simp [hd, lcField, leField]
    · simp [hd, lcField, leField]
      omega
  | exact n =>
    by_cases hd : d = []
    · simp [hd, lcField, leField]
    · simp [hd, lcField, leField]
      omega

/-- When a command without chaining, extended form or correction is accepted. -/
theorem new_plain_iff {logical : LogicalCommand} {options : OperationOptions}
    (hvalid : options.Valid) (hchain : logical.allowChaining = false)
    (hext : logical.allowExtended = false) (hcorrect : logical.correctLe = false)
    (hcont : logical.continuation.instructionAllowed = true) :
    (∃ c, ConversationState.new logical options = .ok c) ↔
      logical.data.length ≤ options.limits.maxInputBytes ∧ logical.le.InRange 256 ∧
      (∀ n, logical.le = .exact n → n + 2 ≤ options.exchange.maxResponseBytes) ∧
      (logical.data = [] ∨ logical.data.length ≤ maxShort options) := by
  have hresp := hvalid.response
  have hshort (le : ExpectedLength) :
      physicalFrames { logical with le := le } options =
        shortFrames { logical with le := le } options := by
    simp [physicalFrames, extendedFrames, hext, bind, Except.bind]
  constructor
  · rintro ⟨c, h⟩
    simp only [ConversationState.new] at h
    rw [if_neg (by simp [hcont])] at h
    split_ifs at h with hd hle
    obtain ⟨le, hclamp, h⟩ := bind_eq_ok.mp h
    obtain ⟨frames, hf, h⟩ := bind_eq_ok.mp h
    have hkeep : le = logical.le ∧
        ∀ n, logical.le = .exact n → n ≤ options.exchange.maxResponseBytes - 2 := by
      rcases clampLe_eq_ok hle hclamp with hkeep | ⟨_, _, hcor, _⟩
      · exact hkeep
      · rw [hcorrect] at hcor
        cases hcor
    obtain ⟨rfl, hfit⟩ := hkeep
    rw [hshort] at hf
    simp only [shortFrames, hchain] at hf
    split_ifs at hf with hbig hone hno
    · obtain ⟨cmd, hcmd, _⟩ := map_eq_ok.mp hf
      obtain ⟨_, hrange, _⟩ := encode_eq_ok.mp hcmd
      refine ⟨Nat.le_of_not_lt hd, hrange, ?_, hone⟩
      intro n hn
      have := hfit n hn
      omega
    · simp at hno
  · rintro ⟨hin, hrange, hfit, hone⟩
    have hclamp : clampLe logical options = .ok logical.le := by
      cases hle : logical.le with
      | absent => simp [clampLe, hle]
      | exact n =>
        have := hfit n hle
        simp only [clampLe, hle]
        rw [if_neg (by omega)]
    have hexceeds : ExpectedLength.exceeds 256 logical.le = false := by
      cases hle : logical.le with
      | absent => rfl
      | exact n =>
        rw [hle] at hrange
        simpa [ExpectedLength.exceeds] using hrange.2
    have hlen : logical.data.length < ApduEncoding.short.max := by
      simp only [ApduEncoding.max, maxShort] at hone ⊢
      rcases hone with hnil | hle
      · rw [hnil]
        simp
      · omega
    have hrange' : logical.le.InRange 65536 := by
      cases hle : logical.le with
      | absent => trivial
      | exact n =>
        rw [hle] at hrange
        exact ⟨hrange.1, Nat.le_trans hrange.2 (by decide)⟩
    have hframes : physicalFrames logical options =
        .ok [.build logical.header logical.data logical.le .short] := by
      have henc : CommandApdu.encode logical.header logical.data logical.le .short = .ok _ :=
        encode_eq_ok.mpr ⟨hlen, hrange, rfl⟩
      have := hshort logical.le
      rw [show { logical with le := logical.le } = logical from rfl] at this
      rw [this, shortFrames, hexceeds, if_neg (by simp), if_pos hone, henc]
      rfl
    have hfits : ¬ (CommandApdu.build logical.header logical.data logical.le .short).bytes.length >
        options.exchange.maxCommandBytes := by
      have hcommand := hvalid.command
      rw [length_short]
      simp only [maxShort] at hone
      by_cases hd : logical.data = []
      · rw [if_pos hd]
        split_ifs <;> omega
      · have hpos := List.length_pos_iff.mpr hd
        have hone : logical.data.length ≤ min (options.exchange.maxCommandBytes - 6) 255 :=
          hone.resolve_left hd
        rw [if_neg hd]
        split_ifs <;> omega
    refine ⟨.initial logical (.build logical.header logical.data logical.le .short) [], ?_⟩
    simp only [ConversationState.new]
    rw [if_neg (by simp [hcont]), if_neg (by omega), if_neg (not_not.mpr hrange'), hclamp]
    change (physicalFrames logical options >>= _) = _
    rw [hframes]
    exact if_neg hfits

/-- The decoded meaning of the chunk at a position of a chain. -/
def chainCommand (logical : LogicalCommand) (count : ℕ) (chunk : Bytes × ℕ) : DecodedCommand :=
  ⟨chainHeader logical.header (chunk.2 + 1 == count), chunk.1,
    if chunk.2 + 1 == count then logical.le else .absent⟩

theorem decode_chain {logical : LogicalCommand} {count : ℕ} {pieces : List (Bytes × ℕ)}
    {frames : List CommandApdu}
    (h : List.Forall₂ (fun chunk f => chainFrame logical count chunk = .ok f) pieces frames) :
    frames.map (fun f => decode f.bytes) = (pieces.map (chainCommand logical count)).map some := by
  induction h with
  | nil => rfl
  | cons hf _ ih =>
    rw [List.map_cons, List.map_cons, List.map_cons, ih, decode_of_encode hf]
    rfl

/-- The frames of one logical command, read back by the decoder. -/
structure Lossless (logical : LogicalCommand) (options : OperationOptions)
    (cmds : List DecodedCommand) : Prop where
  nonempty : cmds ≠ []
  fragment : ∀ i d, cmds[i]? = some d → i + 1 < cmds.length →
    d.header = { logical.header with cla := logical.header.cla ||| 0x10 } ∧ d.le = .absent
  last_header : ∀ d, cmds.getLast? = some d → d.header = logical.header
  data : cmds.flatMap DecodedCommand.data = logical.data
  fragment_data : 1 < cmds.length → ∀ d ∈ cmds, d.data ≠ []
  class_free : 1 < cmds.length → logical.header.cla &&& 0x10 = 0
  budget : 1 < cmds.length → cmds.length ≤ options.limits.maxExchanges
  le_kept : (∀ n, logical.le = .exact n → n ≤ options.exchange.maxResponseBytes - 2) →
    ∀ d, cmds.getLast? = some d → d.le = logical.le
  le_clamped : ∀ n, logical.le = .exact n → options.exchange.maxResponseBytes - 2 < n →
    logical.continuation.isIso = true ∧ logical.correctLe = true ∧
    ∀ d, cmds.getLast? = some d → d.le = .exact (options.exchange.maxResponseBytes - 2)

/-- The shape of the decoded frames of a segmentation, for the Le it was given. -/
structure Decoded (logical : LogicalCommand) (options : OperationOptions)
    (cmds : List DecodedCommand) : Prop where
  fragment : ∀ i d, cmds[i]? = some d → i + 1 < cmds.length →
    d.header = { logical.header with cla := logical.header.cla ||| 0x10 } ∧ d.le = .absent
  last : ∃ d, cmds.getLast? = some d ∧ d.header = logical.header ∧ d.le = logical.le
  data : cmds.flatMap DecodedCommand.data = logical.data
  several : 1 < cmds.length → (∀ d ∈ cmds, d.data ≠ []) ∧
    logical.header.cla &&& 0x10 = 0 ∧ cmds.length ≤ options.limits.maxExchanges

theorem chained_class (cla : UInt8) : (cla ||| 0x10) &&& 0x10 ≠ 0 :=
  forall_byte (p := fun cla => (cla ||| 0x10) &&& 0x10 ≠ 0) (by decide +kernel) cla

/-- The frames before the last one are chained. -/
theorem Decoded.split {logical : LogicalCommand} {options : OperationOptions}
    {cmds : List DecodedCommand} (h : Decoded logical options cmds) :
    ∃ init last, cmds = init ++ [last] ∧ (∀ d ∈ init, d.header.cla &&& 0x10 ≠ 0) ∧
      last.header = logical.header ∧ last.le = logical.le := by
  obtain ⟨last, hlast, hheader, hle⟩ := h.last
  obtain ⟨init, rfl⟩ := List.getLast?_eq_some_iff.mp hlast
  refine ⟨init, last, rfl, ?_, hheader, hle⟩
  intro d hd
  obtain ⟨i, hi, rfl⟩ := List.mem_iff_getElem.mp hd
  obtain ⟨hh, _⟩ := h.fragment i init[i]
    (by rw [List.getElem?_append_left hi, List.getElem?_eq_getElem hi]) (by simp; omega)
  rw [hh]
  exact chained_class logical.header.cla

theorem chain_decoded {logical : LogicalCommand} {options : OperationOptions}
    (hcla : logical.header.cla &&& 0x10 = 0) (hshort : 0 < maxShort options)
    (hlong : maxShort options < logical.data.length)
    (hbudget : divCeil logical.data.length (maxShort options) ≤ options.limits.maxExchanges) :
    Decoded logical options
      (((chunks (maxShort options) (divCeil logical.data.length (maxShort options))
        logical.data).zipIdx).map
          (chainCommand logical (divCeil logical.data.length (maxShort options)))) := by
  have hpos := one_lt_divCeil hshort hlong
  have hcover := le_mul_divCeil hshort logical.data.length
  have hlast := mul_divCeil_pred_lt hshort (Nat.lt_of_le_of_lt (Nat.zero_le _) hlong)
  generalize divCeil logical.data.length (maxShort options) = count at *
  have hlen := length_chunks (maxShort options) count logical.data
  have hflat := flatten_chunks hcover
  have hne : ∀ x ∈ chunks (maxShort options) count logical.data, x ≠ [] :=
    fun x => ne_nil_of_mem_chunks hshort hlast
  generalize chunks (maxShort options) count logical.data = pieces at *
  refine ⟨?_, ?_, ?_, ?_⟩
  · intro i d hd hi
    simp only [List.getElem?_map, List.getElem?_zipIdx, Option.map_map, Option.map_eq_some_iff,
      Nat.zero_add, List.length_map, List.length_zipIdx] at hd hi
    obtain ⟨x, _, rfl⟩ := hd
    have hi : ¬ i + 1 = count := by omega
    simp [chainCommand, chainHeader, hi]
  · have hlast : count - 1 < pieces.length := by omega
    obtain ⟨x, hx⟩ : ∃ x, pieces[count - 1]? = some x := ⟨_, List.getElem?_eq_getElem hlast⟩
    refine ⟨chainCommand logical count (x, count - 1), ?_, ?_, ?_⟩
    · simp only [List.getLast?_eq_getElem?, List.getElem?_map, List.getElem?_zipIdx,
        List.length_map, List.length_zipIdx, hlen, hx, Option.map_some, Nat.zero_add]
    · have : count - 1 + 1 = count := by omega
      simp [chainCommand, chainHeader, this]
    · have : count - 1 + 1 = count := by omega
      simp [chainCommand, this]
  · have hd : DecodedCommand.data ∘ chainCommand logical count = Prod.fst := rfl
    rw [List.flatMap_map, List.flatMap_def]
    change (pieces.zipIdx.map (DecodedCommand.data ∘ chainCommand logical count)).flatten = _
    rw [hd, List.zipIdx_map_fst, hflat]
  · intro _
    refine ⟨?_, hcla, by simpa [hlen] using hbudget⟩
    intro d hd
    obtain ⟨⟨x, i⟩, hx, rfl⟩ := List.mem_map.mp hd
    exact hne x (List.fst_mem_of_mem_zipIdx hx)

theorem segmented_decoded {logical : LogicalCommand} {options : OperationOptions}
    {frames : List CommandApdu} (h : Segmented logical options frames) :
    ∃ cmds, frames.map (fun f => decode f.bytes) = cmds.map some ∧
      Decoded logical options cmds := by
  cases h with
  | single encoding cmd henc =>
    refine ⟨[⟨logical.header, logical.data, logical.le⟩], ?_, ?_, ⟨_, rfl, rfl, rfl⟩, ?_, ?_⟩
    · rw [List.map_singleton, decode_of_encode henc]; rfl
    · intro i d _ hi
      simp at hi
    · simp
    · intro hl; simp at hl
  | chained count frames hcla hshort hlong hcount hbudget henc =>
    subst hcount
    exact ⟨_, decode_chain henc, chain_decoded hcla hshort hlong hbudget⟩

/-- The logical command a receiver puts together from decoded frames. -/
def reassemble (cmds : List DecodedCommand) : Option DecodedCommand :=
  cmds.getLast?.map fun d => ⟨d.header, cmds.flatMap DecodedCommand.data, d.le⟩

theorem Decoded.reassemble {logical : LogicalCommand} {options : OperationOptions}
    {cmds : List DecodedCommand} (h : Decoded logical options cmds) :
    reassemble cmds = some ⟨logical.header, logical.data, logical.le⟩ := by
  obtain ⟨d, hd, hh, hl⟩ := h.last
  rw [ProtocolSegmentation.reassemble, hd, Option.map_some, h.data, hh, hl]

/-- Acceptance fixes the frames up to the channel: the Le they carry is the clamped one. -/
theorem new_decoded {logical : LogicalCommand} {options : OperationOptions}
    {c : ConversationState} (h : ConversationState.new logical options = .ok c) :
    ∃ le cmds, logical.le.InRange 65536 ∧ clampLe logical options = .ok le ∧
      c.frames.map (fun f => decode f.bytes) = cmds.map some ∧
      Decoded { logical with le := le } options cmds := by
  obtain ⟨hle, _, le, current, pending, hclamp, hseg, _, rfl⟩ := new_eq_ok h
  obtain ⟨cmds, hmap, hdec⟩ := segmented_decoded hseg
  exact ⟨le, cmds, hle, hclamp, hmap, hdec⟩

theorem lossless_of_decoded {logical : LogicalCommand} {options : OperationOptions}
    {le : ExpectedLength} {cmds : List DecodedCommand} (hr : logical.le.InRange 65536)
    (hclamp : clampLe logical options = .ok le)
    (h : Decoded { logical with le := le } options cmds) : Lossless logical options cmds := by
  obtain ⟨d, hd, hh, hl⟩ := h.last
  have hlast : ∀ d', cmds.getLast? = some d' → d' = d := fun d' hd' =>
    Option.some.inj (hd'.symm.trans hd)
  refine ⟨?_, h.fragment, ?_, h.data, fun hs => (h.several hs).1, fun hs => (h.several hs).2.1,
    fun hs => (h.several hs).2.2, ?_, ?_⟩
  · rintro rfl; cases hd
  · intro d' hd'; rw [hlast d' hd', hh]
  · intro hfit d' hd'
    rw [hlast d' hd', hl]
    rcases clampLe_eq_ok hr hclamp with ⟨hle, _⟩ | ⟨_, _, _, n, hn, hlt⟩
    · exact hle
    · exact absurd (hfit n hn) (Nat.not_le_of_lt hlt)
  · intro n hn hlt
    rcases clampLe_eq_ok hr hclamp with ⟨_, hfit⟩ | ⟨hle, hiso, hcor, _⟩
    · exact absurd (hfit n hn) (Nat.not_le_of_lt hlt)
    · exact ⟨hiso, hcor, fun d' hd' => by rw [hlast d' hd', hl]; exact hle⟩

theorem clampLe_congr {logical : LogicalCommand} {options options' : OperationOptions}
    (h : options'.exchange.maxResponseBytes = options.exchange.maxResponseBytes) :
    clampLe logical options' = clampLe logical options := by
  simp only [clampLe]
  rw [h]

/-- Frames decode to the command they segment, whatever form carries it; on channels
with the same response limit every form denotes the same command. -/
theorem segmentation_lossless {logical : LogicalCommand} {options : OperationOptions}
    {c : ConversationState} (h : ConversationState.new logical options = .ok c) :
    ∃ cmds, c.frames.map (fun f => decode f.bytes) = cmds.map some ∧
      Lossless logical options cmds ∧
      ∀ options' c', options'.exchange.maxResponseBytes = options.exchange.maxResponseBytes →
        ConversationState.new logical options' = .ok c' →
        ∃ cmds', c'.frames.map (fun f => decode f.bytes) = cmds'.map some ∧
          reassemble cmds' = reassemble cmds := by
  obtain ⟨le, cmds, hr, hclamp, hmap, hdec⟩ := new_decoded h
  refine ⟨cmds, hmap, lossless_of_decoded hr hclamp hdec, ?_⟩
  intro options' c' hresp h'
  obtain ⟨le', cmds', _, hclamp', hmap', hdec'⟩ := new_decoded h'
  rw [clampLe_congr hresp, hclamp] at hclamp'
  cases hclamp'
  exact ⟨cmds', hmap', by rw [hdec.reassemble, hdec'.reassemble]⟩

/-- Five data bytes over an eight-byte channel: three short frames of a chain. -/
def chainedExample : LogicalCommand :=
  { header := ⟨0, 0x87, 7, 0x9a⟩, data := [1, 2, 3, 4, 5], le := .exact 256,
    allowChaining := true }

def narrowOptions : OperationOptions := { exchange := { maxCommandBytes := 8 } }

theorem segmentation_lossless_chained :
    ∃ c, ConversationState.new chainedExample narrowOptions = .ok c ∧ c.frames.length = 3 ∧
      ∃ cmds, c.frames.map (fun f => decode f.bytes) = cmds.map some ∧
        Lossless chainedExample narrowOptions cmds ∧
        ∀ options' c', options'.exchange.maxResponseBytes =
            narrowOptions.exchange.maxResponseBytes →
          ConversationState.new chainedExample options' = .ok c' →
          ∃ cmds', c'.frames.map (fun f => decode f.bytes) = cmds'.map some ∧
            reassemble cmds' = reassemble cmds :=
  ⟨_, rfl, rfl, segmentation_lossless rfl⟩

end ProtocolSegmentation
