import LibCanokey.ProtocolSegmentation

/-! # When a command is accepted

The limits that decide it: the input, the clamp of Le, and room for one extended frame or for
short frames. A command that is accepted with some data is accepted with any shorter data. -/
namespace ProtocolAcceptance

open BigEndian ListTraversal ProtocolError ProtocolApdu ProtocolConversation ProtocolSegmentation

/-- One extended frame, when permitted, is small enough. -/
def FitsExtended (logical : LogicalCommand) (options : OperationOptions) : Prop :=
  (logical.allowExtended = true ∧ options.exchange.allowExtended = true) ∧
    logical.data.length ≤ 65535 ∧
    (CommandApdu.build logical.header logical.data logical.le .extended).bytes.length ≤
      options.exchange.maxCommandBytes

/-- One short frame, or a chain of them within the exchange budget. -/
def FitsShort (logical : LogicalCommand) (options : OperationOptions) : Prop :=
  logical.le.InRange 256 ∧
    ((logical.data = [] ∨ logical.data.length ≤ maxShort options) ∨
      logical.allowChaining = true ∧ 0 < maxShort options ∧ logical.header.cla &&& 0x10 = 0 ∧
        divCeil logical.data.length (maxShort options) ≤ options.limits.maxExchanges)

theorem extendedFrames_of_fits {logical : LogicalCommand} {options : OperationOptions}
    (hle : logical.le.InRange 65536) (h : FitsExtended logical options) :
    extendedFrames logical options =
      .ok [.build logical.header logical.data logical.le .extended] := by
  obtain ⟨hallow, hdata, hfit⟩ := h
  have henc : CommandApdu.encode logical.header logical.data logical.le .extended = .ok _ :=
    encode_eq_ok.mpr ⟨by simp only [ApduEncoding.max]; omega, hle, rfl⟩
  rw [extendedFrames, if_pos ⟨hallow, hdata⟩, henc]
  exact congrArg Except.ok (if_pos hfit)

theorem extendedFrames_of_not {logical : LogicalCommand} {options : OperationOptions}
    (hle : logical.le.InRange 65536) (h : ¬ FitsExtended logical options) :
    extendedFrames logical options = .ok [] := by
  by_cases hallow : (logical.allowExtended = true ∧ options.exchange.allowExtended = true) ∧
      logical.data.length ≤ 65535
  · have henc : CommandApdu.encode logical.header logical.data logical.le .extended = .ok _ :=
      encode_eq_ok.mpr ⟨by simp only [ApduEncoding.max]; omega, hle, rfl⟩
    rw [extendedFrames, if_pos hallow, henc]
    exact congrArg Except.ok (if_neg fun hfit => h ⟨hallow.1, hallow.2, hfit⟩)
  · exact if_neg hallow

theorem exceeds_of_inRange {le : ExpectedLength} (h : le.InRange 256) :
    ExpectedLength.exceeds 256 le = false := by
  cases le with
  | absent => rfl
  | exact n => simpa [ExpectedLength.exceeds] using h.2

/-- A frame within the reserved six bytes fits the channel. -/
theorem short_fits {options : OperationOptions} (hvalid : options.Valid) (header : ApduHeader)
    {data : Bytes} (le : ExpectedLength) (h : data = [] ∨ data.length ≤ maxShort options) :
    (CommandApdu.build header data le .short).bytes.length ≤ options.exchange.maxCommandBytes := by
  have hcommand := hvalid.command
  rw [length_short]
  by_cases hd : data = []
  · rw [if_pos hd]
    split_ifs <;> omega
  · have hpos := List.length_pos_iff.mpr hd
    have hone : data.length ≤ min (options.exchange.maxCommandBytes - 6) 255 := h.resolve_left hd
    rw [if_neg hd]
    split_ifs <;> omega

theorem chainFrame_ok {logical : LogicalCommand} {options : OperationOptions} {count : ℕ}
    (hle : logical.le.InRange 256) {chunk : Bytes × ℕ} (h : chunk.1.length ≤ maxShort options) :
    chainFrame logical count chunk =
      .ok (.build (chainHeader logical.header (chunk.2 + 1 == count)) chunk.1
        (if chunk.2 + 1 == count then logical.le else .absent) .short) := by
  have hshort : chunk.1.length < ApduEncoding.short.max := by
    simp only [ApduEncoding.max, maxShort] at h ⊢
    omega
  apply encode_eq_ok.mpr
  refine ⟨hshort, ?_, rfl⟩
  by_cases hlast : (chunk.2 + 1 == count) = true
  · rw [if_pos hlast]
    exact hle
  · rw [if_neg hlast]
    trivial

/-- Short frames that fit are made, and the first one fits the channel. -/
theorem shortFrames_of_fits {logical : LogicalCommand} {options : OperationOptions}
    (hvalid : options.Valid) (h : FitsShort logical options) :
    ∃ current pending, shortFrames logical options = .ok (current :: pending) ∧
      current.bytes.length ≤ options.exchange.maxCommandBytes := by
  obtain ⟨hle, hdata⟩ := h
  have hexceeds : ¬ ExpectedLength.exceeds 256 logical.le = true := by
    rw [exceeds_of_inRange hle]
    decide
  by_cases hone : logical.data = [] ∨ logical.data.length ≤ maxShort options
  · have hlen : logical.data.length < ApduEncoding.short.max := by
      simp only [ApduEncoding.max, maxShort] at hone ⊢
      rcases hone with hnil | hfit
      · rw [hnil]
        simp
      · omega
    have henc : CommandApdu.encode logical.header logical.data logical.le .short = .ok _ :=
      encode_eq_ok.mpr ⟨hlen, hle, rfl⟩
    refine ⟨_, [], ?_, short_fits hvalid logical.header logical.le hone⟩
    rw [shortFrames, if_neg hexceeds, if_pos hone, henc]
    rfl
  · obtain ⟨hchain, hpos, hcla, hbudget⟩ := hdata.resolve_left hone
    have hrefuse : ¬ (¬ logical.allowChaining = true ∨ maxShort options = 0 ∨
        logical.header.cla &&& 0x10 ≠ 0) := by
      rintro (hno | hzero | hclass)
      · exact hno hchain
      · omega
      · exact hclass hcla
    have hchained : shortFrames logical options =
        (chunks (maxShort options) (divCeil logical.data.length (maxShort options))
          logical.data).zipIdx.mapM
            (chainFrame logical (divCeil logical.data.length (maxShort options))) := by
      rw [shortFrames, if_neg hexceeds, if_neg hone, if_neg hrefuse]
      exact if_neg (Nat.not_lt_of_le hbudget)
    have hmade := hchained.trans (mapM_of_forall fun chunk hchunk => chainFrame_ok hle
      (length_le_of_mem_chunks (List.fst_mem_of_mem_zipIdx hchunk)))
    have hlong : maxShort options < logical.data.length := by
      push Not at hone
      exact hone.2
    obtain ⟨n, hn⟩ : ∃ n, divCeil logical.data.length (maxShort options) = n + 1 :=
      ⟨_, (Nat.sub_add_cancel (Nat.le_of_lt (one_lt_divCeil hpos hlong))).symm⟩
    rw [hn, chunks, List.zipIdx_cons, List.map_cons] at hmade
    refine ⟨_, _, hmade, short_fits hvalid _ _ (Or.inr ?_)⟩
    exact List.length_take_le _ _

theorem fits_of_shortFrames {logical : LogicalCommand} {options : OperationOptions}
    {frames : List CommandApdu} (h : shortFrames logical options = .ok frames)
    (hle : logical.le.InRange 65536) : FitsShort logical options := by
  unfold shortFrames at h
  dsimp only at h
  split_ifs at h with hbig hone hchain hbudget
  · obtain ⟨_, hcmd, _⟩ := map_eq_ok.mp h
    exact ⟨(encode_eq_ok.mp hcmd).2.1, Or.inl hone⟩
  · push Not at hchain
    refine ⟨?_, Or.inr ⟨hchain.1, Nat.pos_of_ne_zero hchain.2.1, hchain.2.2,
      Nat.le_of_not_lt hbudget⟩⟩
    cases hl : logical.le with
    | absent => trivial
    | exact n =>
      rw [hl] at hbig hle
      exact ⟨hle.1, by simpa [ExpectedLength.exceeds] using hbig⟩

theorem clampLe_inRange {logical : LogicalCommand} {options : OperationOptions}
    {le : ExpectedLength} (hvalid : options.Valid) (hr : logical.le.InRange 65536)
    (h : clampLe logical options = .ok le) : le.InRange 65536 := by
  have hresp := hvalid.response
  rcases clampLe_eq_ok hr h with ⟨rfl, _⟩ | ⟨rfl, _, _, n, hn, hlt⟩
  · exact hr
  · rw [hn] at hr
    have hmost := hr.2
    refine ⟨?_, ?_⟩ <;> omega

/-- When a command is accepted as a conversation. -/
theorem new_iff {logical : LogicalCommand} {options : OperationOptions} (hvalid : options.Valid) :
    (∃ c, ConversationState.new logical options = .ok c) ↔
      logical.continuation.instructionAllowed = true ∧
      logical.data.length ≤ options.limits.maxInputBytes ∧ logical.le.InRange 65536 ∧
      ∃ le, clampLe logical options = .ok le ∧
        (FitsExtended { logical with le := le } options ∨
          FitsShort { logical with le := le } options) := by
  constructor
  · rintro ⟨c, h⟩
    simp only [ConversationState.new] at h
    split_ifs at h with hi hd hle
    obtain ⟨le, hclamp, h⟩ := bind_eq_ok.mp h
    obtain ⟨frames, hf, h⟩ := bind_eq_ok.mp h
    have hrange := clampLe_inRange hvalid hle hclamp
    refine ⟨hi, Nat.le_of_not_lt hd, hle, le, hclamp, ?_⟩
    by_cases hx : FitsExtended { logical with le := le } options
    · exact Or.inl hx
    · obtain ⟨extended, hext, hf⟩ := bind_eq_ok.mp hf
      cases (extendedFrames_of_not hrange hx).symm.trans hext
      exact Or.inr (fits_of_shortFrames hf hrange)
  · rintro ⟨hi, hd, hle, le, hclamp, hfits⟩
    have hrange := clampLe_inRange hvalid hle hclamp
    have hframes : ∃ current pending,
        physicalFrames { logical with le := le } options = .ok (current :: pending) ∧
          current.bytes.length ≤ options.exchange.maxCommandBytes := by
      by_cases hx : FitsExtended { logical with le := le } options
      · refine ⟨_, [], ?_, hx.2.2⟩
        rw [physicalFrames, extendedFrames_of_fits hrange hx]
        rfl
      · obtain ⟨current, pending, hshort, hlen⟩ :=
          shortFrames_of_fits hvalid (hfits.resolve_left hx)
        refine ⟨current, pending, ?_, hlen⟩
        rw [physicalFrames, extendedFrames_of_not hrange hx]
        exact hshort
    obtain ⟨current, pending, hphysical, hlen⟩ := hframes
    refine ⟨.initial logical current pending, ?_⟩
    simp only [ConversationState.new]
    rw [if_neg (not_not.mpr hi), if_neg (Nat.not_lt_of_le hd), if_neg (not_not.mpr hle), hclamp]
    change (physicalFrames { logical with le := le } options >>= _) = _
    rw [hphysical]
    exact if_neg (Nat.not_lt_of_le hlen)

theorem length_extended (h : ApduHeader) (d : Bytes) :
    (CommandApdu.build h d .absent .extended).bytes.length =
      4 + if d = [] then 0 else 3 + d.length := by
  rw [length_build]
  by_cases hd : d = []
  · simp [hd, lcField, leField]
  · simp [hd, lcField, leField]
    omega

theorem divCeil_le_of_le {m n size k : ℕ} (h : m ≤ n) (hn : divCeil n size ≤ k) :
    divCeil m size ≤ k := Nat.le_trans (divCeil_mono h size) hn

/-- What is accepted without Le is accepted with fewer data. -/
theorem new_of_shorter {logical : LogicalCommand} {options : OperationOptions}
    (hvalid : options.Valid) (hle : logical.le = .absent) {data : Bytes}
    (hlen : data.length ≤ logical.data.length)
    (h : ∃ c, ConversationState.new logical options = .ok c) :
    ∃ c, ConversationState.new { logical with data := data } options = .ok c := by
  obtain ⟨hi, hd, hrange, le, hclamp, hfits⟩ := (new_iff hvalid).mp h
  have habsent : le = .absent := by
    simp only [clampLe, hle] at hclamp
    exact (Except.ok.inj hclamp).symm
  subst habsent
  refine (new_iff hvalid).mpr ⟨hi, Nat.le_trans hlen hd, hrange, .absent, ?_, ?_⟩
  · simp only [clampLe, hle]
  · rcases hfits with ⟨hallow, hdata, hfit⟩ | ⟨_, hdata⟩
    · refine Or.inl ⟨hallow, Nat.le_trans hlen hdata, Nat.le_trans ?_ hfit⟩
      rw [length_extended, length_extended]
      by_cases hnil : data = []
      · rw [if_pos hnil]
        omega
      · have hne : logical.data ≠ [] := by
          intro hz
          rw [hz] at hlen
          exact hnil (List.length_eq_zero_iff.mp (Nat.le_zero.mp hlen))
        rw [if_neg hnil, if_neg hne]
        exact Nat.add_le_add_left (Nat.add_le_add_left hlen 3) 4
    · refine Or.inr ⟨trivial, ?_⟩
      rcases hdata with (hnil | hshort) | ⟨hchain, hpos, hcla, hbudget⟩
      · refine Or.inl (Or.inl (List.length_eq_zero_iff.mp (Nat.le_zero.mp ?_)))
        exact Nat.le_trans hlen (Nat.le_of_eq (List.length_eq_zero_iff.mpr hnil))
      · exact Or.inl (Or.inr (Nat.le_trans hlen hshort))
      · exact Or.inr ⟨hchain, hpos, hcla, divCeil_le_of_le hlen hbudget⟩

theorem length_build_congr (h : ApduHeader) {d d' : Bytes} (hlen : d'.length = d.length)
    (le : ExpectedLength) (e : ApduEncoding) :
    (CommandApdu.build h d' le e).bytes.length = (CommandApdu.build h d le e).bytes.length := by
  have hnil : d' = [] ↔ d = [] := by
    rw [← List.length_eq_zero_iff, hlen, List.length_eq_zero_iff]
  have hfield : (lcField d' le e).length = (lcField d le e).length := by
    by_cases hd : d = []
    · rw [hd, hnil.mpr hd]
    · have hd' : d' ≠ [] := fun h => hd (hnil.mp h)
      cases e with
      | short =>
        rw [lcField, lcField, if_pos hd', if_pos hd]
        rfl
      | extended => rw [lcField, lcField, if_pos hd', if_pos hd, hlen]
  rw [length_build, length_build, hlen, hfield]

/-- What is accepted is accepted with other data of the same length. -/
theorem new_of_length {logical : LogicalCommand} {options : OperationOptions}
    (hvalid : options.Valid) {data : Bytes} (hlen : data.length = logical.data.length)
    (h : ∃ c, ConversationState.new logical options = .ok c) :
    ∃ c, ConversationState.new { logical with data := data } options = .ok c := by
  have hnil : data = [] ↔ logical.data = [] := by
    rw [← List.length_eq_zero_iff, hlen, List.length_eq_zero_iff]
  obtain ⟨hi, hd, hrange, le, hclamp, hfits⟩ := (new_iff hvalid).mp h
  refine (new_iff hvalid).mpr ⟨hi, ?_, hrange, le, hclamp, ?_⟩
  · rw [← hlen] at hd
    exact hd
  · rcases hfits with ⟨hallow, hdata, hfit⟩ | ⟨hle, hdata⟩
    · refine Or.inl ⟨hallow, ?_, ?_⟩
      · rw [← hlen] at hdata
        exact hdata
      · rw [← length_build_congr _ hlen] at hfit
        exact hfit
    · refine Or.inr ⟨hle, ?_⟩
      dsimp only at hdata ⊢
      rw [hnil, hlen]
      exact hdata

/-- The command begins a conversation. -/
def Accepted (options : OperationOptions) (logical : LogicalCommand) : Prop :=
  ∃ c, ConversationState.new logical options = .ok c

/-- A command without Le can be given the short one that asks for a full response. -/
structure LeRoom (options : OperationOptions) (logical : LogicalCommand) : Prop where
  response : 258 ≤ options.exchange.maxResponseBytes
  frame : FitsShort logical options ∨
    logical.data.length + 9 ≤ options.exchange.maxCommandBytes

section explicit

variable {logical : LogicalCommand} {options : OperationOptions}

theorem length_extended_exact (h : ApduHeader) {d : Bytes} (hd : d ≠ []) (n : ℕ) :
    (CommandApdu.build h d (.exact n) .extended).bytes.length = d.length + 9 := by
  rw [length_build]
  simp [hd, lcField, leField]
  omega

/-- Short frames reserve the byte of a short Le. -/
theorem fitsShort_le (hle : logical.le = .absent) :
    FitsShort { logical with le := .exact 256 } options ↔ FitsShort logical options := by
  have hsmall : (ExpectedLength.exact 256).InRange 256 := ⟨by decide, by decide⟩
  have habsent : logical.le.InRange 256 := by
    rw [hle]
    trivial
  exact ⟨fun h => ⟨habsent, h.2⟩, fun h => ⟨hsmall, h.2⟩⟩

/-- A command of few bytes that fits a frame fits a short one. -/
theorem fitsShort_of_short (hle : logical.le = .absent) (hshort : logical.data.length ≤ 255)
    (h : FitsExtended logical options ∨ FitsShort logical options) :
    FitsShort logical options := by
  rcases h with ⟨_, _, hfit⟩ | h
  · refine ⟨by rw [hle]; trivial, Or.inl ?_⟩
    by_cases hd : logical.data = []
    · exact Or.inl hd
    · rw [hle, length_extended, if_neg hd] at hfit
      refine Or.inr ?_
      simp only [maxShort]
      omega
  · exact h

/-- Without Le nothing is clamped. -/
theorem fits_of_absent (hvalid : options.Valid) (hle : logical.le = .absent)
    (h : Accepted options logical) :
    logical.continuation.instructionAllowed = true ∧
      logical.data.length ≤ options.limits.maxInputBytes ∧
      (FitsExtended logical options ∨ FitsShort logical options) := by
  obtain ⟨hi, hd, _, le, hclamp, hfits⟩ := (new_iff hvalid).mp h
  have habsent : le = logical.le := by
    simp only [clampLe, hle] at hclamp
    rw [hle]
    exact (Except.ok.inj hclamp).symm
  subst habsent
  exact ⟨hi, hd, hfits⟩

/-- With room for it the explicit Le changes nothing about what is accepted. -/
theorem accepted_explicit (hvalid : options.Valid) (hle : logical.le = .absent)
    (h : Accepted options logical) (hroom : LeRoom options logical) :
    Accepted options { logical with le := .exact 256 } := by
  obtain ⟨hi, hd, hfits⟩ := fits_of_absent hvalid hle h
  obtain ⟨hbig, hroom⟩ := hroom
  refine (new_iff hvalid).mpr ⟨hi, hd, ⟨by decide, by decide⟩, .exact 256, ?_, ?_⟩
  · simp only [clampLe]
    exact if_neg (by omega)
  · by_cases hshort : FitsShort logical options
    · exact Or.inr ((fitsShort_le hle).mpr hshort)
    · obtain ⟨hallow, hdata, _⟩ := hfits.resolve_right hshort
      have hnil : logical.data ≠ [] := by
        intro hnil
        exact hshort ⟨by rw [hle]; trivial, Or.inl (Or.inl hnil)⟩
      refine Or.inl ⟨hallow, hdata, ?_⟩
      dsimp only
      rw [length_extended_exact _ hnil]
      exact hroom.resolve_left hshort

/-- What is accepted without Le is accepted with the explicit one exactly where it has room. -/
theorem explicit_iff (hvalid : options.Valid) (hle : logical.le = .absent)
    (hcorrect : logical.correctLe = false) (h : Accepted options logical) :
    Accepted options { logical with le := .exact 256 } ↔ LeRoom options logical := by
  refine ⟨?_, accepted_explicit hvalid hle h⟩
  intro hexplicit
  obtain ⟨_, _, _, le, hclamp, hfits⟩ := (new_iff hvalid).mp hexplicit
  simp only [clampLe, hcorrect] at hclamp
  have hresponse := hvalid.response
  have hbig : 258 ≤ options.exchange.maxResponseBytes := by
    by_contra hsmall
    rw [if_pos (by omega)] at hclamp
    simp at hclamp
  rw [if_neg (by omega)] at hclamp
  cases hclamp
  refine ⟨hbig, ?_⟩
  rcases hfits with ⟨_, _, hfit⟩ | hshort
  · by_cases hnil : logical.data = []
    · exact Or.inl ⟨by rw [hle]; trivial, Or.inl (Or.inl hnil)⟩
    · rw [length_extended_exact _ hnil] at hfit
      exact Or.inr hfit
  · exact Or.inl ((fitsShort_le hle).mp hshort)

/-- Of few bytes only the response can be too long. -/
theorem leRoom_of_short (hvalid : options.Valid) (hle : logical.le = .absent)
    (hshort : logical.data.length ≤ 255) (h : Accepted options logical) :
    LeRoom options logical ↔ 258 ≤ options.exchange.maxResponseBytes := by
  obtain ⟨_, _, hfits⟩ := fits_of_absent hvalid hle h
  exact ⟨fun hroom => hroom.response,
    fun hbig => ⟨hbig, Or.inl (fitsShort_of_short hle hshort hfits)⟩⟩

/-- Without chaining and extended frames the data take one short frame. -/
theorem fits_alone (hvalid : options.Valid) (hchain : logical.allowChaining = false)
    (hextended : logical.allowExtended = false) (h : Accepted options logical) :
    logical.data.length ≤ options.limits.maxInputBytes ∧
      (logical.data = [] ∨ logical.data.length ≤ maxShort options) := by
  obtain ⟨_, hd, _, le, _, hfits⟩ := (new_iff hvalid).mp h
  refine ⟨hd, ?_⟩
  rcases hfits with ⟨⟨hallow, _⟩, _⟩ | ⟨_, hone | ⟨hallow, _⟩⟩
  · rw [hextended] at hallow
    cases hallow
  · exact hone
  · rw [hchain] at hallow
    cases hallow

/-- A read whose Le can be corrected, or a command without Le, needs no more than that. -/
theorem accepted_alone (hvalid : options.Valid) (hcont : logical.continuation.isIso = true)
    (hle : logical.le = .absent ∨ logical.le = .exact 256 ∧ logical.correctLe = true)
    (hd : logical.data.length ≤ options.limits.maxInputBytes)
    (hfit : logical.data = [] ∨ logical.data.length ≤ maxShort options) :
    Accepted options logical := by
  have hresponse := hvalid.response
  have hi : logical.continuation.instructionAllowed = true := by
    cases hc : logical.continuation with
    | iso7816 cla => rfl
    | _ =>
      rw [hc] at hcont
      cases hcont
  rcases hle with hle | ⟨hle, hcorrect⟩
  · refine (new_iff hvalid).mpr ⟨hi, hd, by rw [hle]; trivial, .absent, ?_, ?_⟩
    · simp only [clampLe, hle]
    · exact Or.inr ⟨trivial, Or.inl hfit⟩
  · have hrange : logical.le.InRange 65536 := by
      rw [hle]
      exact ⟨by decide, by decide⟩
    refine (new_iff hvalid).mpr ⟨hi, hd, hrange, ?_⟩
    by_cases hbig : 256 > options.exchange.maxResponseBytes - 2
    · refine ⟨.exact (options.exchange.maxResponseBytes - 2), ?_, Or.inr ⟨?_, Or.inl hfit⟩⟩
      · simp only [clampLe, hle]
        rw [if_pos hbig, if_pos ⟨hcont, hcorrect⟩, Nat.mod_eq_of_lt (by omega)]
      · refine ⟨?_, ?_⟩ <;> omega
    · refine ⟨.exact 256, ?_, Or.inr ⟨⟨by decide, by decide⟩, Or.inl hfit⟩⟩
      simp only [clampLe, hle]
      exact if_neg hbig

end explicit

end ProtocolAcceptance
