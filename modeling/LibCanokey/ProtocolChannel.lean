import LibCanokey.ProtocolSegmentation

/-! # Physical commands respect the channel

Over any script of responses, every command a conversation exposes fits the command
limit, and any Le it carries asks for no more than a response may hold. -/
namespace ProtocolChannel

open BigEndian ListTraversal ProtocolError ProtocolApdu ProtocolApduDecoder
open ProtocolConversation ProtocolSegmentation ScriptedRuns

def LeFits (options : OperationOptions) : ExpectedLength → Prop
  | .absent => True
  | .exact n => 1 ≤ n ∧ n ≤ options.exchange.maxResponseBytes - 2

/-- A command this crate encoded, small enough for the channel in both directions. -/
structure Fits (options : OperationOptions) (cmd : CommandApdu) : Prop where
  encoded : ∃ header data le encoding,
    CommandApdu.encode header data le encoding = .ok cmd ∧ LeFits options le
  length : cmd.bytes.length ≤ options.exchange.maxCommandBytes

structure ChannelInvariant (options : OperationOptions) (c : ConversationState) : Prop where
  current : Fits options c.current
  pending : ∀ f ∈ c.pending, Fits options f

theorem requestedLe_bounds (sw : UInt16) : 1 ≤ requestedLe sw ∧ requestedLe sw ≤ 256 := by
  have hm : (sw &&& 255).toNat = sw.toNat % 256 := by
    rw [UInt16.toNat_and]
    exact Nat.and_two_pow_sub_one_eq_mod _ 8
  simp only [requestedLe]
  split_ifs with h
  · exact ⟨by decide, le_rfl⟩
  · have hne : (sw &&& 255).toNat ≠ 0 := fun hz => h (UInt16.toNat_inj.mp hz)
    omega

theorem length_bare {h : ApduHeader} {n : ℕ} {cmd : CommandApdu}
    (he : CommandApdu.encode h [] (.exact n) .short = .ok cmd) : cmd.bytes.length = 5 := by
  obtain ⟨_, _, rfl⟩ := encode_eq_ok.mp he
  rfl

theorem length_short_le {h : ApduHeader} {data : Bytes} {le : ExpectedLength}
    {cmd : CommandApdu} (he : CommandApdu.encode h data le .short = .ok cmd) :
    cmd.bytes.length ≤ data.length + 6 := by
  obtain ⟨_, _, rfl⟩ := encode_eq_ok.mp he
  have hc : (lcField data le .short).length ≤ 1 := by unfold lcField; split_ifs <;> simp
  have hl : (leField le .short).length ≤ 1 := by cases le <;> simp [leField]
  rw [length_build]
  omega

/-- A continuation command: no data, and an Le below both bounds it is taken from. -/
theorem bare_fits {options : OperationOptions} (hv : options.Valid) {h : ApduHeader} {n : ℕ}
    {cmd : CommandApdu} (hn : 1 ≤ n)
    (he : CommandApdu.encode h []
      (.exact (min n (options.exchange.maxResponseBytes - 2))) .short = .ok cmd) :
    Fits options cmd := by
  have hr := hv.response
  refine ⟨⟨h, [], _, .short, he, ?_, Nat.min_le_right _ _⟩, ?_⟩
  · exact Nat.le_min.mpr ⟨hn, by omega⟩
  · rw [length_bare he]
    exact hv.command

theorem clamped_le_fits {logical : LogicalCommand} {options : OperationOptions}
    {le : ExpectedLength} (hr : logical.le.InRange 65536) (hv : options.Valid)
    (h : clampLe logical options = .ok le) : LeFits options le := by
  have hresp := hv.response
  rcases clampLe_eq_ok hr h with ⟨rfl, hfit⟩ | ⟨rfl, _⟩
  · cases hle : logical.le with
    | absent => trivial
    | exact n =>
      rw [hle] at hr
      exact ⟨Nat.one_le_iff_ne_zero.mpr hr.1, hfit n hle⟩
  · exact ⟨by omega, le_rfl⟩

theorem chainFrame_fits {logical : LogicalCommand} {options : OperationOptions} {count : ℕ}
    {chunk : Bytes × ℕ} {f : CommandApdu} (hle : LeFits options logical.le)
    (hpos : 0 < maxShort options) (hlen : chunk.1.length ≤ maxShort options)
    (h : chainFrame logical count chunk = .ok f) : Fits options f := by
  refine ⟨⟨_, _, _, _, h, ?_⟩, ?_⟩
  · split_ifs
    · exact hle
    · trivial
  · have hbytes := length_short_le h
    simp only [maxShort] at hpos hlen
    omega

theorem new_channel {logical : LogicalCommand} {options : OperationOptions}
    {c : ConversationState} (hv : options.Valid)
    (h : ConversationState.new logical options = .ok c) : ChannelInvariant options c := by
  obtain ⟨hr, _, le, current, pending, hclamp, hseg, hfit, rfl⟩ := new_eq_ok h
  have hle := clamped_le_fits hr hv hclamp
  generalize hframes : current :: pending = frames at hseg
  cases hseg with
  | single encoding cmd henc =>
    cases hframes
    exact ⟨⟨⟨_, _, _, _, henc, hle⟩, hfit⟩, fun f hf => by cases hf⟩
  | chained count frames hcla hpos hlong hcount hbudget henc =>
    have hall : ∀ f ∈ frames, Fits options f := by
      intro f hf
      obtain ⟨chunk, hchunk, hok⟩ := exists_of_mem_right henc hf
      exact chainFrame_fits hle hpos
        (length_le_of_mem_chunks (List.fst_mem_of_mem_zipIdx hchunk)) hok
    subst hframes
    exact ⟨hall _ List.mem_cons_self, fun f hf => hall f (List.mem_cons_of_mem _ hf)⟩

theorem goes_channel {options : OperationOptions} (hv : options.Valid)
    {c c' : ConversationState} {r : ResponseApdu} (hi : ChannelInvariant options c)
    (h : Goes options c r c') : ChannelInvariant options c' := by
  cases h with
  | corrected current hsw hle hp hc hfit hcur hlen =>
    obtain ⟨header, data, le, encoding, henc, _⟩ := hi.current.encoded
    obtain ⟨_, _, hb⟩ := encode_eq_ok.mp henc
    rw [hb, corrected_build] at hcur
    exact ⟨⟨⟨_, _, _, _, hcur, (requestedLe_bounds _).1, hfit⟩, hlen⟩, hi.pending⟩
  | acknowledged next rest hp hr =>
    have hmem : ∀ f ∈ next :: rest, Fits options f := hp ▸ hi.pending
    exact ⟨hmem _ List.mem_cons_self, fun f hf => hmem f (List.mem_cons_of_mem _ hf)⟩
  | sentRemaining i probe current hp hcont hmore hd hcur =>
    exact ⟨bare_fits hv (by decide) hcur, hi.pending⟩
  | gotResponse cla current hp hcont hsw hd hcur =>
    exact ⟨bare_fits hv (requestedLe_bounds _).1 hcur, hi.pending⟩

theorem waiting_channel {options : OperationOptions} (hv : options.Valid)
    {c c' : ConversationState} {script : List ResponseApdu} (hi : ChannelInvariant options c)
    (h : c' ∈ waiting (ConversationState.advance options) c script) :
    ChannelInvariant options c' :=
  waiting_invariant (ChannelInvariant options)
    (fun _ _ _ hs ht => goes_channel hv hs (advance_goes.mp ht)) hi h

theorem Fits.decoded_le {options : OperationOptions} {cmd : CommandApdu}
    (h : Fits options cmd) {d : DecodedCommand} (hd : decode cmd.bytes = some d) :
    LeFits options d.le := by
  obtain ⟨header, data, le, encoding, henc, hle⟩ := h.encoded
  rw [decode_of_encode henc] at hd
  cases hd
  exact hle

/-- Initial frame, fragment, correction and continuation alike. -/
theorem exposed_command_respects_channel {logical : LogicalCommand}
    {options : OperationOptions} {c₀ : ConversationState} (hv : options.Valid)
    (h₀ : ConversationState.new logical options = .ok c₀) (script : List ResponseApdu)
    {c : ConversationState}
    (hc : c ∈ waiting (ConversationState.advance options) c₀ script) :
    c.current.bytes.length ≤ options.exchange.maxCommandBytes ∧
      ∃ d, decode c.current.bytes = some d ∧
        ∀ n, d.le = .exact n → 1 ≤ n ∧ n ≤ options.exchange.maxResponseBytes - 2 := by
  have hi := waiting_channel hv (new_channel hv h₀) hc
  obtain ⟨header, data, le, encoding, henc, _⟩ := hi.current.encoded
  refine ⟨hi.current.length, _, decode_of_encode henc, ?_⟩
  intro n hn
  have hle := hi.current.decoded_le (decode_of_encode henc)
  rw [hn] at hle
  exact hle

/-- A channel with room for a bare header and Le, and for two bytes of response data. -/
def tightOptions : OperationOptions :=
  { exchange := { maxCommandBytes := 5, maxResponseBytes := 4 } }

def readExample : LogicalCommand :=
  { header := ⟨0, 0xca, 0, 0x5e⟩, data := [], le := .exact 256, correctLe := true }

/-- The first command asks for two bytes, the 6C01 correction for one. -/
theorem exposed_command_respects_channel_corrected :
    ∃ c₀, ConversationState.new readExample tightOptions = .ok c₀ ∧
      (waiting (ConversationState.advance tightOptions) c₀ [⟨[], ⟨0x6c01⟩⟩]).map
        (fun c => c.current.bytes) = [[0, 0xca, 0, 0x5e, 2], [0, 0xca, 0, 0x5e, 1]] ∧
      ∀ c ∈ waiting (ConversationState.advance tightOptions) c₀ [⟨[], ⟨0x6c01⟩⟩],
        c.current.bytes.length ≤ 5 ∧ ∃ d, decode c.current.bytes = some d ∧
          ∀ n, d.le = .exact n → 1 ≤ n ∧ n ≤ 2 := by
  have hv : tightOptions.Valid := by constructor <;> decide
  refine ⟨_, rfl, rfl, fun c hc => ?_⟩
  have h₀ : ConversationState.new readExample tightOptions = .ok _ := rfl
  exact exposed_command_respects_channel hv h₀ _ hc

end ProtocolChannel
