import LibCanokey.CtapLargeBlobRoundTrip
import LibCanokey.SettlingRuns

/-! # The exchanges of an acknowledged write

The constructor counts the fragments of a write, the operation the physical frames that it
exposes. A run whose frames are all acknowledged ends by the count of the frames. -/
namespace CtapLargeBlobBudget

open BigEndian CheckedCursor ListTraversal SettlingRuns ProtocolError ProtocolApdu
open ProtocolApduDecoder ProtocolConversation ProtocolSegmentation ProtocolOperation
open ProtocolSession ProtocolDelivery ProtocolAcceptance
open CtapCborLanguage CtapCborEncoder CtapCbor CtapMessage CtapFields CtapReading CtapSubcommand
open CtapLargeBlob CtapLargeBlobFirmware CtapLargeBlobUpload CtapLargeBlobRoundTrip

/-! ## How many frames the fragments take -/

/-- The bytes of a head of an argument below 2^16. -/
def headLength (n : ℕ) : ℕ := if n < 24 then 1 else if n < 256 then 2 else 3

/-- The bytes of the authentication entries of a protocol. -/
def authLength : Option PinUvAuthProtocol → ℕ
  | none => 0
  | some .v1 => 20
  | some .v2 => 37

/-- The bytes of the message of a fragment; the first one announces the size. -/
def messageLength (protocol : Option PinUvAuthProtocol) (size offset length : ℕ) : ℕ :=
  2 + (1 + headLength length + length) + (1 + headLength offset) +
    (if offset = 0 then 1 + headLength size else 0) + authLength protocol

/-- The frames of a message: one when it fits, else a chain of short ones. -/
def framesOf (options : OperationOptions) (length : ℕ) : ℕ :=
  if (options.exchange.allowExtended = true ∧ length ≤ 65535 ∧
      7 + length ≤ options.exchange.maxCommandBytes) ∨ length ≤ maxShort options then 1
  else divCeil length (maxShort options)

/-- The frames of so many fragments from an offset on. -/
def fragmentFrames (options : OperationOptions) (protocol : Option PinUvAuthProtocol) (size : ℕ) :
    ℕ → ℕ → ℕ
  | 0, _ => 0
  | count + 1, offset =>
    let length := min (fragmentLength options) (size - offset)
    framesOf options (messageLength protocol size offset length) +
      fragmentFrames options protocol size count (offset + length)

/-- The frames of a whole write, SELECT among them. -/
def writeFrames (options : OperationOptions) (protocol : Option PinUvAuthProtocol) (size : ℕ) : ℕ :=
  1 + fragmentFrames options protocol size (divCeil size (fragmentLength options)) 0

section lengths

variable {hashes : Hashes} {options : OperationOptions} {size offset : ℕ} {fragment message : Bytes}
  {token : Option (PinToken × PinUvAuthProtocol)}

theorem length_head {major n : ℕ} (hm : major < 8) (hn : n < 2 ^ 16) :
    (head [] (UInt8.ofNat major) (UInt64.ofNat n)).length = headLength n := by
  rw [head_length [] hm (by omega), List.nil_append, shortestHead, headLength]
  split_ifs <;> simp_all

theorem length_authBytes {auth : Option (Bytes × PinUvAuthProtocol)}
    (h : fragmentAuth hashes fragment offset token = .ok auth) :
    (authBytes auth).length = authLength (token.map Prod.snd) := by
  rw [fragmentAuth_eq_ok h]
  rcases token with _ | ⟨token, protocol⟩
  · rfl
  · have htag (key message : Bytes) := (hashes.hmac key message).2
    have hbytes (raw : Bytes) (hraw : raw.length < 2 ^ 16) :
        (byteString raw).length = headLength raw.length + raw.length := by
      rw [byteString, List.length_append]
      exact congrArg (· + raw.length) (length_head (by decide : 2 < 8) hraw)
    cases protocol with
    | v1 =>
      have hlen :
          (token.authenticate hashes .v1 (macInput hashes fragment offset)).length = 16 := by
        simp [PinToken.authenticate, CtapMessage.authenticate, htag]
      have := hbytes _ (by rw [hlen]; decide)
      rw [hlen] at this
      simp only [Option.map_some, authBytes, List.cons_append, List.length_cons,
        List.length_append, List.length_nil, this]
      rfl
    | v2 =>
      have hlen :
          (token.authenticate hashes .v2 (macInput hashes fragment offset)).length = 32 := by
        simp [PinToken.authenticate, CtapMessage.authenticate, htag]
      have := hbytes _ (by rw [hlen]; decide)
      rw [hlen] at this
      simp only [Option.map_some, authBytes, List.cons_append, List.length_cons,
        List.length_append, List.length_nil, this]
      rfl

theorem length_setMessage (hfragment : fragment.length < 2 ^ 16) (hoffset : offset < 2 ^ 16)
    (hsize : size < 2 ^ 16)
    (h : setMessage hashes fragment offset (announced offset size) token = .ok message) :
    message.length = messageLength (token.map Prod.snd) size offset fragment.length := by
  obtain ⟨auth, hauth, _, rfl⟩ := setMessage_eq_ok h
  have hmap : (setFields fragment offset (announced offset size) auth).length < 2 ^ 16 ∧
      headLength (setFields fragment offset (announced offset size) auth).length = 1 := by
    cases announced offset size <;> cases auth <;> simp [setFields, headLength]
  have hfields := length_head (by decide : 5 < 8) hmap.1
  have hfrag := length_head (by decide : 2 < 8) hfragment
  have hoff := length_head (by decide : 0 < 8) hoffset
  have htotal : (keyed 4 ((announced offset size).map uintBytes)).length =
      if offset = 0 then 1 + headLength size else 0 := by
    by_cases hzero : offset = 0
    · have := length_head (by decide : 0 < 8) hsize
      rw [announced, if_pos hzero, if_pos hzero, ← this]
      exact Nat.add_comm _ 1
    · rw [announced, if_neg hzero, if_neg hzero]
      rfl
  rw [hmap.2] at hfields
  change (head [] 5 (UInt64.ofNat _)).length = 1 at hfields
  change (head [] 2 (UInt64.ofNat _)).length = _ at hfrag
  change (head [] 0 (UInt64.ofNat _)).length = _ at hoff
  have hparam := length_authBytes hauth
  simp only [setBody, byteString, uintBytes, List.cons_append, List.length_cons,
    List.length_append, hfields, hfrag, hoff, hparam, messageLength] at htotal ⊢
  omega

theorem length_shortFrames {logical : LogicalCommand} {frames : List CommandApdu}
    (h : shortFrames logical options = .ok frames) :
    frames.length = if logical.data = [] ∨ logical.data.length ≤ maxShort options then 1
      else divCeil logical.data.length (maxShort options) := by
  simp only [shortFrames] at h
  split_ifs at h with hbig hone hchain hbudget
  · obtain ⟨_, _, rfl⟩ := map_eq_ok.mp h
    rw [if_pos hone]
    rfl
  · have hmade := (mapM_eq_ok.mp h).length_eq
    rw [List.length_zipIdx, length_chunks] at hmade
    rw [if_neg hone, hmade]

/-- The frames that an accepted message has. -/
theorem length_frames {k : ConversationState} (hne : message ≠ [])
    (h : ConversationState.new (msg message) options = .ok k) :
    k.frames.length = framesOf options message.length := by
  have hlen := List.length_pos_iff.mpr hne
  have hrange : ExpectedLength.absent.InRange 65536 := trivial
  have hcount : ∃ frames, physicalFrames (msg message) options = .ok frames ∧
      k.frames.length = frames.length := by
    simp only [ConversationState.new] at h
    split_ifs at h
    obtain ⟨le, hclamp, h⟩ := bind_eq_ok.mp h
    obtain ⟨frames, hframes, h⟩ := bind_eq_ok.mp h
    cases hclamp
    refine ⟨frames, hframes, ?_⟩
    cases frames with
    | nil => cases h
    | cons current pending =>
      dsimp only at h
      split_ifs at h
      cases h
      rfl
  obtain ⟨frames, hframes, hcount⟩ := hcount
  have hext : FitsExtended (msg message) options ↔ options.exchange.allowExtended = true ∧
      message.length ≤ 65535 ∧ 7 + message.length ≤ options.exchange.maxCommandBytes := by
    have hlength := length_extended (msg message).header message
    rw [if_neg hne] at hlength
    simp only [FitsExtended, msg, true_and] at hlength ⊢
    rw [hlength, ← Nat.add_assoc]
  rw [hcount, framesOf]
  by_cases hx : FitsExtended (msg message) options
  · rw [if_pos (Or.inl (hext.mp hx))]
    obtain ⟨extended, hextended, hframes⟩ := bind_eq_ok.mp hframes
    cases (extendedFrames_of_fits hrange hx).symm.trans hextended
    cases hframes
    rfl
  · obtain ⟨extended, hextended, hframes⟩ := bind_eq_ok.mp hframes
    cases (extendedFrames_of_not hrange hx).symm.trans hextended
    change shortFrames (msg message) options = .ok frames at hframes
    have hshort := length_shortFrames hframes
    change frames.length = if message = [] ∨ message.length ≤ maxShort options then 1
      else divCeil message.length (maxShort options) at hshort
    simp only [hne, false_or] at hshort
    have hlong := mt hext.mpr hx
    rw [hshort]
    simp only [hlong, false_or]

end lengths

/-! ## The acknowledged run -/

/-- What every physical frame is acknowledged with; SELECT is greeted. -/
def acknowledgement (greeting frame : Bytes) : Bytes :=
  match decode frame with
  | none => responseFrame [] 0x6700
  | some d =>
    if d.header.cla &&& 0x10 ≠ 0 then responseFrame [] 0x9000
    else if d.header.ins = 0xa4 then responseFrame greeting 0x9000
    else responseFrame [0x00] 0x9000

/-- The exposed frame is acknowledged; an operation without one stays as it is. -/
def acknowledgeNext (greeting : Bytes) (op : Operation WriteArray Unit) :
    Operation WriteArray Unit :=
  match op.command with
  | .error _ => op
  | .ok frame => (op.advance writing (acknowledgement greeting frame.bytes)).2

/-- The operation after so many acknowledgements. -/
def acknowledging (greeting : Bytes) (op : Operation WriteArray Unit) (n : ℕ) :
    Operation WriteArray Unit :=
  (acknowledgeNext greeting)^[n] (op.start writing).2

/-- The operation has failed by its own limits after it exposed a frame of a fragment. SELECT is
the first frame. -/
structure Broken (op : Operation WriteArray Unit) : Prop where
  state : op.state = .failed
  limit : ∃ e, op.error = some e ∧ e.kind = .limitExceeded
  fragment : 1 < op.exchanges

/-- No acknowledged run ends with the operation's own limit part-way through the fragments. -/
def FitsBudgets (greeting : Bytes) (op : Operation WriteArray Unit) : Prop :=
  ∀ n, ¬ Broken (acknowledging greeting op n)

/-- The response bytes that an operation takes. -/
def byteLimit (options : OperationOptions) : ℕ :=
  min usizeMax options.limits.maxTotalResponseBytes

/-- The acknowledged run comes to an end, broken unless the condition holds. -/
def Decided (greeting : Bytes) (fits : Prop) (op : Operation WriteArray Unit) : Prop :=
  Settles (acknowledgeNext greeting) (fun op => Broken op ↔ ¬ fits) op

section steps

variable {greeting data : Bytes} {op : Operation WriteArray Unit} {k : ConversationState}
  {e b : ℕ} {fits : Prop}

theorem acknowledgeNext_fixed (h : op.state ≠ .awaitingResponse) :
    acknowledgeNext greeting op = op := by
  have hcommand : op.command = .error stateError := if_pos h
  rw [acknowledgeNext, hcommand]

theorem acknowledgeNext_waiting :
    acknowledgeNext greeting (waitingOp op k e b) =
      (Operation.record writing
        ((waitingOp op k e b).advanceInner writing
          (acknowledgement greeting k.current.bytes))).2 := by
  have hcommand : (waitingOp op k e b).command = .ok k.current := rfl
  rw [acknowledgeNext, hcommand]
  dsimp only
  rw [Operation.advance, if_neg (by simp [waitingOp])]

/-- An operation that records its limit is broken, once a fragment went out. -/
theorem record_broken {op' : Operation WriteArray Unit} {err : Error}
    (hkind : err.kind = .limitExceeded) (he : 1 < op'.exchanges) :
    Broken (Operation.record writing ((.error err : Except Error Step), op')).2 :=
  ⟨rfl, ⟨err, rfl, hkind⟩, he⟩

theorem Broken.decided (h : Broken op) (hnot : ¬ fits) : Decided greeting fits op := by
  apply Settles.fixed
  · exact acknowledgeNext_fixed (by rw [h.state]; simp)
  · exact iff_of_true h hnot

theorem completed_decided (h : op.state = .completed) (hfits : fits) :
    Decided greeting fits op := by
  apply Settles.fixed
  · exact acknowledgeNext_fixed (by rw [h]; simp)
  · refine iff_of_false ?_ (not_not.mpr hfits)
    intro hbroken
    cases h.symm.trans hbroken.state

/-- A fragment frame is exposed, or the operation breaks at the end of its exchanges. -/
theorem exchange_decided {k' : ConversationState} (he : 1 < e)
    (hroom : fits → e < op.options.limits.maxExchanges)
    (hgoes : e < op.options.limits.maxExchanges →
      Decided greeting fits (waitingOp op k' (e + 1) b)) :
    Decided greeting fits (Operation.record writing (waitingOp op k' e b).exchange).2 := by
  by_cases hlt : e < op.options.limits.maxExchanges
  · have hbudget : ¬ e ≥ op.options.limits.maxExchanges := Nat.not_le_of_lt hlt
    simp only [Operation.exchange, waitingOp, hbudget, if_false]
    exact hgoes hlt
  · have hbudget : e ≥ op.options.limits.maxExchanges := Nat.le_of_not_lt hlt
    simp only [Operation.exchange, waitingOp, hbudget, if_true]
    exact Broken.decided (record_broken rfl he) fun hfits => hlt (hroom hfits)

/-- A frame before the last of a message. -/
theorem acknowledge_chained {d : DecodedCommand} (hcurrent : decode k.current.bytes = some d)
    (hchain : d.header.cla &&& 0x10 ≠ 0) {next : CommandApdu} {pending : List CommandApdu}
    (hpending : k.pending = next :: pending) (hvalid : op.options.Valid)
    (hb : b ≤ byteLimit op.options) :
    acknowledgeNext greeting (waitingOp op k e b) =
      (Operation.record writing
        (waitingOp op { k with current := next, pending := pending, corrected := false } e
          b).exchange).2 := by
  have hresponse := hvalid.response
  have hanswer : acknowledgement greeting k.current.bytes = responseFrame [] 0x9000 := by
    rw [acknowledgement, hcurrent]
    exact if_pos hchain
  have hfit : Fits op.options b [] := ⟨by simp; omega, by simpa [byteLimit] using hb⟩
  have hgo : k.advance op.options ⟨[], ⟨0x9000⟩⟩ =
      .ok (none, { k with current := next, pending := pending, corrected := false }) :=
    advance_goes.mpr (.acknowledged next pending hpending rfl)
  rw [acknowledgeNext_waiting, hanswer, waitingOp_inner hfit, hgo]
  rfl

/-- The last frame of a message returns the acknowledgement to the machine. -/
theorem acknowledge_last
    (hanswer : acknowledgement greeting k.current.bytes = responseFrame data 0x9000)
    (hpending : k.pending = []) (hdata : k.data = []) (hcont : ∃ cla, k.continuation = .iso7816 cla)
    (hfit : Fits op.options b data) :
    acknowledgeNext greeting (waitingOp op k e b) =
      handOver writing op e (b + data.length) ⟨data, ⟨0x9000⟩⟩ := by
  obtain ⟨cla, hcont⟩ := hcont
  have hsuccess : is61 0x9000 = false ∧ is6c 0x9000 = false := by decide
  have hfinal : k.advance op.options ⟨data, ⟨0x9000⟩⟩ =
      .ok (some ⟨k.data ++ data, ⟨0x9000⟩⟩, { k with data := [] }) :=
    advance_final hpending hcont hsuccess.1 hsuccess.2
  rw [hdata, List.nil_append] at hfinal
  rw [acknowledgeNext_waiting, hanswer, waitingOp_inner hfit, hfinal]
  rfl

/-- A response beyond the response limits is refused. -/
theorem advanceInner_unfit (hunfit : ¬ Fits op.options op.responseBytes data) {sw : UInt16} :
    ∃ total, op.advanceInner writing (responseFrame data sw) =
      (.error (conversationError .limitExceeded), { op with responseBytes := total }) := by
  have hlen : (responseFrame data sw).length = data.length + 2 := by simp [responseFrame]
  simp only [Operation.advanceInner, hlen, parse_responseFrame]
  by_cases hframe : data.length + 2 > op.options.exchange.maxResponseBytes
  · exact ⟨_, if_pos hframe⟩
  rw [if_neg hframe]
  by_cases hcount : op.responseBytes + data.length ≤ usizeMax
  · have htotal : op.responseBytes + data.length > op.options.limits.maxTotalResponseBytes := by
      by_contra htotal
      exact hunfit ⟨by omega, by omega⟩
    rw [checkedAdd, if_pos hcount]
    exact ⟨_, if_pos htotal⟩
  · rw [checkedAdd, if_neg hcount]
    exact ⟨_, rfl⟩

/-- An acknowledgement beyond the response limits ends the operation. -/
theorem acknowledge_unfit
    (hanswer : acknowledgement greeting k.current.bytes = responseFrame data 0x9000)
    (hunfit : ¬ Fits op.options b data) :
    ∃ total, acknowledgeNext greeting (waitingOp op k e b) =
      (Operation.record writing ((.error (conversationError .limitExceeded) : Except Error Step),
        { waitingOp op k e b with responseBytes := total })).2 := by
  obtain ⟨total, hinner⟩ := @advanceInner_unfit data (waitingOp op k e b) hunfit 0x9000
  refine ⟨total, ?_⟩
  rw [acknowledgeNext_waiting, hanswer, hinner]

/-- A machine that goes on with a command has the operation expose its first frame. -/
theorem handOver_exchange {m m' : WriteArray} {c : LogicalCommand} {r : ResponseData}
    {k' : ConversationState} (hm : op.machine = some m)
    (hn : writing.next m (some r) = (.ok (.command c), m'))
    (hk : ConversationState.new c op.options = .ok k') :
    handOver writing op e b r =
      (Operation.record writing (waitingOp { op with machine := some m' } k' e b).exchange).2 := by
  simp only [handOver, Operation.drive, hm, hn, hk]
  rfl

end steps

section runs

variable {greeting : Bytes} {op : Operation WriteArray Unit} {k : ConversationState} {e b : ℕ}
  {fits : Prop} {init : List DecodedCommand} {last : DecodedCommand}

/-- A conversation whose frames are chained ones and a last one. -/
structure Chain (k : ConversationState) (init : List DecodedCommand) (last : DecodedCommand) :
    Prop where
  frames : k.frames.map (fun f => decode f.bytes) = (init ++ [last]).map some
  chained : ∀ d ∈ init, d.header.cla &&& 0x10 ≠ 0
  empty : k.data = []
  continuation : ∃ cla, k.continuation = .iso7816 cla

/-- An accepted command is such a conversation. -/
theorem accepted_chain {c : LogicalCommand} {options : OperationOptions}
    (h : ConversationState.new c options = .ok k)
    (hcont : ∃ cla, c.continuation = .iso7816 cla) :
    ∃ init last, Chain k init last ∧ last.header = c.header ∧
      init.length + 1 = k.frames.length := by
  obtain ⟨le, cmds, hrange, hclamp, hmap, hdec⟩ := new_decoded h
  obtain ⟨init, last, rfl, hinit, hheader, _⟩ := hdec.split
  have hk := new_initial h
  refine ⟨init, last, ⟨hmap, hinit, ?_, ?_⟩, hheader, ?_⟩
  · rw [hk]
    rfl
  · rw [hk]
    exact hcont
  · have hlen := congrArg List.length hmap
    rw [List.length_map, List.length_map, List.length_append] at hlen
    exact hlen.symm

/-- The induction is on the frames before the last one. -/
theorem chained_decided (hvalid : op.options.Valid) (hb : b ≤ byteLimit op.options) (he : 1 < e)
    (hmost : e ≤ op.options.limits.maxExchanges) (h : Chain k init last)
    (hroom : fits → e + init.length ≤ op.options.limits.maxExchanges)
    (hlast : ∀ k', Chain k' [] last → e + init.length ≤ op.options.limits.maxExchanges →
      Decided greeting fits (waitingOp op k' (e + init.length) b)) :
    Decided greeting fits (waitingOp op k e b) := by
  induction init generalizing k e with
  | nil => exact hlast k h hmost
  | cons d init ih =>
    have hframes := h.frames
    simp only [ConversationState.frames, List.map_cons, List.cons_append, List.cons.injEq]
      at hframes
    obtain ⟨hd, htail⟩ := hframes
    rw [List.length_cons] at hroom hlast
    cases hp : k.pending with
    | nil =>
      rw [hp] at htail
      simp at htail
    | cons next pending =>
      have hchain := h.chained d List.mem_cons_self
      apply Settles.of_step
      rw [acknowledge_chained hd hchain hp hvalid hb]
      apply exchange_decided he
      · intro hfits
        have := hroom hfits
        omega
      · intro hlt
        apply ih (Nat.lt_succ_of_lt he) hlt
        · refine ⟨?_, fun d' hd' => h.chained d' (List.mem_cons_of_mem _ hd'), h.empty,
            h.continuation⟩
          rw [← htail, hp]
          rfl
        · intro hfits
          have := hroom hfits
          omega
        · intro k' hk' hle
          have := hlast k' hk' (by omega)
          rwa [show e + 1 + init.length = e + (init.length + 1) by omega]

/-- The last frame of a message has been acknowledged by the status byte, if it fits. -/
theorem message_decided (h : Chain k [] last) (hheader : last.header = ⟨0x80, 0x10, 0, 0⟩)
    (hvalid : op.options.Valid) (he : 1 < e) (hroom : fits → b + 1 ≤ byteLimit op.options)
    (hgoes : b + 1 ≤ byteLimit op.options →
      Decided greeting fits (handOver writing op e (b + 1) ⟨[0x00], ⟨0x9000⟩⟩)) :
    Decided greeting fits (waitingOp op k e b) := by
  have hframes := h.frames
  simp only [ConversationState.frames, List.map_cons, List.nil_append, List.map_nil,
    List.cons.injEq, List.map_eq_nil_iff] at hframes
  have hanswer : acknowledgement greeting k.current.bytes = responseFrame [0x00] 0x9000 := by
    rw [acknowledgement, hframes.1]
    dsimp only
    rw [hheader]
    rfl
  apply Settles.of_step
  by_cases hfit : b + 1 ≤ byteLimit op.options
  · rw [acknowledge_last hanswer hframes.2 h.empty h.continuation ⟨hvalid.response, hfit⟩]
    exact hgoes hfit
  · obtain ⟨total, hstep⟩ := @acknowledge_unfit greeting [0x00] op k e b hanswer
      fun hfits => hfit hfits.total
    rw [hstep]
    exact Broken.decided (record_broken rfl he) fun hfits => hfit (hroom hfits)

/-- What the messages still to be acknowledged take of the two budgets. -/
def Affordable (options : OperationOptions) (e b : ℕ) (message : Bytes) (rest : List Bytes) :
    Prop :=
  e + framesOf options message.length + (rest.map fun m => framesOf options m.length).sum ≤
      options.limits.maxExchanges + 1 ∧
    b + 1 + rest.length ≤ byteLimit options

theorem framesOf_pos {options : OperationOptions} {message : Bytes} (hne : message ≠ [])
    (h : ConversationState.new (msg message) options = .ok k) :
    0 < framesOf options message.length := by
  rw [← length_frames hne h]
  exact Nat.succ_pos _

/-- The induction is on the messages after the open one. -/
theorem writing_decided {message : Bytes} {rest : List Bytes} (hvalid : op.options.Valid)
    (hmessages : ∀ m ∈ message :: rest, m ≠ [] ∧
      ∃ k, ConversationState.new (msg m) op.options = .ok k)
    (hm : op.machine = some ⟨.exchange, rest⟩)
    (hk : ConversationState.new (msg message) op.options = .ok k) (he : 1 < e)
    (hmost : e ≤ op.options.limits.maxExchanges) (hb : b ≤ byteLimit op.options) :
    Decided greeting (Affordable op.options e b message rest) (waitingOp op k e b) := by
  induction rest generalizing op k e b message with
  | nil =>
    obtain ⟨hne, _⟩ := hmessages message List.mem_cons_self
    have hlen := length_frames hne hk
    obtain ⟨init, last, hchain, hheader, hcount⟩ := accepted_chain hk ⟨_, rfl⟩
    apply chained_decided hvalid hb he hmost hchain
    · intro hfits
      have := hfits.1
      simp only [List.map_nil, List.sum_nil] at this
      omega
    · intro k' hk' hroom
      apply message_decided hk' hheader hvalid (by omega)
      · exact fun hfits => hfits.2
      · intro hbytes
        refine completed_decided (handOver_done hm rfl _ _).1 ⟨?_, hbytes⟩
        simp only [List.map_nil, List.sum_nil]
        omega
  | cons next rest ih =>
    obtain ⟨⟨hne, _⟩, hrest⟩ := List.forall_mem_cons.mp hmessages
    obtain ⟨hnext, knext, hknext⟩ := hrest next List.mem_cons_self
    have hlen := length_frames hne hk
    have hpos := framesOf_pos hnext hknext
    obtain ⟨init, last, hchain, hheader, hcount⟩ := accepted_chain hk ⟨_, rfl⟩
    apply chained_decided hvalid hb he hmost hchain
    · intro hfits
      have := hfits.1
      simp only [List.map_cons, List.sum_cons] at this
      omega
    · intro k' hk' hroom
      apply message_decided hk' hheader hvalid (by omega)
      · intro hfits
        have := hfits.2
        rw [List.length_cons] at this
        omega
      · intro hbytes
        have hn : writing.next ⟨.exchange, next :: rest⟩ (some ⟨[0x00], ⟨0x9000⟩⟩) =
            (.ok (.command (msg next)), ⟨.exchange, rest⟩) := rfl
        rw [handOver_exchange hm hn hknext]
        have hfits : Affordable op.options e b message (next :: rest) ↔
            Affordable op.options (e + init.length + 1) (b + 1) next rest := by
          simp only [Affordable, List.map_cons, List.sum_cons, List.length_cons]
          omega
        rw [hfits]
        apply exchange_decided (by omega)
        · intro hafford
          have := hafford.1
          change e + init.length < op.options.limits.maxExchanges
          omega
        · intro hlt
          exact ih hvalid hrest rfl hknext (by omega) hlt hbytes

end runs

/-! ## When a write fits its budgets -/

/-- The greeting alone exceeds the response limits, so that no fragment goes out, or every frame
is within the exchange budget and every response within the byte budget. -/
def WithinBudgets (options : OperationOptions) (protocol : Option PinUvAuthProtocol)
    (size greeting : ℕ) : Prop :=
  greeting + 2 ≤ options.exchange.maxResponseBytes ∧ greeting ≤ byteLimit options →
    writeFrames options protocol size ≤ options.limits.maxExchanges ∧
      greeting + divCeil size (fragmentLength options) ≤ byteLimit options

instance (options : OperationOptions) (protocol : Option PinUvAuthProtocol) (size greeting : ℕ) :
    Decidable (WithinBudgets options protocol size greeting) :=
  inferInstanceAs (Decidable (_ → _))

section write

variable {hashes : Hashes} {options : OperationOptions} {size offset : ℕ} {data greeting : Bytes}
  {token : Option (PinToken × PinUvAuthProtocol)} {op : Operation WriteArray Unit}

/-- The frames of the messages that are built of the pieces. The induction is on their number. -/
theorem built_frames {count : ℕ} {messages : List Bytes} (hsize : size < 2 ^ 16)
    (hdata : offset + data.length = size)
    (h : Built hashes options size token offset (chunks (fragmentLength options) count data)
      messages) :
    (messages.map fun m => framesOf options m.length).sum =
      fragmentFrames options (token.map Prod.snd) size count offset := by
  induction count generalizing offset data messages with
  | zero =>
    cases h
    rfl
  | succ count ih =>
    rw [chunks] at h
    cases h with
    | cons hset hfit hvalid hrest =>
      have hpiece : (data.take (fragmentLength options)).length =
          min (fragmentLength options) (size - offset) := by
        rw [List.length_take]
        omega
      have hmessage := length_setMessage (by omega) (by omega) hsize hset
      have hnext := ih (by rw [List.length_drop]; omega) hrest
      rw [hpiece] at hmessage hnext
      rw [List.map_cons, List.sum_cons, hmessage, hnext]
      rfl

theorem setMessage_ne_nil {fragment message : Bytes} {total : Option ℕ}
    (h : setMessage hashes fragment offset total token = .ok message) : message ≠ [] := by
  obtain ⟨_, _, _, rfl⟩ := setMessage_eq_ok h
  exact List.cons_ne_nil _ _

theorem built_ne_nil {pieces messages : List Bytes}
    (h : Built hashes options size token offset pieces messages) : ∀ m ∈ messages, m ≠ [] := by
  induction h with
  | nil => simp
  | cons hset _ _ _ ih => exact List.forall_mem_cons.mpr ⟨setMessage_ne_nil hset, ih⟩

theorem select_greeted {k : ConversationState} (hk : ConversationState.new select options = .ok k) :
    acknowledgement greeting k.current.bytes = responseFrame greeting 0x9000 ∧ k.pending = [] ∧
      k.data = [] ∧ ∃ cla, k.continuation = .iso7816 cla := by
  obtain ⟨le, encoding, cmd, _, hcmd, rfl⟩ := new_single rfl hk
  refine ⟨?_, rfl, rfl, ⟨_, rfl⟩⟩
  have hcla : ¬ select.header.cla &&& 0x10 ≠ 0 := by decide
  change acknowledgement greeting cmd.bytes = _
  rw [acknowledgement, decode_of_encode hcmd]
  dsimp only
  rw [if_neg hcla]
  exact if_pos rfl

/-- The run of a write comes to an end, broken unless the write is within its budgets. -/
theorem write_decided (h : writeArray hashes data token options = .ok op) (greeting : Bytes) :
    Decided greeting
      (WithinBudgets options (token.map Prod.snd) data.length greeting.length)
      (op.start writing).2 := by
  obtain ⟨hlen, hvalid, hpos, messages, hbuilt, hcount, ⟨k, hk⟩, hop⟩ := writeArray_eq_ok h
  have hbound : maxLargeBlobArrayBytes < 2 ^ 16 := by decide
  have hdata : data.length < 2 ^ 16 := Nat.lt_of_le_of_lt hlen.2 hbound
  have hframes := built_frames hdata (Nat.zero_add _) hbuilt
  have hpieces := hbuilt.length
  rw [fragments, length_chunks] at hpieces
  obtain ⟨_, _, op', rfl, hm, hstart⟩ := @start_command _ _ writing _ _ _ _ _ _ hop rfl hk
  obtain ⟨hanswer, hpending, hempty, hcont⟩ := @select_greeted op'.options greeting k hk
  rw [hstart]
  apply Settles.of_step
  by_cases hfit : Fits op'.options 0 greeting
  · rw [acknowledge_last hanswer hpending hempty hcont hfit, Nat.zero_add]
    have hgreeting : greeting.length + 2 ≤ op'.options.exchange.maxResponseBytes ∧
        greeting.length ≤ byteLimit op'.options := by
      refine ⟨hfit.frame, ?_⟩
      have := hfit.total
      rwa [Nat.zero_add] at this
    obtain ⟨message, rest, rfl⟩ : ∃ message rest, messages = message :: rest := by
      have hmin : minLargeBlobArrayBytes ≤ data.length := hlen.1
      apply List.exists_cons_of_ne_nil
      rintro rfl
      have hcover := le_mul_divCeil hpos data.length
      rw [hpieces, List.length_nil, Nat.mul_zero] at hcover
      simp only [minLargeBlobArrayBytes] at hmin
      omega
    have hmessages : ∀ m ∈ message :: rest, m ≠ [] ∧
        ∃ k, ConversationState.new (msg m) op'.options = .ok k := fun m hmem =>
      ⟨built_ne_nil hbuilt m hmem, accepted_of_validate (hbuilt.valid m hmem).2⟩
    obtain ⟨_, k', hk'⟩ := hmessages message List.mem_cons_self
    have hn : writing.next ⟨.select, message :: rest⟩ (some ⟨greeting, ⟨0x9000⟩⟩) =
        (.ok (.command (msg message)), ⟨.exchange, rest⟩) := rfl
    have hfits : WithinBudgets op'.options (token.map Prod.snd) data.length greeting.length ↔
        Affordable op'.options 2 greeting.length message rest := by
      rw [List.map_cons, List.sum_cons] at hframes
      rw [WithinBudgets, writeFrames, ← hframes, hpieces, Affordable, List.length_cons]
      constructor
      · intro hwithin
        obtain ⟨hexchanges, hbytes⟩ := hwithin hgreeting
        constructor <;> omega
      · rintro ⟨hexchanges, hbytes⟩ _
        constructor <;> omega
    rw [List.length_cons] at hcount
    have hroom : 1 < op'.options.limits.maxExchanges := by omega
    rw [handOver_command hm hn hk' hroom, hfits]
    exact writing_decided hvalid hmessages rfl hk' (by decide) hroom hgreeting.2
  · obtain ⟨total, hstep⟩ := @acknowledge_unfit greeting greeting op' k 1 0 hanswer hfit
    rw [hstep]
    apply Settles.fixed
    · exact acknowledgeNext_fixed (by simp [Operation.record])
    · refine iff_of_false (fun hbroken => absurd hbroken.fragment (Nat.lt_irrefl 1)) ?_
      refine not_not.mpr fun hgreeting => absurd ?_ hfit
      exact ⟨hgreeting.1, by rw [Nat.zero_add]; exact hgreeting.2⟩

/-- A write fits its budgets exactly when the limits cover its physical frames and its responses,
or when the greeting is refused before a fragment goes out. -/
theorem write_fits_budgets_iff (h : writeArray hashes data token options = .ok op)
    (greeting : Bytes) :
    FitsBudgets greeting op ↔
      WithinBudgets options (token.map Prod.snd) data.length greeting.length := by
  have hdecided := write_decided h greeting
  constructor
  · intro hfits
    obtain ⟨n, _, hbroken⟩ := hdecided
    by_contra hnot
    exact hfits n (hbroken.mpr hnot)
  · intro hwithin n hbroken
    have hfixed := @acknowledgeNext_fixed greeting _ (by rw [hbroken.state]; simp)
    exact (hdecided.at_fixed hfixed).mp hbroken hwithin

/-- Fragments of ten bytes and frames of forty, which no message of a fragment fits, with a budget
of exchanges. -/
def chainedInput (n : ℕ) : OperationOptions :=
  { exchange := { maxCommandBytes := 40 }, limits := { maxInputBytes := 74, maxExchanges := n } }

/-- Two fragments under a PIN take SELECT and two frames each, which four exchanges do not cover. -/
theorem write_fits_budgets_iff_seven :
    (∃ op, writeArray blobHashes sevenArray (some (blobToken, .v2)) (chainedInput 5) = .ok op ∧
      FitsBudgets [1, 2, 3] op) ∧
    ∃ op, writeArray blobHashes sevenArray (some (blobToken, .v2)) (chainedInput 4) = .ok op ∧
      ¬ FitsBudgets [1, 2, 3] op := by
  have hwide : writeArray blobHashes sevenArray (some (blobToken, .v2)) (chainedInput 5) =
      .ok _ := rfl
  have hnarrow : writeArray blobHashes sevenArray (some (blobToken, .v2)) (chainedInput 4) =
      .ok _ := rfl
  refine ⟨⟨_, hwide, (write_fits_budgets_iff hwide _).mpr ?_⟩, _, hnarrow, fun hfits => ?_⟩
  · decide +kernel
  · exact absurd ((write_fits_budgets_iff hnarrow _).mp hfits) (by decide +kernel)

/-- The default channel, with as many exchanges as a write of one message has commands. -/
def twoExchanges : OperationOptions := { limits := { maxExchanges := 2 } }

set_option maxRecDepth 8000 in
/-- The message of 256 bytes takes two frames, so that the write breaks after the first one. -/
theorem write_breaks_chained : ∃ op,
    writeArray blobHashes (List.replicate 256 7) none twoExchanges = .ok op ∧
      Broken (acknowledging [] op 2) ∧ ¬ FitsBudgets [] op := by
  refine ⟨_, rfl, ?_, fun hfits => hfits 2 ?_⟩
  · exact ⟨rfl, ⟨_, rfl, rfl⟩, by decide⟩
  · exact ⟨rfl, ⟨_, rfl, rfl⟩, by decide⟩

end write

end CtapLargeBlobBudget
