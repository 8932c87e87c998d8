import LibCanokey.ProtocolTranscript

/-! # Operations against a card

A card collects the fragments of a chained command, hands the complete command to its
applet and returns the answer in pages. One logical command of an operation then is one
call of the applet, whatever the channel does to it. -/
namespace ProtocolSession

open BigEndian CheckedCursor ListTraversal ProtocolError ProtocolApdu ProtocolApduDecoder
open ProtocolConversation ProtocolSegmentation ProtocolOperation ProtocolTranscript

variable {σ T κ : Type*}

/-- What a card does with a complete command. -/
abbrev Applet (κ : Type*) := κ → DecodedCommand → ResponseData × κ

structure Card (κ : Type*) where
  applet : κ
  pending : Bytes := []
  rest : Bytes := []
  status : StatusWord := ⟨0x9000⟩

def responseFrame (data : Bytes) (sw : UInt16) : Bytes :=
  data ++ toBeBytes 2 sw.toNat

/-- 61xx for a number of bytes still to be fetched. -/
def moreBytes (n : ℕ) : UInt16 := if 256 ≤ n then 0x6100 else 0x6100 + UInt16.ofNat n

/-- Return at most `le` bytes of the answer, announcing what is left. -/
def Card.page (card : Card κ) (le : ℕ) : Bytes × Card κ :=
  if card.rest.length ≤ le then
    (responseFrame card.rest card.status.raw, { card with rest := [] })
  else
    (responseFrame (card.rest.take le) (moreBytes (card.rest.length - le)),
      { card with rest := card.rest.drop le })

def pageLimit : ExpectedLength → ℕ
  | .absent => 256
  | .exact n => n

def Card.exchange (A : Applet κ) (card : Card κ) (frame : Bytes) : Bytes × Card κ :=
  match decode frame with
  | none => (responseFrame [] 0x6700, card)
  | some d =>
    if d.header.cla &&& 0x10 ≠ 0 then
      (responseFrame [] 0x9000, { card with pending := card.pending ++ d.data, rest := [] })
    else if d.header.ins = 0xc0 then card.page (pageLimit d.le)
    else
      Card.page
        { applet := (A card.applet ⟨d.header, card.pending ++ d.data, d.le⟩).2
          pending := []
          rest := (A card.applet ⟨d.header, card.pending ++ d.data, d.le⟩).1.data
          status := (A card.applet ⟨d.header, card.pending ++ d.data, d.le⟩).1.status }
        (pageLimit d.le)

/-- Exchange commands with the card until the operation has none to exchange. -/
def session (M : Machine σ T) (A : Applet κ) :
    ℕ → Operation σ T → Card κ → Operation σ T × Card κ
  | 0, op, card => (op, card)
  | n + 1, op, card =>
    match op.command with
    | .error _ => (op, card)
    | .ok c =>
      session M A n (op.advance M (card.exchange A c.bytes).1).2 (card.exchange A c.bytes).2

/-- Start an operation and drive it against a card holding `a` to its end. -/
def execute (M : Machine σ T) (A : Applet κ) (op : Operation σ T) (a : κ) :
    Operation σ T × κ :=
  let result := session M A op.options.limits.maxExchanges (op.start M).2 { applet := a }
  (result.1, result.2.applet)

theorem parse_responseFrame (data : Bytes) (sw : UInt16) :
    ResponseApdu.parse (responseFrame data sw) = .ok ⟨data, ⟨sw⟩⟩ := by
  have hlen : (responseFrame data sw).length = data.length + 2 := by simp [responseFrame]
  simp only [ResponseApdu.parse]
  rw [if_neg (by omega), hlen, Nat.add_sub_cancel]
  have hsw : UInt16.ofNat (ofBeBytes (toBeBytes 2 sw.toNat)) = sw := by
    rw [ofBeBytes_toBeBytes (by have := sw.toNat_lt; omega), UInt16.ofNat_toNat]
  simp [responseFrame, hsw]

theorem moreBytes_spec {n : ℕ} (h : 0 < n) :
    is61 (moreBytes n) = true ∧ requestedLe (moreBytes n) = min n 256 := by
  by_cases hbig : 256 ≤ n
  · rw [moreBytes, if_pos hbig, Nat.min_eq_right hbig]
    decide
  · have hsmall : ∀ n < 256, 0 < n → is61 (0x6100 + UInt16.ofNat n) = true ∧
        requestedLe (0x6100 + UInt16.ofNat n) = n := by decide +kernel
    rw [moreBytes, if_neg hbig, Nat.min_eq_left (by omega)]
    exact hsmall n (by omega) h

/-- The operation while it exchanges the frames of one conversation. -/
def waitingOp (op : Operation σ T) (k : ConversationState) (exchanges bytes : ℕ) :
    Operation σ T :=
  { op with conversation := some k, exchanges := exchanges, responseBytes := bytes,
            state := .awaitingResponse }

/-- The operation after its conversation has returned `r` to the machine. -/
def handOver (M : Machine σ T) (op : Operation σ T) (exchanges bytes : ℕ) (r : ResponseData) :
    Operation σ T :=
  (Operation.record M (Operation.drive M { op with
    conversation := none, exchanges := exchanges, responseBytes := bytes,
    state := .awaitingResponse } (some r))).2

/-- Room for one more response in the frame and byte budgets. -/
structure Fits (options : OperationOptions) (bytes : ℕ) (data : Bytes) : Prop where
  frame : data.length + 2 ≤ options.exchange.maxResponseBytes
  total : bytes + data.length ≤ min usizeMax options.limits.maxTotalResponseBytes

section exchange

variable {M : Machine σ T} {A : Applet κ} {op : Operation σ T} {k k' : ConversationState}
  {card card' : Card κ} {e b n : ℕ} {data : Bytes} {sw : UInt16}

theorem waitingOp_inner (hfit : Fits op.options b data) :
    (waitingOp op k e b).advanceInner M (responseFrame data sw) =
      match k.advance op.options ⟨data, ⟨sw⟩⟩ with
      | .error err => (.error err, { waitingOp op k e b with responseBytes := b + data.length })
      | .ok (none, c) =>
        { waitingOp op k e b with
          responseBytes := b + data.length, conversation := some c }.exchange
      | .ok (some response, _) =>
        { waitingOp op k e b with
          responseBytes := b + data.length, conversation := none }.drive M (some response) := by
  have hframe := hfit.frame
  have htotal := hfit.total
  have hlen : (responseFrame data sw).length = data.length + 2 := by simp [responseFrame]
  simp only [Operation.advanceInner, waitingOp, hlen, parse_responseFrame]
  rw [if_neg (by omega), checkedAdd, if_pos (by omega)]
  have hfits : ¬ b + data.length > op.options.limits.maxTotalResponseBytes := by omega
  exact if_neg hfits

theorem waiting_goes (hfit : Fits op.options b data) (he : e < op.options.limits.maxExchanges)
    (hgo : k.advance op.options ⟨data, ⟨sw⟩⟩ = .ok (none, k')) :
    (waitingOp op k e b).advance M (responseFrame data sw) =
      (.ok .exchange, waitingOp op k' (e + 1) (b + data.length)) := by
  have hbudget : ¬ e ≥ op.options.limits.maxExchanges := by omega
  rw [Operation.advance, if_neg (by simp [waitingOp]), waitingOp_inner hfit, hgo]
  simp only [Operation.exchange, waitingOp, hbudget, if_false]
  rfl

theorem waiting_returns {r : ResponseData} (hfit : Fits op.options b data)
    (hret : k.advance op.options ⟨data, ⟨sw⟩⟩ = .ok (some r, k')) :
    ((waitingOp op k e b).advance M (responseFrame data sw)).2 =
      handOver M op e (b + data.length) r := by
  rw [Operation.advance, if_neg (by simp [waitingOp]), waitingOp_inner hfit, hret]
  rfl

theorem session_goes (hx : card.exchange A k.current.bytes = (responseFrame data sw, card'))
    (hfit : Fits op.options b data)
    (hgo : k.advance op.options ⟨data, ⟨sw⟩⟩ = .ok (none, k'))
    (he : e < op.options.limits.maxExchanges) :
    session M A (n + 1) (waitingOp op k e b) card =
      session M A n (waitingOp op k' (e + 1) (b + data.length)) card' := by
  have hcommand : (waitingOp op k e b).command = .ok k.current := rfl
  rw [session, hcommand]
  simp only [hx, waiting_goes hfit he hgo]

theorem session_returns {r : ResponseData}
    (hx : card.exchange A k.current.bytes = (responseFrame data sw, card'))
    (hfit : Fits op.options b data)
    (hret : k.advance op.options ⟨data, ⟨sw⟩⟩ = .ok (some r, k')) :
    session M A (n + 1) (waitingOp op k e b) card =
      session M A n (handOver M op e (b + data.length) r) card' := by
  have hcommand : (waitingOp op k e b).command = .ok k.current := rfl
  rw [session, hcommand]
  simp only [hx, waiting_returns hfit hret]

theorem exchange_getResponse {cla : UInt8} {le : ℕ} {cmd : CommandApdu}
    (hcla : cla &&& 0x10 = 0)
    (henc : CommandApdu.encode ⟨cla, 0xc0, 0, 0⟩ [] (.exact le) .short = .ok cmd) :
    card.exchange A cmd.bytes = card.page le := by
  simp only [Card.exchange, decode_of_encode henc]
  rw [if_neg (not_not.mpr hcla)]
  rfl

/-- The pages of one answer, from the first on. The induction is on the bytes left. -/
theorem session_pages {cla : UInt8} (hcla : cla &&& 0x10 = 0)
    (hresp : 3 ≤ op.options.exchange.maxResponseBytes) {answer : Card κ} {le : ℕ}
    (hp : k.pending = []) (hcont : k.continuation = .iso7816 cla) (hle : 0 < le)
    (hx : card.exchange A k.current.bytes = answer.page le)
    (h61 : is61 answer.status.raw = false) (h6c : is6c answer.status.raw = false)
    (hpage : min answer.rest.length le + 2 ≤ op.options.exchange.maxResponseBytes)
    (hb : b + answer.rest.length ≤ min usizeMax op.options.limits.maxTotalResponseBytes)
    (he : e + divCeil (answer.rest.length - le)
      (min 256 (op.options.exchange.maxResponseBytes - 2)) ≤ op.options.limits.maxExchanges) :
    session M A (divCeil (answer.rest.length - le)
        (min 256 (op.options.exchange.maxResponseBytes - 2)) + (n + 1)) (waitingOp op k e b) card =
      session M A n
        (handOver M op
          (e + divCeil (answer.rest.length - le)
            (min 256 (op.options.exchange.maxResponseBytes - 2)))
          (b + answer.rest.length) ⟨k.data ++ answer.rest, answer.status⟩)
        { answer with rest := [] } := by
  induction hlen : answer.rest.length using Nat.strongRecOn
    generalizing k card answer le e b with
  | ind len ih =>
    by_cases hlast : answer.rest.length ≤ le
    · have hzero : len - le = 0 := by omega
      rw [hzero, divCeil_zero, Nat.zero_add, Nat.add_zero]
      have hxlast : card.exchange A k.current.bytes =
          (responseFrame answer.rest answer.status.raw, { answer with rest := [] }) := by
        rw [hx, Card.page, if_pos hlast]
      have hfinal : k.advance op.options ⟨answer.rest, ⟨answer.status.raw⟩⟩ =
          .ok (some ⟨k.data ++ answer.rest, answer.status⟩, { k with data := [] }) :=
        advance_final hp hcont h61 h6c
      rw [← hlen]
      exact session_returns hxlast ⟨by omega, by omega⟩ hfinal
    · rw [hlen] at he hb hpage
      obtain ⟨limit, hlimit⟩ : ∃ limit, limit =
        min 256 (op.options.exchange.maxResponseBytes - 2) := ⟨_, rfl⟩
      obtain ⟨le', hle'⟩ : ∃ le', le' =
        min (min (len - le) 256) (op.options.exchange.maxResponseBytes - 2) := ⟨_, rfl⟩
      have hmin : le' = min (len - le) limit := by rw [hle', hlimit, Nat.min_assoc]
      obtain ⟨h61', hreq⟩ := moreBytes_spec (n := len - le) (by omega)
      have hxmore : card.exchange A k.current.bytes =
          (responseFrame (answer.rest.take le) (moreBytes (len - le)),
            { answer with rest := answer.rest.drop le }) := by
        rw [hx, Card.page, if_neg hlast, hlen]
      have henc : CommandApdu.encode ⟨cla, 0xc0, 0, 0⟩ [] (.exact le') .short =
          .ok (.build ⟨cla, 0xc0, 0, 0⟩ [] (.exact le') .short) := by
        apply encode_eq_ok.mpr
        refine ⟨by simp [ApduEncoding.max], ?_, rfl⟩
        simp only [ExpectedLength.InRange, ApduEncoding.max]
        omega
      have htake : (answer.rest.take le).length = le := by simp; omega
      have hdrop : (answer.rest.drop le).length = len - le := by simp [hlen]
      have hgo : k.advance op.options ⟨answer.rest.take le, ⟨moreBytes (len - le)⟩⟩ =
          .ok (none,
            { k with
              data := k.data ++ answer.rest.take le
              continuing := true
              current := .build ⟨cla, 0xc0, 0, 0⟩ [] (.exact le') .short
              corrected := false
              correctLe := true }) := by
        apply advance_goes.mpr
        refine .gotResponse cla _ hp hcont h61' ?_ (by rw [hreq, ← hle']; exact henc)
        intro _ hnil
        have := congrArg List.length hnil
        simp only [htake, List.length_nil] at this
        omega
      have hstep : divCeil (len - le) limit = 1 + divCeil (len - le - le') limit := by
        rw [hmin]
        exact divCeil_step (by omega) (by omega)
      have hx' : Card.exchange A { answer with rest := answer.rest.drop le }
          (CommandApdu.build ⟨cla, 0xc0, 0, 0⟩ [] (.exact le') .short).bytes =
            Card.page { answer with rest := answer.rest.drop le } le' :=
        exchange_getResponse hcla henc
      have hdata : k.data ++ answer.rest.take le ++ answer.rest.drop le =
          k.data ++ answer.rest := by simp
      rw [← hlimit] at he ih ⊢
      have hmore := ih (len - le) (by omega) (k := { k with
          data := k.data ++ answer.rest.take le
          continuing := true
          current := .build ⟨cla, 0xc0, 0, 0⟩ [] (.exact le') .short
          corrected := false
          correctLe := true }) (e := e + 1) (b := b + le)
        hp hcont (by omega) hx' h61 h6c (by rw [hdrop]; omega) (by rw [hdrop]; omega)
        (by rw [hdrop]; omega) hdrop
      dsimp only at hmore
      rw [hdata] at hmore
      rw [hstep, show 1 + divCeil (len - le - le') limit + (n + 1) =
        divCeil (len - le - le') limit + (n + 1) + 1 by omega]
      rw [session_goes hxmore ⟨by omega, by omega⟩ hgo (by omega), htake]
      rw [hmore, show e + 1 + divCeil (len - le - le') limit =
        e + (1 + divCeil (len - le - le') limit) by omega,
        show b + le + (len - le) = b + len by omega]

/-- The fragments before the last frame, each acknowledged. -/
theorem session_fragments (hresp : 2 ≤ op.options.exchange.maxResponseBytes)
    (hb : b ≤ min usizeMax op.options.limits.maxTotalResponseBytes)
    {init : List DecodedCommand} {last : DecodedCommand} (hk : k.corrected = false)
    (hframes : k.frames.map (fun f => decode f.bytes) = (init ++ [last]).map some)
    (hinit : ∀ d ∈ init, d.header.cla &&& 0x10 ≠ 0)
    (he : e + init.length ≤ op.options.limits.maxExchanges) :
    ∃ current card', decode current.bytes = some last ∧ card'.applet = card.applet ∧
      card'.pending = card.pending ++ init.flatMap DecodedCommand.data ∧
      session M A (init.length + n) (waitingOp op k e b) card =
        session M A n (waitingOp op { k with current := current, pending := [] }
          (e + init.length) b) card' := by
  induction init generalizing k card e with
  | nil =>
    simp only [ConversationState.frames, List.map_cons, List.nil_append, List.map_nil,
      List.cons.injEq, List.map_eq_nil_iff] at hframes
    refine ⟨k.current, card, hframes.1, rfl, by simp, ?_⟩
    rw [← hframes.2]
    simp
  | cons d init ih =>
    simp only [ConversationState.frames, List.map_cons, List.cons_append, List.cons.injEq]
      at hframes
    obtain ⟨hd, htail⟩ := hframes
    cases hp : k.pending with
    | nil =>
      rw [hp] at htail
      simp at htail
    | cons next rest =>
      have hchain := hinit d List.mem_cons_self
      have hx : card.exchange A k.current.bytes = (responseFrame [] 0x9000,
          { card with pending := card.pending ++ d.data, rest := [] }) := by
        simp only [Card.exchange, hd]
        rw [if_pos hchain]
      have hgo : k.advance op.options ⟨[], ⟨0x9000⟩⟩ =
          .ok (none, { k with current := next, pending := rest, corrected := false }) :=
        advance_goes.mpr (.acknowledged next rest hp rfl)
      rw [List.length_cons] at he
      obtain ⟨current, card', hcur, happ, hpend, hsession⟩ :=
        @ih { k with current := next, pending := rest, corrected := false }
          { card with pending := card.pending ++ d.data, rest := [] } (e + 1) rfl
          (by rw [← htail, hp]; rfl) (fun d' hd' => hinit d' (List.mem_cons_of_mem _ hd'))
          (by omega)
      refine ⟨current, card', hcur, happ, ?_, ?_⟩
      · rw [hpend, List.flatMap_cons, List.append_assoc]
      · rw [List.length_cons, show init.length + 1 + n = init.length + n + 1 by omega,
          session_goes hx ⟨by simpa using hresp, by simpa using hb⟩ hgo (by omega)]
        have hzero : b + ([] : Bytes).length = b := Nat.add_zero b
        rw [hzero, hsession, hk, show e + 1 + init.length = e + (init.length + 1) by omega]

end exchange

/-- How an answer comes back whole: GET RESPONSE fetches its pages, or it has one. -/
inductive Whole (continuation : Continuation) (size limit : ℕ) : Prop where
  | paged (cla : UInt8) (h : continuation = .iso7816 cla) (hcla : cla &&& 0x10 = 0)
  | alone (h : continuation = .none) (hfit : size ≤ limit)

/-- The applet answers an accepted command, over `frames` exchanges with the card. -/
structure Answers (A : Applet κ) (options : OperationOptions) (a : κ) (c : LogicalCommand)
    (k : ConversationState) (r : ResponseData) (a' : κ) (exchanges : ℕ) : Prop where
  accepted : ConversationState.new c options = .ok k
  header : c.header.cla &&& 0x10 = 0 ∧ c.header.ins ≠ 0xc0
  whole : ∀ le, clampLe c options = .ok le →
    Whole c.continuation r.data.length (pageLimit le)
  answer : ∃ le, clampLe c options = .ok le ∧ A a ⟨c.header, c.data, le⟩ = (r, a') ∧
    min r.data.length (pageLimit le) + 2 ≤ options.exchange.maxResponseBytes ∧
    exchanges = k.frames.length + divCeil (r.data.length - pageLimit le)
      (min 256 (options.exchange.maxResponseBytes - 2))
  status : is61 r.status.raw = false ∧ is6c r.status.raw = false

theorem pageLimit_pos {le : ExpectedLength} {most : ℕ} (h : le.InRange most) :
    0 < pageLimit le := by
  cases le with
  | absent => simp [pageLimit]
  | exact n => exact Nat.pos_of_ne_zero h.1

/-- One logical command of an operation is one call of the applet. -/
theorem session_answers (M : Machine σ T) {A : Applet κ} {options : OperationOptions}
    {op : Operation σ T} {a a' : κ} {c : LogicalCommand} {k : ConversationState}
    {r : ResponseData} {exchanges e b : ℕ} {card : Card κ}
    (h : Answers A options a c k r a' exchanges)
    (hresp : 3 ≤ options.exchange.maxResponseBytes) (hopt : op.options = options)
    (hcard : card.pending = []) (ha : card.applet = a)
    (hb : b + r.data.length ≤ min usizeMax options.limits.maxTotalResponseBytes)
    (he : e + exchanges ≤ options.limits.maxExchanges + 1) (n : ℕ) :
    ∃ card', card'.pending = [] ∧ card'.applet = a' ∧
      session M A (exchanges + n) (waitingOp op k e b) card =
        session M A n (handOver M op (e + (exchanges - 1)) (b + r.data.length) r) card' := by
  subst hopt
  obtain ⟨le, hclamp, hans, hpage, hcount⟩ := h.answer
  obtain ⟨le', cmds, hrange, hclamp', hmap, hdec⟩ := new_decoded h.accepted
  cases hclamp.symm.trans hclamp'
  obtain ⟨init, last, rfl, hinit, hheader, hle⟩ := hdec.split
  change last.header = c.header at hheader
  change last.le = le at hle
  have hlen : k.frames.length = init.length + 1 := by
    have := congrArg List.length hmap
    simpa using this
  have hk := new_initial h.accepted
  have hcorrected : k.corrected = false := by rw [hk]; rfl
  have hdata : k.data ++ r.data = r.data := by rw [hk]; rfl
  have hkcont : k.continuation = c.continuation := by rw [hk]; rfl
  have hpos : 0 < pageLimit le := by
    rcases clampLe_eq_ok hrange hclamp with ⟨rfl, _⟩ | ⟨rfl, _⟩
    · exact pageLimit_pos hrange
    · simp only [pageLimit]
      omega
  obtain ⟨pages, hpages⟩ : ∃ pages, pages = divCeil (r.data.length - pageLimit le)
    (min 256 (op.options.exchange.maxResponseBytes - 2)) := ⟨_, rfl⟩
  rw [hlen, ← hpages] at hcount
  obtain ⟨current, card₁, hcur, happ, hpend, hfragments⟩ :=
    @session_fragments σ T κ M A op k card e b (pages + (n + 1)) (by omega) (by omega) init
      last hcorrected hmap hinit (by omega)
  have hx : card₁.exchange A current.bytes =
      Card.page ({ applet := a', rest := r.data, status := r.status } : Card κ)
        (pageLimit le) := by
    have hcla' : ¬ last.header.cla &&& 0x10 ≠ 0 := by
      rw [hheader]
      exact not_not.mpr h.header.1
    have hins : last.header.ins ≠ 0xc0 := by
      rw [hheader]
      exact h.header.2
    have hcall : A card₁.applet ⟨last.header, card₁.pending ++ last.data, last.le⟩ = (r, a') := by
      have hall : init.flatMap DecodedCommand.data ++ last.data = c.data := by
        rw [← hdec.data]
        simp
      rw [hpend, happ, hcard, ha, hheader, hle, List.nil_append, hall, hans]
    rw [hle] at hcall
    simp only [Card.exchange, hcur, hcla', hins, if_false, hle, hcall]
  refine ⟨{ applet := a', status := r.status }, rfl, rfl, ?_⟩
  have hreturned : session M A (pages + (n + 1))
      (waitingOp op { k with current := current, pending := [] } (e + init.length) b) card₁ =
        session M A n (handOver M op (e + init.length + pages) (b + r.data.length) r)
          { applet := a', status := r.status } := by
    cases h.whole le hclamp with
    | paged cla hcont hcla =>
      have hpaged := session_pages (M := M) (k := { k with current := current, pending := [] })
        (e := e + init.length) (b := b) (n := n) hcla hresp rfl (hkcont.trans hcont) hpos hx
        h.status.1 h.status.2 hpage hb (by rw [← hpages]; omega)
      rw [← hpages] at hpaged
      dsimp only at hpaged
      rw [hdata] at hpaged
      exact hpaged
    | alone hcont hfit =>
      have hone : pages = 0 := by
        rw [hpages, Nat.sub_eq_zero_of_le hfit, divCeil_zero]
      have hx' : card₁.exchange A current.bytes =
          (responseFrame r.data r.status.raw, { applet := a', status := r.status }) := by
        rw [hx, Card.page, if_pos hfit]
      have hfinal : ({ k with current := current, pending := [] } : ConversationState).advance
          op.options ⟨r.data, ⟨r.status.raw⟩⟩ = .ok (some ⟨k.data ++ r.data, r.status⟩, _) :=
        advance_alone rfl (hkcont.trans hcont) h.status.2
      rw [hdata] at hfinal
      rw [hone, Nat.zero_add, Nat.add_zero]
      exact session_returns hx' ⟨by omega, hb⟩ hfinal
  rw [show exchanges + n = init.length + (pages + (n + 1)) by omega, hfragments, hreturned,
    show e + init.length + pages = e + (exchanges - 1) by omega]

theorem Answers.pos {A : Applet κ} {options : OperationOptions} {a a' : κ} {c : LogicalCommand}
    {k : ConversationState} {r : ResponseData} {n : ℕ} (h : Answers A options a c k r a' n) :
    1 ≤ n := by
  obtain ⟨_, _, _, _, hcount⟩ := h.answer
  have : k.frames.length = k.pending.length + 1 := rfl
  omega

/-- A command of one frame answered in one page. -/
theorem Answers.single {A : Applet κ} {options : OperationOptions} {a a' : κ}
    {c : LogicalCommand} {k : ConversationState} {r : ResponseData}
    (hk : ConversationState.new c options = .ok k) (hchain : c.allowChaining = false)
    (hcorrect : c.correctLe = false)
    (hwhole : Whole c.continuation r.data.length (pageLimit c.le))
    (hheader : c.header.cla &&& 0x10 = 0 ∧ c.header.ins ≠ 0xc0)
    (hr : A a ⟨c.header, c.data, c.le⟩ = (r, a')) (hfit : r.data.length ≤ pageLimit c.le)
    (hresp : r.data.length + 2 ≤ options.exchange.maxResponseBytes)
    (hstatus : is61 r.status.raw = false ∧ is6c r.status.raw = false) :
    Answers A options a c k r a' 1 := by
  obtain ⟨le, encoding, cmd, hclamp, hcmd, hinit⟩ := new_single hchain hk
  have hle : le = c.le := by
    obtain ⟨hrange, _⟩ := new_eq_ok hk
    rcases clampLe_eq_ok hrange hclamp with ⟨hle, _⟩ | ⟨_, _, hcor, _⟩
    · exact hle
    · rw [hcorrect] at hcor
      cases hcor
  subst hle
  have hevery : ∀ le, clampLe c options = .ok le →
      Whole c.continuation r.data.length (pageLimit le) := by
    intro le hle
    cases hclamp.symm.trans hle
    exact hwhole
  refine ⟨hk, hheader, hevery, ⟨c.le, hclamp, hr, by omega, ?_⟩, hstatus⟩
  rw [Nat.sub_eq_zero_of_le hfit, divCeil_zero, hinit]
  rfl

/-- A command of one frame whose answer does not depend on its Le and takes one page. -/
theorem Answers.short {A : Applet κ} {options : OperationOptions} {a a' : κ} {c : LogicalCommand}
    {k : ConversationState} {r : ResponseData} (hk : ConversationState.new c options = .ok k)
    (hchain : c.allowChaining = false)
    (hcont : c.continuation = .none ∨ ∃ cla, c.continuation = .iso7816 cla ∧ cla &&& 0x10 = 0)
    (hheader : c.header.cla &&& 0x10 = 0 ∧ c.header.ins ≠ 0xc0)
    (hle : c.le = .absent ∨ c.le = .exact 256) (hr : ∀ le, A a ⟨c.header, c.data, le⟩ = (r, a'))
    (hfit : r.data.length ≤ 256 ∧ r.data.length + 2 ≤ options.exchange.maxResponseBytes)
    (hstatus : is61 r.status.raw = false ∧ is6c r.status.raw = false) :
    Answers A options a c k r a' 1 := by
  have hpage : ∀ le, clampLe c options = .ok le → r.data.length ≤ pageLimit le := by
    intro le hclamp
    rcases hle with hle | hle
    · simp only [clampLe, hle] at hclamp
      cases hclamp
      exact hfit.1
    · simp only [clampLe, hle] at hclamp
      split_ifs at hclamp with hbig hcorrect
      · cases hclamp
        rw [pageLimit, Nat.mod_eq_of_lt (by omega)]
        omega
      · cases hclamp
        exact hfit.1
  have hwhole : ∀ le, clampLe c options = .ok le →
      Whole c.continuation r.data.length (pageLimit le) := by
    intro le hclamp
    rcases hcont with hcont | ⟨cla, hcont, hcla⟩
    · exact .alone hcont (hpage le hclamp)
    · exact .paged cla hcont hcla
  obtain ⟨le, encoding, cmd, hclamp, hcmd, hinit⟩ := new_single hchain hk
  refine ⟨hk, hheader, hwhole, ⟨le, hclamp, hr le, by omega, ?_⟩, hstatus⟩
  rw [Nat.sub_eq_zero_of_le (hpage le hclamp), divCeil_zero, hinit]
  rfl

/-- The machine and the applet alone: the logical session an operation carries out, with
the exchanges and response bytes it takes. -/
inductive Served (M : Machine σ T) (A : Applet κ) (options : OperationOptions) :
    σ → κ → LogicalCommand → ℕ → ℕ → Except Error T → κ → Prop where
  | done {m m' : σ} {a a' : κ} {c : LogicalCommand} {k : ConversationState} {r : ResponseData}
      {n : ℕ} {value : T} (h : Answers A options a c k r a' n)
      (hn : M.next m (some r) = (.ok (.done value), m')) :
      Served M A options m a c n r.data.length (.ok value) a'
  | failed {m m' : σ} {a a' : κ} {c : LogicalCommand} {k : ConversationState}
      {r : ResponseData} {n : ℕ} {err : Error} (h : Answers A options a c k r a' n)
      (hn : M.next m (some r) = (.error err, m')) :
      Served M A options m a c n r.data.length (.error err) a'
  | more {m m' : σ} {a a' a'' : κ} {c c' : LogicalCommand} {k : ConversationState}
      {r : ResponseData} {n n' b : ℕ} {out : Except Error T} (h : Answers A options a c k r a' n)
      (hn : M.next m (some r) = (.ok (.command c'), m'))
      (rest : Served M A options m' a' c' n' b out a'') :
      Served M A options m a c (n + n') (r.data.length + b) out a''

/-- What an ended operation reports. -/
def Ends (op : Operation σ T) : Except Error T → Prop
  | .ok value => op.state = .completed ∧ op.output = some value
  | .error err => op.state = .failed ∧ op.error = some err

theorem Served.accepted {M : Machine σ T} {A : Applet κ} {options : OperationOptions} {m : σ}
    {a a' : κ} {c : LogicalCommand} {n b : ℕ} {out : Except Error T}
    (h : Served M A options m a c n b out a') :
    ∃ k, ConversationState.new c options = .ok k ∧ 1 ≤ n := by
  cases h with
  | done h => exact ⟨_, h.accepted, h.pos⟩
  | failed h => exact ⟨_, h.accepted, h.pos⟩
  | more h _ _ => exact ⟨_, h.accepted, Nat.le_add_right_of_le h.pos⟩

section served

variable {M : Machine σ T} {A : Applet κ} {op : Operation σ T} {m m' : σ} {r : ResponseData}

theorem session_stopped (h : op.state ≠ .awaitingResponse) (n : ℕ) (card : Card κ) :
    session M A n op card = (op, card) := by
  cases n with
  | zero => rfl
  | succ n =>
    have hc : op.command = .error stateError := if_pos h
    rw [session, hc]

theorem handOver_done {value : T} (hm : op.machine = some m)
    (hn : M.next m (some r) = (.ok (.done value), m')) (e b : ℕ) :
    Ends (handOver M op e b r) (.ok value) := by
  simp only [handOver, Operation.drive, hm, hn]
  exact ⟨rfl, rfl⟩

theorem handOver_failed {err : Error} (hm : op.machine = some m)
    (hn : M.next m (some r) = (.error err, m')) (e b : ℕ) :
    Ends (handOver M op e b r) (.error err) := by
  simp only [handOver, Operation.drive, hm, hn]
  exact ⟨rfl, rfl⟩

theorem handOver_command {c : LogicalCommand} {k : ConversationState} {e : ℕ}
    (hm : op.machine = some m) (hn : M.next m (some r) = (.ok (.command c), m'))
    (hk : ConversationState.new c op.options = .ok k) (he : e < op.options.limits.maxExchanges)
    (b : ℕ) : handOver M op e b r = waitingOp { op with machine := some m' } k (e + 1) b := by
  have hbudget : ¬ e ≥ op.options.limits.maxExchanges := by omega
  simp only [handOver, Operation.drive, hm, hn, hk, Operation.exchange, hbudget, if_false]
  rfl

theorem Ends.stopped {out : Except Error T} (h : Ends op out) :
    op.state ≠ .awaitingResponse := by
  cases out with
  | ok value => rw [h.1]; simp
  | error err => rw [h.1]; simp

/-- The hand-over itself costs nothing when it is the last. -/
theorem handOver_spent {e b : ℕ} (h : (handOver M op e b r).state ≠ .awaitingResponse) :
    (handOver M op e b r).exchanges = e ∧ (handOver M op e b r).responseBytes = b := by
  cases hm : op.machine with
  | none =>
    simp only [handOver, Operation.drive, hm]
    exact ⟨rfl, rfl⟩
  | some m =>
    rcases hn : M.next m (some r) with ⟨err | c | value, m'⟩
    · simp only [handOver, Operation.drive, hm, hn]
      exact ⟨rfl, rfl⟩
    · cases hk : ConversationState.new c op.options with
      | error err =>
        simp only [handOver, Operation.drive, hm, hn, hk]
        exact ⟨rfl, rfl⟩
      | ok k =>
        by_cases hbudget : e ≥ op.options.limits.maxExchanges
        · simp only [handOver, Operation.drive, hm, hn, hk, Operation.exchange, hbudget, if_true]
          exact ⟨rfl, rfl⟩
        · rw [handOver_command hm hn hk (by omega)] at h
          exact absurd rfl h
    · simp only [handOver, Operation.drive, hm, hn]
      exact ⟨rfl, rfl⟩

/-- What an operation and its applet come to after so many exchanges and response bytes. -/
structure Concludes (op : Operation σ T) (a : κ) (out : Except Error T) (a' : κ)
    (exchanges bytes : ℕ) : Prop where
  ends : Ends op out
  applet : a = a'
  exchanges : op.exchanges = exchanges
  bytes : op.responseBytes = bytes

/-- Within its budgets the operation carries out the session of its machine, and spends what the
session takes. -/
theorem session_served {options : OperationOptions} {a a' : κ} {c : LogicalCommand} {n b : ℕ}
    {out : Except Error T} (h : Served M A options m a c n b out a')
    (hresp : 3 ≤ options.exchange.maxResponseBytes) (extra : ℕ) {op : Operation σ T}
    (hopt : op.options = options) {k : ConversationState}
    (hk : ConversationState.new c options = .ok k) (hm : op.machine = some m) {e bytes : ℕ}
    {card : Card κ} (hcard : card.pending = []) (ha : card.applet = a)
    (hb : bytes + b ≤ min usizeMax options.limits.maxTotalResponseBytes)
    (he : e + n ≤ options.limits.maxExchanges + 1) :
    Concludes (session M A (n + extra) (waitingOp op k e bytes) card).1
      (session M A (n + extra) (waitingOp op k e bytes) card).2.applet out a' (e + (n - 1))
      (bytes + b) := by
  induction h generalizing op k e bytes card with
  | @done m m' a a' c k' r n value h hn =>
    cases hk.symm.trans h.accepted
    obtain ⟨card', _, happ, hsession⟩ := session_answers M h hresp hopt hcard ha hb he extra
    have hend := handOver_done hm hn (e + (n - 1)) (bytes + r.data.length)
    obtain ⟨hexchanges, hbytes⟩ := handOver_spent hend.stopped
    rw [hsession, session_stopped hend.stopped]
    exact ⟨hend, happ, hexchanges, hbytes⟩
  | @failed m m' a a' c k' r n err h hn =>
    cases hk.symm.trans h.accepted
    obtain ⟨card', _, happ, hsession⟩ := session_answers M h hresp hopt hcard ha hb he extra
    have hend := handOver_failed hm hn (e + (n - 1)) (bytes + r.data.length)
    obtain ⟨hexchanges, hbytes⟩ := handOver_spent hend.stopped
    rw [hsession, session_stopped hend.stopped]
    exact ⟨hend, happ, hexchanges, hbytes⟩
  | @more m m' a a' a'' c c' k' r n n' b out h hn rest ih =>
    cases hk.symm.trans h.accepted
    obtain ⟨k', hk', hpos⟩ := rest.accepted
    have hpos' := h.pos
    obtain ⟨card', hpend, happ, hsession⟩ := session_answers M h hresp hopt hcard ha
      (e := e) (b := bytes) (by omega) (by omega) (n' + extra)
    rw [Nat.add_assoc, hsession, handOver_command hm hn (by rw [hopt]; exact hk')
      (by rw [hopt]; omega)]
    have hrest := @ih { op with machine := some m' } hopt k' hk' rfl (e + (n - 1) + 1)
      (bytes + r.data.length) card' hpend happ (by omega) (by omega)
    rw [show e + (n - 1) + 1 + (n' - 1) = e + (n + n' - 1) by omega, Nat.add_assoc bytes] at hrest
    exact hrest

end served

/-- A started operation exposes the first frame of its machine's first command. -/
theorem start_command {M : Machine σ T} {options : OperationOptions} {m₀ m : σ}
    {op : Operation σ T} {c : LogicalCommand} {k : ConversationState}
    (hop : Operation.fromMachine m₀ options = .ok op)
    (hn : M.next m₀ none = (.ok (.command c), m)) (hk : ConversationState.new c options = .ok k) :
    options.Valid ∧ op.options = options ∧ ∃ op' : Operation σ T, op'.options = options ∧
      op'.machine = some m ∧ (op.start M).2 = waitingOp op' k 1 0 := by
  simp only [Operation.fromMachine] at hop
  cases hv : options.validate with
  | error err => rw [hv] at hop; cases hop
  | ok o =>
    obtain ⟨hvalid, rfl⟩ := validate_eq_ok.mp hv
    rw [hv] at hop
    cases hop
    have hbudget : ¬ 0 ≥ o.limits.maxExchanges := Nat.not_le_of_lt hvalid.exchanges
    refine ⟨hvalid, rfl,
      { machine := some m, conversation := none, output := none, progress := none,
        error := none, state := .created, options := o, exchanges := 0, responseBytes := 0 },
      rfl, rfl, ?_⟩
    simp only [Operation.start, Operation.drive, hn, hk, Operation.exchange, hbudget, if_false,
      ne_eq, not_true]
    rfl

/-- A started operation carries out the session of its machine on a fresh card. -/
theorem execute_concludes {M : Machine σ T} {A : Applet κ} {options : OperationOptions} {m₀ m : σ}
    {op : Operation σ T} {a a' : κ} {c : LogicalCommand} {n b : ℕ} {out : Except Error T}
    (hop : Operation.fromMachine m₀ options = .ok op)
    (hn : M.next m₀ none = (.ok (.command c), m)) (h : Served M A options m a c n b out a')
    (he : n ≤ options.limits.maxExchanges)
    (hb : b ≤ min usizeMax options.limits.maxTotalResponseBytes) :
    Concludes (execute M A op a).1 (execute M A op a).2 out a' n b := by
  obtain ⟨k, hk, hpos⟩ := h.accepted
  obtain ⟨hvalid, hopt, op', hopt', hm, hstart⟩ := start_command hop hn hk
  have hserved := @session_served σ T κ M A m options a a' c n b out h hvalid.response
    (options.limits.maxExchanges - n) op' hopt' k hk hm 1 0 { applet := a } rfl rfl (by omega)
    (by omega)
  rw [Nat.add_sub_cancel' he, Nat.add_sub_cancel' hpos, Nat.zero_add] at hserved
  rw [execute, hstart, hopt]
  exact hserved

theorem execute_served {M : Machine σ T} {A : Applet κ} {options : OperationOptions} {m₀ m : σ}
    {op : Operation σ T} {a a' : κ} {c : LogicalCommand} {n b : ℕ} {out : Except Error T}
    (hop : Operation.fromMachine m₀ options = .ok op)
    (hn : M.next m₀ none = (.ok (.command c), m)) (h : Served M A options m a c n b out a')
    (he : n ≤ options.limits.maxExchanges)
    (hb : b ≤ min usizeMax options.limits.maxTotalResponseBytes) :
    Ends (execute M A op a).1 out ∧ (execute M A op a).2 = a' := by
  have hconcludes := execute_concludes hop hn h he hb
  exact ⟨hconcludes.ends, hconcludes.applet⟩

/-- An operation whose first command is refused never meets the card. -/
theorem execute_refused {M : Machine σ T} {A : Applet κ} {options : OperationOptions} {m₀ m : σ}
    {op : Operation σ T} {c : LogicalCommand} {err : Error}
    (hop : Operation.fromMachine m₀ options = .ok op)
    (hn : M.next m₀ none = (.ok (.command c), m))
    (hc : ConversationState.new c options = .error err) (a : κ) :
    Ends (execute M A op a).1 (.error err) := by
  simp only [Operation.fromMachine] at hop
  cases hv : options.validate with
  | error e => rw [hv] at hop; cases hop
  | ok o =>
    obtain ⟨_, rfl⟩ := validate_eq_ok.mp hv
    rw [hv] at hop
    cases hop
    simp only [execute, Operation.start, Operation.drive, hn, hc, if_false, ne_eq, not_true]
    rw [session_stopped (by simp [Operation.record])]
    exact ⟨rfl, rfl⟩

end ProtocolSession
