import LibCanokey.ProtocolCompletion

/-! # Sessions that stop anywhere

A card can be taken away between any two exchanges, and any budget of an operation can run out
there. However the commands travel, the applet is called with the commands of the machine in
their order, each at most once, and what the machine is handed are the answers of these calls. -/
namespace ProtocolInterruption

open BigEndian ProtocolError ProtocolApdu ProtocolApduDecoder ProtocolConversation
open ProtocolSegmentation ProtocolOperation ProtocolTranscript ProtocolSession ProtocolCompletion

variable {σ T κ : Type*} {M : Machine σ T} {A : Applet κ} {options : OperationOptions} {m₀ : σ}
  {a₀ : κ}

/-- The applet's answer to a command, with the Le that the channel lets through. -/
def Calls (A : Applet κ) (options : OperationOptions) (a : κ) (c : LogicalCommand)
    (r : ResponseData) (a' : κ) : Prop :=
  ∃ le, clampLe c options = .ok le ∧ A a ⟨c.header, c.data, le⟩ = (r, a')

/-- The applet called with commands in turn, from `a₀` on. -/
inductive Replies (A : Applet κ) (options : OperationOptions) (a₀ : κ) :
    List LogicalCommand → List ResponseData → κ → Prop where
  | nothing : Replies A options a₀ [] [] a₀
  | called {cs : List LogicalCommand} {rs : List ResponseData} {a a' : κ} {c : LogicalCommand}
      {r : ResponseData} (hs : Replies A options a₀ cs rs a) (h : Calls A options a c r a') :
      Replies A options a₀ (cs ++ [c]) (rs ++ [r]) a'

theorem Replies.first {rs : List ResponseData} {a : κ} (h : Replies A options a₀ [] rs a) :
    rs = [] ∧ a = a₀ := by
  generalize hcs : ([] : List LogicalCommand) = cs at h
  cases h with
  | nothing => exact ⟨rfl, rfl⟩
  | called => simp at hcs

theorem Replies.last {cs : List LogicalCommand} {c : LogicalCommand} {rs : List ResponseData}
    {a' : κ} (h : Replies A options a₀ (cs ++ [c]) rs a') :
    ∃ rs' r a, rs = rs' ++ [r] ∧ Replies A options a₀ cs rs' a ∧ Calls A options a c r a' := by
  generalize hcs : cs ++ [c] = all at h
  cases h with
  | nothing => simp at hcs
  | @called cs' rs' a a' c' r hs hcall =>
    obtain ⟨rfl, hsame⟩ := List.append_inj' hcs rfl
    cases hsame
    exact ⟨rs', r, a, rfl, hs, hcall⟩

/-- What holds of the first command, and of the next whenever it holds of one, holds of every
command that the machine asks. -/
theorem asked_invariant {I : List LogicalCommand → σ → LogicalCommand → κ → Prop}
    (hfirst : ∀ c m, M.next m₀ none = (.ok (.command c), m) → I [] m c a₀)
    (hnext : ∀ cs m c a r a' c' m', I cs m c a → Calls A options a c r a' →
      M.next m (some r) = (.ok (.command c'), m') → I (cs ++ [c]) m' c' a')
    {cs : List LogicalCommand} {c : LogicalCommand} {rs : List ResponseData} {m : σ} {a : κ}
    (ht : Trace M m₀ (cs ++ [c]) rs m) (hr : Replies A options a₀ cs rs a) : I cs m c a := by
  generalize hall : cs ++ [c] = all at ht
  induction ht generalizing cs c a with
  | @opened c' m h =>
    rw [← List.nil_append [c']] at hall
    obtain ⟨rfl, hsame⟩ := List.append_inj' hall rfl
    cases hsame
    rw [hr.first.2]
    exact hfirst c' m h
  | @answered cs' rs m m' r c' ht h ih =>
    obtain ⟨rfl, hsame⟩ := List.append_inj' hall rfl
    cases hsame
    obtain ⟨own, last, rfl, _⟩ := ht.last
    obtain ⟨rs', r', a₁, hrs, hr', hcall⟩ := hr.last
    obtain ⟨rfl, hsame⟩ := List.append_inj' hrs rfl
    cases hsame
    exact hnext own m last a₁ r a c' m' (ih hr' rfl) hcall h

/-- A command that an ISO 7816-4 channel can carry, with an answer that a card can page. -/
structure Carriable (A : Applet κ) (options : OperationOptions) (a : κ) (c : LogicalCommand) :
    Prop where
  header : c.header.cla &&& 0x10 = 0 ∧ c.header.ins ≠ 0xc0
  continuation : ∃ cla, c.continuation = .iso7816 cla ∧ cla &&& 0x10 = 0
  status : ∀ r a', Calls A options a c r a' →
    is61 r.status.raw = false ∧ is6c r.status.raw = false

/-- Every command that the machine comes to ask of the applet can be carried. -/
def Talks (M : Machine σ T) (A : Applet κ) (options : OperationOptions) (m₀ : σ) (a₀ : κ) : Prop :=
  ∀ cs c rs m a, Trace M m₀ (cs ++ [c]) rs m → Replies A options a₀ cs rs a →
    Carriable A options a c

/-- The applet of a session that has stopped. -/
structure Atomic (M : Machine σ T) (A : Applet κ) (options : OperationOptions) (m₀ : σ) (a₀ : κ)
    (op : Operation σ T) (a : κ) : Prop where
  applet : a = a₀ ∨ ∃ cs c rs m, Trace M m₀ (cs ++ [c]) rs m ∧
    (Replies A options a₀ cs rs a ∨ ∃ r, Replies A options a₀ (cs ++ [c]) (rs ++ [r]) a)
  done : op.state = .completed → ∃ cs rs m value,
    LastTurn M m₀ (.ok (.done value)) cs rs m ∧ Replies A options a₀ cs rs a ∧
      op.output = some value

/-- What handing an input to the machine leaves behind. -/
inductive Turned (M : Machine σ T) (options : OperationOptions) (m : σ)
    (input : Option ResponseData) (op : Operation σ T) : Prop where
  | failed (hs : op.state = .failed)
  | asked (c : LogicalCommand) (k : ConversationState) (m' : σ)
      (hn : M.next m input = (.ok (.command c), m'))
      (hnew : ConversationState.new c options = .ok k) (hs : op.state = .awaitingResponse)
      (hm : op.machine = some m') (hk : op.conversation = some k) (ho : op.options = options)
  | done (value : T) (m' : σ) (hn : M.next m input = (.ok (.done value), m'))
      (hs : op.state = .completed) (hout : op.output = some value)

/-- What a response leaves behind. -/
inductive Advanced (M : Machine σ T) (op : Operation σ T) (m : σ) (k : ConversationState)
    (r : ResponseApdu) (op' : Operation σ T) : Prop where
  | failed (hs : op'.state = .failed)
  | went (k' : ConversationState) (hgo : k.advance op.options r = .ok (none, k'))
      (hs : op'.state = .awaitingResponse) (hm : op'.machine = some m)
      (hk : op'.conversation = some k') (ho : op'.options = op.options)
  | handed (d : ResponseData) (k' : ConversationState)
      (hret : k.advance op.options r = .ok (some d, k'))
      (hturn : Turned M op.options m (some d) op')

section steps

variable {op : Operation σ T} {m : σ} {k : ConversationState}

theorem drive_turned (hm : op.machine = some m) (input : Option ResponseData) :
    Turned M op.options m input (Operation.record M (op.drive M input)).2 := by
  simp only [Operation.drive, hm]
  rcases hn : M.next m input with ⟨e | c | value, m'⟩
  · exact .failed rfl
  · dsimp only
    cases hnew : ConversationState.new c op.options with
    | error e => exact .failed rfl
    | ok k =>
      simp only [Operation.exchange]
      by_cases hbudget : op.exchanges ≥ op.options.limits.maxExchanges
      · rw [if_pos hbudget]
        exact .failed rfl
      · rw [if_neg hbudget]
        exact .asked c k m' hn hnew rfl rfl rfl rfl
  · exact .done value m' hn rfl rfl

theorem advance_advanced (hs : op.state = .awaitingResponse) (hm : op.machine = some m)
    (hk : op.conversation = some k) (data : Bytes) (sw : UInt16) :
    Advanced M op m k ⟨data, ⟨sw⟩⟩ (op.advance M (responseFrame data sw)).2 := by
  rw [Operation.advance, if_neg (not_not.mpr hs)]
  simp only [Operation.advanceInner, parse_responseFrame]
  by_cases hlen : (responseFrame data sw).length > op.options.exchange.maxResponseBytes
  · rw [if_pos hlen]
    exact .failed rfl
  rw [if_neg hlen]
  cases CheckedCursor.checkedAdd op.responseBytes data.length with
  | none => exact .failed rfl
  | some total =>
    dsimp only
    by_cases htotal : total > op.options.limits.maxTotalResponseBytes
    · rw [if_pos htotal]
      exact .failed rfl
    rw [if_neg htotal, hk]
    dsimp only
    rcases ha : k.advance op.options ⟨data, ⟨sw⟩⟩ with e | ⟨_ | d, k'⟩
    · exact .failed rfl
    · simp only [Operation.exchange]
      by_cases hbudget : op.exchanges ≥ op.options.limits.maxExchanges
      · rw [if_pos hbudget]
        exact .failed rfl
      · rw [if_neg hbudget]
        exact .went k' ha rfl hm rfl rfl
    · have hturn := @drive_turned σ T M
        { op with responseBytes := total, conversation := none } m hm (some d)
      exact .handed d k' ha hturn

end steps

/-- How far one command has come: some fragments are still to be sent, or the applet has been
called and some pages are still to be fetched. -/
inductive Carrying (A : Applet κ) (options : OperationOptions) (a₀ : κ) (cs : List LogicalCommand)
    (rs : List ResponseData) (c : LogicalCommand) (k : ConversationState) (card : Card κ) :
    Prop where
  | sending (le : ExpectedLength) (init : List DecodedCommand) (last : DecodedCommand)
      (hr : Replies A options a₀ cs rs card.applet) (hclamp : clampLe c options = .ok le)
      (hframes : k.frames.map (fun f => decode f.bytes) = (init ++ [last]).map some)
      (hinit : ∀ d ∈ init, d.header.cla &&& 0x10 ≠ 0)
      (hlast : last.header = c.header ∧ last.le = le)
      (hsum : card.pending ++ init.flatMap DecodedCommand.data ++ last.data = c.data)
      (hdata : k.data = [])
  | paging (r : ResponseData) (le : ℕ)
      (hr : Replies A options a₀ (cs ++ [c]) (rs ++ [r]) card.applet) (hp : k.pending = [])
      (hcur : ∀ card' : Card κ, card'.exchange A k.current.bytes = card'.page le)
      (hcard : card.pending = []) (hdata : k.data ++ card.rest = r.data)
      (hstatus : card.status = r.status)
      (hplain : is61 r.status.raw = false ∧ is6c r.status.raw = false)

/-- A session between two exchanges. -/
inductive Between (M : Machine σ T) (A : Applet κ) (options : OperationOptions) (m₀ : σ) (a₀ : κ)
    (op : Operation σ T) (card : Card κ) : Prop where
  | waiting (cs : List LogicalCommand) (rs : List ResponseData) (c : LogicalCommand) (m : σ)
      (k : ConversationState) (cla : UInt8) (hs : op.state = .awaitingResponse)
      (ho : op.options = options) (hm : op.machine = some m) (hk : op.conversation = some k)
      (ht : Trace M m₀ (cs ++ [c]) rs m)
      (hcont : k.continuation = .iso7816 cla ∧ cla &&& 0x10 = 0)
      (hcarry : Carrying A options a₀ cs rs c k card)
  | ended (hs : op.state ≠ .awaitingResponse) (h : Atomic M A options m₀ a₀ op card.applet)

theorem Between.atomic {op : Operation σ T} {card : Card κ}
    (h : Between M A options m₀ a₀ op card) : Atomic M A options m₀ a₀ op card.applet := by
  cases h with
  | ended _ h => exact h
  | waiting cs rs c m k cla hs ho hm hk ht hcont hcarry =>
    constructor
    · right
      refine ⟨cs, c, rs, m, ht, ?_⟩
      cases hcarry with
      | sending le init last hr => exact Or.inl hr
      | paging r le hr => exact Or.inr ⟨r, hr⟩
    · intro hdone
      cases hs.symm.trans hdone

theorem Between.conversation {op : Operation σ T} {card : Card κ}
    (h : Between M A options m₀ a₀ op card) (hs : op.state = .awaitingResponse) :
    ∃ k, op.conversation = some k := by
  cases h with
  | ended hover => exact absurd hs hover
  | waiting cs rs c m k cla _ _ _ hk => exact ⟨k, hk⟩

theorem Between.failed {op : Operation σ T} {card : Card κ} (hs : op.state = .failed)
    (h : card.applet = a₀ ∨ ∃ cs c rs m, Trace M m₀ (cs ++ [c]) rs m ∧
      (Replies A options a₀ cs rs card.applet ∨
        ∃ r, Replies A options a₀ (cs ++ [c]) (rs ++ [r]) card.applet)) :
    Between M A options m₀ a₀ op card := by
  apply Between.ended
  · rw [hs]
    decide
  · refine ⟨h, fun hdone => ?_⟩
    cases hs.symm.trans hdone

section exchange

variable {op op' : Operation σ T} {card : Card κ} {cs : List LogicalCommand}
  {rs : List ResponseData} {c : LogicalCommand} {m : σ} {k : ConversationState}

/-- A command that the machine has just asked is all still to be sent. -/
theorem asked_between (htalks : Talks M A options m₀ a₀) (hs : op'.state = .awaitingResponse)
    (ho : op'.options = options) (hm : op'.machine = some m) (hk : op'.conversation = some k)
    (hnew : ConversationState.new c options = .ok k) (ht : Trace M m₀ (cs ++ [c]) rs m)
    (hr : Replies A options a₀ cs rs card.applet) (hcard : card.pending = []) :
    Between M A options m₀ a₀ op' card := by
  obtain ⟨cla, hcont, hcla⟩ := (htalks cs c rs m card.applet ht hr).continuation
  obtain ⟨le, cmds, _, hclamp, hmap, hdec⟩ := new_decoded hnew
  obtain ⟨init, last, rfl, hinit, hheader, hle⟩ := hdec.split
  have hk' := new_initial hnew
  have hkcont : k.continuation = .iso7816 cla := by
    rw [hk']
    exact hcont
  have hdata : k.data = [] := by rw [hk']; rfl
  have hsum : card.pending ++ init.flatMap DecodedCommand.data ++ last.data = c.data := by
    have hall : (init ++ [last]).flatMap DecodedCommand.data = c.data := hdec.data
    rw [hcard, ← hall]
    simp
  exact .waiting cs rs c m k cla hs ho hm hk ht ⟨hkcont, hcla⟩
    (.sending le init last hr hclamp hmap hinit ⟨hheader, hle⟩ hsum hdata)

/-- The machine turns to what it has been handed. -/
theorem turned_between (htalks : Talks M A options m₀ a₀) {r : ResponseData}
    (hturn : Turned M options m (some r) op') (ht : Trace M m₀ (cs ++ [c]) rs m)
    (hr : Replies A options a₀ (cs ++ [c]) (rs ++ [r]) card.applet) (hcard : card.pending = []) :
    Between M A options m₀ a₀ op' card := by
  cases hturn with
  | failed hs => exact .failed hs (Or.inr ⟨cs, c, rs, m, ht, Or.inr ⟨r, hr⟩⟩)
  | asked c' k' m' hn hnew hs hm hk ho =>
    exact asked_between htalks hs ho hm hk hnew (.answered ht hn) hr hcard
  | done value m' hn hs hout =>
    apply Between.ended
    · rw [hs]
      decide
    · exact ⟨Or.inr ⟨cs, c, rs, m, ht, Or.inr ⟨r, hr⟩⟩, fun _ =>
        ⟨cs ++ [c], rs ++ [r], m', value, .answering ht hn, hr, hout⟩⟩

/-- One page of an answer. -/
theorem page_between (htalks : Talks M A options m₀ a₀) {r : ResponseData} {cla : UInt8}
    (hs : op.state = .awaitingResponse) (ho : op.options = options) (hm : op.machine = some m)
    (hk : op.conversation = some k) (ht : Trace M m₀ (cs ++ [c]) rs m)
    (hcont : k.continuation = .iso7816 cla) (hcla : cla &&& 0x10 = 0)
    (hr : Replies A options a₀ (cs ++ [c]) (rs ++ [r]) card.applet) (hp : k.pending = [])
    (hcard : card.pending = []) (hdata : k.data ++ card.rest = r.data)
    (hstatus : card.status = r.status)
    (hplain : is61 r.status.raw = false ∧ is6c r.status.raw = false) (le : ℕ) :
    Between M A options m₀ a₀ (op.advance M (card.page le).1).2 (card.page le).2 := by
  subst ho
  have hstop : card.applet = a₀ ∨ ∃ cs c rs m, Trace M m₀ (cs ++ [c]) rs m ∧
      (Replies A op.options a₀ cs rs card.applet ∨
        ∃ r, Replies A op.options a₀ (cs ++ [c]) (rs ++ [r]) card.applet) :=
    Or.inr ⟨cs, c, rs, m, ht, Or.inr ⟨r, hr⟩⟩
  by_cases hlast : card.rest.length ≤ le
  · have hpage : card.page le =
        (responseFrame card.rest card.status.raw, { card with rest := [] }) := if_pos hlast
    have hfinal : k.advance op.options ⟨card.rest, ⟨card.status.raw⟩⟩ =
        .ok (some ⟨k.data ++ card.rest, card.status⟩, { k with data := [] }) :=
      advance_final hp hcont (by rw [hstatus]; exact hplain.1) (by rw [hstatus]; exact hplain.2)
    rw [hdata, hstatus] at hfinal
    rw [hpage, hstatus]
    cases advance_advanced (M := M) hs hm hk card.rest r.status.raw with
    | failed hfailed => exact .failed hfailed hstop
    | went k' hgo => cases hfinal.symm.trans hgo
    | handed d k' hret hturn =>
      cases hfinal.symm.trans hret
      exact turned_between htalks hturn ht hr hcard
  · have hpage : card.page le = (responseFrame (card.rest.take le)
        (moreBytes (card.rest.length - le)), { card with rest := card.rest.drop le }) :=
      if_neg hlast
    obtain ⟨h61, _⟩ := moreBytes_spec (n := card.rest.length - le) (by omega)
    rw [hpage]
    cases advance_advanced (M := M) hs hm hk (card.rest.take le)
      (moreBytes (card.rest.length - le)) with
    | failed hfailed => exact .failed hfailed hstop
    | went k' hgo hs' hm' hk' ho' =>
      cases advance_goes.mp hgo with
      | corrected current hsw =>
        rw [is61_not_6c h61] at hsw
        cases hsw
      | acknowledged next rest hne =>
        rw [hp] at hne
        cases hne
      | sentRemaining i probe current _ hoath => cases hcont.symm.trans hoath
      | gotResponse cla' current _ hiso _ _ hcur =>
        cases hcont.symm.trans hiso
        refine .waiting cs rs c m _ cla hs' ho' hm' hk' ht ⟨hcont, hcla⟩ ?_
        refine .paging r _ hr hp (fun card' => exchange_getResponse hcla hcur) hcard ?_ hstatus
          hplain
        rw [← hdata, List.append_assoc, List.take_append_drop]
    | handed d k' hret =>
      cases (advance_finishes.mp hret).1 with
      | polled i probe _ hoath => cases hcont.symm.trans hoath
      | final _ _ _ _ hiso =>
        have hno := hiso cla hcont
        rw [h61] at hno
        cases hno

/-- One exchange of a session. -/
theorem exchange_between (htalks : Talks M A options m₀ a₀) (hs : op.state = .awaitingResponse)
    (hk : op.conversation = some k) (h : Between M A options m₀ a₀ op card) :
    Between M A options m₀ a₀ (op.advance M (card.exchange A k.current.bytes).1).2
      (card.exchange A k.current.bytes).2 := by
  cases h with
  | ended hover => exact absurd hs hover
  | waiting cs rs c m k₁ cla _ ho hm hk₁ ht hcont hcarry =>
    cases hk.symm.trans hk₁
    subst ho
    cases hcarry with
    | paging r le hr hp hcur hcard hdata hstatus hplain =>
      rw [hcur card]
      exact page_between htalks hs rfl hm hk ht hcont.1 hcont.2 hr hp hcard hdata hstatus hplain le
    | sending le init last hr hclamp hframes hinit hlast hsum hdata =>
      cases init with
      | cons d init =>
        simp only [ConversationState.frames, List.map_cons, List.cons_append, List.cons.injEq]
          at hframes
        have hx : card.exchange A k.current.bytes = (responseFrame [] 0x9000,
            { card with pending := card.pending ++ d.data, rest := [] }) := by
          simp only [Card.exchange, hframes.1]
          exact if_pos (hinit d List.mem_cons_self)
        rw [hx]
        obtain ⟨next, rest, hp⟩ : ∃ next rest, k.pending = next :: rest := by
          cases hp : k.pending with
          | nil => simp [hp] at hframes
          | cons next rest => exact ⟨next, rest, rfl⟩
        have hack : k.advance op.options ⟨[], ⟨0x9000⟩⟩ =
            .ok (none, { k with current := next, pending := rest, corrected := false }) :=
          advance_goes.mpr (.acknowledged next rest hp rfl)
        cases advance_advanced (M := M) hs hm hk [] 0x9000 with
        | failed hfailed => exact .failed hfailed (Or.inr ⟨cs, c, rs, m, ht, Or.inl hr⟩)
        | handed d k' hret => cases hack.symm.trans hret
        | went k' hgo hs' hm' hk' ho' =>
          cases hack.symm.trans hgo
          refine .waiting cs rs c m _ cla hs' ho' hm' hk' ht hcont ?_
          refine .sending le init last hr hclamp ?_
            (fun d' hd' => hinit d' (List.mem_cons_of_mem _ hd')) hlast ?_ hdata
          · rw [← hframes.2, hp]
            rfl
          · rw [← hsum, List.flatMap_cons]
            simp
      | nil =>
        simp only [ConversationState.frames, List.map_cons, List.nil_append, List.map_nil,
          List.cons.injEq, List.map_eq_nil_iff] at hframes
        simp only [List.flatMap_nil, List.append_nil] at hsum
        have hgood := htalks cs c rs m card.applet ht hr
        obtain ⟨⟨r, a'⟩, hcall⟩ : ∃ result, A card.applet ⟨c.header, c.data, le⟩ = result :=
          ⟨_, rfl⟩
        have hcalls : Calls A op.options card.applet c r a' := ⟨le, hclamp, hcall⟩
        have hx : card.exchange A k.current.bytes =
            Card.page ({ applet := a', rest := r.data, status := r.status } : Card κ)
              (pageLimit le) := by
          simp only [Card.exchange, hframes.1, hlast.1, hlast.2, hsum, hcall]
          rw [if_neg (not_not.mpr hgood.header.1), if_neg hgood.header.2]
        rw [hx]
        exact page_between htalks hs rfl hm hk ht hcont.1 hcont.2 (.called hr hcalls) hframes.2 rfl
          (by rw [hdata]; rfl) rfl (hgood.status r a' hcalls) _

/-- A session keeps between its exchanges what the step keeps. -/
theorem session_between (htalks : Talks M A options m₀ a₀) (n : ℕ)
    (h : Between M A options m₀ a₀ op card) :
    Between M A options m₀ a₀ (session M A n op card).1 (session M A n op card).2 := by
  induction n generalizing op card with
  | zero => exact h
  | succ n ih =>
    by_cases hs : op.state = .awaitingResponse
    · obtain ⟨k, hk⟩ := h.conversation hs
      have hcommand : op.command = .ok k.current := by
        rw [Operation.command, if_neg (not_not.mpr hs), hk]
      rw [session, hcommand]
      exact ih (exchange_between htalks hs hk h)
    · rw [session_stopped hs]
      exact h

end exchange

theorem start_between {op : Operation σ T} (hop : Operation.fromMachine m₀ options = .ok op)
    (htalks : Talks M A options m₀ a₀) :
    Between M A options m₀ a₀ (op.start M).2 { applet := a₀ } := by
  obtain ⟨hs, hm⟩ := fromMachine_created hop
  have ho := (fromMachine_lifecycle hop).options
  have hstart : op.start M = Operation.record M (op.drive M none) := if_neg (not_not.mpr hs)
  have hturn := drive_turned (M := M) hm none
  rw [← hstart, ho] at hturn
  cases hturn with
  | failed hfailed => exact .failed hfailed (Or.inl rfl)
  | asked c k m hn hnew hs hm hk ho =>
    have ht : Trace M m₀ ([] ++ [c]) [] m := .opened hn
    exact asked_between htalks hs ho hm hk hnew ht .nothing rfl
  | done value m hn hs hout =>
    apply Between.ended
    · rw [hs]
      decide
    · exact ⟨Or.inl rfl, fun _ => ⟨[], [], m, value, .opening hn, .nothing, hout⟩⟩

/-- Where a session stops: after so many exchanges, or after one more frame whose answer is
lost. -/
structure Stop where
  exchanges : ℕ
  lost : Bool := false
  deriving DecidableEq, Repr

/-- The operation and the applet where a session stops. -/
def interrupted (M : Machine σ T) (A : Applet κ) (op : Operation σ T) (a : κ) (stop : Stop) :
    Operation σ T × κ :=
  let (op, card) := session M A stop.exchanges (op.start M).2 { applet := a }
  match stop.lost, op.command with
  | true, .ok frame => (op, (card.exchange A frame.bytes).2.applet)
  | _, _ => (op, card.applet)

theorem interrupted_stands {op : Operation σ T}
    (hop : Operation.fromMachine m₀ options = .ok op) (htalks : Talks M A options m₀ a₀)
    (stop : Stop) : Atomic M A options m₀ a₀ (interrupted M A op a₀ stop).1
      (interrupted M A op a₀ stop).2 := by
  have h := session_between htalks stop.exchanges (start_between hop htalks)
  rw [interrupted]
  generalize session M A stop.exchanges (op.start M).2 { applet := a₀ } = result at h ⊢
  obtain ⟨op', card⟩ := result
  dsimp only at h ⊢
  split
  · rename_i frame _ hcommand
    by_cases hs : op'.state = .awaitingResponse
    · obtain ⟨k, hk⟩ := h.conversation hs
      have hframe : frame = k.current := by
        rw [Operation.command, if_neg (not_not.mpr hs), hk] at hcommand
        cases hcommand
        rfl
      rw [hframe]
      refine ⟨(exchange_between htalks hs hk h).atomic.applet, fun hdone => ?_⟩
      cases hs.symm.trans hdone
    · rw [Operation.command, if_pos hs] at hcommand
      cases hcommand
  · exact h.atomic

/-- Wherever a session stops, the applet was called with the commands of the machine in order,
and the machine was handed what the applet answered. -/
theorem interrupted_atomic {op : Operation σ T} (hop : Operation.fromMachine m₀ options = .ok op)
    (htalks : Talks M A options m₀ a₀) (stop : Stop) :
    Atomic M A options m₀ a₀ (interrupted M A op a₀ stop).1 (interrupted M A op a₀ stop).2 :=
  interrupted_stands hop htalks stop

/-- A card that counts the commands it is given. -/
def countingApplet : Applet ℕ := fun a _ => (⟨[], ⟨0x9000⟩⟩, a + 1)

theorem single_talks (c : LogicalCommand) (hc : c.header.cla &&& 0x10 = 0 ∧ c.header.ins ≠ 0xc0)
    (hcont : c.continuation = .iso7816 0) (a₀ : ℕ) :
    Talks singleCommand countingApplet options (some c) a₀ := by
  intro cs c' rs m a ht _
  have hfirst : ∀ cs rs m, Trace singleCommand (some c) cs rs m → cs = [c] := by
    intro cs rs m ht
    cases ht with
    | opened h => cases h; rfl
    | answered _ h => cases h
  cases hfirst _ _ _ ht |> List.append_eq_singleton_iff.mp with
  | inl h =>
    cases h.2
    refine ⟨hc, ⟨0, hcont, by decide⟩, ?_⟩
    rintro r a' ⟨le, _, hcall⟩
    cases hcall
    exact ⟨by decide, by decide⟩
  | inr h => cases h.2

/-- Three fragments: two of them are no command yet, and the third is one even where its answer is
lost. -/
theorem interrupted_atomic_chained : ∃ op,
    conversation chainedExample narrowOptions = .ok op ∧
    (∀ stop, Atomic singleCommand countingApplet narrowOptions (some chainedExample) 0
      (interrupted singleCommand countingApplet op 0 stop).1
      (interrupted singleCommand countingApplet op 0 stop).2) ∧
    (interrupted singleCommand countingApplet op 0 { exchanges := 2 }).2 = 0 ∧
    (interrupted singleCommand countingApplet op 0 { exchanges := 2, lost := true }).2 = 1 := by
  obtain ⟨op, hop⟩ : ∃ op, conversation chainedExample narrowOptions = .ok op := ⟨_, rfl⟩
  have hmade : Operation.fromMachine (some chainedExample) narrowOptions = .ok op := hop
  refine ⟨op, hop, fun stop => interrupted_atomic hmade
    (single_talks chainedExample (by decide) rfl 0) stop, ?_⟩
  cases hop
  exact ⟨by decide +kernel, by decide +kernel⟩

end ProtocolInterruption
