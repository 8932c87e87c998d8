import LibCanokey.CtapLargeBlobBudget
import LibCanokey.CtapLargeBlobUpload
import LibCanokey.ProtocolAcceptance
import LibCanokey.ProtocolCompletion
import LibCanokey.ProtocolStages

/-! # The ISO 7816 envelope of CTAP

The operations that carry raw messages, the typed ones over them, what every run of a queue of
requests comes to, and an operation against an applet that answers messages. -/
namespace CtapEnvelope

open BigEndian CheckedCursor ListTraversal ProtocolError ProtocolConversation ProtocolOperation
open ProtocolAcceptance ProtocolTranscript ProtocolStages ProtocolSession ProtocolDelivery
open ProtocolCompletion
open CtapCbor CtapMessage CtapLargeBlobUpload CtapLargeBlobBudget

variable {T : Type}

/-- One command of the selected applet, whose answer a parser reads. -/
def single (command : LogicalCommand) (phase : Phase) (options : OperationOptions)
    (parse : ResponseData → Except Error T) : Except Error (Operation (Sequence T) T) := do
  let options ← options.validate
  validateCommand command options
  Operation.fromMachine ⟨[⟨command, phase⟩], none, some parse⟩ options

def selectApplication (options : OperationOptions) :
    Except Error (Operation (Sequence Unit) Unit) :=
  single select .select options fun response => response.ensureSuccess .select

def transceiveSelected (message : Bytes) (options : OperationOptions) :
    Except Error (Operation (Sequence CtapResponse) CtapResponse) := do
  checkedMessage message options
  single (msg message) .command options splitStatus

def transceive (message : Bytes) (options : OperationOptions) :
    Except Error (Operation (Sequence CtapResponse) CtapResponse) :=
  selectThen message options .ok

/-- The machine of a queue of requests before its first turn. -/
def queue (requests : List Request) (parse : ResponseData → Except Error T) : Sequence T :=
  ⟨requests, none, some parse⟩

/-- The error of a CTAP status other than success. -/
def statusError (status : UInt8) : Error :=
  { (Error.new (CtapStatus.kind ⟨status⟩)).atPhase .command with applicationStatus := some status }

theorem ensure_eq (status : UInt8) :
    (CtapStatus.mk status).ensure .command =
      if status = 0x00 then .ok () else .error (statusError status) := by
  by_cases h : status = 0x00
  · simp [CtapStatus.ensure, CtapStatus.isSuccess, h]
  · simp [CtapStatus.ensure, CtapStatus.isSuccess, statusError, h]

/-- A response that carries a status byte and a payload. -/
def carried (status : UInt8) (payload : Bytes) : ResponseData := ⟨status :: payload, ⟨0x9000⟩⟩

theorem splitStatus_carried (status : UInt8) (payload : Bytes) :
    splitStatus (carried status payload) = .ok ⟨⟨status⟩, payload⟩ := rfl

theorem splitStatus_eq_ok {r : ResponseData} {response : CtapResponse} :
    splitStatus r = .ok response ↔ r = carried response.status.raw response.payload := by
  constructor
  · intro h
    obtain ⟨_, hsuccess, h⟩ := bind_eq_ok.mp h
    have hraw := ensureSuccess_eq_ok.mp hsuccess
    obtain ⟨data, ⟨raw⟩⟩ := r
    simp only [StatusWord.isSuccess, beq_iff_eq] at hraw
    subst hraw
    cases data with
    | nil => cases h
    | cons status payload =>
      cases h
      rfl
  · rintro rfl
    rfl

/-! ## Every run of a queue -/

/-- What a queue has sent, in order, and the acknowledgements it had. -/
structure Queued (requests : List Request) (parse : ResponseData → Except Error T)
    (cs : List LogicalCommand) (rs : List ResponseData) (s : Sequence T) : Prop where
  sent : ∃ before req, requests = before ++ req :: s.pending ∧
    cs = (before ++ [req]).map Request.command ∧ s.current = some req.phase ∧
    rs.length = before.length
  acknowledged : ∀ r ∈ rs, r.status.isSuccess = true
  parser : s.parse = some parse

section runs

variable {requests : List Request} {parse : ResponseData → Except Error T} {s s' : Sequence T}
  {cs : List LogicalCommand} {rs : List ResponseData} {c : LogicalCommand} {r : ResponseData}
  {value : T} {e : Error}

theorem pop_command (h : s.pop = (.ok (.command c), s')) :
    ∃ req, s.pending = req :: s'.pending ∧ c = req.command ∧ s'.current = some req.phase ∧
      s'.parse = s.parse := by
  simp only [Sequence.pop] at h
  cases hs : s.pending with
  | nil =>
    rw [hs] at h
    cases h
  | cons req rest =>
    rw [hs] at h
    cases h
    exact ⟨req, rfl, rfl, rfl, rfl⟩

/-- A turn that goes on was acknowledged. -/
theorem next_command (h : (sequence T).next s (some r) = (.ok (.command c), s')) :
    r.status.isSuccess = true ∧ ∃ req, s.pending = req :: s'.pending ∧ c = req.command ∧
      s'.current = some req.phase ∧ s'.parse = s.parse := by
  simp only [CtapMessage.sequence, Sequence.next] at h
  by_cases hnil : s.pending = []
  · rw [if_pos hnil, Sequence.finish] at h
    cases hp : s.parse with
    | none =>
      rw [hp] at h
      cases h
    | some parse =>
      rw [hp] at h
      cases hparsed : parse r <;> simp [hparsed, Except.map] at h
  · rw [if_neg hnil] at h
    cases hc : s.current with
    | none =>
      rw [hc] at h
      cases h
    | some phase =>
      rw [hc] at h
      dsimp only at h
      by_cases hsuccess : r.status.isSuccess = true
      · rw [if_pos hsuccess] at h
        exact ⟨hsuccess, pop_command h⟩
      · rw [if_neg hsuccess] at h
        cases h

theorem queue_described (requests : List Request) (parse : ResponseData → Except Error T) :
    Described (sequence T) (queue requests parse) (Queued requests parse) := by
  constructor
  · intro c s h
    obtain ⟨req, hpending, rfl, hcurrent, hparse⟩ := pop_command (s := queue requests parse) h
    refine ⟨⟨[], req, hpending, rfl, hcurrent, rfl⟩, ?_, hparse⟩
    intro r hr
    cases hr
  · intro cs rs s r c s' hq h
    obtain ⟨hsuccess, req, hpending, rfl, hcurrent, hparse⟩ := next_command h
    obtain ⟨before, last, hrequests, rfl, _, hlen⟩ := hq.sent
    refine ⟨⟨before ++ [last], req, ?_, ?_, hcurrent, ?_⟩, ?_, hparse.trans hq.parser⟩
    · rw [hrequests, hpending]
      simp
    · simp
    · simp [hlen]
    · intro r' hr'
      rcases List.mem_append.mp hr' with hr' | hr'
      · exact hq.acknowledged r' hr'
      · rw [List.mem_singleton.mp hr']
        exact hsuccess

/-- A queue opens with a command unless it is empty. -/
theorem queue_opens (requests : List Request) (parse : ResponseData → Except Error T) (value : T)
    (m : Sequence T) : (sequence T).next (queue requests parse) none ≠ (.ok (.done value), m) := by
  cases requests <;> simp [CtapMessage.sequence, Sequence.next, Sequence.pop, queue]

/-- The last answer of a queue goes to its parser. -/
theorem next_last (hq : Queued requests parse cs rs s) (hpending : s.pending = []) :
    (sequence T).next s (some r) = ((parse r).map .done, { s with parse := none }) := by
  simp only [CtapMessage.sequence, Sequence.next, Sequence.finish, hpending, if_true, hq.parser]

/-- Before that an answer other than success ends the run with its own status. -/
theorem next_refused (hq : Queued requests parse cs rs s) (hpending : s.pending ≠ [])
    (hr : r.status.isSuccess = false) :
    ∃ req ∈ requests,
      (sequence T).next s (some r) = (.error (.status r.status req.phase none), s) := by
  obtain ⟨before, req, hrequests, _, hcurrent, _⟩ := hq.sent
  refine ⟨req, by rw [hrequests]; simp, ?_⟩
  simp only [CtapMessage.sequence, Sequence.next, hpending, if_false, hcurrent, hr]
  rfl

theorem next_done (hq : Queued requests parse cs rs s)
    (h : (sequence T).next s (some r) = (.ok (.done value), s')) :
    s.pending = [] ∧ parse r = .ok value := by
  by_cases hpending : s.pending = []
  · rw [next_last hq hpending] at h
    refine ⟨hpending, ?_⟩
    cases hp : parse r with
    | error e => simp [hp, Except.map] at h
    | ok v =>
      simp only [hp, Except.map, Prod.mk.injEq, Except.ok.injEq, Action.done.injEq] at h
      rw [h.1]
  · cases hs : r.status.isSuccess with
    | false =>
      obtain ⟨req, _, hrefused⟩ := next_refused hq hpending hs
      cases hrefused.symm.trans h
    | true =>
      obtain ⟨before, req, _, _, hcurrent, _⟩ := hq.sent
      simp only [CtapMessage.sequence, Sequence.next, hpending, if_false, hcurrent, hs, if_true,
        Sequence.pop] at h
      cases hp : s.pending with
      | nil => exact absurd hp hpending
      | cons req rest =>
        rw [hp] at h
        cases h

/-- The transcript of a completed queue: every request sent and acknowledged, the last answer
parsed. -/
theorem queue_completed (ht : LastTurn (sequence T) (queue requests parse) (.ok (.done value)) cs rs
    s) : cs = requests.map Request.command ∧
      ∃ init last, rs = init ++ [last] ∧ init.length + 1 = requests.length ∧
        (∀ r ∈ init, r.status.isSuccess = true) ∧ parse last = .ok value := by
  cases ht with
  | opening h => exact absurd h (queue_opens requests parse value s)
  | @answering cs rs m _ r ht h =>
    have hq := (queue_described requests parse).trace ht
    obtain ⟨hpending, hparse⟩ := next_done hq h
    obtain ⟨before, req, hrequests, rfl, _, hlen⟩ := hq.sent
    rw [hpending] at hrequests
    refine ⟨by rw [hrequests], rs, r, rfl, ?_, hq.acknowledged, hparse⟩
    rw [hrequests, hlen]
    simp

/-- What a queue has exposed is the beginning of it, and behind every command but the last is an
acknowledgement. -/
theorem queue_exposed {options : OperationOptions} {op : Operation (Sequence T) T}
    (hop : Operation.fromMachine (queue requests parse) options = .ok op) (calls : List Call) :
    (recorded (sequence T) op calls).commands <+: requests.map Request.command ∧
      ∀ i, i + 1 < (recorded (sequence T) op calls).commands.length →
        ∃ r, (recorded (sequence T) op calls).responses[i]? = some r ∧
          r.status.isSuccess = true := by
  rcases (queue_described requests parse).exposed hop calls with hnil | ⟨rs, m, hrs, hq⟩
  · rw [hnil]
    refine ⟨List.nil_prefix, ?_⟩
    intro i hi
    cases hi
  · obtain ⟨before, req, hrequests, hcs, _, hlen⟩ := hq.sent
    refine ⟨?_, ?_⟩
    · rw [hcs, hrequests]
      refine ⟨m.pending.map Request.command, ?_⟩
      simp
    · intro i hi
      rw [hcs] at hi
      simp only [List.map_append, List.length_append, List.length_map, List.map_cons, List.map_nil,
        List.length_singleton] at hi
      obtain ⟨rest, hrest⟩ := hrs
      have hin : i < rs.length := by omega
      refine ⟨rs[i], ?_, hq.acknowledged _ (List.getElem_mem hin)⟩
      rw [← hrest, List.getElem?_append_left hin, List.getElem?_eq_getElem hin]

/-- Once every request of a queue is answered the outcome is the parser's. -/
theorem queue_answered {options : OperationOptions} {op : Operation (Sequence T) T}
    (hop : Operation.fromMachine (queue requests parse) options = .ok op) {calls : List Call}
    {init : List ResponseData} (hrs : (recorded (sequence T) op calls).responses = init ++ [r])
    (hlen : init.length + 1 = requests.length) :
    Settles (recorded (sequence T) op calls).op (parse r) := by
  apply settles_of_last hop
  · rw [hrs]
    simp
  · intro m ht
    rw [hrs] at ht
    obtain ⟨before, req, hrequests, _, _, hsent⟩ := ((queue_described requests parse).trace ht).sent
    rw [hrequests] at hlen
    simp only [List.length_append, List.length_cons, List.length_nil] at hlen hsent
    omega
  · intro m out ht
    rw [hrs] at ht
    generalize (recorded (sequence T) op calls).commands = cs at ht
    generalize hgiven : init ++ [r] = rs at ht
    cases ht with
    | opening => simp at hgiven
    | @answering _ rs m _ r' ht h =>
      obtain ⟨rfl, hr⟩ := List.append_inj' hgiven rfl
      cases hr
      have hq := (queue_described requests parse).trace ht
      obtain ⟨before, req, hrequests, _, _, hsent⟩ := hq.sent
      have hpending : m.pending = [] := by
        apply List.eq_nil_of_length_eq_zero
        rw [hrequests] at hlen
        simp only [List.length_append, List.length_cons] at hlen
        omega
      rw [next_last hq hpending] at h
      exact (Prod.ext_iff.mp h).1.symm

end runs

/-! ## Typed operations -/

/-- SELECT and one message. -/
def requests (message : Bytes) : List Request := [⟨select, .select⟩, ⟨msg message, .command⟩]

/-- What every run of a typed operation keeps to, whatever it is answered. -/
structure TypedOutcome (message : Bytes) (parse : Bytes → Except Error T)
    (s : Recorded (Sequence T) T) : Prop where
  order : s.commands <+: [select, msg message]
  selected : msg message ∈ s.commands →
    ∃ r, s.responses[0]? = some r ∧ r.status.isSuccess = true
  returned : ∀ value, s.op.output = some value → ∃ r payload,
    s.responses = [r, carried 0x00 payload] ∧ r.status.isSuccess = true ∧
      parse payload = .ok value
  parsed : ∀ r payload e, s.responses = [r, carried 0x00 payload] → parse payload = .error e →
    s.op.state = .failed ∧ s.op.error = some e
  refused : ∀ r status payload, s.responses = [r, carried status payload] → status ≠ 0x00 →
    s.op.state = .failed ∧ s.op.error = some (statusError status)

section typed

variable {message : Bytes} {options : OperationOptions} {parse : CtapResponse → Except Error T}
  {op : Operation (Sequence T) T}

theorem selectThen_eq_ok (h : selectThen message options parse = .ok op) :
    options.Valid ∧ (∀ req ∈ requests message, validateCommand req.command options = .ok ()) ∧
      Operation.fromMachine
        (queue (requests message) fun response => do parse (← splitStatus response)) options =
          .ok op := by
  obtain ⟨o, hvalidate, hstart⟩ := bind_eq_ok.mp h
  obtain ⟨_, _, hstart⟩ := bind_eq_ok.mp hstart
  obtain ⟨_, hselect, hstart⟩ := bind_eq_ok.mp hstart
  obtain ⟨_, hmsg, hstart⟩ := bind_eq_ok.mp hstart
  obtain ⟨hvalid, heq⟩ := validate_eq_ok.mp hvalidate
  rw [heq] at hselect hmsg hstart
  refine ⟨hvalid, ?_, hstart⟩
  intro req hreq
  rcases List.mem_cons.mp hreq with rfl | hreq
  · exact hselect
  · rw [List.mem_singleton.mp hreq]
    exact hmsg

theorem select_ne_msg (message : Bytes) : select ≠ msg message := by
  intro h
  have hcla : (0x00 : UInt8) = 0x80 := congrArg (fun c : LogicalCommand => c.header.cla) h
  exact absurd hcla (by decide)

/-- A typed operation returns only what its parser makes of the payload behind the status zero,
and keeps any other status. -/
theorem typed_outcome {parse : Bytes → Except Error T}
    (hop : selectThen message options (fun response => typed response parse) = .ok op)
    (calls : List Call) : TypedOutcome message parse (recorded (sequence T) op calls) := by
  obtain ⟨_, _, hop⟩ := selectThen_eq_ok hop
  have hparse (status : UInt8) (payload : Bytes) :
      (do typed (← splitStatus (carried status payload)) parse) =
        if status = 0x00 then parse payload else .error (statusError status) := by
    rw [splitStatus_carried]
    change (do (CtapStatus.mk status).ensure .command; parse payload) = _
    rw [ensure_eq]
    split_ifs <;> rfl
  obtain ⟨horder, hacknowledged⟩ := queue_exposed hop calls
  have hanswered {r last : ResponseData}
      (hrs : (recorded (sequence T) op calls).responses = [r, last]) :=
    @queue_answered _ _ _ _ _ _ hop _ [r] hrs rfl
  constructor
  · exact horder
  · intro hmem
    refine hacknowledged 0 ?_
    by_contra hshort
    obtain ⟨rest, hrest⟩ := horder
    generalize (recorded (sequence T) op calls).commands = cs at hmem hshort hrest
    cases cs with
    | nil => cases hmem
    | cons c cs =>
      have hnil : cs = [] := by
        apply List.eq_nil_of_length_eq_zero
        simp only [List.length_cons] at hshort
        omega
      subst hnil
      have hc : c = select := (List.cons.inj hrest).1
      exact select_ne_msg message (hc.symm.trans (List.mem_singleton.mp hmem).symm)
  · intro value hout
    obtain ⟨m, ht⟩ := lastTurn_of_output hop hout
    obtain ⟨_, init, last, hrs, hlen, hsuccess, hlast⟩ := queue_completed ht
    obtain ⟨response, hsplit, htyped⟩ := bind_eq_ok.mp hlast
    obtain ⟨⟨status⟩, payload⟩ := response
    have hcarried := splitStatus_eq_ok.mp hsplit
    subst hcarried
    rw [hparse] at hlast
    obtain ⟨r, rfl⟩ := List.length_eq_one_iff.mp (show init.length = 1 from Nat.succ.inj hlen)
    by_cases hzero : status = 0x00
    · rw [if_pos hzero] at hlast
      subst hzero
      exact ⟨r, payload, hrs, hsuccess r List.mem_cons_self, hlast⟩
    · rw [if_neg hzero] at hlast
      cases hlast
  · intro r payload e hrs he
    exact (hanswered hrs).error e ((hparse 0x00 payload).trans he)
  · intro r status payload hrs hstatus
    refine (hanswered hrs).error _ ((hparse status payload).trans ?_)
    rw [if_neg hstatus]

/-- A reset that the authenticator does not allow. -/
theorem typed_outcome_refused : ∃ op,
    selectThen [0x07] {} (fun r => typed r emptyPayload) = .ok op ∧
    TypedOutcome [0x07] emptyPayload
      (recorded (sequence Unit) op [.start, .advance [0x90, 0x00], .advance [0x30, 0x90, 0x00]]) ∧
    (recorded (sequence Unit) op
      [.start, .advance [0x90, 0x00], .advance [0x30, 0x90, 0x00]]).op.error =
        some (statusError 0x30) :=
  ⟨_, rfl, @typed_outcome Unit [0x07] {} _ emptyPayload rfl _, rfl⟩

end typed

/-! ## On a card -/

/-- The limits by default accept a message of a few thousand bytes. -/
theorem selectThen_accepted {message : Bytes} (hne : message ≠ []) (hlen : message.length ≤ 2500)
    (parse : CtapResponse → Except Error T) : ∃ op, selectThen message {} parse = .ok op := by
  have hvalid : ({} : OperationOptions).Valid := by constructor <;> decide
  have hmsg : validateCommand (msg message) {} = .ok () := by
    refine validateCommand_eq_ok.mpr ⟨hvalid, (new_iff hvalid).mpr ?_⟩
    have hinput : message.length ≤ 1024 * 1024 := by omega
    refine ⟨rfl, hinput, trivial, .absent, rfl, Or.inr ⟨trivial, Or.inr ?_⟩⟩
    have hcla : (0x80 : UInt8) &&& 0x10 = 0 := by decide
    refine ⟨rfl, by decide, hcla, Nat.le_trans (divCeil_mono hlen 255) (by decide)⟩
  have hselect : validateCommand select {} = .ok () := by
    refine validateCommand_eq_ok.mpr ⟨hvalid, (new_iff hvalid).mpr ?_⟩
    exact ⟨rfl, by decide, trivial, .absent, rfl, Or.inr ⟨trivial, Or.inl (Or.inr (by decide))⟩⟩
  have hchecked : checkedMessage message {} = .ok () := by
    have hinput : ¬ message.length > 1024 * 1024 := by omega
    rw [checkedMessage, if_neg hne]
    exact if_neg hinput
  have hfrom (m : Sequence T) :
      ∃ op : Operation (Sequence T) T, Operation.fromMachine m {} = .ok op := ⟨_, rfl⟩
  obtain ⟨op, hop⟩ := hfrom ⟨[⟨select, .select⟩, ⟨msg message, .command⟩], none,
    some fun response => do parse (← splitStatus response)⟩
  refine ⟨op, ?_⟩
  refine bind_eq_ok.mpr ⟨{}, validate_eq_ok.mpr ⟨hvalid, rfl⟩, ?_⟩
  refine bind_eq_ok.mpr ⟨(), hchecked, ?_⟩
  refine bind_eq_ok.mpr ⟨(), hselect, ?_⟩
  exact bind_eq_ok.mpr ⟨(), hmsg, hop⟩

/-- An operation ends in one way. -/
theorem ends_unique {σ : Type} {op : Operation σ T} {out out' : Except Error T}
    (h : Ends op out) (h' : Ends op out') : out = out' := by
  cases out with
  | ok value =>
    cases out' with
    | ok value' =>
      have hsame := h.2.symm.trans h'.2
      cases hsame
      rfl
    | error err =>
      have hstate := h.1.symm.trans h'.1
      cases hstate
  | error err =>
    cases out' with
    | ok value =>
      have hstate := h.1.symm.trans h'.1
      cases hstate
    | error err' =>
      have hsame := h.2.symm.trans h'.2
      cases hsame
      rfl

section card

variable {κ : Type*}

/-- An applet that is selected by its AID and answers messages. -/
def messageApplet (respond : κ → Bytes → Bytes × κ) : Applet κ := fun a command =>
  if command.header.ins = 0xa4 then
    (⟨[], ⟨if command.data = fido2Aid then 0x9000 else 0x6a82⟩⟩, a)
  else if command.header.cla = 0x80 ∧ command.header.ins = 0x10 then
    (⟨(respond a command.data).1, ⟨0x9000⟩⟩, (respond a command.data).2)
  else (⟨[], ⟨0x6d00⟩⟩, a)

theorem messageApplet_msg (respond : κ → Bytes → Bytes × κ) (a : κ) (message : Bytes) :
    messageApplet respond a ⟨(msg message).header, (msg message).data, (msg message).le⟩ =
      (⟨(respond a message).1, ⟨0x9000⟩⟩, (respond a message).2) := rfl

/-- The limits leave room for a message and its answer. -/
structure Room (options : OperationOptions) (message answer : Bytes) : Prop where
  exchanges : exchangesOf options select 0 + exchangesOf options (msg message) answer.length ≤
    options.limits.maxExchanges
  bytes : answer.length ≤ min usizeMax options.limits.maxTotalResponseBytes
  page : min answer.length 256 + 2 ≤ options.exchange.maxResponseBytes

/-- The limits leave room for every message of so many bytes and a short answer. -/
def Ample (options : OperationOptions) (n : ℕ) : Prop :=
  ∀ message answer : Bytes, message ≠ [] → message.length ≤ n → answer.length ≤ 512 →
    Room options message answer

theorem ample_default : Ample {} 2500 := by
  intro message answer hne hlen hanswer
  have hselect : exchangesOf {} select 0 = 1 := by decide
  have hmsg : exchangesOf {} (msg message) answer.length ≤ 11 := by
    have hpages : divCeil (answer.length - 256) 256 ≤ 1 :=
      divCeil_mono (show answer.length - 256 ≤ 256 by omega) 256
    rw [exchangesOf]
    apply Nat.add_le_add ?_ hpages
    cases hk : ConversationState.new (msg message) {} with
    | error e => exact Nat.zero_le _
    | ok k =>
      have hchain : divCeil message.length (maxShort {}) ≤ 10 := divCeil_mono hlen 255
      dsimp only
      rw [length_frames hne hk]
      unfold framesOf
      split
      · decide
      · exact hchain
  refine ⟨?_, ?_, ?_⟩
  · rw [hselect]
    exact Nat.le_trans (Nat.add_le_add_left hmsg 1) (by decide)
  · exact Nat.le_trans hanswer (by decide)
  · exact Nat.add_le_add_right (Nat.min_le_right _ _) 2

variable {respond : κ → Bytes → Bytes × κ} {a : κ} {message : Bytes} {options : OperationOptions}
  {parse : CtapResponse → Except Error T} {op : Operation (Sequence T) T}

/-- Whatever the channel cuts the message and its answer into, the applet is given the message
once and the parser what the applet answered. -/
theorem selectThen_execute (hop : selectThen message options parse = .ok op)
    (hroom : Room options message (respond a message).1) :
    Ends (execute (sequence T) (messageApplet respond) op a).1
        (do parse (← splitStatus ⟨(respond a message).1, ⟨0x9000⟩⟩)) ∧
      (execute (sequence T) (messageApplet respond) op a).2 = (respond a message).2 := by
  obtain ⟨hvalid, haccepted, hfrom⟩ := selectThen_eq_ok hop
  have hresponse := hvalid.response
  have hnew (req : Request) (hreq : req ∈ requests message) :
      ∃ k, ConversationState.new req.command options = .ok k :=
    (validateCommand_eq_ok.mp (haccepted req hreq)).2
  have hselected : messageApplet respond a ⟨select.header, select.data, select.le⟩ =
      (⟨[], ⟨0x9000⟩⟩, a) := rfl
  obtain ⟨k, hselect⟩ := select_relayed.answers rfl (hnew ⟨select, .select⟩ List.mem_cons_self)
    hselected (by simp only [List.length_nil]; omega) rfl
  obtain ⟨k', hmsg⟩ := (msg_relayed message).answers rfl
    (hnew ⟨msg message, .command⟩ (List.mem_cons_of_mem _ List.mem_cons_self))
    (messageApplet_msg respond a message) hroom.page rfl
  have hopens : (sequence T).next (queue (requests message) fun response => do
      parse (← splitStatus response)) none = (.ok (.command select),
        ⟨[⟨msg message, .command⟩], some .select,
          some fun response => do parse (← splitStatus response)⟩) := rfl
  have hlast : Served (sequence T) (messageApplet respond) options
      ⟨[], some .command, some fun response => do parse (← splitStatus response)⟩ a (msg message)
      (exchangesOf options (msg message) (respond a message).1.length)
      (respond a message).1.length
      (do parse (← splitStatus ⟨(respond a message).1, ⟨0x9000⟩⟩)) (respond a message).2 := by
    cases hp : (do parse (← splitStatus ⟨(respond a message).1, ⟨0x9000⟩⟩)) with
    | ok value =>
      have hnext : (sequence T).next ⟨[], some .command, some fun response => do
          parse (← splitStatus response)⟩ (some ⟨(respond a message).1, ⟨0x9000⟩⟩) =
            (.ok (.done value), ⟨[], some .command, none⟩) := by
        simp only [CtapMessage.sequence, Sequence.next, Sequence.finish, if_true, hp, Except.map]
      exact .done hmsg hnext
    | error e =>
      have hnext : (sequence T).next ⟨[], some .command, some fun response => do
          parse (← splitStatus response)⟩ (some ⟨(respond a message).1, ⟨0x9000⟩⟩) =
            (.error e, ⟨[], some .command, none⟩) := by
        simp only [CtapMessage.sequence, Sequence.next, Sequence.finish, if_true, hp, Except.map]
      exact .failed hmsg hnext
  have hgoes : (sequence T).next ⟨[⟨msg message, .command⟩], some .select,
      some fun response => do parse (← splitStatus response)⟩ (some ⟨[], ⟨0x9000⟩⟩) =
        (.ok (.command (msg message)),
          ⟨[], some .command, some fun response => do parse (← splitStatus response)⟩) := rfl
  have hserved := Served.more hselect hgoes hlast
  have hbytes := hroom.bytes
  apply execute_served hfrom hopens hserved hroom.exchanges
  simp only [List.length_nil, Nat.zero_add]
  exact hbytes

/-- A raw message reaches the applet once, and what it answers is its status and payload. -/
theorem transceive_lossless {op : Operation (Sequence CtapResponse) CtapResponse}
    (hop : transceive message options = .ok op)
    (hroom : Room options message (respond a message).1) :
    Ends (execute (sequence CtapResponse) (messageApplet respond) op a).1
        (match (respond a message).1 with
          | [] => .error invalid
          | status :: payload => .ok ⟨⟨status⟩, payload⟩) ∧
      (execute (sequence CtapResponse) (messageApplet respond) op a).2 = (respond a message).2 := by
  obtain ⟨hends, hafter⟩ := selectThen_execute hop hroom
  refine ⟨?_, hafter⟩
  cases hanswer : (respond a message).1 with
  | nil =>
    rw [hanswer] at hends
    exact hends
  | cons status payload =>
    rw [hanswer] at hends
    exact hends

/-- A message in three frames, answered in two pages. -/
theorem transceive_lossless_chained : ∃ op,
    transceive (List.replicate 600 5) {} = .ok op ∧
      Ends (execute (sequence CtapResponse) (messageApplet fun n message =>
          (0x00 :: message.take 300, n + message.length)) op 0).1
        (.ok ⟨⟨0x00⟩, List.replicate 300 5⟩) ∧
      (execute (sequence CtapResponse) (messageApplet fun n message =>
          (0x00 :: message.take 300, n + message.length)) op 0).2 = 600 := by
  have hlen : (List.replicate 600 (5 : UInt8)).length ≤ 2500 := by
    rw [List.length_replicate]
    decide
  have hmessage : List.replicate 600 (5 : UInt8) ≠ [] := by
    apply List.ne_nil_of_length_pos
    rw [List.length_replicate]
    decide
  have htake : (List.replicate 600 (5 : UInt8)).take 300 = List.replicate 300 5 := by
    rw [List.take_replicate]
    rfl
  have hanswer : (0x00 :: (List.replicate 600 (5 : UInt8)).take 300).length ≤ 512 := by
    rw [htake, List.length_cons, List.length_replicate]
    decide
  obtain ⟨op, hop⟩ := selectThen_accepted hmessage hlen Except.ok
  obtain ⟨hends, hafter⟩ := @transceive_lossless ℕ
    (fun n message => (0x00 :: message.take 300, n + message.length)) 0 _ _ op hop
    (ample_default _ _ hmessage hlen hanswer)
  refine ⟨op, hop, ?_, ?_⟩
  · rw [← htake]
    exact hends
  · rw [hafter, List.length_replicate]

end card

end CtapEnvelope
