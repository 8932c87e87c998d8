import LibCanokey.ListTraversal
import LibCanokey.ProtocolApdu
import LibCanokey.ScriptedRuns

/-! # Bounded logical-command conversations

One logical command becomes physical frames, a 6Cxx correction and the ISO or OATH
continuation commands. The state is dropped by its owner after an error, so `advance`
returns no state then. -/
namespace ProtocolConversation

open BigEndian ListTraversal ProtocolError ProtocolApdu

structure ExchangeOptions where
  maxCommandBytes : ℕ := 261
  maxResponseBytes : ℕ := 258
  allowExtended : Bool := false
  deriving DecidableEq, Repr

structure OperationLimits where
  maxTotalResponseBytes : ℕ := 1024 * 1024
  maxExchanges : ℕ := 4096
  maxInputBytes : ℕ := 1024 * 1024
  deriving DecidableEq, Repr

structure OperationOptions where
  exchange : ExchangeOptions := {}
  limits : OperationLimits := {}
  deriving DecidableEq, Repr

def OperationOptions.validate (o : OperationOptions) : Except Error OperationOptions :=
  if o.exchange.maxCommandBytes < 5 ∨ o.exchange.maxResponseBytes < 3 ∨
      o.limits.maxExchanges = 0 ∨ o.limits.maxTotalResponseBytes = 0 ∨
      o.limits.maxInputBytes = 0 then
    .error (.new .invalidArgument)
  else .ok o

inductive Continuation where
  | oath (instruction : UInt8) (probeAfterSuccess : Bool)
  | iso7816 (cla : UInt8)
  | none
  deriving DecidableEq, Repr

def Continuation.isIso : Continuation → Bool
  | .iso7816 _ => true
  | _ => false

def Continuation.instructionAllowed : Continuation → Bool
  | .oath instruction _ => instruction == 0x06 || instruction == 0xa5
  | _ => true

structure LogicalCommand where
  header : ApduHeader
  data : Bytes
  le : ExpectedLength
  allowChaining : Bool := false
  allowExtended : Bool := false
  correctLe : Bool := false
  continuation : Continuation := .iso7816 0
  deriving DecidableEq, Repr

structure ResponseData where
  data : Bytes
  status : StatusWord
  deriving DecidableEq, Repr

def ResponseData.ensureSuccess (r : ResponseData) (phase : Phase) : Except Error Unit :=
  if r.status.isSuccess then .ok () else .error (.status r.status phase none)

structure ConversationState where
  pending : List CommandApdu
  current : CommandApdu
  corrected : Bool
  correctLe : Bool
  continuation : Continuation
  continuing : Bool
  oathPoll : Bool
  data : Bytes
  deriving DecidableEq, Repr

/-- The physical commands still to be exposed, the current one first. -/
def ConversationState.frames (c : ConversationState) : List CommandApdu :=
  c.current :: c.pending

def limitExceeded : Error := .new .limitExceeded

def conversationError (kind : ErrorKind) : Error := (Error.new kind).atPhase .conversation

/-- The clamp of an exact Le to the channel; anything else is refused or unchanged. -/
def clampLe (logical : LogicalCommand) (options : OperationOptions) :
    Except Error ExpectedLength :=
  match logical.le with
  | .absent => .ok .absent
  | .exact n =>
    if n > options.exchange.maxResponseBytes - 2 then
      if logical.continuation.isIso ∧ logical.correctLe then
        .ok (.exact ((options.exchange.maxResponseBytes - 2) % 2 ^ 32))
      else .error limitExceeded
    else .ok (.exact n)

/-- Six bytes are reserved so that any fragment fits with a header, Lc and Le. -/
def maxShort (options : OperationOptions) : ℕ := min (options.exchange.maxCommandBytes - 6) 255

/-- At most one extended frame, when permitted, encodable and small enough. -/
def extendedFrames (logical : LogicalCommand) (options : OperationOptions) :
    Except Error (List CommandApdu) :=
  if (logical.allowExtended ∧ options.exchange.allowExtended) ∧ logical.data.length ≤ 65535 then
    (CommandApdu.encode logical.header logical.data logical.le .extended).map fun cmd =>
      if cmd.bytes.length ≤ options.exchange.maxCommandBytes then [cmd] else []
  else .ok []

def ExpectedLength.exceeds (bound : ℕ) : ExpectedLength → Bool
  | .absent => false
  | .exact n => n > bound

def chainHeader (header : ApduHeader) (last : Bool) : ApduHeader :=
  if last then header else { header with cla := header.cla ||| 0x10 }

def chainFrame (logical : LogicalCommand) (count : ℕ) (chunk : Bytes × ℕ) :
    Except Error CommandApdu :=
  let last := chunk.2 + 1 == count
  CommandApdu.encode (chainHeader logical.header last) chunk.1
    (if last then logical.le else .absent) .short

def shortFrames (logical : LogicalCommand) (options : OperationOptions) :
    Except Error (List CommandApdu) :=
  if ExpectedLength.exceeds 256 logical.le then .error limitExceeded
  else if logical.data = [] ∨ logical.data.length ≤ maxShort options then
    (CommandApdu.encode logical.header logical.data logical.le .short).map ([·])
  else if ¬ logical.allowChaining ∨ maxShort options = 0 ∨ logical.header.cla &&& 0x10 ≠ 0 then
    .error limitExceeded
  else
    let count := divCeil logical.data.length (maxShort options)
    if count > options.limits.maxExchanges then .error limitExceeded
    else (chunks (maxShort options) count logical.data).zipIdx.mapM (chainFrame logical count)

def physicalFrames (logical : LogicalCommand) (options : OperationOptions) :
    Except Error (List CommandApdu) := do
  let extended ← extendedFrames logical options
  if extended = [] then shortFrames logical options else .ok extended

def ConversationState.initial (logical : LogicalCommand) (current : CommandApdu)
    (pending : List CommandApdu) : ConversationState :=
  { pending := pending
    current := current
    corrected := false
    correctLe := logical.correctLe
    continuation := logical.continuation
    continuing := false
    oathPoll := false
    data := [] }

def ConversationState.new (logical : LogicalCommand) (options : OperationOptions) :
    Except Error ConversationState :=
  if ¬ logical.continuation.instructionAllowed then .error (.new .invalidArgument)
  else if logical.data.length > options.limits.maxInputBytes then .error limitExceeded
  else if ¬ logical.le.InRange 65536 then .error (.new .invalidArgument)
  else do
    let le ← clampLe logical options
    match ← physicalFrames { logical with le := le } options with
    | [] => .error (.new .protocolViolation)
    | current :: pending =>
      if current.bytes.length > options.exchange.maxCommandBytes then .error limitExceeded
      else .ok (.initial logical current pending)

/-- The length announced in SW2 of 61xx and 6Cxx. -/
def requestedLe (sw : UInt16) : ℕ := if sw &&& 255 = 0 then 256 else (sw &&& 255).toNat

def is61 (sw : UInt16) : Bool := sw >>> 8 == 0x61
def is6c (sw : UInt16) : Bool := sw >>> 8 == 0x6c

def ConversationState.correctable (c : ConversationState) (sw : UInt16) : Bool :=
  is6c sw && c.correctLe && c.pending.isEmpty && !c.corrected

def ConversationState.correct (c : ConversationState) (sw : UInt16)
    (options : OperationOptions) : Except Error (Option ResponseData × ConversationState) :=
  if requestedLe sw > options.exchange.maxResponseBytes - 2 then
    .error (conversationError .limitExceeded)
  else do
    let current ← c.current.corrected (requestedLe sw)
    if current.bytes.length > options.exchange.maxCommandBytes then
      .error (conversationError .limitExceeded)
    else .ok (none, { c with current := current, corrected := true })

def ConversationState.acknowledge (c : ConversationState) (response : ResponseApdu) :
    Except Error (Option ResponseData × ConversationState) :=
  if ¬ response.status.isSuccess then .error (.status response.status .conversation none)
  else if response.data ≠ [] then .error (conversationError .protocolViolation)
  else match c.pending with
    | [] => .error (.new .protocolViolation)
    | next :: rest =>
      .ok (none, { c with current := next, pending := rest, corrected := false })

def ConversationState.finish (c : ConversationState) (response : ResponseApdu) :
    Except Error (Option ResponseData × ConversationState) :=
  .ok (some ⟨c.data ++ response.data, response.status⟩, { c with data := [] })

def morePages (probeAfterSuccess : Bool) (response : ResponseApdu) : Bool :=
  is61 response.status.raw ||
    (probeAfterSuccess && response.status.raw == 0x9000 && !response.data.isEmpty)

def ConversationState.sendRemaining (c : ConversationState) (instruction : UInt8)
    (response : ResponseApdu) (options : OperationOptions) :
    Except Error (Option ResponseData × ConversationState) :=
  if response.data = [] then .error (conversationError .protocolViolation)
  else do
    let current ← CommandApdu.encode ⟨0, instruction, 0, 0⟩ []
      (.exact (min 255 (options.exchange.maxResponseBytes - 2))) .short
    .ok (none,
      { c with
        data := c.data ++ response.data
        oathPoll := response.status.raw == 0x9000
        current := current
        corrected := false
        correctLe := false })

def ConversationState.getResponse (c : ConversationState) (cla : UInt8)
    (response : ResponseApdu) (options : OperationOptions) :
    Except Error (Option ResponseData × ConversationState) :=
  if c.continuing ∧ response.data = [] then .error (conversationError .protocolViolation)
  else do
    let current ← CommandApdu.encode ⟨cla, 0xc0, 0, 0⟩ []
      (.exact (min (requestedLe response.status.raw) (options.exchange.maxResponseBytes - 2)))
      .short
    .ok (none,
      { c with
        data := c.data ++ response.data
        continuing := true
        current := current
        corrected := false
        correctLe := true })

/-- The continuation policy, once every frame is acknowledged. -/
def ConversationState.proceed (options : OperationOptions) (c : ConversationState)
    (response : ResponseApdu) : Except Error (Option ResponseData × ConversationState) :=
  match c.continuation with
  | .oath instruction probeAfterSuccess =>
    if c.oathPoll ∧ response.status.raw = 0x6985 ∧ response.data = [] then
      .ok (some ⟨c.data, ⟨0x9000⟩⟩, { c with data := [] })
    else if morePages probeAfterSuccess response then
      c.sendRemaining instruction response options
    else c.finish response
  | .iso7816 cla =>
    if is61 response.status.raw then c.getResponse cla response options
    else c.finish response
  | .none => c.finish response

def ConversationState.advance (options : OperationOptions) (c : ConversationState)
    (response : ResponseApdu) : Except Error (Option ResponseData × ConversationState) :=
  if c.correctable response.status.raw then c.correct response.status.raw options
  else if c.pending ≠ [] then c.acknowledge response
  else c.proceed options response

theorem ensureSuccess_eq_ok {r : ResponseData} {phase : Phase} {u : Unit} :
    r.ensureSuccess phase = .ok u ↔ r.status.isSuccess = true := by
  simp only [ResponseData.ensureSuccess]
  split_ifs with h <;> simp [h]

structure OperationOptions.Valid (o : OperationOptions) : Prop where
  command : 5 ≤ o.exchange.maxCommandBytes
  response : 3 ≤ o.exchange.maxResponseBytes
  exchanges : 0 < o.limits.maxExchanges
  total : 0 < o.limits.maxTotalResponseBytes
  input : 0 < o.limits.maxInputBytes

theorem validate_eq_ok {o o' : OperationOptions} :
    o.validate = .ok o' ↔ o.Valid ∧ o' = o := by
  simp only [OperationOptions.validate]
  split_ifs with h
  · constructor
    · intro he; cases he
    · rintro ⟨⟨hc, hr, he, ht, hi⟩, _⟩
      omega
  · push Not at h
    obtain ⟨hc, hr, he, ht, hi⟩ := h
    constructor
    · intro ho
      exact ⟨⟨hc, hr, by omega, by omega, by omega⟩, (Except.ok.inj ho).symm⟩
    · rintro ⟨_, rfl⟩; rfl

/-- How a conversation can go on after a response; every new current command is here. -/
inductive Goes (options : OperationOptions) (c : ConversationState) (r : ResponseApdu) :
    ConversationState → Prop where
  | corrected (current : CommandApdu) (hsw : is6c r.status.raw = true)
      (hle : c.correctLe = true) (hp : c.pending = []) (hc : c.corrected = false)
      (hfit : requestedLe r.status.raw ≤ options.exchange.maxResponseBytes - 2)
      (hcur : c.current.corrected (requestedLe r.status.raw) = .ok current)
      (hlen : current.bytes.length ≤ options.exchange.maxCommandBytes) :
      Goes options c r { c with current := current, corrected := true }
  | acknowledged (next : CommandApdu) (rest : List CommandApdu)
      (hp : c.pending = next :: rest) (hr : r = ⟨[], ⟨0x9000⟩⟩) :
      Goes options c r { c with current := next, pending := rest, corrected := false }
  | sentRemaining (instruction : UInt8) (probe : Bool) (current : CommandApdu)
      (hp : c.pending = []) (hcont : c.continuation = .oath instruction probe)
      (hmore : morePages probe r = true) (hd : r.data ≠ [])
      (hcur : CommandApdu.encode ⟨0, instruction, 0, 0⟩ []
        (.exact (min 255 (options.exchange.maxResponseBytes - 2))) .short = .ok current) :
      Goes options c r
        { c with
          data := c.data ++ r.data
          oathPoll := r.status.raw == 0x9000
          current := current
          corrected := false
          correctLe := false }
  | gotResponse (cla : UInt8) (current : CommandApdu)
      (hp : c.pending = []) (hcont : c.continuation = .iso7816 cla)
      (hsw : is61 r.status.raw = true) (hd : c.continuing = true → r.data ≠ [])
      (hcur : CommandApdu.encode ⟨cla, 0xc0, 0, 0⟩ []
        (.exact (min (requestedLe r.status.raw) (options.exchange.maxResponseBytes - 2)))
        .short = .ok current) :
      Goes options c r
        { c with
          data := c.data ++ r.data
          continuing := true
          current := current
          corrected := false
          correctLe := true }

theorem is61_not_6c {sw : UInt16} (h : is61 sw = true) : is6c sw = false := by
  simp only [is61, is6c, beq_iff_eq, beq_eq_false_iff_ne] at *
  rw [h]
  decide

theorem morePages_not_6c {probe : Bool} {r : ResponseApdu} (h : morePages probe r = true) :
    is6c r.status.raw = false := by
  simp only [morePages, Bool.or_eq_true, Bool.and_eq_true, beq_iff_eq] at h
  rcases h with h | ⟨⟨_, h⟩, _⟩
  · exact is61_not_6c h
  · rw [h]; decide

theorem morePages_not_6985 {probe : Bool} {r : ResponseApdu} (h : morePages probe r = true) :
    r.status.raw ≠ 0x6985 := by
  intro hs
  have h61 : is61 0x6985 = false := by decide
  simp [morePages, hs, h61] at h

theorem correctable_eq_true {c : ConversationState} {sw : UInt16} :
    c.correctable sw = true ↔
      is6c sw = true ∧ c.correctLe = true ∧ c.pending = [] ∧ c.corrected = false := by
  simp [ConversationState.correctable, and_assoc]

theorem correct_eq_ok {c c' : ConversationState} {sw : UInt16} {options : OperationOptions}
    {o : Option ResponseData} :
    c.correct sw options = .ok (o, c') ↔
      o = none ∧ requestedLe sw ≤ options.exchange.maxResponseBytes - 2 ∧
      ∃ current, c.current.corrected (requestedLe sw) = .ok current ∧
        current.bytes.length ≤ options.exchange.maxCommandBytes ∧
        c' = { c with current := current, corrected := true } := by
  simp only [ConversationState.correct]
  split_ifs with hfit
  · constructor
    · intro h; cases h
    · rintro ⟨_, hle, _⟩; omega
  · rw [bind_eq_ok]
    constructor
    · rintro ⟨current, hcur, h⟩
      split_ifs at h with hlen
      · cases h
        exact ⟨rfl, by omega, current, hcur, by omega, rfl⟩
    · rintro ⟨rfl, _, current, hcur, hlen, rfl⟩
      exact ⟨current, hcur, if_neg (by omega)⟩

theorem acknowledge_eq_ok {c c' : ConversationState} {r : ResponseApdu}
    {o : Option ResponseData} (hp : c.pending ≠ []) :
    c.acknowledge r = .ok (o, c') ↔
      o = none ∧ r = ⟨[], ⟨0x9000⟩⟩ ∧ ∃ next rest, c.pending = next :: rest ∧
        c' = { c with current := next, pending := rest, corrected := false } := by
  simp only [ConversationState.acknowledge]
  obtain ⟨data, ⟨raw⟩⟩ := r
  cases hc : c.pending with
  | nil => exact absurd hc hp
  | cons next rest =>
    by_cases hr : raw = 0x9000 ∧ data = []
    · obtain ⟨rfl, rfl⟩ := hr
      constructor
      · intro h
        cases h
        exact ⟨rfl, rfl, next, rest, rfl, rfl⟩
      · rintro ⟨rfl, _, n, t, hn, rfl⟩
        cases hn
        rfl
    · constructor
      · intro h
        split_ifs at h with hs hd
        simp only [StatusWord.isSuccess, beq_iff_eq, not_not] at hs hd
        exact absurd ⟨hs, hd⟩ hr
      · rintro ⟨_, h, _⟩
        cases h
        exact absurd ⟨rfl, rfl⟩ hr

theorem sendRemaining_eq_ok {c c' : ConversationState} {i : UInt8} {r : ResponseApdu}
    {options : OperationOptions} {o : Option ResponseData} :
    c.sendRemaining i r options = .ok (o, c') ↔
      o = none ∧ r.data ≠ [] ∧ ∃ current,
        CommandApdu.encode ⟨0, i, 0, 0⟩ []
          (.exact (min 255 (options.exchange.maxResponseBytes - 2))) .short = .ok current ∧
        c' = { c with
          data := c.data ++ r.data
          oathPoll := r.status.raw == 0x9000
          current := current
          corrected := false
          correctLe := false } := by
  simp only [ConversationState.sendRemaining]
  split_ifs with hd
  · constructor
    · intro h; cases h
    · rintro ⟨_, h, _⟩; exact absurd hd h
  · rw [bind_eq_ok]
    constructor
    · rintro ⟨current, hcur, h⟩
      cases h
      exact ⟨rfl, hd, current, hcur, rfl⟩
    · rintro ⟨rfl, _, current, hcur, rfl⟩
      exact ⟨current, hcur, rfl⟩

theorem getResponse_eq_ok {c c' : ConversationState} {cla : UInt8} {r : ResponseApdu}
    {options : OperationOptions} {o : Option ResponseData} :
    c.getResponse cla r options = .ok (o, c') ↔
      o = none ∧ (c.continuing = true → r.data ≠ []) ∧ ∃ current,
        CommandApdu.encode ⟨cla, 0xc0, 0, 0⟩ []
          (.exact (min (requestedLe r.status.raw) (options.exchange.maxResponseBytes - 2)))
          .short = .ok current ∧
        c' = { c with
          data := c.data ++ r.data
          continuing := true
          current := current
          corrected := false
          correctLe := true } := by
  simp only [ConversationState.getResponse]
  split_ifs with hd
  · constructor
    · intro h; cases h
    · rintro ⟨_, h, _⟩; exact absurd hd.2 (h hd.1)
  · rw [bind_eq_ok]
    constructor
    · rintro ⟨current, hcur, h⟩
      cases h
      exact ⟨rfl, fun hc hn => hd ⟨hc, hn⟩, current, hcur, rfl⟩
    · rintro ⟨rfl, _, current, hcur, rfl⟩
      exact ⟨current, hcur, rfl⟩

section policy

variable {options : OperationOptions} {c c' : ConversationState} {r : ResponseApdu}

theorem proceed_oath {i : UInt8} {probe : Bool} (h : c.continuation = .oath i probe) :
    c.proceed options r =
      if c.oathPoll ∧ r.status.raw = 0x6985 ∧ r.data = [] then
        .ok (some ⟨c.data, ⟨0x9000⟩⟩, { c with data := [] })
      else if morePages probe r then c.sendRemaining i r options
      else c.finish r := by
  cases c; cases h; rfl

theorem proceed_iso {cla : UInt8} (h : c.continuation = .iso7816 cla) :
    c.proceed options r =
      if is61 r.status.raw then c.getResponse cla r options else c.finish r := by
  cases c; cases h; rfl

theorem proceed_none (h : c.continuation = .none) : c.proceed options r = c.finish r := by
  cases c; cases h; rfl

theorem advance_correctable (h : c.correctable r.status.raw = true) :
    c.advance options r = c.correct r.status.raw options := if_pos h

theorem advance_pending (h : c.pending ≠ []) : c.advance options r = c.acknowledge r := by
  have hc : ¬ c.correctable r.status.raw = true := fun hc => h (correctable_eq_true.mp hc).2.2.1
  rw [ConversationState.advance, if_neg hc, if_pos h]

theorem advance_proceed (hc : c.correctable r.status.raw = false) (h : c.pending = []) :
    c.advance options r = c.proceed options r := by
  rw [ConversationState.advance, if_neg (by simp [hc]), if_neg (not_not.mpr h)]

theorem not_correctable_of_not_6c {sw : UInt16} (h : is6c sw = false) :
    c.correctable sw = false := by
  simp [ConversationState.correctable, h]

theorem Continuation.shape (k : Continuation) :
    (∃ i probe, k = .oath i probe) ∨ (∃ cla, k = .iso7816 cla) ∨ k = .none := by
  cases k with
  | oath i probe => exact Or.inl ⟨i, probe, rfl⟩
  | iso7816 cla => exact Or.inr (Or.inl ⟨cla, rfl⟩)
  | none => exact Or.inr (Or.inr rfl)

/-- `advance` goes on exactly along `Goes`. -/
theorem advance_goes : c.advance options r = .ok (none, c') ↔ Goes options c r c' := by
  constructor
  · intro h
    by_cases hc : c.correctable r.status.raw = true
    · rw [advance_correctable hc] at h
      obtain ⟨hsw, hle, hp, hcc⟩ := correctable_eq_true.mp hc
      obtain ⟨_, hfit, current, hcur, hlen, rfl⟩ := correct_eq_ok.mp h
      exact .corrected current hsw hle hp hcc hfit hcur hlen
    by_cases hp : c.pending = []
    · rw [advance_proceed (by simpa using hc) hp] at h
      cases hcont : c.continuation with
      | oath i probe =>
        rw [proceed_oath hcont] at h
        split_ifs at h with hpoll hmore
        · cases h
        · obtain ⟨_, hd, current, hcur, rfl⟩ := sendRemaining_eq_ok.mp h
          exact .sentRemaining i probe current hp hcont hmore hd hcur
        · cases h
      | iso7816 cla =>
        rw [proceed_iso hcont] at h
        split_ifs at h with hsw
        · obtain ⟨_, hd, current, hcur, rfl⟩ := getResponse_eq_ok.mp h
          exact .gotResponse cla current hp hcont hsw hd hcur
        · cases h
      | none =>
        rw [proceed_none hcont] at h
        cases h
    · rw [advance_pending hp] at h
      obtain ⟨_, hr, next, rest, hn, rfl⟩ := (acknowledge_eq_ok hp).mp h
      exact .acknowledged next rest hn hr
  · intro h
    cases h with
    | corrected current hsw hle hp hc hfit hcur hlen =>
      rw [advance_correctable (correctable_eq_true.mpr ⟨hsw, hle, hp, hc⟩)]
      exact correct_eq_ok.mpr ⟨rfl, hfit, current, hcur, hlen, rfl⟩
    | acknowledged next rest hp hr =>
      have hne : c.pending ≠ [] := by simp [hp]
      rw [advance_pending hne]
      exact (acknowledge_eq_ok hne).mpr ⟨rfl, hr, next, rest, hp, rfl⟩
    | sentRemaining i probe current hp hcont hmore hd hcur =>
      rw [advance_proceed (not_correctable_of_not_6c (morePages_not_6c hmore)) hp,
        proceed_oath hcont, if_neg (fun hpoll => morePages_not_6985 hmore hpoll.2.1),
        if_pos hmore]
      exact sendRemaining_eq_ok.mpr ⟨rfl, hd, current, hcur, rfl⟩
    | gotResponse cla current hp hcont hsw hd hcur =>
      rw [advance_proceed (not_correctable_of_not_6c (is61_not_6c hsw)) hp,
        proceed_iso hcont, if_pos hsw]
      exact getResponse_eq_ok.mpr ⟨rfl, hd, current, hcur, rfl⟩

theorem response_ext_iff {data : Bytes} {sw : UInt16} :
    r = ⟨data, ⟨sw⟩⟩ ↔ r.status.raw = sw ∧ r.data = data := by
  obtain ⟨d, ⟨raw⟩⟩ := r
  simp [and_comm]

/-- The two ways a conversation returns. -/
inductive Finishes (c : ConversationState) (r : ResponseApdu) : ResponseData → Prop where
  | polled (i : UInt8) (probe : Bool) (hp : c.pending = [])
      (hcont : c.continuation = .oath i probe) (hpoll : c.oathPoll = true)
      (hr : r = ⟨[], ⟨0x6985⟩⟩) : Finishes c r ⟨c.data, ⟨0x9000⟩⟩
  | final (hp : c.pending = []) (hc : c.correctable r.status.raw = false)
      (hpoll : ∀ i probe, c.continuation = .oath i probe → c.oathPoll = true →
        r ≠ ⟨[], ⟨0x6985⟩⟩)
      (hmore : ∀ i probe, c.continuation = .oath i probe → morePages probe r = false)
      (hiso : ∀ cla, c.continuation = .iso7816 cla → is61 r.status.raw = false) :
      Finishes c r ⟨c.data ++ r.data, r.status⟩

/-- `advance` returns exactly along `Finishes`. -/
theorem advance_finishes {d : ResponseData} :
    c.advance options r = .ok (some d, c') ↔ Finishes c r d ∧ c' = { c with data := [] } := by
  constructor
  · intro h
    by_cases hc : c.correctable r.status.raw = true
    · rw [advance_correctable hc] at h
      cases (correct_eq_ok.mp h).1
    by_cases hp : c.pending = []
    · have hc : c.correctable r.status.raw = false := by simpa using hc
      rw [advance_proceed hc hp] at h
      rcases c.continuation.shape with ⟨i, probe, hcont⟩ | ⟨cla, hcont⟩ | hcont
      · rw [proceed_oath hcont] at h
        split_ifs at h with hpoll hmore
        · cases h
          exact ⟨.polled i probe hp hcont hpoll.1 (response_ext_iff.mpr hpoll.2), rfl⟩
        · cases (sendRemaining_eq_ok.mp h).1
        · cases h
          refine ⟨.final hp hc ?_ ?_ ?_, rfl⟩
          · intro _ _ _ ho hr
            exact hpoll ⟨ho, response_ext_iff.mp hr⟩
          · intro j probe' hj
            cases hcont.symm.trans hj
            simpa using hmore
          · intro _ hi; cases hcont.symm.trans hi
      · rw [proceed_iso hcont] at h
        split_ifs at h with hsw
        · cases (getResponse_eq_ok.mp h).1
        · cases h
          refine ⟨.final hp hc ?_ ?_ (fun _ _ => by simpa using hsw), rfl⟩
          · intro _ _ hi; cases hcont.symm.trans hi
          · intro _ _ hi; cases hcont.symm.trans hi
      · rw [proceed_none hcont] at h
        cases h
        refine ⟨.final hp hc ?_ ?_ ?_, rfl⟩
        · intro _ _ hi; cases hcont.symm.trans hi
        · intro _ _ hi; cases hcont.symm.trans hi
        · intro _ hi; cases hcont.symm.trans hi
    · rw [advance_pending hp] at h
      cases ((acknowledge_eq_ok hp).mp h).1
  · rintro ⟨h, rfl⟩
    cases h with
    | polled i probe hp hcont hpoll hr =>
      have h6c : is6c r.status.raw = false := by rw [hr]; decide
      rw [advance_proceed (not_correctable_of_not_6c h6c) hp, proceed_oath hcont,
        if_pos ⟨hpoll, response_ext_iff.mp hr⟩]
    | final hp hc hpoll hmore hiso =>
      rw [advance_proceed hc hp]
      rcases c.continuation.shape with ⟨i, probe, hcont⟩ | ⟨cla, hcont⟩ | hcont
      · rw [proceed_oath hcont,
          if_neg (fun h => hpoll i probe hcont h.1 (response_ext_iff.mpr h.2)),
          if_neg (by simp [hmore i probe hcont])]
        rfl
      · rw [proceed_iso hcont, if_neg (by simp [hiso cla hcont])]
        rfl
      · rw [proceed_none hcont]; rfl

/-- A final status returns what an ISO conversation has gathered. -/
theorem advance_final {cla : UInt8} (hp : c.pending = []) (hcont : c.continuation = .iso7816 cla)
    (h61 : is61 r.status.raw = false) (h6c : is6c r.status.raw = false) :
    c.advance options r = .ok (some ⟨c.data ++ r.data, r.status⟩, { c with data := [] }) := by
  rw [advance_proceed (not_correctable_of_not_6c h6c) hp, proceed_iso hcont, if_neg (by simp [h61])]
  rfl

theorem advance_alone (hp : c.pending = []) (hcont : c.continuation = .none)
    (h6c : is6c r.status.raw = false) :
    c.advance options r = .ok (some ⟨c.data ++ r.data, r.status⟩, { c with data := [] }) := by
  rw [advance_proceed (not_correctable_of_not_6c h6c) hp, proceed_none hcont]
  rfl

end policy

end ProtocolConversation
