import LibCanokey.CtapEnvelope
import LibCanokey.CtapU2f

/-! # U2F operations

SELECT and one plain command of class 00. The four operations differ in the command and in what
they make of the answer; what every run of them keeps to is stated once. -/
namespace CtapU2fOperations

open BigEndian CheckedCursor ListTraversal ProtocolError ProtocolApdu ProtocolConversation
open ProtocolOperation ProtocolTranscript ProtocolStages CtapCbor CtapAuthData CtapU2f
open CtapMessage (select)

variable {T : Type}

def insRegister : UInt8 := 0x01

def insAuthenticate : UInt8 := 0x02

def insVersion : UInt8 := 0x03

def controlEnforceUserPresenceAndSign : UInt8 := 0x03

def controlCheckOnly : UInt8 := 0x07

def u2fVersionV2 : Bytes := [0x55, 0x32, 0x46, 0x5f, 0x56, 0x32]

def maxKeyHandleLen : ℕ := 190

def u2fCommand (ins p1 : UInt8) (data : Bytes) : LogicalCommand :=
  { header := ⟨0x00, ins, p1, 0x00⟩, data := data, le := .absent }

/-! ## The machine -/

structure SelectThen (T : Type) where
  command : Option LogicalCommand
  parse : Option (ResponseData → Except Error T)

def SelectThen.next (s : SelectThen T) (response : Option ResponseData) :
    Except Error (Action T) × SelectThen T :=
  match response with
  | none => (.ok (.command select), s)
  | some response =>
    match s.command with
    | some command =>
      ((response.ensureSuccess .select).map fun _ => .command command, { s with command := none })
    | none =>
      match s.parse with
      | none => (.error stateError, s)
      | some parse => ((parse response).map .done, { s with parse := none })

def selectThenMachine (T : Type) : Machine (SelectThen T) T where
  next := SelectThen.next

def operation (command : LogicalCommand) (options : OperationOptions)
    (parse : ResponseData → Except Error T) : Except Error (Operation (SelectThen T) T) := do
  let options ← options.validate
  validateCommand select options
  validateCommand command options
  Operation.fromMachine ⟨some command, some parse⟩ options

/-! ## The operations -/

structure U2fRegisterRequest where
  challenge : ByteArrayOf 32
  application : ByteArrayOf 32

structure U2fAuthenticateRequest where
  challenge : ByteArrayOf 32
  application : ByteArrayOf 32
  keyHandle : Bytes

structure U2fAuthentication where
  userPresence : UInt8
  counter : ℕ
  signature : Bytes
  deriving DecidableEq, Repr

def parseAuthentication (bytes : Bytes) : Except Error U2fAuthentication :=
  match bytes with
  | presence :: rest =>
    if bytes.length < 6 then .error invalid
    else .ok ⟨presence, ofBeBytes (rest.take 4), rest.drop 4⟩
  | [] => .error invalid

/-- A panic cannot occur and would be no answer. -/
def parsedRegistration (bytes : Bytes) : Except Error U2fRegistration :=
  match parseRegistration bytes with
  | .ok registration => .ok registration
  | .error (.refused e) => .error e
  | .error .panicked => .error invalid

def authenticateData (request : U2fAuthenticateRequest) : Except Error Bytes :=
  if request.keyHandle = [] ∨ request.keyHandle.length > maxKeyHandleLen then
    .error (.new .invalidArgument)
  else
    .ok (request.challenge.1 ++ request.application.1 ++
      [UInt8.ofNat request.keyHandle.length] ++ request.keyHandle)

def readRegistration (response : ResponseData) : Except Error U2fRegistration := do
  response.ensureSuccess .command
  parsedRegistration response.data

def register (request : U2fRegisterRequest) (options : OperationOptions) :
    Except Error (Operation (SelectThen U2fRegistration) U2fRegistration) :=
  operation (u2fCommand insRegister 0x00 (request.challenge.1 ++ request.application.1)) options
    readRegistration

def readAuthentication (response : ResponseData) : Except Error U2fAuthentication := do
  response.ensureSuccess .command
  parseAuthentication response.data

def authenticate (request : U2fAuthenticateRequest) (options : OperationOptions) :
    Except Error (Operation (SelectThen U2fAuthentication) U2fAuthentication) := do
  let data ← authenticateData request
  operation (u2fCommand insAuthenticate controlEnforceUserPresenceAndSign data) options
    readAuthentication

/-- A valid handle is answered with 6985, which is the one status that is no error here. -/
def readCheckOnly (response : ResponseData) : Except Error Bool :=
  if response.status.raw = 0x6985 then .ok true
  else do
    response.ensureSuccess .command
    .error invalid

def checkOnly (request : U2fAuthenticateRequest) (options : OperationOptions) :
    Except Error (Operation (SelectThen Bool) Bool) := do
  let data ← authenticateData request
  operation (u2fCommand insAuthenticate controlCheckOnly data) options readCheckOnly

def readVersion (response : ResponseData) : Except Error Bytes := do
  response.ensureSuccess .command
  if response.data ≠ u2fVersionV2 then .error invalid else .ok response.data

def version (options : OperationOptions) : Except Error (Operation (SelectThen Bytes) Bytes) :=
  operation (u2fCommand insVersion 0x00 []) options readVersion

/-! ## Every run -/

/-- The two stages of a run: SELECT is out, or it was acknowledged and the command is out. -/
inductive Stage (command : LogicalCommand) (parse : ResponseData → Except Error T) :
    List LogicalCommand → List ResponseData → SelectThen T → Prop where
  | selecting : Stage command parse [select] [] ⟨some command, some parse⟩
  | asking (r : ResponseData) (h : r.status.isSuccess = true) :
      Stage command parse [select, command] [r] ⟨none, some parse⟩

/-- What every run keeps to, whatever it is answered. -/
structure U2fOutcome (command : LogicalCommand) (parse : ResponseData → Except Error T)
    (s : Recorded (SelectThen T) T) : Prop where
  order : s.commands <+: [select, command]
  selected : 1 < s.commands.length → ∃ r, s.responses[0]? = some r ∧ r.status.isSuccess = true
  returned : ∀ value, s.op.output = some value → ∃ r last, s.commands = [select, command] ∧
    s.responses = [r, last] ∧ r.status.isSuccess = true ∧ parse last = .ok value
  unselected : ∀ r, s.responses = [r] → r.status.isSuccess = false →
    Settles s.op (.error (.status r.status .select none))
  answered : ∀ r last, s.responses = [r, last] → Settles s.op (parse last)

section runs

variable {command : LogicalCommand} {parse : ResponseData → Except Error T}
  {options : OperationOptions} {op : Operation (SelectThen T) T} {s s' : SelectThen T}
  {cs : List LogicalCommand} {rs : List ResponseData} {c : LogicalCommand} {r : ResponseData}

theorem next_selecting :
    (selectThenMachine T).next ⟨some command, some parse⟩ (some r) =
      if r.status.isSuccess = true then (.ok (.command command), ⟨none, some parse⟩)
      else (.error (.status r.status .select none), ⟨none, some parse⟩) := by
  simp only [selectThenMachine, SelectThen.next, ResponseData.ensureSuccess]
  split_ifs <;> rfl

theorem next_asking :
    (selectThenMachine T).next ⟨none, some parse⟩ (some r) =
      ((parse r).map .done, ⟨none, none⟩) := rfl

theorem stage_described (command : LogicalCommand) (parse : ResponseData → Except Error T) :
    Described (selectThenMachine T) ⟨some command, some parse⟩ (Stage command parse) := by
  constructor
  · intro c s h
    cases h
    exact .selecting
  · intro cs rs s r c s' hstage h
    cases hstage with
    | selecting =>
      rw [next_selecting] at h
      split_ifs at h with hr
      · cases h
        exact .asking r hr
      · cases h
    | asking =>
      rw [next_asking] at h
      cases hp : parse r <;> rw [hp] at h <;> cases h

theorem operation_eq_ok (h : operation command options parse = .ok op) :
    options.Valid ∧ validateCommand command options = .ok () ∧
      Operation.fromMachine ⟨some command, some parse⟩ options = .ok op := by
  obtain ⟨o, hvalidate, hstart⟩ := bind_eq_ok.mp h
  obtain ⟨_, _, hstart⟩ := bind_eq_ok.mp hstart
  obtain ⟨_, hcommand, hstart⟩ := bind_eq_ok.mp hstart
  obtain ⟨hvalid, heq⟩ := validate_eq_ok.mp hvalidate
  rw [heq] at hcommand hstart
  exact ⟨hvalid, hcommand, hstart⟩

/-- A last turn is the refusal of SELECT or the parsed answer. -/
theorem lastTurn_cases {out : Except Error (Action T)}
    (h : LastTurn (selectThenMachine T) ⟨some command, some parse⟩ out cs rs s)
    (hout : ∀ c, out ≠ .ok (.command c)) :
    (∃ r, cs = [select] ∧ rs = [r] ∧ r.status.isSuccess = false ∧
      out = .error (.status r.status .select none)) ∨
    ∃ r last, cs = [select, command] ∧ rs = [r, last] ∧ r.status.isSuccess = true ∧
      out = (parse last).map .done := by
  cases h with
  | opening h =>
    cases h
    exact absurd rfl (hout _)
  | @answering cs rs m _ r ht h =>
    cases (stage_described command parse).trace ht with
    | selecting =>
      rw [next_selecting] at h
      split_ifs at h with hr
      · cases h
        exact absurd rfl (hout _)
      · cases h
        exact Or.inl ⟨r, rfl, rfl, by simpa using hr, rfl⟩
    | asking r₀ hr =>
      rw [next_asking] at h
      exact Or.inr ⟨r₀, r, rfl, rfl, hr, (Prod.ext_iff.mp h).1.symm⟩

theorem u2f_outcome (h : operation command options parse = .ok op) (calls : List Call) :
    U2fOutcome command parse (recorded (selectThenMachine T) op calls) := by
  obtain ⟨_, _, hop⟩ := operation_eq_ok h
  have hdescribed := stage_described command parse
  constructor
  · rcases hdescribed.exposed hop calls with hnil | ⟨rs, m, _, hstage⟩
    · rw [hnil]
      exact List.nil_prefix
    · generalize (recorded (selectThenMachine T) op calls).commands = cs at hstage ⊢
      cases hstage with
      | selecting => exact ⟨[command], rfl⟩
      | asking => exact ⟨[], rfl⟩
  · intro hlen
    rcases hdescribed.exposed hop calls with hnil | ⟨rs, m, hrs, hstage⟩
    · rw [hnil] at hlen
      simp at hlen
    · generalize (recorded (selectThenMachine T) op calls).commands = cs at hstage hlen
      cases hstage with
      | selecting => simp at hlen
      | asking r hr =>
        obtain ⟨rest, hrest⟩ := hrs
        exact ⟨r, by rw [← hrest]; rfl, hr⟩
  · intro value hout
    obtain ⟨m, ht⟩ := lastTurn_of_output hop hout
    rcases lastTurn_cases ht (by rintro c ⟨⟩) with ⟨_, _, _, _, hvalue⟩ | hlast
    · cases hvalue
    · obtain ⟨r, last, hcs, hrs, hr, hvalue⟩ := hlast
      refine ⟨r, last, hcs, hrs, hr, ?_⟩
      cases hp : parse last with
      | error e =>
        rw [hp] at hvalue
        cases hvalue
      | ok v =>
        rw [hp] at hvalue
        cases hvalue
        rfl
  · intro r hrs hr
    apply settles_of_last hop
    · rw [hrs]
      simp
    · intro m ht
      rw [hrs] at ht
      generalize (recorded (selectThenMachine T) op calls).commands = cs at ht
      generalize hgiven : [r] = rs at ht
      cases hdescribed.trace ht with
      | selecting => cases hgiven
      | asking r' hr' =>
        cases hgiven
        rw [hr] at hr'
        cases hr'
    · intro m out ht
      rw [hrs] at ht
      generalize (recorded (selectThenMachine T) op calls).commands = cs at ht
      by_cases hcommand : ∃ c, out = .ok (.command c)
      · obtain ⟨c, rfl⟩ := hcommand
        generalize hgiven : [r] = rs at ht
        cases ht with
        | opening => cases hgiven
        | @answering cs rs m _ r' ht hn =>
          cases hdescribed.trace ht with
          | selecting =>
            cases hgiven
            rw [next_selecting, if_neg (by rw [hr]; decide)] at hn
            cases hn
          | asking r₀ => cases hgiven
      · push Not at hcommand
        rcases lastTurn_cases ht hcommand with ⟨r', _, hgiven, _, rfl⟩ | ⟨_, _, _, hgiven, _⟩
        · cases hgiven
          rfl
        · cases hgiven
  · intro r last hrs
    apply settles_of_last hop
    · rw [hrs]
      simp
    · intro m ht
      rw [hrs] at ht
      generalize (recorded (selectThenMachine T) op calls).commands = cs at ht
      generalize hgiven : [r, last] = rs at ht
      cases hdescribed.trace ht <;> cases hgiven
    · intro m out ht
      rw [hrs] at ht
      generalize (recorded (selectThenMachine T) op calls).commands = cs at ht
      generalize hgiven : [r, last] = rs at ht
      cases ht with
      | opening => cases hgiven
      | @answering cs rs m _ r' ht hn =>
        cases hdescribed.trace ht with
        | selecting => cases hgiven
        | asking r₀ hr =>
          cases hgiven
          exact (Prod.ext_iff.mp hn).1.symm

end runs

/-! ## Requests and answers -/

/-- The request that the data of an AUTHENTICATE command holds. -/
def requestOf (data : Bytes) : Option U2fAuthenticateRequest :=
  if h : 65 ≤ data.length ∧ data[64]? = some (UInt8.ofNat (data.length - 65)) then
    some ⟨⟨data.take 32, by simp; omega⟩, ⟨(data.drop 32).take 32, by simp; omega⟩, data.drop 65⟩
  else none

section formats

variable {request : U2fAuthenticateRequest} {data : Bytes}

theorem authenticateData_eq_ok : authenticateData request = .ok data ↔
    (request.keyHandle ≠ [] ∧ request.keyHandle.length ≤ maxKeyHandleLen) ∧
      data = request.challenge.1 ++ request.application.1 ++
        [UInt8.ofNat request.keyHandle.length] ++ request.keyHandle := by
  rw [authenticateData]
  by_cases h : request.keyHandle = [] ∨ request.keyHandle.length > maxKeyHandleLen
  · rw [if_pos h]
    constructor
    · rintro ⟨⟩
    · rintro ⟨⟨hne, hlen⟩, _⟩
      rcases h with hnil | hlong
      · exact absurd hnil hne
      · omega
  · rw [if_neg h]
    push Not at h
    constructor
    · rintro ⟨⟩
      exact ⟨h, rfl⟩
    · rintro ⟨_, rfl⟩
      rfl

/-- The data of a command says which request it was made for, and fits one short frame. -/
theorem requestOf_data (h : authenticateData request = .ok data) :
    requestOf data = some request ∧ data.length ≤ 255 := by
  obtain ⟨⟨hne, hlen⟩, rfl⟩ := authenticateData_eq_ok.mp h
  obtain ⟨⟨challenge, hchallenge⟩, ⟨application, happlication⟩, keyHandle⟩ := request
  dsimp only at hne hlen ⊢
  have hmost : maxKeyHandleLen = 190 := rfl
  have htotal : (challenge ++ application ++ [UInt8.ofNat keyHandle.length] ++ keyHandle).length =
      65 + keyHandle.length := by
    simp only [List.length_append, hchallenge, happlication, List.length_singleton]
  have hfixed : (challenge ++ application).length = 64 := by
    rw [List.length_append, hchallenge, happlication]
  have hbyte : (challenge ++ application ++ [UInt8.ofNat keyHandle.length] ++ keyHandle)[64]? =
      some (UInt8.ofNat keyHandle.length) := by
    rw [List.append_assoc, List.getElem?_append_right (Nat.le_of_eq hfixed), hfixed]
    rfl
  have hcount : 65 + keyHandle.length - 65 = keyHandle.length := by omega
  refine ⟨?_, by omega⟩
  rw [requestOf, dif_pos (by rw [htotal, hcount]; exact ⟨by omega, hbyte⟩)]
  have htake : (challenge ++ application ++ [UInt8.ofNat keyHandle.length] ++ keyHandle).take 32 =
      challenge := by
    rw [List.append_assoc, List.append_assoc]
    exact List.take_left' hchallenge
  have hmiddle : ((challenge ++ application ++ [UInt8.ofNat keyHandle.length] ++
      keyHandle).drop 32).take 32 = application := by
    rw [List.append_assoc, List.append_assoc, List.drop_left' hchallenge]
    exact List.take_left' happlication
  have hdrop : (challenge ++ application ++ [UInt8.ofNat keyHandle.length] ++ keyHandle).drop 65 =
      keyHandle := by
    apply List.drop_left'
    rw [List.length_append, hfixed]
    rfl
  simp only [htake, hmiddle, hdrop]

theorem parseAuthentication_eq_ok {bytes : Bytes} {a : U2fAuthentication} :
    parseAuthentication bytes = .ok a ↔
      bytes = a.userPresence :: (toBeBytes 4 a.counter ++ a.signature) ∧
        a.counter < 2 ^ 32 ∧ a.signature ≠ [] := by
  constructor
  · intro h
    cases bytes with
    | nil => cases h
    | cons presence rest =>
      simp only [parseAuthentication] at h
      split_ifs at h with hshort
      cases h
      rw [List.length_cons] at hshort
      have hcount : (rest.take 4).length = 4 := by
        rw [List.length_take]
        omega
      have hword := ofBeBytes_lt (rest.take 4)
      rw [hcount] at hword
      refine ⟨?_, hword, ?_⟩
      · have hback := toBeBytes_ofBeBytes (rest.take 4)
        rw [hcount] at hback
        dsimp only
        rw [hback, List.take_append_drop]
      · intro hnil
        have hlen := congrArg List.length hnil
        rw [List.length_drop, List.length_nil] at hlen
        omega
  · rintro ⟨rfl, hword, hne⟩
    have hcount : (toBeBytes 4 a.counter).length = 4 := length_toBeBytes 4 a.counter
    have hpos := List.length_pos_iff.mpr hne
    rw [parseAuthentication, if_neg (by
      rw [List.length_cons, List.length_append, hcount]
      omega), List.take_left' hcount, List.drop_left' hcount, ofBeBytes_toBeBytes hword]

end formats

/-! ## Check-only and sign -/

section operations

variable {request : U2fAuthenticateRequest} {options : OperationOptions}

/-- What every run of a check of a key handle keeps to. -/
structure Checked (request : U2fAuthenticateRequest) (s : Recorded (SelectThen Bool) Bool) :
    Prop where
  commands : ∃ data, requestOf data = some request ∧
    s.commands <+: [select, u2fCommand insAuthenticate controlCheckOnly data]
  returned : ∀ value, s.op.output = some value → value = true ∧ ∃ r last,
    s.responses = [r, last] ∧ r.status.isSuccess = true ∧ last.status.raw = 0x6985
  valid : ∀ r last, s.responses = [r, last] → last.status.raw = 0x6985 → Settles s.op (.ok true)
  refused : ∀ r last, s.responses = [r, last] → last.status.raw ≠ 0x6985 →
    Settles s.op (.error (if last.status.isSuccess then invalid
      else .status last.status .command none))
  unselected : ∀ r, s.responses = [r] → r.status.isSuccess = false →
    Settles s.op (.error (.status r.status .select none))

theorem readCheckOnly_eq (r : ResponseData) : readCheckOnly r =
    if r.status.raw = 0x6985 then .ok true
    else .error (if r.status.isSuccess then invalid else .status r.status .command none) := by
  rw [readCheckOnly]
  split_ifs with hvalid hsuccess
  · rfl
  · simp only [ResponseData.ensureSuccess, if_pos hsuccess]
    rfl
  · simp only [ResponseData.ensureSuccess, if_neg hsuccess]
    rfl

/-- A check-only run says true for the answer 6985 to AUTHENTICATE itself, never false, and every
other answer is an error, success among them. -/
theorem checkOnly_checked {op : Operation (SelectThen Bool) Bool}
    (h : checkOnly request options = .ok op) (calls : List Call) :
    Checked request (recorded (selectThenMachine Bool) op calls) := by
  obtain ⟨data, hdata, hop⟩ := bind_eq_ok.mp h
  have hruns := u2f_outcome hop calls
  constructor
  · exact ⟨data, (requestOf_data hdata).1, hruns.order⟩
  · intro value hout
    obtain ⟨r, last, _, hrs, hr, hvalue⟩ := hruns.returned value hout
    rw [readCheckOnly_eq] at hvalue
    split_ifs at hvalue with hvalid
    cases hvalue
    exact ⟨rfl, r, last, hrs, hr, hvalid⟩
  · intro r last hrs hvalid
    have hsettles := hruns.answered r last hrs
    rw [readCheckOnly_eq, if_pos hvalid] at hsettles
    exact hsettles
  · intro r last hrs hother
    have hsettles := hruns.answered r last hrs
    rw [readCheckOnly_eq, if_neg hother] at hsettles
    exact hsettles
  · exact hruns.unselected

/-- A handle of one byte is valid. -/
theorem checkOnly_checked_valid :
    ∃ op, checkOnly ⟨⟨List.replicate 32 1, rfl⟩, ⟨List.replicate 32 2, rfl⟩, [9]⟩ {} = .ok op ∧
      Checked ⟨⟨List.replicate 32 1, rfl⟩, ⟨List.replicate 32 2, rfl⟩, [9]⟩
        (recorded (selectThenMachine Bool) op
          [.start, .advance [0x90, 0x00], .advance [0x69, 0x85]]) ∧
      (recorded (selectThenMachine Bool) op
        [.start, .advance [0x90, 0x00], .advance [0x69, 0x85]]).op.output = some true :=
  ⟨_, rfl, @checkOnly_checked _ {} _ rfl _, rfl⟩

/-- What every run of a signature keeps to. -/
structure Signed (request : U2fAuthenticateRequest)
    (s : Recorded (SelectThen U2fAuthentication) U2fAuthentication) : Prop where
  commands : ∃ data, requestOf data = some request ∧ data.length ≤ 255 ∧
    s.commands <+: [select, u2fCommand insAuthenticate controlEnforceUserPresenceAndSign data]
  returned : ∀ a, s.op.output = some a → ∃ r last, s.responses = [r, last] ∧
    r.status.isSuccess = true ∧ last.status.isSuccess = true ∧
    last.data = a.userPresence :: (toBeBytes 4 a.counter ++ a.signature) ∧
    a.counter < 2 ^ 32 ∧ a.signature ≠ []
  complete : ∀ r last a, s.responses = [r, last] → last.status.isSuccess = true →
    last.data = a.userPresence :: (toBeBytes 4 a.counter ++ a.signature) →
    a.counter < 2 ^ 32 → a.signature ≠ [] → Settles s.op (.ok a)
  refused : ∀ r last, s.responses = [r, last] → last.status.isSuccess = false →
    Settles s.op (.error (.status last.status .command none))

/-- A signature is returned exactly as its answer holds it. -/
theorem authenticate_signed {op : Operation (SelectThen U2fAuthentication) U2fAuthentication}
    (h : authenticate request options = .ok op) (calls : List Call) :
    Signed request (recorded (selectThenMachine U2fAuthentication) op calls) := by
  obtain ⟨data, hdata, hop⟩ := bind_eq_ok.mp h
  have hruns := u2f_outcome hop calls
  constructor
  · obtain ⟨hrequest, hlen⟩ := requestOf_data hdata
    exact ⟨data, hrequest, hlen, hruns.order⟩
  · intro a hout
    obtain ⟨r, last, _, hrs, hr, hvalue⟩ := hruns.returned a hout
    obtain ⟨_, hsuccess, hparsed⟩ := bind_eq_ok.mp hvalue
    obtain ⟨hlast, hword, hne⟩ := parseAuthentication_eq_ok.mp hparsed
    exact ⟨r, last, hrs, hr, ensureSuccess_eq_ok.mp hsuccess, hlast, hword, hne⟩
  · intro r last a hrs hsuccess hlast hword hne
    have hsettles := hruns.answered r last hrs
    have hread : readAuthentication last = .ok a :=
      bind_eq_ok.mpr ⟨(), ensureSuccess_eq_ok.mpr hsuccess,
        parseAuthentication_eq_ok.mpr ⟨hlast, hword, hne⟩⟩
    rw [hread] at hsettles
    exact hsettles
  · intro r last hrs hrefused
    have hsettles := hruns.answered r last hrs
    have hread : readAuthentication last = .error (.status last.status .command none) := by
      have hnot : ¬ last.status.isSuccess = true := by
        rw [hrefused]
        decide
      simp only [readAuthentication, ResponseData.ensureSuccess, if_neg hnot]
      rfl
    rw [hread] at hsettles
    exact hsettles

/-- A signature of one byte at counter 258. -/
theorem authenticate_signed_once :
    ∃ op, authenticate ⟨⟨List.replicate 32 1, rfl⟩, ⟨List.replicate 32 2, rfl⟩, [9]⟩ {} =
        .ok op ∧
      Signed ⟨⟨List.replicate 32 1, rfl⟩, ⟨List.replicate 32 2, rfl⟩, [9]⟩
        (recorded (selectThenMachine U2fAuthentication) op
          [.start, .advance [0x90, 0x00], .advance [1, 0, 0, 1, 2, 0x30, 0x90, 0x00]]) ∧
      (recorded (selectThenMachine U2fAuthentication) op
        [.start, .advance [0x90, 0x00], .advance [1, 0, 0, 1, 2, 0x30, 0x90, 0x00]]).op.output =
          some ⟨1, 258, [0x30]⟩ :=
  ⟨_, rfl, @authenticate_signed _ {} _ rfl _, rfl⟩

/-- A registration is returned only when the answer is put together from its parts. -/
theorem register_returned {request : U2fRegisterRequest}
    {op : Operation (SelectThen U2fRegistration) U2fRegistration}
    (h : register request options = .ok op) (calls : List Call) {value : U2fRegistration}
    (hout : (recorded (selectThenMachine U2fRegistration) op calls).op.output = some value) :
    ∃ r, (recorded (selectThenMachine U2fRegistration) op calls).responses =
        [r, ⟨registration value.userPublicKey.1 value.keyHandle value.certificate value.signature,
          ⟨0x9000⟩⟩] ∧ r.status.isSuccess = true ∧
      WellFormed value.userPublicKey value.keyHandle value.certificate value.signature := by
  obtain ⟨r, last, _, hrs, hr, hvalue⟩ := (u2f_outcome h calls).returned value hout
  obtain ⟨_, hsuccess, hparsed⟩ := bind_eq_ok.mp hvalue
  have hraw := ensureSuccess_eq_ok.mp hsuccess
  simp only [StatusWord.isSuccess, beq_iff_eq] at hraw
  have hparse : parseRegistration last.data = .ok value := by
    simp only [parsedRegistration] at hparsed
    split at hparsed
    · cases hparsed
      assumption
    · cases hparsed
    · cases hparsed
  obtain ⟨hwell, hdata, _⟩ := parseRegistration_eq_ok.mp hparse
  refine ⟨r, ?_, hr, hwell⟩
  obtain ⟨data, ⟨raw⟩⟩ := last
  dsimp only at hraw hdata
  subst hraw hdata
  exact hrs

/-- The version is the one that is documented. -/
theorem version_returned {op : Operation (SelectThen Bytes) Bytes} (h : version options = .ok op)
    (calls : List Call) {value : Bytes}
    (hout : (recorded (selectThenMachine Bytes) op calls).op.output = some value) :
    value = u2fVersionV2 := by
  obtain ⟨r, last, _, hrs, hr, hvalue⟩ := (u2f_outcome h calls).returned value hout
  obtain ⟨_, hsuccess, hread⟩ := bind_eq_ok.mp hvalue
  split_ifs at hread with hother
  cases hread
  exact not_not.mp hother

end operations

end CtapU2fOperations
