import LibCanokey.PivCommand
import LibCanokey.ProtocolAcceptance
import LibCanokey.ProtocolCompletion
import LibCanokey.ProtocolStages

/-! # Token randomness

The version of the selected application comes first. Then the bytes are requested in chunks, and
a reply counts only when it is as long as its request. -/
namespace PivRandom

open BigEndian CheckedCursor ListTraversal ProtocolError ProtocolConversation ProtocolOperation
open ProtocolApdu ProtocolSegmentation ProtocolAcceptance ProtocolTranscript ProtocolStages
open ProtocolSession ProtocolCompletion ProtocolTlv PivCommand

structure RandomMachine where
  remaining : ℕ
  chunk : ℕ
  pending : ℕ
  versionRead : Bool
  started : Bool
  bytes : Bytes
  deriving DecidableEq, Repr

/-- The three bytes of a version reply. -/
def versionReply (r : ResponseData) : Except Error (UInt8 × UInt8 × UInt8) := do
  r.ensureSuccess .command
  match r.data with
  | [major, minor, patch] => .ok (major, minor, patch)
  | _ => .error malformed

def randomCommand (length : ℕ) : LogicalCommand :=
  { header := ⟨0, 0x84, 0, 0⟩, data := [], le := .exact (length % 2 ^ 32) }

/-- The end, or the command for the next chunk. -/
def RandomMachine.request (s : RandomMachine) : Except Error (Action Bytes) × RandomMachine :=
  if s.remaining = 0 then (.ok (.done s.bytes), { s with bytes := [] })
  else
    let s := { s with pending := min s.remaining s.chunk }
    (.ok (.command (randomCommand s.pending)), s)

def RandomMachine.readVersion (s : RandomMachine) (r : ResponseData) :
    Except Error (Action Bytes) × RandomMachine :=
  match versionReply r with
  | .error e => (.error e, s)
  | .ok (major, _, _) =>
    if major < 6 then (.error ((Error.new .unsupportedFeature).atPhase .command), s)
    else { s with versionRead := true }.request

def RandomMachine.collect (s : RandomMachine) (r : ResponseData) :
    Except Error (Action Bytes) × RandomMachine :=
  match r.ensureSuccess .command with
  | .error e => (.error e, s)
  | .ok _ =>
    if r.data.length ≠ s.pending then (.error malformed, s)
    else { s with bytes := s.bytes ++ r.data, remaining := s.remaining - s.pending }.request

def RandomMachine.next (s : RandomMachine) (response : Option ResponseData) :
    Except Error (Action Bytes) × RandomMachine :=
  if ¬ s.started then (.ok (.command version), { s with started := true })
  else match response with
    | none => (.error stateError, s)
    | some r => if ¬ s.versionRead then s.readVersion r else s.collect r

def random : Machine RandomMachine Bytes where
  next := RandomMachine.next

def randomChunk (options : OperationOptions) : ℕ := min 256 (options.exchange.maxResponseBytes - 2)

def RandomMachine.new (length : ℕ) (options : OperationOptions) : RandomMachine :=
  { remaining := length
    chunk := randomChunk options
    pending := 0
    versionRead := false
    started := false
    bytes := [] }

def randomSelected (length : ℕ) (options : OperationOptions) :
    Except Error (Operation RandomMachine Bytes) := do
  let options ← options.validate
  if (checkedAdd length 3).all (· > options.limits.maxTotalResponseBytes) then
    .error limitExceeded
  else if (checkedAdd (divCeil length (randomChunk options)) 1).all
      (· > options.limits.maxExchanges) then .error limitExceeded
  else Operation.fromMachine (.new length options) options

/-- The version reply that lets the random commands begin. -/
def Greets (r : ResponseData) : Prop :=
  r.status.isSuccess = true ∧ ∃ major minor patch, r.data = [major, minor, patch] ∧ 6 ≤ major

/-- A random command and a successful reply of exactly the requested length. -/
structure Supplies (c : LogicalCommand) (r : ResponseData) : Prop where
  header : c.header = ⟨0, 0x84, 0, 0⟩ ∧ c.data = []
  length : c.le = .exact r.data.length
  success : r.status.isSuccess = true

section turns

variable {s s' : RandomMachine} {r : ResponseData} {c : LogicalCommand} {value : Bytes}

theorem request_cases (s : RandomMachine) :
    (s.remaining = 0 ∧ s.request = (.ok (.done s.bytes), { s with bytes := [] })) ∨
      (0 < s.remaining ∧ s.request = (.ok (.command (randomCommand (min s.remaining s.chunk))),
        { s with pending := min s.remaining s.chunk })) := by
  by_cases h : s.remaining = 0
  · exact Or.inl ⟨h, if_pos h⟩
  · exact Or.inr ⟨Nat.pos_of_ne_zero h, if_neg h⟩

theorem versionReply_eq_ok {v : UInt8 × UInt8 × UInt8} :
    versionReply r = .ok v ↔ r.status.isSuccess = true ∧ r.data = [v.1, v.2.1, v.2.2] := by
  obtain ⟨major, minor, patch⟩ := v
  constructor
  · intro h
    obtain ⟨_, hsuccess, h⟩ := bind_eq_ok.mp h
    refine ⟨ensureSuccess_eq_ok.mp hsuccess, ?_⟩
    split at h
    · next hdata =>
      cases h
      exact hdata
    · cases h
  · rintro ⟨hsuccess, hdata⟩
    refine bind_eq_ok.mpr ⟨(), ensureSuccess_eq_ok.mpr hsuccess, ?_⟩
    simp only [hdata]

/-- Without the version nothing but an error comes of a reply. -/
theorem readVersion_cases (s : RandomMachine) (r : ResponseData) :
    (∃ e, s.readVersion r = (.error e, s)) ∨
      Greets r ∧ s.readVersion r = { s with versionRead := true }.request := by
  cases hv : versionReply r with
  | error e =>
    refine Or.inl ⟨e, ?_⟩
    simp only [RandomMachine.readVersion, hv]
  | ok v =>
    obtain ⟨hsuccess, hdata⟩ := versionReply_eq_ok.mp hv
    by_cases hold : v.1 < 6
    · refine Or.inl ⟨(Error.new .unsupportedFeature).atPhase .command, ?_⟩
      simp only [RandomMachine.readVersion, hv]
      exact if_pos hold
    · refine Or.inr ⟨⟨hsuccess, _, _, _, hdata, UInt8.not_lt.mp hold⟩, ?_⟩
      simp only [RandomMachine.readVersion, hv]
      exact if_neg hold

theorem Greets.readVersion (h : Greets r) :
    s.readVersion r = { s with versionRead := true }.request := by
  obtain ⟨hsuccess, major, minor, patch, hdata, hmajor⟩ := h
  have hv := (@versionReply_eq_ok r (major, minor, patch)).mpr ⟨hsuccess, hdata⟩
  simp only [RandomMachine.readVersion, hv]
  exact if_neg (UInt8.not_lt.mpr hmajor)

theorem collect_of (hsuccess : r.status.isSuccess = true) (hlen : r.data.length = s.pending) :
    s.collect r =
      { s with bytes := s.bytes ++ r.data, remaining := s.remaining - s.pending }.request := by
  have hok : r.ensureSuccess .command = .ok () := ensureSuccess_eq_ok.mpr hsuccess
  simp only [RandomMachine.collect, hok]
  exact if_neg (not_not.mpr hlen)

/-- A reply of the requested length is kept whole, any other is an error. -/
theorem collect_cases (s : RandomMachine) (r : ResponseData) :
    (∃ e, s.collect r = (.error e, s)) ∨
      (r.status.isSuccess = true ∧ r.data.length = s.pending ∧ s.collect r =
        { s with bytes := s.bytes ++ r.data, remaining := s.remaining - s.pending }.request) := by
  cases hok : r.ensureSuccess .command with
  | error e =>
    refine Or.inl ⟨e, ?_⟩
    simp only [RandomMachine.collect, hok]
  | ok u =>
    have hsuccess := ensureSuccess_eq_ok.mp hok
    by_cases hlen : r.data.length = s.pending
    · exact Or.inr ⟨hsuccess, hlen, collect_of hsuccess hlen⟩
    · refine Or.inl ⟨malformed, ?_⟩
      simp only [RandomMachine.collect, hok]
      exact if_pos hlen

end turns

/-! ## Every run -/

/-- A machine that waits for its next chunk, after the replies it was given. -/
structure Drawing (length chunk : ℕ) (given : List ResponseData) (s : RandomMachine) : Prop where
  flags : s.started = true ∧ s.versionRead = true
  own : s.chunk = chunk
  bytes : s.bytes = given.flatMap ResponseData.data
  remaining : s.remaining + s.bytes.length = length
  unfinished : 0 < s.remaining
  pending : s.pending = min s.remaining chunk

/-- The commands, responses and state before the last turn. -/
inductive RandomStages (length chunk : ℕ) :
    List LogicalCommand → List ResponseData → RandomMachine → Prop where
  | asking {s : RandomMachine} (h : s.started = true ∧ s.versionRead = false)
      (hown : s.chunk = chunk) (hbytes : s.bytes = []) (hremaining : s.remaining = length) :
      RandomStages length chunk [version] [] s
  | drawing {s : RandomMachine} {cs : List LogicalCommand} {v : ResponseData}
      {given : List ResponseData} (hv : Greets v) (hgiven : List.Forall₂ Supplies cs given)
      (h : Drawing length chunk given s) :
      RandomStages length chunk (version :: (cs ++ [randomCommand s.pending])) (v :: given) s

/-- The result: the replies in order, each as long as requested. -/
structure Returned (length : ℕ) (cs : List LogicalCommand) (rs : List ResponseData)
    (value : Bytes) : Prop where
  replies : ∃ v own given, cs = version :: own ∧ rs = v :: given ∧ Greets v ∧
    List.Forall₂ Supplies own given ∧ value = given.flatMap ResponseData.data
  length : value.length = length

section stages

variable {length chunk : ℕ} {options : OperationOptions} {s s' : RandomMachine}
  {cs : List LogicalCommand} {rs given : List ResponseData} {c : LogicalCommand}
  {r v : ResponseData} {value : Bytes}

theorem random_asking (hflags : s.started = true ∧ s.versionRead = false) :
    random.next s (some r) = s.readVersion r := by
  simp [random, RandomMachine.next, hflags]

theorem random_drawing (hflags : s.started = true ∧ s.versionRead = true) :
    random.next s (some r) = s.collect r := by
  simp [random, RandomMachine.next, hflags]

theorem Drawing.supplies (h : Drawing length chunk given s) (hchunk : chunk ≤ 256)
    (hsuccess : r.status.isSuccess = true) (hlen : r.data.length = s.pending) :
    Supplies (randomCommand s.pending) r := by
  have hsmall : s.pending < 2 ^ 32 := by
    rw [h.pending]
    omega
  refine ⟨⟨rfl, rfl⟩, ?_, hsuccess⟩
  rw [hlen, randomCommand, Nat.mod_eq_of_lt hsmall]

/-- The step of a run: one more reply. -/
theorem Drawing.collected (h : Drawing length chunk given s) (hlen : r.data.length = s.pending)
    (hmore : 0 < s.remaining - s.pending) :
    Drawing length chunk (given ++ [r])
      { s with
        bytes := s.bytes ++ r.data
        remaining := s.remaining - s.pending
        pending := min (s.remaining - s.pending) s.chunk } := by
  have hremaining := h.remaining
  refine ⟨h.flags, h.own, ?_, ?_, hmore, by rw [h.own]⟩
  · rw [List.flatMap_append, ← h.bytes, List.flatMap_singleton]
  · dsimp only
    rw [List.length_append, hlen]
    omega

theorem described (hchunk : chunk ≤ 256) {s₀ : RandomMachine} (hstart : s₀.started = false)
    (hversion : s₀.versionRead = false) (hown : s₀.chunk = chunk) (hbytes : s₀.bytes = [])
    (hremaining : s₀.remaining = length) :
    Described random s₀ (RandomStages length chunk) := by
  constructor
  · intro c s h
    have hfirst : random.next s₀ none = (.ok (.command version), { s₀ with started := true }) := by
      simp [random, RandomMachine.next, hstart]
    cases hfirst.symm.trans h
    exact .asking ⟨rfl, hversion⟩ hown hbytes hremaining
  · intro cs rs s r c s' h hn
    cases h with
    | asking hflags hown hbytes hremaining =>
      rw [random_asking hflags] at hn
      rcases readVersion_cases s r with ⟨e, h⟩ | ⟨hgreets, h⟩
      · cases h.symm.trans hn
      · rcases request_cases { s with versionRead := true } with ⟨hzero, hr⟩ | ⟨hpos, hr⟩
        · cases (h.trans hr).symm.trans hn
        · cases (h.trans hr).symm.trans hn
          dsimp only at hpos
          have hdrawing : Drawing length chunk []
              { s with versionRead := true, pending := min s.remaining s.chunk } := by
            refine ⟨⟨hflags.1, rfl⟩, hown, hbytes, ?_, hpos, by rw [hown]⟩
            dsimp only
            rw [hbytes, hremaining]
            rfl
          exact RandomStages.drawing hgreets .nil hdrawing
    | @drawing s cs v given hv hgiven hd =>
      rw [random_drawing hd.flags] at hn
      rcases collect_cases s r with ⟨e, h⟩ | ⟨hsuccess, hlen, h⟩
      · cases h.symm.trans hn
      · rcases request_cases { s with
            bytes := s.bytes ++ r.data
            remaining := s.remaining - s.pending } with ⟨hzero, hr⟩ | ⟨hpos, hr⟩
        · cases (h.trans hr).symm.trans hn
        · cases (h.trans hr).symm.trans hn
          have hsupplied := forall₂_concat hgiven (hd.supplies hchunk hsuccess hlen)
          exact RandomStages.drawing hv hsupplied (hd.collected hlen hpos)

/-- What the last turn of a machine returns. -/
theorem returned (hd : Described random s' (RandomStages length chunk)) (hchunk : chunk ≤ 256)
    (hopen : ∀ value m, random.next s' none ≠ (.ok (.done value), m))
    (h : LastTurn random s' (.ok (.done value)) cs rs s) : Returned length cs rs value := by
  cases h with
  | opening h => exact absurd h (hopen value s)
  | @answering cs rs m _ r ht hn =>
    cases hd.trace ht with
    | asking hflags hown hbytes hremaining =>
      rw [random_asking hflags] at hn
      rcases readVersion_cases m r with ⟨e, h⟩ | ⟨hgreets, h⟩
      · cases h.symm.trans hn
      · rcases request_cases { m with versionRead := true } with ⟨hzero, hr⟩ | ⟨hpos, hr⟩
        · cases (h.trans hr).symm.trans hn
          refine ⟨⟨r, [], [], rfl, rfl, hgreets, .nil, hbytes⟩, ?_⟩
          dsimp only at hzero ⊢
          rw [hbytes, ← hremaining, hzero]
          rfl
        · cases (h.trans hr).symm.trans hn
    | @drawing m cs v given hv hgiven hdrawing =>
      rw [random_drawing hdrawing.flags] at hn
      rcases collect_cases m r with ⟨e, h⟩ | ⟨hsuccess, hlen, h⟩
      · cases h.symm.trans hn
      · rcases request_cases { m with
            bytes := m.bytes ++ r.data
            remaining := m.remaining - m.pending } with ⟨hzero, hr⟩ | ⟨hpos, hr⟩
        · cases (h.trans hr).symm.trans hn
          have hremaining := hdrawing.remaining
          have hpending := hdrawing.pending
          refine ⟨⟨v, _, given ++ [r], rfl, rfl, hv,
            forall₂_concat hgiven (hdrawing.supplies hchunk hsuccess hlen), ?_⟩, ?_⟩
          · rw [List.flatMap_append, ← hdrawing.bytes, List.flatMap_singleton]
          · dsimp only at hzero
            rw [List.length_append, hlen]
            omega
        · cases (h.trans hr).symm.trans hn

/-- A random command is exposed only behind a version reply that lets it. -/
theorem RandomStages.greeted (h : RandomStages length chunk cs rs s) {c : LogicalCommand}
    (hc : c ∈ cs) (hins : c.header.ins = 0x84) : ∃ v given, rs = v :: given ∧ Greets v := by
  cases h with
  | asking =>
    rw [List.mem_singleton.mp hc] at hins
    cases hins
  | @drawing _ cs v given hv => exact ⟨v, given, rfl, hv⟩

end stages

/-! ## The whole operation -/

section selected

variable {length : ℕ} {options : OperationOptions} {op : Operation RandomMachine Bytes}

/-- What the constructor checks. -/
structure Affordable (length : ℕ) (options : OperationOptions) : Prop where
  valid : options.Valid
  bytes : length + 3 ≤ min usizeMax options.limits.maxTotalResponseBytes
  exchanges : 1 + divCeil length (randomChunk options) ≤ min usizeMax options.limits.maxExchanges

theorem all_checkedAdd {a b limit : ℕ} :
    ¬ (checkedAdd a b).all (· > limit) = true ↔ a + b ≤ min usizeMax limit := by
  by_cases h : a + b ≤ usizeMax
  · simp [checkedAdd, h]
  · simp [checkedAdd, h]

theorem randomSelected_eq_ok : randomSelected length options = .ok op ↔
    Affordable length options ∧
      Operation.fromMachine (RandomMachine.new length options) options = .ok op := by
  constructor
  · intro h
    obtain ⟨o, hvalidate, hbody⟩ := bind_eq_ok.mp h
    obtain ⟨hvalid, rfl⟩ := validate_eq_ok.mp hvalidate
    split_ifs at hbody with hbytes hexchanges
    refine ⟨⟨hvalid, all_checkedAdd.mp hbytes, ?_⟩, hbody⟩
    rw [Nat.add_comm]
    exact all_checkedAdd.mp hexchanges
  · rintro ⟨⟨hvalid, hbytes, hexchanges⟩, hmachine⟩
    rw [Nat.add_comm] at hexchanges
    refine bind_eq_ok.mpr ⟨options, validate_eq_ok.mpr ⟨hvalid, rfl⟩, ?_⟩
    rw [if_neg (all_checkedAdd.mpr hbytes), if_neg (all_checkedAdd.mpr hexchanges)]
    exact hmachine

theorem new_described (length : ℕ) (options : OperationOptions) :
    Described random (.new length options) (RandomStages length (randomChunk options)) :=
  described (Nat.min_le_left _ _) rfl rfl rfl rfl rfl

end selected

/-! ## A card that answers at once -/

section ideal

variable {κ : Type} {A : Applet κ} {I : κ → Prop} {length : ℕ} {options : OperationOptions}
  {s : RandomMachine} {a : κ}

/-- In the states of `I` the card reports a version from 6 on, and supplies as many bytes as are
requested. -/
structure Ideal (A : Applet κ) (I : κ → Prop) : Prop where
  versions : ∀ a le, I a → ∃ major minor patch a', 6 ≤ major ∧
    A a ⟨version.header, [], le⟩ = (⟨[major, minor, patch], ⟨0x9000⟩⟩, a') ∧ I a'
  supplies : ∀ a n, I a → 1 ≤ n → n ≤ 256 → ∃ bytes a', bytes.length = n ∧
    A a ⟨⟨0, 0x84, 0, 0⟩, [], .exact n⟩ = (⟨bytes, ⟨0x9000⟩⟩, a') ∧ I a'

theorem version_answers (hvalid : options.Valid) (hroom : 5 ≤ options.exchange.maxResponseBytes)
    (hA : Ideal A I) (ha : I a) : ∃ k r a', Answers A options a version k r a' 1 ∧ Greets r ∧
      r.data.length = 3 ∧ I a' := by
  obtain ⟨le, hclamp, hrange, hthree⟩ : ∃ le, clampLe version options = .ok le ∧
      le.InRange 256 ∧ 3 ≤ pageLimit le := by
    by_cases hsmall : 256 > options.exchange.maxResponseBytes - 2
    · have hmod : (options.exchange.maxResponseBytes - 2) % 2 ^ 32 =
          options.exchange.maxResponseBytes - 2 := Nat.mod_eq_of_lt (by omega)
      refine ⟨.exact (options.exchange.maxResponseBytes - 2), ?_, ⟨by omega, by omega⟩, ?_⟩
      · rw [← hmod]
        exact if_pos hsmall
      · exact Nat.le_sub_of_add_le hroom
    · exact ⟨.exact 256, if_neg hsmall, ⟨by decide, by decide⟩, by decide⟩
  have haccepted : ∃ k, ConversationState.new version options = .ok k :=
    (new_iff hvalid).mpr ⟨rfl, Nat.zero_le _, ⟨by decide, by decide⟩, le, hclamp,
      Or.inr ⟨hrange, Or.inl (Or.inl rfl)⟩⟩
  obtain ⟨k, hk⟩ := haccepted
  obtain ⟨le', encoding, cmd, hclamp', _, hinit⟩ := new_single rfl hk
  obtain ⟨major, minor, patch, a', hmajor, hanswer, hafter⟩ := hA.versions a le ha
  refine ⟨k, ⟨[major, minor, patch], ⟨0x9000⟩⟩, a', ?_, ⟨rfl, major, minor, patch, rfl, hmajor⟩,
    rfl, hafter⟩
  refine ⟨hk, ⟨by decide, by decide⟩, fun _ _ => .paged 0 rfl (by decide),
    ⟨le, hclamp, hanswer, ?_, ?_⟩, ?_⟩
  · simp only [List.length_cons, List.length_nil]
    omega
  · have hpages : 3 - pageLimit le = 0 := Nat.sub_eq_zero_of_le hthree
    simp only [List.length_cons, List.length_nil, hpages, divCeil_zero, hinit]
    rfl
  · exact (by decide : is61 0x9000 = false ∧ is6c 0x9000 = false)

theorem random_answers (hvalid : options.Valid) (hA : Ideal A I) (ha : I a) {n : ℕ}
    (hpos : 1 ≤ n) (hn : n ≤ randomChunk options) : ∃ k r a',
      Answers A options a (randomCommand n) k r a' 1 ∧ r.status.isSuccess = true ∧
        r.data.length = n ∧ I a' := by
  rw [randomChunk] at hn
  obtain ⟨bytes, a', hlen, hanswer, hafter⟩ := hA.supplies a n ha hpos (by omega)
  have hcommand : randomCommand n = { header := ⟨0, 0x84, 0, 0⟩, data := [], le := .exact n } := by
    rw [randomCommand, Nat.mod_eq_of_lt (by omega)]
  have hclamp : clampLe (randomCommand n) options = .ok (.exact n) := by
    rw [hcommand]
    exact if_neg (by omega)
  have hrange (most : ℕ) (hmost : 256 ≤ most) : (randomCommand n).le.InRange most := by
    rw [hcommand]
    exact ⟨by omega, by omega⟩
  have hrange' : (ExpectedLength.exact n).InRange 256 := ⟨by omega, by omega⟩
  have haccepted : ∃ k, ConversationState.new (randomCommand n) options = .ok k :=
    (new_iff hvalid).mpr ⟨rfl, Nat.zero_le _, hrange 65536 (by decide), .exact n, hclamp,
      Or.inr ⟨hrange', Or.inl (Or.inl rfl)⟩⟩
  obtain ⟨k, hk⟩ := haccepted
  refine ⟨k, ⟨bytes, ⟨0x9000⟩⟩, a', ?_, rfl, hlen, hafter⟩
  have hheader : (0 : UInt8) &&& 0x10 = 0 ∧ (0x84 : UInt8) ≠ 0xc0 := by decide
  have hstatus : is61 0x9000 = false ∧ is6c 0x9000 = false := by decide
  refine Answers.single hk rfl rfl (.paged 0 rfl (by decide)) hheader ?_ ?_ ?_ hstatus
  · rw [hcommand]
    exact hanswer
  · rw [hcommand]
    exact Nat.le_of_eq hlen
  · dsimp only
    omega

/-- The exchanges of the loop are the chunks that are left. The induction is on the bytes. -/
theorem served_random (hvalid : options.Valid) (hA : Ideal A I) {given : List ResponseData}
    {n : ℕ} (hn : s.remaining = n) (ha : I a) (h : Drawing length (randomChunk options) given s) :
    ∃ value a', Served random A options s a (randomCommand s.pending)
      (divCeil n (randomChunk options)) n (.ok value) a' := by
  have hresponse := hvalid.response
  have hchunk : 0 < randomChunk options := by
    rw [randomChunk]
    omega
  induction n using Nat.strong_induction_on generalizing s a given with
  | h n ih =>
    have hpos := h.unfinished
    have hpending := h.pending
    obtain ⟨k, r, a₁, hanswers, hsuccess, hlen, hafter⟩ :=
      @random_answers κ A I options a hvalid hA ha s.pending (by omega) (by omega)
    have hturn : random.next s (some r) =
        { s with bytes := s.bytes ++ r.data, remaining := s.remaining - s.pending }.request :=
      (random_drawing h.flags).trans (collect_of hsuccess hlen)
    have hstep := @divCeil_step (randomChunk options) n hchunk (by omega)
    rw [← hn, ← hpending, hn] at hstep
    rcases request_cases
      { s with bytes := s.bytes ++ r.data, remaining := s.remaining - s.pending } with
      ⟨hzero, hr⟩ | ⟨hmore, hr⟩
    · dsimp only at hzero
      have hserved := Served.done hanswers (hturn.trans hr)
      have hall : s.pending = n := by omega
      rw [hlen] at hserved
      rw [hstep, ← hall, Nat.sub_self, divCeil_zero]
      exact ⟨_, a₁, hserved⟩
    · dsimp only at hmore
      have hnext := h.collected hlen hmore
      obtain ⟨value, a', hrest⟩ := ih (n - s.pending) (by omega)
        (by dsimp only; rw [hn]) hafter hnext
      refine ⟨value, a', ?_⟩
      have hserved := Served.more hanswers (hturn.trans hr) hrest
      rw [hlen, show s.pending + (n - s.pending) = n by omega] at hserved
      rw [hstep]
      exact hserved

/-- The whole session: the version, then the chunks. -/
theorem served_selected (hvalid : options.Valid) (hroom : 5 ≤ options.exchange.maxResponseBytes)
    (hA : Ideal A I) (ha : I a) : ∃ value a',
      Served random A options { RandomMachine.new length options with started := true } a version
        (1 + divCeil length (randomChunk options)) (3 + length) (.ok value) a' := by
  obtain ⟨k, r, a₁, hanswers, hgreets, hlen, hafter⟩ := version_answers hvalid hroom hA ha
  have hturn : random.next { RandomMachine.new length options with started := true } (some r) =
      { RandomMachine.new length options with started := true, versionRead := true }.request :=
    (random_asking ⟨rfl, rfl⟩).trans hgreets.readVersion
  rcases request_cases
    { RandomMachine.new length options with started := true, versionRead := true } with
    ⟨hzero, hr⟩ | ⟨hmore, hr⟩
  · obtain rfl : length = 0 := hzero
    have hserved := Served.done hanswers (hturn.trans hr)
    rw [hlen] at hserved
    rw [divCeil_zero]
    exact ⟨_, a₁, hserved⟩
  · have hdrawing : Drawing length (randomChunk options) []
        { RandomMachine.new length options with
          started := true
          versionRead := true
          pending := min length (randomChunk options) } :=
      ⟨⟨rfl, rfl⟩, rfl, rfl, Nat.add_zero _, hmore, rfl⟩
    obtain ⟨value, a', hrest⟩ := served_random hvalid hA rfl hafter hdrawing
    have hserved := Served.more hanswers (hturn.trans hr) hrest
    rw [hlen] at hserved
    exact ⟨value, a', hserved⟩

end ideal

/-- Every run of a random operation, and what it comes to against a card that answers at once. -/
structure Randomness (length : ℕ) (options : OperationOptions)
    (op : Operation RandomMachine Bytes) : Prop where
  affordable : Affordable length options
  returned : ∀ calls value, (recorded random op calls).op.output = some value →
    Returned length (recorded random op calls).commands (recorded random op calls).responses value
  gated : ∀ calls c, c ∈ (recorded random op calls).commands → c.header.ins = 0x84 →
    ∃ v given, (recorded random op calls).responses = v :: given ∧ Greets v
  completes : 5 ≤ options.exchange.maxResponseBytes →
    ∀ {κ : Type} (A : Applet κ) (I : κ → Prop) (a : κ), Ideal A I → I a →
      ∃ value, Ends (execute random A op a).1 (.ok value) ∧ value.length = length ∧
        (execute random A op a).1.exchanges = 1 + divCeil length (randomChunk options) ∧
        (execute random A op a).1.exchanges ≤ options.limits.maxExchanges ∧
        (execute random A op a).1.responseBytes = length + 3 ∧
        (execute random A op a).1.responseBytes ≤ options.limits.maxTotalResponseBytes

section randomness

variable {length : ℕ} {options : OperationOptions} {op : Operation RandomMachine Bytes}

theorem returned_of_output (h : randomSelected length options = .ok op) {calls : List Call}
    {value : Bytes} (hout : (recorded random op calls).op.output = some value) :
    Returned length (recorded random op calls).commands (recorded random op calls).responses
      value := by
  obtain ⟨-, hmachine⟩ := randomSelected_eq_ok.mp h
  have hfollows := recorded_follows random hmachine calls
  have hs : (recorded random op calls).op.state = .completed := by
    apply hfollows.lifecycle.output.mp
    rw [hout]
    rfl
  obtain ⟨s, own, ht, _, hvalue⟩ := hfollows.standing.of_finished (Or.inl hs)
  obtain rfl := Option.some.inj (hout.symm.trans (hvalue hs))
  refine returned (new_described length options) (Nat.min_le_left _ _) ?_ ht
  intro value m hn
  cases hn

/-- Random bytes are neither short nor repeated, are never asked of an old application, and cost
what the constructor has checked. -/
theorem random_complete (h : randomSelected length options = .ok op) :
    Randomness length options op := by
  obtain ⟨haffordable, hmachine⟩ := randomSelected_eq_ok.mp h
  have hbytes := haffordable.bytes
  have hexchanges := haffordable.exchanges
  refine ⟨haffordable, ?_, ?_, ?_⟩
  · intro calls value hout
    exact returned_of_output h hout
  · intro calls c hc hins
    rcases (new_described length options).exposed hmachine calls with hnil | ⟨rs, s, hrs, hstages⟩
    · rw [hnil] at hc
      cases hc
    · obtain ⟨v, given, rfl, hgreets⟩ := hstages.greeted hc hins
      obtain ⟨more, hmore⟩ := hrs
      exact ⟨v, given ++ more, hmore.symm, hgreets⟩
  · intro hroom κ A I a hA ha
    obtain ⟨value, a', hserved⟩ :=
      @served_selected κ A I length options a haffordable.valid hroom hA ha
    obtain ⟨hends, -, hspent, hreceived⟩ :=
      execute_concludes hmachine rfl hserved (by omega) (by omega)
    obtain ⟨calls, hcalls⟩ := execute_recorded random A op a
    have hout := hends.2
    rw [hcalls] at hout
    have hlen := (returned_of_output h hout).length
    refine ⟨value, hends, hlen, hspent, by omega, by omega, by omega⟩

end randomness

/-- A card of version 6.0.0 that counts the bytes it has given. -/
def countingCard : Applet ℕ := fun given command =>
  if command.header.ins = 0xfd then (⟨[6, 0, 0], ⟨0x9000⟩⟩, given)
  else
    (⟨List.replicate (pageLimit command.le) (UInt8.ofNat given), ⟨0x9000⟩⟩,
      given + pageLimit command.le)

/-- Nine bytes over frames of eight: the version and two chunks. -/
theorem random_complete_nine : ∃ op value,
    randomSelected 9 { exchange := { maxResponseBytes := 8 } } = .ok op ∧
      Ends (execute random countingCard op 0).1 (.ok value) ∧ value.length = 9 ∧
      (execute random countingCard op 0).1.exchanges = 3 := by
  have h : randomSelected 9 { exchange := { maxResponseBytes := 8 } } = .ok _ := rfl
  have hideal : Ideal countingCard fun _ => True := by
    constructor
    · intro a le _
      exact ⟨6, 0, 0, a, by decide, rfl, trivial⟩
    · intro a n _ hlower hupper
      exact ⟨List.replicate n (UInt8.ofNat a), a + n, List.length_replicate, rfl, trivial⟩
  obtain ⟨value, hends, hlen, hexchanges, -⟩ :=
    (random_complete h).completes (by decide) countingCard (fun _ => True) 0 hideal trivial
  exact ⟨_, value, h, hends, hlen, hexchanges⟩

end PivRandom
