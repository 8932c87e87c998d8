import LibCanokey.OathAccessSafety
import LibCanokey.OathListing
import LibCanokey.ProtocolCompletion
import LibCanokey.ProtocolReassembly
import LibCanokey.ProtocolScripts

/-! # Listings in pages

What an operation returns when its listing comes in pages: where a page ends does not matter, and
no page is lost or read twice. -/
namespace OathPages

open BigEndian CheckedCursor ListTraversal ProtocolError ProtocolApdu ProtocolConversation
open ProtocolOperation ProtocolTranscript ProtocolStages ProtocolSegmentation ProtocolReassembly
open ProtocolSession ProtocolScripts ProtocolCompletion ScriptedRuns CompatProfile OathTypes
open OathExecute OathAccessSafety OathListing

/-- The pages of a card and the reply that ends them: an empty success, or the refusal of a
continuation after a success. -/
structure Paged (pages : List ResponseApdu) (final : ResponseApdu) : Prop where
  each : ∀ r ∈ pages, IsPage true r
  ends : final = ⟨[], ⟨0x9000⟩⟩ ∨
    final = ⟨[], ⟨0x6985⟩⟩ ∧ ∃ r, pages.getLast? = some r ∧ r.status = ⟨0x9000⟩

def payload (pages : List ResponseApdu) : Bytes := pages.flatMap ResponseApdu.data

/-- The operation has exposed the paged command of its request with `call`. -/
structure Exposed (hmac : HmacSha1) (op : Operation Oath Outcome) (calls : List Call) (call : Call)
    (c : LogicalCommand) : Prop where
  begun : begun (oath hmac) (recorded (oath hmac) op calls).op call = some c
  paged : c.continuation ≠ .none

/-- What comes of the pages: the outcome that they encode, or a failure. -/
structure Listed (request : Request) (legacy : Bool) (data : Bytes) (t : Recorded Oath Outcome) :
    Prop where
  complete : ∀ outcome, Encodes request legacy outcome data →
    t.op.state = .completed ∧ t.op.result = .ok outcome
  whole : (∀ outcome, ¬ Encodes request legacy outcome data) →
    t.op.state = .failed ∧ t.op.error = some invalid
  flawed : Flawed request legacy data → t.op.state = .failed ∧ t.op.error = some invalid

section turns

variable {hmac : HmacSha1} {s : Oath}

/-- No turn changes what was asked or the dialect. -/
structure Asks (s s' : Oath) : Prop where
  request : s'.request = s.request
  legacy : s'.legacy = s.legacy

theorem runTarget_asks (s : Oath) : Asks s s.runTarget.2 := by
  rw [Oath.runTarget]
  cases s.target <;> exact ⟨rfl, rfl⟩

theorem selected_asks (s : Oath) (selection : Selection) :
    Asks s (s.selected hmac selection).2 := by
  rw [Oath.selected]
  by_cases hselect : s.request.isSelect = true
  · rw [if_pos hselect]
    exact ⟨rfl, rfl⟩
  rw [if_neg hselect]
  by_cases hvendor : s.request.challengeResponse = true
  · rw [if_pos hvendor]
    exact runTarget_asks s
  rw [if_neg hvendor]
  cases s.access with
  | none =>
    cases selection.challenge with
    | none => exact runTarget_asks s
    | some challenge => exact ⟨rfl, rfl⟩
  | some access =>
    cases selection.challenge with
    | none => exact ⟨rfl, rfl⟩
    | some challenge =>
      dsimp only
      split_ifs <;> exact ⟨rfl, rfl⟩

theorem legacySelected_asks (s : Oath) (data : Bytes) : Asks s (s.legacySelected data).2 := by
  rw [Oath.legacySelected]
  split_ifs
  · exact ⟨rfl, rfl⟩
  · exact ⟨rfl, rfl⟩
  · exact runTarget_asks s

theorem validated_asks (s : Oath) (data : Bytes) : Asks s (s.validated hmac data).2 := by
  have hrun (access : Option Access) : Asks s { s with access := access }.runTarget.2 := by
    obtain ⟨hrequest, hlegacy⟩ := runTarget_asks { s with access := access }
    exact ⟨hrequest, hlegacy⟩
  unfold Oath.validated
  split
  · exact ⟨rfl, rfl⟩
  · split_ifs
    · exact ⟨rfl, rfl⟩
    · split
      · exact ⟨rfl, rfl⟩
      · split_ifs
        · exact ⟨rfl, rfl⟩
        · exact hrun none
  · exact ⟨rfl, rfl⟩

theorem next_asks (s : Oath) (input : Option ResponseData) : Asks s (s.next hmac input).2 := by
  unfold Oath.next
  split
  · exact ⟨rfl, rfl⟩
  · exact ⟨rfl, rfl⟩
  · next r _ =>
    by_cases hsuccess : r.status.isSuccess = true
    · rw [if_neg (not_not.mpr hsuccess)]
      split
      · by_cases hlegacy : s.legacy = true
        · rw [if_pos hlegacy]
          exact legacySelected_asks s r.data
        · rw [if_neg hlegacy]
          split
          · exact ⟨rfl, rfl⟩
          · exact selected_asks s _
      · exact validated_asks s r.data
      · exact ⟨rfl, rfl⟩
    · rw [if_pos hsuccess]
      exact ⟨rfl, rfl⟩

end turns

section runs

variable {hmac : HmacSha1} {profile : DeviceProfile} {serial : Option (FixedBytes 4)}
  {request : Request} {access : Option Access} {options : OperationOptions}
  {op : Operation Oath Outcome} {calls : List Call} {call : Call} {c : LogicalCommand}

theorem trace_asks {s₀ m : Oath} {cs : List LogicalCommand} {rs : List ResponseData}
    (h : Trace (oath hmac) s₀ cs rs m) : Asks s₀ m := by
  have hstep : ∀ s input c s', Asks s₀ s →
      (oath hmac).next s input = (.ok (.command c), s') → True ∧ Asks s₀ s' := by
    intro s input c s' hs hn
    have hkeep : Asks s ((oath hmac).next s input).2 := next_asks s input
    rw [hn] at hkeep
    exact ⟨trivial, hkeep.request.trans hs.request, hkeep.legacy.trans hs.legacy⟩
  have hboth : (∀ c ∈ cs, True) ∧ Asks s₀ m :=
    h.commands_mem (Q := fun _ => True) hstep ⟨rfl, rfl⟩
  exact hboth.2

/-- A paged request has one paged command, in either dialect. -/
theorem target_paged {legacy slots : Bool} (hpaged : Request.isPaged request legacy = true)
    (h : target hmac request legacy slots = .ok (some c)) :
    c.continuation = .oath (if legacy then 6 else 0xa5) true ∧ c.allowChaining = false := by
  cases request with
  | list =>
    cases h
    exact ⟨rfl, rfl⟩
  | calculateAll challenge format =>
    cases h
    exact ⟨rfl, rfl⟩
  | _ => cases hpaged

/-- SELECT and VALIDATE are not paged, so that a paged command is the target. -/
theorem paged_staged {s₀ m : Oath} {cs : List LogicalCommand} {rs : List ResponseData}
    (h : Staged hmac s₀ (cs ++ [c]) rs m) (hpaged : c.continuation ≠ .none) :
    m.stage = .command ∧ s₀.target = some c := by
  have hplain (explicitLe : Bool) {d : LogicalCommand} (hd : d.continuation = .none) :
      (withLe explicitLe d).continuation = .none := by
    cases explicitLe <;> exact hd
  generalize hall : cs ++ [c] = all at h
  cases h with
  | selecting =>
    obtain ⟨_, hlast⟩ := List.append_inj' (hall.trans (List.nil_append _).symm) rfl
    cases hlast
    exact absurd (hplain _ rfl) hpaged
  | @validating access challenge =>
    have hsplit : cs ++ [c] = [withLe s₀.explicitLe select] ++
        [OathExecute.validate hmac access challenge s₀.explicitLe] := hall
    obtain ⟨_, hlast⟩ := List.append_inj' hsplit rfl
    cases hlast
    exact absurd (hplain _ rfl) hpaged
  | running hm ht _ =>
    obtain ⟨_, hlast⟩ := List.append_inj' hall rfl
    cases hlast
    exact ⟨hm, ht⟩

/-- The machine behind an exposed paged command, and the conversation that it has begun. -/
theorem exposed_paged (h : operation hmac profile serial request access options = .ok op)
    (hpaged : Request.isPaged request (isLegacy profile) = true)
    (hexposed : Exposed hmac op calls call c) :
    ∃ m k o e b, m.stage = .command ∧ m.request = request ∧ m.legacy = isLegacy profile ∧
      o.machine = some m ∧ o.options = options ∧
      ConversationState.new c options = .ok k ∧ c.allowChaining = false ∧
      c.continuation = .oath (if isLegacy profile then 6 else 0xa5) true ∧
      (recorded (oath hmac) op (calls ++ [call])).op = waitingOp o k e b := by
  obtain ⟨s₀, hs, hop⟩ := operation_starts h
  have hfollows := recorded_follows (oath hmac) hop calls
  obtain ⟨input, m₀, m, k, total, hhanded, hm, hn, hnew, _, hcall⟩ :=
    begun_eq_some hfollows.lifecycle hexposed.begun
  have htrace := (hfollows.standing.lastTurn hhanded hm hn).1.trace
  have hasks := trace_asks htrace
  have hoptions := hfollows.lifecycle.options
  obtain ⟨hstage, htarget⟩ := paged_staged ((oath_described hs.stage).trace htrace) hexposed.paged
  obtain ⟨plain, hplain, hc⟩ := hs.target c htarget
  obtain ⟨hcontinuation, hchain⟩ := target_paged hpaged hplain
  refine ⟨m, k, { (recorded (oath hmac) op calls).op with machine := some m },
    (recorded (oath hmac) op calls).op.exchanges + 1, total, hstage,
    hasks.request.trans hs.asked, hasks.legacy.trans hs.legacy, rfl, hoptions, ?_, ?_, ?_, ?_⟩
  · rw [← hoptions]
    exact hnew
  · rw [hc]
    exact hchain
  · rw [hc]
    exact hcontinuation
  · rw [recorded_concat]
    exact hcall

/-- The pages of a paged command come back as one response, whatever ends them. -/
theorem paged_returns {k : ConversationState} {instruction : UInt8} {pages : List ResponseApdu}
    {final : ResponseApdu} (hv : options.Valid) (hnew : ConversationState.new c options = .ok k)
    (hchain : c.allowChaining = false) (hk : c.continuation = .oath instruction true)
    (hpages : Paged pages final) :
    Returns (ConversationState.advance options) k (pages ++ [final])
      ⟨payload pages, ⟨0x9000⟩⟩ := by
  obtain ⟨_, _, cmd, _, _, rfl⟩ := new_single hchain hnew
  obtain ⟨u, hu, hpu, hku, hdu, hou⟩ := after_pages (t := .initial c cmd []) hv rfl hk hpages.each
  have hdata : u.data = payload pages := hdu
  rcases hpages.ends with rfl | ⟨rfl, last, hlast, hstatus⟩
  · have hfinal := oath_final options (r := ⟨[], ⟨0x9000⟩⟩) hpu hku (by decide) (by decide)
      fun _ => by decide
    rw [hdata, List.append_nil] at hfinal
    exact ⟨pages, _, u, _, rfl, hu, hfinal⟩
  · have hpoll : u.oathPoll = true := by
      rw [hou last hlast, hstatus]
      decide
    refine ⟨pages, _, u, { u with data := [] }, rfl, hu, advance_finishes.mpr ⟨?_, rfl⟩⟩
    rw [← hdata]
    exact .polled instruction true hpu hku hpoll rfl

/-- A successful answer to the target command is the result of the request, whole or not at all. -/
theorem next_result {m : Oath} (hstage : m.stage = .command) (data : Bytes) :
    (oath hmac).next m (some ⟨data, ⟨0x9000⟩⟩) =
      ((result m.request data m.legacy).map .done, m) := by
  change Oath.next hmac m (some ⟨data, ⟨0x9000⟩⟩) = _
  simp only [Oath.next, hstage]
  rfl

/-- The pages reach the machine as one response, at the end of the calls that serve them. -/
theorem pages_handed (h : operation hmac profile serial request access options = .ok op)
    (hpaged : Request.isPaged request (isLegacy profile) = true)
    (hexposed : Exposed hmac op calls call c) {pages : List ResponseApdu} {final : ResponseApdu}
    (hpages : Paged pages final)
    (hroom : Room options (recorded (oath hmac) op (calls ++ [call])).op.exchanges
      (recorded (oath hmac) op (calls ++ [call])).op.responseBytes (pages ++ [final])) :
    ∃ m o e b, o.machine = some m ∧
      (recorded (oath hmac) op (calls ++ [call] ++ replies (pages ++ [final]))).op =
        handOver (oath hmac) o e b ⟨payload pages, ⟨0x9000⟩⟩ ∧
      (oath hmac).next m (some ⟨payload pages, ⟨0x9000⟩⟩) =
        ((result request (payload pages) (isLegacy profile)).map .done, m) := by
  obtain ⟨m, k, o, e, b, hstage, hrequest, hlegacy, hm, hoptions, hnew, hchain, hk, hop⟩ :=
    exposed_paged h hpaged hexposed
  obtain ⟨s₀, _, hstart⟩ := operation_starts h
  have hreturns := paged_returns (fromMachine_valid hstart) hnew hchain hk hpages
  rw [hop, ← hoptions] at hroom
  rw [← hoptions] at hreturns
  have hroom' : Room o.options e b (pages ++ [final]) := hroom
  have hrun := run_returns (M := oath hmac) hreturns hroom'
  have hnext := @next_result hmac m hstage (payload pages)
  rw [hrequest, hlegacy] at hnext
  rw [recorded_append, hop]
  exact ⟨m, o, _, _, hm, hrun, hnext⟩

/-- A listing is complete whatever its pages, and anything else is rejected as a whole. -/
theorem pages_listed (h : operation hmac profile serial request access options = .ok op)
    (hpaged : Request.isPaged request (isLegacy profile) = true)
    (hexposed : Exposed hmac op calls call c) {pages : List ResponseApdu} {final : ResponseApdu}
    (hpages : Paged pages final)
    (hroom : Room options (recorded (oath hmac) op (calls ++ [call])).op.exchanges
      (recorded (oath hmac) op (calls ++ [call])).op.responseBytes (pages ++ [final])) :
    Listed request (isLegacy profile) (payload pages)
      (recorded (oath hmac) op (calls ++ [call] ++ replies (pages ++ [final]))) := by
  obtain ⟨m, o, e, b, hm, hop, hnext⟩ := pages_handed h hpaged hexposed hpages hroom
  have hwhole : (∀ outcome, ¬ Encodes request (isLegacy profile) outcome (payload pages)) →
      (handOver (oath hmac) o e b ⟨payload pages, ⟨0x9000⟩⟩).state = .failed ∧
        (handOver (oath hmac) o e b ⟨payload pages, ⟨0x9000⟩⟩).error = some invalid := by
    intro hnone
    cases hresult : result request (payload pages) (isLegacy profile) with
    | ok outcome => exact absurd ((result_eq_ok hpaged).mp hresult) (hnone outcome)
    | error err =>
      rw [← result_error hpaged hresult]
      rw [hresult] at hnext
      exact handOver_error hm hnext
  refine ⟨?_, ?_, ?_⟩
  · intro outcome hencodes
    rw [(result_eq_ok hpaged).mpr hencodes] at hnext
    rw [hop]
    exact handOver_done hm hnext
  · intro hnone
    rw [hop]
    exact hwhole hnone
  · intro hflawed
    rw [hop]
    exact hwhole (flawed_not_encodes hpaged hflawed)

end runs

/-- Two credentials, of one and of two letters. -/
def exampleEntries : List Entry :=
  [⟨OathPutDecoding.exampleCredential.name, 0x21, none⟩,
    ⟨⟨[0x62, 0x63], by decide⟩, 0x12, none⟩]

/-- The first page ends within the name of the first record. -/
def examplePages : List ResponseApdu :=
  [⟨[0x72, 2, 0x21], ⟨0x6106⟩⟩, ⟨[0x61, 0x72, 3, 0x12, 0x62, 0x63], ⟨0x9000⟩⟩]

def exampleFinal : ResponseApdu := ⟨[], ⟨0x6985⟩⟩

/-- SELECT, answered without a challenge. -/
def exampleSelected : Call :=
  .advance [0x79, 3, 6, 0, 0, 0x71, 8, 0, 0, 0, 0, 0, 0, 0, 1, 0x90, 0]

def exampleListing : LogicalCommand := paged false (command 0xa1 0 0 [] (.exact 255))

/-- A 1.3.0 device, whose records are of two fields. -/
def legacyProfile : DeviceProfile := { modernProfile with firmware := some ⟨1, 3, 0, none⟩ }

def legacyEntries : List Entry :=
  [⟨OathPutDecoding.exampleCredential.name, 0x21, some 6⟩,
    ⟨⟨[0x62, 0x63], by decide⟩, 0x12, some 8⟩]

/-- The first page ends between the two fields of a record. -/
def legacyPages : List ResponseApdu :=
  [⟨[0x71, 1, 0x61], ⟨0x610b⟩⟩,
    ⟨[0x75, 2, 0x21, 6, 0x71, 2, 0x62, 0x63, 0x75, 2, 0x12], ⟨0x6101⟩⟩, ⟨[8], ⟨0x9000⟩⟩]

def legacyListing : LogicalCommand := paged true (command 3 0 0 [] (.exact 255))

/-- A code, and two credentials that CALCULATE ALL leaves out. -/
def exampleCalculations : List Calculation :=
  [⟨some OathPutDecoding.exampleCredential.name, 6, .truncated [0x12, 0x34, 0x56, 0x78]⟩,
    ⟨some ⟨[0x62, 0x63], by decide⟩, 8, .hotp⟩, ⟨some ⟨[0x64], by decide⟩, 6, .touchRequired⟩]

/-- The first page ends within the code, the second before the length of a field. -/
def calculationPages : List ResponseApdu :=
  [⟨[0x71, 1, 0x61, 0x76, 5, 6, 0x12, 0x34], ⟨0x9000⟩⟩,
    ⟨[0x56, 0x78, 0x71, 2, 0x62, 0x63, 0x77], ⟨0x6108⟩⟩,
    ⟨[1, 8, 0x71, 1, 0x64, 0x7c, 1, 6], ⟨0x9000⟩⟩]

/-- The 30-second counter of a TOTP code. -/
def exampleCounter : FixedBytes 8 := ⟨[0, 0, 0, 0, 3, 0x54, 0x32, 0x10], by decide⟩

def exampleCalculating : LogicalCommand :=
  paged false (command 0xa4 0 1 (field 0x74 exampleCounter.1) (.exact 255))

/-- LIST in both dialects, and CALCULATE ALL behind an access code. -/
theorem pages_listed_straddling :
    (∃ op, operation exampleHmac modernProfile none .list none {} = .ok op ∧
      (recorded (oath exampleHmac) op ([.start] ++ [exampleSelected] ++
        replies (examplePages ++ [exampleFinal]))).op.result = .ok (.entries exampleEntries)) ∧
    (∃ op, operation exampleHmac legacyProfile none .list none {} = .ok op ∧
      (recorded (oath exampleHmac) op ([.start] ++ [.advance [0x90, 0]] ++
        replies (legacyPages ++ [⟨[], ⟨0x9000⟩⟩]))).op.result = .ok (.entries legacyEntries)) ∧
    ∃ op, operation exampleHmac modernProfile none (.calculateAll exampleCounter .truncated)
        (some exampleAccess) {} = .ok op ∧
      (recorded (oath exampleHmac) op (exampleCalls.take 2 ++ exampleCalls.drop 2 ++
        replies (calculationPages ++ [exampleFinal]))).op.result =
          .ok (.calculations exampleCalculations) := by
  refine ⟨?_, ?_, ?_⟩
  · have hop : operation exampleHmac modernProfile none .list none {} = .ok _ := rfl
    have hpages : Paged examplePages exampleFinal := ⟨by decide, .inr ⟨rfl, _, rfl, rfl⟩⟩
    have hroom : Room {} 2 15 (examplePages ++ [exampleFinal]) :=
      ⟨by decide, by decide, by decide⟩
    have hexposed : ∀ op, operation exampleHmac modernProfile none .list none {} = .ok op →
        Exposed exampleHmac op [.start] exampleSelected exampleListing := by
      intro op h
      cases hop.symm.trans h
      exact ⟨rfl, by decide⟩
    have hencodes : Encodes .list (isLegacy modernProfile) (.entries exampleEntries)
        (payload examplePages) :=
      ⟨List.forall_mem_cons.mpr ⟨rfl, List.forall_mem_cons.mpr ⟨rfl, by simp⟩⟩, rfl⟩
    have hlisted := pages_listed hop rfl (hexposed _ hop) hpages hroom
    exact ⟨_, hop, (hlisted.complete (.entries exampleEntries) hencodes).2⟩
  · have hop : operation exampleHmac legacyProfile none .list none {} = .ok _ := rfl
    have hpages : Paged legacyPages ⟨[], ⟨0x9000⟩⟩ := ⟨by decide, .inl rfl⟩
    have hroom : Room {} 2 0 (legacyPages ++ [⟨[], ⟨0x9000⟩⟩]) :=
      ⟨by decide, by decide, by decide⟩
    have hexposed : ∀ op, operation exampleHmac legacyProfile none .list none {} = .ok op →
        Exposed exampleHmac op [.start] (.advance [0x90, 0]) legacyListing := by
      intro op h
      cases hop.symm.trans h
      exact ⟨rfl, by decide⟩
    have hencodes : Encodes .list (isLegacy legacyProfile) (.entries legacyEntries)
        (payload legacyPages) :=
      ⟨List.forall_mem_cons.mpr ⟨rfl, List.forall_mem_cons.mpr ⟨rfl, by simp⟩⟩, rfl⟩
    have hlisted := pages_listed hop rfl (hexposed _ hop) hpages hroom
    exact ⟨_, hop, (hlisted.complete (.entries legacyEntries) hencodes).2⟩
  · have hop : operation exampleHmac modernProfile none (.calculateAll exampleCounter .truncated)
        (some exampleAccess) {} = .ok _ := rfl
    have hpages : Paged calculationPages exampleFinal := ⟨by decide, .inr ⟨rfl, _, rfl, rfl⟩⟩
    have hroom : Room {} 3 50 (calculationPages ++ [exampleFinal]) :=
      ⟨by decide, by decide, by decide⟩
    have hexposed : ∀ op, operation exampleHmac modernProfile none
        (.calculateAll exampleCounter .truncated) (some exampleAccess) {} = .ok op →
        Exposed exampleHmac op (exampleCalls.take 2)
          (.advance ([0x75, 20] ++ (exampleHmac [] []).1 ++ [0x90, 0])) exampleCalculating := by
      intro op h
      cases hop.symm.trans h
      exact ⟨rfl, by decide⟩
    have hencodes : Encodes (.calculateAll exampleCounter .truncated) (isLegacy modernProfile)
        (.calculations exampleCalculations) (payload calculationPages) := by
      refine ⟨List.forall_mem_cons.mpr ⟨⟨rfl, by decide, rfl, rfl, by decide⟩, ?_⟩, rfl⟩
      exact List.forall_mem_cons.mpr ⟨⟨rfl, by decide, trivial⟩,
        List.forall_mem_cons.mpr ⟨⟨rfl, by decide, trivial⟩, by simp⟩⟩
    have hlisted := pages_listed hop rfl (hexposed _ hop) hpages hroom
    exact ⟨_, hop, (hlisted.complete (.calculations exampleCalculations) hencodes).2⟩

end OathPages
