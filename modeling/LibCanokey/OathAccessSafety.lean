import LibCanokey.CompatAlgorithms
import LibCanokey.OathExecute
import LibCanokey.ProtocolStages

/-! # Access to the OATH applet

Which answers of the card let a target command out, in every run of an operation: those to
SELECT and VALIDATE, by the dialect of the firmware and the access key that was supplied. -/
namespace OathAccessSafety

open BigEndian ListTraversal ProtocolError ProtocolApdu ProtocolConversation ProtocolOperation
open ProtocolTranscript ProtocolStages CompatProfile CompatAlgorithms OathTypes OathExecute

/-- SELECT was answered first, with this selection. -/
def Reported (rs : List ResponseData) (s : Selection) : Prop :=
  ∃ r rest, rs = r :: rest ∧ r.status.isSuccess = true ∧ selection r.data = .ok s

/-- SELECT asked for SHA-1 validation, and VALIDATE was answered with the one proof. -/
def Validated (hmac : HmacSha1) (access : Access) (rs : List ResponseData) : Prop :=
  ∃ r r' rest s, rs = r :: r' :: rest ∧ r.status.isSuccess = true ∧ selection r.data = .ok s ∧
    s.challenge.isSome = true ∧ s.algorithm = some 1 ∧ r'.status.isSuccess = true ∧
    fields r'.data = .ok [(0x75, (hmac access.key.1 access.challenge.1).1)]

/-- The answers that clear the way for a target command, with the commands they answer. -/
inductive Cleared (hmac : HmacSha1) (s₀ : Oath) :
    List LogicalCommand → List ResponseData → Prop where
  | legacy {r : ResponseData} (hl : s₀.legacy = true) (hr : r.status.isSuccess = true) :
      Cleared hmac s₀ [withLe s₀.explicitLe select] [r]
  | vendor {r : ResponseData} (hv : s₀.request.challengeResponse = true)
      (hr : r.status.isSuccess = true) : Cleared hmac s₀ [withLe s₀.explicitLe select] [r]
  | unprotected {r : ResponseData} {s : Selection} (ha : s₀.access = none)
      (hr : r.status.isSuccess = true) (hs : selection r.data = .ok s) (hc : s.challenge = none) :
      Cleared hmac s₀ [withLe s₀.explicitLe select] [r]
  | validated {access : Access} {challenge : FixedBytes 8} {r r' : ResponseData} {s : Selection}
      (ha : s₀.access = some access) (hv : s₀.request.challengeResponse = false)
      (hr : r.status.isSuccess = true) (hs : selection r.data = .ok s)
      (hc : s.challenge = some challenge) (halg : s.algorithm = some 1)
      (hr' : r'.status.isSuccess = true)
      (hf : fields r'.data = .ok [(0x75, (hmac access.key.1 access.challenge.1).1)]) :
      Cleared hmac s₀
        [withLe s₀.explicitLe select, OathExecute.validate hmac access challenge s₀.explicitLe]
        [r, r']

/-- Where an operation stands, by the commands exposed and the answers given. -/
inductive Staged (hmac : HmacSha1) (s₀ : Oath) :
    List LogicalCommand → List ResponseData → Oath → Prop where
  | selecting : Staged hmac s₀ [withLe s₀.explicitLe select] [] { s₀ with stage := .select }
  | validating {access : Access} {challenge : FixedBytes 8} {r : ResponseData} {s : Selection}
      {m : Oath} (hm : m = { s₀ with stage := .validate }) (ha : s₀.access = some access)
      (hv : s₀.request.challengeResponse = false)
      (hr : r.status.isSuccess = true) (hs : selection r.data = .ok s)
      (hc : s.challenge = some challenge) (halg : s.algorithm = some 1) :
      Staged hmac s₀
        [withLe s₀.explicitLe select, OathExecute.validate hmac access challenge s₀.explicitLe]
        [r] m
  | running {cs : List LogicalCommand} {rs : List ResponseData} {c : LogicalCommand} {m : Oath}
      (hm : m.stage = .command) (ht : s₀.target = some c) (h : Cleared hmac s₀ cs rs) :
      Staged hmac s₀ (cs ++ [c]) rs m

section turns

variable {hmac : HmacSha1} {s₀ : Oath}

/-- A turn goes on as described, or finishes with nothing to select alone or cleared. -/
def Turned (hmac : HmacSha1) (s₀ : Oath) (cs : List LogicalCommand) (rs : List ResponseData)
    (turn : Except Error (Action Outcome) × Oath) : Prop :=
  (∃ c, turn.1 = .ok (.command c) ∧ Staged hmac s₀ (cs ++ [c]) rs turn.2) ∨
    (∃ value, turn.1 = .ok (.done value) ∧
      (s₀.request.isSelect = true ∨ ∃ own given, Cleared hmac s₀ own given ∧ given <+: rs)) ∨
    ∃ e, turn.1 = .error e

theorem runTarget_turned {s : Oath} {cs : List LogicalCommand} {rs : List ResponseData}
    (ht : s.target = s₀.target) (h : Cleared hmac s₀ cs rs) : Turned hmac s₀ cs rs s.runTarget := by
  rw [Oath.runTarget]
  cases hc : s.target with
  | some c => exact Or.inl ⟨c, rfl, .running rfl (ht ▸ hc) h⟩
  | none => exact Or.inr (Or.inl ⟨_, rfl, Or.inr ⟨cs, rs, h, List.prefix_rfl⟩⟩)

theorem legacySelected_turned {r : ResponseData} (hl : s₀.legacy = true)
    (hr : r.status.isSuccess = true) :
    Turned hmac s₀ [withLe s₀.explicitLe select] [r]
      (Oath.legacySelected { s₀ with stage := .select } r.data) := by
  rw [Oath.legacySelected]
  by_cases hd : r.data = []
  · rw [if_neg (not_not.mpr hd)]
    by_cases hs : s₀.request.isSelect = true
    · rw [if_pos hs]
      exact Or.inr (Or.inl ⟨_, rfl, Or.inl hs⟩)
    · rw [if_neg hs]
      exact runTarget_turned rfl (.legacy hl hr)
  · rw [if_pos hd]
    exact Or.inr (Or.inr ⟨_, rfl⟩)

theorem selected_turned {r : ResponseData} {s : Selection} (hr : r.status.isSuccess = true)
    (hs : selection r.data = .ok s) :
    Turned hmac s₀ [withLe s₀.explicitLe select] [r]
      (Oath.selected hmac { s₀ with stage := .select } s) := by
  rw [Oath.selected]
  by_cases hsel : s₀.request.isSelect = true
  · rw [if_pos hsel]
    exact Or.inr (Or.inl ⟨_, rfl, Or.inl hsel⟩)
  rw [if_neg hsel]
  by_cases hv : s₀.request.challengeResponse = true
  · rw [if_pos hv]
    exact runTarget_turned rfl (.vendor hv hr)
  rw [if_neg hv]
  cases ha : s₀.access with
  | none =>
    cases hc : s.challenge with
    | none => exact runTarget_turned rfl (.unprotected ha hr hs hc)
    | some challenge => exact Or.inr (Or.inr ⟨_, rfl⟩)
  | some access =>
    cases hc : s.challenge with
    | none => exact Or.inr (Or.inr ⟨_, rfl⟩)
    | some challenge =>
      dsimp only
      by_cases halg : s.algorithm = some 1
      · rw [if_neg (not_not.mpr halg)]
        exact Or.inl ⟨_, rfl, .validating (by rw [ha]) ha (Bool.eq_false_iff.mpr hv) hr hs hc halg⟩
      · rw [if_pos halg]
        exact Or.inr (Or.inr ⟨_, rfl⟩)

theorem validated_turned {access : Access} {challenge : FixedBytes 8} {r r' : ResponseData}
    {s : Selection} (ha : s₀.access = some access) (hv : s₀.request.challengeResponse = false)
    (hr : r.status.isSuccess = true) (hs : selection r.data = .ok s)
    (hc : s.challenge = some challenge) (halg : s.algorithm = some 1)
    (hr' : r'.status.isSuccess = true) :
    Turned hmac s₀
      [withLe s₀.explicitLe select, OathExecute.validate hmac access challenge s₀.explicitLe]
      [r, r'] (Oath.validated hmac { s₀ with stage := .validate } r'.data) := by
  rw [Oath.validated]
  rcases hf : fields r'.data with e | entries
  · exact Or.inr (Or.inr ⟨_, rfl⟩)
  rcases entries with _ | ⟨⟨tag, bytes⟩, _ | ⟨second, rest⟩⟩
  · exact Or.inr (Or.inr ⟨_, rfl⟩)
  · dsimp only
    by_cases hshape : tag ≠ 0x75 ∨ bytes.length ≠ 20
    · rw [if_pos hshape]
      exact Or.inr (Or.inr ⟨_, rfl⟩)
    rw [if_neg hshape, ha]
    dsimp only
    by_cases hproof : bytes = (hmac access.key.1 access.challenge.1).1
    · rw [if_neg (not_not.mpr hproof)]
      push Not at hshape
      obtain ⟨rfl, _⟩ := hshape
      rw [hproof] at hf
      exact runTarget_turned rfl (.validated ha hv hr hs hc halg hr' hf)
    · rw [if_pos hproof]
      exact Or.inr (Or.inr ⟨_, rfl⟩)
  · exact Or.inr (Or.inr ⟨_, rfl⟩)

/-- One answer, from any stage that the description reaches. -/
theorem staged_turned {cs : List LogicalCommand} {rs : List ResponseData} {m : Oath}
    (h : Staged hmac s₀ cs rs m) (r : ResponseData) :
    Turned hmac s₀ cs (rs ++ [r]) ((oath hmac).next m (some r)) := by
  change Turned hmac s₀ cs (rs ++ [r]) (Oath.next hmac m (some r))
  by_cases hr' : r.status.isSuccess = true
  · cases h with
    | selecting =>
      simp only [Oath.next, hr', not_true_eq_false, if_false]
      by_cases hl : s₀.legacy = true
      · rw [if_pos hl]
        exact legacySelected_turned hl hr'
      · rw [if_neg hl]
        cases hs : selection r.data with
        | error e => exact Or.inr (Or.inr ⟨e, rfl⟩)
        | ok s => exact selected_turned hr' hs
    | validating hm ha hv hr hs hc halg =>
      subst hm
      simp only [Oath.next, hr', not_true_eq_false, if_false]
      exact validated_turned ha hv hr hs hc halg hr'
    | running hm ht h =>
      simp only [Oath.next, hm, hr', not_true_eq_false, if_false]
      cases hd : result m.request r.data m.legacy with
      | error e => exact Or.inr (Or.inr ⟨e, rfl⟩)
      | ok value =>
        exact Or.inr (Or.inl ⟨value, rfl, Or.inr ⟨_, _, h, List.prefix_append _ _⟩⟩)
  · refine Or.inr (Or.inr ⟨statusError m.request m.stage r.status, ?_⟩)
    cases h with
    | selecting => simp [Oath.next, hr']
    | validating hm => simp [Oath.next, hm, hr']
    | running hm => simp [Oath.next, hm, hr']

theorem oath_described (hs₀ : s₀.stage = .begin) : Described (oath hmac) s₀ (Staged hmac s₀) where
  opening := by
    intro c m h
    simp only [oath, Oath.next, hs₀] at h
    cases h
    exact .selecting
  answering := by
    intro cs rs m r c m' hm h
    rcases staged_turned hm r with ⟨c', hc, hstaged⟩ | ⟨value, hv, _⟩ | ⟨e, he⟩
    · rw [h] at hc hstaged
      cases hc
      exact hstaged
    · rw [h] at hv
      cases hv
    · rw [h] at he
      cases he

end turns

section commands

variable {hmac : HmacSha1} {profile : DeviceProfile} {request : Request} {access : Option Access}

/-- The dialect of firmware 1.3.0. -/
def isLegacy (profile : DeviceProfile) : Bool :=
  (profile.capability .oathLegacy).support == .supported

def hasSlots (profile : DeviceProfile) : Bool :=
  (profile.capability .oathSetDefaultSlots).support == .supported

def IsSelect (c : LogicalCommand) : Prop := c.header = ⟨0, 0xa4, 4, 0⟩

def IsValidate (c : LogicalCommand) : Prop := c.header = ⟨0, 0xa3, 0, 0⟩

/-- The command of a request, whatever Le it is given. -/
def IsTarget (hmac : HmacSha1) (profile : DeviceProfile) (request : Request) (c : LogicalCommand) :
    Prop :=
  ∃ plain, target hmac request (isLegacy profile) (hasSlots profile) = .ok (some plain) ∧
    c = { plain with le := c.le }

theorem target_header {legacy slots : Bool} {c : LogicalCommand}
    (h : target hmac request legacy slots = .ok (some c)) : ¬ IsSelect c ∧ ¬ IsValidate c := by
  cases request with
  | select => cases h
  | validate => cases h
  | put credential =>
    simp only [target] at h
    split_ifs at h
    cases h
    simp [IsSelect, IsValidate, command]
  | calculate name kind algorithm challenge format =>
    simp only [target] at h
    split_ifs at h
    all_goals
      cases h
      cases legacy <;> simp [IsSelect, IsValidate, command]
  | challengeResponseHmac slot challenge =>
    simp only [target] at h
    split_ifs at h
    cases h
    simp [IsSelect, IsValidate, command]
  | list =>
    cases h
    cases legacy <;> simp [IsSelect, IsValidate, command, paged]
  | calculateAll challenge format =>
    cases h
    cases legacy <;> simp [IsSelect, IsValidate, command, paged]
  | _ =>
    cases h
    simp [IsSelect, IsValidate, command]

theorem isTarget_header {c : LogicalCommand} (h : IsTarget hmac profile request c) :
    ¬ IsSelect c ∧ ¬ IsValidate c := by
  obtain ⟨plain, hplain, hc⟩ := h
  have hheader : c.header = plain.header := by rw [hc]
  rw [IsSelect, IsValidate, hheader]
  exact target_header hplain

theorem withLe_header (e : Bool) (c : LogicalCommand) : (withLe e c).header = c.header := by
  cases e <;> rfl

theorem withLe_data (e : Bool) (c : LogicalCommand) : (withLe e c).data = c.data := by
  cases e <;> rfl

theorem select_isSelect (e : Bool) : IsSelect (withLe e select) := by
  rw [IsSelect, withLe_header]
  rfl

theorem validate_isValidate (access : Access) (challenge : FixedBytes 8) (e : Bool) :
    IsValidate (OathExecute.validate hmac access challenge e) := by
  rw [IsValidate, OathExecute.validate, withLe_header]
  rfl

/-- What an accepted request has been checked for. -/
structure Admitted (profile : DeviceProfile) (request : Request) (access : Option Access) :
    Prop where
  oath : (profile.capability .oath).support = .supported
  select : request.isSelect = true → access = none
  vendor : request.challengeResponse = true → access = none
  modern : access.isSome = true → (profile.capability .oathModern).support = .supported

theorem requireWhen_eq_ok {needed : Bool} {status : CapabilityStatus} {u : Unit} :
    requireWhen needed status = .ok u ↔ (needed = true → status.support = .supported) := by
  cases needed with
  | true => simp [requireWhen, require_eq_ok]
  | false => simp [requireWhen]

theorem admitted_of_admission {u : Unit} (h : admission profile request access = .ok u) :
    Admitted profile request access := by
  obtain ⟨_, hoath, h⟩ := bind_eq_ok.mp h
  split_ifs at h with hbad hslots
  · obtain ⟨_, _, h⟩ := bind_eq_ok.mp h
    cases h
  obtain ⟨_, _, h⟩ := bind_eq_ok.mp h
  obtain ⟨_, hmodern, _⟩ := bind_eq_ok.mp h
  simp only [Bool.or_eq_true, Bool.and_eq_true, not_or, not_and, Bool.not_eq_true] at hbad
  obtain ⟨⟨hselect, _⟩, hvendor⟩ := hbad
  have hmodern := requireWhen_eq_ok.mp hmodern
  refine ⟨require_eq_ok.mp hoath, ?_, ?_, ?_⟩
  · intro hs
    simpa using hselect hs
  · intro hs
    simpa using hvendor hs
  · intro ha
    exact hmodern (by rw [ha]; rfl)

/-- A modern applet is not the legacy one. -/
theorem modern_not_legacy (h : (profile.capability .oathModern).support = .supported) :
    isLegacy profile = false := by
  obtain ⟨v, hv, _, hfirst, _⟩ := firmwareRange_supported.mp h
  by_contra hl
  rw [Bool.not_eq_false, isLegacy, beq_iff_eq] at hl
  obtain ⟨w, hw, _, _, hlast⟩ := firmwareRange_supported.mp hl
  cases hv.symm.trans hw
  simp only [Version.le, Bool.or_eq_true, Bool.and_eq_true, decide_eq_true_eq, beq_iff_eq]
    at hfirst hlast
  omega

end commands

section runs

variable {hmac : HmacSha1} {profile : DeviceProfile} {request : Request} {access : Option Access}
  {serial : Option (FixedBytes 4)} {options : OperationOptions}

/-- The operation starts before SELECT, with the command of its request. -/
structure Starts (hmac : HmacSha1) (profile : DeviceProfile) (request : Request)
    (access : Option Access) (s₀ : Oath) : Prop where
  admitted : Admitted profile request access
  stage : s₀.stage = .begin
  asked : s₀.request = request
  supplied : s₀.access = access
  legacy : s₀.legacy = isLegacy profile
  target : ∀ c, s₀.target = some c → IsTarget hmac profile request c

theorem pageLe_target {legacy : Bool} {plain shown : Option LogicalCommand} {c : LogicalCommand}
    (h : pageLe request legacy options plain = .ok shown) (hc : shown = some c) :
    ∃ c', plain = some c' ∧ c = { c' with le := c.le } := by
  rw [pageLe] at h
  split at h
  · cases h
    exact ⟨c, hc, rfl⟩
  · split_ifs at h
    cases h
    obtain ⟨c', hc', rfl⟩ := Option.map_eq_some_iff.mp hc
    exact ⟨c', hc', rfl⟩

theorem operation_starts {op : Operation Oath Outcome}
    (h : operation hmac profile serial request access options = .ok op) :
    ∃ s₀, Starts hmac profile request access s₀ ∧ Operation.fromMachine s₀ options = .ok op := by
  obtain ⟨_, hadm, h⟩ := bind_eq_ok.mp h
  obtain ⟨plain, hplain, h⟩ := bind_eq_ok.mp h
  obtain ⟨shown, hshown, h⟩ := bind_eq_ok.mp h
  obtain ⟨_, _, h⟩ := bind_eq_ok.mp h
  obtain ⟨_, _, h⟩ := bind_eq_ok.mp h
  obtain ⟨_, _, hop⟩ := bind_eq_ok.mp h
  refine ⟨_, ⟨admitted_of_admission hadm, rfl, rfl, rfl, rfl, ?_⟩, hop⟩
  intro c hc
  obtain ⟨c', hc', hsame⟩ := pageLe_target hshown hc
  obtain ⟨p, hp, rfl⟩ := Option.map_eq_some_iff.mp hc'
  refine ⟨p, hplain.trans (by rw [hp]), ?_⟩
  rw [hsame]
  cases profile.legacyExplicitLe <;> rfl

/-- The answers let the target of the request out. -/
def Gate (hmac : HmacSha1) (profile : DeviceProfile) (access : Option Access)
    (rs : List ResponseData) : Prop :=
  isLegacy profile = true ∨ (access = none ∧ ∃ s, Reported rs s ∧ s.challenge = none) ∨
    ∃ a, access = some a ∧ Validated hmac a rs

/-- VALIDATE, with the proof over the challenge that SELECT reported. -/
def Proves (hmac : HmacSha1) (access : Option Access) (rs : List ResponseData)
    (c : LogicalCommand) : Prop :=
  ∃ a s challenge, access = some a ∧ Reported rs s ∧ s.challenge = some challenge ∧
    s.algorithm = some 1 ∧
    c.data = [0x75, 20] ++ (hmac a.key.1 challenge.1).1 ++ [0x74, 8] ++ a.challenge.1

/-- What every run of an operation keeps to. -/
structure AccessSafe (hmac : HmacSha1) (profile : DeviceProfile) (request : Request)
    (access : Option Access) (t : Recorded Oath Outcome) : Prop where
  exposed : ∀ c ∈ t.commands, IsSelect c ∨ IsValidate c ∨ IsTarget hmac profile request c
  gate : ∀ c ∈ t.commands, IsTarget hmac profile request c → request.challengeResponse = false →
    Gate hmac profile access t.responses
  validation : ∀ c ∈ t.commands, IsValidate c → Proves hmac access t.responses c
  supplied : ∀ a, access = some a → isLegacy profile = false ∧
    ((∃ c ∈ t.commands, IsTarget hmac profile request c) ∨ t.op.state = .completed →
      Validated hmac a t.responses)
  vendor : request.challengeResponse = true →
    access = none ∧ ∀ c ∈ t.commands, ¬ IsValidate c

theorem validate_data (a : Access) (challenge : FixedBytes 8) (e : Bool) :
    (OathExecute.validate hmac a challenge e).data =
      [0x75, 20] ++ (hmac a.key.1 challenge.1).1 ++ [0x74, 8] ++ a.challenge.1 := by
  have hproof := (hmac a.key.1 challenge.1).2
  have hhost := a.challenge.2
  rw [OathExecute.validate, withLe_data]
  simp only [command, field, hproof, hhost, List.append_assoc]
  rfl

variable {s₀ : Oath}

theorem cleared_gate {cs : List LogicalCommand} {given rs : List ResponseData}
    (hs : Starts hmac profile request access s₀) (h : Cleared hmac s₀ cs given)
    (hrs : given <+: rs) (hv : request.challengeResponse = false) :
    Gate hmac profile access rs := by
  obtain ⟨rest, rfl⟩ := hrs
  cases h with
  | legacy hl _ => exact Or.inl (hs.legacy ▸ hl)
  | vendor hv' _ =>
    rw [hs.asked, hv] at hv'
    cases hv'
  | unprotected ha hr hsel hc =>
    exact Or.inr (Or.inl ⟨hs.supplied ▸ ha, _, ⟨_, rest, rfl, hr, hsel⟩, hc⟩)
  | validated ha _ hr hsel hc halg hr' hf =>
    refine Or.inr (Or.inr ⟨_, hs.supplied ▸ ha, _, _, rest, _, rfl, hr, hsel, ?_, halg, hr', hf⟩)
    rw [hc]
    rfl

/-- With a key, only its validation clears the way. -/
theorem gate_validated {a : Access} {rs : List ResponseData}
    (hs : Starts hmac profile request (some a) s₀) (h : Gate hmac profile (some a) rs) :
    Validated hmac a rs := by
  rcases h with hl | ⟨ha, _⟩ | ⟨a', ha, hv⟩
  · rw [modern_not_legacy (hs.admitted.modern rfl)] at hl
    cases hl
  · cases ha
  · cases ha
    exact hv

/-- The commands that clear the way are SELECT and the proof. -/
theorem cleared_commands {cs : List LogicalCommand} {given rs : List ResponseData}
    (hs : Starts hmac profile request access s₀) (h : Cleared hmac s₀ cs given)
    (hrs : given <+: rs) : ∀ c ∈ cs, IsSelect c ∨ (IsValidate c ∧
      request.challengeResponse = false ∧ Proves hmac access rs c) := by
  have hselect : ∀ c ∈ [withLe s₀.explicitLe select], IsSelect c ∨ (IsValidate c ∧
      request.challengeResponse = false ∧ Proves hmac access rs c) := by
    intro c hc
    rw [List.mem_singleton.mp hc]
    exact Or.inl (select_isSelect _)
  obtain ⟨rest, rfl⟩ := hrs
  cases h with
  | legacy _ _ => exact hselect
  | vendor _ _ => exact hselect
  | unprotected _ _ _ _ => exact hselect
  | @validated a challenge r r' s ha hv hr hsel hc halg _ _ =>
    intro c hmem
    rcases List.mem_cons.mp hmem with rfl | hmem
    · exact Or.inl (select_isSelect _)
    · rw [List.mem_singleton.mp hmem]
      exact Or.inr ⟨validate_isValidate _ _ _, hs.asked ▸ hv, a, s, challenge, hs.supplied ▸ ha,
        ⟨r, r' :: rest, rfl, hr, hsel⟩, hc, halg, validate_data _ _ _⟩

/-- What the commands of a described run are. -/
theorem staged_commands {cs : List LogicalCommand} {given rs : List ResponseData} {m : Oath}
    (hs : Starts hmac profile request access s₀) (h : Staged hmac s₀ cs given m)
    (hrs : given <+: rs) : ∀ c ∈ cs, IsSelect c ∨
      (IsValidate c ∧ request.challengeResponse = false ∧ Proves hmac access rs c) ∨
      (IsTarget hmac profile request c ∧
        (request.challengeResponse = false → Gate hmac profile access rs)) := by
  cases h with
  | selecting =>
    intro c hc
    rw [List.mem_singleton.mp hc]
    exact Or.inl (select_isSelect _)
  | @validating a challenge r s _ _ ha hv hr hsel hc halg =>
    obtain ⟨rest, rfl⟩ := hrs
    intro c hmem
    rcases List.mem_cons.mp hmem with rfl | hmem
    · exact Or.inl (select_isSelect _)
    · rw [List.mem_singleton.mp hmem]
      exact Or.inr (Or.inl ⟨validate_isValidate _ _ _, hs.asked ▸ hv, a, s, challenge,
        hs.supplied ▸ ha, ⟨r, rest, rfl, hr, hsel⟩, hc, halg, validate_data _ _ _⟩)
  | running hm ht h =>
    intro c hmem
    rcases List.mem_append.mp hmem with hmem | hmem
    · rcases cleared_commands hs h hrs c hmem with hc | hc
      · exact Or.inl hc
      · exact Or.inr (Or.inl hc)
    · rw [List.mem_singleton.mp hmem]
      exact Or.inr (Or.inr ⟨hs.target _ ht, cleared_gate hs h hrs⟩)

theorem select_not_validate {c : LogicalCommand} (h : IsSelect c) : ¬ IsValidate c := by
  intro hv
  rw [IsSelect] at h
  rw [IsValidate, h] at hv
  cases hv

/-- A completed run was SELECT alone or had its way cleared. -/
theorem completed_cleared {op : Operation Oath Outcome} {calls : List Call}
    (hs : Starts hmac profile request access s₀)
    (hop : Operation.fromMachine s₀ options = .ok op)
    (hdone : (recorded (oath hmac) op calls).op.state = .completed) :
    request.isSelect = true ∨ ∃ own given, Cleared hmac s₀ own given ∧
      given <+: (recorded (oath hmac) op calls).responses := by
  have hdescribed := @oath_described hmac s₀ hs.stage
  refine @Described.finished _ _ _ _ _ hdescribed
    (fun _ rs => request.isSelect = true ∨ ∃ own given, Cleared hmac s₀ own given ∧ given <+: rs)
    ?_ ?_ _ _ hop _ hdone
  · intro value m h
    simp only [oath, Oath.next, hs.stage] at h
    cases h
  · intro cs rs m r value m' hm h
    rcases staged_turned hm r with ⟨c, hc, _⟩ | ⟨value', _, hq⟩ | ⟨e, he⟩
    · rw [h] at hc
      cases hc
    · exact hs.asked ▸ hq
    · rw [h] at he
      cases he

/-- The target is let out by the answers of the card alone. -/
theorem access_safe (hmac : HmacSha1) {profile : DeviceProfile} {serial : Option (FixedBytes 4)}
    {request : Request} {access : Option Access} {options : OperationOptions}
    {op : Operation Oath Outcome}
    (h : operation hmac profile serial request access options = .ok op) (calls : List Call) :
    AccessSafe hmac profile request access (recorded (oath hmac) op calls) := by
  obtain ⟨s₀, hs, hop⟩ := operation_starts h
  have hdescribed := @oath_described hmac s₀ hs.stage
  have hcommands : ∀ c ∈ (recorded (oath hmac) op calls).commands, IsSelect c ∨
      (IsValidate c ∧ request.challengeResponse = false ∧
        Proves hmac access (recorded (oath hmac) op calls).responses c) ∨
      (IsTarget hmac profile request c ∧ (request.challengeResponse = false →
        Gate hmac profile access (recorded (oath hmac) op calls).responses)) := by
    rcases hdescribed.exposed hop calls with hnil | ⟨rs, m, hrs, hstaged⟩
    · intro c hc
      rw [hnil] at hc
      cases hc
    · exact staged_commands hs hstaged hrs
  have hgate : ∀ c ∈ (recorded (oath hmac) op calls).commands, IsTarget hmac profile request c →
      request.challengeResponse = false →
        Gate hmac profile access (recorded (oath hmac) op calls).responses := by
    intro c hc htarget
    obtain ⟨hnot, hnot'⟩ := isTarget_header htarget
    rcases hcommands c hc with hsel | ⟨hval, _⟩ | ⟨_, hg⟩
    · exact absurd hsel hnot
    · exact absurd hval hnot'
    · exact hg
  have hproves : ∀ c ∈ (recorded (oath hmac) op calls).commands, IsValidate c →
      request.challengeResponse = false ∧
        Proves hmac access (recorded (oath hmac) op calls).responses c := by
    intro c hc hval
    rcases hcommands c hc with hsel | ⟨_, hp⟩ | ⟨htarget, _⟩
    · exact absurd hval (select_not_validate hsel)
    · exact hp
    · exact absurd hval (isTarget_header htarget).2
  refine ⟨?_, hgate, fun c hc hval => (hproves c hc hval).2, ?_, ?_⟩
  · intro c hc
    rcases hcommands c hc with hsel | ⟨hval, _⟩ | ⟨htarget, _⟩
    · exact Or.inl hsel
    · exact Or.inr (Or.inl hval)
    · exact Or.inr (Or.inr htarget)
  · rintro a rfl
    have hvendor : request.challengeResponse = false := by
      by_contra hv
      rw [Bool.not_eq_false] at hv
      cases hs.admitted.vendor hv
    refine ⟨modern_not_legacy (hs.admitted.modern rfl), ?_⟩
    rintro (⟨c, hc, htarget⟩ | hdone)
    · exact gate_validated hs (hgate c hc htarget hvendor)
    · rcases completed_cleared hs hop hdone with hsel | ⟨own, given, hcleared, hgiven⟩
      · cases hs.admitted.select hsel
      · exact gate_validated hs (cleared_gate hs hcleared hgiven hvendor)
  · intro hv
    refine ⟨hs.admitted.vendor hv, ?_⟩
    intro c hc hval
    rw [hv] at hproves
    cases (hproves c hc hval).1

end runs

/-- A 3.1.0 device. -/
def modernProfile : DeviceProfile :=
  { firmware := some ⟨3, 1, 0, none⟩
    pivVersion := none
    config := none
    legacyPivExtensions := none
    warnings := [] }

def cardChallenge : Bytes := [1, 2, 3, 4, 5, 6, 7, 8]

/-- HMAC-SHA1 under the key `00` to `0F`, of the two challenges of the example. -/
def exampleHmac : HmacSha1 := fun _ message =>
  if message = cardChallenge then
    ⟨[0xbb, 0xc8, 0x97, 0x37, 0x4e, 0x60, 0xc2, 0x73, 0x9a, 0x90, 0x01, 0xc4, 0x61, 0x3c, 0xd3,
      0x64, 0x11, 0x2a, 0x1a, 0x5e], by decide⟩
  else
    ⟨[0x6a, 0x4c, 0x9c, 0x47, 0x69, 0x9e, 0x35, 0x5f, 0xdf, 0xb0, 0x35, 0xb0, 0x2e, 0x94, 0x86,
      0x73, 0x3e, 0x7c, 0x7b, 0x6c], by decide⟩

def exampleAccess : Access where
  key := ⟨[0, 1, 2, 3, 4, 5, 6, 7, 8, 9, 10, 11, 12, 13, 14, 15], by decide⟩
  challenge := ⟨[8, 7, 6, 5, 4, 3, 2, 1], by decide⟩

/-- SELECT with a challenge, VALIDATE with its proof and the removal of the access code. -/
def exampleCalls : List Call :=
  [.start,
    .advance ([0x79, 3, 6, 0, 0, 0x71, 8, 0, 0, 0, 0, 0, 0, 0, 1, 0x74, 8] ++ cardChallenge ++
      [0x7b, 1, 1, 0x90, 0]),
    .advance ([0x75, 20] ++ (exampleHmac [] []).1 ++ [0x90, 0])]

theorem access_safe_clearCode :
    ∃ op, operation exampleHmac modernProfile none .clearCode (some exampleAccess) {} = .ok op ∧
      (recorded (oath exampleHmac) op exampleCalls).commands =
        [select, OathExecute.validate exampleHmac exampleAccess ⟨cardChallenge, by decide⟩ false,
          command 3 0 0 [0x73, 0] .absent] ∧
      AccessSafe exampleHmac modernProfile .clearCode (some exampleAccess)
        (recorded (oath exampleHmac) op exampleCalls) := by
  have hop : operation exampleHmac modernProfile none .clearCode (some exampleAccess) {} = .ok _ :=
    rfl
  exact ⟨_, hop, rfl, access_safe exampleHmac hop exampleCalls⟩

end OathAccessSafety
