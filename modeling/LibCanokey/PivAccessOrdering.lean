import LibCanokey.PivAccess
import LibCanokey.PivManagementAuthentication

/-! # The order of selection, authentication and target

The complete preambles of each access, the invariant that places a wrapped target in one of
them or after it, and what an operation over any target exposes as a result. -/
namespace PivAccessOrdering

open BigEndian ListTraversal ProtocolError ProtocolApdu ProtocolConversation ProtocolOperation
open ScriptedRuns ProtocolTranscript PivCommand PivManagement PivManagementAuthentication PivAccess

/-- SELECT and a management authentication, if any, with the answers they require. -/
inductive Cleared (cipher : BlockCipher) :
    Option ManagementAuthentication → List LogicalCommand → List ResponseData → Prop where
  | plain {r : ResponseData} (hr : r.status.isSuccess = true) : Cleared cipher none [select] [r]
  | management (auth : ManagementAuthentication) (b : Block auth.key.algorithm)
      {r : ResponseData} (hr : r.status.isSuccess = true) :
      Cleared cipher (some auth) [select, firstCommand auth, secondCommand cipher auth b]
        [r, firstReply auth b, finalReply cipher auth]

/-- A complete preamble of an access with the answers it requires. -/
inductive Preamble (cipher : BlockCipher) :
    Access → List LogicalCommand → List ResponseData → Prop where
  | existing : Preamble cipher .existing [] []
  | cleared {access : Access} {cs : List LogicalCommand} {rs : List ResponseData}
      (hne : access.isExisting = false) (hp : access.pinOf = none)
      (hc : Cleared cipher access.managementOf cs rs) : Preamble cipher access cs rs
  | verified {access : Access} {pin : Pin} {cs : List LogicalCommand} {rs : List ResponseData}
      (hp : access.pinOf = some pin) (hc : Cleared cipher access.managementOf cs rs) :
      Preamble cipher access (cs ++ [verifyPin pin]) (rs ++ [success []])

/-- The number of preamble commands of an access. -/
def preambleLength (access : Access) : ℕ :=
  (if access.isExisting then 0 else 1) + (if access.managementOf.isSome then 2 else 0) +
    if access.pinOf.isSome then 1 else 0

theorem existing_parts {access : Access} (h : access.isExisting = true) :
    access = .existing ∧ access.managementOf = none ∧ access.pinOf = none := by
  cases access <;> first | exact ⟨rfl, rfl, rfl⟩ | cases h

theorem pinOf_not_existing {access : Access} {pin : Pin} (h : access.pinOf = some pin) :
    access.isExisting = false := by
  cases access <;> first | rfl | cases h

theorem Preamble.lengths {cipher : BlockCipher} {access : Access} {cs : List LogicalCommand}
    {rs : List ResponseData} (h : Preamble cipher access cs rs) :
    cs.length = preambleLength access ∧ rs.length = preambleLength access := by
  have hcleared {cs : List LogicalCommand} {rs : List ResponseData}
      (hc : Cleared cipher access.managementOf cs rs) :
      cs.length = 1 + (if access.managementOf.isSome then 2 else 0) ∧
        rs.length = 1 + (if access.managementOf.isSome then 2 else 0) := by
    generalize access.managementOf = auth at hc
    cases hc <;> exact ⟨rfl, rfl⟩
  cases h with
  | existing => exact ⟨rfl, rfl⟩
  | cleared hne hp hc =>
    obtain ⟨hcs, hrs⟩ := hcleared hc
    simp only [preambleLength, hne, hp, hcs, hrs]
    simp
  | verified hp hc =>
    obtain ⟨hcs, hrs⟩ := hcleared hc
    simp only [preambleLength, pinOf_not_existing hp, hp, List.length_append, hcs, hrs]
    simp

variable {σ : Type*} {T : Type} {cipher : BlockCipher} {M : Machine σ T} {legacy : Bool}
  {access : Access} {t₀ : σ}

/-- Where a wrapped target stands, by the commands exposed and the answers given. -/
inductive Staged (cipher : BlockCipher) (M : Machine σ T) (legacy : Bool) (access : Access)
    (t₀ : σ) : List LogicalCommand → List ResponseData → Selected σ → Prop where
  | selecting (hne : access.isExisting = false) :
      Staged cipher M legacy access t₀ [select] []
        ⟨.select, legacy, access.managementOf.map .new, access.pinOf, t₀⟩
  | authenticating {auth : ManagementAuthentication} {r : ResponseData}
      {cs : List LogicalCommand} {rs : List ResponseData} {m : ManagementMachine}
      (ha : access.managementOf = some auth) (hr : r.status.isSuccess = true)
      (ht : Trace (management cipher) (.new auth) cs rs m) :
      Staged cipher M legacy access t₀ (select :: cs) (r :: rs)
        ⟨.management, legacy, some m, access.pinOf, t₀⟩
  | verifying {pin : Pin} {cs : List LogicalCommand} {rs : List ResponseData}
      (hp : access.pinOf = some pin) (hc : Cleared cipher access.managementOf cs rs) :
      Staged cipher M legacy access t₀ (cs ++ [verifyPin pin]) rs ⟨.pin, legacy, none, none, t₀⟩
  | running {cs own : List LogicalCommand} {rs answers : List ResponseData} {t : σ}
      (hp : Preamble cipher access cs rs) (ht : Trace M t₀ own answers t) :
      Staged cipher M legacy access t₀ (cs ++ own) (rs ++ answers)
        ⟨.target, legacy, none, none, t⟩

/-- What the wrapper is left with when it fails or finishes. -/
inductive Stopped (cipher : BlockCipher) (M : Machine σ T) (access : Access) (t₀ : σ)
    (result : Except Error (Action T)) :
    List LogicalCommand → List ResponseData → Selected σ → Prop where
  | early {e : Error} {cs : List LogicalCommand} {rs : List ResponseData} {s : Selected σ}
      (he : result = .error e) (hs : s.stage ≠ .target)
      (hbad : ¬ ∃ full answers, Preamble cipher access full answers ∧ rs <+: answers) :
      Stopped cipher M access t₀ result cs rs s
  | late {cs own : List LogicalCommand} {rs answers : List ResponseData} {s : Selected σ}
      (hs : s.stage = .target) (hp : Preamble cipher access cs rs)
      (ht : LastTurn M t₀ result own answers s.target) :
      Stopped cipher M access t₀ result (cs ++ own) (rs ++ answers) s

/-- A turn of the wrapper goes on with a command or stops, as `Staged` and `Stopped` say. -/
def Turned (cipher : BlockCipher) (M : Machine σ T) (legacy : Bool) (access : Access) (t₀ : σ)
    (cs : List LogicalCommand) (rs : List ResponseData)
    (turn : Except Error (Action T) × Selected σ) : Prop :=
  (∃ c, turn.1 = .ok (.command c) ∧ Staged cipher M legacy access t₀ (cs ++ [c]) rs turn.2) ∨
    ((∀ c, turn.1 ≠ .ok (.command c)) ∧ Stopped cipher M access t₀ turn.1 cs rs turn.2)

theorem Cleared.answers {auth : Option ManagementAuthentication} {cs : List LogicalCommand}
    {rs : List ResponseData} (h : Cleared cipher auth cs rs) :
    ∃ r, r.status.isSuccess = true ∧ (auth = none ∧ rs = [r] ∨
      ∃ a b, auth = some a ∧ rs = [r, firstReply a b, finalReply cipher a]) := by
  cases h with
  | plain hr => exact ⟨_, hr, Or.inl ⟨rfl, rfl⟩⟩
  | management a b hr => exact ⟨_, hr, Or.inr ⟨a, b, rfl, rfl⟩⟩

/-- The answers a preamble requires, without its commands. -/
theorem Preamble.answers {full : List LogicalCommand} {rs : List ResponseData}
    (h : Preamble cipher access full rs) (hne : access.isExisting = false) :
    ∃ cs rs', Cleared cipher access.managementOf cs rs' ∧
      rs = rs' ++ (if access.pinOf.isSome then [success []] else []) := by
  cases h with
  | existing => cases hne
  | cleared _ hp hc => exact ⟨_, _, hc, by simp [hp]⟩
  | verified hp hc => exact ⟨_, _, hc, by simp [hp]⟩

theorem prefix_singleton {r : ResponseData} {rs : List ResponseData} (h : [r] <+: rs) :
    ∃ rest, rs = r :: rest := by
  obtain ⟨rest, rfl⟩ := h
  exact ⟨rest, rfl⟩

/-- The first answer is a successful SELECT. -/
theorem select_answer {r : ResponseData} {full : List LogicalCommand} {rs : List ResponseData}
    (hne : access.isExisting = false) (h : Preamble cipher access full rs) (hr : [r] <+: rs) :
    r.status.isSuccess = true := by
  obtain ⟨rest, rfl⟩ := prefix_singleton hr
  obtain ⟨cs, rs', hc, heq⟩ := h.answers hne
  obtain ⟨r', hs, ⟨_, rfl⟩ | ⟨a, b, _, rfl⟩⟩ := hc.answers
  all_goals
    rw [List.cons_append] at heq
    rw [(List.cons.inj heq).1]
    exact hs

theorem management_answers {auth : ManagementAuthentication} {r : ResponseData}
    {full : List LogicalCommand} {rs answers : List ResponseData}
    (ha : access.managementOf = some auth) (h : Preamble cipher access full answers)
    (hr : r :: rs <+: answers) :
    ∃ b, rs <+: [firstReply auth b, finalReply cipher auth] ++
      (if access.pinOf.isSome then [success []] else []) := by
  have hne : access.isExisting = false := by
    cases access <;> first | rfl | cases ha
  obtain ⟨cs, rs', hc, rfl⟩ := h.answers hne
  obtain ⟨r', _, ⟨hn, _⟩ | ⟨a, b, hs, rfl⟩⟩ := hc.answers
  · rw [ha] at hn
    cases hn
  · rw [ha] at hs
    cases hs
    obtain ⟨_, htail⟩ := List.cons_prefix_cons.mp hr
    exact ⟨b, htail⟩

theorem pin_answer {pin : Pin} {r : ResponseData} {cs full : List LogicalCommand}
    {rs answers : List ResponseData} (hp : access.pinOf = some pin)
    (hc : Cleared cipher access.managementOf cs rs) (h : Preamble cipher access full answers)
    (hr : rs ++ [r] <+: answers) : r = success [] := by
  obtain ⟨cs', rs', hc', rfl⟩ := h.answers (pinOf_not_existing hp)
  have hlen : rs.length = rs'.length := by
    obtain ⟨_, _, ⟨hn, rfl⟩ | ⟨_, _, hn, rfl⟩⟩ := hc.answers
    all_goals
      obtain ⟨_, _, ⟨hn', rfl⟩ | ⟨_, _, hn', rfl⟩⟩ := hc'.answers
      all_goals first | rfl | (rw [hn] at hn'; cases hn')
  rw [hp] at hr
  obtain ⟨rest, hrest⟩ := hr
  rw [List.append_assoc] at hrest
  obtain ⟨_, htail⟩ := List.append_inj hrest hlen
  exact (List.cons.inj htail).1

/-- A turn of the target, after a complete preamble. -/
theorem target_turned {cs own : List LogicalCommand} {rs answers : List ResponseData} {t : σ}
    {input : Option ResponseData} (hp : Preamble cipher access cs rs)
    (hlast : LastTurn M t₀ (M.next t input).1 own answers (M.next t input).2) :
    Turned cipher M legacy access t₀ (cs ++ own) (rs ++ answers)
      (Selected.targetNext M ⟨.target, legacy, none, none, t⟩ input) := by
  by_cases hc : ∃ c, (M.next t input).1 = .ok (.command c)
  · obtain ⟨c, hc⟩ := hc
    refine Or.inl ⟨c, hc, ?_⟩
    rw [hc] at hlast
    rw [List.append_assoc]
    exact .running hp hlast.trace
  · push Not at hc
    exact Or.inr ⟨hc, .late rfl hp hlast⟩

theorem first_turned {cs : List LogicalCommand} {rs : List ResponseData}
    (hp : Preamble cipher access cs rs) :
    Turned cipher M legacy access t₀ cs rs
      (Selected.targetNext M ⟨.target, legacy, none, none, t₀⟩ none) := by
  have h : Turned cipher M legacy access t₀ (cs ++ []) (rs ++ []) _ :=
    target_turned hp (LastTurn.opening rfl)
  rwa [List.append_nil, List.append_nil] at h

/-- After SELECT and the management authentication comes VERIFY or the target. -/
theorem cleared_turned {stage : Stage} {cs : List LogicalCommand} {rs : List ResponseData}
    (hne : access.isExisting = false) (hc : Cleared cipher access.managementOf cs rs) :
    Turned cipher M legacy access t₀ cs rs
      (Selected.targetOrPin M ⟨stage, legacy, none, access.pinOf, t₀⟩) := by
  cases hp : access.pinOf with
  | none => exact first_turned (.cleared hne hp hc)
  | some pin => exact Or.inl ⟨verifyPin pin, rfl, .verifying hp hc⟩

theorem early_turned {e : Error} {cs : List LogicalCommand} {rs : List ResponseData}
    {s : Selected σ} (hs : s.stage ≠ .target)
    (hbad : ∀ full answers, Preamble cipher access full answers → ¬ rs <+: answers) :
    Turned cipher M legacy access t₀ cs rs (.error e, s) := by
  refine Or.inr ⟨?_, .early rfl hs ?_⟩
  · intro c hc
    cases hc
  · rintro ⟨full, answers, hp, hpre⟩
    exact hbad full answers hp hpre

theorem select_turned {r : ResponseData} (hne : access.isExisting = false) :
    Turned cipher M legacy access t₀ [select] [r]
      (Selected.selectNext cipher M
        ⟨.select, legacy, access.managementOf.map .new, access.pinOf, t₀⟩ (some r)) := by
  by_cases hr : r.status.isSuccess = true
  · have hok : r.ensureSuccess .select = .ok () := ensureSuccess_eq_ok.mpr hr
    simp only [Selected.selectNext, hok]
    cases ha : access.managementOf with
    | none =>
      have hc : Cleared cipher access.managementOf [select] [r] := by
        rw [ha]
        exact .plain hr
      exact cleared_turned hne hc
    | some auth =>
      refine Or.inl ⟨firstCommand auth, ?_⟩
      have hfirst : ManagementMachine.next cipher ⟨auth, 0⟩ none =
          (.ok (.command (firstCommand auth)), ⟨auth, 1⟩) := @next_begin cipher auth none
      simp only [Option.map_some, Option.isSome_some, if_true, Selected.managementNext,
        ManagementMachine.new, hfirst]
      exact ⟨trivial, .authenticating ha hr (.opened (next_begin none))⟩
  · have hbad : r.ensureSuccess .select = .error (.status r.status .select none) := by
      simp [ResponseData.ensureSuccess, hr]
    simp only [Selected.selectNext, hbad]
    apply early_turned
    · exact fun h => by cases h
    · intro full answers hp hpre
      exact hr (select_answer hne hp hpre)

/-- A turn of the management authentication inside the wrapper. -/
theorem management_turned {auth : ManagementAuthentication} {r r' : ResponseData}
    {cs : List LogicalCommand} {rs : List ResponseData} {m : ManagementMachine}
    (ha : access.managementOf = some auth) (hr : r.status.isSuccess = true)
    (ht : Trace (management cipher) (.new auth) cs rs m) :
    Turned cipher M legacy access t₀ (select :: cs) (r :: rs ++ [r'])
      (Selected.managementNext cipher M
        ⟨.management, legacy, some m, access.pinOf, t₀⟩ (some r')) := by
  have hne : access.isExisting = false := by
    cases access <;> first | rfl | cases ha
  rcases hn : ManagementMachine.next cipher m (some r') with ⟨e | c | u, m'⟩
  · simp only [Selected.managementNext, hn]
    apply early_turned
    · exact fun h => by cases h
    intro full answers hp hpre
    obtain ⟨b, htail⟩ := management_answers ha hp hpre
    -- an acceptable answer would not have failed
    rcases management_trace ht with ⟨_, rfl, rfl⟩ | ⟨b', _, rfl, rfl⟩
    · obtain ⟨rfl, _⟩ := List.cons_prefix_cons.mp htail
      cases hn.symm.trans (@next_respond cipher auth b)
    · obtain ⟨_, htail⟩ := List.cons_prefix_cons.mp htail
      obtain ⟨rfl, _⟩ := List.cons_prefix_cons.mp htail
      cases hn.symm.trans (@next_verify cipher auth)
  · simp only [Selected.managementNext, hn]
    exact Or.inl ⟨c, rfl, .authenticating ha hr (.answered ht hn)⟩
  · simp only [Selected.managementNext, hn]
    obtain ⟨b, rfl, hrs, _⟩ := completes_iff.mp (.answering ht hn)
    apply cleared_turned hne
    rw [ha, List.cons_append, hrs]
    exact .management auth b hr

theorem pin_turned {pin : Pin} {r : ResponseData} {cs : List LogicalCommand}
    {rs : List ResponseData} (hp : access.pinOf = some pin)
    (hc : Cleared cipher access.managementOf cs rs) :
    Turned cipher M legacy access t₀ (cs ++ [verifyPin pin]) (rs ++ [r])
      (Selected.pinNext M ⟨.pin, legacy, none, none, t₀⟩ (some r)) := by
  have hbad {e : Error} (hr : r ≠ success []) :
      Turned cipher M legacy access t₀ (cs ++ [verifyPin pin]) (rs ++ [r])
        (.error e, ⟨.pin, legacy, none, none, t₀⟩) := by
    apply early_turned
    · exact fun h => by cases h
    · intro full answers hpre hpref
      exact hr (pin_answer hp hc hpre hpref)
  by_cases hs : r.status.isSuccess = true
  · have hok : requireAuth r .pin = .ok () := requireAuth_eq_ok.mpr hs
    simp only [Selected.pinNext, hok]
    by_cases hd : r.data = []
    · rw [if_neg (not_not.mpr hd)]
      apply first_turned
      rw [eq_success hs, hd]
      exact .verified hp hc
    · rw [if_pos hd]
      apply hbad
      rintro rfl
      exact hd rfl
  · have herr : requireAuth r .pin = .error (authError r.status .pin) := by
      simp [requireAuth, hs]
    simp only [Selected.pinNext, herr]
    apply hbad
    rintro rfl
    exact hs rfl

/-- Every turn after the first goes on or stops as the preamble says. -/
theorem staged_turned {cs : List LogicalCommand} {rs : List ResponseData} {s : Selected σ}
    (h : Staged cipher M legacy access t₀ cs rs s) (r : ResponseData) :
    Turned cipher M legacy access t₀ cs (rs ++ [r]) (s.step cipher M (some r)) := by
  cases h with
  | selecting hne => exact select_turned hne
  | authenticating ha hr ht => exact management_turned ha hr ht
  | verifying hp hc => exact pin_turned hp hc
  | running hp ht =>
    rw [List.append_assoc]
    exact target_turned hp (.answering ht rfl)

theorem new_turned :
    Turned cipher M legacy access t₀ [] []
      ((Selected.new legacy access t₀).step cipher M none) := by
  by_cases hex : access.isExisting = true
  · obtain ⟨rfl, _, _⟩ := existing_parts hex
    exact first_turned .existing
  · have hne : access.isExisting = false := by simpa using hex
    refine Or.inl ⟨select, ?_⟩
    simp only [Selected.new, hne, Selected.step]
    exact ⟨rfl, .selecting hne⟩

theorem Staged.explicit {cs : List LogicalCommand} {rs : List ResponseData} {s : Selected σ}
    (h : Staged cipher M legacy access t₀ cs rs s) : s.explicitLe = legacy := by
  cases h <;> rfl

/-- A trace of the wrapper is staged, up to the explicit Le of its commands. -/
theorem selected_trace {cs : List LogicalCommand} {rs : List ResponseData} {s : Selected σ}
    (h : Trace (selectedMachine cipher M) (.new legacy access t₀) cs rs s) :
    ∃ plain, cs = plain.map (explicitLe legacy) ∧
      Staged cipher M legacy access t₀ plain rs s := by
  have hgo {plain : List LogicalCommand} {rs : List ResponseData}
      {turn : Except Error (Action T) × Selected σ} {c : LogicalCommand}
      (ht : Turned cipher M legacy access t₀ plain rs turn)
      (hc : turn.1.map (explicitAction legacy) = .ok (.command c)) :
      ∃ c', c = explicitLe legacy c' ∧
        Staged cipher M legacy access t₀ (plain ++ [c']) rs turn.2 := by
    rcases ht with ⟨c', hc', hs⟩ | ⟨hne, _⟩
    · rw [hc'] at hc
      cases hc
      exact ⟨c', rfl, hs⟩
    · obtain ⟨action, ha, hact⟩ := map_eq_ok.mp hc
      cases action with
      | command c' => exact absurd ha (hne c')
      | done value => cases hact
  induction h with
  | opened h =>
    obtain ⟨hr, rfl⟩ := Prod.mk.inj h
    obtain ⟨c', rfl, hs⟩ := hgo new_turned hr
    exact ⟨[c'], rfl, hs⟩
  | answered _ h ih =>
    obtain ⟨plain, rfl, hs⟩ := ih
    obtain ⟨hr, rfl⟩ := Prod.mk.inj h
    rw [hs.explicit] at hr
    obtain ⟨c', rfl, hs'⟩ := hgo (staged_turned hs _) hr
    exact ⟨plain ++ [c'], by simp, hs'⟩

/-- The last turn of the wrapper is a turn of one of its stages. -/
theorem selected_last {result : Except Error (Action T)} {cs : List LogicalCommand}
    {rs : List ResponseData} {s : Selected σ}
    (h : LastTurn (selectedMachine cipher M) (.new legacy access t₀) result cs rs s) :
    ∃ plain turn, cs = plain.map (explicitLe legacy) ∧
      Turned cipher M legacy access t₀ plain rs (turn, s) ∧
      result = turn.map (explicitAction legacy) := by
  cases h with
  | opening h =>
    obtain ⟨hr, rfl⟩ := Prod.mk.inj h
    exact ⟨[], _, rfl, new_turned, hr.symm⟩
  | answering ht h =>
    obtain ⟨plain, rfl, hs⟩ := selected_trace ht
    obtain ⟨hr, rfl⟩ := Prod.mk.inj h
    rw [hs.explicit] at hr
    exact ⟨plain, _, rfl, staged_turned hs _, hr.symm⟩

theorem done_of_explicit {value : T} {turn : Except Error (Action T)}
    (h : .ok (.done value) = turn.map (explicitAction legacy)) : turn = .ok (.done value) := by
  obtain ⟨action, rfl, haction⟩ := map_eq_ok.mp h.symm
  cases action with
  | command c => cases haction
  | done value' =>
    cases haction
    rfl

/-- A wrapper that is done ran a whole preamble and then its target to the same value. -/
theorem selected_done {value : T} {cs : List LogicalCommand} {rs : List ResponseData}
    {s : Selected σ}
    (h : LastTurn (selectedMachine cipher M) (.new legacy access t₀) (.ok (.done value)) cs rs s) :
    ∃ pre own answers given, Preamble cipher access pre answers ∧
      cs = (pre ++ own).map (explicitLe legacy) ∧ rs = answers ++ given ∧
      LastTurn M t₀ (.ok (.done value)) own given s.target := by
  obtain ⟨plain, turn, rfl, hturned, hresult⟩ := selected_last h
  cases done_of_explicit hresult
  rcases hturned with ⟨c, hc, _⟩ | ⟨_, hstopped⟩
  · cases hc
  · generalize hfinal : (Except.ok (Action.done value) : Except Error (Action T)) = final
      at hstopped
    cases hstopped with
    | early he _ _ => cases hfinal.trans he
    | late _ hp ht =>
      subst hfinal
      exact ⟨_, _, _, _, hp, rfl, rfl, ht⟩

/-- A target only has the turn after every preamble command was answered as required. -/
theorem turned_target {plain : List LogicalCommand} {rs : List ResponseData}
    {turn : Except Error (Action T)} {s : Selected σ}
    (h : Turned cipher M legacy access t₀ plain rs (turn, s)) (hs : s.stage = .target) :
    ∃ full answers, Preamble cipher access full answers ∧ answers <+: rs := by
  rcases h with ⟨c, _, hstaged⟩ | ⟨_, hstopped⟩
  · generalize plain ++ [c] = cs at hstaged
    dsimp only at hstaged
    cases hstaged with
    | running hp _ => exact ⟨_, _, hp, List.prefix_append _ _⟩
    | _ => cases hs
  · cases hstopped with
    | early _ hne _ => exact absurd hs hne
    | late _ hp _ => exact ⟨_, _, hp, List.prefix_append _ _⟩

theorem staged_target {plain : List LogicalCommand} {rs : List ResponseData} {s : Selected σ}
    (h : Staged cipher M legacy access t₀ plain rs s) (hs : s.stage = .target) :
    ∃ full answers, Preamble cipher access full answers ∧ answers <+: rs := by
  cases h with
  | running hp _ => exact ⟨_, _, hp, List.prefix_append _ _⟩
  | _ => cases hs

def zeroBlock (a : CompatProfile.ManagementKeyAlgorithm) : Block a :=
  ⟨List.replicate a.blockLen 0, List.length_replicate⟩

theorem Cleared.select_first {auth : Option ManagementAuthentication} {cs : List LogicalCommand}
    {rs : List ResponseData} (h : Cleared cipher auth cs rs) : [select] <+: cs := by
  cases h with
  | plain _ => exact List.prefix_rfl
  | management _ _ _ => exact ⟨_, rfl⟩

theorem exists_cleared (cipher : BlockCipher) (auth : Option ManagementAuthentication) :
    ∃ cs rs, Cleared cipher auth cs rs := by
  cases auth with
  | none => exact ⟨_, _, .plain (success_isSuccess [])⟩
  | some a => exact ⟨_, _, .management a (zeroBlock _) (success_isSuccess [])⟩

theorem exists_preamble (cipher : BlockCipher) (access : Access) :
    ∃ full answers, Preamble cipher access full answers := by
  by_cases hex : access.isExisting = true
  · obtain ⟨rfl, _, _⟩ := existing_parts hex
    exact ⟨_, _, .existing⟩
  · obtain ⟨cs, rs, hc⟩ := exists_cleared cipher access.managementOf
    cases hp : access.pinOf with
    | none => exact ⟨_, _, .cleared (by simpa using hex) hp hc⟩
    | some pin => exact ⟨_, _, .verified hp hc⟩

theorem cleared_prefix {cs : List LogicalCommand} {rs : List ResponseData}
    (hne : access.isExisting = false) (hc : Cleared cipher access.managementOf cs rs) :
    ∃ full answers, Preamble cipher access full answers ∧ cs <+: full := by
  cases hp : access.pinOf with
  | none => exact ⟨cs, rs, .cleared hne hp hc, List.prefix_rfl⟩
  | some pin => exact ⟨_, _, .verified hp hc, List.prefix_append _ _⟩

/-- What has been exposed is a complete preamble with the target's commands, or part of one. -/
theorem staged_prefix {plain : List LogicalCommand} {rs : List ResponseData} {s : Selected σ}
    (h : Staged cipher M legacy access t₀ plain rs s) :
    ∃ pre own, plain = pre ++ own ∧
      (∃ full answers, Preamble cipher access full answers ∧ pre <+: full) ∧
      (own ≠ [] → ∃ answers given t, Preamble cipher access pre answers ∧ rs = answers ++ given ∧
        Trace M t₀ own given t) := by
  have hpart {cs : List LogicalCommand} (hne : access.isExisting = false)
      (hcs : ∃ full answers, Cleared cipher access.managementOf full answers ∧ cs <+: full) :
      ∃ full answers, Preamble cipher access full answers ∧ cs <+: full := by
    obtain ⟨full, answers, hc, hpre⟩ := hcs
    obtain ⟨full', answers', hp, hfull⟩ := cleared_prefix hne hc
    exact ⟨full', answers', hp, hpre.trans hfull⟩
  cases h with
  | selecting hne =>
    refine ⟨[select], [], rfl, hpart hne ?_, fun h => absurd rfl h⟩
    obtain ⟨full, answers, hc⟩ := exists_cleared cipher access.managementOf
    exact ⟨full, answers, hc, hc.select_first⟩
  | authenticating ha hr ht =>
    have hne : access.isExisting = false := by
      cases access <;> first | rfl | cases ha
    refine ⟨_, [], (List.append_nil _).symm, hpart hne ?_, fun h => absurd rfl h⟩
    rw [ha]
    rcases management_trace ht with ⟨rfl, _, _⟩ | ⟨b, rfl, _, _⟩
    · exact ⟨_, _, .management _ (zeroBlock _) hr, ⟨_, rfl⟩⟩
    · exact ⟨_, _, .management _ b hr, List.prefix_rfl⟩
  | verifying hp hc =>
    exact ⟨_, [], (List.append_nil _).symm, ⟨_, _, .verified hp hc, List.prefix_rfl⟩,
      fun h => absurd rfl h⟩
  | running hp ht => exact ⟨_, _, rfl, ⟨_, _, hp, List.prefix_rfl⟩, fun _ => ⟨_, _, _, hp, rfl, ht⟩⟩

theorem staged_answers {plain : List LogicalCommand} {rs : List ResponseData} {s : Selected σ}
    (h : Staged cipher M legacy access t₀ plain rs s)
    (hlen : plain.length ≤ preambleLength access + 1) :
    ∃ full answers, Preamble cipher access full answers ∧ rs <+: answers := by
  have hpart {rs : List ResponseData} (hne : access.isExisting = false)
      (hcs : ∃ full answers, Cleared cipher access.managementOf full answers ∧ rs <+: answers) :
      ∃ full answers, Preamble cipher access full answers ∧ rs <+: answers := by
    obtain ⟨full, answers, hc, hpre⟩ := hcs
    cases hp : access.pinOf with
    | none => exact ⟨_, _, .cleared hne hp hc, hpre⟩
    | some pin => exact ⟨_, _, .verified hp hc, hpre.trans (List.prefix_append _ _)⟩
  cases h with
  | selecting hne =>
    obtain ⟨full, answers, hp⟩ := exists_preamble cipher access
    exact ⟨full, answers, hp, List.nil_prefix⟩
  | authenticating ha hr ht =>
    have hne : access.isExisting = false := by
      cases access <;> first | rfl | cases ha
    apply hpart hne
    rw [ha]
    rcases management_trace ht with ⟨_, rfl, _⟩ | ⟨b, _, rfl, _⟩
    · exact ⟨_, _, .management _ (zeroBlock _) hr, ⟨_, rfl⟩⟩
    · exact ⟨_, _, .management _ b hr, ⟨_, rfl⟩⟩
  | verifying hp hc => exact ⟨_, _, .verified hp hc, List.prefix_append _ _⟩
  | @running _ own _ given _ hp ht =>
    obtain ⟨hcs, _⟩ := hp.lengths
    have hown := ht.length
    rw [List.length_append] at hlen
    have hgiven : given = [] := List.length_eq_zero_iff.mp (by omega)
    exact ⟨_, _, hp, [], by rw [hgiven, List.append_nil, List.append_nil]⟩

/-- While a preamble command waits, an answer that no preamble requires ends the wrapper. -/
theorem staged_refuses {plain : List LogicalCommand} {rs : List ResponseData} {s : Selected σ}
    (h : Staged cipher M legacy access t₀ plain rs s)
    (hlen : plain.length ≤ preambleLength access) {r : ResponseData}
    (hbad : ¬ ∃ full answers, Preamble cipher access full answers ∧ rs ++ [r] <+: answers) :
    ∃ e, (s.step cipher M (some r)).1 = .error e := by
  rcases staged_turned h r with ⟨c, _, hs⟩ | ⟨_, hs⟩
  · have hanswered := staged_answers hs
      (by simp only [List.length_append, List.length_singleton]; omega)
    exact absurd hanswered hbad
  · generalize hrs : rs ++ [r] = given at hs
    cases hs with
    | early he _ _ => exact ⟨_, he⟩
    | late hs hp ht =>
      obtain ⟨hcs, _⟩ := hp.lengths
      cases ht with
      | opening _ =>
        rw [List.append_nil] at hrs
        exact absurd ⟨_, _, hp, [], by rw [hrs, List.append_nil]⟩ hbad
      | answering ht _ =>
        have hown := ht.length
        rw [List.length_append] at hlen
        omega

theorem Preamble.verify_last {full : List LogicalCommand} {rs : List ResponseData} {pin : Pin}
    (h : Preamble cipher access full rs) (hp : access.pinOf = some pin) :
    full.getLast? = some (verifyPin pin) := by
  cases h with
  | existing => cases hp
  | cleared _ hn _ => cases hn.symm.trans hp
  | verified hp' _ =>
    cases hp'.symm.trans hp
    exact List.getLast?_concat

/-- What an operation over a wrapped target has exposed, whatever it was answered. -/
structure Orderly (cipher : BlockCipher) (M : Machine σ T) (legacy : Bool) (access : Access)
    (t₀ : σ) (s : Recorded (Selected σ) T) : Prop where
  commands : ∃ pre own, s.commands = (pre ++ own).map (explicitLe legacy) ∧
    (∃ full answers, Preamble cipher access full answers ∧ pre <+: full) ∧
    (own ≠ [] → (∀ pin, access.pinOf = some pin → pre.getLast? = some (verifyPin pin)) ∧
      ∃ answers given t, Preamble cipher access pre answers ∧
        answers ++ given <+: s.responses ∧ Trace M t₀ own given t)
  refusal : ∀ call r, answer s.op call = some r → s.commands.length ≤ preambleLength access →
    (¬ ∃ full answers, Preamble cipher access full answers ∧ s.responses ++ [r] <+: answers) →
    (∃ e, (s.op.call (selectedMachine cipher M) call).1 = .step (.error e)) ∧
      (s.op.call (selectedMachine cipher M) call).2.state = .failed ∧
      ∀ later, (run (Recorded.call (selectedMachine cipher M)) s (call :: later)).2.commands =
        s.commands
  progress : ∀ value, s.op.currentProgress (selectedMachine cipher M) = some value →
    ∃ full answers, Preamble cipher access full answers ∧ answers <+: s.responses

theorem follows_commands {options : OperationOptions} {history : List (Call × Reply T)}
    {s : Recorded (Selected σ) T}
    (h : Follows (selectedMachine cipher M) (.new legacy access t₀) options history s) :
    ∃ pre own, s.commands = (pre ++ own).map (explicitLe legacy) ∧
      (∃ full answers, Preamble cipher access full answers ∧ pre <+: full) ∧
      (own ≠ [] → (∀ pin, access.pinOf = some pin → pre.getLast? = some (verifyPin pin)) ∧
        ∃ answers given t, Preamble cipher access pre answers ∧
          answers ++ given <+: s.responses ∧ Trace M t₀ own given t) := by
  rcases h.standing.commands with hcs | ⟨rs, m, hrs, ht⟩
  · obtain ⟨full, answers, hp⟩ := exists_preamble cipher access
    exact ⟨[], [], by rw [hcs]; rfl, ⟨full, answers, hp, List.nil_prefix⟩, fun h => absurd rfl h⟩
  · obtain ⟨plain, hplain, hs⟩ := selected_trace ht
    obtain ⟨pre, own, rfl, hpre, hown⟩ := staged_prefix hs
    refine ⟨pre, own, hplain, hpre, ?_⟩
    intro hne
    obtain ⟨answers, given, t, hp, rfl, htarget⟩ := hown hne
    exact ⟨fun pin hpin => hp.verify_last hpin, answers, given, t, hp, hrs, htarget⟩

theorem follows_refusal {options : OperationOptions} {history : List (Call × Reply T)}
    {s : Recorded (Selected σ) T}
    (h : Follows (selectedMachine cipher M) (.new legacy access t₀) options history s)
    {call : Call} {r : ResponseData} (hr : answer s.op call = some r)
    (hlen : s.commands.length ≤ preambleLength access)
    (hbad : ¬ ∃ full answers, Preamble cipher access full answers ∧
      s.responses ++ [r] <+: answers) :
    (∃ e, (s.op.call (selectedMachine cipher M) call).1 = .step (.error e)) ∧
      (s.op.call (selectedMachine cipher M) call).2.state = .failed ∧
      ∀ later, (run (Recorded.call (selectedMachine cipher M)) s (call :: later)).2.commands =
        s.commands := by
  have hh := answer_eq_some.mp hr
  obtain ⟨hs, hn⟩ | ⟨hs, _⟩ := handed_state hh
  · cases hn
  obtain ⟨m, hm, ht, _⟩ := h.standing.of_awaiting hs
  obtain ⟨plain, hplain, hstaged⟩ := selected_trace ht
  rw [hplain, List.length_map] at hlen
  obtain ⟨e, he⟩ := staged_refuses hstaged hlen hbad
  have hnext : (selectedMachine cipher M).next m (some r) =
      (.error e, (m.step cipher M (some r)).2) := by
    simp only [selectedMachine, Selected.next, he]
    rfl
  obtain ⟨hreply, hstate⟩ := call_failed (call_moves _ h.lifecycle call) hh hm hnext
  refine ⟨⟨e, hreply⟩, hstate, ?_⟩
  intro later
  have hbegun : begun (selectedMachine cipher M) s.op call = none :=
    (quiet_of_not_exchange (by rw [hreply]; rfl)).1
  have hfinal : (Recorded.call (selectedMachine cipher M) s call).2.op.state.Final :=
    Or.inl hstate
  rw [run]
  dsimp only
  rw [recorded_final _ hfinal]
  simp [Recorded.call, hbegun]

theorem follows_progress {options : OperationOptions} {history : List (Call × Reply T)}
    {s : Recorded (Selected σ) T}
    (h : Follows (selectedMachine cipher M) (.new legacy access t₀) options history s)
    {value : T} (hv : s.op.currentProgress (selectedMachine cipher M) = some value) :
    ∃ full answers, Preamble cipher access full answers ∧ answers <+: s.responses := by
  have hprogress {m : Selected σ} (hp : (selectedMachine cipher M).progress m = some value) :
      m.stage = .target := by
    by_contra hne
    simp [selectedMachine, Selected.progress, hne] at hp
  have htaken {m : Selected σ} (hp : ((selectedMachine cipher M).takeProgress m).1 = some value) :
      m.stage = .target := by
    by_contra hne
    simp [selectedMachine, Selected.takeProgress, hne] at hp
  have hended (hs : ¬ (s.op.state = .created ∨ s.op.state = .awaitingResponse)) :
      s.op.progress = some value := by
    have hm : s.op.machine = none := by
      rw [← Option.not_isSome_iff_eq_none, h.lifecycle.machine]
      exact hs
    simpa [Operation.currentProgress, hm] using hv
  have hrunning {m : Selected σ} (hm : s.op.machine = some m) (hp : s.op.progress = none) :
      m.stage = .target := by
    apply hprogress
    simpa [Operation.currentProgress, hm, hp] using hv
  have hlast {result : Except Error (Action T)} {m : Selected σ}
      (ht : LastTurn (selectedMachine cipher M) (.new legacy access t₀) result s.commands
        s.responses m) (hs : m.stage = .target) :
      ∃ full answers, Preamble cipher access full answers ∧ answers <+: s.responses := by
    obtain ⟨_, _, _, hturned, _⟩ := selected_last ht
    exact turned_target hturned hs
  cases h.standing with
  | created hs hm hcs hrs hp =>
    have hstage := hrunning hm hp
    by_cases hex : access.isExisting = true
    · obtain ⟨rfl, _, _⟩ := existing_parts hex
      exact ⟨_, _, .existing, List.nil_prefix⟩
    · simp [Selected.new, hex] at hstage
  | awaiting m hs hm ht hp =>
    obtain ⟨_, _, hstaged⟩ := selected_trace ht
    exact staged_target hstaged (hrunning hm hp)
  | completed m v ht hp hs =>
    have := hended (by rcases hs with ⟨hs, _⟩ | ⟨hs, _⟩ <;> simp [hs])
    rw [hp] at this
    cases this
  | cancelled hs hp ht =>
    have := hended (by simp [hs])
    rw [hp] at this
    cases this
  | broke m hs ht hp =>
    have hv' := hended (by simp [hs])
    rw [hp] at hv'
    obtain ⟨_, _, hstaged⟩ := selected_trace ht
    exact staged_target hstaged (htaken hv')
  | failed m e hs ht he hp =>
    have hv' := hended (by simp [hs])
    rw [hp] at hv'
    exact hlast ht (htaken hv')
  | rejected m c hs ht hbad hp =>
    have hv' := hended (by simp [hs])
    rw [hp] at hv'
    exact hlast ht (htaken hv')

/-- Selection, authentication and target come in this order in every run of an operation. -/
theorem access_ordering (cipher : BlockCipher) (M : Machine σ T)
    {profile : CompatProfile.DeviceProfile} {options : OperationOptions}
    {op : Operation (Selected σ) T}
    (h : withAccess profile access t₀ options = .ok op) (calls : List Call) :
    Orderly cipher M profile.legacyExplicitLe access t₀
      (recorded (selectedMachine cipher M) op calls) := by
  obtain ⟨_, hop⟩ := withAccess_eq_ok.mp h
  have hf := recorded_follows (selectedMachine cipher M) hop calls
  exact ⟨follows_commands hf, fun _ _ hr hlen hbad => follows_refusal hf hr hlen hbad,
    fun _ hv => follows_progress hf hv⟩

/-- What holds of SELECT and of every authentication command holds of what is cleared. -/
theorem Cleared.each {auth : Option ManagementAuthentication} {cs : List LogicalCommand}
    {rs : List ResponseData} (h : Cleared cipher auth cs rs) (P : LogicalCommand → Prop)
    (hselect : P select) (hauth : ∀ a fields, P (authentication a fields)) : ∀ c ∈ cs, P c := by
  intro c hc
  cases h with
  | plain _ =>
    rw [List.mem_singleton.mp hc]
    exact hselect
  | management auth b _ =>
    rcases List.mem_cons.mp hc with rfl | hc
    · exact hselect
    · rcases List.mem_pair.mp hc with rfl | rfl <;> exact hauth _ _

theorem Preamble.each {cs : List LogicalCommand} {rs : List ResponseData}
    (h : Preamble cipher access cs rs) (P : LogicalCommand → Prop) (hselect : P select)
    (hauth : ∀ a fields, P (authentication a fields)) (hverify : ∀ pin, P (verifyPin pin)) :
    ∀ c ∈ cs, P c := by
  intro c hc
  cases h with
  | existing => cases hc
  | cleared _ _ hcleared => exact hcleared.each P hselect hauth c hc
  | verified _ hcleared =>
    rcases List.mem_append.mp hc with hc | hc
    · exact hcleared.each P hselect hauth c hc
    · rw [List.mem_singleton.mp hc]
      exact hverify _

section single

variable {command : LogicalCommand} {parse : ResponseData → Except Error T}
  {profile : CompatProfile.DeviceProfile} {options : OperationOptions}
  {op : Operation (Selected (Sequence T)) T}

/-- A target of one command waits for the answer that its parser takes. -/
theorem single_trace {cs : List LogicalCommand} {rs : List ResponseData} {m : Sequence T}
    (h : Trace (sequence T) ⟨[request command .command none], none, some parse⟩ cs rs m) :
    cs = [command] ∧ m = ⟨[], some (.command, none), some parse⟩ := by
  induction h with
  | opened h =>
    cases h
    exact ⟨rfl, rfl⟩
  | @answered _ _ _ _ r c _ h ih =>
    obtain ⟨_, rfl⟩ := ih
    have hturn : (parse r).map Action.done = .ok (.command c) := (Prod.mk.inj h).1
    obtain ⟨_, _, hdone⟩ := map_eq_ok.mp hturn
    cases hdone

theorem single_commands
    (h : withAccess profile access
      (⟨[request command .command none], none, some parse⟩ : Sequence T) options = .ok op)
    (calls : List Call) :
    ∀ c ∈ (recorded (selectedMachine cipher (sequence T)) op calls).commands,
      ∃ plain, c = explicitLe profile.legacyExplicitLe plain ∧
        (plain = command ∨ ∃ full answers, Preamble cipher access full answers ∧ plain ∈ full) := by
  obtain ⟨_, hop⟩ := withAccess_eq_ok.mp h
  have hfollows := recorded_follows (selectedMachine cipher (sequence T)) hop calls
  obtain ⟨pre, own, hcs, ⟨full, answers, hfull, hpre⟩, hown⟩ := follows_commands hfollows
  intro c hc
  rw [hcs] at hc
  obtain ⟨plain, hplain, rfl⟩ := List.mem_map.mp hc
  refine ⟨plain, rfl, ?_⟩
  rcases List.mem_append.mp hplain with hfirst | hlast
  · exact Or.inr ⟨full, answers, hfull, hpre.subset hfirst⟩
  · obtain ⟨_, _, _, _, _, _, htrace⟩ := hown (List.ne_nil_of_mem hlast)
    rw [(single_trace htrace).1] at hlast
    exact Or.inl (List.mem_singleton.mp hlast)

theorem single_sent
    (h : withAccess profile access
      (⟨[request command .command none], none, some parse⟩ : Sequence T) options = .ok op)
    (calls : List Call)
    (hdone : (recorded (selectedMachine cipher (sequence T)) op calls).op.state = .completed) :
    explicitLe profile.legacyExplicitLe command ∈
      (recorded (selectedMachine cipher (sequence T)) op calls).commands := by
  obtain ⟨_, hop⟩ := withAccess_eq_ok.mp h
  have hfollows := recorded_follows (selectedMachine cipher (sequence T)) hop calls
  obtain ⟨m, value, hlast, _, _⟩ := hfollows.standing.of_finished (Or.inl hdone)
  obtain ⟨pre, own, _, _, _, hcs, _, hturn⟩ := selected_done hlast
  rw [hcs]
  cases hturn with
  | opening h => cases h
  | answering ht h =>
    rw [(single_trace ht).1, List.map_append]
    exact List.mem_append_right _ List.mem_cons_self

end single

/-- A 3.1.0 device with PIV observed. -/
def exampleProfile : CompatProfile.DeviceProfile :=
  { firmware := some ⟨3, 1, 0, none⟩
    pivVersion := some (5, 7, 0)
    config := none
    legacyPivExtensions := none
    warnings := [] }

def examplePin : Pin := ⟨[0x31, 0x32, 0x33, 0x34, 0x35, 0x36], by decide, by decide⟩

/-- SELECT, VERIFY and the target's command, one answer each. -/
theorem access_ordering_pin :
    ∃ op, withAccess exampleProfile (.pin examplePin) (some (metadata .pin)) {} = .ok op ∧
      (recorded (selectedMachine exampleCipher singleCommand) op
        [.start, .advance [0x90, 0], .advance [0x90, 0]]).commands =
          [select, verifyPin examplePin, metadata .pin] ∧
      Orderly exampleCipher singleCommand false (.pin examplePin) (some (metadata .pin))
        (recorded (selectedMachine exampleCipher singleCommand) op
          [.start, .advance [0x90, 0], .advance [0x90, 0]]) := by
  have hop : (withAccess exampleProfile (.pin examplePin) (some (metadata .pin)) {} :
      Except Error (Operation _ ResponseData)) = .ok _ := rfl
  exact ⟨_, hop, rfl, access_ordering exampleCipher singleCommand hop _⟩

/-- A target that has progress from the start. -/
def eager : Machine Unit ℕ where
  next := fun s _ => (.ok (.done 7), s)
  progress := fun _ => some 7

/-- Without a preamble the progress of the target shows before anything is started. -/
theorem progress_before_start :
    ∃ op, withAccess exampleProfile .existing () {} = .ok op ∧ op.state = .created ∧
      op.currentProgress (selectedMachine exampleCipher eager) = some 7 :=
  ⟨_, rfl, rfl, rfl⟩

end PivAccessOrdering
