import LibCanokey.PivBatchGates
import LibCanokey.PivPinManagedSafety
import LibCanokey.ProtocolPreflight

/-! # What the target machines send

Every command that a prepared target can send was accepted when it was prepared, by an invariant
of each machine; the wrapper adds the commands of its access and the explicit Le. -/
namespace PivPreflight

open BigEndian ListTraversal ProtocolError ProtocolApdu ProtocolConversation ProtocolOperation
open ProtocolTranscript ProtocolSegmentation ProtocolAcceptance ProtocolPreflight CompatProfile
open PivCommand PivManagement PivManagementAuthentication PivAccess PivAccessOrdering PivWrite
open PivStreaming PivSm2Agreement PivBatch PivBatchExecution PivBatchGates

section sequences

variable {T : Type} {Q : LogicalCommand → Prop}

/-- Every command that is left to send has the property. -/
def Pending (Q : LogicalCommand → Prop) (s : Sequence T) : Prop :=
  ∀ req ∈ s.pending, Q req.command

theorem pop_subset (s : Sequence T) : s.pop.2.pending ⊆ s.pending := by
  rw [Sequence.pop]
  cases hp : s.pending with
  | nil => simp [hp]
  | cons req rest => simp

/-- A turn takes requests off the front and adds none. -/
theorem next_subset (s : Sequence T) (input : Option ResponseData) :
    (s.next input).2.pending ⊆ s.pending := by
  cases input with
  | none => exact pop_subset s
  | some r =>
    rw [Sequence.next]
    by_cases hp : s.pending = []
    · rw [if_pos hp, Sequence.finish]
      cases s.parse <;> exact List.Subset.refl _
    · rw [if_neg hp]
      cases s.current with
      | none => exact List.Subset.refl _
      | some sent =>
        dsimp only
        split_ifs
        · exact pop_subset s
        · exact List.Subset.refl _

theorem Pending.next {s : Sequence T} (hs : Pending Q s) (input : Option ResponseData) :
    Pending Q (s.next input).2 := by
  intro req hreq
  exact hs req (next_subset s input hreq)

theorem pop_mem {s s' : Sequence T} {c : LogicalCommand}
    (h : s.pop = (.ok (.command c), s')) : ∃ req ∈ s.pending, req.command = c := by
  rw [Sequence.pop] at h
  cases hp : s.pending with
  | nil =>
    rw [hp] at h
    cases h
  | cons req rest =>
    rw [hp] at h
    cases h
    exact ⟨req, List.mem_cons_self, rfl⟩

/-- A sequence sends the commands of its requests and no others. -/
theorem next_mem {s s' : Sequence T} {input : Option ResponseData} {c : LogicalCommand}
    (h : s.next input = (.ok (.command c), s')) : ∃ req ∈ s.pending, req.command = c := by
  cases input with
  | none => exact pop_mem h
  | some r =>
    rw [Sequence.next] at h
    by_cases hp : s.pending = []
    · rw [if_pos hp, Sequence.finish] at h
      cases hparse : s.parse with
      | none =>
        rw [hparse] at h
        cases h
      | some parse =>
        rw [hparse] at h
        obtain ⟨hr, _⟩ := Prod.mk.inj h
        obtain ⟨_, _, hc⟩ := map_eq_ok.mp hr
        cases hc
    · rw [if_neg hp] at h
      cases hcurrent : s.current with
      | none =>
        rw [hcurrent] at h
        cases h
      | some sent =>
        rw [hcurrent] at h
        dsimp only at h
        split_ifs at h
        · exact pop_mem h
        · cases h

theorem sequence_keeps : Keeps (sequence T) (Pending Q) Q := by
  intro s input c s' hs h
  obtain ⟨req, hreq, rfl⟩ := next_mem h
  have hleft := hs.next input
  rw [show s.next input = _ from h] at hleft
  exact ⟨hs req hreq, hleft⟩

end sequences

section management

variable {cipher : BlockCipher} {profile : DeviceProfile} {options : OperationOptions}
  {auth : ManagementAuthentication}

/-- A command of the wrapper: accepted without Le and far below any limit of one frame. -/
structure Brief (options : OperationOptions) (c : LogicalCommand) : Prop where
  accepted : Accepted options c
  absent : c.le = .absent
  short : c.data.length ≤ 255

/-- Both commands of an authentication, whatever block the card chooses. -/
structure Authenticates (cipher : BlockCipher) (options : OperationOptions)
    (auth : ManagementAuthentication) : Prop where
  first : Brief options (firstCommand auth)
  second : ∀ b, Brief options (secondCommand cipher auth b)

theorem length_fields {a : ManagementKeyAlgorithm} (mode : Mode a) (b b' : Block a) :
    (template (mode.fields b.1)).length = (template (mode.fields b'.1)).length := by
  cases mode <;> simp [template, field, Mode.fields, b.2, b'.2]

theorem length_template_le {a : ManagementKeyAlgorithm} (mode : Mode a) (b : Block a) :
    (template (mode.fields b.1)).length ≤ 255 := by
  have hb := block_length b
  cases mode with
  | external =>
    simp [template, field, Mode.fields]
    omega
  | mutualAuth challenge =>
    have hc := block_length challenge
    simp [template, field, Mode.fields]
    omega

/-- The zeros that are validated stand for every block. -/
theorem second_accepted (hvalid : options.Valid) {b b' : Block auth.key.algorithm}
    (h : Accepted options (authentication auth.key.algorithm (auth.mode.fields b.1))) :
    Accepted options (authentication auth.key.algorithm (auth.mode.fields b'.1)) :=
  @new_of_shorter (authentication auth.key.algorithm (auth.mode.fields b.1)) options hvalid rfl
    (template (auth.mode.fields b'.1)) (Nat.le_of_eq (length_fields auth.mode b' b)) h

theorem authenticates_of_accepted (hvalid : options.Valid)
    (hfirst : Accepted options (firstCommand auth)) {b : Block auth.key.algorithm}
    (hsecond : Accepted options (authentication auth.key.algorithm (auth.mode.fields b.1))) :
    Authenticates cipher options auth := by
  refine ⟨⟨hfirst, rfl, ?_⟩, ?_⟩
  · simp [firstCommand, authentication, cmd, template, field]
  · intro b'
    exact ⟨second_accepted hvalid hsecond, rfl, length_template_le auth.mode _⟩

theorem authenticates_of_validate (h : auth.validate profile options = .ok ()) :
    Authenticates cipher options auth := by
  obtain ⟨_, _, h⟩ := bind_eq_ok.mp h
  obtain ⟨first, hinitial, h⟩ := bind_eq_ok.mp h
  cases (initial_eq auth).symm.trans hinitial
  obtain ⟨_, hfirst, h⟩ := bind_eq_ok.mp h
  have hzeros := fields_command auth.mode (zeroBlock auth.key.algorithm)
  change (authCommand _ (auth.mode.fields (zeroBlock auth.key.algorithm).1) >>= _) = _ at h
  rw [hzeros] at h
  obtain ⟨hvalid, hfirst⟩ := validateCommand_eq_ok.mp hfirst
  exact authenticates_of_accepted hvalid hfirst (validateCommand_eq_ok.mp h).2

/-- A turn never changes the key. -/
theorem next_auth (m : ManagementMachine) (input : Option ResponseData) :
    (m.next cipher input).2.auth = m.auth := by
  rw [ManagementMachine.next]
  split
  · rfl
  · cases m.auth.respond cipher input <;> rfl
  · cases m.auth.verify cipher input <;> rfl
  · rfl

theorem management_keeps : Keeps (management cipher)
    (fun m => Authenticates cipher options m.auth) (Accepted options) := by
  rintro ⟨auth, stage⟩ input c m' hauth h
  by_cases hzero : stage = 0
  · subst hzero
    rw [next_begin] at h
    cases h
    exact ⟨hauth.first.accepted, hauth⟩
  by_cases hone : stage = 1
  · subst hone
    obtain ⟨b, _, hc, rfl⟩ := next_respond_ok h
    cases hc
    exact ⟨(hauth.second b).accepted, hauth⟩
  by_cases htwo : stage = 2
  · subst htwo
    obtain ⟨_, hc, _⟩ := next_verify_ok h
    cases hc
  · exfalso
    simp only [management, ManagementMachine.next] at h
    cases h

end management

section wrapper

variable {σ : Type*} {T : Type} {cipher : BlockCipher} {M : Machine σ T} {legacy : Bool}
  {profile : DeviceProfile} {access : Access} {options : OperationOptions} {t₀ : σ}

theorem explicit_accepted {c : LogicalCommand} (hvalid : options.Valid)
    (h : Accepted options c) (hroom : legacy = true → c.le = .absent → LeRoom options c) :
    Accepted options (explicitLe legacy c) := by
  rw [explicitLe]
  split_ifs with hlegacy
  · exact accepted_explicit hvalid hlegacy.2 h (hroom hlegacy.1 hlegacy.2)
  · exact h

/-- On older firmware every command sent without Le has room for the explicit one. -/
structure Roomy (options : OperationOptions) (access : Access) (M : Machine σ T) (t₀ : σ) :
    Prop where
  wrapper : access.isExisting = false → 258 ≤ options.exchange.maxResponseBytes
  target : ∀ c, Sends M t₀ c → c.le = .absent → LeRoom options c

/-- What the preflight of an access has checked of its preamble. -/
theorem preamble_brief {full : List LogicalCommand} {answers : List ResponseData}
    (hpre : access.preflight profile options = .ok ())
    (hp : Preamble cipher access full answers) : ∀ c ∈ full, Brief options c := by
  obtain ⟨_, _, hselect, hmanagement, hpin⟩ := preflight_eq_ok.mp hpre
  have hcleared {cs : List LogicalCommand} {rs : List ResponseData}
      (hne : access.isExisting = false) (hc : Cleared cipher access.managementOf cs rs) :
      ∀ c ∈ cs, Brief options c := by
    have hs : Brief options select := by
      rw [Access.validateSelect, if_neg (by simp [hne])] at hselect
      exact ⟨(validateCommand_eq_ok.mp hselect).2, rfl, by decide⟩
    rw [Access.validateManagement] at hmanagement
    generalize access.managementOf = auth at hc hmanagement
    cases hc with
    | plain _ =>
      intro c hc
      rw [List.mem_singleton.mp hc]
      exact hs
    | management auth b _ =>
      have ha := @authenticates_of_validate cipher _ _ _ hmanagement
      intro c hc
      simp only [List.mem_cons, List.not_mem_nil, or_false] at hc
      rcases hc with rfl | rfl | rfl
      · exact hs
      · exact ha.first
      · exact ha.second b
  cases hp with
  | existing =>
    intro c hc
    cases hc
  | cleared hne _ hc => exact hcleared hne hc
  | @verified _ pin _ _ hp hc =>
    intro c hmem
    rcases List.mem_append.mp hmem with hmem | hmem
    · exact hcleared (pinOf_not_existing hp) hc c hmem
    · rw [List.mem_singleton.mp hmem]
      rw [Access.validatePin, hp] at hpin
      exact ⟨(validateCommand_eq_ok.mp hpin).2, rfl, by simp [verifyPin, cmd]⟩

/-- The wrapper sends its preamble and what its target sends. -/
theorem selected_sends {c : LogicalCommand}
    (h : Sends (selectedMachine cipher M) (.new legacy access t₀) c) :
    ∃ plain, c = explicitLe legacy plain ∧
      ((∃ full answers, Preamble cipher access full answers ∧ plain ∈ full) ∨
        Sends M t₀ plain) := by
  obtain ⟨cs, rs, m, ht, hmem⟩ := h
  obtain ⟨plain, rfl, hstaged⟩ := selected_trace ht
  obtain ⟨c₀, hc₀, rfl⟩ := List.mem_map.mp hmem
  refine ⟨c₀, rfl, ?_⟩
  obtain ⟨pre, own, rfl, ⟨full, answers, hfull, hpre⟩, hown⟩ := staged_prefix hstaged
  rcases List.mem_append.mp hc₀ with hc₀ | hc₀
  · exact Or.inl ⟨full, answers, hfull, hpre.subset hc₀⟩
  · obtain ⟨_, given, t, _, _, ht⟩ := hown (List.ne_nil_of_mem hc₀)
    exact Or.inr ⟨own, given, t, ht, hc₀⟩

/-- With every command of the target accepted, so is every command of the wrapper. -/
theorem selected_accepts (hpre : access.preflight profile options = .ok ())
    (htarget : ∀ c, Sends M t₀ c → Accepted options c)
    (hroom : legacy = true → Roomy options access M t₀) {c : LogicalCommand}
    (h : Sends (selectedMachine cipher M) (.new legacy access t₀) c) : Accepted options c := by
  have hvalid := (preflight_eq_ok.mp hpre).2.1
  obtain ⟨plain, rfl, ⟨full, answers, hp, hmem⟩ | hs⟩ := selected_sends h
  · have hbrief := preamble_brief hpre hp plain hmem
    apply explicit_accepted hvalid hbrief.accepted
    intro hlegacy _
    have hne : access.isExisting = false := by
      cases hp with
      | existing => cases hmem
      | cleared hne _ _ => exact hne
      | verified hp _ => exact pinOf_not_existing hp
    exact (leRoom_of_short hvalid hbrief.absent hbrief.short hbrief.accepted).mpr
      ((hroom hlegacy).wrapper hne)
  · apply explicit_accepted hvalid (htarget plain hs)
    intro hlegacy habsent
    exact (hroom hlegacy).target plain hs habsent

end wrapper

section composite

variable {cipher : BlockCipher} {point : PivPrivate.PointCheck} {options : OperationOptions}

/-- The prefix of a streamed signature and the sequence after it. -/
structure StreamingReady (options : OperationOptions) (s : StreamingMachine) : Prop where
  initial : ∀ c, s.initial = some c → Accepted options c
  target : Pending (Accepted options) s.target

theorem streaming_keeps : Keeps streaming (StreamingReady options) (Accepted options) := by
  intro s input c s' hs h
  have htarget {s₀ : StreamingMachine} {input : Option ResponseData}
      (hinitial : s₀.initial = none) (hpending : Pending (Accepted options) s₀.target)
      (h : s₀.targetNext input = (.ok (.command c), s')) :
      Accepted options c ∧ StreamingReady options s' := by
    obtain ⟨hr, rfl⟩ := Prod.mk.inj h
    obtain ⟨hc, hleft⟩ := sequence_keeps s₀.target input c _ hpending (Prod.ext hr rfl)
    refine ⟨hc, ?_, hleft⟩
    intro c' hc'
    rw [hinitial] at hc'
    cases hc'
  simp only [streaming, StreamingMachine.next] at h
  cases hi : s.initial with
  | some first =>
    rw [hi] at h
    cases h
    refine ⟨hs.initial _ hi, ?_, hs.target⟩
    intro c' hc'
    cases hc'
  | none =>
    rw [hi] at h
    dsimp only at h
    by_cases hwait : s.awaitingPrefix = true
    · rw [if_pos hwait] at h
      cases ha : acknowledged input with
      | error e =>
        rw [ha] at h
        cases h
      | ok u =>
        rw [ha] at h
        exact @htarget ⟨none, false, s.target⟩ none rfl hs.target h
    · rw [if_neg hwait] at h
      exact htarget hi hs.target h

/-- The commands of an agreement and the read of the policy before them. -/
structure AgreementReady (options : OperationOptions) (s : AgreementMachine) : Prop where
  preflight : ∀ p, s.preflight = some p → Pending (Accepted options) p
  first : ∀ c, s.first = some c → Accepted options c
  finish : ∀ c, s.finish = some c → Accepted options c

theorem exchanged_keeps {s s' : AgreementMachine} {r : ResponseData} {c : LogicalCommand}
    (hs : AgreementReady options s) (h : s.exchanged point r = (.ok (.command c), s')) :
    Accepted options c ∧ AgreementReady options s' := by
  rw [AgreementMachine.exchanged] at h
  cases he : ephemeralPoint point s.limit r with
  | error e =>
    rw [he] at h
    cases h
  | ok ephemeral =>
    rw [he] at h
    dsimp only at h
    cases hf : s.finish with
    | none =>
      rw [hf] at h
      cases h
    | some finish =>
      rw [hf] at h
      cases h
      refine ⟨hs.finish _ hf, hs.preflight, hs.first, ?_⟩
      intro c' hc'
      cases hc'

/-- Only the exchange of the points is answered with another command. -/
theorem agreed_keeps {s s' : AgreementMachine} {r : ResponseData} {c : LogicalCommand}
    (hs : AgreementReady options s) (h : s.answered point r = (.ok (.command c), s')) :
    Accepted options c ∧ AgreementReady options s' := by
  have hdone {result : Except Error Sm2Agreement} {t : AgreementMachine}
      (h : ((result.map .done, t) : AgreementTurn) = (.ok (.command c), s')) : False := by
    obtain ⟨hr, _⟩ := Prod.mk.inj h
    obtain ⟨_, _, hc⟩ := map_eq_ok.mp hr
    cases hc
  rw [AgreementMachine.answered] at h
  cases hrole : s.role with
  | responder =>
    rw [hrole] at h
    dsimp only [AgreementMachine.responderNext] at h
    cases hr : responderResult r s.limit with
    | error e =>
      rw [hr] at h
      cases h
    | ok result =>
      rw [hr] at h
      exact (hdone h).elim
  | initiator =>
    rw [hrole] at h
    cases hephemeral : s.ephemeral with
    | none =>
      rw [hephemeral] at h
      exact exchanged_keeps hs h
    | some ephemeral =>
      rw [hephemeral] at h
      dsimp only [AgreementMachine.initiatorNext] at h
      cases hr : soleValue r s.limit with
      | error e =>
        rw [hr] at h
        cases h
      | ok key =>
        rw [hr] at h
        exact (hdone h).elim

theorem agreementCommand_keeps {s s' : AgreementMachine} {input : Option ResponseData}
    {c : LogicalCommand} (hs : AgreementReady options s)
    (h : s.commandNext point input = (.ok (.command c), s')) :
    Accepted options c ∧ AgreementReady options s' := by
  simp only [AgreementMachine.commandNext] at h
  cases hfirst : s.first with
  | some first =>
    rw [hfirst] at h
    cases h
    refine ⟨hs.first _ hfirst, hs.preflight, ?_, hs.finish⟩
    intro c' hc'
    cases hc'
  | none =>
    rw [hfirst] at h
    cases input with
    | none => cases h
    | some r => exact agreed_keeps hs h

theorem agreement_keeps :
    Keeps (agreementMachine point) (AgreementReady options) (Accepted options) := by
  intro s input c s' hs h
  simp only [agreementMachine, AgreementMachine.next] at h
  cases hp : s.preflight with
  | none =>
    rw [hp] at h
    exact agreementCommand_keeps hs h
  | some preflight =>
    rw [hp] at h
    dsimp only at h
    rcases hn : preflight.next input with ⟨e | c' | metadata, preflight'⟩
    · rw [hn] at h
      cases h
    · rw [hn] at h
      cases h
      obtain ⟨hc, hleft⟩ := sequence_keeps preflight input _ _ (hs.preflight preflight hp) hn
      refine ⟨hc, ?_, hs.first, hs.finish⟩
      intro p hp'
      cases hp'
      exact hleft
    · rw [hn] at h
      dsimp only at h
      cases hpolicy : agreementPolicy metadata with
      | error e =>
        rw [hpolicy] at h
        cases h
      | ok u =>
        rw [hpolicy] at h
        have hleft : AgreementReady options { s with preflight := none } := by
          refine ⟨?_, hs.first, hs.finish⟩
          intro p hp'
          cases hp'
        exact agreementCommand_keeps hleft h

/-- Everything that a rotation sends besides its two reads. -/
structure RotationReady (cipher : BlockCipher) (options : OperationOptions)
    (s : RotateManagement) : Prop where
  admin : Accepted options (getData .adminData)
  printed : Accepted options (getData .printed)
  replacement : Pending (Accepted options) s.replacement
  authentication : Authenticates cipher options s.authentication.auth
  printedWrite : Pending (Accepted options) s.printedWrite

section rotation

variable {s s' : RotateManagement} {input : Option ResponseData} {c : LogicalCommand}

theorem printedNext_keeps (hs : RotationReady cipher options s)
    (h : s.printedNext input = (.ok (.command c), s')) :
    Accepted options c ∧ RotationReady cipher options s' := by
  obtain ⟨hr, rfl⟩ := Prod.mk.inj h
  obtain ⟨hc, hleft⟩ := sequence_keeps s.printedWrite input c _ hs.printedWrite (Prod.ext hr rfl)
  exact ⟨hc, hs.admin, hs.printed, hs.replacement, hs.authentication, hleft⟩

theorem authenticationNext_keeps (hs : RotationReady cipher options s)
    (h : s.authenticationNext cipher input = (.ok (.command c), s')) :
    Accepted options c ∧ RotationReady cipher options s' := by
  have hauth := @next_auth cipher s.authentication input
  rw [RotateManagement.authenticationNext] at h
  rcases hn : s.authentication.next cipher input with ⟨e | c' | u, m⟩
  · rw [hn] at h
    cases h
  · rw [hn] at h
    cases h
    obtain ⟨hc, hleft⟩ := management_keeps _ _ _ _ hs.authentication hn
    exact ⟨hc, hs.admin, hs.printed, hs.replacement, hleft, hs.printedWrite⟩
  · rw [hn] at h hauth
    have hready : RotationReady cipher options { s with authentication := m, stage := 5 } :=
      ⟨hs.admin, hs.printed, hs.replacement, by rw [hauth]; exact hs.authentication,
        hs.printedWrite⟩
    exact printedNext_keeps hready h

theorem replacementNext_keeps (hs : RotationReady cipher options s)
    (h : s.replacementNext cipher input = (.ok (.command c), s')) :
    Accepted options c ∧ RotationReady cipher options s' := by
  have hleft := hs.replacement.next input
  rw [RotateManagement.replacementNext] at h
  rcases hn : s.replacement.next input with ⟨e | c' | result, m⟩
  · rw [hn] at h
    cases h
  · rw [hn] at h hleft
    cases h
    obtain ⟨hc, _⟩ := sequence_keeps s.replacement input _ _ hs.replacement hn
    exact ⟨hc, hs.admin, hs.printed, hleft, hs.authentication, hs.printedWrite⟩
  · rw [hn] at h hleft
    dsimp only at h
    by_cases hprotecting : ¬ s.protecting = true
    · rw [if_pos hprotecting] at h
      cases h
    · rw [if_neg hprotecting] at h
      have hready : RotationReady cipher options { s with replacement := m, stage := 4 } :=
        ⟨hs.admin, hs.printed, hleft, hs.authentication, hs.printedWrite⟩
      exact authenticationNext_keeps hready h

theorem adminRead_keeps {r : ResponseData} (hs : RotationReady cipher options s)
    (h : s.adminRead cipher r = (.ok (.command c), s')) :
    Accepted options c ∧ RotationReady cipher options s' := by
  rw [RotateManagement.adminRead] at h
  cases hp : protection s.protecting r with
  | error e =>
    rw [hp] at h
    cases h
  | ok protecting =>
    rw [hp] at h
    cases protecting with
    | true =>
      cases h
      exact ⟨hs.printed, hs.admin, hs.printed, hs.replacement, hs.authentication,
        hs.printedWrite⟩
    | false =>
      have hready : RotationReady cipher options { s with protecting := false, stage := 3 } :=
        ⟨hs.admin, hs.printed, hs.replacement, hs.authentication, hs.printedWrite⟩
      exact replacementNext_keeps hready h

theorem printedRead_keeps {r : ResponseData} (hs : RotationReady cipher options s)
    (h : s.printedRead cipher r = (.ok (.command c), s')) :
    Accepted options c ∧ RotationReady cipher options s' := by
  rw [RotateManagement.printedRead] at h
  cases hk : storedKey r with
  | error e =>
    rw [hk] at h
    cases h
  | ok key =>
    rw [hk] at h
    have hready : RotationReady cipher options { s with stage := 3 } :=
      ⟨hs.admin, hs.printed, hs.replacement, hs.authentication, hs.printedWrite⟩
    exact replacementNext_keeps hready h

theorem rotation_keeps (hs : RotationReady cipher options s)
    (h : s.next cipher input = (.ok (.command c), s')) :
    Accepted options c ∧ RotationReady cipher options s' := by
  have hanswered {turn : ResponseData → RotateTurn}
      (hturn : ∀ r, turn r = (.ok (.command c), s') →
        Accepted options c ∧ RotationReady cipher options s')
      (h : s.answered input turn = (.ok (.command c), s')) :
      Accepted options c ∧ RotationReady cipher options s' := by
    cases input with
    | none => cases h
    | some r => exact hturn r h
  rw [RotateManagement.next] at h
  split at h
  · cases h
    exact ⟨hs.admin, hs.admin, hs.printed, hs.replacement, hs.authentication, hs.printedWrite⟩
  · exact hanswered (fun r => adminRead_keeps hs) h
  · exact hanswered (fun r => printedRead_keeps hs) h
  · exact replacementNext_keeps hs h
  · exact authenticationNext_keeps hs h
  · exact printedNext_keeps hs h
  · cases h

end rotation

/-- The commands of a replacement of the management key, alone or in a rotation. -/
def ReplacingReady (cipher : BlockCipher) (options : OperationOptions) : Replacing → Prop
  | .plain replacement => Pending (Accepted options) replacement
  | .rotating rotation => RotationReady cipher options rotation

theorem replacing_keeps :
    Keeps (replacing cipher) (ReplacingReady cipher options) (Accepted options) := by
  intro s input c s' hs h
  cases s with
  | plain replacement =>
    obtain ⟨hr, rfl⟩ := Prod.mk.inj h
    exact sequence_keeps replacement input c _ hs (Prod.ext hr rfl)
  | rotating rotation =>
    obtain ⟨hr, rfl⟩ := Prod.mk.inj h
    exact rotation_keeps hs (Prod.ext hr rfl)

end composite

section batch

variable {options : OperationOptions}

theorem mapped_next {σ T : Type} {M : Machine σ T} {convert : T → BatchItem} {s s' : σ}
    {input : Option ResponseData} {c : LogicalCommand}
    (h : (mapped M convert).next s input = (.ok (.command c), s')) :
    M.next s input = (.ok (.command c), s') := by
  obtain ⟨hr, rfl⟩ := Prod.mk.inj h
  obtain ⟨action, haction, hc⟩ := map_eq_ok.mp hr
  cases action with
  | done value => cases hc
  | command c' =>
    cases hc
    exact Prod.ext haction rfl

/-- What a value is turned into makes no difference to the commands before it. -/
theorem mapped_sends {σ T : Type} {M : Machine σ T} {convert : T → BatchItem} {s : σ}
    {c : LogicalCommand} (h : Sends (mapped M convert) s c) : Sends M s c := by
  obtain ⟨cs, rs, m, ht, hmem⟩ := h
  refine ⟨cs, rs, m, ?_, hmem⟩
  clear hmem
  induction ht with
  | opened h => exact .opened (mapped_next h)
  | answered _ h ih => exact .answered ih (mapped_next h)

theorem last_sends {σ T : Type*} {M : Machine σ T} {m₀ m : σ} {result : Except Error (Action T)}
    {cs : List LogicalCommand} {rs : List ResponseData} (h : LastTurn M m₀ result cs rs m) :
    ∀ c ∈ cs, Sends M m₀ c := by
  intro c hc
  cases h with
  | opening _ => cases hc
  | answering ht _ => exact ⟨_, _, _, ht, hc⟩

theorem finished_sends {front : List (Boxed BatchItem)} {items : List BatchItem}
    {cs : List LogicalCommand} {rs : List ResponseData} (h : Finished front items cs rs) :
    ∀ c ∈ cs, ∃ b ∈ front, Sends b.machine b.state c := by
  induction h with
  | nothing =>
    intro c hc
    cases hc
  | @request _ _ _ _ _ _ b _ _ _ ht ih =>
    intro c hc
    rcases List.mem_append.mp hc with hc | hc
    · obtain ⟨b', hb', hs⟩ := ih c hc
      exact ⟨b', List.mem_append_left _ hb', hs⟩
    · exact ⟨b, by simp, last_sends ht c hc⟩

/-- A batch sends what one of its requests sends. -/
theorem batch_sends {boxes : List (Boxed BatchItem)} {c : LogicalCommand}
    (h : Sends batchMachine (.new boxes options) c) :
    ∃ b ∈ boxes, Sends b.machine b.state c := by
  obtain ⟨cs, rs, m, ht, hmem⟩ := h
  have hwaiting := batch_trace ht
  cases hwaiting with
  | @«at» _ _ b _ _ _ _ _ _ hb hf hown _ =>
    rcases List.mem_append.mp hmem with hmem | hmem
    · obtain ⟨b', hb', hs⟩ := finished_sends hf c hmem
      exact ⟨b', by rw [hb]; exact List.mem_append_left _ hb', hs⟩
    · exact ⟨b, by rw [hb]; simp, _, _, _, hown, hmem⟩

end batch

section protection

open PivPinManaged PivPinManagedSafety

variable {cipher : BlockCipher} {profile : DeviceProfile} {options : OperationOptions}

/-- A field of a few bytes fits the input and one short frame. -/
structure Fits (options : OperationOptions) (n : ℕ) : Prop where
  input : n ≤ options.limits.maxInputBytes
  frame : n + 6 ≤ options.exchange.maxCommandBytes

theorem Fits.accepted {n : ℕ} {c : LogicalCommand} (h : Fits options n) (hvalid : options.Valid)
    (hcont : c.continuation.isIso = true)
    (hle : c.le = .absent ∨ c.le = .exact 256 ∧ c.correctLe = true) (hdata : c.data.length = n)
    (hsmall : n ≤ 255) : Accepted options c := by
  apply accepted_alone hvalid hcont hle
  · rw [hdata]
    exact h.input
  · refine Or.inr ?_
    have hframe := h.frame
    rw [hdata, maxShort]
    omega

theorem metadata_accepted (hvalid : options.Valid) (reference : MetadataReference) :
    Accepted options (PivCommand.metadata reference) :=
  accepted_alone hvalid rfl (Or.inr ⟨rfl, rfl⟩) (Nat.zero_le _) (Or.inl rfl)

/-- What the machine can still send. -/
structure PinReady (cipher : BlockCipher) (options : OperationOptions) (s : PinManaged) :
    Prop where
  same : s.options = options
  valid : options.Valid
  admin : Accepted options (getData .adminData)
  printed : Accepted options (getData .printed)
  change : s.replacement.isSome = true → ∀ old new, Accepted options (change 0x24 0x81 old new)
  authentication : ∀ m, s.authentication = some m → Authenticates cipher options m.auth

variable {s s' : PinManaged} {r : ResponseData} {input : Option ResponseData}
  {c : LogicalCommand}

theorem change_keeps (hs : PinReady cipher options s) (h : s.change = (.ok (.command c), s')) :
    Accepted options c ∧ PinReady cipher options s' := by
  rw [PinManaged.change] at h
  by_cases hlimit : s.attempts ≥ 32
  · rw [if_pos hlimit] at h
    cases h
  rw [if_neg hlimit] at h
  cases hr : s.replacement with
  | none =>
    rw [hr] at h
    cases h
  | some replacement =>
    rw [hr] at h
    cases h
    have hchange := hs.change
    refine ⟨hchange (by rw [hr]; rfl) _ _, hs.same, hs.valid, hs.admin, hs.printed, ?_,
      hs.authentication⟩
    rw [hr] at hchange
    exact hchange

theorem authentication_keeps (hs : PinReady cipher options s)
    (h : s.authenticationNext cipher input = (.ok (.command c), s')) :
    Accepted options c ∧ PinReady cipher options s' := by
  rw [PinManaged.authenticationNext] at h
  cases ha : s.authentication with
  | none =>
    rw [ha] at h
    cases h
  | some m =>
    rw [ha] at h
    dsimp only at h
    rcases hn : m.next cipher input with ⟨e | c' | u, m'⟩
    · rw [hn] at h
      cases h
    · rw [hn] at h
      cases h
      obtain ⟨hc, hleft⟩ := management_keeps _ _ _ _ (hs.authentication m ha) hn
      refine ⟨hc, hs.same, hs.valid, hs.admin, hs.printed, hs.change, ?_⟩
      intro m'' hm''
      cases hm''
      exact hleft
    · rw [hn] at h
      dsimp only at h
      by_cases hsome : s.replacement.isSome = true
      · rw [if_pos hsome] at h
        have hready : PinReady cipher options { s with authentication := none } := by
          refine ⟨hs.same, hs.valid, hs.admin, hs.printed, hs.change, ?_⟩
          intro m'' hm''
          cases hm''
        exact change_keeps hready h
      · rw [if_neg hsome] at h
        obtain ⟨_, _, hc⟩ := result_ok h
        cases hc

/-- The authentication is validated when the metadata has told its algorithm. -/
theorem external_validated {auth : ManagementAuthentication} (h : s.external r = .ok auth) :
    auth.validate s.profile s.options = .ok () := by
  obtain ⟨_, _, h⟩ := bind_eq_ok.mp h
  obtain ⟨_, _, h⟩ := bind_eq_ok.mp h
  obtain ⟨_, _, h⟩ := bind_eq_ok.mp h
  obtain ⟨_, hvalidate, h⟩ := bind_eq_ok.mp h
  cases h
  exact hvalidate

theorem managementMetadata_keeps (hs : PinReady cipher options s)
    (h : s.managementMetadataNext cipher r = (.ok (.command c), s')) :
    Accepted options c ∧ PinReady cipher options s' := by
  rw [PinManaged.managementMetadataNext] at h
  cases he : s.external r with
  | error e =>
    rw [he] at h
    cases h
  | ok auth =>
    rw [he] at h
    have hvalidate := external_validated he
    rw [hs.same] at hvalidate
    have hready : PinReady cipher options
        { s with authentication := some (.new auth), stage := .authentication } := by
      refine ⟨hs.same, hs.valid, hs.admin, hs.printed, hs.change, ?_⟩
      intro m hm
      cases hm
      exact authenticates_of_validate hvalidate
    exact authentication_keeps hready h

theorem pinChange_keeps (hs : PinReady cipher options s)
    (h : s.changeNext r = (.ok (.command c), s')) :
    Accepted options c ∧ PinReady cipher options s' := by
  have hagain {known : Bool} (h : { s with known := known }.change = (.ok (.command c), s')) :
      Accepted options c ∧ PinReady cipher options s' := by
    have hready : PinReady cipher options { s with known := known } :=
      ⟨hs.same, hs.valid, hs.admin, hs.printed, hs.change, hs.authentication⟩
    exact change_keeps hready h
  simp only [PinManaged.changeNext] at h
  split_ifs at h
  · cases h
  · exact hagain h
  · cases h
    exact ⟨metadata_accepted hs.valid _, hs.same, hs.valid, hs.admin, hs.printed, hs.change,
      hs.authentication⟩
  · exact change_keeps hs h
  · cases ha : requireAuth r .puk with
    | error e =>
      rw [ha] at h
      cases h
    | ok u =>
      rw [ha] at h
      exact change_keeps hs h

theorem answered_keeps (hs : PinReady cipher options s)
    (h : s.answered cipher r = (.ok (.command c), s')) :
    Accepted options c ∧ PinReady cipher options s' := by
  rw [PinManaged.answered] at h
  split at h
  · obtain ⟨_, hc, rfl⟩ := adminNext_ok h
    cases hc
    exact ⟨metadata_accepted hs.valid _, hs.same, hs.valid, hs.admin, hs.printed, hs.change,
      hs.authentication⟩
  · obtain ⟨n, _, _, hc, rfl⟩ := pukNext_ok h
    cases hc
    refine ⟨hs.printed, hs.same, hs.valid, hs.admin, hs.printed, ?_, hs.authentication⟩
    intro hkept
    apply hs.change
    by_cases hzero : n = 0
    · simp [kept, hzero] at hkept
    · simpa [kept, hzero] using hkept
  · obtain ⟨_, _, _, hc⟩ := confirmNext_ok h
    cases hc
  · obtain ⟨_, _, hc, rfl⟩ := printedNext_ok h
    cases hc
    exact ⟨metadata_accepted hs.valid _, hs.same, hs.valid, hs.admin, hs.printed, hs.change,
      hs.authentication⟩
  · exact managementMetadata_keeps hs h
  · exact pinChange_keeps hs h
  · cases h
  · cases h

theorem pinManaged_keeps :
    Keeps (pinManagedMachine cipher) (PinReady cipher options) (Accepted options) := by
  intro s input c s' hs h
  simp only [pinManagedMachine, PinManaged.next] at h
  cases hstage : s.stage with
  | begin =>
    rw [hstage] at h
    cases h
    exact ⟨hs.admin, hs.same, hs.valid, hs.admin, hs.printed, hs.change, hs.authentication⟩
  | authentication =>
    rw [hstage] at h
    exact authentication_keeps hs h
  | _ =>
    rw [hstage] at h
    cases input with
    | none => cases h
    | some r => exact answered_keeps hs h

end protection

end PivPreflight
