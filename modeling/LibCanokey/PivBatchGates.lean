import LibCanokey.PivBatchExecution
import LibCanokey.ProtocolAcceptance

/-! # The gates of a batch and of its requests alone

Every request against the factory that runs it alone: what a batch accepts after the
authentication an access stands for, and what the factory accepts with that access. -/
namespace PivBatchGates

open BigEndian CheckedCursor ListTraversal ProtocolError ProtocolApdu ProtocolConversation
open ProtocolOperation ProtocolAcceptance CompatProfile PivCommand PivManagement PivAccess
open PivAccessOrdering PivMetadata PivObjects PivWrite PivConfiguration PivKeys PivPrivate
open PivStreaming PivSm2Agreement PivDirectory PivBatch PivBatchAdmission

variable {P : Primitives} {profile : DeviceProfile} {options : OperationOptions}
  {access : Access} {request : BatchRequest}

/-- The explicit requests an access stands for. -/
def authRequests : Access → List BatchRequest
  | .existing | .none => []
  | .pin pin => [.verifyPin pin]
  | .management auth => [.authenticateManagement auth]
  | .pinAndManagement pin auth => [.authenticateManagement auth, .verifyPin pin]

/-- Whether a factory accepts, whatever it builds. -/
def accepted {α : Type} (result : Except Error α) : Except Error Unit := result.map fun _ => ()

/-- The factory of a request with the same arguments; some take no access. -/
def standalone (P : Primitives) (profile : DeviceProfile) (options : OperationOptions)
    (access : Access) : BatchRequest → Except Error Unit
  | .agreeSm2 slot input => accepted (agreeSm2 P.point profile slot input access options)
  | .readMetadataDirectory => accepted (readMetadataDirectory profile access options)
  | .readContainerName slot => accepted (readContainerName profile (.key slot) access options)
  | .setContainerName slot name =>
    accepted (setContainerName profile (.key slot) name access options)
  | .moveKey source target => accepted (moveKey profile source target access options)
  | .deleteKey slot => accepted (deleteKey profile slot access options)
  | .resetPinPukRetries pinRetries pukRetries =>
    accepted (resetPinPukRetries profile pinRetries pukRetries access options)
  | .setAlgorithmConfig config => accepted (setAlgorithmConfig profile config access options)
  | .attest slot => accepted (attest profile slot true options)
  | .verifyPin pin => accepted (verifyPinOperation profile pin options)
  | .authenticateManagement auth =>
    accepted (authenticateManagementKey profile auth true options)
  | .logout => accepted (logoutOperation profile options)
  | .readObject id => accepted (readObject profile id access options)
  | .readCertificate slot => accepted (readCertificate P.gunzip profile slot access options)
  | .writeObject id data => accepted (writeObject profile id data access options)
  | .writeCertificate slot der => accepted (writeCertificate profile slot der access options)
  | .deleteCertificate slot => accepted (deleteCertificate profile slot access options)
  | .setManagementKey key touch =>
    accepted (setManagementKey profile key touch false access options)
  | .getMetadata reference => accepted (getMetadata profile reference access options)
  | .readAlgorithmConfig => accepted (readAlgorithmConfig profile access options)
  | .generateKey parameters => accepted (generateKey profile parameters access options)
  | .importKey parameters material =>
    accepted (importKey profile parameters material access options)
  | .sign slot algorithm input =>
    accepted (sign P.der profile slot algorithm input access options)
  | .signStreaming slot input => accepted (signStreaming P.der profile slot input access options)
  | .decrypt slot algorithm ciphertext =>
    accepted (decrypt profile slot algorithm ciphertext access options)
  | .derive slot algorithm peer =>
    accepted (derive P.point profile slot algorithm peer access options)
  | .decapsulate slot ciphertext =>
    accepted (decapsulate profile slot ciphertext access options)

theorem accepted_eq_ok {α : Type} {result : Except Error α} :
    accepted result = .ok () ↔ ∃ value, result = .ok value := by
  rw [accepted, map_eq_ok]
  simp

theorem preflight_eq_ok : access.preflight profile options = .ok () ↔
    require profile = .ok () ∧ options.Valid ∧ access.validateSelect options = .ok () ∧
      access.validateManagement profile options = .ok () ∧
      access.validatePin options = .ok () := by
  rw [Access.preflight]
  constructor
  · intro h
    obtain ⟨_, hrequire, h⟩ := bind_eq_ok.mp h
    obtain ⟨_, hvalid, h⟩ := bind_eq_ok.mp h
    obtain ⟨_, hselect, h⟩ := bind_eq_ok.mp h
    obtain ⟨_, hmanagement, hpin⟩ := bind_eq_ok.mp h
    exact ⟨hrequire, (validate_eq_ok.mp hvalid).1, hselect, hmanagement, hpin⟩
  · rintro ⟨hrequire, hvalid, hselect, hmanagement, hpin⟩
    refine bind_eq_ok.mpr ⟨(), hrequire, ?_⟩
    refine bind_eq_ok.mpr ⟨options, validate_eq_ok.mpr ⟨hvalid, rfl⟩, ?_⟩
    refine bind_eq_ok.mpr ⟨(), hselect, ?_⟩
    exact bind_eq_ok.mpr ⟨(), hmanagement, hpin⟩

section accepts

variable {σ : Type} {T : Type} {target : Except Error σ}

theorem boxed_eq_ok {M : Machine σ T} {convert : T → BatchItem} {b : Boxed BatchItem}
    (h : boxed M convert target = .ok b) : ∃ state, target = .ok state := by
  cases target with
  | error e => cases h
  | ok state => exact ⟨state, rfl⟩

theorem fromMachine_accepts (hvalid : options.Valid) (state : σ) :
    ∃ op : Operation σ T, Operation.fromMachine state options = .ok op := by
  rw [Operation.fromMachine, validate_eq_ok.mpr ⟨hvalid, rfl⟩]
  exact ⟨_, rfl⟩

theorem withAccess_accepts (hpreflight : access.preflight profile options = .ok ()) (state : σ) :
    ∃ op : Operation (Selected σ) T, withAccess profile access state options = .ok op := by
  obtain ⟨op, hop⟩ := @fromMachine_accepts options _ T (preflight_eq_ok.mp hpreflight).2.1
    (Selected.new profile.legacyExplicitLe access state)
  exact ⟨op, withAccess_eq_ok.mpr ⟨hpreflight, hop⟩⟩

/-- A factory without a gate of its own. -/
theorem ungated (htarget : ∃ state, target = .ok state)
    (hpreflight : access.preflight profile options = .ok ()) :
    accepted (target >>= fun state =>
      (withAccess profile access state options : Except Error (Operation (Selected σ) T))) =
        .ok () := by
  obtain ⟨state, rfl⟩ := htarget
  exact accepted_eq_ok.mpr (withAccess_accepts hpreflight state)

/-- A factory that checks its access first. -/
theorem gated {gate : Except Error Unit} (hgate : gate = .ok ())
    (htarget : ∃ state, target = .ok state)
    (hpreflight : access.preflight profile options = .ok ()) :
    accepted (gate >>= fun _ => target >>= fun state =>
      (withAccess profile access state options : Except Error (Operation (Selected σ) T))) =
        .ok () := by
  rw [hgate]
  exact ungated htarget hpreflight

end accepts

/-- What an accepted batch has checked of its last request. -/
structure Checked (P : Primitives) (profile : DeviceProfile) (options : OperationOptions)
    (access : Access) (request : BatchRequest) : Prop where
  plain : Access.none.preflight profile options = .ok ()
  preflight : access.preflight profile options = .ok ()
  prepared : ∃ machine, request.prepare P profile options = .ok machine
  mutation : request.mutates = true → requireManagement access = .ok ()
  retryReset : request.isRetryReset = true → requirePinAndManagement access = .ok ()

theorem authenticated_access (hne : access.isExisting = false)
    (h : Authenticated (authRequests access)) : requireManagement access = .ok () := by
  obtain ⟨earlier, auth, between, heq, _⟩ := h
  cases access with
  | existing => cases hne
  | none => simp [authRequests] at heq
  | pin pin => simp [authRequests, List.singleton_eq_append_iff] at heq
  | management auth => rfl
  | pinAndManagement pin auth => rfl

/-- A verified PIN right before a request that needs the management key too. -/
theorem verified_access (hne : access.isExisting = false)
    (hauth : Authenticated (authRequests access)) (h : Verified (authRequests access)) :
    requirePinAndManagement access = .ok () := by
  obtain ⟨earlier, pin, heq⟩ := h
  cases access with
  | existing => cases hne
  | none => simp [authRequests] at heq
  | pin pin =>
    have := authenticated_access rfl hauth
    cases this
  | management auth => simp [authRequests, List.singleton_eq_append_iff] at heq
  | pinAndManagement pin auth => rfl

theorem managementOf_mem {auth : ManagementAuthentication} (h : access.managementOf = some auth) :
    .authenticateManagement auth ∈ authRequests access := by
  cases access with
  | management a => cases h; simp [authRequests]
  | pinAndManagement p a => cases h; simp [authRequests]
  | _ => cases h

theorem pinOf_mem {pin : Pin} (h : access.pinOf = some pin) :
    .verifyPin pin ∈ authRequests access := by
  cases access with
  | pin p => cases h; simp [authRequests]
  | pinAndManagement p a => cases h; simp [authRequests]
  | _ => cases h

theorem prepared_mem {requests : List BatchRequest} {machines : List (Boxed BatchItem)}
    (h : Prepared P profile options requests machines) :
    ∀ r ∈ requests, ∃ machine, r.prepare P profile options = .ok machine := by
  induction h with
  | nil =>
    intro r hr
    cases hr
  | cons hp _ ih =>
    intro r hr
    rcases List.mem_cons.mp hr with rfl | hr
    · exact ⟨_, hp⟩
    · exact ih r hr

theorem batch_checked {op : Operation (Selected BatchMachine) BatchResults}
    (hne : access.isExisting = false)
    (h : batch P profile (authRequests access ++ [request]) options = .ok op) :
    Checked P profile options access request := by
  obtain ⟨hadmitted, machines, hprepared, hop⟩ := batch_admitted h
  have hplain := (withAccess_eq_ok.mp hop).1
  obtain ⟨hrequire, hvalid, hselect, _, _⟩ := preflight_eq_ok.mp hplain
  have hmachine := prepared_mem hprepared
  have hallowed := hadmitted (authRequests access) request [] rfl
  refine ⟨hplain, preflight_eq_ok.mpr ⟨hrequire, hvalid, ?_, ?_, ?_⟩, ?_, ?_, ?_⟩
  · rw [Access.validateSelect, if_neg (by simp [hne])]
    exact hselect
  · rw [Access.validateManagement]
    cases ha : access.managementOf with
    | none => rfl
    | some auth =>
      obtain ⟨machine, hm⟩ := hmachine _ (List.mem_append_left _ (managementOf_mem ha))
      obtain ⟨state, hstate⟩ := boxed_eq_ok hm
      obtain ⟨_, hv, _⟩ := map_eq_ok.mp hstate
      exact hv
  · rw [Access.validatePin]
    cases hp : access.pinOf with
    | none => rfl
    | some pin =>
      obtain ⟨machine, hm⟩ := hmachine _ (List.mem_append_left _ (pinOf_mem hp))
      obtain ⟨state, hstate⟩ := boxed_eq_ok hm
      exact (prepare_eq_ok.mp hstate).1
  · exact hmachine request (by simp)
  · intro hm
    exact authenticated_access hne (hallowed.mutation hm)
  · intro hr
    have hm : request.mutates = true := by
      cases request <;> first | rfl | cases hr
    exact verified_access hne (hallowed.mutation hm) (hallowed.retryReset hr)

section legacy

variable {command : LogicalCommand}

/-- A command of few bytes that is accepted without Le is accepted with the explicit one when a
full short response fits. -/
theorem explicit_accepts (hle : command.le = .absent) (hcorrect : command.correctLe = false)
    (hshort : command.data.length ≤ 255) (h : validateCommand command options = .ok ()) :
    validateCommand { command with le := .exact 256 } options = .ok () ↔
      258 ≤ options.exchange.maxResponseBytes := by
  obtain ⟨hvalid, hnew⟩ := validateCommand_eq_ok.mp h
  rw [validateCommand_eq_ok, and_iff_right hvalid]
  exact (explicit_iff hvalid hle hcorrect hnew).trans (leRoom_of_short hvalid hle hshort hnew)

theorem make_accepts_all {T : Type} {commands : List Request}
    {parse : ResponseData → Except Error T} :
    accepted (make profile commands options parse) = .ok () ↔ options.Valid ∧
      ∀ req ∈ commands,
        validateCommand (explicitLe profile.legacyExplicitLe req.command) options = .ok () := by
  rw [accepted_eq_ok]
  constructor
  · rintro ⟨op, h⟩
    obtain ⟨_, hvalid, h⟩ := bind_eq_ok.mp h
    obtain ⟨_, hall, _⟩ := bind_eq_ok.mp h
    refine ⟨(validate_eq_ok.mp hvalid).1, ?_⟩
    intro req hreq
    obtain ⟨_, hcommand⟩ := mapM_eq_ok_mem hall (List.mem_map_of_mem hreq)
    exact hcommand
  · rintro ⟨hvalid, hall⟩
    obtain ⟨op, hop⟩ := @fromMachine_accepts options (Sequence T) T hvalid
      ⟨commands.map fun req =>
        { req with command := explicitLe profile.legacyExplicitLe req.command }, none, some parse⟩
    refine ⟨op, bind_eq_ok.mpr ⟨options, validate_eq_ok.mpr ⟨hvalid, rfl⟩, ?_⟩⟩
    refine bind_eq_ok.mpr ⟨_, @mapM_of_forall _ _ _ _ (fun _ => ()) _ ?_, hop⟩
    intro req hreq
    obtain ⟨before, hbefore, rfl⟩ := List.mem_map.mp hreq
    exact hall before hbefore

theorem make_accepts {T : Type} {command : LogicalCommand} {parse : ResponseData → Except Error T} :
    accepted (make profile (selected command) options parse) = .ok () ↔ options.Valid ∧
      validateCommand (explicitLe profile.legacyExplicitLe select) options = .ok () ∧
      validateCommand (explicitLe profile.legacyExplicitLe command) options = .ok () := by
  rw [make_accepts_all]
  simp [selected, request]

/-- SELECT and a VERIFY that are accepted as they are, in the form `make` gives them. -/
theorem verify_accepts {pin : Pin} (hselect : validateCommand select options = .ok ())
    (hpin : validateCommand (verifyPin pin) options = .ok ()) :
    validateCommand (explicitLe profile.legacyExplicitLe select) options = .ok () ∧
        validateCommand (explicitLe profile.legacyExplicitLe (verifyPin pin)) options = .ok () ↔
      (profile.legacyExplicitLe = true → 258 ≤ options.exchange.maxResponseBytes) := by
  by_cases hlegacy : profile.legacyExplicitLe = true
  · rw [hlegacy]
    have hshort : (verifyPin pin).data.length ≤ 255 := by simp [verifyPin, cmd]
    have hs := explicit_accepts rfl rfl (by decide) hselect
    have hp := explicit_accepts rfl rfl hshort hpin
    constructor
    · rintro ⟨h, _⟩ _
      exact hs.mp h
    · intro h
      exact ⟨hs.mpr (h rfl), hp.mpr (h rfl)⟩
  · have hplain : profile.legacyExplicitLe = false := by simpa using hlegacy
    rw [hplain]
    refine ⟨fun _ h => absurd h (by decide), fun _ => ⟨?_, ?_⟩⟩
    · exact hselect
    · exact hpin

end legacy

/-- What the factory of the request alone checks and a batch does not. -/
inductive Ungated (profile : DeviceProfile) (options : OperationOptions) (access : Access) :
    BatchRequest → Prop where
  | protectedRead
      (hprotected : (profile.capability .pivProtectedAlgorithmConfigRead).support = .supported)
      (haccess : withoutManagement access = true) :
      Ungated profile options access .readAlgorithmConfig
  | explicitVerify (pin : Pin) (hlegacy : profile.legacyExplicitLe = true)
      (hresponse : options.exchange.maxResponseBytes < 258) :
      Ungated profile options access (.verifyPin pin)

theorem read_standalone
    (hprepared : ∃ state, prepareReadAlgorithmConfig profile options = .ok state)
    (hpre : access.preflight profile options = .ok ()) :
    standalone P profile options access .readAlgorithmConfig = .ok () ↔
      ¬ Ungated profile options access .readAlgorithmConfig := by
  obtain ⟨state, hstate⟩ := hprepared
  simp only [standalone]
  rw [accepted_eq_ok, readAlgorithmConfig]
  constructor
  · rintro ⟨op, hop⟩
    obtain ⟨_, _, hop⟩ := bind_eq_ok.mp hop
    split_ifs at hop with hgate
    rintro ⟨hprotected, haccess⟩
    exact hgate ⟨hprotected, haccess⟩
  · intro hfree
    obtain ⟨op, hop⟩ := @withAccess_accepts _ _ _ _ AlgorithmConfig hpre state
    refine ⟨op, bind_eq_ok.mpr ⟨state, hstate, ?_⟩⟩
    rw [if_neg]
    · exact hop
    · rintro ⟨hprotected, haccess⟩
      exact hfree (.protectedRead hprotected haccess)

theorem verify_standalone {pin : Pin} (hplain : Access.none.preflight profile options = .ok ())
    (hpin : validateCommand (verifyPin pin) options = .ok ()) :
    standalone P profile options access (.verifyPin pin) = .ok () ↔
      ¬ Ungated profile options access (.verifyPin pin) := by
  obtain ⟨hrequire, hvalid, hselect, _, _⟩ := preflight_eq_ok.mp hplain
  have hverify := @verify_accepts profile options pin hselect hpin
  simp only [standalone, verifyPinOperation, hrequire]
  change accepted (make _ _ _ _) = _ ↔ _
  rw [make_accepts]
  constructor
  · rintro ⟨_, hmake⟩ hungated
    cases hungated with
    | explicitVerify _ hlegacy hresponse =>
      have := hverify.mp hmake hlegacy
      omega
  · intro hfree
    refine ⟨hvalid, hverify.mpr ?_⟩
    intro hlegacy
    by_contra hsmall
    exact hfree (.explicitVerify pin hlegacy (Nat.lt_of_not_le hsmall))

/-- The Le of the command itself needs the room that an explicit one on SELECT needs. -/
theorem logout_standalone (hplain : Access.none.preflight profile options = .ok ())
    (hlogout : validateCommand logout options = .ok ()) :
    standalone P profile options access .logout = .ok () := by
  obtain ⟨hrequire, hvalid, hselect, _, _⟩ := preflight_eq_ok.mp hplain
  have hsame : explicitLe profile.legacyExplicitLe logout = logout := if_neg (by simp [logout, cmd])
  simp only [standalone, logoutOperation, hrequire]
  change accepted (make _ _ _ _) = _
  rw [make_accepts, hsame]
  refine ⟨hvalid, ?_, hlogout⟩
  by_cases hlegacy : profile.legacyExplicitLe = true
  · rw [hlegacy]
    refine (explicit_accepts rfl rfl (by decide) hselect).mpr ?_
    obtain ⟨_, _, _, le, hclamp, _⟩ := (new_iff hvalid).mp (validateCommand_eq_ok.mp hlogout).2
    by_contra hsmall
    have hresponse := hvalid.response
    simp only [clampLe, logout, cmd] at hclamp
    rw [if_pos (by omega)] at hclamp
    simp at hclamp
  · rw [show profile.legacyExplicitLe = false by simpa using hlegacy]
    exact hselect

theorem authenticate_standalone {auth : ManagementAuthentication}
    (hplain : Access.none.preflight profile options = .ok ())
    (hvalidate : auth.validate profile options = .ok ()) :
    standalone P profile options access (.authenticateManagement auth) = .ok () := by
  have hrequire := (preflight_eq_ok.mp hplain).1
  obtain ⟨op, hop⟩ := @withAccess_accepts profile options .none ManagementMachine Unit hplain
    (.new auth)
  simp only [standalone]
  rw [accepted_eq_ok]
  refine ⟨op, ?_⟩
  rw [authenticateManagementKey, hrequire]
  change (auth.validate profile options >>= _) = _
  rw [hvalidate]
  exact hop

/-- Whatever a batch has checked, the factory of the last request alone accepts it except for
the two gates of its own. -/
theorem checked_standalone (h : Checked P profile options access request) :
    standalone P profile options access request = .ok () ↔
      ¬ Ungated profile options access request := by
  obtain ⟨hplain, hpre, ⟨machine, hm⟩, hmutation, hreset⟩ := h
  have hsimple (hrest : ¬ Ungated profile options access request)
      (haccepted : standalone P profile options access request = .ok ()) :
      standalone P profile options access request = .ok () ↔
        ¬ Ungated profile options access request :=
    ⟨fun _ => hrest, fun _ => haccepted⟩
  cases request with
  | readAlgorithmConfig => exact read_standalone (boxed_eq_ok hm) hpre
  | verifyPin pin =>
    obtain ⟨state, hstate⟩ := boxed_eq_ok hm
    exact verify_standalone hplain (prepare_eq_ok.mp hstate).1
  | logout =>
    obtain ⟨state, hstate⟩ := boxed_eq_ok hm
    exact hsimple nofun (logout_standalone hplain (prepare_eq_ok.mp hstate).1)
  | authenticateManagement auth =>
    obtain ⟨state, hstate⟩ := boxed_eq_ok hm
    obtain ⟨_, hvalidate, _⟩ := map_eq_ok.mp hstate
    exact hsimple nofun (authenticate_standalone hplain hvalidate)
  | attest slot => exact hsimple nofun (ungated (boxed_eq_ok hm) hplain)
  | resetPinPukRetries pinRetries pukRetries =>
    exact hsimple nofun (gated (hreset rfl) (boxed_eq_ok hm) hpre)
  | setManagementKey key touch =>
    obtain ⟨state, hstate⟩ := boxed_eq_ok hm
    have hplainKey : prepareReplacing profile key touch false options = .ok (.plain state) := by
      rw [prepareReplacing, hstate]
      rfl
    exact hsimple nofun (gated (hmutation rfl) ⟨_, hplainKey⟩ hpre)
  | setContainerName | moveKey | deleteKey | setAlgorithmConfig | writeObject
  | writeCertificate | deleteCertificate | generateKey | importKey =>
    exact hsimple nofun (gated (hmutation rfl) (boxed_eq_ok hm) hpre)
  | _ => exact hsimple nofun (ungated (boxed_eq_ok hm) hpre)

/-- An accepted batch of the requests an access stands for and one more: the factory of that
request accepts the access unless one of its own two gates refuses it. -/
theorem batch_standalone {op : Operation (Selected BatchMachine) BatchResults}
    (hne : access.isExisting = false)
    (h : batch P profile (authRequests access ++ [request]) options = .ok op) :
    standalone P profile options access request = .ok () ↔
      ¬ Ungated profile options access request :=
  checked_standalone (batch_checked hne h)

/-- A 3.0.3 device with PIV observed. -/
def protectedProfile : DeviceProfile := { exampleProfile with firmware := some ⟨3, 0, 3, none⟩ }

theorem batch_standalone_metadata :
    ∃ op, batch PivBatchExecution.refusingPrimitives protectedProfile
        (authRequests (.pin examplePin) ++ [.getMetadata .pin]) {} = .ok op ∧
      (standalone PivBatchExecution.refusingPrimitives protectedProfile {} (.pin examplePin)
          (.getMetadata .pin) = .ok () ↔
        ¬ Ungated protectedProfile {} (.pin examplePin) (.getMetadata .pin)) := by
  have hop : batch PivBatchExecution.refusingPrimitives protectedProfile
      (authRequests (.pin examplePin) ++ [.getMetadata .pin]) {} = .ok _ := rfl
  exact ⟨_, hop, batch_standalone rfl hop⟩

/-- On firmware that protects the read a batch starts it without any authentication. -/
theorem batch_reads_protected_config :
    (∃ op, batch PivBatchExecution.refusingPrimitives protectedProfile
        (authRequests .none ++ [.readAlgorithmConfig]) {} = .ok op) ∧
      standalone PivBatchExecution.refusingPrimitives protectedProfile {} .none
        .readAlgorithmConfig = .error (.new .securityStatusNotSatisfied) :=
  ⟨⟨_, rfl⟩, rfl⟩

end PivBatchGates
