import LibCanokey.FallibleResults
import LibCanokey.PivPreflight

/-! # Factories over an access

Every PIV factory that wraps a target with an access, what its preparation ensures of the
commands of the target and which commands a run can still have rejected. -/
namespace PivFactories

open BigEndian ListTraversal FallibleResults ProtocolError ProtocolApdu ProtocolConversation
open ProtocolOperation ProtocolTranscript ProtocolSegmentation ProtocolAcceptance
open ProtocolPreflight CompatProfile PivCommand PivManagement PivManagementAuthentication
open PivAccess PivAccessOrdering PivMetadata PivObjects PivWrite PivConfiguration PivKeys
open PivPrivate PivStreaming PivSm2Agreement PivDirectory PivBatch PivBatchAdmission
open PivBatchGates PivPreflight
open PivBatchExecution (refusingPrimitives)

section prepared

variable {σ : Type} {T : Type} {profile : DeviceProfile} {options : OperationOptions}

/-- Every command that the prepared machine can send is accepted. -/
def Prepares (M : Machine σ T) (options : OperationOptions) (target : Except Error σ) : Prop :=
  Ensures target fun s => ∀ c, Sends M s c → Accepted options c

theorem prepare_pending {command : LogicalCommand} {parse : ResponseData → Except Error T} :
    Ensures (prepare command options parse) (Pending (Accepted options)) := by
  intro s hs
  obtain ⟨hv, rfl⟩ := prepare_eq_ok.mp hs
  intro req hreq
  rw [List.mem_singleton.mp hreq]
  exact (validateCommand_eq_ok.mp hv).2

/-- A target whose requests were validated. -/
theorem prepares_sequence {target : Except Error (Sequence T)}
    (h : Ensures target (Pending (Accepted options))) :
    Prepares (sequence T) options target :=
  h.weaken fun _ hs _ hc => sequence_keeps.sends hs hc

theorem prepares_prepare {command : LogicalCommand} {parse : ResponseData → Except Error T} :
    Prepares (sequence T) options (prepare command options parse) :=
  prepares_sequence prepare_pending

theorem writeObject_pending {id : ObjectId} {data : Bytes} :
    Ensures (prepareWriteObject profile id data options) (Pending (Accepted options)) :=
  .after fun _ => prepare_pending

theorem directory_prepares : Prepares (sequence _) options (prepareDirectory profile options) :=
  .after fun _ => prepares_prepare

theorem readName_prepares {reference : ContainerNameReference} :
    Prepares (sequence _) options (prepareReadName profile reference options) :=
  .after fun _ => prepares_prepare

theorem setName_prepares {reference : ContainerNameReference} {name : ContainerName} :
    Prepares (sequence _) options (prepareSetName profile reference name options) :=
  .after fun _ => prepares_prepare

theorem retryReset_prepares {pin puk : UInt8} :
    Prepares (sequence _) options (prepareRetryReset profile pin puk options) :=
  .after fun _ => .guarded fun _ => prepares_prepare

theorem config_prepares {config : AlgorithmConfig} :
    Prepares (sequence _) options (prepareConfig profile config options) :=
  .after fun _ => .guarded fun _ => prepares_prepare

theorem attest_prepares {slot : Slot} :
    Prepares (sequence _) options (prepareAttest profile slot options) :=
  .after fun _ => prepares_prepare

theorem readObject_prepares {id : ObjectId} {preserveContainer : Bool}
    {parse : Bytes → Except Error T} : Prepares (sequence _) options
      (prepareReadObjectFormat profile id options preserveContainer parse) :=
  .after fun _ => prepares_prepare

theorem readAlgorithmConfig_prepares :
    Prepares (sequence _) options (prepareReadAlgorithmConfig profile options) :=
  .after fun _ => prepares_prepare

theorem writeObject_prepares {id : ObjectId} {data : Bytes} :
    Prepares (sequence _) options (prepareWriteObject profile id data options) :=
  prepares_sequence writeObject_pending

theorem deleteCertificate_prepares {slot : Slot} :
    Prepares (sequence _) options (prepareDeleteCertificate profile slot options) :=
  .after fun _ => writeObject_prepares

theorem writeCertificate_prepares {slot : Slot} {der : Bytes} :
    Prepares (sequence _) options (prepareWriteCertificate profile slot der options) :=
  .guarded fun _ => .after fun _ => .after fun _ => writeObject_prepares

theorem moveDelete_prepares {source : Slot} {target : Option Slot} :
    Prepares (sequence _) options (prepareMoveDelete profile source target options) :=
  .after fun _ => .after fun _ => prepares_prepare

theorem generateKey_prepares {parameters : KeyParameters} :
    Prepares (sequence _) options (prepareGenerateKey profile parameters options) :=
  .after fun _ => .after fun _ => .after fun _ => .after fun _ => prepares_prepare

theorem importKey_prepares {parameters : KeyParameters} {material : PrivateKeyMaterial} :
    Prepares (sequence _) options (prepareImportKey profile parameters material options) :=
  .guarded fun _ => .after fun _ => .after fun _ => .guarded fun _ => prepares_prepare

theorem sign_prepares {der : EcDer} {slot : Slot} {algorithm : Algorithm} {input : SignInput} :
    Prepares (sequence _) options (prepareSign der profile slot algorithm input options) :=
  .guarded fun _ => .after fun _ => .after fun _ => prepares_prepare

theorem decrypt_prepares {slot : Slot} {algorithm : Algorithm} {ciphertext : Bytes} :
    Prepares (sequence _) options (prepareDecrypt profile slot algorithm ciphertext options) := by
  rw [prepareDecrypt]
  cases KeyPublicKey.rsaLen algorithm with
  | none => exact ensures_error _
  | some width => exact .guarded fun _ => .after fun _ => prepares_prepare

theorem derive_prepares {point : PointCheck} {slot : Slot} {algorithm : Algorithm}
    {peer : Bytes} :
    Prepares (sequence _) options (prepareDerive point profile slot algorithm peer options) :=
  .guarded fun _ => .after fun _ => .after fun _ => prepares_prepare

theorem decapsulate_prepares {slot : Slot} {ciphertext : Bytes} :
    Prepares (sequence _) options (prepareDecapsulate profile slot ciphertext options) :=
  .guarded fun _ => .after fun _ => prepares_prepare

theorem signStreaming_prepares {der : EcDer} {slot : Slot} {input : StreamingSignInput} :
    Prepares streaming options (prepareSignStreaming der profile slot input options) := by
  refine .after fun _ => .after fun _ => .after fun _ => .guarded fun _ => .after fun _ => ?_
  have hframe {algorithm : Algorithm} {id : UInt8} :
      Ensures (streamingPrefix algorithm id slot options)
        fun initial => ∀ c, initial = some c → Accepted options c := by
    rw [streamingPrefix]
    by_cases hsm2 : algorithm = .sm2
    · rw [if_pos hsm2]
      intro initial h c hc
      obtain ⟨_, hv, h⟩ := bind_eq_ok.mp h
      cases h
      cases hc
      exact (validateCommand_eq_ok.mp hv).2
    · rw [if_neg hsm2]
      intro initial h c hc
      cases h
      cases hc
  refine (hframe.bind fun initial hinitial => ?_).weaken fun s hs c =>
    @Keeps.sends _ _ _ _ _ (StreamingReady options) streaming_keeps hs c
  refine prepare_pending.bind fun target htarget => ?_
  exact ensures_ok.mpr ⟨hinitial, htarget⟩

theorem ga_accepts {id : UInt8} {slot : Slot} {inner : Bytes} :
    Ensures (ga id slot inner options) (Accepted options) := by
  refine .after fun outer => ?_
  intro c h
  obtain ⟨_, hv, h⟩ := bind_eq_ok.mp h
  cases h
  exact (validateCommand_eq_ok.mp hv).2

theorem getMetadata_pending {reference : MetadataReference} :
    Ensures (prepareGetMetadata profile reference options) (Pending (Accepted options)) :=
  .after fun _ => .after fun _ => .after fun _ => prepare_pending

theorem getMetadata_prepares {reference : MetadataReference} :
    Prepares (sequence _) options (prepareGetMetadata profile reference options) :=
  prepares_sequence getMetadata_pending

theorem agreement_prepares {point : PointCheck} {slot : Slot} {input : Sm2AgreementInput} :
    Prepares (agreementMachine point) options
      (prepareAgreement point profile slot input options) := by
  have hready : Ensures (prepareAgreement point profile slot input options)
      (AgreementReady options) := by
    refine .after fun _ => .after fun _ => .after fun id => .after fun _ => ?_
    have hfinish : Ensures (finishCommand id slot input options) (Accepted options) :=
      .after fun _ => .after fun _ => ga_accepts
    refine hfinish.bind fun finish hfinish => ?_
    cases input.role with
    | initiator =>
      refine .after fun _ => ?_
      refine getMetadata_pending.bind fun preflight hpreflight => ?_
      refine ga_accepts.bind fun first hfirst => ?_
      refine ensures_ok.mpr ⟨?_, ?_, ?_⟩
      · rintro p ⟨⟩
        exact hpreflight
      · rintro c ⟨⟩
        exact hfirst
      · rintro c ⟨⟩
        exact hfinish
    | responder =>
      refine ensures_ok.mpr ⟨?_, ?_, ?_⟩
      · rintro p ⟨⟩
      · rintro c ⟨⟩
        exact hfinish
      · rintro c ⟨⟩
  exact hready.weaken fun s hs c => agreement_keeps.sends hs

/-- The replacement takes a frame that has room for the reads of a rotation. -/
theorem setManagementKey_ensures {key : ManagementKey} {touch : ManagementTouchPolicy} :
    Ensures (prepareSetManagementKey profile key touch options) fun s =>
      Pending (Accepted options) s ∧ options.Valid ∧ Fits options 5 := by
  refine .after fun _ => .after fun _ => .guarded fun _ => ?_
  intro s hs
  obtain ⟨hv, _⟩ := prepare_eq_ok.mp hs
  obtain ⟨hvalid, haccepted⟩ := validateCommand_eq_ok.mp hv
  obtain ⟨hinput, hframe⟩ := fits_alone hvalid rfl rfl haccepted
  have hlen : (key.replacementCommand (touch == .always)).data.length = 27 := by
    simp [ManagementKey.replacementCommand, cmd, key.full]
  have hne : (key.replacementCommand (touch == .always)).data ≠ [] := by
    intro hnil
    rw [hnil] at hlen
    cases hlen
  have hshort := hframe.resolve_left hne
  rw [hlen] at hinput hshort
  simp only [maxShort] at hshort
  exact ⟨prepare_pending s hs, hvalid, by omega, by omega⟩

theorem read_accepted {id : ObjectId} (hvalid : options.Valid) (hfits : Fits options 5)
    (hlen : id.asBytes.length = 3) : Accepted options (getData id) :=
  hfits.accepted hvalid rfl (Or.inr ⟨rfl, rfl⟩)
    (by simp [getData, PivCommand.read, cmd, hlen]) (by decide)

theorem replacing_prepares {cipher : BlockCipher} {key : ManagementKey}
    {touch : ManagementTouchPolicy} {updateProtected : Bool} :
    Prepares (replacing cipher) options
      (prepareReplacing profile key touch updateProtected options) := by
  have hready : Ensures (prepareReplacing profile key touch updateProtected options)
      (ReplacingReady cipher options) := by
    refine setManagementKey_ensures.bind fun replacement hreplacement => ?_
    obtain ⟨hpending, hvalid, hfits⟩ := hreplacement
    by_cases hplain : ¬ updateProtected = true
    · rw [if_pos hplain]
      exact ensures_ok.mpr hpending
    · rw [if_neg hplain]
      apply Ensures.map
      refine writeObject_pending.bind fun printedWrite hwrite => ?_
      intro s h
      obtain ⟨_, hvalidate, h⟩ := bind_eq_ok.mp h
      cases h
      exact ⟨read_accepted hvalid hfits rfl, read_accepted hvalid hfits rfl, hpending,
        authenticates_of_validate hvalidate, hwrite⟩
  exact hready.weaken fun s hs c => replacing_keeps.sends hs

theorem management_prepares {cipher : BlockCipher} {auth : ManagementAuthentication} :
    Prepares (management cipher) options
      ((auth.validate profile options).map fun _ => .new auth) := by
  apply Ensures.map
  intro u h c
  exact management_keeps.sends (authenticates_of_validate h)

end prepared

section batch

variable {P : Primitives} {profile : DeviceProfile} {options : OperationOptions}

/-- Every command that the machine of a request can send is accepted. -/
def BoxAccepts (options : OperationOptions) (b : Boxed BatchItem) : Prop :=
  ∀ c, Sends b.machine b.state c → Accepted options c

theorem boxed_accepts {σ T : Type} {M : Machine σ T} {convert : T → BatchItem}
    {target : Except Error σ} (h : Prepares M options target) :
    Ensures (boxed M convert target) (BoxAccepts options) := by
  intro b hb
  cases target with
  | error e => cases hb
  | ok s =>
    cases hb
    intro c hc
    exact h s rfl c (mapped_sends hc)

/-- Every request is prepared by the factory of its target. -/
theorem request_accepts (request : BatchRequest) :
    Ensures (request.prepare P profile options) (BoxAccepts options) := by
  cases request with
  | agreeSm2 slot input => exact boxed_accepts agreement_prepares
  | readMetadataDirectory => exact boxed_accepts directory_prepares
  | readContainerName slot => exact boxed_accepts readName_prepares
  | setContainerName slot name => exact boxed_accepts setName_prepares
  | moveKey source target => exact boxed_accepts moveDelete_prepares
  | deleteKey slot => exact boxed_accepts moveDelete_prepares
  | resetPinPukRetries pin puk => exact boxed_accepts retryReset_prepares
  | setAlgorithmConfig config => exact boxed_accepts config_prepares
  | attest slot => exact boxed_accepts attest_prepares
  | verifyPin pin => exact boxed_accepts prepares_prepare
  | authenticateManagement auth => exact boxed_accepts management_prepares
  | logout => exact boxed_accepts prepares_prepare
  | readObject id => exact boxed_accepts readObject_prepares
  | readCertificate slot => exact boxed_accepts readObject_prepares
  | writeObject id data => exact boxed_accepts writeObject_prepares
  | writeCertificate slot der => exact boxed_accepts writeCertificate_prepares
  | deleteCertificate slot => exact boxed_accepts deleteCertificate_prepares
  | setManagementKey key touch =>
    exact boxed_accepts (prepares_sequence (setManagementKey_ensures.weaken fun _ h => h.1))
  | getMetadata reference => exact boxed_accepts getMetadata_prepares
  | readAlgorithmConfig => exact boxed_accepts readAlgorithmConfig_prepares
  | generateKey parameters => exact boxed_accepts generateKey_prepares
  | importKey parameters material => exact boxed_accepts importKey_prepares
  | sign slot algorithm input => exact boxed_accepts sign_prepares
  | signStreaming slot input => exact boxed_accepts signStreaming_prepares
  | decrypt slot algorithm ciphertext => exact boxed_accepts decrypt_prepares
  | derive slot algorithm peer => exact boxed_accepts derive_prepares
  | decapsulate slot ciphertext => exact boxed_accepts decapsulate_prepares

theorem prepared_accepts {requests : List BatchRequest} {machines : List (Boxed BatchItem)}
    (h : Prepared P profile options requests machines) : ∀ b ∈ machines, BoxAccepts options b := by
  induction h with
  | nil =>
    intro b hb
    cases hb
  | cons hp _ ih =>
    intro b hb
    rcases List.mem_cons.mp hb with rfl | hb
    · exact request_accepts _ _ hp
    · exact ih b hb

/-- A batch of accepted requests sends nothing else. -/
theorem batch_accepts {machines : List (Boxed BatchItem)}
    (h : ∀ b ∈ machines, BoxAccepts options b) {c : LogicalCommand}
    (hc : Sends batchMachine (.new machines options) c) : Accepted options c := by
  obtain ⟨b, hb, hs⟩ := batch_sends hc
  exact h b hb c hs

end batch

section factories

variable {P : Primitives} {profile : DeviceProfile} {options : OperationOptions}

/-- The factories that wrap a target with an access, with their arguments. -/
inductive Factory where
  | agreeSm2 (slot : Slot) (input : Sm2AgreementInput) (access : Access)
  | readMetadataDirectory (access : Access)
  | readContainerName (reference : ContainerNameReference) (access : Access)
  | setContainerName (reference : ContainerNameReference) (name : ContainerName)
      (access : Access)
  | moveKey (source target : Slot) (access : Access)
  | deleteKey (slot : Slot) (access : Access)
  | resetPinPukRetries (pinRetries pukRetries : UInt8) (access : Access)
  | setAlgorithmConfig (config : AlgorithmConfig) (access : Access)
  | attest (slot : Slot) (selecting : Bool)
  | resetPiv
  | authenticateManagementKey (auth : ManagementAuthentication) (selecting : Bool)
  | readObject (id : ObjectId) (access : Access)
  | readObjectContainer (id : ObjectId) (access : Access)
  | readCertificate (slot : Slot) (access : Access)
  | writeObject (id : ObjectId) (data : Bytes) (access : Access)
  | writeObjectContainer (id : ObjectId) (container : Bytes) (access : Access)
  | writeCertificate (slot : Slot) (der : Bytes) (access : Access)
  | deleteCertificate (slot : Slot) (access : Access)
  | setManagementKey (key : ManagementKey) (touch : ManagementTouchPolicy)
      (updateProtected : Bool) (access : Access)
  | getMetadata (reference : MetadataReference) (access : Access)
  | readAlgorithmConfig (access : Access)
  | generateKey (parameters : KeyParameters) (access : Access)
  | importKey (parameters : KeyParameters) (material : PrivateKeyMaterial) (access : Access)
  | requireEmptyKeySlot (slot : Slot) (access : Access)
  | sign (slot : Slot) (algorithm : Algorithm) (input : SignInput) (access : Access)
  | signStreaming (slot : Slot) (input : StreamingSignInput) (access : Access)
  | decrypt (slot : Slot) (algorithm : Algorithm) (ciphertext : Bytes) (access : Access)
  | derive (slot : Slot) (algorithm : Algorithm) (peer : Bytes) (access : Access)
  | decapsulate (slot : Slot) (ciphertext : Bytes) (access : Access)
  | pinManaged (blockPuk : Option Bytes) (access : Access)
  | batch (requests : List BatchRequest)

/-- A returned operation with the machine of its target; a batch hides the states of several. -/
inductive Built where
  | target {σ T : Type} (M : Machine σ T) (op : Operation (Selected σ) T)
  | batch (op : Operation (Selected BatchMachine) BatchResults)

def built {σ T : Type} (M : Machine σ T) :
    Except Error (Operation (Selected σ) T) → Except Error Built
  | .error e => .error e
  | .ok op => .ok (.target M op)

def builtBatch : Except Error (Operation (Selected BatchMachine) BatchResults) →
    Except Error Built
  | .error e => .error e
  | .ok op => .ok (.batch op)

def Factory.build (P : Primitives) (profile : DeviceProfile) (options : OperationOptions) :
    Factory → Except Error Built
  | .agreeSm2 slot input access =>
    built (agreementMachine P.point)
      (PivSm2Agreement.agreeSm2 P.point profile slot input access options)
  | .readMetadataDirectory access =>
    built (sequence _) (PivDirectory.readMetadataDirectory profile access options)
  | .readContainerName reference access =>
    built (sequence _) (PivConfiguration.readContainerName profile reference access options)
  | .setContainerName reference name access =>
    built (sequence _) (PivConfiguration.setContainerName profile reference name access options)
  | .moveKey source target access =>
    built (sequence _) (PivConfiguration.moveKey profile source target access options)
  | .deleteKey slot access =>
    built (sequence _) (PivConfiguration.deleteKey profile slot access options)
  | .resetPinPukRetries pinRetries pukRetries access =>
    built (sequence _)
      (PivConfiguration.resetPinPukRetries profile pinRetries pukRetries access options)
  | .setAlgorithmConfig config access =>
    built (sequence _) (PivConfiguration.setAlgorithmConfig profile config access options)
  | .attest slot selecting =>
    built (sequence _) (PivConfiguration.attest profile slot selecting options)
  | .resetPiv => built (sequence _) (PivConfiguration.resetPiv profile options)
  | .authenticateManagementKey auth selecting =>
    built (management P.cipher)
      (PivAccess.authenticateManagementKey profile auth selecting options)
  | .readObject id access => built (sequence _) (PivObjects.readObject profile id access options)
  | .readObjectContainer id access =>
    built (sequence _) (PivObjects.readObjectContainer profile id access options)
  | .readCertificate slot access =>
    built (sequence _) (PivObjects.readCertificate P.gunzip profile slot access options)
  | .writeObject id data access =>
    built (sequence _) (PivWrite.writeObject profile id data access options)
  | .writeObjectContainer id container access =>
    built (sequence _) (PivWrite.writeObjectContainer profile id container access options)
  | .writeCertificate slot der access =>
    built (sequence _) (PivWrite.writeCertificate profile slot der access options)
  | .deleteCertificate slot access =>
    built (sequence _) (PivWrite.deleteCertificate profile slot access options)
  | .setManagementKey key touch updateProtected access =>
    built (replacing P.cipher)
      (PivWrite.setManagementKey profile key touch updateProtected access options)
  | .getMetadata reference access =>
    built (sequence _) (PivMetadata.getMetadata profile reference access options)
  | .readAlgorithmConfig access =>
    built (sequence _) (PivMetadata.readAlgorithmConfig profile access options)
  | .generateKey parameters access =>
    built (sequence _) (PivKeys.generateKey profile parameters access options)
  | .importKey parameters material access =>
    built (sequence _) (PivKeys.importKey profile parameters material access options)
  | .requireEmptyKeySlot slot access =>
    built (sequence _) (PivKeys.requireEmptyKeySlot profile slot access options)
  | .sign slot algorithm input access =>
    built (sequence _) (PivPrivate.sign P.der profile slot algorithm input access options)
  | .signStreaming slot input access =>
    built streaming (PivStreaming.signStreaming P.der profile slot input access options)
  | .decrypt slot algorithm ciphertext access =>
    built (sequence _) (PivPrivate.decrypt profile slot algorithm ciphertext access options)
  | .derive slot algorithm peer access =>
    built (sequence _) (PivPrivate.derive P.point profile slot algorithm peer access options)
  | .decapsulate slot ciphertext access =>
    built (sequence _) (PivPrivate.decapsulate profile slot ciphertext access options)
  | .pinManaged blockPuk access =>
    built (PivPinManaged.pinManagedMachine P.cipher)
      (PivPinManaged.pinManaged profile blockPuk access options)
  | .batch requests => builtBatch (PivBatch.batch P profile requests options)

/-- The error of the conversation that a call refuses to begin, after any calls. -/
def Built.rejection (cipher : BlockCipher) (calls : List Call) (call : Call) :
    Built → Option Error
  | .target M op =>
    ProtocolTranscript.rejection (selectedMachine cipher M)
      (recorded (selectedMachine cipher M) op calls).op call
  | .batch op =>
    ProtocolTranscript.rejection (selectedMachine cipher batchMachine)
      (recorded (selectedMachine cipher batchMachine) op calls).op call

section run

universe u

variable {σ : Type u} {T : Type} {M : Machine σ T} {cipher : BlockCipher} {access : Access}

/-- As it is returned, an operation for older firmware sends no command without Le that has no
room for the explicit one: neither before its target nor from it. -/
structure LeavesRoom (options : OperationOptions) (M : Machine σ T)
    (op : Operation (Selected σ) T) : Prop where
  wrapper : ∀ s, op.machine = some s → s.stage ≠ .target →
    258 ≤ options.exchange.maxResponseBytes
  target : ∀ s, op.machine = some s → ∀ c, Sends M s.target c → c.le = .absent →
    LeRoom options c

/-- What a factory returns is the wrapper around a target whose commands are all accepted. -/
def Wraps (profile : DeviceProfile) (options : OperationOptions) (M : Machine σ T)
    (op : Operation (Selected σ) T) : Prop :=
  ∃ access t, withAccess profile access t options = .ok op ∧
    ∀ c, Sends M t c → Accepted options c

theorem fromMachine_machine {m : σ} {op : Operation σ T}
    (h : Operation.fromMachine m options = .ok op) : op.machine = some m := by
  rw [Operation.fromMachine] at h
  cases hv : options.validate with
  | error e =>
    rw [hv] at h
    cases h
  | ok valid =>
    rw [hv] at h
    cases h
    rfl

/-- No command of a wrapped target is rejected once the operation has been returned. -/
theorem wraps_rejection {op : Operation (Selected σ) T} (h : Wraps profile options M op)
    (hroom : profile.legacyExplicitLe = true → LeavesRoom options M op) (calls : List Call)
    (call : Call) :
    rejection (selectedMachine cipher M) (recorded (selectedMachine cipher M) op calls).op call =
      none := by
  obtain ⟨access, t, hop, ht⟩ := h
  obtain ⟨hpre, hop⟩ := withAccess_eq_ok.mp hop
  have hmachine := fromMachine_machine hop
  apply rejection_none hop
  intro c hc
  refine selected_accepts hpre ht ?_ hc
  intro hlegacy
  have hleaves := hroom hlegacy
  refine ⟨?_, fun c hc habsent => hleaves.target _ hmachine c hc habsent⟩
  intro hne
  apply hleaves.wrapper _ hmachine
  simp [Selected.new, hne]

end run

def Built.Wrapped (profile : DeviceProfile) (options : OperationOptions) : Built → Prop
  | .target M op => Wraps profile options M op
  | .batch op => Wraps profile options batchMachine op

def Built.LeavesRoom (options : OperationOptions) : Built → Prop
  | .target M op => PivFactories.LeavesRoom options M op
  | .batch op => PivFactories.LeavesRoom options batchMachine op

section wraps

variable {σ T : Type} {M : Machine σ T} {access : Access}

theorem wraps_withAccess {t : σ} (ht : ∀ c, Sends M t c → Accepted options c) :
    Ensures (withAccess profile access t options) (Wraps profile options M) :=
  fun _ hop => ⟨access, t, hop, ht⟩

theorem wraps_target {target : Except Error σ} (h : Prepares M options target) :
    Ensures (target >>= fun t => withAccess profile access t options)
      (Wraps profile options M) :=
  h.bind fun _ ht => wraps_withAccess ht

theorem built_wrapped {x : Except Error (Operation (Selected σ) T)}
    (h : Ensures x (Wraps profile options M)) :
    Ensures (built M x) (Built.Wrapped profile options) := by
  intro b hb
  cases x with
  | error e => cases hb
  | ok op =>
    cases hb
    exact h op rfl

end wraps

theorem builtBatch_wrapped {requests : List BatchRequest} :
    Ensures (builtBatch (PivBatch.batch P profile requests options))
      (Built.Wrapped profile options) := by
  intro b hb
  cases hop : PivBatch.batch P profile requests options with
  | error e =>
    rw [hop] at hb
    cases hb
  | ok op =>
    rw [hop] at hb
    cases hb
    obtain ⟨_, machines, hprepared, hwith⟩ := batch_admitted hop
    exact ⟨.none, _, hwith, fun c hc => batch_accepts (prepared_accepts hprepared) hc⟩

/-- What the PIN-managed protection sends without having validated it. -/
structure PinRoom (profile : DeviceProfile) (options : OperationOptions)
    (blockPuk : Option Bytes) : Prop where
  read : Fits options 5
  change : blockPuk.isSome = true → Fits options 16
  authentication : ∀ a, (profile.managementKeySupport a).support = .supported →
    Fits options (a.blockLen + 4)

/-- The commands that a factory itself leaves unchecked fit the channel. -/
def Factory.Fits (profile : DeviceProfile) (options : OperationOptions) : Factory → Prop
  | .pinManaged blockPuk _ => PinRoom profile options blockPuk
  | _ => True

/-- The validation that a machine makes while it runs refuses nothing that the profile
supports. -/
def Factory.Validates (profile : DeviceProfile) (options : OperationOptions) : Factory → Prop
  | .pinManaged _ _ => ∀ key : ManagementKey,
    (profile.managementKeySupport key.algorithm).support = .supported →
      (ManagementAuthentication.external key).validate profile options = .ok ()
  | _ => True

theorem pinManaged_wraps {blockPuk : Option Bytes} {access : Access}
    (h : PinRoom profile options blockPuk) :
    Ensures (PivPinManaged.pinManaged profile blockPuk access options)
      (Wraps profile options (PivPinManaged.pinManagedMachine P.cipher)) := by
  refine .after fun _ => .after fun _ => ?_
  intro op hop
  obtain ⟨replacement, hreplacement, hop⟩ := bind_eq_ok.mp hop
  have hvalid := (preflight_eq_ok.mp (withAccess_eq_ok.mp hop).1).2.1
  refine ⟨access, _, hop, fun c hc => pinManaged_keeps.sends ?_ hc⟩
  refine ⟨rfl, hvalid, read_accepted hvalid h.read rfl, read_accepted hvalid h.read rfl, ?_, ?_⟩
  · intro hsome old new
    have hblock : blockPuk.isSome = true := by
      cases blockPuk with
      | none =>
        cases hreplacement
        cases hsome
      | some bytes => rfl
    exact (h.change hblock).accepted hvalid rfl (Or.inl rfl) (by simp [change, cmd]) (by decide)
  · intro m hm
    cases hm

/-- With room for both commands of an external authentication its validation cannot fail. -/
theorem external_validates {key : ManagementKey} (hvalid : options.Valid)
    (hsupport : (profile.managementKeySupport key.algorithm).support = .supported)
    (h : Fits options (key.algorithm.blockLen + 4)) :
    (ManagementAuthentication.external key).validate profile options = .ok () := by
  have hblock := blockLen_le key.algorithm
  have hsmall : Fits options 4 := by
    have hinput := h.input
    have hframe := h.frame
    exact ⟨by omega, by omega⟩
  have hfirst : Accepted options (firstCommand (.external key)) :=
    hsmall.accepted hvalid rfl (Or.inl rfl) rfl (by decide)
  have hsecond : Accepted options (authentication key.algorithm
      ((Mode.external : Mode key.algorithm).fields (zeroBlock key.algorithm).1)) := by
    apply h.accepted hvalid rfl (Or.inl rfl) _ (by omega)
    simp [authentication, cmd, template, field, Mode.fields, zeroBlock]
  have hzeros := fields_command (Mode.external : Mode key.algorithm) (zeroBlock key.algorithm)
  refine bind_eq_ok.mpr ⟨(), require_eq_ok.mpr hsupport, ?_⟩
  refine bind_eq_ok.mpr ⟨_, initial_eq (.external key), ?_⟩
  refine bind_eq_ok.mpr ⟨(), validateCommand_eq_ok.mpr ⟨hvalid, hfirst⟩, ?_⟩
  exact bind_eq_ok.mpr ⟨_, hzeros, validateCommand_eq_ok.mpr ⟨hvalid, hsecond⟩⟩

/-- By cases on the factory: its gates, the preparation of its target and the wrapper. -/
theorem build_wrapped (factory : Factory) (h : factory.Fits profile options) :
    Ensures (factory.build P profile options) (Built.Wrapped profile options) := by
  cases factory with
  | agreeSm2 slot input access => exact built_wrapped (wraps_target agreement_prepares)
  | readMetadataDirectory access => exact built_wrapped (wraps_target directory_prepares)
  | readContainerName reference access => exact built_wrapped (wraps_target readName_prepares)
  | setContainerName reference name access =>
    exact built_wrapped (.after fun _ => wraps_target setName_prepares)
  | moveKey source target access =>
    exact built_wrapped (.after fun _ => wraps_target moveDelete_prepares)
  | deleteKey slot access =>
    exact built_wrapped (.after fun _ => wraps_target moveDelete_prepares)
  | resetPinPukRetries pin puk access =>
    exact built_wrapped (.after fun _ => wraps_target retryReset_prepares)
  | setAlgorithmConfig config access =>
    exact built_wrapped (.after fun _ => wraps_target config_prepares)
  | attest slot selecting => exact built_wrapped (wraps_target attest_prepares)
  | resetPiv => exact built_wrapped (.after fun _ => wraps_target prepares_prepare)
  | authenticateManagementKey auth selecting =>
    refine built_wrapped (.after fun _ => ?_)
    intro op hop
    obtain ⟨_, hvalidate, hop⟩ := bind_eq_ok.mp hop
    exact ⟨_, _, hop, fun c hc => management_keeps.sends (authenticates_of_validate hvalidate) hc⟩
  | readObject id access => exact built_wrapped (wraps_target readObject_prepares)
  | readObjectContainer id access => exact built_wrapped (wraps_target readObject_prepares)
  | readCertificate slot access => exact built_wrapped (wraps_target readObject_prepares)
  | writeObject id data access =>
    exact built_wrapped (.after fun _ => wraps_target writeObject_prepares)
  | writeObjectContainer id container access =>
    exact built_wrapped
      (.after fun _ => .guarded fun _ => .after fun _ => wraps_target writeObject_prepares)
  | writeCertificate slot der access =>
    exact built_wrapped (.after fun _ => wraps_target writeCertificate_prepares)
  | deleteCertificate slot access =>
    exact built_wrapped (.after fun _ => wraps_target deleteCertificate_prepares)
  | setManagementKey key touch updateProtected access =>
    exact built_wrapped (.after fun _ => wraps_target replacing_prepares)
  | getMetadata reference access => exact built_wrapped (wraps_target getMetadata_prepares)
  | readAlgorithmConfig access =>
    refine built_wrapped (readAlgorithmConfig_prepares.bind fun target htarget => ?_)
    exact .guarded fun _ => wraps_withAccess htarget
  | generateKey parameters access =>
    exact built_wrapped (.after fun _ => wraps_target generateKey_prepares)
  | importKey parameters material access =>
    exact built_wrapped (.after fun _ => wraps_target importKey_prepares)
  | requireEmptyKeySlot slot access =>
    exact built_wrapped (.after fun _ => wraps_target prepares_prepare)
  | sign slot algorithm input access => exact built_wrapped (wraps_target sign_prepares)
  | signStreaming slot input access => exact built_wrapped (wraps_target signStreaming_prepares)
  | decrypt slot algorithm ciphertext access => exact built_wrapped (wraps_target decrypt_prepares)
  | derive slot algorithm peer access => exact built_wrapped (wraps_target derive_prepares)
  | decapsulate slot ciphertext access =>
    exact built_wrapped (wraps_target decapsulate_prepares)
  | pinManaged blockPuk access => exact built_wrapped (pinManaged_wraps h)
  | batch requests => exact builtBatch_wrapped

theorem wraps_valid {σ : Type*} {T : Type} {M : Machine σ T} {op : Operation (Selected σ) T}
    (h : Wraps profile options M op) : options.Valid := by
  obtain ⟨access, t, hop, _⟩ := h
  exact (preflight_eq_ok.mp (withAccess_eq_ok.mp hop).1).2.1

/-- A full response, and no extended frames or extended frames of any length, leave room for
every Le. -/
theorem leavesRoom_of_options {σ : Type*} {T : Type} {M : Machine σ T}
    {op : Operation (Selected σ) T} (h : Wraps profile options M op)
    (hresponse : 258 ≤ options.exchange.maxResponseBytes)
    (hframe : options.exchange.allowExtended = false ∨ 65544 ≤ options.exchange.maxCommandBytes) :
    LeavesRoom options M op := by
  have hvalid := wraps_valid h
  obtain ⟨access, t, hop, ht⟩ := h
  have hmachine := fromMachine_machine (withAccess_eq_ok.mp hop).2
  refine ⟨fun _ _ _ => hresponse, ?_⟩
  intro s hs c hc habsent
  cases hmachine.symm.trans hs
  obtain ⟨_, _, hfits⟩ := fits_of_absent hvalid habsent (ht c hc)
  refine ⟨hresponse, ?_⟩
  rcases hfits with ⟨⟨_, hextended⟩, hdata, _⟩ | hshort
  · refine Or.inr ?_
    rcases hframe with hnone | hlarge
    · rw [hnone] at hextended
      cases hextended
    · omega
  · exact Or.inl hshort

theorem build_validates (factory : Factory) {b : Built} (hb : b.Wrapped profile options)
    (h : factory.Fits profile options) : factory.Validates profile options := by
  have hvalid : options.Valid := by
    cases b with
    | target M op => exact wraps_valid hb
    | batch op => exact wraps_valid hb
  cases factory with
  | pinManaged blockPuk access =>
    intro key hsupport
    exact external_validates hvalid hsupport (h.authentication _ hsupport)
  | _ => trivial

/-- Once a factory has returned an operation no call refuses to begin one of its commands, when
on older firmware the explicit Le has room beside every command sent without one and the channel
takes the commands that a PIN-managed protection has not validated. -/
theorem preflight_sufficient (P : Primitives) {profile : DeviceProfile}
    {options : OperationOptions} (factory : Factory) {b : Built}
    (h : factory.build P profile options = .ok b)
    (hroom : profile.legacyExplicitLe = true → b.LeavesRoom options)
    (hfits : factory.Fits profile options) :
    (∀ calls call, b.rejection P.cipher calls call = none) ∧
      factory.Validates profile options := by
  have hb := build_wrapped factory hfits b h
  refine ⟨?_, build_validates factory hb hfits⟩
  intro calls call
  cases b with
  | target M op => exact wraps_rejection hb hroom calls call
  | batch op => exact wraps_rejection hb hroom calls call

end factories

/-- A 2.0.0 device with PIV observed. -/
def olderProfile : DeviceProfile := { exampleProfile with firmware := some ⟨2, 0, 0, none⟩ }

def olderKey : ManagementKey := { exampleKey with algorithm := .tdes }

/-- A write after both authentications. -/
def olderWrite : Factory :=
  .writeObject .printed [1, 2, 3] (.pinAndManagement examplePin (.external olderKey))

/-- The management key of a protection on 3.1.0, and on older firmware a write whose commands all
get an Le on their way out. -/
theorem preflight_sufficient_pinManaged :
    (∃ b, (Factory.pinManaged none .existing).build refusingPrimitives exampleProfile {} = .ok b ∧
      (∀ calls call, b.rejection exampleCipher calls call = none) ∧
      (Factory.pinManaged none .existing).Validates exampleProfile {}) ∧
    olderProfile.legacyExplicitLe = true ∧
    ∃ b, olderWrite.build refusingPrimitives olderProfile {} = .ok b ∧
      ∀ calls call, b.rejection exampleCipher calls call = none := by
  constructor
  · have hb : (Factory.pinManaged none .existing).build refusingPrimitives exampleProfile {} =
        .ok _ := rfl
    have hroom : PinRoom exampleProfile {} none := by
      refine ⟨⟨by decide, by decide⟩, ?_, ?_⟩
      · intro h
        cases h
      · intro a _
        cases a with
        | tdes => exact ⟨by decide, by decide⟩
        | aes192 => exact ⟨by decide, by decide⟩
    refine ⟨_, hb, preflight_sufficient refusingPrimitives _ hb ?_ hroom⟩
    intro hlegacy
    cases hlegacy
  · have hb : olderWrite.build refusingPrimitives olderProfile {} = .ok _ := rfl
    have hfits : olderWrite.Fits olderProfile {} := trivial
    have hroom := leavesRoom_of_options (build_wrapped _ hfits _ hb) (by decide) (Or.inl rfl)
    exact ⟨rfl, _, hb, (preflight_sufficient refusingPrimitives _ hb (fun _ => hroom) hfits).1⟩

/-- Frames of ten bytes, one less than a read of ADMIN DATA takes. -/
def narrowOptions : OperationOptions := { exchange := { maxCommandBytes := 10 } }

/-- Responses of a hundred bytes, for which a read is given a smaller Le. -/
def smallOptions : OperationOptions := { exchange := { maxResponseBytes := 100 } }

/-- Two factories return an operation whose first command is then rejected: a PIN-managed
protection on a channel too narrow for its read, and a read of metadata on older firmware, whose
SELECT gets its Le after it was validated. -/
theorem known_command_rejected_late :
    (∃ b, (Factory.pinManaged none .existing).build refusingPrimitives exampleProfile
        narrowOptions = .ok b ∧
      b.rejection exampleCipher [] .start = some limitExceeded) ∧
    ∃ b, (Factory.getMetadata .pin .none).build refusingPrimitives olderProfile smallOptions =
        .ok b ∧
      b.rejection exampleCipher [] .start = some limitExceeded :=
  ⟨⟨_, rfl, rfl⟩, _, rfl, rfl⟩

end PivFactories
