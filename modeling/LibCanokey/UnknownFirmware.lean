import LibCanokey.AdminExecute
import LibCanokey.CompatRecognition
import LibCanokey.FallibleResults
import LibCanokey.OathExecute
import LibCanokey.OpenPgpExecute
import LibCanokey.PivBatchGates
import LibCanokey.PivCredentials
import LibCanokey.PivPinManaged

/-! # Mutations on unknown firmware

Which of the factories that change stored card state refuse a profile whose firmware the matrix
does not know, and what is left to refuse it in the others. -/
namespace UnknownFirmware

open BigEndian ListTraversal FallibleResults ProtocolError ProtocolApdu ProtocolConversation
open ProtocolOperation CompatProfile CompatRecognition PivCommand PivManagement PivAccess
open PivMetadata PivWrite PivConfiguration PivKeys PivBatch PivBatchAdmission PivBatchGates
open PivCredentials PivPinManaged
open PivBatchExecution (refusingPrimitives)

/-- The firmware text does not parse, or its version is outside the recognized set. -/
def Unrecognized (profile : DeviceProfile) : Prop :=
  ∀ v, profile.firmware = some v → ¬ Recognized v

/-- The factories that take a profile and change stored card state. Admin, OATH and OpenPGP have
one factory each, here with every request. -/
inductive Factory where
  | request (request : BatchRequest) (access : Access) (h : request.mutates = true)
  | writeObjectContainer (id : ObjectId) (container : Bytes) (access : Access)
  | setManagementKey (key : ManagementKey) (touch : ManagementTouchPolicy)
      (updateProtected : Bool) (access : Access)
  | setContainerName (reference : ContainerNameReference) (name : ContainerName)
      (access : Access)
  | resetPiv
  | changePin (old new : Pin)
  | changePuk (old new : Puk)
  | unblockPin (puk : Puk) (newPin : Pin)
  | credential (action : CredentialAction) (selecting : Bool) (h : action.mutates = true)
  | pinManaged (entropy : Bytes) (access : Access)
  | batch (requests : List BatchRequest) (h : ∃ r ∈ requests, r.mutates = true)
  | admin (request : AdminTypes.Request) (access : AdminTypes.Access)
  | oath (hmac : OathTypes.HmacSha1) (serial : Option (OathTypes.FixedBytes 4))
      (request : OathTypes.Request) (access : Option OathTypes.Access)
  | openPgp (request : OpenPgpTypes.Request) (access : Option OpenPgpTypes.Access)

def Factory.run (P : Primitives) (profile : DeviceProfile) (options : OperationOptions) :
    Factory → Except Error Unit
  | .request r access _ => standalone P profile options access r
  | .writeObjectContainer id container access =>
    accepted (PivWrite.writeObjectContainer profile id container access options)
  | .setManagementKey key touch updateProtected access =>
    accepted (PivWrite.setManagementKey profile key touch updateProtected access options)
  | .setContainerName reference name access =>
    accepted (PivConfiguration.setContainerName profile reference name access options)
  | .resetPiv => accepted (PivConfiguration.resetPiv profile options)
  | .changePin old new => accepted (PivCredentials.changePin profile old new options)
  | .changePuk old new => accepted (PivCredentials.changePuk profile old new options)
  | .unblockPin puk newPin => accepted (PivCredentials.unblockPin profile puk newPin options)
  | .credential action selecting _ =>
    accepted (PivCredentials.credential profile action selecting options)
  | .pinManaged entropy access =>
    accepted (PivPinManaged.pinManaged profile (some entropy) access options)
  | .batch requests _ =>
    match PivBatch.batch P profile requests options with
    | .ok _ => .ok ()
    | .error e => .error e
  | .admin r access => accepted (AdminExecute.operationWithAccess profile r access options)
  | .oath hmac serial r access =>
    accepted (OathExecute.operation hmac profile serial r access options)
  | .openPgp r access => accepted (OpenPgpExecute.operation profile r access options)

/-- A credential change that nothing but the observed applet and the channel can refuse. -/
structure Submits (profile : DeviceProfile) (options : OperationOptions) (c : LogicalCommand)
    (selecting : Bool) : Prop where
  observed : (profile.capability .piv).support = .supported
  valid : options.Valid
  select : selecting = true → validateCommand PivCommand.select options = .ok ()
  fits : validateCommand c options = .ok ()

/-- The factories without a firmware gate, and what their own checks ask for. -/
inductive Ungated (profile : DeviceProfile) (options : OperationOptions) : Factory → Prop where
  | changePin {old new : Pin}
      (h : Submits profile options (change 0x24 0x80 old.bytes new.bytes) true) :
      Ungated profile options (.changePin old new)
  | changePuk {old new : Puk}
      (h : Submits profile options (change 0x24 0x81 old.bytes new.bytes) true) :
      Ungated profile options (.changePuk old new)
  | unblockPin {puk : Puk} {newPin : Pin}
      (h : Submits profile options (change 0x2c 0x80 puk.bytes newPin.bytes) true) :
      Ungated profile options (.unblockPin puk newPin)
  | credential {action : CredentialAction} {selecting : Bool} {hm : action.mutates = true}
      (h : Submits profile options action.command selecting) :
      Ungated profile options (.credential action selecting hm)
  | pinManaged {entropy : Bytes} {access : Access}
      (hmetadata : (profile.capability .metadata).support = .supported)
      (hentropy : entropy.length = 8) (h : access.preflight profile options = .ok ()) :
      Ungated profile options (.pinManaged entropy access)

section refused

universe u v

variable {ε : Type v} {α β : Type u} {x : Except ε α} {f : α → Except ε β}

/-- A fallible computation that never succeeds. -/
def Refused (x : Except ε α) : Prop := ∀ a, x ≠ .ok a

theorem refused_error (e : ε) : Refused (.error e : Except ε α) := ensures_error e

theorem Refused.bind (h : Refused x) : Refused (x >>= f) :=
  Ensures.bind h fun _ hno => hno.elim

theorem Refused.after (h : ∀ a, Refused (f a)) : Refused (x >>= f) := Ensures.after h

theorem Refused.map (h : Refused x) {g : α → β} : Refused (x.map g) := Ensures.map h

end refused

section gates

variable {P : Primitives} {profile : DeviceProfile} {options : OperationOptions}

theorem firmwareRange_unknown (hu : Unrecognized profile) (first last : Version) :
    profile.firmwareRange first last = unknownFirmware := by
  rw [DeviceProfile.firmwareRange, DeviceProfile.base]
  cases hf : profile.firmware with
  | none => rfl
  | some v =>
    dsimp only [Option.map_some]
    rw [if_neg]
    intro hr
    exact hu v hf (recognized_iff.mp hr)

theorem range_refused (hu : Unrecognized profile) (first last : Version) :
    Refused (profile.firmwareRange first last).require := by
  rw [firmwareRange_unknown hu]
  exact refused_error _

/-- A capability that the matrix alone decides is not granted to unknown firmware. -/
theorem capability_refused (hu : Unrecognized profile) {feature : Capability}
    {range : Version × Version} (h : feature.range = some range) :
    Refused (profile.capability feature).require := by
  rw [DeviceProfile.capability, h]
  exact range_refused hu _ _

theorem checked_refused (hu : Unrecognized profile) {feature : Capability}
    {range : Version × Version} (h : feature.range = some range) (slot : Option Slot) :
    Refused (checked profile feature slot) :=
  .after fun _ => (capability_refused hu h).bind

theorem slot_refused (hu : Unrecognized profile) (slot : Slot) :
    Refused (profile.pivSlotSupport slot.reference).require := by
  rw [DeviceProfile.pivSlotSupport]
  split_ifs
  · exact range_refused hu _ _
  · exact range_refused hu _ _
  · exact range_refused hu _ _
  · exact refused_error _

theorem managementKey_refused (hu : Unrecognized profile) (a : ManagementKeyAlgorithm) :
    Refused (profile.managementKeySupport a).require := by
  cases a with
  | tdes => exact range_refused hu _ _
  | aes192 => exact range_refused hu _ _

theorem writeObject_refused (hu : Unrecognized profile) (id : ObjectId) (data : Bytes) :
    Refused (prepareWriteObject profile id data options) := by
  have hput : Refused (putCommand profile id data options) :=
    .after fun _ => (capability_refused hu rfl).bind
  exact hput.bind

theorem setManagementKey_refused (hu : Unrecognized profile) (key : ManagementKey)
    (touch : ManagementTouchPolicy) :
    Refused (prepareSetManagementKey profile key touch options) :=
  .after fun _ => (managementKey_refused hu _).bind

theorem setName_refused (hu : Unrecognized profile) (reference : ContainerNameReference)
    (name : ContainerName) : Refused (prepareSetName profile reference name options) := by
  have hcheck : Refused (reference.check profile) := checked_refused hu rfl _
  exact hcheck.bind

theorem keyId_refused (hu : Unrecognized profile) (slot : Slot) (a : Algorithm) :
    Refused (keyId profile slot a) :=
  .after fun _ => (slot_refused hu slot).bind

/-- No request that mutates is prepared for unknown firmware, by cases on the request. -/
theorem prepare_refused (hu : Unrecognized profile) {request : BatchRequest}
    (hm : request.mutates = true) : Refused (request.prepare P profile options) := by
  have hboxed {σ T : Type} {M : Machine σ T} {convert : T → BatchItem} {target : Except Error σ}
      (h : Refused target) : Refused (boxed M convert target) := by
    intro b hb
    obtain ⟨state, hstate⟩ := boxed_eq_ok hb
    exact h state hstate
  cases request with
  | setContainerName slot name => exact hboxed (setName_refused hu _ _)
  | moveKey source target => exact hboxed (checked_refused hu rfl _).bind
  | deleteKey slot => exact hboxed (checked_refused hu rfl _).bind
  | resetPinPukRetries pin puk => exact hboxed (checked_refused hu rfl _).bind
  | setAlgorithmConfig config => exact hboxed (checked_refused hu rfl _).bind
  | writeObject id data => exact hboxed (writeObject_refused hu _ _)
  | writeCertificate slot der =>
    apply hboxed
    rw [prepareWriteCertificate]
    split_ifs
    · exact refused_error _
    · exact .after fun _ => .after fun _ => writeObject_refused hu _ _
  | deleteCertificate slot => exact hboxed (capability_refused hu rfl).bind
  | setManagementKey key touch => exact hboxed (setManagementKey_refused hu _ _)
  | generateKey parameters => exact hboxed (keyId_refused hu _ _).bind
  | importKey parameters material =>
    apply hboxed
    rw [prepareImportKey]
    split_ifs
    · exact refused_error _
    · exact (keyId_refused hu _ _).bind
  | _ => cases hm

/-- What a factory of a request alone accepts, it has prepared. -/
theorem standalone_refused (hu : Unrecognized profile) {request : BatchRequest}
    (hm : request.mutates = true) (access : Access) :
    Refused (standalone P profile options access request) := by
  have hprepared {σ T : Type} {M : Machine σ T} {convert : T → BatchItem}
      {target : Except Error σ} (h : Refused (boxed M convert target)) : Refused target := by
    rintro state rfl
    exact h _ rfl
  have hp := @prepare_refused P profile options hu request hm
  cases request with
  | setContainerName slot name => exact .map (.after fun _ => (hprepared hp).bind)
  | moveKey source target => exact .map (.after fun _ => (hprepared hp).bind)
  | deleteKey slot => exact .map (.after fun _ => (hprepared hp).bind)
  | resetPinPukRetries pin puk => exact .map (.after fun _ => (hprepared hp).bind)
  | setAlgorithmConfig config => exact .map (.after fun _ => (hprepared hp).bind)
  | writeObject id data => exact .map (.after fun _ => (hprepared hp).bind)
  | writeCertificate slot der => exact .map (.after fun _ => (hprepared hp).bind)
  | deleteCertificate slot => exact .map (.after fun _ => (hprepared hp).bind)
  | setManagementKey key touch => exact .map (.after fun _ => (hprepared hp).bind.bind)
  | generateKey parameters => exact .map (.after fun _ => (hprepared hp).bind)
  | importKey parameters material => exact .map (.after fun _ => (hprepared hp).bind)
  | _ => cases hm

theorem batch_refused (hu : Unrecognized profile) {requests : List BatchRequest}
    (h : ∃ r ∈ requests, r.mutates = true) :
    Refused (PivBatch.batch P profile requests options) := by
  intro op hop
  obtain ⟨_, _, hprepared, _⟩ := batch_admitted hop
  obtain ⟨r, hr, hm⟩ := h
  obtain ⟨machine, hmachine⟩ := prepared_mem hprepared r hr
  exact prepare_refused hu hm machine hmachine

theorem submits_iff (hu : Unrecognized profile) {commands : List Request}
    {parse : ResponseData → Except Error MutationResult} {c : LogicalCommand} {selecting : Bool}
    (hcommands : commands.map Request.command =
      (if selecting then [PivCommand.select] else []) ++ [c]) :
    accepted (require profile >>= fun _ => make profile commands options parse) = .ok () ↔
      Submits profile options c selecting := by
  have hplain : profile.legacyExplicitLe = false := by
    rw [DeviceProfile.legacyExplicitLe, firmwareRange_unknown hu]
    rfl
  have hexplicit (c : LogicalCommand) : explicitLe false c = c := if_neg (by simp)
  have hall : (∀ req ∈ commands, validateCommand req.command options = .ok ()) ↔
      (selecting = true → validateCommand PivCommand.select options = .ok ()) ∧
        validateCommand c options = .ok () := by
    rw [← List.forall_mem_map (f := Request.command)
      (P := fun c => validateCommand c options = .ok ()), hcommands]
    cases selecting <;> simp
  have hmake := @make_accepts_all profile options MutationResult commands parse
  simp only [hplain, hexplicit, hall] at hmake
  cases hr : require profile with
  | error e =>
    have hno : ¬ (profile.capability .piv).support = .supported := by
      intro hs
      have := @require_eq_ok _ () |>.mpr hs
      rw [require] at hr
      rw [hr] at this
      cases this
    constructor
    · intro h
      cases h
    · intro h
      exact absurd h.observed hno
  | ok u =>
    have hs := require_eq_ok.mp hr
    exact hmake.trans ⟨fun ⟨hvalid, hselect, hfits⟩ => ⟨hs, hvalid, hselect, hfits⟩,
      fun h => ⟨h.valid, h.select, h.fits⟩⟩

end gates

section factories

variable {P : Primitives} {profile : DeviceProfile} {options : OperationOptions}

theorem replacementOf_iff {entropy : Bytes} :
    (∃ replacement, replacementOf (some entropy) = .ok replacement) ↔ entropy.length = 8 := by
  simp only [replacementOf, map_eq_ok]
  constructor
  · rintro ⟨_, _, h, _⟩
    rw [Replacement.ofBytes] at h
    split_ifs at h with hlength
    exact hlength
  · intro hlength
    rw [Replacement.ofBytes, dif_pos hlength]
    exact ⟨_, _, rfl, rfl⟩

theorem pinManaged_iff {entropy : Bytes} {access : Access} :
    accepted (PivPinManaged.pinManaged profile (some entropy) access options) = .ok () ↔
      (profile.capability .metadata).support = .supported ∧ entropy.length = 8 ∧
        access.preflight profile options = .ok () := by
  rw [accepted_eq_ok]
  constructor
  · rintro ⟨op, h⟩
    obtain ⟨_, _, h⟩ := bind_eq_ok.mp h
    obtain ⟨_, hmetadata, h⟩ := bind_eq_ok.mp h
    obtain ⟨replacement, hreplacement, h⟩ := bind_eq_ok.mp h
    refine ⟨require_eq_ok.mp hmetadata, replacementOf_iff.mp ⟨_, hreplacement⟩, ?_⟩
    exact (withAccess_eq_ok.mp h).1
  · rintro ⟨hmetadata, hentropy, hpreflight⟩
    obtain ⟨replacement, hreplacement⟩ := replacementOf_iff.mpr hentropy
    obtain ⟨op, hop⟩ := @withAccess_accepts _ _ _ _ Bytes hpreflight
      (PinManaged.new profile options replacement)
    refine ⟨op, bind_eq_ok.mpr ⟨(), (preflight_eq_ok.mp hpreflight).1, ?_⟩⟩
    refine bind_eq_ok.mpr ⟨(), require_eq_ok.mpr hmetadata, ?_⟩
    exact bind_eq_ok.mpr ⟨replacement, hreplacement, hop⟩

/-- On unknown firmware a factory that changes the card accepts exactly where it has no firmware
gate and its own checks pass. -/
theorem run_iff (hu : Unrecognized profile) (factory : Factory) :
    factory.run P profile options = .ok () ↔ Ungated profile options factory := by
  have hrefused {factory : Factory} (h : Refused (factory.run P profile options))
      (hno : ¬ Ungated profile options factory) :
      factory.run P profile options = .ok () ↔ Ungated profile options factory :=
    ⟨fun hrun => absurd hrun (h ()), fun hun => absurd hun hno⟩
  cases factory with
  | request r access hm =>
    exact hrefused (standalone_refused hu hm access) fun h => by cases h
  | writeObjectContainer id container access =>
    refine hrefused (.map (.after fun _ => ?_)) fun h => by cases h
    split_ifs
    · exact refused_error _
    · exact .after fun _ => (writeObject_refused hu _ _).bind
  | setManagementKey key touch updateProtected access =>
    exact hrefused (.map (.after fun _ => (setManagementKey_refused hu _ _).bind.bind))
      fun h => by cases h
  | setContainerName reference name access =>
    exact hrefused (.map (.after fun _ => (setName_refused hu _ _).bind)) fun h => by cases h
  | resetPiv => exact hrefused (.map (checked_refused hu rfl _).bind) fun h => by cases h
  | batch requests hm =>
    refine hrefused ?_ fun h => by cases h
    intro u hrun
    simp only [Factory.run] at hrun
    cases hb : PivBatch.batch P profile requests options with
    | ok op => exact batch_refused hu hm op hb
    | error e =>
      rw [hb] at hrun
      cases hrun
  | admin r access => exact hrefused (.map (capability_refused hu rfl).bind) fun h => by cases h
  | openPgp r access => exact hrefused (.map (capability_refused hu rfl).bind) fun h => by cases h
  | oath hmac serial r access =>
    have hgate : Refused (OathExecute.admission profile r access) :=
      (capability_refused hu rfl).bind
    exact hrefused (.map hgate.bind) fun h => by cases h
  | changePin old new =>
    exact (submits_iff hu rfl).trans ⟨.changePin, fun h => by cases h; assumption⟩
  | changePuk old new =>
    exact (submits_iff hu rfl).trans ⟨.changePuk, fun h => by cases h; assumption⟩
  | unblockPin puk newPin =>
    exact (submits_iff hu rfl).trans ⟨.unblockPin, fun h => by cases h; assumption⟩
  | credential action selecting hm =>
    refine (submits_iff hu ?_).trans ⟨.credential, fun h => by cases h; assumption⟩
    cases selecting <;> rfl
  | pinManaged entropy access =>
    rw [Factory.run, pinManaged_iff]
    constructor
    · rintro ⟨hmetadata, hentropy, h⟩
      exact .pinManaged hmetadata hentropy h
    · rintro ⟨⟩
      exact ⟨‹_›, ‹_›, ‹_›⟩

/-- Unknown firmware authorizes a mutation exactly where a factory has no firmware gate. -/
theorem mutation_refused (hu : Unrecognized profile) (factory : Factory) :
    (∀ u, factory.run P profile options ≠ .ok u) ↔ ¬ Ungated profile options factory := by
  rw [← @run_iff P profile options hu factory]
  exact ⟨fun h => h (), fun h _ => h⟩

/-- The text `3.2.0` and a PIV version. -/
def unknownObservations : DeviceObservations :=
  { firmwareText := [0x33, 0x2e, 0x32, 0x2e, 0x30], pivVersion := some (5, 7, 4) }

def unknownProfile : DeviceProfile :=
  ⟨some ⟨3, 2, 0, none⟩, some (5, 7, 4), none, none, [.latestKnownFallback]⟩

theorem unknownProfile_observed :
    DeviceProfile.fromObservations unknownObservations = .ok unknownProfile := rfl

theorem unknownProfile_unrecognized : Unrecognized unknownProfile := by
  intro v hv
  cases hv
  simp [Recognized]

/-- The PIN 654321. -/
def examplePin : Pin := ⟨[0x36, 0x35, 0x34, 0x33, 0x32, 0x31], by decide, by decide⟩

/-- A gated factory, and two without a gate that their own checks refuse: frames too short for a
change of the PIN, and a replacement of the PUK that is too short. -/
theorem mutation_refused_reset :
    Unrecognized unknownProfile ∧
      (∀ u, Factory.resetPiv.run refusingPrimitives unknownProfile {} ≠ .ok u) ∧
      (∀ u, (Factory.changePin examplePin examplePin).run refusingPrimitives unknownProfile
        { exchange := { maxCommandBytes := 20 } } ≠ .ok u) ∧
      ∀ u, (Factory.pinManaged (List.replicate 7 0x31) .existing).run refusingPrimitives
        unknownProfile {} ≠ .ok u := by
  have hu := unknownProfile_unrecognized
  refine ⟨hu, (mutation_refused hu _).mpr ?_, (mutation_refused hu _).mpr ?_,
    (mutation_refused hu _).mpr ?_⟩
  · intro hungated
    cases hungated
  · rintro ⟨hsubmits⟩
    exact absurd hsubmits.fits (by decide)
  · intro hungated
    cases hungated with
    | pinManaged _ hentropy _ => exact absurd hentropy (by decide)

/-- On 3.2.0, which nothing is known of, the PIN can be changed. -/
theorem unknown_firmware_changes_pin :
    ∃ p, DeviceProfile.fromObservations unknownObservations = .ok p ∧ Unrecognized p ∧
      (Factory.changePin examplePin examplePin).run refusingPrimitives p {} = .ok () :=
  ⟨_, unknownProfile_observed, unknownProfile_unrecognized, rfl⟩

end factories

end UnknownFirmware
