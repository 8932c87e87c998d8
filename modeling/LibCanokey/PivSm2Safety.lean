import LibCanokey.PivAccessOrdering
import LibCanokey.PivSm2Agreement
import LibCanokey.ProtocolStages
import LibCanokey.ProtocolTlvBer

/-! # The key of an SM2 agreement

Which replies an agreement goes on after, in each role, and what of them its result is taken from.
Whether a point is on the curve stays open. -/
namespace PivSm2Safety

open BigEndian ListTraversal ProtocolError ProtocolConversation ProtocolOperation ProtocolTlv
open ProtocolTlvFields ProtocolTlvBer ProtocolTranscript ProtocolStages CompatProfile PivCommand
open PivManagement PivManagementAuthentication PivAccess PivAccessOrdering PivMetadata PivKeys
open PivPrivate PivStreaming PivSm2Agreement ProtocolSegmentation

/-- A success with a template of exactly these fields. -/
structure Carries (r : ResponseData) (values : List (Byte × Bytes)) : Prop where
  success : r.status.isSuccess = true
  template : ∃ (outer : Tag × Bytes) (inner : List (Tag × Bytes)), outer.1.value = 0x7c ∧
    BerField outer r.data ∧ BerFields inner outer.2 ∧
    inner.map (fun field => (field.1.value, field.2)) =
      values.map fun value => (value.1.toNat, value.2)

/-- A success with metadata of the slot whose PIN policy is Never or Once. -/
def Permitted (profile : DeviceProfile) (slot : Slot) (limit : ℕ) (r : ResponseData) : Prop :=
  r.status.isSuccess = true ∧ ∃ metadata, decode profile (.key slot) r.data limit = .ok metadata ∧
    (metadata.fields.pinPolicy = some (.known .never) ∨
      metadata.fields.pinPolicy = some (.known .once))

/-! ## Replies -/

section replies

variable {r : ResponseData} {limit : ℕ} {tags : List UInt8} {values : List Bytes}

theorem readTags_sound {reader : TlvReader} (hdepth : reader.depth ≤ reader.limits.maxDepth)
    (h : readTags tags reader = .ok values) :
    values.length = tags.length ∧ ∃ fields, BerFields fields reader.bytes ∧
      fields.map (fun field => (field.1.value, field.2)) =
        (tags.zip values).map fun value => (value.1.toNat, value.2) := by
  induction tags generalizing reader values with
  | nil =>
    have hturn := next_turn hdepth
    rw [readTags] at h
    generalize reader.next = turn at h hturn
    cases hturn with
    | ended hnil =>
      cases h
      exact ⟨rfl, [], by rw [hnil]; exact .nil, rfl⟩
    | field => cases h
    | overlong => cases h
    | malformed => cases h
  | cons tag tags ih =>
    have hturn := next_turn hdepth
    rw [readTags] at h
    generalize reader.next = turn at h hturn
    cases hturn with
    | ended => cases h
    | @field field bytes rest hf hb hmax =>
      dsimp only at h
      split_ifs at h with htag
      obtain ⟨more, hmore, rfl⟩ := map_eq_ok.mp h
      obtain ⟨hlen, fields, hfields, hvalues⟩ := @ih _ { reader with bytes := rest } hdepth hmore
      refine ⟨by rw [List.length_cons, List.length_cons, hlen], field :: fields, ?_, ?_⟩
      · rw [hb]
        exact .cons hf hfields
      · have htag : field.1.value = tag.toNat := not_not.mp htag
        rw [List.map_cons, hvalues, htag]
        rfl
    | overlong => cases h
    | malformed => cases h

theorem fields_carry (h : PivSm2Agreement.fields r tags limit = .ok values) :
    values.length = tags.length ∧ Carries r (tags.zip values) := by
  obtain ⟨_, hsuccess, h⟩ := bind_eq_ok.mp h
  obtain ⟨outer, houter, h⟩ := bind_eq_ok.mp h
  obtain ⟨reader, hreader, h⟩ := bind_eq_ok.mp h
  obtain ⟨field, hfield, haccept, rfl⟩ := sole_sound (show 1 ≤ 16 by decide) houter
  rw [Tlv.children] at hreader
  split_ifs at hreader with hdeep
  cases hreader
  have hsound := fun hdepth => readTags_sound hdepth h
  obtain ⟨hlen, fields, hfields, hvalues⟩ := hsound (Nat.not_le.mp hdeep)
  exact ⟨hlen, ensureSuccess_eq_ok.mp hsuccess, field, fields, beq_iff_eq.mp haccept, hfield,
    hfields, hvalues⟩

theorem soleValue_carries {value : Bytes} (h : soleValue r limit = .ok value) :
    Carries r [(0x82, value)] := by
  obtain ⟨values, hvalues, h⟩ := bind_eq_ok.mp h
  obtain ⟨hlen, hcarries⟩ := fields_carry hvalues
  obtain ⟨v, rfl⟩ := List.length_eq_one_iff.mp hlen
  cases h
  exact hcarries

theorem responderResult_carries {a : Sm2Agreement} (h : responderResult r limit = .ok a) :
    Carries r [(0x82, a.ephemeralPublic), (0x85, a.key)] := by
  obtain ⟨values, hvalues, h⟩ := bind_eq_ok.mp h
  obtain ⟨hlen, hcarries⟩ := fields_carry hvalues
  obtain ⟨v, w, rfl⟩ := List.length_eq_two.mp hlen
  cases h
  exact hcarries

theorem checkAgreement_eq_ok {point : PointCheck} {keyLen : ℕ} {a b : Sm2Agreement}
    (h : checkAgreement point keyLen a = .ok b) :
    a = b ∧ sm2Point point a.ephemeralPublic = true ∧ a.key.length = keyLen := by
  rw [checkAgreement] at h
  split_ifs at h with hbad
  push Not at hbad
  cases h
  exact ⟨rfl, hbad⟩

theorem permitted {profile : DeviceProfile} {slot : Slot} {metadata : Metadata}
    (h : metadataReply profile (.key slot) limit r = .ok metadata)
    (hpolicy : agreementPolicy metadata = .ok ()) : Permitted profile slot limit r := by
  rw [metadataReply] at h
  split_ifs at h
  obtain ⟨_, hsuccess, h⟩ := bind_eq_ok.mp h
  refine ⟨ensureSuccess_eq_ok.mp hsuccess, metadata, h, ?_⟩
  rw [agreementPolicy] at hpolicy
  split at hpolicy
  · next hnever => exact Or.inl hnever
  · next honce => exact Or.inr honce
  · cases hpolicy
  · cases hpolicy

end replies

/-! ## The machine -/

section machine

variable {point : PointCheck} {parse : ResponseData → Except Error Metadata}
  {ask first finish : LogicalCommand} {input : Sm2AgreementInput} {options : OperationOptions}
  {cs : List LogicalCommand} {rs : List ResponseData} {m : AgreementMachine} {a : Sm2Agreement}

/-- An initiator that has asked for the metadata, begun or finished. -/
inductive Initiating (point : PointCheck) (parse : ResponseData → Except Error Metadata)
    (ask first finish : LogicalCommand) (input : Sm2AgreementInput) (options : OperationOptions) :
    List LogicalCommand → List ResponseData → AgreementMachine → Prop where
  | asked : Initiating point parse ask first finish input options [ask] []
      (.new input options (some ⟨[], some (.command, none), some parse⟩) first (some finish))
  | begun {r : ResponseData} {metadata : Metadata} (hr : parse r = .ok metadata)
      (hpolicy : agreementPolicy metadata = .ok ()) :
      Initiating point parse ask first finish input options [ask, first] [r]
        { AgreementMachine.new input options none first (some finish) with first := none }
  | finished {r r' : ResponseData} {metadata : Metadata} {ephemeral : Bytes}
      (hr : parse r = .ok metadata) (hpolicy : agreementPolicy metadata = .ok ())
      (hr' : Carries r' [(0x82, ephemeral)]) (hpoint : sm2Point point ephemeral = true) :
      Initiating point parse ask first finish input options [ask, first, finish] [r, r']
        { AgreementMachine.new input options none first none with
          first := none, ephemeral := some ephemeral }

def initiatorStart (parse : ResponseData → Except Error Metadata)
    (ask first finish : LogicalCommand) (input : Sm2AgreementInput) (options : OperationOptions) :
    AgreementMachine :=
  .new input options (some ⟨[request ask .command none], none, some parse⟩) first (some finish)

/-- The metadata decides whether the card may make an ephemeral key. -/
theorem asked_turn {r : ResponseData} {action : Action Sm2Agreement}
    (h : (agreementMachine point).next (.new input options
      (some ⟨[], some (.command, none), some parse⟩) first (some finish)) (some r) =
        (.ok action, m)) :
    (∃ metadata, parse r = .ok metadata ∧ agreementPolicy metadata = .ok ()) ∧
      action = .command first ∧
      m = { AgreementMachine.new input options none first (some finish) with first := none } := by
  simp only [agreementMachine, AgreementMachine.next, AgreementMachine.new, Sequence.next,
    Sequence.finish, if_true] at h
  cases hparse : parse r with
  | error e =>
    rw [hparse] at h
    cases h
  | ok metadata =>
    rw [hparse] at h
    simp only [Except.map] at h
    cases hpolicy : agreementPolicy metadata with
    | error e =>
      rw [hpolicy] at h
      cases h
    | ok u =>
      rw [hpolicy] at h
      cases h
      exact ⟨⟨metadata, rfl, hpolicy⟩, rfl, rfl⟩

/-- The first answer has to hold one point. -/
theorem begun_turn (hrole : input.role = .initiator) {r : ResponseData}
    {action : Action Sm2Agreement}
    (h : (agreementMachine point).next
      { AgreementMachine.new input options none first (some finish) with first := none }
        (some r) = (.ok action, m)) :
    ∃ ephemeral, Carries r [(0x82, ephemeral)] ∧ sm2Point point ephemeral = true ∧
      action = .command finish ∧
      m = { AgreementMachine.new input options none first none with
        first := none, ephemeral := some ephemeral } := by
  simp only [agreementMachine, AgreementMachine.next, AgreementMachine.new,
    AgreementMachine.commandNext, AgreementMachine.answered, hrole,
    AgreementMachine.exchanged] at h
  cases hpoint : ephemeralPoint point options.limits.maxTotalResponseBytes r with
  | error e =>
    rw [hpoint] at h
    cases h
  | ok ephemeral =>
    rw [hpoint] at h
    cases h
    obtain ⟨value, hvalue, hpoint⟩ := bind_eq_ok.mp hpoint
    split_ifs at hpoint with hvalid
    cases hpoint
    refine ⟨ephemeral, soleValue_carries hvalue, hvalid, rfl, ?_⟩
    rw [AgreementMachine.new, hrole]

/-- The last answer of an initiator holds the key, beside the point of the first. -/
theorem finished_turn (hrole : input.role = .initiator) {r : ResponseData} {ephemeral : Bytes}
    {action : Action Sm2Agreement}
    (h : (agreementMachine point).next { AgreementMachine.new input options none first none with
      first := none, ephemeral := some ephemeral } (some r) = (.ok action, m)) :
    ∃ a : Sm2Agreement, action = .done a ∧ a.ephemeralPublic = ephemeral ∧
      a.key.length = input.keyLen.toNat ∧ Carries r [(0x82, a.key)] := by
  simp only [agreementMachine, AgreementMachine.next, AgreementMachine.new,
    AgreementMachine.commandNext, AgreementMachine.answered, hrole,
    AgreementMachine.initiatorNext] at h
  cases hkey : soleValue r options.limits.maxTotalResponseBytes with
  | error e =>
    rw [hkey] at h
    cases h
  | ok key =>
    rw [hkey] at h
    obtain ⟨a, ha, rfl⟩ := map_eq_ok.mp (Prod.mk.inj h).1
    obtain ⟨rfl, _, hlen⟩ := checkAgreement_eq_ok ha
    exact ⟨_, rfl, rfl, hlen, soleValue_carries hkey⟩

/-- The only answer to a responder holds its point and the key. -/
theorem responder_turn (hrole : input.role = .responder) {r : ResponseData}
    {action : Action Sm2Agreement}
    (h : (agreementMachine point).next
      { AgreementMachine.new input options none first none with first := none } (some r) =
        (.ok action, m)) :
    ∃ a : Sm2Agreement, action = .done a ∧ sm2Point point a.ephemeralPublic = true ∧
      a.key.length = input.keyLen.toNat ∧
      Carries r [(0x82, a.ephemeralPublic), (0x85, a.key)] := by
  simp only [agreementMachine, AgreementMachine.next, AgreementMachine.new,
    AgreementMachine.commandNext, AgreementMachine.answered, hrole,
    AgreementMachine.responderNext] at h
  cases hresult : responderResult r options.limits.maxTotalResponseBytes with
  | error e =>
    rw [hresult] at h
    cases h
  | ok result =>
    rw [hresult] at h
    obtain ⟨a, ha, rfl⟩ := map_eq_ok.mp (Prod.mk.inj h).1
    obtain ⟨rfl, hpoint, hlen⟩ := checkAgreement_eq_ok ha
    exact ⟨_, rfl, hpoint, hlen, responderResult_carries hresult⟩

theorem initiating (hrole : input.role = .initiator) :
    Described (agreementMachine point) (initiatorStart parse ask first finish input options)
      (Initiating point parse ask first finish input options) := by
  refine ⟨?_, ?_⟩
  · intro c m h
    cases h
    exact .asked
  · intro cs rs m r c m' hm h
    cases hm with
    | asked =>
      obtain ⟨⟨metadata, hr, hpolicy⟩, hc, rfl⟩ := asked_turn h
      cases hc
      exact .begun hr hpolicy
    | begun hr hpolicy =>
      obtain ⟨ephemeral, hr', hpoint, hc, rfl⟩ := begun_turn hrole h
      cases hc
      exact .finished hr hpolicy hr' hpoint
    | finished hr hpolicy hr' hpoint =>
      obtain ⟨_, hdone, _⟩ := finished_turn hrole h
      cases hdone

/-- What an initiator has returned its result from. -/
theorem initiator_done (hrole : input.role = .initiator)
    (h : LastTurn (agreementMachine point) (initiatorStart parse ask first finish input options)
      (.ok (.done a)) cs rs m) :
    cs = [ask, first, finish] ∧ ∃ r r' r'', rs = [r, r', r''] ∧
      Carries r' [(0x82, a.ephemeralPublic)] ∧ sm2Point point a.ephemeralPublic = true ∧
      Carries r'' [(0x82, a.key)] ∧ a.key.length = input.keyLen.toNat := by
  cases h with
  | opening h => cases h
  | answering ht h =>
    cases (initiating hrole).trace ht with
    | asked =>
      obtain ⟨_, hc, _⟩ := asked_turn h
      cases hc
    | begun =>
      obtain ⟨_, _, _, hc, _⟩ := begun_turn hrole h
      cases hc
    | finished hr hpolicy hr' hpoint =>
      obtain ⟨_, hdone, rfl, hlen, hkey⟩ := finished_turn hrole h
      cases hdone
      exact ⟨rfl, _, _, _, rfl, hr', hpoint, hkey, hlen⟩

/-- A responder sends one command. -/
theorem responding (hrole : input.role = .responder) :
    Described (agreementMachine point) (.new input options none first none) fun cs rs m =>
      cs = [first] ∧ rs = [] ∧
        m = { AgreementMachine.new input options none first none with first := none } := by
  refine ⟨?_, ?_⟩
  · intro c m h
    cases h
    exact ⟨rfl, rfl, rfl⟩
  · rintro cs rs m r c m' ⟨_, _, rfl⟩ h
    obtain ⟨_, hdone, _⟩ := responder_turn hrole h
    cases hdone

theorem responder_done (hrole : input.role = .responder)
    (h : LastTurn (agreementMachine point) (.new input options none first none) (.ok (.done a))
      cs rs m) :
    cs = [first] ∧ ∃ r, rs = [r] ∧ sm2Point point a.ephemeralPublic = true ∧
      a.key.length = input.keyLen.toNat ∧
      Carries r [(0x82, a.ephemeralPublic), (0x85, a.key)] := by
  cases h with
  | opening h => cases h
  | answering ht h =>
    obtain ⟨rfl, rfl, rfl⟩ := (responding hrole).trace ht
    obtain ⟨_, hdone, hpoint, hlen, hkey⟩ := responder_turn hrole h
    cases hdone
    exact ⟨rfl, _, rfl, hpoint, hlen, hkey⟩

end machine

/-! ## The commands -/

/-- GENERAL AUTHENTICATE with the key of the slot. -/
def AuthenticatesIn (slot : Slot) (c : LogicalCommand) : Prop :=
  c.header.ins = 0x87 ∧ c.header.p2 = slot.reference

instance (slot : Slot) : DecidablePred (AuthenticatesIn slot) :=
  fun _ => inferInstanceAs (Decidable (_ ∧ _))

def serialized (fields : List (Bytes × Bytes)) : Bytes :=
  fields.flatMap fun field => fieldBytes field.1 field.2

def template (fields : List (Bytes × Bytes)) : Bytes := fieldBytes [0x7c] (serialized fields)

/-- The card makes an ephemeral key and answers with its point. -/
def generateData (input : Sm2AgreementInput) : Bytes :=
  template (identityField 0x80 input.userId ++ [([0x82], [])])

/-- The card derives the session key from the peer's keys. -/
def finishData (input : Sm2AgreementInput) : Bytes :=
  template (ownIdentity input ++ [([0x82], []), ([0x85], serialized (exchangeFields input))])

/-- A command of the agreement, in one frame that is not sent again for another Le. -/
structure Agrees (slot : Slot) (options : OperationOptions) (data : Bytes) (c : LogicalCommand) :
    Prop where
  authenticates : AuthenticatesIn slot c
  data : c.data = data
  unchained : c.allowChaining = false ∧ c.allowExtended = false
  unresent : c.correctLe = false
  frame : ∀ k, ConversationState.new c options = .ok k → k.frames = [k.current]

section commands

variable {point : PointCheck} {profile : DeviceProfile} {slot : Slot} {input : Sm2AgreementInput}
  {options : OperationOptions} {id : UInt8} {inner : Bytes} {c : LogicalCommand}
  {m : AgreementMachine}

theorem ga_eq_ok (h : ga id slot inner options = .ok c) :
    c = agreementCommand id slot (fieldBytes [0x7c] inner) := by
  obtain ⟨outer, houter, h⟩ := bind_eq_ok.mp h
  obtain ⟨_, _, h⟩ := bind_eq_ok.mp h
  cases h
  have hbytes : outer.bytes = fieldBytes [0x7c] inner := (pushTag_appends houter).1
  rw [hbytes]

theorem pushed_bytes {fields : List (Bytes × Bytes)} {limit : ℕ} {writer : TlvWriter}
    (h : pushTags (.new limit) fields = .ok writer) (hne : fields ≠ []) :
    writer.bytes = serialized fields := (pushTags_appends h hne).1

theorem finishCommand_eq_ok (h : finishCommand id slot input options = .ok c) :
    c = agreementCommand id slot (finishData input) := by
  obtain ⟨exp, hexp, h⟩ := bind_eq_ok.mp h
  obtain ⟨inner, hinner, h⟩ := bind_eq_ok.mp h
  rw [ga_eq_ok h, pushed_bytes hinner (by simp), pushed_bytes hexp (by simp [exchangeFields])]
  rfl

theorem initiatorMachine_eq_ok {finish : LogicalCommand}
    (h : initiatorMachine profile id slot input finish options = .ok m) :
    m = initiatorStart (metadataReply profile (.key slot) options.limits.maxTotalResponseBytes)
      (metadata (.key slot)) (agreementCommand id slot (generateData input)) finish input
        options := by
  obtain ⟨inner, hinner, h⟩ := bind_eq_ok.mp h
  obtain ⟨preflight, hpreflight, h⟩ := bind_eq_ok.mp h
  obtain ⟨first, hfirst, h⟩ := bind_eq_ok.mp h
  cases h
  obtain ⟨_, _, hpreflight⟩ := bind_eq_ok.mp hpreflight
  obtain ⟨_, _, hpreflight⟩ := bind_eq_ok.mp hpreflight
  obtain ⟨_, _, hpreflight⟩ := bind_eq_ok.mp hpreflight
  rw [(prepare_eq_ok.mp hpreflight).2, ga_eq_ok hfirst, pushed_bytes hinner (by simp)]
  rfl

/-- What the two commands of an initiator differ by. -/
structure Checked (slot : Slot) (input : Sm2AgreementInput) : Prop where
  slot : agreementSlot slot = true
  identity : ∀ own, input.userId = some own → own.length ≤ 32
  peer : input.peerStatic.length = 65

theorem checkInput_eq_ok (h : checkInput point slot input options = .ok ()) :
    Checked slot input := by
  rw [checkInput] at h
  by_cases hbad : ¬ agreementSlot slot = true ∨ ¬ sm2Point point input.peerStatic = true ∨
      ¬ sm2Point point input.peerEphemeral = true ∨ ¬ (1 ≤ input.keyLen ∧ input.keyLen ≤ 128)
  · rw [if_pos hbad] at h
    cases h
  rw [if_neg hbad] at h
  push Not at hbad
  obtain ⟨hslot, hpeer, _⟩ := hbad
  obtain ⟨_, hidentity, _⟩ := bind_eq_ok.mp h
  refine ⟨hslot, ?_, ?_⟩
  · intro own hown
    rw [hown, PivStreaming.identity] at hidentity
    split_ifs at hidentity with hbad
    push Not at hbad
    exact hbad.2
  · rw [sm2Point, Bool.and_eq_true, Bool.and_eq_true, beq_iff_eq] at hpeer
    exact hpeer.1.1

/-- The machine of each role. -/
theorem prepareAgreement_eq_ok (h : prepareAgreement point profile slot input options = .ok m) :
    Checked slot input ∧ ∃ id,
      (input.role = .initiator → m = initiatorStart
        (metadataReply profile (.key slot) options.limits.maxTotalResponseBytes)
        (metadata (.key slot)) (agreementCommand id slot (generateData input))
        (agreementCommand id slot (finishData input)) input options) ∧
      (input.role = .responder →
        m = .new input options none (agreementCommand id slot (finishData input)) none) := by
  obtain ⟨_, _, h⟩ := bind_eq_ok.mp h
  obtain ⟨_, _, h⟩ := bind_eq_ok.mp h
  obtain ⟨id, _, h⟩ := bind_eq_ok.mp h
  obtain ⟨_, hinput, h⟩ := bind_eq_ok.mp h
  obtain ⟨finish, hfinish, h⟩ := bind_eq_ok.mp h
  rw [finishCommand_eq_ok hfinish] at h
  refine ⟨checkInput_eq_ok hinput, id, ?_, ?_⟩
  · intro hrole
    rw [hrole] at h
    exact initiatorMachine_eq_ok h
  · intro hrole
    rw [hrole] at h
    exact (Except.ok.inj h).symm

theorem agrees (legacy : Bool) (id : UInt8) (data : Bytes) :
    Agrees slot options data (explicitLe legacy (agreementCommand id slot data)) := by
  have hunchained : (explicitLe legacy (agreementCommand id slot data)).allowChaining = false ∧
      (explicitLe legacy (agreementCommand id slot data)).allowExtended = false := by
    rw [explicitLe]
    split_ifs <;> exact ⟨rfl, rfl⟩
  refine ⟨?_, explicitLe_data _ _, hunchained, ?_, ?_⟩
  · rw [AuthenticatesIn, explicitLe_header]
    exact ⟨rfl, rfl⟩
  · rw [explicitLe]
    split_ifs <;> rfl
  · intro k hk
    obtain ⟨_, _, cmd, _, _, rfl⟩ := new_single hunchained.1 hk
    rfl

theorem length_le_serialized {fields : List (Bytes × Bytes)} {field : Bytes × Bytes}
    (h : field ∈ fields) : field.2.length ≤ (serialized fields).length := by
  obtain ⟨before, after, rfl⟩ := List.append_of_mem h
  rw [serialized, List.flatMap_append, List.flatMap_cons, List.length_append, List.length_append,
    length_fieldBytes]
  omega

theorem length_identity (h : Checked slot input) :
    (serialized (identityField 0x80 input.userId ++ [([0x82], [])])).length ≤ 40 := by
  rw [serialized, List.flatMap_append, List.length_append]
  cases hid : input.userId with
  | none => exact show 2 ≤ 40 by decide
  | some own =>
    have hle := h.identity own hid
    have hform := length_lengthField_le own.length
    have hfield : ([([0x80], own)].flatMap fun field : Bytes × Bytes =>
        fieldBytes field.1 field.2).length = 1 + (lengthField own.length).length + own.length := by
      rw [List.flatMap_singleton, length_fieldBytes, List.length_singleton]
    rw [identityField, hfield]
    exact Nat.add_le_add (show _ ≤ 38 by omega) (Nat.le_refl 2)

/-- The peer's keys tell the two commands of an initiator apart. -/
theorem generate_ne_finish (h : Checked slot input) : generateData input ≠ finishData input := by
  intro heq
  have hlen := congrArg List.length heq
  have hown := length_identity h
  have hpeer := @length_le_serialized (exchangeFields input) ([0x86], input.peerStatic)
    List.mem_cons_self
  have hexp := @length_le_serialized
    (ownIdentity input ++ [([0x82], []), ([0x85], serialized (exchangeFields input))])
    ([0x85], serialized (exchangeFields input))
    (List.mem_append_right _ (List.mem_cons_of_mem _ List.mem_cons_self))
  have hform := length_lengthField_le
    (serialized (identityField 0x80 input.userId ++ [([0x82], [])])).length
  rw [generateData, finishData, template, template, length_fieldBytes, length_fieldBytes] at hlen
  have hpeer' := h.peer
  dsimp only at hpeer hexp
  omega

end commands

/-! ## Runs -/

/-- The reply that the card gave to a command. -/
def Replied {σ : Type*} {T : Type} (s : Recorded σ T) (c : LogicalCommand) (r : ResponseData) :
    Prop := ∃ n : ℕ, s.commands[n]? = some c ∧ s.responses[n]? = some r

abbrev AgreementRun := Recorded (Selected AgreementMachine) Sm2Agreement

/-- A value that the run gives out. -/
def Returned (s : AgreementRun) (a : Sm2Agreement) : Prop :=
  s.op.result = .ok a ∨ s.op.takeResult.1 = .ok a

structure InitiatorGuarded (point : PointCheck) (profile : DeviceProfile) (slot : Slot)
    (input : Sm2AgreementInput) (options : OperationOptions) (first finish : LogicalCommand)
    (s : AgreementRun) : Prop where
  once : s.commands.filter (AuthenticatesIn slot) <+: [first, finish]
  begun : first ∈ s.commands → ∃ ask r, ask.header = (metadata (.key slot)).header ∧
    Replied s ask r ∧ Permitted profile slot options.limits.maxTotalResponseBytes r
  finished : finish ∈ s.commands → ∃ r ephemeral, Replied s first r ∧
    Carries r [(0x82, ephemeral)] ∧ sm2Point point ephemeral = true
  result : ∀ a, Returned s a → sm2Point point a.ephemeralPublic = true ∧
    a.key.length = input.keyLen.toNat ∧
    (∃ r, Replied s first r ∧ Carries r [(0x82, a.ephemeralPublic)]) ∧
    ∃ r, Replied s finish r ∧ Carries r [(0x82, a.key)]

structure ResponderGuarded (point : PointCheck) (slot : Slot) (input : Sm2AgreementInput)
    (only : LogicalCommand) (s : AgreementRun) : Prop where
  once : s.commands.filter (AuthenticatesIn slot) <+: [only]
  result : ∀ a, Returned s a → sm2Point point a.ephemeralPublic = true ∧
    a.key.length = input.keyLen.toNat ∧
    ∃ r, Replied s only r ∧ Carries r [(0x82, a.ephemeralPublic), (0x85, a.key)]

section runs

variable {cipher : BlockCipher} {point : PointCheck} {profile : DeviceProfile} {slot : Slot}
  {input : Sm2AgreementInput} {access : Access} {options : OperationOptions} {legacy : Bool}
  {op : Operation (Selected AgreementMachine) Sm2Agreement} {s : AgreementRun}
  {pre own full : List LogicalCommand} {answers given : List ResponseData}

theorem authenticates_explicit (c : LogicalCommand) :
    AuthenticatesIn slot (explicitLe legacy c) ↔ AuthenticatesIn slot c := by
  rw [AuthenticatesIn, explicitLe_header, AuthenticatesIn]

/-- The management key has a reference of its own. -/
theorem preamble_avoids (hslot : agreementSlot slot = true)
    (h : Preamble cipher access full answers) : ∀ c ∈ full, ¬ AuthenticatesIn slot c := by
  apply h.each fun c => ¬ AuthenticatesIn slot c
  · exact fun hauth => absurd hauth.1 (by decide)
  · intro a fields hauth
    have href : (0x9b : UInt8) = slot.reference := hauth.2
    cases slot with
    | keyManagement => exact absurd href (by decide)
    | retired n =>
      have hupper : n.index.toNat ≤ 20 := UInt8.le_iff_toNat_le.mp n.upper
      have hsum : (0x9b : UInt8).toNat = (0x81 + n.index).toNat := congrArg UInt8.toNat href
      rw [UInt8.toNat_add, show (0x9b : UInt8).toNat = 155 from rfl,
        show (0x81 : UInt8).toNat = 129 from rfl] at hsum
      omega
    | _ => cases hslot
  · intro pin hauth
    exact absurd hauth.1 (show (0x20 : UInt8) ≠ 0x87 by decide)

theorem filter_commands (hcs : s.commands = (pre ++ own).map (explicitLe legacy))
    (hpre : ∀ c ∈ pre, ¬ AuthenticatesIn slot c) :
    s.commands.filter (AuthenticatesIn slot) =
      (own.filter (AuthenticatesIn slot)).map (explicitLe legacy) := by
  have hnone : pre.filter (AuthenticatesIn slot) = [] := by
    apply List.filter_eq_nil_iff.mpr
    intro c hc
    rw [decide_eq_true_eq]
    exact hpre c hc
  have hsame : ((fun c => decide (AuthenticatesIn slot c)) ∘ explicitLe legacy) =
      fun c => decide (AuthenticatesIn slot c) := by
    funext c
    exact decide_eq_decide.mpr (authenticates_explicit c)
  rw [hcs, List.filter_map, hsame, List.filter_append, hnone, List.nil_append]

theorem replied (hcs : s.commands = (pre ++ own).map (explicitLe legacy))
    (hp : Preamble cipher access pre answers) (hrs : answers ++ given <+: s.responses) {n : ℕ}
    {c : LogicalCommand} {r : ResponseData} (hc : own[n]? = some c) (hr : given[n]? = some r) :
    Replied s (explicitLe legacy c) r := by
  obtain ⟨hlen, hlen'⟩ := hp.lengths
  obtain ⟨rest, hrest⟩ := hrs
  refine ⟨pre.length + n, ?_, ?_⟩
  · rw [hcs, List.getElem?_map, List.getElem?_append_right (Nat.le_add_right _ _),
      Nat.add_sub_cancel_left, hc]
    rfl
  · rw [← hrest, List.append_assoc, hlen, ← hlen',
      List.getElem?_append_right (Nat.le_add_right _ _), Nat.add_sub_cancel_left]
    obtain ⟨hlt, _⟩ := List.getElem?_eq_some_iff.mp hr
    rw [List.getElem?_append_left hlt]
    exact hr

/-- What a command of the agreement's own is, given that the preamble has none of its kind. -/
theorem mem_own (hcs : s.commands = (pre ++ own).map (explicitLe legacy))
    (hpre : ∀ c ∈ pre, ¬ AuthenticatesIn slot c) {data : Bytes} {c : LogicalCommand}
    (hc : Agrees slot options data c) (hmem : c ∈ s.commands) :
    ∃ plain ∈ own, AuthenticatesIn slot plain ∧ plain.data = data := by
  rw [hcs] at hmem
  obtain ⟨plain, hplain, rfl⟩ := List.mem_map.mp hmem
  have hauth := (authenticates_explicit plain).mp hc.authenticates
  refine ⟨plain, ?_, hauth, ?_⟩
  · rcases List.mem_append.mp hplain with hplain | hplain
    · exact absurd hauth (hpre plain hplain)
    · exact hplain
  · rw [← explicitLe_data legacy plain]
    exact hc.data

theorem ask_avoids : ¬ AuthenticatesIn slot (metadata (.key slot)) := by
  intro hauth
  exact absurd hauth.1 (show (0xf7 : UInt8) ≠ 0x87 by decide)

theorem initiator_guarded (hrole : input.role = .initiator) (hchecked : Checked slot input)
    {id : UInt8}
    (hop : Operation.fromMachine (Selected.new legacy access (initiatorStart
      (metadataReply profile (.key slot) options.limits.maxTotalResponseBytes)
      (metadata (.key slot)) (agreementCommand id slot (generateData input))
      (agreementCommand id slot (finishData input)) input options)) options = .ok op)
    (calls : List Call) :
    InitiatorGuarded point profile slot input options
      (explicitLe legacy (agreementCommand id slot (generateData input)))
      (explicitLe legacy (agreementCommand id slot (finishData input)))
      (recorded (selectedMachine cipher (agreementMachine point)) op calls) := by
  have hfollows := recorded_follows (selectedMachine cipher (agreementMachine point)) hop calls
  obtain ⟨pre, own, hcs, ⟨full, fullAnswers, hfull, hbefore⟩, hown⟩ := follows_commands hfollows
  have hpre : ∀ c ∈ pre, ¬ AuthenticatesIn slot c :=
    fun c hc => preamble_avoids hchecked.slot hfull c (hbefore.subset hc)
  have hfirst := @agrees slot options legacy id (generateData input)
  have hfinish := @agrees slot options legacy id (finishData input)
  have hauth (data : Bytes) : AuthenticatesIn slot (agreementCommand id slot data) := ⟨rfl, rfl⟩
  have hask := @ask_avoids slot
  refine ⟨?_, ?_, ?_, ?_⟩
  · rw [filter_commands hcs hpre]
    by_cases hne : own = []
    · rw [hne]
      exact List.nil_prefix
    obtain ⟨_, answers, given, t, hp, hrs, ht⟩ := hown hne
    cases (initiating hrole).trace ht with
    | asked => simp [hask]
    | begun => simp [hask, hauth]
    | finished => simp [hask, hauth]
  · intro hmem
    obtain ⟨plain, hplain, hplain', _⟩ := mem_own hcs hpre hfirst hmem
    obtain ⟨_, answers, given, t, hp, hrs, ht⟩ := hown (List.ne_nil_of_mem hplain)
    have hheader := explicitLe_header legacy (metadata (.key slot))
    cases (initiating hrole).trace ht with
    | asked =>
      rw [List.mem_singleton.mp hplain] at hplain'
      exact absurd hplain' hask
    | begun hr hpolicy =>
      exact ⟨_, _, hheader, @replied _ _ _ _ _ _ _ _ hcs hp hrs 0 _ _ rfl rfl,
        permitted hr hpolicy⟩
    | finished hr hpolicy =>
      exact ⟨_, _, hheader, @replied _ _ _ _ _ _ _ _ hcs hp hrs 0 _ _ rfl rfl,
        permitted hr hpolicy⟩
  · intro hmem
    obtain ⟨plain, hplain, hplain', hdata⟩ := mem_own hcs hpre hfinish hmem
    obtain ⟨_, answers, given, t, hp, hrs, ht⟩ := hown (List.ne_nil_of_mem hplain)
    cases (initiating hrole).trace ht with
    | asked =>
      rw [List.mem_singleton.mp hplain] at hplain'
      exact absurd hplain' hask
    | begun =>
      rcases List.mem_pair.mp hplain with rfl | rfl
      · exact absurd hplain' hask
      · exact absurd hdata (generate_ne_finish hchecked)
    | finished _ _ hr' hpoint =>
      exact ⟨_, _, @replied _ _ _ _ _ _ _ _ hcs hp hrs 1 _ _ rfl rfl, hr', hpoint⟩
  · intro a ha
    obtain ⟨hdone, houtput⟩ := returned_output ha
    obtain ⟨m, value, hlast, _, hvalue⟩ := hfollows.standing.of_finished (Or.inl hdone)
    cases houtput.symm.trans (hvalue hdone)
    obtain ⟨pre, own, answers, given, hp, hcs, hrs, hturn⟩ := selected_done hlast
    obtain ⟨rfl, r, r', r'', rfl, hr', hpoint, hr'', hlen⟩ := initiator_done hrole hturn
    have hrs : answers ++ [r, r', r''] <+: _ := ⟨[], (List.append_nil _).trans hrs.symm⟩
    exact ⟨hpoint, hlen, ⟨r', @replied _ _ _ _ _ _ _ _ hcs hp hrs 1 _ _ rfl rfl, hr'⟩,
      r'', @replied _ _ _ _ _ _ _ _ hcs hp hrs 2 _ _ rfl rfl, hr''⟩

theorem responder_guarded (hrole : input.role = .responder) (hchecked : Checked slot input)
    {id : UInt8} (hop : Operation.fromMachine (Selected.new legacy access
      (.new input options none (agreementCommand id slot (finishData input)) none)) options =
        .ok op) (calls : List Call) :
    ResponderGuarded point slot input
      (explicitLe legacy (agreementCommand id slot (finishData input)))
      (recorded (selectedMachine cipher (agreementMachine point)) op calls) := by
  have hfollows := recorded_follows (selectedMachine cipher (agreementMachine point)) hop calls
  obtain ⟨pre, own, hcs, ⟨full, fullAnswers, hfull, hbefore⟩, hown⟩ := follows_commands hfollows
  have hpre : ∀ c ∈ pre, ¬ AuthenticatesIn slot c :=
    fun c hc => preamble_avoids hchecked.slot hfull c (hbefore.subset hc)
  have hauth : AuthenticatesIn slot (agreementCommand id slot (finishData input)) := ⟨rfl, rfl⟩
  refine ⟨?_, ?_⟩
  · rw [filter_commands hcs hpre]
    by_cases hne : own = []
    · rw [hne]
      exact List.nil_prefix
    obtain ⟨_, answers, given, t, hp, hrs, ht⟩ := hown hne
    obtain ⟨rfl, _⟩ := (responding hrole).trace ht
    simp [hauth]
  · intro a ha
    obtain ⟨hdone, houtput⟩ := returned_output ha
    obtain ⟨m, value, hlast, _, hvalue⟩ := hfollows.standing.of_finished (Or.inl hdone)
    cases houtput.symm.trans (hvalue hdone)
    obtain ⟨pre, own, answers, given, hp, hcs, hrs, hturn⟩ := selected_done hlast
    obtain ⟨rfl, r, rfl, hpoint, hlen, hr⟩ := responder_done hrole hturn
    have hrs : answers ++ [r] <+: _ := ⟨[], (List.append_nil _).trans hrs.symm⟩
    exact ⟨hpoint, hlen, r, @replied _ _ _ _ _ _ _ _ hcs hp hrs 0 _ _ rfl rfl, hr⟩

/-- An agreement sends its commands at most once, each in one frame and the second only after a
valid point, and takes its result from the replies to them: the key is the last field of the last
reply, whatever else the card has sent. -/
theorem sm2_agreement_guarded (cipher : BlockCipher)
    (h : agreeSm2 point profile slot input access options = .ok op) :
    (input.role = .initiator → ∃ first finish, first ≠ finish ∧
      Agrees slot options (generateData input) first ∧
      Agrees slot options (finishData input) finish ∧
      ∀ calls, InitiatorGuarded point profile slot input options first finish
        (recorded (selectedMachine cipher (agreementMachine point)) op calls)) ∧
    (input.role = .responder → ∃ only, Agrees slot options (finishData input) only ∧
      ∀ calls, ResponderGuarded point slot input only
        (recorded (selectedMachine cipher (agreementMachine point)) op calls)) := by
  obtain ⟨m, hm, h⟩ := bind_eq_ok.mp h
  obtain ⟨_, hop⟩ := withAccess_eq_ok.mp h
  obtain ⟨hchecked, id, hinitiator, hresponder⟩ := prepareAgreement_eq_ok hm
  constructor
  · intro hrole
    rw [hinitiator hrole] at hop
    have hfirst := @agrees slot options profile.legacyExplicitLe id (generateData input)
    have hfinish := @agrees slot options profile.legacyExplicitLe id (finishData input)
    refine ⟨_, _, ?_, hfirst, hfinish, initiator_guarded hrole hchecked hop⟩
    intro heq
    apply generate_ne_finish hchecked
    rw [← hfirst.data, heq, hfinish.data]
  · intro hrole
    rw [hresponder hrole] at hop
    exact ⟨_, agrees profile.legacyExplicitLe id _, responder_guarded hrole hchecked hop⟩

end runs

/-- A 3.1.0 device whose extension algorithms are enabled. -/
def exampleProfile : DeviceProfile :=
  { PivAccessOrdering.exampleProfile with
    config := (AlgorithmConfig.parse
      [1, 0xe0, 0x05, 0x16, 0xe1, 0x53, 0x15, 0x54, 0xe2, 0xe3]).toOption }

def fieldPrime : ℕ := 0xfffffffeffffffffffffffffffffffffffffffff00000000ffffffffffffffff

/-- The equation of the SM2 curve, on coordinates below its prime. -/
def onCurve (x y : ℕ) : Bool :=
  x < fieldPrime && y < fieldPrime &&
    y * y % fieldPrime == (x * x * x + (fieldPrime - 3) * x +
      0x28e9fa9e9d9f5e344d5a9e4bcf6509a7f39789f515ab8f92ddbcbd414d940e93) % fieldPrime

/-- Uncompressed points are recognised, on no other curve. -/
def curveCheck : PointCheck := fun algorithm bytes =>
  algorithm == .sm2 && bytes.length == 65 &&
    onCurve (ofBeBytes (bytes.tail.take 32)) (ofBeBytes (bytes.drop 33))

def uncompressed (x y : ℕ) : Bytes := 4 :: (toBeBytes 32 x ++ toBeBytes 32 y)

/-- The generator of the curve. -/
def generator : Bytes :=
  uncompressed 0x32c4ae2c1f1981195f9904466a39c9948fe30bbff2660be1715a4589334c74c7
    0xbc3736a2f4f6779c59bdcee36b692153d0a9877cc62a474002df32e52139f0a0

/-- Twice the generator. -/
def doubled : Bytes :=
  uncompressed 0x56cefd60d7c87c000d58ef57fa73ba4d9c0dfa08c08a7331495c2e1da3f2bd52
    0x31b7e7e6cc8189f668535ce0f8eaf1bd6de84c182f6c8e716f780d3a970a23c3

def exampleInput : Sm2AgreementInput :=
  { role := .initiator
    peerStatic := generator
    peerEphemeral := doubled
    userId := some [0x41]
    peerId := none
    keyLen := 16 }

example : sm2Point curveCheck generator = true ∧ sm2Point curveCheck doubled = true ∧
    sm2Point curveCheck (uncompressed 1 1) = false := by decide +kernel

set_option maxRecDepth 10000 in
theorem sm2_agreement_guarded_initiator : ∃ op first finish,
    agreeSm2 curveCheck exampleProfile .keyManagement exampleInput .none {} = .ok op ∧
      first ≠ finish ∧ ∀ calls, InitiatorGuarded curveCheck exampleProfile .keyManagement
        exampleInput {} first finish
          (recorded (selectedMachine exampleCipher (agreementMachine curveCheck)) op calls) := by
  obtain ⟨op, hop⟩ : ∃ op, agreeSm2 curveCheck exampleProfile .keyManagement exampleInput
      .none {} = .ok op := ⟨_, rfl⟩
  obtain ⟨first, finish, hne, _, _, hguarded⟩ := (sm2_agreement_guarded exampleCipher hop).1 rfl
  exact ⟨op, first, finish, hop, hne, hguarded⟩

end PivSm2Safety
