import LibCanokey.PivKeyRotation
import LibCanokey.PivObjects
import LibCanokey.ProtocolCompletion

/-! # Objects read back

What the fragments of an object write carry, and what any later read returns of the object
that they leave in the store of a card. -/
namespace PivObjectRoundTrip

open BigEndian CheckedCursor ListTraversal ProtocolError ProtocolApdu ProtocolApduDecoder
open ProtocolConversation ProtocolSegmentation ProtocolOperation ScriptedRuns ProtocolTranscript
open ProtocolSession ProtocolCompletion ProtocolTlv ProtocolTlvRoundTrip ProtocolTlvFields
open CompatProfile PivCommand PivManagement PivManagementAuthentication PivAccess
open PivAccessOrdering PivWrite PivObjectStore PivObjects PivKeyRotation

section wrapper

variable {σ : Type*} {T : Type} {cipher : BlockCipher} {M : Machine σ T} {legacy : Bool}
  {access : Access} {t₀ t : σ}

/-- The wrapper after its selection and management authentication, about to verify a PIN or to
run its target. -/
def cleared (legacy : Bool) (access : Access) (t₀ : σ) : Selected σ :=
  ⟨.select, legacy, none, access.pinOf, t₀⟩

theorem select_opened (hne : access.isExisting = false) :
    Trace (selectedMachine cipher M) (.new legacy access t₀) [explicitLe legacy select] []
      ⟨.select, legacy, access.managementOf.map .new, access.pinOf, t₀⟩ := by
  apply Trace.opened
  simp only [selectedMachine, Selected.next, Selected.new, hne, Selected.step]
  rfl

theorem targetOrPin_stage (stage : Stage) (pin : Option Pin) :
    (⟨stage, legacy, none, pin, t₀⟩ : Selected σ).targetOrPin M =
      (⟨.select, legacy, none, pin, t₀⟩ : Selected σ).targetOrPin M := by
  cases pin <;> rfl

/-- The answers that clear an access bring the wrapper to its PIN or its target. -/
theorem cleared_turn {cs : List LogicalCommand} {rs : List ResponseData}
    (hne : access.isExisting = false) (hc : Cleared cipher access.managementOf cs rs) :
    LastTurn (selectedMachine cipher M) (.new legacy access t₀)
      (((cleared legacy access t₀).targetOrPin M).1.map (explicitAction legacy))
      (cs.map (explicitLe legacy)) rs ((cleared legacy access t₀).targetOrPin M).2 := by
  have hopened := @select_opened σ T cipher M legacy access t₀ hne
  generalize access.managementOf = auth at hc hopened
  cases hc with
  | @plain r hr =>
    change LastTurn _ _ _ _ ([] ++ [r]) _
    refine .answering hopened ?_
    have hok : r.ensureSuccess .select = .ok () := ensureSuccess_eq_ok.mpr hr
    simp only [selectedMachine, Selected.next, Selected.step, Selected.selectNext, hok]
    rfl
  | @management auth b r hr =>
    have hok : r.ensureSuccess .select = .ok () := ensureSuccess_eq_ok.mpr hr
    have hfirst : (selectedMachine cipher M).next
        ⟨.select, legacy, some (.new auth), access.pinOf, t₀⟩ (some r) =
          (.ok (.command (explicitLe legacy (firstCommand auth))),
            ⟨.management, legacy, some ⟨auth, 1⟩, access.pinOf, t₀⟩) := by
      have hbegin : ManagementMachine.next cipher ⟨auth, 0⟩ none = _ := @next_begin cipher auth none
      simp only [selectedMachine, Selected.next, Selected.step, Selected.selectNext, hok,
        Selected.managementNext, ManagementMachine.new, hbegin]
      rfl
    have hsecond : (selectedMachine cipher M).next
        ⟨.management, legacy, some ⟨auth, 1⟩, access.pinOf, t₀⟩ (some (firstReply auth b)) =
          (.ok (.command (explicitLe legacy (secondCommand cipher auth b))),
            ⟨.management, legacy, some ⟨auth, 2⟩, access.pinOf, t₀⟩) := by
      have hrespond : ManagementMachine.next cipher ⟨auth, 1⟩ (some (firstReply auth b)) = _ :=
        @next_respond cipher auth b
      simp only [selectedMachine, Selected.next, Selected.step, Selected.managementNext, hrespond]
      rfl
    have hlast : (selectedMachine cipher M).next
        ⟨.management, legacy, some ⟨auth, 2⟩, access.pinOf, t₀⟩ (some (finalReply cipher auth)) =
          (((cleared legacy access t₀).targetOrPin M).1.map (explicitAction legacy),
            ((cleared legacy access t₀).targetOrPin M).2) := by
      have hverify : ManagementMachine.next cipher ⟨auth, 2⟩ (some (finalReply cipher auth)) = _ :=
        @next_verify cipher auth
      simp only [selectedMachine, Selected.next, Selected.step, Selected.managementNext, hverify]
      rw [targetOrPin_stage]
      rfl
    have hthree : Trace (selectedMachine cipher M) (.new legacy access t₀)
        ([explicitLe legacy select] ++ [explicitLe legacy (firstCommand auth)] ++
          [explicitLe legacy (secondCommand cipher auth b)])
        ([] ++ [r] ++ [firstReply auth b]) _ := .answered (.answered hopened hfirst) hsecond
    change LastTurn _ _ _ _ ([] ++ [r] ++ [firstReply auth b] ++ [finalReply cipher auth]) _
    exact .answering hthree hlast

/-- A whole preamble is followed by the first command of the target. -/
theorem preamble_trace {cs : List LogicalCommand} {rs : List ResponseData} {c : LogicalCommand}
    (hp : Preamble cipher access cs rs) (hn : M.next t₀ none = (.ok (.command c), t)) :
    Trace (selectedMachine cipher M) (.new legacy access t₀)
      ((cs ++ [c]).map (explicitLe legacy)) rs ⟨.target, legacy, none, none, t⟩ := by
  have htarget (stage : Stage) : (⟨stage, legacy, none, none, t₀⟩ : Selected σ).targetOrPin M =
      (.ok (.command c), ⟨.target, legacy, none, none, t⟩) := by
    simp only [Selected.targetOrPin, Selected.targetNext, hn]
  cases hp with
  | existing =>
    apply Trace.opened
    simp only [selectedMachine, Selected.next, Selected.new, Access.isExisting, Selected.step,
      Selected.targetNext, hn]
    rfl
  | cleared hne hpin hc =>
    have hturn := @cleared_turn σ T cipher M legacy access t₀ cs rs hne hc
    rw [cleared, hpin, htarget] at hturn
    rw [List.map_append]
    exact hturn.trace
  | @verified _ pin cs rs hpin hc =>
    have hturn := @cleared_turn σ T cipher M legacy access t₀ cs rs (pinOf_not_existing hpin) hc
    rw [cleared, hpin] at hturn
    rw [List.map_append, List.map_append]
    refine .answered hturn.trace ?_
    have hauth : requireAuth (success []) .pin = .ok () := requireAuth_eq_ok.mpr rfl
    have hempty : ¬ (success []).data ≠ [] := not_not.mpr rfl
    simp only [selectedMachine, Selected.next, Selected.targetOrPin, Selected.step,
      Selected.pinNext, hauth]
    rw [if_neg hempty, Selected.targetNext, hn]
    rfl

end wrapper

section write

variable {command : LogicalCommand} {options : OperationOptions} {k : ConversationState}

/-- The frames of a command put it together again, and the first of several holds the start of
its data when the fragments are long enough. -/
structure Fragmented (command : LogicalCommand) (k : ConversationState) (selector : Bytes)
    (cmds : List DecodedCommand) : Prop where
  decoded : k.frames.map (fun f => decode f.bytes) = cmds.map some
  whole : ∃ le, reassemble cmds = some ⟨command.header, command.data, le⟩
  first : 1 < cmds.length → ∃ d, cmds.head? = some d ∧ selector <+: d.data

theorem take_prefix {selector rest : Bytes} {n : ℕ} (h : selector.length ≤ n) :
    selector <+: (selector ++ rest).take n := by
  rw [List.take_append, List.take_of_length_le h]
  exact List.prefix_append _ _

theorem new_fragmented (h : ConversationState.new command options = .ok k)
    {selector rest : Bytes} (hdata : command.data = selector ++ rest)
    (hlen : selector.length ≤ 255)
    (hchain : command.allowChaining = true →
      selector.length ≤ options.exchange.maxCommandBytes - 6) :
    ∃ cmds, Fragmented command k selector cmds := by
  obtain ⟨le, cmds, _, _, hmap, hdec⟩ := new_decoded h
  refine ⟨cmds, hmap, ⟨le, hdec.reassemble⟩, ?_⟩
  intro hseveral
  have hframes : k.frames.length = cmds.length := by
    simpa using congrArg List.length hmap
  have hallow : command.allowChaining = true := by
    by_contra hno
    have hno : command.allowChaining = false := by simpa using hno
    obtain ⟨_, _, cmd, _, _, rfl⟩ := new_single hno h
    change 1 = cmds.length at hframes
    omega
  obtain ⟨_, _, le', current, pending, _, hseg, _, rfl⟩ := new_eq_ok h
  change Segmented { command with le := le' } options
    (ConversationState.initial command current pending).frames at hseg
  cases hseg with
  | single encoding cmd henc =>
    change 1 = cmds.length at hframes
    omega
  | chained count frames hcla hpos hlong hcount hbudget henc =>
    -- the decoded frames are the chunks, and the first is as long as the channel lets it be
    rw [decode_chain henc] at hmap
    have hcmds := List.map_injective_iff.mpr (Option.some_injective _) hmap
    obtain ⟨n, rfl⟩ : ∃ n, count = n + 1 :=
      ⟨count - 1, by have := one_lt_divCeil hpos hlong; omega⟩
    refine ⟨_, by rw [← hcmds]; rfl, ?_⟩
    change selector <+: command.data.take (maxShort options)
    rw [hdata]
    apply take_prefix
    have hchannel := hchain hallow
    rw [maxShort]
    omega

end write

section read

variable {T : Type} {κ : Type} {cipher : BlockCipher} {profile : DeviceProfile} {id : ObjectId}
  {access : Access} {options : OperationOptions}

/-- The pages of a GET DATA answer, each at most as long as the channel and its Le allow. -/
def readExchanges (options : OperationOptions) (length : ℕ) : ℕ :=
  1 + divCeil (length - min 256 (options.exchange.maxResponseBytes - 2))
    (min 256 (options.exchange.maxResponseBytes - 2))

theorem clampLe_getData (hvalid : options.Valid) (id : ObjectId) :
    clampLe (getData id) options =
      .ok (.exact (min 256 (options.exchange.maxResponseBytes - 2))) := by
  have hresp := hvalid.response
  have hdef : clampLe (getData id) options =
      if 256 > options.exchange.maxResponseBytes - 2 then
        .ok (.exact ((options.exchange.maxResponseBytes - 2) % 2 ^ 32))
      else .ok (.exact 256) := rfl
  rw [hdef]
  by_cases hsmall : 256 > options.exchange.maxResponseBytes - 2
  · rw [if_pos hsmall, Nat.mod_eq_of_lt (by omega), Nat.min_eq_right (by omega)]
  · rw [if_neg hsmall, Nat.min_eq_left (by omega)]

/-- A card that answers GET DATA whatever its Le answers it in pages. -/
theorem getData_answers {A : Applet κ} {a a' : κ} {data : Bytes} (hvalid : options.Valid)
    (hnew : ∃ k, ConversationState.new (getData id) options = .ok k)
    (hget : ∀ le, A a ⟨(getData id).header, (getData id).data, le⟩ = (success data, a')) :
    ∃ k, Answers A options a (getData id) k (success data) a'
      (readExchanges options data.length) := by
  have hresp := hvalid.response
  obtain ⟨k, hk⟩ := hnew
  obtain ⟨_, _, cmd, _, _, rfl⟩ := new_single rfl hk
  refine ⟨_, hk, ?_, fun _ _ => .paged 0 rfl (by decide),
    ⟨_, clampLe_getData hvalid id, hget _, ?_, rfl⟩, ?_⟩
  · exact ⟨show (0 : UInt8) &&& 0x10 = 0 by decide, show (0xcb : UInt8) ≠ 0xc0 by decide⟩
  · simp only [pageLimit]
    omega
  · exact ⟨show is61 0x9000 = false by decide, show is6c 0x9000 = false by decide⟩

/-- The value of a stored container is parsed, also on firmware with unwrapped objects. -/
theorem objectReply_stored (parse : Bytes → Except Error T) {data : Bytes} {limit : ℕ}
    (hid : id.tag.value ≠ 0x7e) (hlen : data.length < 2 ^ 32)
    (hfit : (fieldBytes [0x53] data).length ≤ min usizeMax limit) :
    objectReply profile id limit false parse (success (fieldBytes [0x53] data)) = parse data := by
  have hunwrapped : unwrapped id (fieldBytes [0x53] data) = false := by
    have hhead : (fieldBytes [0x53] data).head? = some 0x53 := rfl
    rw [unwrapped, hhead]
    simp
  have hfield : fieldBytes [0x53] data = encodeField (PivObjectStore.objectTag, data) := by
    rw [encodeField, PivObjectStore.objectTag_toBytes]
    rfl
  have hvalue : data.length ≤ limit := by
    rw [fieldBytes, List.length_append] at hfit
    omega
  have hsole := @sole_complete (.new (fieldBytes [0x53] data) { maxValueBytes := limit })
    (fun field => field.tag.value == containerTag id) malformed (PivObjectStore.objectTag, data)
    hfield
    ⟨hlen, by rw [← hfield]; omega, hvalue⟩ (show 1 ≤ 16 by decide)
    (by rw [containerTag, if_neg hid]; rfl)
  rw [objectReply]
  change (if profile.legacyUnwrappedObjects = true ∧ unwrapped id (fieldBytes [0x53] data) = true
    then parse (fieldBytes [0x53] data) else _ >>= _) = _
  rw [if_neg (by rw [hunwrapped]; simp)]
  change (sole (.new (fieldBytes [0x53] data) { maxValueBytes := limit }) _ _ >>= _) = _
  rw [hsole]
  rfl

/-- A card that clears an access and then answers GET DATA from its store, with the exchanges
and the bytes that this takes. -/
inductive Serves (cipher : BlockCipher) (profile : DeviceProfile) (id : ObjectId)
    (access : Access) (options : OperationOptions) (store : ObjectStore) (A : Applet κ) (a : κ) :
    ℕ → ℕ → Prop where
  | mk {a₁ a₂ : κ} {cs : List LogicalCommand} {rs : List ResponseData} {n : ℕ}
      (hp : Preamble cipher access cs rs)
      (ha : Answered A options a (cs.map (explicitLe profile.legacyExplicitLe)) rs n a₁)
      (hget : ∀ le, A a₁ ⟨(getData id).header, (getData id).data, le⟩ =
        (success (store id.asBytes), a₂)) :
      Serves cipher profile id access options store A a
        (n + readExchanges options (store id.asBytes).length)
        (responseLength rs + (store id.asBytes).length)

/-- Any read of a stored value returns what its parser makes of the value. -/
theorem read_execute {parse : Bytes → Except Error T} {data : Bytes} {value : T}
    {op : Operation (Selected (Sequence T)) T} {store : ObjectStore}
    (hop : readObjectWith profile id access options parse = .ok op) (hid : id.tag.value ≠ 0x7e)
    (hlen : data.length < 2 ^ 32) (hstore : store id.asBytes = fieldBytes [0x53] data)
    (hparse : parse data = .ok value) {A : Applet κ} {a : κ} {n b : ℕ}
    (hserves : Serves cipher profile id access options store A a n b)
    (he : n ≤ options.limits.maxExchanges)
    (hb : b ≤ min usizeMax options.limits.maxTotalResponseBytes) :
    Ends (execute (selectedMachine cipher (sequence T)) A op a).1 (.ok value) := by
  obtain ⟨target, htarget, hop⟩ := bind_eq_ok.mp hop
  obtain ⟨_, _, htarget⟩ := bind_eq_ok.mp htarget
  obtain ⟨hvalid, rfl⟩ := prepare_eq_ok.mp htarget
  obtain ⟨_, hop⟩ := withAccess_eq_ok.mp hop
  obtain ⟨hvalid, hnew⟩ := validateCommand_eq_ok.mp hvalid
  cases hserves with
  | @mk a₁ a₂ cs rs n hp ha hget =>
    rw [hstore] at hget he hb
    obtain ⟨k, hanswers⟩ := getData_answers hvalid hnew hget
    have hn : (sequence T).next ⟨[request (getData id) .command none], none,
        some (objectReply profile id options.limits.maxTotalResponseBytes false parse)⟩ none =
          (.ok (.command (getData id)), ⟨[], some (.command, none),
            some (objectReply profile id options.limits.maxTotalResponseBytes false parse)⟩) := rfl
    have htrace := @preamble_trace _ T cipher (sequence T) profile.legacyExplicitLe access _ _ cs rs
      (getData id) hp hn
    have hreply := @objectReply_stored T profile id parse data
      options.limits.maxTotalResponseBytes hid hlen (by omega)
    have hfinish : (selectedMachine cipher (sequence T)).next
        ⟨.target, profile.legacyExplicitLe, none, none, ⟨[], some (.command, none),
          some (objectReply profile id options.limits.maxTotalResponseBytes false parse)⟩⟩
        (some (success (fieldBytes [0x53] data))) = (.ok (.done value),
          ⟨.target, profile.legacyExplicitLe, none, none, ⟨[], some (.command, none), none⟩⟩) := by
      simp only [selectedMachine, Selected.next, Selected.step, Selected.targetNext,
        PivCommand.sequence, Sequence.next, if_true, Sequence.finish, hreply, hparse]
      rfl
    have hsame : explicitLe profile.legacyExplicitLe (getData id) = getData id := by
      rw [explicitLe, if_neg (fun h => by cases h.2)]
    rw [List.map_append, List.map_singleton, hsame] at htrace
    refine (execute_done hop (.answering htrace hfinish) ?_ (.command ha hanswers) he ?_).1
    · intro hnil
      simp at hnil
    · rw [responseLength_concat]
      exact hb

end read

section certificate

variable {gunzip : Gunzip}

/-- The value stored for a certificate. -/
def certificateValue (der : Bytes) : Bytes :=
  fieldBytes [0x70] der ++ (fieldBytes [0x71] [0] ++ fieldBytes [0xfe] [])

theorem encodeField_short {b : Byte} (hb : ShortTag b) (value : Bytes) :
    encodeField (shortTag b hb, value) = fieldBytes [b] value := by
  rw [encodeField, shortTag_toBytes]
  rfl

/-- A framed certificate is unwrapped under any limit that its value meets. -/
theorem fromObject_certificateValue {der : Bytes} {limit : ℕ} (hne : der ≠ [])
    (hlen : der.length < 2 ^ 32) (hsize : (certificateValue der).length ≤ usizeMax)
    (hlimit : (certificateValue der).length ≤ limit) :
    Certificate.fromObject gunzip (certificateValue der) limit = .ok ⟨der, false⟩ := by
  have htotal : (certificateValue der).length = (fieldBytes [0x70] der).length + 5 := by
    rw [certificateValue, List.length_append]
    rfl
  have hder : der.length ≤ (fieldBytes [0x70] der).length := by
    rw [fieldBytes, List.length_append]
    omega
  have hlarge := usizeMax_large
  have hcertificate : Admitted { maxValueBytes := limit }
      (shortTag 0x70 (by decide), der) :=
    ⟨hlen, by rw [encodeField_short]; omega, by dsimp only; omega⟩
  have hinfo : Admitted { maxValueBytes := limit } (shortTag 0x71 (by decide), [0]) := by
    refine ⟨show 1 < 2 ^ 32 by decide, ?_, ?_⟩
    · rw [encodeField_short]
      exact Nat.le_trans (show 3 ≤ 2 ^ 32 by decide) hlarge
    · show 1 ≤ limit
      omega
  have hlrc : Admitted { maxValueBytes := limit } (shortTag 0xfe (by decide), []) := by
    refine ⟨show 0 < 2 ^ 32 by decide, ?_, Nat.zero_le _⟩
    rw [encodeField_short]
    exact Nat.le_trans (show 2 ≤ 2 ^ 32 by decide) hlarge
  have hfields : readFields CertificateFields.take
      (.new (certificateValue der) { maxValueBytes := limit }) {} =
        .ok { certificate := some der, info := some 0, lrc := true } := by
    have hfirst : certificateValue der = encodeField (shortTag 0x70 (by decide), der) ++
        (fieldBytes [0x71] [0] ++ fieldBytes [0xfe] []) := by
      rw [encodeField_short]
      rfl
    have hsecond : fieldBytes [0x71] [0] ++ fieldBytes [0xfe] [] =
        encodeField (shortTag 0x71 (by decide), [0]) ++ fieldBytes [0xfe] [] := by
      rw [encodeField_short]
    have hthird : fieldBytes [0xfe] [] = encodeField (shortTag 0xfe (by decide), []) ++ [] := by
      rw [encodeField_short, List.append_nil]
    have hdepth : 1 ≤ 16 := by decide
    refine (readFields_cons hfirst hcertificate hdepth).trans ?_
    change readFields CertificateFields.take (.new _ _) { certificate := some der } = _
    refine (readFields_cons hsecond hinfo hdepth).trans ?_
    change readFields CertificateFields.take (.new _ _)
      { certificate := some der, info := some 0 } = _
    refine (readFields_cons hthird hlrc hdepth).trans ?_
    exact readFields_nil rfl
  rw [Certificate.fromObject, if_neg (by omega), hfields]
  change (CertificateFields.payload ⟨some der, some 0, true⟩ >>= _) = _
  have hpayload : CertificateFields.payload ⟨some der, some 0, true⟩ = .ok der := if_neg hne
  rw [hpayload]
  rfl

end certificate

section roundTrip

variable {T : Type} {cipher : BlockCipher} {profile : DeviceProfile} {id : ObjectId}
  {data : Bytes} {put : LogicalCommand} {access : Access} {options : OperationOptions}
  {op : Writing}

/-- Reads of an object from a store end with a value, under budgets for what they take. -/
def ReadBack (cipher : BlockCipher) (profile : DeviceProfile) (id : ObjectId)
    (reads : Access → OperationOptions → Except Error (Operation (Selected (Sequence T)) T))
    (value : T) (store : ObjectStore) : Prop :=
  ∀ (κ : Type) (A : Applet κ) (a : κ) (access : Access) (options : OperationOptions)
    (op : Operation (Selected (Sequence T)) T) (n b : ℕ), reads access options = .ok op →
    Serves cipher profile id access options store A a n b → n ≤ options.limits.maxExchanges →
    b ≤ min usizeMax options.limits.maxTotalResponseBytes →
    Ends (execute (selectedMachine cipher (sequence T)) A op a).1 (.ok value)

/-- What every run of a write delivers: the fragments of a PUT DATA put together a data field of
some kind, the first of several holds the complete selector, a write that has completed sent one
PUT DATA, at its end, and had it confirmed, and a card that confirms it completes the write. -/
structure Delivers (cipher : BlockCipher) (profile : DeviceProfile) (id : ObjectId)
    (access : Access) (options : OperationOptions) (op : Writing) (kind : Bytes → Prop) :
    Prop where
  fragments : ∀ calls c k,
    c ∈ (recorded (selectedMachine cipher (sequence MutationResult)) op calls).commands →
    c.header.ins = 0xdb → ConversationState.new c options = .ok k →
    ∃ cmds d, k.frames.map (fun f => decode f.bytes) = cmds.map some ∧
      reassemble cmds = some d ∧ d.header = ⟨0, 0xdb, 0x3f, 0xff⟩ ∧ kind d.data ∧
      (1 < cmds.length → ∃ first, cmds.head? = some first ∧
        fieldBytes [0x5c] id.asBytes <+: first.data)
  sent : ∀ calls,
    (recorded (selectedMachine cipher (sequence MutationResult)) op calls).op.state = .completed ∨
      (recorded (selectedMachine cipher (sequence MutationResult)) op calls).op.state =
        .resultTaken →
    ∃ before c k given,
      (recorded (selectedMachine cipher (sequence MutationResult)) op calls).commands =
        before ++ [c] ∧
      (∀ c' ∈ before, c'.header.ins ≠ 0xdb) ∧ c.header.ins = 0xdb ∧
      ConversationState.new c options = .ok k ∧
      (recorded (selectedMachine cipher (sequence MutationResult)) op calls).responses =
        given ++ [success []]
  ends : ∃ c : LogicalCommand, c.header = ⟨0, 0xdb, 0x3f, 0xff⟩ ∧ kind c.data ∧
    (∀ calls,
      ∀ c' ∈ (recorded (selectedMachine cipher (sequence MutationResult)) op calls).commands,
        c'.header.ins = 0xdb → c' = c) ∧
    ∀ (κ : Type) (A : Applet κ) (a a' : κ) (n : ℕ) (pre : List LogicalCommand)
      (answers : List ResponseData), Preamble cipher access pre answers →
      Answered A options a (pre.map (explicitLe profile.legacyExplicitLe) ++ [c])
        (answers ++ [success []]) n a' →
      n ≤ options.limits.maxExchanges →
      responseLength answers ≤ min usizeMax options.limits.maxTotalResponseBytes →
      Ends (execute (selectedMachine cipher (sequence MutationResult)) A op a).1 (.ok unchanged) ∧
        (execute (selectedMachine cipher (sequence MutationResult)) A op a).2 = a'

theorem Delivers.weaken {kind kind' : Bytes → Prop}
    (h : Delivers cipher profile id access options op kind)
    (hkind : ∀ field, kind field → kind' field) :
    Delivers cipher profile id access options op kind' := by
  obtain ⟨c, hheader, hkindc, hrest⟩ := h.ends
  refine ⟨?_, h.sent, c, hheader, hkind _ hkindc, hrest⟩
  intro calls c k hmem hins hk
  obtain ⟨cmds, d, hmap, hre, hheader, hfield, hfirst⟩ := h.fragments calls c k hmem hins hk
  exact ⟨cmds, d, hmap, hre, hheader, hkind _ hfield, hfirst⟩

/-- A card that clears the access and confirms the command takes a write to its end. -/
theorem write_execute (hop : withAccess profile access (mutating put) options = .ok op)
    {κ : Type} {A : Applet κ} {a a' : κ} {n : ℕ} {pre : List LogicalCommand}
    {answers : List ResponseData} (hp : Preamble cipher access pre answers)
    (ha : Answered A options a (pre.map (explicitLe profile.legacyExplicitLe) ++
      [explicitLe profile.legacyExplicitLe put]) (answers ++ [success []]) n a')
    (he : n ≤ options.limits.maxExchanges)
    (hb : responseLength answers ≤ min usizeMax options.limits.maxTotalResponseBytes) :
    Ends (execute (selectedMachine cipher (sequence MutationResult)) A op a).1 (.ok unchanged) ∧
      (execute (selectedMachine cipher (sequence MutationResult)) A op a).2 = a' := by
  obtain ⟨_, hmade⟩ := withAccess_eq_ok.mp hop
  have hn : (sequence MutationResult).next (mutating put) none =
      (.ok (.command put), mutated) := rfl
  have htrace := @preamble_trace _ MutationResult cipher (sequence MutationResult)
    profile.legacyExplicitLe access _ _ pre answers put hp hn
  have hfinish : (selectedMachine cipher (sequence MutationResult)).next
      ⟨.target, profile.legacyExplicitLe, none, none, mutated⟩ (some (success [])) =
        (.ok (.done unchanged),
          ⟨.target, profile.legacyExplicitLe, none, none, { mutated with parse := none }⟩) := rfl
  rw [List.map_append, List.map_singleton] at htrace
  refine execute_done hmade (.answering htrace hfinish) ?_ ha he ?_
  · exact List.append_ne_nil_of_right_ne_nil _ (List.cons_ne_nil _ _)
  · rw [responseLength_concat]
    exact hb

/-- A write that has completed was confirmed by the answer to its own command, the last one. -/
theorem put_sent (hop : withAccess profile access (mutating put) options = .ok op)
    (hput : put.header.ins = 0xdb) {calls : List Call}
    (hfinished :
      (recorded (selectedMachine cipher (sequence MutationResult)) op calls).op.state =
          .completed ∨
        (recorded (selectedMachine cipher (sequence MutationResult)) op calls).op.state =
          .resultTaken) :
    ∃ before c k given,
      (recorded (selectedMachine cipher (sequence MutationResult)) op calls).commands =
        before ++ [c] ∧
      (∀ c' ∈ before, c'.header.ins ≠ 0xdb) ∧ c.header.ins = 0xdb ∧
      ConversationState.new c options = .ok k ∧
      (recorded (selectedMachine cipher (sequence MutationResult)) op calls).responses =
        given ++ [success []] := by
  obtain ⟨_, hmade⟩ := withAccess_eq_ok.mp hop
  have hfollows := recorded_follows (selectedMachine cipher (sequence MutationResult)) hmade calls
  obtain ⟨m, value, hlast, _, _⟩ := hfollows.standing.of_finished hfinished
  obtain ⟨_, hshown, _⟩ := hfollows.shown
  obtain ⟨pre, own, answers, given, hpre, hcs, hrs, hturn⟩ := selected_done hlast
  cases hturn with
  | opening h => cases h
  | @answering _ rs m' _ r ht h =>
    obtain ⟨rfl, rfl⟩ := single_trace ht
    have hparse : (mutation r).map Action.done = .ok (.done value) := (Prod.mk.inj h).1
    obtain ⟨result, hresult, _⟩ := map_eq_ok.mp hparse
    obtain ⟨rfl, _⟩ := mutation_eq_ok.mp hresult
    have hsplit : (pre ++ [put]).map (explicitLe profile.legacyExplicitLe) =
        pre.map (explicitLe profile.legacyExplicitLe) ++
          [explicitLe profile.legacyExplicitLe put] := by
      rw [List.map_append, List.map_singleton]
    rw [hcs, hsplit] at hshown
    obtain ⟨k, hk⟩ := hshown.accepted
    refine ⟨_, _, k, answers ++ rs, hcs.trans hsplit, ?_, ?_, hk, ?_⟩
    · intro c hc
      obtain ⟨plain, hplain, rfl⟩ := List.mem_map.mp hc
      rw [explicitLe_header]
      exact (preamble_inert hpre plain hplain).2
    · rw [explicitLe_header]
      exact hput
    · rw [hrs, List.append_assoc]

/-- Every run of an object write delivers the data field of its command. -/
theorem put_delivers (hput : putCommand profile id data options = .ok put)
    (hop : withAccess profile access (mutating put) options = .ok op) :
    Delivers cipher profile id access options op fun field => field = putData id data := by
  obtain ⟨hcommand, _, _, _, _, hselector⟩ := putCommand_eq_ok hput
  have hwhole : put.header = ⟨0, 0xdb, 0x3f, 0xff⟩ ∧ put.data = putData id data := by
    rw [hcommand]
    exact ⟨rfl, rfl⟩
  have hsame : ∀ calls,
      ∀ c ∈ (recorded (selectedMachine cipher (sequence MutationResult)) op calls).commands,
        c.header.ins = 0xdb → c = explicitLe profile.legacyExplicitLe put := by
    intro calls c hmem hins
    obtain ⟨plain, rfl, rfl | ⟨full, answers, hfull, hfirst⟩⟩ := single_commands hop calls c hmem
    · rfl
    · rw [explicitLe_header] at hins
      exact absurd hins (preamble_inert hfull plain hfirst).2
  have hheader := explicitLe_header profile.legacyExplicitLe put
  have hdata := explicitLe_data profile.legacyExplicitLe put
  have hchaining := explicitLe_allowChaining profile.legacyExplicitLe put
  refine ⟨?_, fun calls hfinished => put_sent hop (congrArg ApduHeader.ins hwhole.1) hfinished,
    _, hheader.trans hwhole.1, hdata.trans hwhole.2, hsame,
    fun κ A a a' n pre answers hp ha he hb => write_execute hop hp ha he hb⟩
  intro calls c k hmem hins hk
  obtain rfl := hsame calls c hmem hins
  have hid := (length_asBytes id).2
  have hlen : (fieldBytes [0x5c] id.asBytes).length = id.asBytes.length + 2 := by
    rw [selector_eq]
    rfl
  obtain ⟨cmds, hmap, ⟨le, hre⟩, hfirst⟩ := new_fragmented hk (hdata.trans hwhole.2)
    (by omega) (fun hallow => by
      have hroom := hselector (hchaining.symm.trans hallow)
      omega)
  exact ⟨cmds, _, hmap, hre, hheader.trans hwhole.1, hdata.trans hwhole.2, hfirst⟩

/-- A stored value is read back by any parser that takes it. -/
theorem stored_read {parse : OperationOptions → Bytes → Except Error T} {value : T}
    (hid : id.tag.value ≠ 0x7e) (hlen : data.length < 2 ^ 32)
    (hparse : ∀ options, (fieldBytes [0x53] data).length ≤ options.limits.maxTotalResponseBytes →
      parse options data = .ok value) (store : ObjectStore) :
    ReadBack cipher profile id
      (fun access options => readObjectWith profile id access options (parse options)) value
      (store.put (putData id data)) := by
  intro κ A a access options op n b hop hserves he hb
  have hstore : store.put (putData id data) id.asBytes = fieldBytes [0x53] data := by
    rw [put_putData, Function.update_self]
  have hbytes : (fieldBytes [0x53] data).length ≤ b := by
    cases hserves
    rw [hstore]
    omega
  exact read_execute hop hid hlen hstore (hparse options (by omega)) hserves he hb

theorem prepareWriteObject_eq_ok {sequence : Sequence MutationResult}
    (h : prepareWriteObject profile id data options = .ok sequence) :
    ∃ put, putCommand profile id data options = .ok put ∧ sequence = mutating put := by
  obtain ⟨put, hput, h⟩ := bind_eq_ok.mp h
  exact ⟨put, hput, (prepare_eq_ok.mp h).2⟩

theorem certificate_tag (slot : Slot) : (ObjectId.certificate slot).tag.value ≠ 0x7e := by
  have hvalue :
      (ObjectId.certificate slot).tag.value = ofBeBytes [0x5f, 0xc1, slot.certificateByte] := rfl
  rw [hvalue]
  simp only [ofBeBytes, List.foldl_cons, List.foldl_nil]
  have hhigh : (0x5f : UInt8).toNat = 95 := rfl
  omega

/-- The value of an accepted certificate write is the framed certificate. -/
theorem prepareWriteCertificate_eq_ok {slot : Slot} {der : Bytes}
    {sequence : Sequence MutationResult}
    (h : prepareWriteCertificate profile slot der options = .ok sequence) :
    der ≠ [] ∧ der.length < 2 ^ 32 ∧ (certificateValue der).length ≤ usizeMax ∧
      prepareWriteObject profile (.certificate slot) (certificateValue der) options =
        .ok sequence := by
  rw [prepareWriteCertificate] at h
  split_ifs at h with hne
  obtain ⟨_, _, h⟩ := bind_eq_ok.mp h
  obtain ⟨writer, hpush, h⟩ := bind_eq_ok.mp h
  rw [pushTags, List.foldlM_cons] at hpush
  obtain ⟨first, hfirst, hpush⟩ := bind_eq_ok.mp hpush
  rw [List.foldlM_cons] at hpush
  obtain ⟨second, hsecond, hpush⟩ := bind_eq_ok.mp hpush
  rw [List.foldlM_cons] at hpush
  obtain ⟨third, hthird, hpush⟩ := bind_eq_ok.mp hpush
  cases hpush
  obtain ⟨hword, _, hb1, _⟩ := (pushTag_eq_ok (shortTag_toBytes (b := 0x70) (by decide))).mp hfirst
  obtain ⟨_, _, hb2, _⟩ := (pushTag_eq_ok (shortTag_toBytes (b := 0x71) (by decide))).mp hsecond
  obtain ⟨_, hfit, hb3, _⟩ := (pushTag_eq_ok (shortTag_toBytes (b := 0xfe) (by decide))).mp hthird
  have hbytes : writer.bytes = certificateValue der := by
    rw [hb3, hb2, hb1, certificateValue, ← List.append_assoc]
    rfl
  rw [← List.length_append, ← hb3, hbytes] at hfit
  rw [hbytes] at h
  exact ⟨hne, hword, by omega, h⟩

/-- What was stored for a certificate: a value that is unwrapped under any sufficient limit. -/
def CertificateStored (cipher : BlockCipher) (gunzip : Gunzip) (profile : DeviceProfile)
    (slot : Slot) (der : Bytes) (store : ObjectStore) : Prop :=
  (∃ value, ReadBack cipher profile (.certificate slot) (readObject profile (.certificate slot))
      value store ∧
    ∀ limit, value.length ≤ limit → Certificate.fromObject gunzip value limit = .ok ⟨der, false⟩) ∧
  ReadBack cipher profile (.certificate slot) (readCertificate gunzip profile slot) ⟨der, false⟩
    store

/-- Objects and certificates are read back from the store that their writes leave. -/
theorem object_round_trip (cipher : BlockCipher) (gunzip : Gunzip) (profile : DeviceProfile) :
    (∀ id data access options op, writeObject profile id data access options = .ok op →
      Delivers cipher profile id access options op fun field =>
        id.tag.value ≠ 0x7e → ∀ store : ObjectStore,
          ReadBack cipher profile id (readObject profile id) data (store.put field)) ∧
    (∀ slot der access options op, writeCertificate profile slot der access options = .ok op →
      Delivers cipher profile (.certificate slot) access options op fun field =>
        ∀ store : ObjectStore,
          CertificateStored cipher gunzip profile slot der (store.put field)) := by
  constructor
  · intro id data access options op h
    obtain ⟨_, _, h⟩ := bind_eq_ok.mp h
    obtain ⟨target, htarget, hop⟩ := bind_eq_ok.mp h
    obtain ⟨put, hput, rfl⟩ := prepareWriteObject_eq_ok htarget
    apply (put_delivers hput hop).weaken
    intro field hfield hid store
    obtain ⟨_, _, _, hlen, _, _⟩ := putCommand_eq_ok hput
    rw [hfield]
    exact stored_read hid hlen (fun _ _ => rfl) store
  · intro slot der access options op h
    obtain ⟨_, _, h⟩ := bind_eq_ok.mp h
    obtain ⟨target, htarget, hop⟩ := bind_eq_ok.mp h
    obtain ⟨hne, hword, hsize, htarget⟩ := prepareWriteCertificate_eq_ok htarget
    obtain ⟨put, hput, rfl⟩ := prepareWriteObject_eq_ok htarget
    apply (put_delivers hput hop).weaken
    intro field hfield store
    obtain ⟨_, _, _, hlen, _, _⟩ := putCommand_eq_ok hput
    rw [hfield]
    refine ⟨⟨certificateValue der,
      stored_read (certificate_tag slot) hlen (fun _ _ => rfl) store,
      fun limit hlimit => fromObject_certificateValue hne hword hsize hlimit⟩, ?_⟩
    refine stored_read (certificate_tag slot) hlen (fun options hlimit => ?_) store
    refine fromObject_certificateValue hne hword hsize (Nat.le_trans ?_ hlimit)
    rw [fieldBytes, List.length_append]
    omega

end roundTrip

/-- A card with nothing but a store of objects, where every access is clear. -/
def shelf : Applet ObjectStore := fun store d =>
  if d.header = ⟨0, 0xdb, 0x3f, 0xff⟩ then (success [], store.put d.data)
  else if d.header = ⟨0, 0xcb, 0x3f, 0xff⟩ then (success (store (d.data.drop 2)), store)
  else (success [], store)

def emptyStore : ObjectStore := fun _ => []

/-- Fifteen bytes leave room for nine in a fragment: the selector and the container of PRINTED
take two. -/
def narrowWrite : OperationOptions := { exchange := { maxCommandBytes := 15 } }

/-- The PUT DATA of three bytes of PRINTED. -/
def printedPut : LogicalCommand :=
  { cmd 0xdb 0x3f 0xff [0x5c, 3, 0x5f, 0xc1, 9, 0x53, 3, 7, 8, 9] .absent with
    allowChaining := true }

theorem shelf_confirms : ∃ k, Answers shelf narrowWrite emptyStore printedPut k (success [])
    (emptyStore.put printedPut.data) 2 := by
  obtain ⟨k, hk, hframes⟩ : ∃ k, ConversationState.new printedPut narrowWrite = .ok k ∧
      k.frames.length = 2 := ⟨_, rfl, rfl⟩
  refine ⟨k, hk, ⟨by decide, by decide⟩, fun _ _ => .paged 0 rfl (by decide),
    ⟨.absent, rfl, rfl, ?_, ?_⟩, ⟨rfl, rfl⟩⟩
  · exact show 0 + 2 ≤ 258 by decide
  · rw [hframes]
    rfl

/-- The two fragments of the write reach the store as one PUT DATA, which completes it, and a read
returns what the store then holds. -/
theorem object_round_trip_printed :
    ∃ op read cmds d,
      writeObject exampleProfile .printed [7, 8, 9] .existing narrowWrite = .ok op ∧
      (recorded (selectedMachine exampleCipher (sequence MutationResult)) op
        [.start, .advance [0x90, 0], .advance [0x90, 0]]).op.state = .completed ∧
      (recorded (selectedMachine exampleCipher (sequence MutationResult)) op
        [.start, .advance [0x90, 0], .advance [0x90, 0]]).frames.map (fun f => decode f.bytes) =
          cmds.map some ∧
      reassemble cmds = some d ∧
      Ends (execute (selectedMachine exampleCipher (sequence MutationResult)) shelf op
        emptyStore).1 (.ok unchanged) ∧
      (execute (selectedMachine exampleCipher (sequence MutationResult)) shelf op
        emptyStore).2 = emptyStore.put d.data ∧
      readObject exampleProfile .printed .existing {} = .ok read ∧
      Ends (execute (selectedMachine exampleCipher (sequence Bytes)) shelf read
        (emptyStore.put d.data)).1 (.ok [7, 8, 9]) := by
  have hop : writeObject exampleProfile .printed [7, 8, 9] .existing narrowWrite = .ok _ := rfl
  have hread : readObject exampleProfile .printed .existing {} = .ok _ := rfl
  have hround :=
    (object_round_trip exampleCipher (fun _ => ⟨[], none⟩) exampleProfile).1 _ _ _ _ _ hop
  obtain ⟨before, c, k, _, hcs, _, hins, hk, _⟩ :=
    hround.sent [.start, .advance [0x90, 0], .advance [0x90, 0]] (Or.inl rfl)
  have hone : [printedPut] = before ++ [c] := hcs
  have hmem : c ∈ before ++ [c] := List.mem_append_right _ List.mem_cons_self
  rw [← hcs] at hmem
  obtain ⟨cmds, d, hmap, hre, _, hstored, _⟩ := hround.fragments _ c k hmem hins hk
  obtain ⟨_, _, _, hsame, hends⟩ := hround.ends
  obtain rfl := hsame _ c hmem hins
  obtain ⟨_, hc⟩ := List.append_inj' ((List.nil_append _).trans hone) rfl
  cases hc
  cases hk
  have hcmds : cmds = [⟨⟨0x10, 0xdb, 0x3f, 0xff⟩, [0x5c, 3, 0x5f, 0xc1, 9, 0x53, 3, 7, 8], .absent⟩,
      ⟨⟨0, 0xdb, 0x3f, 0xff⟩, [9], .absent⟩] :=
    List.map_injective_iff.mpr (Option.some_injective _) (hmap.symm.trans rfl)
  subst hcmds
  cases hre
  obtain ⟨_, hanswers⟩ := shelf_confirms
  obtain ⟨hended, hput⟩ := hends ObjectStore shelf emptyStore _ _ [] [] .existing
    (.command (.nothing _) hanswers) (by decide) (by decide)
  refine ⟨_, _, _, _, hop, rfl, hmap, rfl, hended, hput, hread, ?_⟩
  exact hstored (by decide) emptyStore ObjectStore shelf _ _ _ _ _ _ hread
    (.mk .existing (.nothing _) fun le => rfl) (by decide) (by decide)

end PivObjectRoundTrip
