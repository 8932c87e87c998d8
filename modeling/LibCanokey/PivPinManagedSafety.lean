import LibCanokey.PivAccessOrdering
import LibCanokey.PivPinManaged

/-! # When the PUK is touched and the key returned

The exchanges that establish a stored management key, the invariant of the machine over any
answers and its consequences for every run of an operation. -/
namespace PivPinManagedSafety

open BigEndian ListTraversal ProtocolError ProtocolApdu ProtocolConversation ProtocolOperation
open ProtocolTranscript ProtocolTlv CompatProfile PivCommand PivManagement
open PivManagementAuthentication PivAccess PivAccessOrdering PivMetadata PivProtection
open PivPinManaged

/-- CHANGE REFERENCE DATA of the PUK. -/
def ChangesPuk (c : LogicalCommand) : Prop := c.header.ins = 0x24 ∧ c.header.p2 = 0x81

instance (c : LogicalCommand) : Decidable (ChangesPuk c) := inferInstanceAs (Decidable (_ ∧ _))

/-- ADMIN DATA was read and claims both protections. -/
def Claims (r : ResponseData) : Prop :=
  r.status.isSuccess = true ∧ ∃ policy, ManagementProtection.fromAdminObject r.data = .ok policy ∧
    policy.claimsBlockedPuk = true ∧ policy.protectsManagementKey = true

/-- The PUK was read with `n` retries left. -/
def Counts (profile : DeviceProfile) (options : OperationOptions) (r : ResponseData)
    (n : UInt8) : Prop :=
  r.status.isSuccess = true ∧ ∃ m total,
    decode profile .puk r.data options.limits.maxTotalResponseBytes = .ok m ∧
      m.fields.retries = some (total, n)

/-- PRINTED was read and stores the key. -/
def Stores (r : ResponseData) (key : Bytes) : Prop :=
  r.status.isSuccess = true ∧ protectedManagementKeyFromObject r.data = .ok key

/-- The exchanges after which the key of PRINTED has authenticated itself. -/
inductive Established (cipher : BlockCipher) (profile : DeviceProfile)
    (options : OperationOptions) (key : ManagementKey) (n : UInt8) :
    List LogicalCommand → List ResponseData → Prop where
  | exchanges {admin puk printed kind : ResponseData} (challenge : Block key.algorithm)
      (ha : Claims admin) (hn : Counts profile options puk n) (hk : Stores printed key.bytes) :
      Established cipher profile options key n
        [getData .adminData, metadata .puk, getData .printed, metadata .management,
          authentication key.algorithm [(0x81, [])],
          authentication key.algorithm [(0x82, (cipher key.algorithm key.bytes challenge).1)]]
        [admin, puk, printed, kind, success (template [(0x81, challenge.1)]), success []]

variable {cipher : BlockCipher} {profile : DeviceProfile} {options : OperationOptions}
  {replacement : Option Replacement}

/-- What is left to block the PUK with after a count of `n`. -/
def kept (replacement : Option Replacement) (n : UInt8) : Option Replacement :=
  if n = 0 then none else replacement

/-- Where the machine stands, by the commands exposed and the answers given. -/
inductive Reached (cipher : BlockCipher) (profile : DeviceProfile) (options : OperationOptions)
    (replacement : Option Replacement) :
    List LogicalCommand → List ResponseData → PinManaged → Prop where
  | admin :
      Reached cipher profile options replacement [getData .adminData] []
        ⟨.admin, profile, options, replacement, none, none, 0, false⟩
  | puk {a : ResponseData} (ha : Claims a) :
      Reached cipher profile options replacement [getData .adminData, metadata .puk] [a]
        ⟨.puk, profile, options, replacement, none, none, 0, false⟩
  | printed {a p : ResponseData} {n : UInt8} (ha : Claims a) (hn : Counts profile options p n)
      (hr : n ≠ 0 → replacement.isSome = true) :
      Reached cipher profile options replacement
        [getData .adminData, metadata .puk, getData .printed] [a, p]
        ⟨.printed, profile, options, kept replacement n, none, none, 0, false⟩
  | managementMetadata {a p o : ResponseData} {n : UInt8} {key : Bytes} (ha : Claims a)
      (hn : Counts profile options p n) (hr : n ≠ 0 → replacement.isSome = true)
      (hk : Stores o key) :
      Reached cipher profile options replacement
        [getData .adminData, metadata .puk, getData .printed, metadata .management] [a, p, o]
        ⟨.managementMetadata, profile, options, kept replacement n, some key, none, 0, false⟩
  | authentication {a p o kind : ResponseData} {n : UInt8} {key : ManagementKey}
      {cs : List LogicalCommand} {rs : List ResponseData} {m : ManagementMachine}
      (ha : Claims a) (hn : Counts profile options p n)
      (hr : n ≠ 0 → replacement.isSome = true) (hk : Stores o key.bytes)
      (ht : Trace (management cipher) (.new (.external key)) cs rs m) :
      Reached cipher profile options replacement
        ([getData .adminData, metadata .puk, getData .printed, metadata .management] ++ cs)
        ([a, p, o, kind] ++ rs)
        ⟨.authentication, profile, options, kept replacement n, some key.bytes, some m, 0, false⟩
  | change {own cs : List LogicalCommand} {given rs : List ResponseData} {key : ManagementKey}
      {n : UInt8} {attempts : ℕ} {known : Bool} (hn : n ≠ 0) (hr : replacement.isSome = true)
      (he : Established cipher profile options key n own given) (hcs : ∀ c ∈ cs, ChangesPuk c)
      (hlen : cs.length = rs.length + 1) :
      Reached cipher profile options replacement (own ++ cs) (given ++ rs)
        ⟨.change, profile, options, replacement, some key.bytes, none, attempts, known⟩
  | confirm {own cs : List LogicalCommand} {given rs : List ResponseData} {key : ManagementKey}
      {n : UInt8} {attempts : ℕ} {known : Bool} (hn : n ≠ 0) (hr : replacement.isSome = true)
      (he : Established cipher profile options key n own given) (hcs : ∀ c ∈ cs, ChangesPuk c)
      (hlen : cs.length = rs.length) :
      Reached cipher profile options replacement (own ++ cs ++ [metadata .puk]) (given ++ rs)
        ⟨.confirm, profile, options, replacement, some key.bytes, none, attempts, known⟩

/-- Every exchange of a machine that returned the key: the PUK was found blocked, or it was
blocked and found so at last. -/
inductive Returned (cipher : BlockCipher) (profile : DeviceProfile) (options : OperationOptions)
    (key : Bytes) : List LogicalCommand → List ResponseData → Prop where
  | blocked {own : List LogicalCommand} {given : List ResponseData} {k : ManagementKey}
      (hk : k.bytes = key) (he : Established cipher profile options k 0 own given) :
      Returned cipher profile options key own given
  | confirmed {own cs : List LogicalCommand} {given rs : List ResponseData} {k : ManagementKey}
      {n : UInt8} {puk : ResponseData} (hk : k.bytes = key)
      (he : Established cipher profile options k n own given) (hcs : ∀ c ∈ cs, ChangesPuk c)
      (hlen : cs.length = rs.length) (hp : Counts profile options puk 0) :
      Returned cipher profile options key (own ++ cs ++ [metadata .puk]) (given ++ rs ++ [puk])

section stages

variable {s s' : PinManaged} {r : ResponseData} {action : Action Bytes}

theorem change_ok (h : s.change = (.ok action, s')) :
    ∃ c attempts, action = .command c ∧ ChangesPuk c ∧
      s' = { s with attempts := attempts, stage := .change } := by
  rw [PinManaged.change] at h
  by_cases hlimit : s.attempts ≥ 32
  · rw [if_pos hlimit] at h
    cases h
  rw [if_neg hlimit] at h
  cases hr : s.replacement with
  | none =>
    rw [hr] at h
    cases h
  | some replacement =>
    rw [hr] at h
    cases h
    exact ⟨_, s.attempts + 1, rfl, ⟨rfl, rfl⟩, rfl⟩

theorem result_ok (h : s.result = (.ok action, s')) :
    ∃ key, s.key = some key ∧ action = .done key := by
  cases hk : s.key with
  | none =>
    simp only [PinManaged.result, hk] at h
    cases h
  | some key =>
    simp only [PinManaged.result, hk] at h
    cases h
    exact ⟨key, rfl, rfl⟩

theorem adminNext_ok (h : s.adminNext r = (.ok action, s')) :
    Claims r ∧ action = .command (PivCommand.metadata .puk) ∧ s' = { s with stage := .puk } := by
  cases hp : adminPolicy r with
  | error e =>
    simp only [PinManaged.adminNext, hp] at h
    cases h
  | ok u =>
    simp only [PinManaged.adminNext, hp] at h
    cases h
    refine ⟨?_, rfl, rfl⟩
    obtain ⟨_, hs, hp⟩ := bind_eq_ok.mp hp
    obtain ⟨policy, hpolicy, hp⟩ := bind_eq_ok.mp hp
    split_ifs at hp with hbad
    push Not at hbad
    exact ⟨ensureSuccess_eq_ok.mp hs, policy, hpolicy, hbad.1, hbad.2⟩

theorem remaining_ok {n : UInt8} (h : s.remaining r = .ok n) : Counts s.profile s.options r n := by
  obtain ⟨m, hm, h⟩ := bind_eq_ok.mp h
  obtain ⟨_, hs, hm⟩ := bind_eq_ok.mp hm
  cases hr : m.fields.retries with
  | none =>
    rw [hr] at h
    cases h
  | some retries =>
    rw [hr] at h
    cases h
    exact ⟨ensureSuccess_eq_ok.mp hs, m, retries.1, hm, hr⟩

theorem pukNext_ok (h : s.pukNext r = (.ok action, s')) :
    ∃ n, Counts s.profile s.options r n ∧ (n ≠ 0 → s.replacement.isSome = true) ∧
      action = .command (getData .printed) ∧
      s' = { s with replacement := kept s.replacement n, stage := .printed } := by
  cases hn : s.remaining r with
  | error e =>
    simp only [PinManaged.pukNext, hn] at h
    cases h
  | ok n =>
    simp only [PinManaged.pukNext, hn] at h
    refine ⟨n, remaining_ok hn, ?_⟩
    by_cases hzero : n = 0
    · rw [if_pos hzero] at h
      cases h
      exact ⟨fun hne => absurd hzero hne, rfl, by rw [kept, if_pos hzero]⟩
    · rw [if_neg hzero] at h
      split_ifs at h with hnone
      · cases h
      · cases h
        exact ⟨fun _ => by simpa [Option.isSome_iff_ne_none] using hnone, rfl,
          by rw [kept, if_neg hzero]⟩

theorem confirmNext_ok (h : s.confirmNext r = (.ok action, s')) :
    Counts s.profile s.options r 0 ∧ ∃ key, s.key = some key ∧ action = .done key := by
  cases hn : s.remaining r with
  | error e =>
    simp only [PinManaged.confirmNext, hn] at h
    cases h
  | ok n =>
    simp only [PinManaged.confirmNext, hn] at h
    split_ifs at h with hzero
    · cases h
    · obtain rfl := not_not.mp hzero
      exact ⟨remaining_ok hn, result_ok h⟩

theorem printedNext_ok (h : s.printedNext r = (.ok action, s')) :
    ∃ key, Stores r key ∧ action = .command (PivCommand.metadata .management) ∧
      s' = { s with key := some key, stage := .managementMetadata } := by
  cases hk : printedKey r with
  | error e =>
    simp only [PinManaged.printedNext, hk] at h
    cases h
  | ok key =>
    simp only [PinManaged.printedNext, hk] at h
    cases h
    obtain ⟨_, hs, hkey⟩ := bind_eq_ok.mp hk
    exact ⟨key, ⟨ensureSuccess_eq_ok.mp hs, hkey⟩, rfl, rfl⟩

/-- The authentication is external and uses the key of PRINTED. -/
theorem external_ok {auth : ManagementAuthentication} (h : s.external r = .ok auth) :
    ∃ key, auth = .external key ∧ s.key = some key.bytes := by
  obtain ⟨a, _, h⟩ := bind_eq_ok.mp h
  obtain ⟨bytes, hb, h⟩ := bind_eq_ok.mp h
  obtain ⟨key, hk, h⟩ := bind_eq_ok.mp h
  obtain ⟨_, _, h⟩ := bind_eq_ok.mp h
  cases h
  refine ⟨key, rfl, ?_⟩
  have hbytes : key.bytes = bytes := by
    simp only [ManagementKey.fromBytes] at hk
    split_ifs at hk
    cases hk
    rfl
  rw [hbytes]
  cases hs : s.key with
  | none =>
    simp only [PinManaged.storedKey, hs] at hb
    cases hb
  | some bytes' =>
    simp only [PinManaged.storedKey, hs] at hb
    cases hb
    rfl

/-- After a refused guess comes another one, or the last read of the PUK. -/
theorem changeNext_ok (h : s.changeNext r = (.ok action, s')) :
    (∃ c attempts known, action = .command c ∧ ChangesPuk c ∧
      s' = { s with attempts := attempts, known := known, stage := .change }) ∨
      action = .command (PivCommand.metadata .puk) ∧ s' = { s with stage := .confirm } := by
  have hagain {known : Bool} (h : { s with known := known }.change = (.ok action, s')) :
      ∃ c attempts known, action = .command c ∧ ChangesPuk c ∧
        s' = { s with attempts := attempts, known := known, stage := .change } := by
    obtain ⟨c, attempts, rfl, hc, rfl⟩ := change_ok h
    exact ⟨c, attempts, known, rfl, hc, rfl⟩
  simp only [PinManaged.changeNext] at h
  split_ifs at h
  · cases h
  · exact Or.inl (hagain h)
  · cases h
    exact Or.inr ⟨rfl, rfl⟩
  · exact Or.inl (hagain h)
  · cases ha : requireAuth r .puk with
    | error e =>
      rw [ha] at h
      cases h
    | ok u =>
      rw [ha] at h
      exact Or.inl (hagain h)

end stages

section turns

variable {s s' : PinManaged} {r : ResponseData} {cs : List LogicalCommand}
  {rs : List ResponseData} {m : ManagementMachine} {key : ManagementKey} {n : UInt8}
  {a p o kind : ResponseData}

/-- What a turn of a machine that got so far may leave behind. -/
def Goes (cipher : BlockCipher) (profile : DeviceProfile) (options : OperationOptions)
    (replacement : Option Replacement) (cs : List LogicalCommand) (rs : List ResponseData)
    (s' : PinManaged) : Action Bytes → Prop
  | .command c => Reached cipher profile options replacement (cs ++ [c]) rs s'
  | .done key => Returned cipher profile options key cs rs

theorem established_of_completes (ha : Claims a) (hn : Counts profile options p n)
    (hk : Stores o key.bytes) {m' : ManagementMachine}
    (ht : Trace (management cipher) (.new (.external key)) cs rs m)
    (h : ManagementMachine.next cipher m (some r) = (.ok (.done ()), m')) :
    Established cipher profile options key n
      ([getData .adminData, metadata .puk, getData .printed, metadata .management] ++ cs)
      ([a, p, o, kind] ++ rs ++ [r]) := by
  obtain ⟨challenge, rfl, hrs, _⟩ := completes_iff.mp (.answering ht h)
  rw [List.append_assoc, hrs]
  exact .exchanges challenge ha hn hk

/-- A turn of the authentication, and what follows its completion. -/
theorem authentication_goes (ha : Claims a) (hn : Counts profile options p n)
    (hr : n ≠ 0 → replacement.isSome = true) (hk : Stores o key.bytes)
    (ht : Trace (management cipher) (.new (.external key)) cs rs m) {action : Action Bytes}
    (h : PinManaged.authenticationNext cipher
      ⟨.authentication, profile, options, kept replacement n, some key.bytes, some m, 0, false⟩
      (some r) = (.ok action, s')) :
    Goes cipher profile options replacement
      ([getData .adminData, metadata .puk, getData .printed, metadata .management] ++ cs)
      ([a, p, o, kind] ++ rs ++ [r]) s' action := by
  rcases hm : ManagementMachine.next cipher m (some r) with ⟨e | c | u, m'⟩
  · simp only [PinManaged.authenticationNext, hm] at h
    cases h
  · simp only [PinManaged.authenticationNext, hm] at h
    cases h
    simp only [Goes]
    rw [List.append_assoc, List.append_assoc]
    exact .authentication ha hn hr hk (.answered ht hm)
  · simp only [PinManaged.authenticationNext, hm] at h
    have he := @established_of_completes cipher profile options r cs rs m key n a p o kind ha hn hk
      m' ht hm
    by_cases hzero : n = 0
    · obtain rfl := hzero
      rw [if_neg (by simp [kept])] at h
      obtain ⟨key', hkey', rfl⟩ := result_ok h
      cases hkey'
      exact .blocked rfl he
    · have hkept : kept replacement n = replacement := if_neg hzero
      rw [hkept, if_pos (hr hzero)] at h
      obtain ⟨c, attempts, rfl, hc, rfl⟩ := change_ok h
      have hgo := @Reached.change cipher profile options replacement _ [c] _ [] key n attempts
        false hzero (hr hzero) he (by simpa using hc) rfl
      rwa [List.append_nil] at hgo

theorem managementMetadata_goes (ha : Claims a) (hn : Counts profile options p n)
    (hr : n ≠ 0 → replacement.isSome = true) {bytes : Bytes} (hk : Stores o bytes)
    {action : Action Bytes}
    (h : PinManaged.managementMetadataNext cipher
      ⟨.managementMetadata, profile, options, kept replacement n, some bytes, none, 0, false⟩
      r = (.ok action, s')) :
    Goes cipher profile options replacement
      [getData .adminData, metadata .puk, getData .printed, metadata .management]
      [a, p, o, r] s' action := by
  rw [PinManaged.managementMetadataNext] at h
  split at h
  · cases h
  · next auth hauth =>
    obtain ⟨key, rfl, hkey⟩ := external_ok hauth
    cases hkey
    have hfirst : ManagementMachine.next cipher (.new (.external key)) none =
        (.ok (.command (firstCommand (.external key))), ⟨.external key, 1⟩) :=
      @next_begin cipher (.external key) none
    simp only [PinManaged.authenticationNext, hfirst] at h
    cases h
    exact @Reached.authentication cipher profile options replacement a p o r n key _ [] _ ha hn hr
      hk (.opened (next_begin none))

theorem change_goes {own : List LogicalCommand} {given : List ResponseData} {attempts : ℕ}
    {known : Bool} (hn : n ≠ 0) (hr : replacement.isSome = true)
    (he : Established cipher profile options key n own given) (hcs : ∀ c ∈ cs, ChangesPuk c)
    (hlen : cs.length = rs.length + 1) {action : Action Bytes}
    (h : PinManaged.changeNext
      ⟨.change, profile, options, replacement, some key.bytes, none, attempts, known⟩ r =
        (.ok action, s')) :
    Goes cipher profile options replacement (own ++ cs) (given ++ rs ++ [r]) s' action := by
  rcases changeNext_ok h with ⟨c, attempts, known, rfl, hc, rfl⟩ | ⟨rfl, rfl⟩
  · simp only [Goes]
    rw [List.append_assoc, List.append_assoc]
    apply Reached.change hn hr he
    · intro c' hc'
      rcases List.mem_append.mp hc' with hc' | hc'
      · exact hcs c' hc'
      · rw [List.mem_singleton.mp hc']
        exact hc
    · simp [hlen]
  · simp only [Goes]
    rw [List.append_assoc given]
    exact .confirm hn hr he hcs (by simp [hlen])

theorem reached_goes (h : Reached cipher profile options replacement cs rs s)
    {action : Action Bytes} (hgo : s.next cipher (some r) = (.ok action, s')) :
    Goes cipher profile options replacement cs (rs ++ [r]) s' action := by
  cases h with
  | admin =>
    obtain ⟨ha, rfl, rfl⟩ := adminNext_ok hgo
    exact .puk ha
  | puk ha =>
    obtain ⟨n, hn, hr, rfl, rfl⟩ := pukNext_ok hgo
    exact .printed ha hn hr
  | printed ha hn hr =>
    obtain ⟨key, hk, rfl, rfl⟩ := printedNext_ok hgo
    exact .managementMetadata ha hn hr hk
  | managementMetadata ha hn hr hk => exact managementMetadata_goes ha hn hr hk hgo
  | authentication ha hn hr hk ht => exact authentication_goes ha hn hr hk ht hgo
  | change hn hr he hcs hlen => exact change_goes hn hr he hcs hlen hgo
  | confirm hn hr he hcs hlen =>
    obtain ⟨hp, key, hkey, rfl⟩ := confirmNext_ok hgo
    cases hkey
    exact .confirmed rfl he hcs hlen hp

theorem begin_goes {action : Action Bytes}
    (hgo : (PinManaged.new profile options replacement).next cipher none = (.ok action, s')) :
    action = .command (getData .adminData) ∧
      Reached cipher profile options replacement [getData .adminData] [] s' := by
  cases hgo
  exact ⟨rfl, .admin⟩

end turns

theorem pinManaged_trace {cs : List LogicalCommand} {rs : List ResponseData} {s : PinManaged}
    (h : Trace (pinManagedMachine cipher) (.new profile options replacement) cs rs s) :
    Reached cipher profile options replacement cs rs s := by
  induction h with
  | opened h =>
    obtain ⟨hc, hs⟩ := begin_goes h
    cases hc
    exact hs
  | answered _ h ih => exact reached_goes ih h

/-- A key is returned after one of the two complete exchanges only. -/
theorem pinManaged_returns {cs : List LogicalCommand} {rs : List ResponseData} {s : PinManaged}
    {key : Bytes} (h : LastTurn (pinManagedMachine cipher) (.new profile options replacement)
      (.ok (.done key)) cs rs s) : Returned cipher profile options key cs rs := by
  cases h with
  | opening h =>
    obtain ⟨hc, _⟩ := @begin_goes cipher _ _ _ _ _ h
    cases hc
  | answering ht h => exact reached_goes (pinManaged_trace ht) h

theorem not_changesPuk {c : LogicalCommand} (h : c.header.ins ≠ 0x24) : ¬ ChangesPuk c :=
  fun hc => h hc.1

@[simp] theorem select_quiet : ¬ ChangesPuk select := not_changesPuk (by decide)

@[simp] theorem verifyPin_quiet (pin : Pin) : ¬ ChangesPuk (verifyPin pin) :=
  not_changesPuk (by simp [verifyPin, cmd])

@[simp] theorem getData_quiet (id : ObjectId) : ¬ ChangesPuk (getData id) :=
  not_changesPuk (by simp [getData, PivCommand.read, cmd])

@[simp] theorem metadata_quiet (reference : MetadataReference) :
    ¬ ChangesPuk (metadata reference) :=
  not_changesPuk (by simp [metadata, PivCommand.read, cmd])

@[simp] theorem authentication_quiet (a : ManagementKeyAlgorithm)
    (fields : List (UInt8 × Bytes)) : ¬ ChangesPuk (authentication a fields) :=
  not_changesPuk (by simp [authentication, cmd])

theorem cleared_quiet {auth : Option ManagementAuthentication} {cs : List LogicalCommand}
    {rs : List ResponseData} (h : Cleared cipher auth cs rs) : ∀ c ∈ cs, ¬ ChangesPuk c :=
  h.each (fun c => ¬ ChangesPuk c) select_quiet authentication_quiet

/-- No command of a preamble changes the PUK. -/
theorem preamble_quiet {access : Access} {full : List LogicalCommand} {rs : List ResponseData}
    (h : Preamble cipher access full rs) : ∀ c ∈ full, ¬ ChangesPuk c :=
  h.each (fun c => ¬ ChangesPuk c) select_quiet authentication_quiet verifyPin_quiet

theorem established_quiet {key : ManagementKey} {n : UInt8} {own : List LogicalCommand}
    {given : List ResponseData} (h : Established cipher profile options key n own given) :
    ∀ c ∈ own, ¬ ChangesPuk c := by
  obtain ⟨challenge, _, _, _⟩ := h
  simp

theorem management_quiet {auth : ManagementAuthentication} {cs : List LogicalCommand}
    {rs : List ResponseData} {m : ManagementMachine}
    (h : Trace (management cipher) (.new auth) cs rs m) : ∀ c ∈ cs, ¬ ChangesPuk c := by
  rcases management_trace h with ⟨rfl, _, _⟩ | ⟨b, rfl, _, _⟩
  · simp [firstCommand]
  · simp [firstCommand, secondCommand]

/-- A command that changes the PUK comes after the exchanges that establish the key. -/
theorem reached_change {cs before after : List LogicalCommand} {rs : List ResponseData}
    {s : PinManaged} {c : LogicalCommand}
    (h : Reached cipher profile options replacement cs rs s) (hcs : cs = before ++ c :: after)
    (hc : ChangesPuk c) :
    replacement.isSome = true ∧ ∃ key n own given,
      Established cipher profile options key n own given ∧ n ≠ 0 ∧ own <+: before ∧
        given <+: rs := by
  have hmem : c ∈ cs := by simp [hcs]
  have hquiet (hall : ∀ x ∈ cs, ¬ ChangesPuk x) : False := hall c hmem hc
  cases h with
  | admin | puk | printed | managementMetadata => exact (hquiet (by simp)).elim
  | authentication _ _ _ _ ht =>
    have hcs' := management_quiet ht
    refine (hquiet ?_).elim
    intro x hx
    rcases List.mem_append.mp hx with hx | hx
    · simp only [List.mem_cons, List.not_mem_nil, or_false] at hx
      rcases hx with rfl | rfl | rfl | rfl <;> simp
    · exact hcs' x hx
  | change hn hr he hcs' hlen =>
    exact ⟨hr, _, _, _, _, he, hn, prefix_before (established_quiet he) hcs hc,
      List.prefix_append _ _⟩
  | confirm hn hr he hcs' hlen =>
    rw [List.append_assoc] at hcs
    exact ⟨hr, _, _, _, _, he, hn, prefix_before (established_quiet he) hcs hc,
      List.prefix_append _ _⟩

/-- What every run of an operation keeps to. -/
structure Guarded (cipher : BlockCipher) (profile : DeviceProfile) (blockPuk : Option Bytes)
    (access : Access) (options : OperationOptions) (s : Recorded (Selected PinManaged) Bytes) :
    Prop where
  change : ∀ before c after, s.commands = before ++ c :: after → ChangesPuk c →
    blockPuk.isSome = true ∧ ∃ key n pre answers own given,
      Preamble cipher access pre answers ∧
        Established cipher profile options key n own given ∧ n ≠ 0 ∧
        (pre ++ own).map (explicitLe profile.legacyExplicitLe) <+: before ∧
        answers ++ given <+: s.responses
  returned : ∀ key, s.op.result = .ok key ∨ s.op.takeResult.1 = .ok key →
    ∃ pre answers own given, Preamble cipher access pre answers ∧
      Returned cipher profile options key own given ∧
      s.commands = (pre ++ own).map (explicitLe profile.legacyExplicitLe) ∧
      s.responses = answers ++ given

section operations

variable {access : Access} {history : List (Call × Reply Bytes)}
  {s : Recorded (Selected PinManaged) Bytes} {legacy : Bool}

theorem follows_change
    (h : Follows (selectedMachine cipher (pinManagedMachine cipher))
      (.new legacy access (.new profile options replacement)) options history s)
    {before after : List LogicalCommand} {c : LogicalCommand}
    (hcs : s.commands = before ++ c :: after) (hc : ChangesPuk c) :
    replacement.isSome = true ∧ ∃ key n pre answers own given,
      Preamble cipher access pre answers ∧
        Established cipher profile options key n own given ∧ n ≠ 0 ∧
        (pre ++ own).map (explicitLe legacy) <+: before ∧
        answers ++ given <+: s.responses := by
  obtain ⟨pre, own, hmap, ⟨full, _, hp, hpre⟩, htarget⟩ := follows_commands h
  rw [hcs] at hmap
  obtain ⟨before', rest, hsplit, rfl, hrest⟩ := List.map_eq_append_iff.mp hmap.symm
  obtain ⟨c', after', rfl, rfl, _⟩ := List.map_eq_cons_iff.mp hrest
  have hc' : ChangesPuk c' := by
    rw [ChangesPuk, explicitLe_header] at hc
    exact hc
  have hquiet : ∀ x ∈ pre, ¬ ChangesPuk x := fun x hx => preamble_quiet hp x (hpre.subset hx)
  obtain ⟨before, rfl⟩ := prefix_before hquiet hsplit hc'
  rw [List.append_assoc] at hsplit
  have hown : own = before ++ c' :: after' := List.append_cancel_left hsplit
  have hne : own ≠ [] := by simp [hown]
  obtain ⟨_, answers, given, t, hpre', hgiven, ht⟩ := htarget hne
  obtain ⟨hr, key, n, own', given', he, hn, hbefore, hanswers⟩ :=
    reached_change (pinManaged_trace ht) hown hc'
  refine ⟨hr, key, n, pre, answers, own', given', hpre', he, hn, ?_, ?_⟩
  · exact ((List.prefix_append_right_inj pre).mpr hbefore).map _
  · exact ((List.prefix_append_right_inj answers).mpr hanswers).trans hgiven

theorem follows_returned
    (h : Follows (selectedMachine cipher (pinManagedMachine cipher))
      (.new legacy access (.new profile options replacement)) options history s)
    {key : Bytes} (hs : s.op.state = .completed) (hv : s.op.output = some key) :
    ∃ pre answers own given, Preamble cipher access pre answers ∧
      Returned cipher profile options key own given ∧
      s.commands = (pre ++ own).map (explicitLe legacy) ∧ s.responses = answers ++ given := by
  obtain ⟨m, value, ht, _, hout⟩ := h.standing.of_finished (Or.inl hs)
  cases hv.symm.trans (hout hs)
  obtain ⟨pre, own, answers, given, hp, hcs, hrs, hlast⟩ := selected_done ht
  exact ⟨pre, answers, own, given, hp, pinManaged_returns hlast, hcs, hrs⟩

end operations

theorem pinManaged_eq_ok {blockPuk : Option Bytes} {access : Access}
    {op : Operation (Selected PinManaged) Bytes}
    (h : pinManaged profile blockPuk access options = .ok op) :
    ∃ replacement, replacement.isSome = blockPuk.isSome ∧
      withAccess profile access (.new profile options replacement) options = .ok op := by
  obtain ⟨_, _, h⟩ := bind_eq_ok.mp h
  obtain ⟨_, _, h⟩ := bind_eq_ok.mp h
  obtain ⟨replacement, hr, h⟩ := bind_eq_ok.mp h
  refine ⟨replacement, ?_, h⟩
  cases blockPuk with
  | none =>
    cases hr
    rfl
  | some bytes =>
    obtain ⟨_, _, hr⟩ := map_eq_ok.mp hr
    rw [← hr]
    rfl

/-- The PUK is changed and a key returned only after everything that each requires. -/
theorem pin_managed_guards_puk {blockPuk : Option Bytes} {access : Access}
    {op : Operation (Selected PinManaged) Bytes}
    (h : pinManaged profile blockPuk access options = .ok op) (calls : List Call) :
    Guarded cipher profile blockPuk access options
      (recorded (selectedMachine cipher (pinManagedMachine cipher)) op calls) := by
  obtain ⟨replacement, hsome, hop⟩ := pinManaged_eq_ok h
  obtain ⟨_, hop⟩ := withAccess_eq_ok.mp hop
  have hf := recorded_follows (selectedMachine cipher (pinManagedMachine cipher)) hop calls
  refine ⟨?_, ?_⟩
  · intro before c after hcs hc
    rw [← hsome]
    exact follows_change hf hcs hc
  · intro key hkey
    obtain ⟨hs, hv⟩ : (recorded (selectedMachine cipher (pinManagedMachine cipher)) op
        calls).op.state = .completed ∧ (recorded (selectedMachine cipher
          (pinManagedMachine cipher)) op calls).op.output = some key :=
      returned_output hkey
    exact follows_returned hf hs hv

/-- Answers of a card whose PUK has one try left and is blocked by one guess. -/
def exampleAnswers : List Call :=
  [.start, .advance [0x53, 5, 0x80, 3, 0x81, 1, 3, 0x90, 0], .advance [6, 2, 3, 1, 0x90, 0],
    .advance ([0x53, 28, 0x88, 26, 0x89, 24] ++ exampleKey.bytes ++ [0x90, 0]),
    .advance [1, 1, 10, 0x90, 0],
    .advance ([0x7c, 18, 0x81, 16] ++ exampleChallenge.1 ++ [0x90, 0]), .advance [0x90, 0],
    .advance [0x63, 0xc0], .advance [6, 2, 3, 0, 0x90, 0]]

/-- One guess is sent and the key of PRINTED comes back. -/
theorem pin_managed_guards_puk_once :
    ∃ op, pinManaged exampleProfile (some [1, 2, 3, 4, 5, 6, 7, 8]) .existing {} = .ok op ∧
      (recorded (selectedMachine exampleCipher (pinManagedMachine exampleCipher)) op
        exampleAnswers).commands[6]? = some (change 0x24 0x81 (eightDigits 0)
          [0x31, 0x32, 0x33, 0x34, 0x35, 0x36, 0x37, 0x38]) ∧
      (recorded (selectedMachine exampleCipher (pinManagedMachine exampleCipher)) op
        exampleAnswers).op.result = .ok exampleKey.bytes ∧
      Guarded exampleCipher exampleProfile (some [1, 2, 3, 4, 5, 6, 7, 8]) .existing {}
        (recorded (selectedMachine exampleCipher (pinManagedMachine exampleCipher)) op
          exampleAnswers) := by
  have hop : pinManaged exampleProfile (some [1, 2, 3, 4, 5, 6, 7, 8]) .existing {} = .ok _ := rfl
  exact ⟨_, hop, rfl, rfl, pin_managed_guards_puk hop exampleAnswers⟩

end PivPinManagedSafety
