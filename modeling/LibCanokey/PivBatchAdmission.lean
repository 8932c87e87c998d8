import LibCanokey.PivBatch

/-! # What a batch admits

The order of the requests that every accepted batch keeps to, from what the admission loop
remembers of the requests behind it. -/
namespace PivBatchAdmission

open BigEndian CheckedCursor ListTraversal ProtocolError ProtocolConversation ProtocolOperation
open CompatProfile PivCommand PivManagement PivAccess PivPrivate PivBatch

/-- An explicit management authentication that no retry reset has cleared since. -/
def Authenticated (before : List BatchRequest) : Prop :=
  ∃ earlier auth between, before = earlier ++ .authenticateManagement auth :: between ∧
    ∀ r ∈ between, r.isRetryReset = false

def Verified (before : List BatchRequest) : Prop :=
  ∃ earlier pin, before = earlier ++ [.verifyPin pin]

/-- A request where an accepted batch may have it, between what comes before and after it. -/
structure Allowed (before : List BatchRequest) (request : BatchRequest)
    (after : List BatchRequest) : Prop where
  mutation : request.mutates = true → Authenticated before
  retryReset : request.isRetryReset = true → Verified before
  configWrite : request.isConfigWrite = true → after = []

/-- What the flags of the loop say about the requests behind it. -/
structure Tracks (before : List BatchRequest) (a : Admission) : Prop where
  management : a.management = true → Authenticated before
  previousVerify : a.previousVerify = true → Verified before

theorem tracks_nil : Tracks [] {} := by
  refine ⟨?_, ?_⟩
  · intro h
    cases h
  · intro h
    cases h

theorem Authenticated.concat {before : List BatchRequest} (h : Authenticated before)
    {request : BatchRequest} (hreset : request.isRetryReset = false) :
    Authenticated (before ++ [request]) := by
  obtain ⟨earlier, auth, between, rfl, hbetween⟩ := h
  refine ⟨earlier, auth, between ++ [request], by simp, ?_⟩
  intro r hr
  rcases List.mem_append.mp hr with hr | hr
  · exact hbetween r hr
  · rw [List.mem_singleton.mp hr]
    exact hreset

theorem isAuthentication_eq_true {request : BatchRequest} (h : request.isAuthentication = true) :
    ∃ auth, request = .authenticateManagement auth := by
  cases request with
  | authenticateManagement auth => exact ⟨auth, rfl⟩
  | _ => cases h

theorem isVerifyPin_eq_true {request : BatchRequest} (h : request.isVerifyPin = true) :
    ∃ pin, request = .verifyPin pin := by
  cases request with
  | verifyPin pin => exact ⟨pin, rfl⟩
  | _ => cases h

section loop

variable {P : Primitives} {profile : DeviceProfile} {options : OperationOptions}
  {a a' : Admission} {request : BatchRequest} {requests : List BatchRequest} {last : Bool}

theorem add_eq_ok : a.add P profile options request last = .ok a' ↔
    a.refuses request last = false ∧ ∃ machine, request.prepare P profile options = .ok machine ∧
      a' = ⟨a.pending ++ [machine], a.managementAfter request, request.isVerifyPin⟩ := by
  rw [Admission.add]
  constructor
  · intro h
    split_ifs at h with hr
    cases hp : request.prepare P profile options with
    | error e => rw [hp] at h; cases h
    | ok machine =>
      rw [hp] at h
      cases h
      exact ⟨by simpa using hr, machine, rfl, rfl⟩
  · rintro ⟨hr, machine, hp, rfl⟩
    rw [if_neg (by simp [hr]), hp]

theorem admitAll_cons : admitAll P profile options a (request :: requests) = .ok a' ↔
    ∃ b, a.add P profile options request requests.isEmpty = .ok b ∧
      admitAll P profile options b requests = .ok a' := by
  rw [admitAll]
  cases a.add P profile options request requests.isEmpty with
  | error e => simp
  | ok b => simp

theorem refuses_eq_false : a.refuses request last = false ↔
    (request.isRetryReset = true → a.previousVerify = true) ∧
      (request.isConfigWrite = true → last = true) ∧
      (request.mutates = true → a.management = true) := by
  simp only [Admission.refuses, Bool.or_eq_false_iff, Bool.and_eq_false_iff, Bool.not_eq_false',
    and_assoc]
  constructor
  · rintro ⟨hr, hc, hm⟩
    refine ⟨fun h => ?_, fun h => ?_, fun h => ?_⟩
    · simpa [h] using hr
    · simpa [h] using hc
    · simpa [h] using hm
  · rintro ⟨hr, hc, hm⟩
    refine ⟨?_, ?_, ?_⟩
    · by_cases h : request.isRetryReset = true
      · exact Or.inr (hr h)
      · exact Or.inl (by simpa using h)
    · by_cases h : request.isConfigWrite = true
      · exact Or.inr (hc h)
      · exact Or.inl (by simpa using h)
    · by_cases h : request.mutates = true
      · exact Or.inr (hm h)
      · exact Or.inl (by simpa using h)

/-- One turn of the loop keeps the flags true of one more request. -/
theorem Tracks.add {before : List BatchRequest} (h : Tracks before a)
    (hadd : a.add P profile options request last = .ok a') : Tracks (before ++ [request]) a' := by
  obtain ⟨_, machine, _, rfl⟩ := add_eq_ok.mp hadd
  refine ⟨?_, ?_⟩
  · intro hm
    simp only [Admission.managementAfter] at hm
    split_ifs at hm with hreset hauth
    · obtain ⟨auth, rfl⟩ := isAuthentication_eq_true hauth
      exact ⟨before, auth, [], rfl, fun r hr => (List.not_mem_nil hr).elim⟩
    · exact (h.management hm).concat (by simpa using hreset)
  · intro hv
    obtain ⟨pin, rfl⟩ := isVerifyPin_eq_true hv
    exact ⟨before, pin, rfl⟩

/-- The loop over the remaining requests, by induction on them; the flags carry what was
behind the request that is checked. -/
theorem admitAll_allowed {before : List BatchRequest} (h : Tracks before a)
    (hloop : admitAll P profile options a requests = .ok a') :
    ∀ front r after, requests = front ++ r :: after → Allowed (before ++ front) r after := by
  induction requests generalizing before a with
  | nil =>
    intro front r after heq
    simp at heq
  | cons request requests ih =>
    obtain ⟨b, hadd, hrest⟩ := admitAll_cons.mp hloop
    have htracks := h.add hadd
    intro front r after heq
    cases front with
    | nil =>
      obtain ⟨rfl, rfl⟩ := List.cons.inj heq
      obtain ⟨hrefuses, _⟩ := add_eq_ok.mp hadd
      obtain ⟨hreset, hconfig, hmutates⟩ := refuses_eq_false.mp hrefuses
      rw [List.append_nil]
      refine ⟨fun hm => h.management (hmutates hm), fun hr => h.previousVerify (hreset hr), ?_⟩
      intro hc
      exact List.isEmpty_iff.mp (hconfig hc)
    | cons first front =>
      rw [List.cons_append] at heq
      obtain ⟨rfl, htail⟩ := List.cons.inj heq
      have hallowed := ih htracks hrest front r after htail
      rwa [List.append_assoc] at hallowed

/-- The machines of the admitted requests, in their order. -/
abbrev Prepared (P : Primitives) (profile : DeviceProfile) (options : OperationOptions) :
    List BatchRequest → List (Boxed BatchItem) → Prop :=
  List.Forall₂ fun request machine => request.prepare P profile options = .ok machine

theorem admitAll_prepared (hloop : admitAll P profile options a requests = .ok a') :
    ∃ machines, Prepared P profile options requests machines ∧
      a'.pending = a.pending ++ machines := by
  induction requests generalizing a with
  | nil =>
    cases hloop
    exact ⟨[], .nil, (List.append_nil _).symm⟩
  | cons request requests ih =>
    obtain ⟨b, hadd, hrest⟩ := admitAll_cons.mp hloop
    obtain ⟨_, machine, hp, rfl⟩ := add_eq_ok.mp hadd
    obtain ⟨machines, hmachines, hpending⟩ := ih hrest
    refine ⟨machine :: machines, .cons hp hmachines, ?_⟩
    rw [hpending, List.append_assoc]
    rfl

end loop

/-- Every request of an accepted batch stands where it is allowed. -/
def Admitted (requests : List BatchRequest) : Prop :=
  ∀ before request after, requests = before ++ request :: after → Allowed before request after

section batch

variable {P : Primitives} {profile : DeviceProfile} {options : OperationOptions}
  {requests : List BatchRequest}

theorem batch_eq_ok {op : Operation (Selected BatchMachine) BatchResults} :
    batch P profile requests options = .ok op ↔
      checkRequests profile requests options = .ok () ∧
      ∃ a, admitAll P profile options {} requests = .ok a ∧
        withAccess profile .none (BatchMachine.new a.pending options) options = .ok op := by
  rw [batch]
  cases checkRequests profile requests options with
  | error e => simp
  | ok u =>
    cases admitAll P profile options {} requests with
    | error e => simp
    | ok a => simp

/-- An accepted batch: where its requests stand and what it runs. -/
theorem batch_admitted {op : Operation (Selected BatchMachine) BatchResults}
    (h : batch P profile requests options = .ok op) :
    Admitted requests ∧ ∃ machines, Prepared P profile options requests machines ∧
      withAccess profile .none (BatchMachine.new machines options) options = .ok op := by
  obtain ⟨_, a, hloop, hop⟩ := batch_eq_ok.mp h
  refine ⟨?_, ?_⟩
  · exact admitAll_allowed tracks_nil hloop
  · obtain ⟨machines, hmachines, hpending⟩ := admitAll_prepared hloop
    refine ⟨machines, hmachines, ?_⟩
    rw [List.nil_append] at hpending
    rwa [← hpending]

end batch

end PivBatchAdmission
