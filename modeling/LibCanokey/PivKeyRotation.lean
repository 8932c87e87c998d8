import LibCanokey.PivAccessOrdering
import LibCanokey.PivObjectStore

/-! # Rotation of a protected management key

What has been exposed and answered at every stage of a rotation, and where the key and the
PRINTED copy of a card stand that applies whatever it acknowledges. -/
namespace PivKeyRotation

open BigEndian CheckedCursor ListTraversal ProtocolError ProtocolApdu ProtocolConversation
open ProtocolOperation ScriptedRuns ProtocolTranscript ProtocolTlv ProtocolTlvRoundTrip
open ProtocolTlvFields CompatProfile PivCommand PivManagement PivManagementAuthentication
open PivAccess PivAccessOrdering PivProtection PivWrite PivObjectStore

section printed

theorem single_field {b : Byte} {value : Bytes} (hb : ShortTag b) (hlen : value.length < 128) :
    single (field (b, value)) b.toNat = .ok value := by
  have hfield : field (b, value) = encodeField (shortTag b hb, value) := by
    rw [encodeField, shortTag_toBytes, ← @fieldBytes_short (b, value) hlen]
    rfl
  have hsize : (encodeField (shortTag b hb, value)).length ≤ usizeMax := by
    have := usizeMax_large
    rw [← hfield, length_field]
    dsimp only
    omega
  have hword : value.length < 2 ^ 32 := Nat.lt_of_lt_of_le hlen (by decide)
  have hsole := @sole_complete (.newBer (field (b, value)) protectionLimits)
    (fun f => f.tag.value == b.toNat) malformed (shortTag b hb, value) hfield
    ⟨hword, hsize, Nat.le_of_lt hlen⟩ (show 1 ≤ 4 by decide) (by simp [shortTag])
  rw [single, hsole]

/-- The object written to PRINTED. -/
def printedObject (key : ManagementKey) : Bytes := fieldBytes [0x53] (printedValue key)

theorem printedObject_eq (key : ManagementKey) :
    printedObject key = field (0x53, field (0x88, field (0x89, key.bytes))) := by
  have hvalue : printedValue key = field (0x88, field (0x89, key.bytes)) := by
    simp [printedValue, field, key.full]
  rw [printedObject, hvalue]
  exact @fieldBytes_short (0x53, _) (by simp [length_field, key.full])

/-- The parser of PRINTED returns the key that was written. -/
theorem printedObject_decodes (key : ManagementKey) :
    protectedManagementKeyFromObject (printedObject key) = .ok key.bytes := by
  have hkey := key.full
  have h89 : (field (0x89, key.bytes)).length = 26 := by simp [length_field, hkey]
  have h88 : (field (0x88, field (0x89, key.bytes))).length = 28 := by simp [length_field, hkey]
  have hobject : (printedObject key).length = 30 := by
    simp [printedObject_eq, length_field, hkey]
  have houter : single (printedObject key) 0x53 = .ok (field (0x88, field (0x89, key.bytes))) := by
    rw [printedObject_eq]
    exact @single_field 0x53 _ (by decide) (by omega)
  have hmiddle : single (field (0x88, field (0x89, key.bytes))) 0x88 =
      .ok (field (0x89, key.bytes)) := @single_field 0x88 _ (by decide) (by omega)
  have hinner : single (field (0x89, key.bytes)) 0x89 = .ok key.bytes :=
    @single_field 0x89 _ (by decide) (by omega)
  rw [protectedManagementKeyFromObject, if_neg (by omega), houter]
  change (single _ 0x88 >>= _) = _
  rw [hmiddle]
  change (single _ 0x89 >>= _) = _
  rw [hinner]
  exact if_neg (not_not.mpr hkey)

end printed

section machine

variable {cipher : BlockCipher} {key : ManagementKey} {replace put : LogicalCommand}

/-- A sequence of one mutating command, before and after it is sent. -/
def mutating (command : LogicalCommand) : Sequence MutationResult :=
  ⟨[request command .command none], none, some mutation⟩

def mutated : Sequence MutationResult := ⟨[], some (.command, none), some mutation⟩

theorem mutated_next (r : ResponseData) :
    mutated.next (some r) = ((mutation r).map .done, { mutated with parse := none }) := rfl

theorem mutation_eq_ok {r : ResponseData} {result : MutationResult} :
    mutation r = .ok result ↔ r = success [] ∧ result = unchanged := by
  rw [mutation]
  constructor
  · intro h
    obtain ⟨_, hok, h⟩ := bind_eq_ok.mp h
    have hsuccess := eq_success (ensureSuccess_eq_ok.mp hok)
    split_ifs at h with hdata
    cases h
    refine ⟨?_, rfl⟩
    rw [hsuccess, not_not.mp hdata]
  · rintro ⟨rfl, rfl⟩
    rfl

/-- The rotation as it is prepared. -/
def rotation (key : ManagementKey) (replace put : LogicalCommand) : RotateManagement :=
  ⟨0, false, mutating replace, .new (.external key), mutating put⟩

/-- What was read before the key is replaced: ADMIN DATA, and PRINTED when that claims it. -/
inductive Inspected : Bool → List LogicalCommand → List ResponseData → Prop where
  | plain {admin : ResponseData} (ha : protection false admin = .ok false) :
      Inspected false [getData .adminData] [admin]
  | protecting {admin printed : ResponseData} {stored : Bytes}
      (ha : protection false admin = .ok true) (hp : storedKey printed = .ok stored) :
      Inspected true [getData .adminData, getData .printed] [admin, printed]

/-- The commands of a fresh external authentication with the new key, and their answers. -/
def authenticated (cipher : BlockCipher) (key : ManagementKey) (b : Block key.algorithm) :
    List LogicalCommand × List ResponseData :=
  ([firstCommand (.external key), secondCommand cipher (.external key) b],
    [firstReply (.external key) b, finalReply cipher (.external key)])

/-- What a rotation has exposed and was answered when it waits for the next answer. -/
inductive Rotating (cipher : BlockCipher) (key : ManagementKey) (replace put : LogicalCommand) :
    List LogicalCommand → List ResponseData → RotateManagement → Prop where
  | asking : Rotating cipher key replace put [getData .adminData] []
      ⟨1, false, mutating replace, .new (.external key), mutating put⟩
  | reading {admin : ResponseData} (ha : protection false admin = .ok true) :
      Rotating cipher key replace put [getData .adminData, getData .printed] [admin]
        ⟨2, true, mutating replace, .new (.external key), mutating put⟩
  | replacing {protecting : Bool} {cs : List LogicalCommand} {rs : List ResponseData}
      (hi : Inspected protecting cs rs) :
      Rotating cipher key replace put (cs ++ [replace]) rs
        ⟨3, protecting, mutated, .new (.external key), mutating put⟩
  | authenticating {cs auth : List LogicalCommand} {rs answers : List ResponseData}
      {r : Sequence MutationResult} {m : ManagementMachine} (hi : Inspected true cs rs)
      (ht : Trace (management cipher) (.new (.external key)) auth answers m) :
      Rotating cipher key replace put (cs ++ replace :: auth) (rs ++ success [] :: answers)
        ⟨4, true, r, m, mutating put⟩
  | storing {cs : List LogicalCommand} {rs : List ResponseData} {b : Block key.algorithm}
      {r : Sequence MutationResult} {m : ManagementMachine} (hi : Inspected true cs rs) :
      Rotating cipher key replace put
        (cs ++ replace :: ((authenticated cipher key b).1 ++ [put]))
        (rs ++ success [] :: (authenticated cipher key b).2) ⟨5, true, r, m, mutated⟩

/-- What a rotation has exposed and was answered when it is done. -/
inductive Rotated (cipher : BlockCipher) (key : ManagementKey) (replace put : LogicalCommand) :
    List LogicalCommand → List ResponseData → Prop where
  | plain {cs : List LogicalCommand} {rs : List ResponseData} (hi : Inspected false cs rs) :
      Rotated cipher key replace put (cs ++ [replace]) (rs ++ [success []])
  | protecting {cs : List LogicalCommand} {rs : List ResponseData} {b : Block key.algorithm}
      (hi : Inspected true cs rs) :
      Rotated cipher key replace put (cs ++ replace :: ((authenticated cipher key b).1 ++ [put]))
        (rs ++ success [] :: ((authenticated cipher key b).2 ++ [success []]))

/-- A turn of the rotation goes on with a command, or it fails or finishes. -/
def Turned (cipher : BlockCipher) (key : ManagementKey) (replace put : LogicalCommand)
    (cs : List LogicalCommand) (rs : List ResponseData) (turn : RotateTurn) : Prop :=
  match turn.1 with
  | .ok (.command c) => Rotating cipher key replace put (cs ++ [c]) rs turn.2
  | .ok (.done _) => Rotated cipher key replace put cs rs
  | .error _ => True

/-- The replacement is sent as soon as everything before it was read. -/
theorem replace_turned {protecting : Bool} {cs : List LogicalCommand} {rs : List ResponseData}
    (hi : Inspected protecting cs rs) :
    Turned cipher key replace put cs rs
      (RotateManagement.replacementNext cipher
        ⟨3, protecting, mutating replace, .new (.external key), mutating put⟩ none) :=
  .replacing hi

theorem admin_turned (r : ResponseData) :
    Turned cipher key replace put [getData .adminData] [r]
      (RotateManagement.adminRead cipher
        ⟨1, false, mutating replace, .new (.external key), mutating put⟩ r) := by
  rw [RotateManagement.adminRead]
  cases hp : protection false r with
  | error e => trivial
  | ok protecting =>
    cases protecting with
    | true => exact .reading hp
    | false => exact replace_turned (.plain hp)

theorem printed_turned {admin r : ResponseData} (ha : protection false admin = .ok true) :
    Turned cipher key replace put [getData .adminData, getData .printed] [admin, r]
      (RotateManagement.printedRead cipher
        ⟨2, true, mutating replace, .new (.external key), mutating put⟩ r) := by
  rw [RotateManagement.printedRead]
  cases hp : storedKey r with
  | error e => trivial
  | ok stored => exact replace_turned (.protecting ha hp)

/-- An acknowledged replacement ends an unprotected rotation and starts the authentication of a
protected one. -/
theorem replaced_turned {protecting : Bool} {cs : List LogicalCommand} {rs : List ResponseData}
    (hi : Inspected protecting cs rs) (r : ResponseData) :
    Turned cipher key replace put (cs ++ [replace]) (rs ++ [r])
      (RotateManagement.replacementNext cipher
        ⟨3, protecting, mutated, .new (.external key), mutating put⟩ (some r)) := by
  simp only [RotateManagement.replacementNext]
  rw [mutated_next]
  cases hr : mutation r with
  | error e => trivial
  | ok result =>
    obtain ⟨rfl, rfl⟩ := mutation_eq_ok.mp hr
    cases protecting with
    | false => exact .plain hi
    | true =>
      have hbegin := @next_begin cipher (.external key) none
      have hfirst : Rotating cipher key replace put
          (cs ++ replace :: [firstCommand (.external key)]) (rs ++ success [] :: [])
          ⟨4, true, { mutated with parse := none }, ⟨.external key, 1⟩,
            mutating put⟩ := .authenticating hi (.opened hbegin)
      rw [show cs ++ replace :: [firstCommand (.external key)] =
        cs ++ [replace] ++ [firstCommand (.external key)] by simp] at hfirst
      simp only [Except.map, RotateManagement.authenticationNext]
      rw [if_neg (by decide), show ManagementMachine.next cipher (.new (.external key)) none = _
        from hbegin]
      exact hfirst

/-- A completed authentication is followed by the write of PRINTED. -/
theorem authenticating_turned {cs auth : List LogicalCommand} {rs answers : List ResponseData}
    {q : Sequence MutationResult} {m : ManagementMachine} (hi : Inspected true cs rs)
    (ht : Trace (management cipher) (.new (.external key)) auth answers m) (r : ResponseData) :
    Turned cipher key replace put (cs ++ replace :: auth) (rs ++ success [] :: answers ++ [r])
      (RotateManagement.authenticationNext cipher ⟨4, true, q, m, mutating put⟩ (some r)) := by
  simp only [RotateManagement.authenticationNext]
  rcases hn : m.next cipher (some r) with ⟨e | c | ⟨⟩, m'⟩
  · trivial
  · have hnext : Rotating cipher key replace put (cs ++ replace :: (auth ++ [c]))
        (rs ++ success [] :: (answers ++ [r])) ⟨4, true, q, m', mutating put⟩ :=
      .authenticating hi (.answered ht hn)
    rw [← List.cons_append, ← List.append_assoc, ← List.cons_append, ← List.append_assoc] at hnext
    exact hnext
  · obtain ⟨b, hcs, hrs, _⟩ := (completes_iff (u := ())).mp (.answering ht hn)
    have hstore : Rotating cipher key replace put (cs ++ replace :: (auth ++ [put]))
        (rs ++ success [] :: (answers ++ [r])) ⟨5, true, q, m', mutated⟩ := by
      rw [hcs, hrs]
      exact .storing hi
    rw [← List.cons_append, ← List.append_assoc, ← List.cons_append, ← List.append_assoc] at hstore
    exact hstore

theorem storing_turned {cs : List LogicalCommand} {rs : List ResponseData}
    {b : Block key.algorithm} {q : Sequence MutationResult} {m : ManagementMachine}
    (hi : Inspected true cs rs) (r : ResponseData) :
    Turned cipher key replace put (cs ++ replace :: ((authenticated cipher key b).1 ++ [put]))
      (rs ++ success [] :: (authenticated cipher key b).2 ++ [r])
      (RotateManagement.printedNext ⟨5, true, q, m, mutated⟩ (some r)) := by
  simp only [RotateManagement.printedNext]
  rw [mutated_next]
  cases hr : mutation r with
  | error e => trivial
  | ok result =>
    obtain ⟨rfl, rfl⟩ := mutation_eq_ok.mp hr
    rw [List.append_assoc rs, List.cons_append]
    exact .protecting hi

theorem rotating_turned {cs : List LogicalCommand} {rs : List ResponseData}
    {s : RotateManagement} (h : Rotating cipher key replace put cs rs s) (r : ResponseData) :
    Turned cipher key replace put cs (rs ++ [r]) (s.next cipher (some r)) := by
  cases h with
  | asking => exact admin_turned r
  | reading ha => exact printed_turned ha
  | replacing hi => exact replaced_turned hi r
  | authenticating hi ht => exact authenticating_turned hi ht r
  | storing hi => exact storing_turned hi r

theorem rotating_next {cs : List LogicalCommand} {rs : List ResponseData} {s : RotateManagement}
    {m : Replacing} {r : ResponseData} {result : Except Error (Action MutationResult)}
    (h : Rotating cipher key replace put cs rs s)
    (hn : (replacing cipher).next (.rotating s) (some r) = (result, m)) :
    ∃ t, m = .rotating t ∧ Turned cipher key replace put cs (rs ++ [r]) (result, t) := by
  obtain ⟨rfl, rfl⟩ := Prod.mk.inj hn
  exact ⟨_, rfl, rotating_turned h r⟩

/-- A trace of the rotation is one of its stages. -/
theorem rotation_trace {cs : List LogicalCommand} {rs : List ResponseData} {m : Replacing}
    (h : Trace (replacing cipher) (.rotating (rotation key replace put)) cs rs m) :
    ∃ t, m = .rotating t ∧ Rotating cipher key replace put cs rs t := by
  induction h with
  | opened h =>
    cases h
    exact ⟨_, rfl, .asking⟩
  | answered _ h ih =>
    obtain ⟨t, rfl, ht⟩ := ih
    obtain ⟨t', rfl, hturn⟩ := rotating_next ht h
    exact ⟨t', rfl, hturn⟩

theorem rotation_done {cs : List LogicalCommand} {rs : List ResponseData} {m : Replacing}
    {value : MutationResult}
    (h : LastTurn (replacing cipher) (.rotating (rotation key replace put)) (.ok (.done value))
      cs rs m) : Rotated cipher key replace put cs rs := by
  cases h with
  | opening h => cases h
  | answering ht h =>
    obtain ⟨t, rfl, hrotating⟩ := rotation_trace ht
    obtain ⟨t', rfl, hturn⟩ := rotating_next hrotating h
    exact hturn

end machine

/-- A card: its management key with the algorithm, and its objects. -/
structure Card where
  key : UInt8 × Bytes
  objects : ObjectStore

/-- What the two mutating commands of a rotation do to a card. -/
def Card.apply (k : Card) (c : LogicalCommand) : Card :=
  match c.header.ins, c.data with
  | 0xff, algorithm :: _ :: _ :: bytes => { k with key := (algorithm, bytes) }
  | 0xdb, data => { k with objects := k.objects.put data }
  | _, _ => k

/-- A card applies a command that it acknowledges, and perhaps one that it does not. -/
inductive Handles (k : Card) (c : LogicalCommand) : Option ResponseData → Card → Prop where
  | applied {answer : Option ResponseData} : Handles k c answer (k.apply c)
  | ignored {answer : Option ResponseData}
      (h : ∀ r, answer = some r → r.status.isSuccess = false) : Handles k c answer k

/-- A card under commands of which at most the last has no answer. -/
inductive CardRun : Card → List LogicalCommand → List ResponseData → Card → Prop where
  | idle (k : Card) : CardRun k [] [] k
  | answered {k k₁ k₂ : Card} {c : LogicalCommand} {r : ResponseData} {cs : List LogicalCommand}
      {rs : List ResponseData} (h : Handles k c (some r) k₁) (rest : CardRun k₁ cs rs k₂) :
      CardRun k (c :: cs) (r :: rs) k₂
  | interrupted {k k₁ : Card} {c : LogicalCommand} (h : Handles k c none k₁) : CardRun k [c] [] k₁

section card

variable {k k' : Card} {c : LogicalCommand} {r : ResponseData} {cs own : List LogicalCommand}
  {rs given : List ResponseData}

/-- A command that changes neither the key nor an object. -/
def Inert (c : LogicalCommand) : Prop := c.header.ins ≠ 0xff ∧ c.header.ins ≠ 0xdb

theorem Inert.apply (h : Inert c) : k.apply c = k := by
  obtain ⟨hkey, hput⟩ := h
  unfold Card.apply
  split
  · next heq _ => exact absurd heq hkey
  · next heq => exact absurd heq hput
  · rfl

theorem Inert.handles (h : Inert c) {answer : Option ResponseData}
    (hk : Handles k c answer k') : k' = k := by
  cases hk with
  | applied => exact h.apply
  | ignored => rfl

theorem run_inert (h : ∀ c ∈ cs, Inert c) (hrun : CardRun k cs rs k') : k' = k := by
  induction hrun with
  | idle k => rfl
  | answered hk _ ih =>
    obtain rfl := (h _ (List.mem_cons_self ..)).handles hk
    exact ih fun c hc => h c (List.mem_cons_of_mem _ hc)
  | interrupted hk => exact (h _ (List.mem_cons_self ..)).handles hk

/-- Inert commands that were answered leave the rest of the run. -/
theorem run_skip (h : ∀ c ∈ cs, Inert c) (hlen : cs.length = rs.length)
    (hrun : CardRun k (cs ++ own) (rs ++ given) k') : CardRun k own given k' := by
  induction cs generalizing rs with
  | nil =>
    obtain rfl := List.length_eq_zero_iff.mp hlen.symm
    exact hrun
  | cons c cs ih =>
    cases rs with
    | nil => cases hlen
    | cons r rs =>
      rw [List.cons_append, List.cons_append] at hrun
      generalize hrest : cs ++ own = commands at hrun
      cases hrun with
      | answered hk rest =>
        obtain rfl := (h _ (List.mem_cons_self ..)).handles hk
        rw [← hrest] at rest
        exact ih (fun c hc => h c (List.mem_cons_of_mem _ hc)) (Nat.succ.inj hlen) rest

theorem run_acknowledged (hr : r.status.isSuccess = true)
    (hrun : CardRun k (c :: cs) (r :: rs) k') : CardRun (k.apply c) cs rs k' := by
  cases hrun with
  | answered hk rest =>
    cases hk with
    | applied => exact rest
    | ignored h =>
      have hbad := h r rfl
      rw [hr] at hbad
      cases hbad

theorem run_one (hrun : CardRun k [c] rs k') : k' = k ∨ k' = k.apply c := by
  have hone {answer : Option ResponseData} {k₁ : Card} (hk : Handles k c answer k₁) :
      k₁ = k ∨ k₁ = k.apply c := by
    cases hk with
    | applied => exact Or.inr rfl
    | ignored => exact Or.inl rfl
  cases hrun with
  | answered hk rest =>
    cases rest with
    | idle => exact hone hk
  | interrupted hk => exact hone hk

theorem apply_explicitLe (legacy : Bool) : k.apply (explicitLe legacy c) = k.apply c := by
  rw [explicitLe]
  split_ifs <;> rfl

theorem handles_explicitLe {legacy : Bool} {answer : Option ResponseData}
    (hk : Handles k (explicitLe legacy c) answer k') : Handles k c answer k' := by
  cases hk with
  | applied =>
    rw [apply_explicitLe]
    exact .applied
  | ignored h => exact .ignored h

/-- Only the instruction and the data of a command matter to a card. -/
theorem run_explicitLe {legacy : Bool} (hrun : CardRun k (cs.map (explicitLe legacy)) rs k') :
    CardRun k cs rs k' := by
  generalize hmap : cs.map (explicitLe legacy) = commands at hrun
  induction hrun generalizing cs with
  | idle k =>
    obtain rfl := List.map_eq_nil_iff.mp hmap
    exact .idle k
  | answered hk _ ih =>
    obtain ⟨c, cs, rfl, rfl, hcs⟩ := List.map_eq_cons_iff.mp hmap
    exact .answered (handles_explicitLe hk) (ih hcs)
  | interrupted hk =>
    obtain ⟨c, cs, rfl, rfl, hcs⟩ := List.map_eq_cons_iff.mp hmap
    obtain rfl := List.map_eq_nil_iff.mp hcs
    exact .interrupted (handles_explicitLe hk)

end card

section rotated

variable {cipher : BlockCipher} {key : ManagementKey} {put : LogicalCommand} {touch : Bool}
  {k k' : Card} {cs : List LogicalCommand} {rs given : List ResponseData}

/-- The card with the new key and the old PRINTED. -/
def Card.replaced (k : Card) (key : ManagementKey) : Card :=
  { k with key := (key.algorithm.wireId, key.bytes) }

/-- The card with the new key in both places. -/
def Card.stored (k : Card) (key : ManagementKey) : Card :=
  { k.replaced key with
    objects := Function.update k.objects ObjectId.printed.asBytes (printedObject key) }

theorem apply_replacement : k.apply (key.replacementCommand touch) = k.replaced key := rfl

/-- The PUT DATA of a rotation. -/
def Puts (key : ManagementKey) (put : LogicalCommand) : Prop :=
  put.header.ins = 0xdb ∧ put.data = putData .printed (printedValue key)

theorem Puts.apply (h : Puts key put) : (k.replaced key).apply put = k.stored key := by
  obtain ⟨hins, hdata⟩ := h
  unfold Card.apply
  rw [hins, hdata]
  change ({ k.replaced key with objects := k.objects.put _ } : Card) = _
  rw [put_putData]
  rfl

theorem getData_inert (id : ObjectId) : Inert (getData id) :=
  ⟨show (0xcb : UInt8) ≠ 0xff by decide, show (0xcb : UInt8) ≠ 0xdb by decide⟩

theorem Inspected.inert {protecting : Bool} (h : Inspected protecting cs rs) :
    cs.length = rs.length ∧ ∀ c ∈ cs, Inert c := by
  cases h with
  | plain ha => exact ⟨rfl, by simpa using getData_inert _⟩
  | protecting ha hp =>
    refine ⟨rfl, ?_⟩
    intro c hc
    rcases List.mem_cons.mp hc with rfl | hc
    · exact getData_inert _
    · rw [List.mem_singleton.mp hc]
      exact getData_inert _

theorem authentication_inert (a : CompatProfile.ManagementKeyAlgorithm)
    (fields : List (UInt8 × Bytes)) : Inert (authentication a fields) :=
  ⟨show (0x87 : UInt8) ≠ 0xff by decide, show (0x87 : UInt8) ≠ 0xdb by decide⟩

/-- The commands of an authentication change nothing on the card. -/
theorem management_inert {auth : ManagementAuthentication} {answers : List ResponseData}
    {m : ManagementMachine} (h : Trace (management cipher) (.new auth) cs answers m) :
    ∀ c ∈ cs, Inert c := by
  intro c hc
  rcases management_trace h with ⟨rfl, _, _⟩ | ⟨b, rfl, _, _⟩
  · rw [List.mem_singleton.mp hc]
    exact authentication_inert _ _
  · rcases List.mem_cons.mp hc with rfl | hc
    · exact authentication_inert _ _
    · rw [List.mem_singleton.mp hc]
      exact authentication_inert _ _

/-- What was read before leaves a run that starts with the replacement. -/
theorem inspected_run {protecting : Bool} {own : List LogicalCommand}
    (hi : Inspected protecting cs rs) (hrun : CardRun k (cs ++ own) (rs ++ given) k') :
    CardRun k own given k' := by
  obtain ⟨hlen, hinert⟩ := hi.inert
  exact run_skip hinert hlen hrun

/-- Once the replacement is acknowledged the card has the new key. -/
theorem replaced_run {protecting : Bool} {own : List LogicalCommand}
    (hi : Inspected protecting cs rs)
    (hrun : CardRun k (cs ++ key.replacementCommand touch :: own) (rs ++ success [] :: given) k') :
    CardRun (k.replaced key) own given k' := by
  have h := run_acknowledged (success_isSuccess []) (inspected_run hi hrun)
  rw [apply_replacement] at h
  exact h

theorem authenticated_run {protecting : Bool} {b : Block key.algorithm}
    (hi : Inspected protecting cs rs)
    (hrun : CardRun k
      (cs ++ key.replacementCommand touch :: ((authenticated cipher key b).1 ++ [put]))
      (rs ++ success [] :: ((authenticated cipher key b).2 ++ given)) k') :
    CardRun (k.replaced key) [put] given k' := by
  have hauth : ∀ c ∈ (authenticated cipher key b).1, Inert c := by
    have ht := @respond_trace (.external key) cipher b
    exact management_inert ht
  have hlen : (authenticated cipher key b).1.length = (authenticated cipher key b).2.length := rfl
  have h : CardRun (k.replaced key) ((authenticated cipher key b).1 ++ [put])
      ((authenticated cipher key b).2 ++ given) k' := replaced_run hi hrun
  exact run_skip hauth hlen h

/-- The pair of keys at every stage of a rotation. -/
theorem rotating_card {s : RotateManagement} (hput : Puts key put)
    (h : Rotating cipher key (key.replacementCommand touch) put cs rs s)
    (hrun : CardRun k cs (rs ++ given) k') :
    k' = k ∨ k' = k.replaced key ∨ k' = k.stored key := by
  cases h with
  | asking =>
    refine Or.inl (run_inert ?_ hrun)
    intro c hc
    rw [List.mem_singleton.mp hc]
    exact getData_inert _
  | reading ha =>
    refine Or.inl (run_inert ?_ hrun)
    intro c hc
    rcases List.mem_cons.mp hc with rfl | hc
    · exact getData_inert _
    · rw [List.mem_singleton.mp hc]
      exact getData_inert _
  | replacing hi =>
    rcases run_one (inspected_run hi hrun) with h | h
    · exact Or.inl h
    · rw [apply_replacement] at h
      exact Or.inr (Or.inl h)
  | authenticating hi ht =>
    rw [List.append_assoc, List.cons_append] at hrun
    exact Or.inr (Or.inl (run_inert (management_inert ht) (replaced_run hi hrun)))
  | storing hi =>
    rw [List.append_assoc, List.cons_append] at hrun
    rcases run_one (authenticated_run hi hrun) with h | h
    · exact Or.inr (Or.inl h)
    · rw [hput.apply] at h
      exact Or.inr (Or.inr h)

/-- The pair of keys when a rotation is done, by whether it was protected. -/
theorem Rotated.inspected
    (h : Rotated cipher key (key.replacementCommand touch) put cs rs) :
    ∃ protecting before answers, Inspected protecting before answers ∧ before <+: cs ∧
      answers <+: rs ∧ ∀ k k', Puts key put → CardRun k cs rs k' →
        k' = if protecting then k.stored key else k.replaced key := by
  cases h with
  | plain hi =>
    refine ⟨false, _, _, hi, List.prefix_append _ _, List.prefix_append _ _, ?_⟩
    intro k k' _ hrun
    have h := replaced_run hi hrun
    cases h with
    | idle => rfl
  | protecting hi =>
    refine ⟨true, _, _, hi, List.prefix_append _ _, List.prefix_append _ _, ?_⟩
    intro k k' hput hrun
    have h := run_acknowledged (success_isSuccess []) (authenticated_run hi hrun)
    rw [hput.apply] at h
    cases h with
    | idle => rfl

end rotated

section run

variable {cipher : BlockCipher} {access : Access} {key : ManagementKey} {put : LogicalCommand}
  {touch : Bool} {options : OperationOptions} {legacy : Bool} {k k' : Card}

theorem preamble_inert {cs : List LogicalCommand} {rs : List ResponseData}
    (h : Preamble cipher access cs rs) : ∀ c ∈ cs, Inert c := by
  apply h.each Inert
  · exact ⟨show (0xa4 : UInt8) ≠ 0xff by decide, show (0xa4 : UInt8) ≠ 0xdb by decide⟩
  · exact authentication_inert
  · intro pin
    exact ⟨show (0x20 : UInt8) ≠ 0xff by decide, show (0x20 : UInt8) ≠ 0xdb by decide⟩

/-- The exposed commands of a rotation, what it was answered before each of them, and where the
card stands at every moment and when the rotation is done. -/
structure Tracks (cipher : BlockCipher) (access : Access) (key : ManagementKey)
    (replace put : LogicalCommand) (legacy : Bool)
    (s : Recorded (Selected Replacing) MutationResult) : Prop where
  exposed : ∃ pre own, s.commands = (pre ++ own).map (explicitLe legacy) ∧
    (∃ full answers, Preamble cipher access full answers ∧ pre <+: full) ∧
    (own ≠ [] → ∃ answers given t, Preamble cipher access pre answers ∧
      answers ++ given <+: s.responses ∧ Rotating cipher key replace put own given t)
  pair : ∀ k k', CardRun k s.commands s.responses k' →
    k' = k ∨ k' = k.replaced key ∨ k' = k.stored key
  done : s.op.state = .completed ∨ s.op.state = .resultTaken →
    ∃ protecting pre before own answers given rest, Preamble cipher access pre answers ∧
      Inspected protecting before given ∧
      s.commands = (pre ++ (before ++ own)).map (explicitLe legacy) ∧
      s.responses = answers ++ (given ++ rest) ∧
      ∀ k k', CardRun k s.commands s.responses k' →
        k' = if protecting then k.stored key else k.replaced key

theorem follows_tracks {history : List (Call × Reply MutationResult)}
    {s : Recorded (Selected Replacing) MutationResult} (hput : Puts key put)
    (h : Follows (selectedMachine cipher (replacing cipher))
      (.new legacy access (.rotating (rotation key (key.replacementCommand touch) put))) options
      history s) : Tracks cipher access key (key.replacementCommand touch) put legacy s := by
  obtain ⟨pre, own, hcs, hpre, hown⟩ := follows_commands h
  have hexposed (hne : own ≠ []) : ∃ answers given t, Preamble cipher access pre answers ∧
      answers ++ given <+: s.responses ∧
      Rotating cipher key (key.replacementCommand touch) put own given t := by
    obtain ⟨_, answers, given, m, hp, hrs, ht⟩ := hown hne
    obtain ⟨t, rfl, hrotating⟩ := rotation_trace ht
    exact ⟨answers, given, t, hp, hrs, hrotating⟩
  refine ⟨⟨pre, own, hcs, hpre, hexposed⟩, ?_, ?_⟩
  · intro k k' hrun
    rw [hcs] at hrun
    have hrun := run_explicitLe hrun
    by_cases hne : own = []
    · subst hne
      obtain ⟨full, answers, hp, hpre⟩ := hpre
      refine Or.inl (run_inert ?_ hrun)
      intro c hc
      rw [List.append_nil] at hc
      exact preamble_inert hp c (hpre.subset hc)
    · obtain ⟨answers, given, t, hp, ⟨rest, hrs⟩, hrotating⟩ := hexposed hne
      rw [← hrs, List.append_assoc] at hrun
      have hlen : pre.length = answers.length := by rw [hp.lengths.1, hp.lengths.2]
      exact rotating_card hput hrotating (run_skip (preamble_inert hp) hlen hrun)
  · intro hstate
    obtain ⟨m, value, hlast, _, _⟩ := h.standing.of_finished hstate
    obtain ⟨pre, own, answers, given, hp, hcs, hrs, htarget⟩ := selected_done hlast
    have hrotated := rotation_done htarget
    obtain ⟨protecting, before, read, hi, ⟨after, hafter⟩, ⟨rest, hrest⟩, hinspected⟩ :=
      hrotated.inspected
    refine ⟨protecting, pre, before, after, answers, read, rest, hp, hi, ?_, ?_, ?_⟩
    · rw [hafter, hcs]
    · rw [hrest, hrs]
    · intro k k' hrun
      rw [hcs, hrs] at hrun
      have hlen : pre.length = answers.length := by rw [hp.lengths.1, hp.lengths.2]
      exact hinspected k k' hput (run_skip (preamble_inert hp) hlen (run_explicitLe hrun))

end run

theorem prepareReplacing_rotating {profile : DeviceProfile} {key : ManagementKey}
    {touch : ManagementTouchPolicy} {options : OperationOptions} {target : Replacing}
    (h : prepareReplacing profile key touch true options = .ok target) :
    ∃ put, Puts key put ∧
      target = .rotating (rotation key (key.replacementCommand (touch == .always)) put) := by
  obtain ⟨replacement, hreplacement, h⟩ := bind_eq_ok.mp h
  rw [if_neg (by decide)] at h
  obtain ⟨s, hs, rfl⟩ := map_eq_ok.mp h
  obtain ⟨printedWrite, hprinted, hs⟩ := bind_eq_ok.mp hs
  obtain ⟨_, _, hs⟩ := bind_eq_ok.mp hs
  cases hs
  obtain ⟨put, hput, hprepared⟩ := bind_eq_ok.mp hprinted
  obtain ⟨_, rfl⟩ := prepare_eq_ok.mp hprepared
  obtain ⟨_, _, hreplacement⟩ := bind_eq_ok.mp hreplacement
  obtain ⟨_, _, hreplacement⟩ := bind_eq_ok.mp hreplacement
  split_ifs at hreplacement
  obtain ⟨_, rfl⟩ := prepare_eq_ok.mp hreplacement
  obtain ⟨hcommand, _⟩ := putCommand_eq_ok hput
  exact ⟨put, by rw [hcommand]; exact ⟨rfl, rfl⟩, rfl⟩

/-- A protected rotation never loses the key, in any run and on any card. -/
theorem rotation_tracks_key (cipher : BlockCipher) {profile : DeviceProfile} {key : ManagementKey}
    {touch : ManagementTouchPolicy} {access : Access} {options : OperationOptions}
    {op : Operation (Selected Replacing) MutationResult}
    (h : setManagementKey profile key touch true access options = .ok op) :
    (∀ k : Card, protectedManagementKeyFromObject
      ((k.stored key).objects ObjectId.printed.asBytes) = .ok key.bytes) ∧
    ∃ put, Puts key put ∧ ∀ calls, Tracks cipher access key
      (key.replacementCommand (touch == .always)) put profile.legacyExplicitLe
      (recorded (selectedMachine cipher (replacing cipher)) op calls) := by
  obtain ⟨_, _, h⟩ := bind_eq_ok.mp h
  obtain ⟨target, htarget, hop⟩ := bind_eq_ok.mp h
  obtain ⟨put, hput, rfl⟩ := prepareReplacing_rotating htarget
  obtain ⟨_, hop⟩ := withAccess_eq_ok.mp hop
  refine ⟨?_, put, hput, ?_⟩
  · intro k
    simp only [Card.stored, Function.update_self]
    exact printedObject_decodes key
  · intro calls
    exact follows_tracks hput (recorded_follows _ hop calls)

def exampleKey : ManagementKey := ⟨.aes192, List.replicate 24 0x5a, rfl⟩

/-- ADMIN DATA is absent: the replacement follows at once and ends the rotation. -/
theorem rotation_tracks_key_plain :
    ∃ op, setManagementKey exampleProfile exampleKey .never true .existing {} = .ok op ∧
      (recorded (selectedMachine exampleCipher (replacing exampleCipher)) op
        [.start, .advance [0x6a, 0x82], .advance [0x90, 0]]).commands =
          [getData .adminData, exampleKey.replacementCommand false] ∧
      (∀ k : Card, protectedManagementKeyFromObject
        ((k.stored exampleKey).objects ObjectId.printed.asBytes) = .ok exampleKey.bytes) ∧
      ∃ put, Puts exampleKey put ∧ ∀ calls, Tracks exampleCipher .existing exampleKey
        (exampleKey.replacementCommand false) put false
        (recorded (selectedMachine exampleCipher (replacing exampleCipher)) op calls) := by
  have hop : setManagementKey exampleProfile exampleKey .never true .existing {} = .ok _ := rfl
  exact ⟨_, hop, rfl, rotation_tracks_key exampleCipher hop⟩

end PivKeyRotation
