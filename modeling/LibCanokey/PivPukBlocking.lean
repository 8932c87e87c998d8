import LibCanokey.PivPinManagedSafety
import LibCanokey.ProtocolAcceptance
import LibCanokey.ProtocolDialogue

/-! # Blocking the PUK

Against a card that counts wrong PUKs down and resets its count on a right one. The tries left,
and those a right guess would give back, bound the guesses that are still to come. -/
namespace PivPukBlocking

open BigEndian CheckedCursor ListTraversal ProtocolError ProtocolApdu ProtocolApduDecoder
open ProtocolConversation ProtocolSegmentation ProtocolOperation ProtocolTranscript
open ProtocolAcceptance ProtocolSession ProtocolDelivery ProtocolCompletion ProtocolDialogue
open ScriptedRuns ProtocolTlv CompatProfile PivCommand PivManagement PivManagementAuthentication
open PivAccess PivAccessOrdering PivMetadata PivProtection PivPinManaged PivPinManagedSafety

/-- The PUK of a card and the tries it has left. -/
structure PukCounter where
  stored : Bytes
  remaining : ℕ
  deriving DecidableEq

/-- The status of a wrong PUK that leaves `n` tries. -/
def Refuses (n : ℕ) (sw : UInt16) : Prop := sw = 0x63c0 + UInt16.ofNat n ∨ n = 0 ∧ sw = 0x6983

theorem Refuses.ne {n : ℕ} {sw : UInt16} (h : Refuses n sw) (hn : n < 15) : sw ≠ 0x9000 := by
  have hall : ∀ n < 15, 0x63c0 + UInt16.ofNat n ≠ 0x9000 := by decide
  rcases h with rfl | ⟨_, rfl⟩
  · exact hall n hn
  · decide

theorem Refuses.final {n : ℕ} {sw : UInt16} (h : Refuses n sw) (hn : n < 15) :
    is61 sw = false ∧ is6c sw = false := by
  have hall : ∀ n < 15, is61 (0x63c0 + UInt16.ofNat n) = false ∧
      is6c (0x63c0 + UInt16.ofNat n) = false := by decide
  rcases h with rfl | ⟨_, rfl⟩
  · exact hall n hn
  · decide

def changeHeader : ApduHeader := ⟨0, 0x24, 0, 0x81⟩

/-- A card whose PUK is `view`: a right old PUK is replaced and its count reset to `limit`, a wrong
one costs a try, and the metadata tell the count. -/
structure Conforming {κ : Type} (A : Applet κ) (view : κ → PukCounter) (limit : ℕ)
    (profile : DeviceProfile) (options : OperationOptions) : Prop where
  le : ∀ a d le, A a { d with le := le } = A a d
  accepts : ∀ a old new, old.length = 8 → new.length = 8 → 0 < (view a).remaining →
    old = (view a).stored →
    ∃ a', A a ⟨changeHeader, old ++ new, .absent⟩ = (⟨[], ⟨0x9000⟩⟩, a') ∧ view a' = ⟨new, limit⟩
  refuses : ∀ a old new, old.length = 8 → new.length = 8 → 0 < (view a).remaining →
    old ≠ (view a).stored →
    ∃ sw a', A a ⟨changeHeader, old ++ new, .absent⟩ = (⟨[], ⟨sw⟩⟩, a') ∧
      Refuses ((view a).remaining - 1) sw ∧
      view a' = ⟨(view a).stored, (view a).remaining - 1⟩
  counts : ∀ a, ∃ r a', A a ⟨(metadata .puk).header, [], .absent⟩ = (r, a') ∧
    Counts profile options r (UInt8.ofNat (view a).remaining) ∧ view a' = view a

variable {cipher : BlockCipher} {profile : DeviceProfile} {options : OperationOptions}
  {replacement : Replacement} {key : Bytes} {attempts : ℕ} {known : Bool} {r : ResponseData}

/-- The machine while it guesses. -/
def guessing (profile : DeviceProfile) (options : OperationOptions) (replacement : Replacement)
    (key : Bytes) (attempts : ℕ) (known : Bool) : PinManaged :=
  ⟨.change, profile, options, some replacement, some key, none, attempts, known⟩

/-- The old PUK of the next guess. -/
def guess (replacement : Replacement) (attempts : ℕ) (known : Bool) : Bytes :=
  if known then bump replacement.1 else eightDigits attempts

theorem change_guessing (h : attempts < 32) :
    (guessing profile options replacement key attempts known).change =
      (.ok (.command (change 0x24 0x81 (guess replacement attempts known) replacement.1)),
        guessing profile options replacement key (attempts + 1) known) :=
  if_neg (Nat.not_le_of_lt h)

theorem length_bump (bytes : Bytes) : (bump bytes).length = bytes.length := by
  cases bytes with
  | nil => rfl
  | cons b rest => rfl

theorem bump_ne {bytes : Bytes} (h : bytes ≠ []) : bump bytes ≠ bytes := by
  cases bytes with
  | nil => exact absurd rfl h
  | cons b rest =>
    intro heq
    have hb : (if b = 0x39 then 0x30 else b + 1) = b := (List.cons.inj heq).1
    by_cases hnine : b = 0x39
    · rw [if_pos hnine, hnine] at hb
      exact absurd hb (by decide)
    · rw [if_neg hnine] at hb
      have hone : (1 : UInt8) = 0 := by
        simp at hb
      exact absurd hone (by decide)

theorem length_eightDigits {n : ℕ} (h : n < 32) : (eightDigits n).length = 8 := by
  have hall : ∀ n < 32, (eightDigits n).length = 8 := by decide
  exact hall n h

theorem length_guess (h : attempts < 32) : (guess replacement attempts known).length = 8 := by
  cases known with
  | false => exact length_eightDigits h
  | true => exact (length_bump _).trans replacement.2

theorem changeNext_accepted :
    (guessing profile options replacement key attempts known).changeNext ⟨[], ⟨0x9000⟩⟩ =
      (guessing profile options replacement key attempts true).change := rfl

theorem changeNext_blocked {sw : UInt16} (h : Refuses 0 sw) :
    (guessing profile options replacement key attempts known).changeNext ⟨[], ⟨sw⟩⟩ =
      (.ok (.command (metadata .puk)),
        { guessing profile options replacement key attempts known with stage := .confirm }) := by
  rcases h with rfl | ⟨_, rfl⟩
  · rfl
  · rfl

theorem changeNext_refused {n : ℕ} (hpos : 0 < n) (hn : n < 15) {sw : UInt16} (h : Refuses n sw) :
    (guessing profile options replacement key attempts known).changeNext ⟨[], ⟨sw⟩⟩ =
      (guessing profile options replacement key attempts known).change := by
  rcases h with rfl | ⟨hzero, _⟩
  · have hsw : ∀ n < 15, 0 < n → 0x63c0 + UInt16.ofNat n ≠ 0x9000 ∧
        ¬ (0x63c0 + UInt16.ofNat n = 0x6983 ∨ 0x63c0 + UInt16.ofNat n = 0x63c0) ∧
        (0x63c0 + UInt16.ofNat n) &&& 0xfff0 = 0x63c0 := by decide
    obtain ⟨hok, hblocked, hcount⟩ := hsw n hn hpos
    simp only [PinManaged.changeNext]
    rw [if_neg (by simp), if_neg hok, if_neg hblocked, if_pos hcount]
  · omega

theorem remaining_of_counts {s : PinManaged} {n : UInt8} (h : Counts s.profile s.options r n) :
    s.remaining r = .ok n := by
  obtain ⟨hsuccess, m, total, hdecode, hretries⟩ := h
  refine bind_eq_ok.mpr ⟨m, bind_eq_ok.mpr ⟨(), ensureSuccess_eq_ok.mpr hsuccess, hdecode⟩, ?_⟩
  rw [hretries]

theorem confirmNext_blocked (h : Counts profile options r 0) :
    ({ guessing profile options replacement key attempts known with
      stage := .confirm } : PinManaged).confirmNext r =
      (.ok (.done key), { guessing profile options replacement key attempts known with
        stage := .confirm, key := none }) := by
  have hn := @remaining_of_counts r { guessing profile options replacement key attempts known with
    stage := .confirm } 0 h
  simp only [PinManaged.confirmNext, hn]
  rfl

/-! ## Guesses against a card -/

/-- The command of a guess, as a legacy card is sent it. -/
def guessCommand (legacy : Bool) (replacement : Replacement) (old : Bytes) : LogicalCommand :=
  explicitLe legacy (change 0x24 0x81 old replacement.1)

def countCommand (legacy : Bool) : LogicalCommand := explicitLe legacy (metadata .puk)

theorem change_data {old : Bytes} (hold : old.length = 8) (replacement : Replacement) :
    (change 0x24 0x81 old replacement.1).data = old ++ replacement.1 := by
  have hold' : resize 8 old = old := by
    rw [resize, ← hold, List.take_length, Nat.sub_self, List.replicate_zero, List.append_nil]
  have hlen : (old ++ replacement.1).length = 16 := by
    rw [List.length_append, hold, replacement.2]
  change resize 16 (resize 8 old ++ replacement.1) = _
  rw [hold', resize, ← hlen, List.take_length, Nat.sub_self, List.replicate_zero, List.append_nil]

theorem take_guess {legacy : Bool} {old : Bytes} (hold : old.length = 8) :
    (guessCommand legacy replacement old).data.take 8 = old := by
  rw [guessCommand, explicitLe_data, change_data hold, List.take_left' hold]

section card

variable {κ : Type} {A : Applet κ} {view : κ → PukCounter} {limit : ℕ} {a : κ} {legacy : Bool}
  {old : Bytes}

theorem Conforming.explicit (hA : Conforming A view limit profile options) (a : κ)
    (c : LogicalCommand) (le : ExpectedLength) :
    A a ⟨(explicitLe legacy c).header, (explicitLe legacy c).data, le⟩ =
      A a ⟨c.header, c.data, .absent⟩ := by
  rw [explicitLe_header, explicitLe_data]
  exact hA.le a ⟨c.header, c.data, .absent⟩ le

theorem Conforming.guess (hA : Conforming A view limit profile options) (legacy : Bool)
    (replacement : Replacement) (hold : old.length = 8) (a : κ) (le : ExpectedLength) :
    A a ⟨(guessCommand legacy replacement old).header,
      (guessCommand legacy replacement old).data, le⟩ =
        A a ⟨changeHeader, old ++ replacement.1, .absent⟩ := by
  rw [guessCommand, hA.explicit, change_data hold]
  rfl

/-- A right guess. -/
theorem Conforming.right (hA : Conforming A view limit profile options) (legacy : Bool)
    (replacement : Replacement) (hold : old.length = 8) (hpos : 0 < (view a).remaining)
    (hright : old = (view a).stored) :
    reply A a (guessCommand legacy replacement old) = ⟨[], ⟨0x9000⟩⟩ ∧
      view (performed A a [guessCommand legacy replacement old]) = ⟨replacement.1, limit⟩ := by
  obtain ⟨a', hanswer, hview⟩ := hA.accepts a old replacement.1 hold replacement.2 hpos hright
  have hguess := hA.guess legacy replacement hold a
    (guessCommand legacy replacement old).le
  simp only [reply, performed, List.foldl_cons, List.foldl_nil, hguess, hanswer]
  exact ⟨trivial, hview⟩

/-- A wrong guess. -/
theorem Conforming.wrong (hA : Conforming A view limit profile options) (legacy : Bool)
    (replacement : Replacement) (hold : old.length = 8) (hpos : 0 < (view a).remaining)
    (hwrong : old ≠ (view a).stored) :
    ∃ sw, reply A a (guessCommand legacy replacement old) = ⟨[], ⟨sw⟩⟩ ∧
      Refuses ((view a).remaining - 1) sw ∧
      view (performed A a [guessCommand legacy replacement old]) =
        ⟨(view a).stored, (view a).remaining - 1⟩ := by
  obtain ⟨sw, a', hanswer, hrefuses, hview⟩ :=
    hA.refuses a old replacement.1 hold replacement.2 hpos hwrong
  have hguess := hA.guess legacy replacement hold a
    (guessCommand legacy replacement old).le
  simp only [reply, performed, List.foldl_cons, List.foldl_nil, hguess, hanswer]
  exact ⟨sw, rfl, hrefuses, hview⟩

theorem Conforming.count (hA : Conforming A view limit profile options) (legacy : Bool) (a : κ) :
    Counts profile options (reply A a (countCommand legacy)) (UInt8.ofNat (view a).remaining) ∧
      view (performed A a [countCommand legacy]) = view a := by
  obtain ⟨r, a', hanswer, hcounts, hview⟩ := hA.counts a
  have hcount : A a ⟨(countCommand legacy).header, (countCommand legacy).data,
      (countCommand legacy).le⟩ = (r, a') := (hA.explicit a _ _).trans hanswer
  simp only [reply, performed, List.foldl_cons, List.foldl_nil, hcount]
  exact ⟨hcounts, hview⟩

/-- The exchanges of the loop. -/
inductive Loops (legacy : Bool) (replacement : Replacement) :
    LogicalCommand → ResponseData → Prop where
  | guess {old : Bytes} {sw : UInt16} (hold : old.length = 8)
      (hsw : is61 sw = false ∧ is6c sw = false) :
      Loops legacy replacement (guessCommand legacy replacement old) ⟨[], ⟨sw⟩⟩
  | count {r : ResponseData} (hr : r.status.isSuccess = true) :
      Loops legacy replacement (countCommand legacy) r

/-- A guess of some commands was right. -/
def Succeeded (A : Applet κ) (a : κ) (cs : List LogicalCommand) : Prop :=
  ∃ before c after, cs = before ++ c :: after ∧
    (reply A (performed A a before) c).status = ⟨0x9000⟩

/-- After a right guess, or from the start where the PUK is known, every old PUK is wrong. -/
def KeepsWrong (A : Applet κ) (view : κ → PukCounter) (known : Bool) (a : κ)
    (cs : List LogicalCommand) : Prop :=
  ∀ before c after, cs = before ++ c :: after → known = true ∨ Succeeded A a before →
    c.data.take 8 ≠ (view (performed A a before)).stored

theorem performed_cons (A : Applet κ) (a : κ) (c : LogicalCommand) (cs : List LogicalCommand) :
    performed A a (c :: cs) = performed A (performed A a [c]) cs := rfl

theorem KeepsWrong.cons {c : LogicalCommand} {cs : List LogicalCommand} {known' : Bool}
    (h : KeepsWrong A view known' (performed A a [c]) cs)
    (hfirst : known = true → c.data.take 8 ≠ (view a).stored)
    (hstill : known = true → known' = true)
    (hright : (reply A a c).status = ⟨0x9000⟩ → known' = true) :
    KeepsWrong A view known a (c :: cs) := by
  intro before c' after hcs hknown
  cases before with
  | nil =>
    cases hcs
    rcases hknown with hknown | ⟨before, x, after', hnil, _⟩
    · exact hfirst hknown
    · simp at hnil
  | cons b before =>
    cases hcs
    rw [performed_cons]
    apply h before c' after rfl
    rcases hknown with hknown | ⟨pre, x, post, hbefore, hstatus⟩
    · exact Or.inl (hstill hknown)
    · cases pre with
      | nil =>
        cases hbefore
        exact Or.inl (hright hstatus)
      | cons p pre =>
        cases hbefore
        exact Or.inr ⟨pre, x, post, rfl, hstatus⟩

/-- The wrapped machine, in its target with the given state. -/
def inTarget (sel : Selected PinManaged) (s : PinManaged) : Selected PinManaged :=
  { sel with stage := .target, target := s }

theorem inTarget_next (sel : Selected PinManaged) (s : PinManaged) (r : ResponseData) :
    (selectedMachine cipher (pinManagedMachine cipher)).next (inTarget sel s) (some r) =
      ((s.next cipher (some r)).1.map (explicitAction sel.explicitLe),
        inTarget sel (s.next cipher (some r)).2) := rfl

/-- A dialogue of the wrapped machine, from a guess to the key. -/
structure Blocks (cipher : BlockCipher) (A : Applet κ) (view : κ → PukCounter)
    (replacement : Replacement) (key : Bytes) (sel : Selected PinManaged) (s : PinManaged) (a : κ)
    (old : Bytes) (known : Bool) (guesses : List LogicalCommand) (rs : List ResponseData) :
    Prop where
  talks : Talks (selectedMachine cipher (pinManagedMachine cipher)) A
    (Loops sel.explicitLe replacement) (inTarget sel s) a
    (guessCommand sel.explicitLe replacement old)
    (guesses ++ [countCommand sel.explicitLe]) rs (.ok key)
  blocked : (view (performed A a (guesses ++ [countCommand sel.explicitLe]))).remaining = 0
  each : ∀ c ∈ guesses, ∃ old, old.length = 8 ∧
    c = guessCommand sel.explicitLe replacement old
  wrong : KeepsWrong A view known a guesses
  length : responseLength rs =
    (reply A (performed A a guesses) (countCommand sel.explicitLe)).data.length

section loop

variable {sel : Selected PinManaged} {guesses : List LogicalCommand} {rs : List ResponseData}

/-- One guess before a dialogue. -/
theorem Blocks.cons {known' : Bool} {old' : Bytes} {attempts' : ℕ}
    (h : Blocks cipher A view replacement key sel
      (guessing profile options replacement key attempts' known')
      (performed A a [guessCommand sel.explicitLe replacement old]) old' known' guesses rs)
    {sw : UInt16} (hold : old.length = 8) (hsw : is61 sw = false ∧ is6c sw = false)
    (hreply : reply A a (guessCommand sel.explicitLe replacement old) = ⟨[], ⟨sw⟩⟩)
    (hnext : (guessing profile options replacement key attempts known).changeNext
      (reply A a (guessCommand sel.explicitLe replacement old)) =
        (.ok (.command (change 0x24 0x81 old' replacement.1)),
          guessing profile options replacement key attempts' known'))
    (hfirst : known = true → old ≠ (view a).stored) (hstill : known = true → known' = true)
    (hright : (reply A a (guessCommand sel.explicitLe replacement old)).status = ⟨0x9000⟩ →
      known' = true) :
    Blocks cipher A view replacement key sel
      (guessing profile options replacement key attempts known) a old known
      (guessCommand sel.explicitLe replacement old :: guesses)
      (reply A a (guessCommand sel.explicitLe replacement old) :: rs) := by
  have hstep : (selectedMachine cipher (pinManagedMachine cipher)).next
      (inTarget sel (guessing profile options replacement key attempts known))
      (some (reply A a (guessCommand sel.explicitLe replacement old))) =
        (.ok (.command (guessCommand sel.explicitLe replacement old')),
          inTarget sel (guessing profile options replacement key attempts' known')) := by
    have hgo : (guessing profile options replacement key attempts known).next cipher
        (some (reply A a (guessCommand sel.explicitLe replacement old))) = _ := hnext
    rw [inTarget_next, hgo]
    rfl
  have hloops : Loops sel.explicitLe replacement (guessCommand sel.explicitLe replacement old)
      (reply A a (guessCommand sel.explicitLe replacement old)) := by
    rw [hreply]
    exact .guess hold hsw
  refine ⟨.more hloops hstep h.talks, h.blocked, ?_, ?_, ?_⟩
  · intro c hc
    rcases List.mem_cons.mp hc with rfl | hc
    · exact ⟨old, hold, rfl⟩
    · exact h.each c hc
  · refine h.wrong.cons ?_ hstill hright
    intro hknown
    rw [take_guess hold]
    exact hfirst hknown
  · have hlen : responseLength (reply A a (guessCommand sel.explicitLe replacement old) :: rs) =
        (reply A a (guessCommand sel.explicitLe replacement old)).data.length +
          responseLength rs := rfl
    rw [hlen, hreply, List.length_nil, Nat.zero_add, h.length]
    rfl

/-- The last guess blocks the PUK, and the count that follows shows it. -/
theorem blocks_last (hA : Conforming A view limit profile options) (hold : old.length = 8)
    (hlast : (view a).remaining = 1) (hwrong : old ≠ (view a).stored) :
    ∃ rs, Blocks cipher A view replacement key sel
      (guessing profile options replacement key attempts known) a old known
      [guessCommand sel.explicitLe replacement old] rs := by
  obtain ⟨sw, hreply, hrefuses, hview⟩ :=
    hA.wrong sel.explicitLe replacement hold (by omega) hwrong
  rw [hlast, Nat.sub_self] at hrefuses hview
  obtain ⟨hcounts, hkept⟩ := hA.count sel.explicitLe
    (performed A a [guessCommand sel.explicitLe replacement old])
  rw [hview] at hcounts hkept
  have hstep : (selectedMachine cipher (pinManagedMachine cipher)).next
      (inTarget sel (guessing profile options replacement key attempts known))
      (some (reply A a (guessCommand sel.explicitLe replacement old))) =
        (.ok (.command (countCommand sel.explicitLe)),
          inTarget sel { guessing profile options replacement key attempts known with
            stage := .confirm }) := by
    have hgo : (guessing profile options replacement key attempts known).next cipher
        (some ⟨[], ⟨sw⟩⟩) = _ := changeNext_blocked hrefuses
    rw [inTarget_next, hreply, hgo]
    rfl
  have hdone : (selectedMachine cipher (pinManagedMachine cipher)).next
      (inTarget sel { guessing profile options replacement key attempts known with
        stage := .confirm })
      (some (reply A (performed A a [guessCommand sel.explicitLe replacement old])
        (countCommand sel.explicitLe))) = (.ok (.done key), inTarget sel
          { guessing profile options replacement key attempts known with
            stage := .confirm, key := none }) := by
    have hgo : PinManaged.next cipher { guessing profile options replacement key attempts known with
        stage := .confirm } (some (reply A (performed A a
          [guessCommand sel.explicitLe replacement old]) (countCommand sel.explicitLe))) = _ :=
      confirmNext_blocked hcounts
    rw [inTarget_next, hgo]
    rfl
  have hloops : Loops sel.explicitLe replacement (guessCommand sel.explicitLe replacement old)
      (reply A a (guessCommand sel.explicitLe replacement old)) := by
    rw [hreply]
    exact .guess hold (hrefuses.final (by decide))
  refine ⟨_, .more hloops hstep (.done (.count hcounts.1) hdone), ?_, ?_, ?_, ?_⟩
  · change (view (performed A (performed A a [_]) [countCommand sel.explicitLe])).remaining = 0
    rw [hkept]
  · intro c hc
    exact ⟨old, hold, List.mem_singleton.mp hc⟩
  · have hnone : KeepsWrong A view true
        (performed A a [guessCommand sel.explicitLe replacement old]) [] := by
      intro before c after hnil
      simp at hnil
    refine hnone.cons ?_ (fun _ => rfl) (fun _ => rfl)
    intro _
    rw [take_guess hold]
    exact hwrong
  · have hlen : responseLength [reply A a (guessCommand sel.explicitLe replacement old),
        reply A (performed A a [guessCommand sel.explicitLe replacement old])
          (countCommand sel.explicitLe)] =
        (reply A a (guessCommand sel.explicitLe replacement old)).data.length +
          ((reply A (performed A a [guessCommand sel.explicitLe replacement old])
            (countCommand sel.explicitLe)).data.length + 0) := rfl
    rw [hlen, hreply, List.length_nil, Nat.zero_add, Nat.add_zero]

/-- What is still to be guessed: the tries left and, while the PUK is unknown, those that a right
guess would give back. -/
def tries (counter : PukCounter) (limit : ℕ) (known : Bool) : ℕ :=
  counter.remaining + if known then 0 else limit

/-- From any guess the loop ends with the PUK blocked. The induction is on the tries. -/
theorem loop_blocks (hA : Conforming A view limit profile options) (hlimit : limit ≤ 15)
    {n : ℕ} (hn : tries (view a) limit known = n) (hpos : 0 < (view a).remaining)
    (hmost : (view a).remaining ≤ limit) (hcap : attempts + n ≤ 32) (hold : old.length = 8)
    (hknown : known = true → (view a).stored = replacement.1 ∧ old = bump replacement.1) :
    ∃ guesses rs, guesses.length ≤ n ∧ Blocks cipher A view replacement key sel
      (guessing profile options replacement key attempts known) a old known guesses rs := by
  induction n using Nat.strong_induction_on generalizing a attempts known old with
  | _ n ih =>
    have hne : replacement.1 ≠ [] := by
      intro hnil
      have := replacement.2
      rw [hnil] at this
      simp at this
    by_cases hright : old = (view a).stored
    · -- The PUK was unknown: it is now the replacement, and its count is reset.
      have hunknown : known = false := by
        cases known with
        | false => rfl
        | true =>
          obtain ⟨hstored, hbump⟩ := hknown rfl
          rw [hstored, hbump] at hright
          exact absurd hright (bump_ne hne)
      subst hunknown
      obtain ⟨hreply, hview⟩ :=
        hA.right sel.explicitLe replacement hold hpos hright
      simp only [tries, Bool.false_eq_true, if_false] at hn
      have hgo : (guessing profile options replacement key attempts false).changeNext
          (reply A a (guessCommand sel.explicitLe replacement old)) =
            (.ok (.command (change 0x24 0x81 (bump replacement.1) replacement.1)),
              guessing profile options replacement key (attempts + 1) true) := by
        rw [hreply, changeNext_accepted, change_guessing (by omega)]
        rfl
      have hless : limit < n := by omega
      have hrest : ∃ guesses rs, guesses.length ≤ limit ∧ Blocks cipher A view replacement key sel
          (guessing profile options replacement key (attempts + 1) true)
          (performed A a [guessCommand sel.explicitLe replacement old]) (bump replacement.1) true
          guesses rs := by
        apply ih limit hless
        · rw [hview]
          rfl
        · rw [hview]
          exact Nat.lt_of_lt_of_le hpos hmost
        · rw [hview]
        · omega
        · exact (length_bump _).trans replacement.2
        · intro _
          rw [hview]
          exact ⟨rfl, rfl⟩
      obtain ⟨guesses, rs, hlen, hblocks⟩ := hrest
      refine ⟨_, _, ?_, hblocks.cons hold (by decide) hreply hgo ?_ ?_ ?_⟩
      · rw [List.length_cons]
        omega
      · intro hfalse
        cases hfalse
      · intro _
        rfl
      · intro _
        rfl
    · by_cases hlast : (view a).remaining = 1
      · obtain ⟨rs, hblocks⟩ := @blocks_last cipher profile options replacement key attempts known
          κ A view limit a old sel hA hold hlast hright
        refine ⟨_, rs, ?_, hblocks⟩
        rw [List.length_singleton]
        simp only [tries] at hn
        omega
      · obtain ⟨sw, hreply, hrefuses, hview⟩ :=
          hA.wrong sel.explicitLe replacement hold hpos hright
        have hleft : 0 < (view a).remaining - 1 := by omega
        have hsmall : (view a).remaining - 1 < 15 := by omega
        have hattempts : attempts < 32 := by
          simp only [tries] at hn
          omega
        have hgo : (guessing profile options replacement key attempts known).changeNext
            (reply A a (guessCommand sel.explicitLe replacement old)) =
              (.ok (.command (change 0x24 0x81 (guess replacement attempts known) replacement.1)),
                guessing profile options replacement key (attempts + 1) known) := by
          rw [hreply, changeNext_refused hleft hsmall hrefuses, change_guessing hattempts]
        have hless : n - 1 < n := by
          simp only [tries] at hn
          omega
        have hrest : ∃ guesses rs, guesses.length ≤ n - 1 ∧ Blocks cipher A view replacement key sel
            (guessing profile options replacement key (attempts + 1) known)
            (performed A a [guessCommand sel.explicitLe replacement old])
            (guess replacement attempts known) known guesses rs := by
          apply ih (n - 1) hless
          · rw [hview]
            simp only [tries] at hn ⊢
            omega
          · rw [hview]
            exact hleft
          · rw [hview]
            dsimp only
            omega
          · omega
          · exact length_guess hattempts
          · intro hk
            rw [hview]
            obtain ⟨hstored, _⟩ := hknown hk
            exact ⟨hstored, if_pos hk⟩
        obtain ⟨guesses, rs, hlen, hblocks⟩ := hrest
        refine ⟨_, _, ?_, hblocks.cons hold (hrefuses.final hsmall) hreply hgo
          (fun _ => hright) (fun hk => hk) ?_⟩
        · rw [List.length_cons]
          omega
        · intro hsuccess
          rw [hreply] at hsuccess
          exact absurd (StatusWord.mk.inj hsuccess) (hrefuses.ne hsmall)

/-- What the loop sends takes one frame. -/
theorem explicitLe_alone (legacy : Bool) {c : LogicalCommand} (hchain : c.allowChaining = false)
    (hle : c.le = .absent ∨ c.le = .exact 256) :
    (explicitLe legacy c).allowChaining = false ∧
      (explicitLe legacy c).continuation = c.continuation ∧
      ((explicitLe legacy c).le = .absent ∨ (explicitLe legacy c).le = .exact 256) := by
  rw [explicitLe]
  split_ifs
  · exact ⟨hchain, rfl, Or.inr rfl⟩
  · exact ⟨hchain, rfl, hle⟩

/-- One guess is accepted where another one is. -/
theorem accepted_guess (hvalid : options.Valid) {old old' : Bytes} (hold : old.length = 8)
    (hold' : old'.length = 8) (h : Accepted options (guessCommand legacy replacement old)) :
    Accepted options (guessCommand legacy replacement old') := by
  have hlen : (guessCommand legacy replacement old').data.length =
      (guessCommand legacy replacement old).data.length := by
    rw [guessCommand, guessCommand, explicitLe_data, explicitLe_data, change_data hold,
      change_data hold', List.length_append, List.length_append, hold, hold']
  have hsame : ({ guessCommand legacy replacement old with
      data := (guessCommand legacy replacement old').data } : LogicalCommand) =
        guessCommand legacy replacement old' := by
    cases legacy <;> rfl
  have hnew := new_of_length hvalid hlen h
  rw [hsame] at hnew
  exact hnew

/-- A command of one frame whose answer does not depend on Le and takes one page. -/
theorem answers_alone {c : LogicalCommand} {k : ConversationState} {r : ResponseData} {a' : κ}
    {cla : UInt8} (hA : Conforming A view limit profile options)
    (hk : ConversationState.new c options = .ok k) (hchain : c.allowChaining = false)
    (hheader : c.header.cla &&& 0x10 = 0 ∧ c.header.ins ≠ 0xc0)
    (hcont : c.continuation = .iso7816 cla) (hcla : cla &&& 0x10 = 0)
    (hr : A a ⟨c.header, c.data, c.le⟩ = (r, a'))
    (hfit : r.data.length ≤ 256 ∧ r.data.length + 2 ≤ options.exchange.maxResponseBytes)
    (hle : c.le = .absent ∨ c.le = .exact 256)
    (hstatus : is61 r.status.raw = false ∧ is6c r.status.raw = false) :
    Answers A options a c k r a' 1 := by
  refine .short hk hchain (Or.inr ⟨cla, hcont, hcla⟩) hheader hle ?_ hfit hstatus
  intro le
  rw [← hr]
  exact hA.le a ⟨c.header, c.data, c.le⟩ le

/-- Every exchange of the loop takes one exchange with the card. -/
theorem loops_answers (hA : Conforming A view limit profile options) (hvalid : options.Valid)
    {page : ℕ} (hpage : page ≤ 256) (hroom : page + 2 ≤ options.exchange.maxResponseBytes)
    (hcount : ∀ a, (reply A a (countCommand legacy)).data.length ≤ page)
    (hchange : Accepted options (guessCommand legacy replacement old)) (hold : old.length = 8)
    (a : κ) (c : LogicalCommand) (hc : Loops legacy replacement c (reply A a c)) :
    ∃ k, Answers A options a c k (reply A a c) (performed A a [c]) 1 := by
  have hresponse := hvalid.response
  generalize hr : reply A a c = r at hc ⊢
  cases hc with
  | @guess old' sw hold' hsw =>
    obtain ⟨k, hk⟩ := accepted_guess hvalid hold hold' hchange
    obtain ⟨hchain, hcont, hle⟩ :=
      @explicitLe_alone legacy (change 0x24 0x81 old' replacement.1) rfl (Or.inl rfl)
    refine ⟨k, answers_alone hA hk hchain ?_ hcont (by decide) (Prod.ext hr rfl) ?_ hle hsw⟩
    · rw [guessCommand, explicitLe_header]
      exact ⟨show (0 : UInt8) &&& 0x10 = 0 by decide, show (0x24 : UInt8) ≠ 0xc0 by decide⟩
    · rw [List.length_nil]
      omega
  | count hstatus =>
    have hlen := hcount a
    rw [hr] at hlen
    have hsame : countCommand legacy = metadata .puk := by
      cases legacy <;> rfl
    rw [hsame] at hr ⊢
    obtain ⟨k, hk⟩ : Accepted options (metadata .puk) :=
      accepted_alone hvalid rfl (Or.inr ⟨rfl, rfl⟩) (Nat.zero_le _) (Or.inl rfl)
    have hsw : r.status.raw = 0x9000 := by simpa [StatusWord.isSuccess] using hstatus
    refine ⟨k, answers_alone hA hk rfl ⟨by decide, by decide⟩ rfl (by decide) (Prod.ext hr rfl)
      (by omega) (Or.inr rfl) ?_⟩
    rw [hsw]
    decide

end loop

/-! ## The first guess -/

theorem first_guess {own : List LogicalCommand} {rs : List ResponseData} {s : PinManaged}
    {c : LogicalCommand} (h : LastTurn (pinManagedMachine cipher)
      (.new profile options (some replacement)) (.ok (.command c)) own rs s)
    (hquiet : ∀ x ∈ own, ¬ ChangesPuk x) (hc : ChangesPuk c) :
    ∃ key n, Established cipher profile options key n own rs ∧ n ≠ 0 ∧
      c = change 0x24 0x81 (eightDigits 0) replacement.1 ∧
      s = guessing profile options replacement key.bytes 1 false := by
  cases h with
  | opening hn =>
    cases hn
    exact absurd hc (getData_quiet _)
  | @answering own rs s₁ _ r ht hn =>
    cases pinManaged_trace ht with
    | admin =>
      obtain ⟨_, hcommand, _⟩ := adminNext_ok hn
      cases hcommand
      exact absurd hc (metadata_quiet _)
    | puk ha =>
      obtain ⟨_, _, _, hcommand, _⟩ := pukNext_ok hn
      cases hcommand
      exact absurd hc (getData_quiet _)
    | printed ha hcount hr =>
      obtain ⟨_, _, hcommand, _⟩ := printedNext_ok hn
      cases hcommand
      exact absurd hc (metadata_quiet _)
    | managementMetadata ha hcount hr hk =>
      -- the key is established over six commands, of which there are four
      have hreached := managementMetadata_goes ha hcount hr hk hn
      obtain ⟨_, key, n, own', given, he, _, hpre, _⟩ := reached_change hreached rfl hc
      have hlen := hpre.length_le
      cases he
      exact absurd hlen (by simp)
    | @authentication a p o kind n key cs given m ha hcount hr hk htrace =>
      have hn : PinManaged.authenticationNext cipher ⟨.authentication, profile, options,
          kept (some replacement) n, some key.bytes, some m, 0, false⟩ (some r) =
            (.ok (.command c), s) := hn
      rcases hm : ManagementMachine.next cipher m (some r) with ⟨e | c' | u, m'⟩
      · simp only [PinManaged.authenticationNext, hm] at hn
        cases hn
      · simp only [PinManaged.authenticationNext, hm] at hn
        cases hn
        exact absurd hc (management_quiet (htrace.answered hm) _ (by simp))
      · simp only [PinManaged.authenticationNext, hm] at hn
        have he := @established_of_completes cipher profile options r cs given m key n a p o kind ha
          hcount hk m' htrace hm
        by_cases hzero : n = 0
        · obtain rfl := hzero
          rw [if_neg (by simp [kept])] at hn
          obtain ⟨key', _, hdone⟩ := result_ok hn
          cases hdone
        · have hkept : kept (some replacement) n = some replacement := if_neg hzero
          have hchange : PinManaged.change ⟨.authentication, profile, options, some replacement,
              some key.bytes, none, 0, false⟩ =
                (.ok (.command (change 0x24 0x81 (eightDigits 0) replacement.1)),
                  guessing profile options replacement key.bytes 1 false) := rfl
          simp only [hkept, Option.isSome_some, if_true, hchange] at hn
          cases hn
          exact ⟨key, n, he, hzero, rfl, rfl⟩
    | @change own cs given rs key n attempts known hne hr he hcs hlen =>
      obtain ⟨x, hx⟩ := List.exists_mem_of_length_pos (show 0 < cs.length by omega)
      exact absurd (hcs x hx) (hquiet x (List.mem_append_right _ hx))
    | confirm hne hr he hcs hlen =>
      obtain ⟨_, _, _, hdone⟩ := confirmNext_ok hn
      cases hdone

/-- The first command of an operation that changes the PUK. -/
theorem selected_first_guess {access : Access} {cs : List LogicalCommand} {rs : List ResponseData}
    {s : Selected PinManaged} {c : LogicalCommand}
    (h : LastTurn (selectedMachine cipher (pinManagedMachine cipher))
      (.new legacy access (.new profile options (some replacement))) (.ok (.command c)) cs rs s)
    (hquiet : ∀ x ∈ cs, ¬ ChangesPuk x) (hc : ChangesPuk c) :
    ∃ key n pre answers own given, Preamble cipher access pre answers ∧
      Established cipher profile options key n own given ∧ n ≠ 0 ∧
      cs = (pre ++ own).map (explicitLe legacy) ∧ rs = answers ++ given ∧
      c = guessCommand legacy replacement (eightDigits 0) ∧
      s = ⟨.target, legacy, none, none,
        guessing profile options replacement key.bytes 1 false⟩ := by
  obtain ⟨plain, turn, rfl, hturned, hresult⟩ := selected_last h
  obtain ⟨action, rfl, haction⟩ := map_eq_ok.mp hresult.symm
  cases action with
  | done value => cases haction
  | command d =>
    cases haction
    rcases hturned with ⟨d', hd, hstaged⟩ | ⟨hne, _⟩
    swap
    · exact absurd rfl (hne d)
    cases hd
    have hd : ChangesPuk d := by
      rw [ChangesPuk, explicitLe_header] at hc
      exact hc
    have hplain : ∀ x ∈ plain, ¬ ChangesPuk x := by
      intro x hx hchanges
      apply hquiet (explicitLe legacy x) (List.mem_map_of_mem hx)
      rw [ChangesPuk, explicitLe_header]
      exact hchanges
    have hmem : d ∈ plain ++ [d] := List.mem_append_right _ (List.mem_singleton_self d)
    generalize hall : plain ++ [d] = all at hstaged hmem
    dsimp only at hstaged
    cases hstaged with
    | selecting hne =>
      rw [List.mem_singleton.mp hmem] at hd
      exact absurd hd select_quiet
    | authenticating ha hr ht =>
      rcases List.mem_cons.mp hmem with rfl | hmem
      · exact absurd hd select_quiet
      · exact absurd hd (management_quiet ht _ hmem)
    | verifying hp hcleared =>
      rcases List.mem_append.mp hmem with hmem | hmem
      · exact absurd hd (cleared_quiet hcleared _ hmem)
      · rw [List.mem_singleton.mp hmem] at hd
        exact absurd hd (verifyPin_quiet _)
    | @running pre own answers given t hp ht =>
      obtain ⟨own, c', rfl, hlast⟩ := ht.last
      rw [← List.append_assoc] at hall
      obtain ⟨rfl, hsame⟩ := List.append_inj' hall rfl
      cases hsame
      have hown : ∀ x ∈ own, ¬ ChangesPuk x := by
        intro x hx
        exact hplain x (List.mem_append_right _ hx)
      obtain ⟨key, n, he, hzero, rfl, rfl⟩ := first_guess hlast hown hd
      exact ⟨key, n, pre, answers, own, given, hp, he, hzero, rfl, rfl, rfl, rfl⟩

/-! ## The authentication exposes it -/

theorem counts_unique {p : ResponseData} {n n' : UInt8} (h : Counts profile options p n)
    (h' : Counts profile options p n') : n = n' := by
  obtain ⟨_, m, total, hdecode, hretries⟩ := h
  obtain ⟨_, m', total', hdecode', hretries'⟩ := h'
  cases hdecode.symm.trans hdecode'
  cases hretries.symm.trans hretries'
  rfl

/-- The last answer of the exchanges that establish a key completes the authentication, and the
first guess follows. -/
theorem established_next {key : ManagementKey} {n : UInt8} {own cs : List LogicalCommand}
    {given : List ResponseData} {s : PinManaged}
    (he : Established cipher profile options key n own (given ++ [r])) (hn : n ≠ 0)
    (ht : Trace (pinManagedMachine cipher) (.new profile options (some replacement)) cs given s) :
    (s.next cipher (some r)).1 =
        .ok (.command (change 0x24 0x81 (eightDigits 0) replacement.1)) ∧
      ∀ c ∈ cs, ¬ ChangesPuk c := by
  generalize hall : given ++ [r] = all at he
  cases he with
  | @exchanges admin puk printed kind challenge ha hcount hk =>
    have hsplit : given ++ [r] = [admin, puk, printed, kind,
        success (template [(0x81, challenge.1)])] ++ [success []] := hall
    obtain ⟨hgiven, hr⟩ := List.append_inj' hsplit rfl
    cases hr
    have hlength : given.length = 5 := by rw [hgiven]; rfl
    have hmore {own : List LogicalCommand} {given' rs : List ResponseData} {key : ManagementKey}
        {n : UInt8} (he : Established cipher profile options key n own given')
        (hlength : (given' ++ rs).length = 5) : False := by
      cases he
      simp at hlength
    cases pinManaged_trace ht with
    | admin => cases hgiven
    | puk ha => cases hgiven
    | printed ha hcount hr => cases hgiven
    | managementMetadata ha hcount hr hk => cases hgiven
    | @authentication a p o kind n' key' cs rs m ha' hcount' hr hk' ht' =>
      cases hgiven
      obtain rfl := counts_unique hcount hcount'
      refine ⟨?_, ?_⟩
      · rcases management_trace ht' with ⟨_, hnone, _⟩ | ⟨b, _, _, rfl⟩
        · cases hnone
        · have hkept : kept (some replacement) n = some replacement := if_neg hn
          have hdone : ManagementMachine.next cipher ⟨.external key', 2⟩ (some (success [])) =
              (.ok (.done ()), ⟨.external key', 3⟩) := @next_verify cipher (.external key')
          change (PinManaged.authenticationNext cipher _ _).1 = _
          simp only [PinManaged.authenticationNext, hdone, hkept]
          rfl
      · intro c hc
        rcases List.mem_append.mp hc with hc | hc
        · simp only [List.mem_cons, List.not_mem_nil, or_false] at hc
          rcases hc with rfl | rfl | rfl | rfl <;> simp
        · exact management_quiet ht' c hc
    | change hne hr he hcs hlen => exact (hmore he hlength).elim
    | confirm hne hr he hcs hlen => exact (hmore he hlength).elim

/-- The same behind the preamble of an access. -/
theorem selected_established {access : Access} {key : ManagementKey} {n : UInt8}
    {pre own cs : List LogicalCommand} {answers given rs : List ResponseData}
    {s : Selected PinManaged} (hp : Preamble cipher access pre answers)
    (he : Established cipher profile options key n own given) (hn : n ≠ 0)
    (ht : Trace (selectedMachine cipher (pinManagedMachine cipher))
      (.new legacy access (.new profile options (some replacement))) cs rs s)
    (hrs : rs ++ [r] = answers ++ given) :
    ((selectedMachine cipher (pinManagedMachine cipher)).next s (some r)).1 =
        .ok (.command (guessCommand legacy replacement (eightDigits 0))) ∧
      ∀ c ∈ cs, ¬ ChangesPuk c := by
  obtain ⟨plain, rfl, hstaged⟩ := selected_trace ht
  have hsix : given.length = 6 := by
    cases he
    rfl
  have hlength := congrArg List.length hrs
  simp only [List.length_append, List.length_singleton, hsix] at hlength
  -- before its target the wrapper is given at most three answers
  cases hstaged with
  | selecting hne =>
    simp only [List.length_nil] at hlength
    omega
  | authenticating ha hr ht' =>
    rcases management_trace ht' with ⟨_, rfl, _⟩ | ⟨b, _, rfl, _⟩ <;>
      simp only [List.length_cons, List.length_nil] at hlength <;> omega
  | verifying hverify hc =>
    obtain ⟨_, _, ⟨_, rfl⟩ | ⟨_, _, _, rfl⟩⟩ := hc.answers <;>
      simp only [List.length_cons, List.length_nil] at hlength <;> omega
  | @running pre' own' rs' answers' t hp' ht' =>
    have hsame := hp'.lengths.2.trans hp.lengths.2.symm
    rw [List.append_assoc] at hrs
    obtain ⟨rfl, rfl⟩ := List.append_inj hrs hsame
    obtain ⟨hnext, hquiet⟩ := established_next he hn ht'
    refine ⟨?_, ?_⟩
    · change Except.map _ (PinManaged.next cipher t (some r)).1 = _
      rw [hnext]
      rfl
    · intro c hc
      obtain ⟨x, hx, rfl⟩ := List.mem_map.mp hc
      rw [ChangesPuk, explicitLe_header]
      rcases List.mem_append.mp hx with hx | hx
      · exact preamble_quiet hp' x hx
      · exact hquiet x hx

end card

theorem pinManaged_replaces {bytes : Bytes} {access : Access}
    {op : Operation (Selected PinManaged) Bytes}
    (h : pinManaged profile (some bytes) access options = .ok op) :
    ∃ replacement : Replacement, replacement.1 = bytes.map digit ∧
      withAccess profile access (.new profile options (some replacement)) options = .ok op := by
  obtain ⟨_, _, h⟩ := bind_eq_ok.mp h
  obtain ⟨_, _, h⟩ := bind_eq_ok.mp h
  obtain ⟨replacement, hr, h⟩ := bind_eq_ok.mp h
  obtain ⟨replacement, hbytes, rfl⟩ := map_eq_ok.mp hr
  refine ⟨replacement, ?_, h⟩
  by_cases hlen : bytes.length = 8
  · rw [Replacement.ofBytes, dif_pos hlen] at hbytes
    cases hbytes
    rfl
  · rw [Replacement.ofBytes, dif_neg hlen] at hbytes
    cases hbytes

/-- The call that hands in the last answer of an accepted authentication exposes the first guess,
where the channel and the budget take its frame. -/
def ExposesGuess (cipher : BlockCipher) (profile : DeviceProfile) (replacement : Replacement)
    (access : Access) (options : OperationOptions) (s : Recorded (Selected PinManaged) Bytes)
    (call : Call) : Prop :=
  ∀ (r : ResponseData) (key : ManagementKey) (n : UInt8) (pre own : List LogicalCommand)
    (answers given : List ResponseData),
    Preamble cipher access pre answers → Established cipher profile options key n own given →
    n ≠ 0 → answer s.op call = some r → s.responses ++ [r] = answers ++ given →
    Accepted options (guessCommand profile.legacyExplicitLe replacement (eightDigits 0)) →
    s.op.exchanges < options.limits.maxExchanges →
    begun (selectedMachine cipher (pinManagedMachine cipher)) s.op call =
        some (guessCommand profile.legacyExplicitLe replacement (eightDigits 0)) ∧
      ChangesPuk (guessCommand profile.legacyExplicitLe replacement (eightDigits 0)) ∧
      ∀ x ∈ s.commands, ¬ ChangesPuk x

theorem exposes_guess {access : Access} {history : List (Call × Reply Bytes)}
    {s : Recorded (Selected PinManaged) Bytes} {call : Call}
    (hf : Follows (selectedMachine cipher (pinManagedMachine cipher))
      (.new profile.legacyExplicitLe access (.new profile options (some replacement))) options
      history s) : ExposesGuess cipher profile replacement access options s call := by
  intro r key n pre own answers given hp he hn hanswer hrs haccepted hroom
  have hguess : ChangesPuk (guessCommand profile.legacyExplicitLe replacement (eightDigits 0)) := by
    rw [ChangesPuk, guessCommand, explicitLe_header]
    exact ⟨rfl, rfl⟩
  obtain ⟨input, hhanded, rfl⟩ : ∃ input, handed s.op call = some input ∧ input = some r := by
    obtain ⟨input, hhanded, hinput⟩ := Option.bind_eq_some_iff.mp hanswer
    exact ⟨input, hhanded, hinput⟩
  rcases handed_state hhanded with ⟨_, hnone⟩ | ⟨hs, _⟩
  · cases hnone
  obtain ⟨m, hm, ht, _⟩ := hf.standing.of_awaiting hs
  obtain ⟨hnext, hquiet⟩ := selected_established hp he hn ht hrs
  refine ⟨?_, hguess, hquiet⟩
  have hcommand : (selectedMachine cipher (pinManagedMachine cipher)).next m (some r) =
      (.ok (.command (guessCommand profile.legacyExplicitLe replacement (eightDigits 0))), _) :=
    Prod.ext hnext rfl
  obtain ⟨k, hk⟩ := haccepted
  rw [← hf.lifecycle.options] at hk hroom
  exact begun_of_accepted hf.lifecycle hhanded hm hcommand hk hroom

/-- What an operation whose last call exposed the first guess does with a conforming card. -/
structure BlocksPuk (cipher : BlockCipher) (profile : DeviceProfile) (replacement : Replacement)
    (access : Access) (options : OperationOptions) (s : Recorded (Selected PinManaged) Bytes)
    {κ : Type} (A : Applet κ) (view : κ → PukCounter) (limit : ℕ) (a : κ) (key : ManagementKey)
    (guesses : List LogicalCommand) (rs : List ResponseData) : Prop where
  authenticated : ∃ n pre answers own given, Preamble cipher access pre answers ∧
    Established cipher profile options key n own given ∧ n ≠ 0 ∧
    s.commands = (pre ++ own).map (explicitLe profile.legacyExplicitLe) ++
      [guessCommand profile.legacyExplicitLe replacement (eightDigits 0)] ∧
    s.responses = answers ++ given
  attempts : guesses.length ≤ (view a).remaining + limit ∧ guesses.length ≤ 30
  each : ∀ c ∈ guesses, ∃ old, old.length = 8 ∧
    c = guessCommand profile.legacyExplicitLe replacement old
  talks : ∃ m, s.op.machine = some m ∧ Talks (selectedMachine cipher (pinManagedMachine cipher)) A
    (Loops profile.legacyExplicitLe replacement) m a
    (guessCommand profile.legacyExplicitLe replacement (eightDigits 0))
    (guesses ++ [countCommand profile.legacyExplicitLe]) rs (.ok key.bytes)
  blocked : (view (performed A a
    (guesses ++ [countCommand profile.legacyExplicitLe]))).remaining = 0
  wrong : KeepsWrong A view false a guesses
  recounted : ∀ (card : Card κ) (page : ℕ), card.pending = [] → card.applet = a →
    (∀ a, (reply A a (countCommand profile.legacyExplicitLe)).data.length ≤ page) →
    page ≤ 256 → page + 2 ≤ options.exchange.maxResponseBytes →
    s.op.responseBytes + page ≤ min usizeMax options.limits.maxTotalResponseBytes →
    s.op.exchanges + guesses.length ≤ options.limits.maxExchanges →
    ∃ calls, Recounted (selectedMachine cipher (pinManagedMachine cipher)) A s card
      (guesses.length + 1) (guesses ++ [countCommand profile.legacyExplicitLe]).tail rs
      (.ok key.bytes)
      (performed A a (guesses ++ [countCommand profile.legacyExplicitLe])) calls

/-- An accepted authentication exposes the first CHANGE REFERENCE DATA, and from it on a conforming
card has its PUK blocked and the key comes back, after at most as many guesses as it has tries left
and gives for a right PUK. -/
theorem puk_blocking_terminates {bytes : Bytes} {access : Access}
    {op : Operation (Selected PinManaged) Bytes}
    (h : pinManaged profile (some bytes) access options = .ok op) :
    ∃ replacement : Replacement, replacement.1 = bytes.map digit ∧
      (∀ (calls : List Call) (call : Call), ExposesGuess cipher profile replacement access options
        (recorded (selectedMachine cipher (pinManagedMachine cipher)) op calls) call) ∧
      ∀ (calls : List Call) (call : Call) (c : LogicalCommand),
        begun (selectedMachine cipher (pinManagedMachine cipher))
          (recorded (selectedMachine cipher (pinManagedMachine cipher)) op calls).op call =
            some c →
        ChangesPuk c →
        (∀ x ∈ (recorded (selectedMachine cipher (pinManagedMachine cipher)) op calls).commands,
          ¬ ChangesPuk x) →
        ∀ {κ : Type} (A : Applet κ) (view : κ → PukCounter) (limit : ℕ) (a : κ),
          Conforming A view limit profile options → limit ≤ 15 → 0 < (view a).remaining →
          (view a).remaining ≤ limit →
          ∃ key guesses rs, BlocksPuk cipher profile replacement access options
            (recorded (selectedMachine cipher (pinManagedMachine cipher)) op (calls ++ [call]))
            A view limit a key guesses rs := by
  obtain ⟨replacement, hbytes, hop⟩ := pinManaged_replaces h
  obtain ⟨_, hop⟩ := withAccess_eq_ok.mp hop
  refine ⟨replacement, hbytes, fun calls call => exposes_guess (recorded_follows _ hop calls), ?_⟩
  intro calls call c hbegun hc hquiet κ A view limit a hA hlimit hpos hmost
  have hf := recorded_follows (selectedMachine cipher (pinManagedMachine cipher)) hop calls
  obtain ⟨input, m, m', k, total, hh, hm, hn, hk, hlt, hcall⟩ := begun_eq_some hf.lifecycle hbegun
  obtain ⟨hlast, _⟩ := hf.standing.lastTurn hh hm hn
  obtain ⟨key, n, pre, answers, own, given, hp, he, hzero, hcs, hrs, rfl, rfl⟩ :=
    selected_first_guess hlast hquiet hc
  obtain ⟨sel, hsel⟩ : ∃ sel : Selected PinManaged,
    sel = ⟨.target, profile.legacyExplicitLe, none, none,
      guessing profile options replacement key.bytes 1 false⟩ := ⟨_, rfl⟩
  have hlegacy : sel.explicitLe = profile.legacyExplicitLe := by rw [hsel]
  have hin : inTarget sel (guessing profile options replacement key.bytes 1 false) = sel := by
    rw [hsel]
    rfl
  have hn : tries (view a) limit false = (view a).remaining + limit := rfl
  have hunknown : false = true → (view a).stored = replacement.1 ∧
      eightDigits 0 = bump replacement.1 := by
    intro hfalse
    cases hfalse
  obtain ⟨guesses, rs, hlen, hblocks⟩ := @loop_blocks cipher profile options replacement key.bytes 1
    false κ A view limit a (eightDigits 0) sel hA hlimit _ hn hpos hmost (by omega) (by decide)
    hunknown
  have hop' : (recorded (selectedMachine cipher (pinManagedMachine cipher)) op
      (calls ++ [call])).op = waitingOp { (recorded (selectedMachine cipher
        (pinManagedMachine cipher)) op calls).op with machine := some sel } k
        ((recorded (selectedMachine cipher (pinManagedMachine cipher)) op calls).op.exchanges + 1)
        total := by
    rw [recorded_concat]
    change ((recorded _ op calls).op.call _ call).2 = _
    rw [hcall, hsel]
    rfl
  refine ⟨key, guesses, rs, ?_⟩
  constructor
  · refine ⟨n, pre, answers, own, given, hp, he, hzero, ?_, ?_⟩
    · rw [recorded_concat, ← hcs]
      simp only [Recorded.call, hbegun, Option.toList_some]
    · rw [recorded_concat]
      exact hrs
  · exact ⟨hlen, by omega⟩
  · have heach := hblocks.each
    rw [hlegacy] at heach
    exact heach
  · have htalks := hblocks.talks
    rw [hin, hlegacy] at htalks
    exact ⟨sel, by rw [hop']; rfl, htalks⟩
  · have hblocked := hblocks.blocked
    rw [hlegacy] at hblocked
    exact hblocked
  · exact hblocks.wrong
  · intro card page hcard ha hcount hpage hroom htotal hexchanges
    have htalks := hblocks.talks
    have hbytes := hblocks.length
    rw [hin, hlegacy] at htalks
    rw [hlegacy] at hbytes
    have hpaged := hcount (performed A a guesses)
    rw [hop'] at htotal hexchanges
    have htotal : total + page ≤ min usizeMax options.limits.maxTotalResponseBytes := htotal
    have hexchanges : (recorded (selectedMachine cipher (pinManagedMachine cipher)) op
      calls).op.exchanges + 1 + guesses.length ≤ options.limits.maxExchanges := hexchanges
    have hlength : (guesses ++ [countCommand profile.legacyExplicitLe]).length =
        guesses.length + 1 := by
      rw [List.length_append, List.length_singleton]
    rw [← hlength]
    have hvalid := fromMachine_valid hop
    have hresponse := hvalid.response
    rw [hf.lifecycle.options] at hk
    have hone := @loops_answers profile options replacement κ A view limit
      profile.legacyExplicitLe (eightDigits 0) hA hvalid page hpage hroom hcount ⟨k, hk⟩ (by decide)
    apply htalks.recorded hone (by omega)
      hop' hf.lifecycle.options hk rfl hcard ha
    · omega
    · rw [hlength]
      omega

/-- A card that keeps nothing but a PUK of three tries. -/
def counterApplet : Applet PukCounter := fun card command =>
  if command.header = changeHeader then
    if card.remaining = 0 then (⟨[], ⟨0x6983⟩⟩, card)
    else if command.data.take 8 = card.stored then
      (⟨[], ⟨0x9000⟩⟩, ⟨command.data.drop 8, 3⟩)
    else (⟨[], ⟨0x63c0 + UInt16.ofNat (card.remaining - 1)⟩⟩, ⟨card.stored, card.remaining - 1⟩)
  else (⟨[6, 2, 3, UInt8.ofNat card.remaining], ⟨0x9000⟩⟩, card)

theorem counterApplet_conforming :
    Conforming counterApplet (fun card => card) 3 exampleProfile {} := by
  constructor
  · intro a d le
    rfl
  · intro a old new hold hnew hpos hright
    refine ⟨⟨new, 3⟩, ?_, rfl⟩
    simp only [counterApplet]
    rw [if_pos trivial, if_neg (by omega), List.take_left' hold, if_pos hright,
      List.drop_left' hold]
  · intro a old new hold hnew hpos hwrong
    refine ⟨_, ⟨a.stored, a.remaining - 1⟩, ?_, Or.inl rfl, rfl⟩
    simp only [counterApplet]
    rw [if_pos trivial, if_neg (by omega), List.take_left' hold, if_neg hwrong]
  · intro a
    refine ⟨_, a, rfl, ⟨rfl, ?_⟩, rfl⟩
    exact ⟨_, 3, rfl, rfl⟩

/-- The exchanges of the first seven answers establish the key. -/
theorem example_established : ∃ own,
    Established exampleCipher exampleProfile {} exampleKey 1 own
      [success [0x53, 5, 0x80, 3, 0x81, 1, 3], success [6, 2, 3, 1],
        success ([0x53, 28, 0x88, 26, 0x89, 24] ++ exampleKey.bytes), success [1, 1, 10],
        success (template [(0x81, exampleChallenge.1)]), success []] := by
  have hadmin : Claims (success [0x53, 5, 0x80, 3, 0x81, 1, 3]) := ⟨rfl, _, rfl, rfl, rfl⟩
  have hpuk : Counts exampleProfile {} (success [6, 2, 3, 1]) 1 := ⟨rfl, _, 3, rfl, rfl⟩
  have hprinted : Stores (success ([0x53, 28, 0x88, 26, 0x89, 24] ++ exampleKey.bytes))
      exampleKey.bytes := ⟨rfl, rfl⟩
  exact ⟨_, .exchanges exampleChallenge hadmin hpuk hprinted⟩

/-- The PUK is the third guess: it is replaced, and then blocked by three wrong ones. -/
theorem puk_blocking_terminates_third :
    ∃ op, pinManaged exampleProfile (some [1, 2, 3, 4, 5, 6, 7, 8]) .existing {} = .ok op ∧
      ∃ replacement key guesses rs calls,
        BlocksPuk exampleCipher exampleProfile replacement .existing {}
          (recorded (selectedMachine exampleCipher (pinManagedMachine exampleCipher)) op
            (exampleAnswers.take 7))
          counterApplet (fun card => card) 3 ⟨eightDigits 2, 3⟩ key guesses rs ∧
        Ends (recorded (selectedMachine exampleCipher (pinManagedMachine exampleCipher)) op
          (exampleAnswers.take 7 ++ calls)).op (.ok key.bytes) := by
  have hop : pinManaged exampleProfile (some [1, 2, 3, 4, 5, 6, 7, 8]) .existing {} = .ok _ := rfl
  obtain ⟨replacement, hbytes, hexposes, hblocks⟩ :=
    @puk_blocking_terminates exampleCipher _ _ _ _ _ hop
  have haccepted : Accepted {} (guessCommand exampleProfile.legacyExplicitLe replacement
      (eightDigits 0)) := by
    obtain ⟨replacement, _⟩ := replacement
    cases hbytes
    exact ⟨_, rfl⟩
  obtain ⟨own, hestablished⟩ := example_established
  obtain ⟨hbegun, hchanges, hquiet⟩ := hexposes (exampleAnswers.take 6) (.advance [0x90, 0])
    (success []) exampleKey 1 [] own [] _ .existing hestablished (by decide) rfl rfl haccepted
    (by decide)
  obtain ⟨key, guesses, rs, hblocked⟩ := hblocks (exampleAnswers.take 6) (.advance [0x90, 0]) _
    hbegun hchanges hquiet counterApplet (fun card => card) 3 ⟨eightDigits 2, 3⟩
    counterApplet_conforming (by decide) (by decide) (by decide)
  have hlen := hblocked.attempts.2
  obtain ⟨calls, hcalls⟩ := hblocked.recounted { applet := ⟨eightDigits 2, 3⟩ } 4 rfl rfl
    (fun _ => Nat.le_refl 4) (by decide) (by decide) (by decide)
    (Nat.le_trans (Nat.add_le_add_left hlen 7) (by decide))
  refine ⟨_, hop, replacement, key, guesses, rs, calls, hblocked, ?_⟩
  rw [recorded_more]
  exact hcalls.ends

end PivPukBlocking
