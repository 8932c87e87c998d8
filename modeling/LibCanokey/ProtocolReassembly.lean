import LibCanokey.ProtocolOperation
import LibCanokey.ProtocolSegmentation

/-! # Response reassembly: ISO continuation and OATH pages

A script that keeps a conversation going splits into the acknowledgements of the chained
frames and a body. The body determines the data under either continuation policy. -/
namespace ProtocolReassembly

open BigEndian ProtocolError ProtocolApdu ProtocolConversation ProtocolSegmentation
open ProtocolOperation ScriptedRuns

def acknowledgement : ResponseApdu := ⟨[], ⟨0x9000⟩⟩

/-- The acknowledgements every frame but the last needs. -/
def acknowledgements (c : ConversationState) : List ResponseApdu :=
  List.replicate c.pending.length acknowledgement

/-- Acknowledging frames leaves the reassembly state alone. -/
structure SameProgress (c t : ConversationState) : Prop where
  data : t.data = c.data
  correctLe : t.correctLe = c.correctLe
  continuation : t.continuation = c.continuation
  continuing : t.continuing = c.continuing
  oathPoll : t.oathPoll = c.oathPoll

theorem SameProgress.refl (c : ConversationState) : SameProgress c c := ⟨rfl, rfl, rfl, rfl, rfl⟩

theorem SameProgress.of_next {c t : ConversationState} {next : CommandApdu}
    {rest : List CommandApdu}
    (h : SameProgress { c with current := next, pending := rest, corrected := false } t) :
    SameProgress c t :=
  ⟨h.data, h.correctLe, h.continuation, h.continuing, h.oathPoll⟩

section frames

variable {options : OperationOptions} {c c' : ConversationState} {r : ResponseApdu}

theorem goes_pending {next : CommandApdu} {rest : List CommandApdu}
    (hp : c.pending = next :: rest) :
    Goes options c r c' ↔ r = acknowledgement ∧
      c' = { c with current := next, pending := rest, corrected := false } := by
  constructor
  · intro h
    cases h with
    | acknowledged n t hn hr =>
      obtain ⟨rfl, rfl⟩ := List.cons.inj (hn.symm.trans hp)
      exact ⟨hr, rfl⟩
    | corrected _ _ _ hp' => rw [hp] at hp'; cases hp'
    | sentRemaining _ _ _ hp' => rw [hp] at hp'; cases hp'
    | gotResponse _ _ hp' => rw [hp] at hp'; cases hp'
  · rintro ⟨rfl, rfl⟩
    exact .acknowledged next rest hp rfl

/-- Acknowledging every frame reaches the last one. -/
theorem after_acknowledgements (options : OperationOptions) (c : ConversationState) :
    ∃ t, after (ConversationState.advance options) c (acknowledgements c) = some t ∧
      t.pending = [] ∧ SameProgress c t := by
  generalize hn : c.pending = pending
  induction pending generalizing c with
  | nil => exact ⟨c, by rw [acknowledgements, hn]; rfl, hn, .refl c⟩
  | cons next rest ih =>
    let c₁ : ConversationState :=
      { c with current := next, pending := rest, corrected := false }
    obtain ⟨t, ht, hp, hs⟩ := ih c₁ rfl
    have hgo : Goes options c acknowledgement c₁ := (goes_pending hn).mpr ⟨rfl, rfl⟩
    refine ⟨t, ?_, hp, hs.of_next⟩
    rw [acknowledgements, hn, List.length_cons, List.replicate_succ,
      after_cons (advance_goes.mpr hgo)]
    exact ht

/-- A script that goes on acknowledges every frame before anything else, or is too short. -/
theorem after_split {script : List ResponseApdu}
    (h : after (ConversationState.advance options) c script = some c') :
    (∃ body t, script = acknowledgements c ++ body ∧ t.pending = [] ∧ SameProgress c t ∧
      after (ConversationState.advance options) t body = some c') ∨
    (script.length < c.pending.length ∧ c'.pending ≠ []) := by
  induction script generalizing c with
  | nil =>
    obtain rfl : c = c' := Option.some.inj h
    cases hp : c.pending with
    | nil => exact Or.inl ⟨[], c, by rw [acknowledgements, hp]; rfl, hp, .refl c, rfl⟩
    | cons next rest => exact Or.inr ⟨by simp, by simp⟩
  | cons r script ih =>
    cases hp : c.pending with
    | nil => exact Or.inl ⟨r :: script, c, by rw [acknowledgements, hp]; rfl, hp, .refl c, h⟩
    | cons next rest =>
      obtain ⟨c₁, hgo, h⟩ := after_cons_eq_some.mp h
      obtain ⟨rfl, rfl⟩ := (goes_pending hp).mp (advance_goes.mp hgo)
      rcases ih h with ⟨body, t, rfl, ht, hs, hbody⟩ | ⟨hlen, hne⟩
      · refine Or.inl ⟨body, t, ?_, ht, hs.of_next, hbody⟩
        rw [acknowledgements, acknowledgements, hp]
        rfl
      · exact Or.inr ⟨by simpa using hlen, hne⟩

/-- A response that does not go on from a pending frame never returns either. -/
theorem after_split_of_le {script : List ResponseApdu}
    (h : after (ConversationState.advance options) c script = some c')
    (hlen : c.pending.length ≤ script.length) :
    ∃ body t, script = acknowledgements c ++ body ∧ t.pending = [] ∧ SameProgress c t ∧
      after (ConversationState.advance options) t body = some c' := by
  rcases after_split h with hs | ⟨hlt, _⟩
  · exact hs
  · omega

end frames

/-- What new conversations start from. -/
theorem new_progress {logical : LogicalCommand} {options : OperationOptions}
    {c : ConversationState} (h : ConversationState.new logical options = .ok c) :
    c.data = [] ∧ c.continuation = logical.continuation ∧ c.continuing = false ∧
      c.oathPoll = false ∧ c.corrected = false ∧ c.correctLe = logical.correctLe := by
  obtain ⟨_, _, le, current, pending, _, _, _, rfl⟩ := new_eq_ok h
  exact ⟨rfl, rfl, rfl, rfl, rfl, rfl⟩

/-- The data of the 61xx responses, in arrival order. -/
def continuedData (body : List ResponseApdu) : Bytes :=
  (body.filter fun r => is61 r.status.raw).flatMap ResponseApdu.data

theorem is6c_not_61 {sw : UInt16} (h : is6c sw = true) : is61 sw = false := by
  cases hs : is61 sw with
  | false => rfl
  | true => rw [is61_not_6c hs] at h; cases h

section iso

variable {options : OperationOptions} {t c' : ConversationState} {cla : UInt8}

/-- What one turn of an ISO conversation does once the last frame is out. -/
theorem goes_iso {r : ResponseApdu} (hp : t.pending = []) (hk : t.continuation = .iso7816 cla)
    (h : Goes options t r c') :
    c'.pending = [] ∧ c'.continuation = .iso7816 cla ∧
    ((is6c r.status.raw = true ∧ t.corrected = false ∧ c'.corrected = true ∧
        c'.data = t.data ∧ c'.continuing = t.continuing) ∨
      (is61 r.status.raw = true ∧ (t.continuing = true → r.data ≠ []) ∧ c'.corrected = false ∧
        c'.data = t.data ++ r.data ∧ c'.continuing = true)) := by
  cases h with
  | corrected current hsw hle _ hc hfit hcur hlen =>
    exact ⟨hp, hk, Or.inl ⟨hsw, hc, rfl, rfl, rfl⟩⟩
  | acknowledged next rest hn hr => rw [hp] at hn; cases hn
  | sentRemaining i probe current _ hcont => rw [hk] at hcont; cases hcont
  | gotResponse cla' current _ hcont hsw hd hcur => exact ⟨hp, hk, Or.inr ⟨hsw, hd, rfl, rfl, rfl⟩⟩

theorem after_iso {body : List ResponseApdu} (hp : t.pending = [])
    (hk : t.continuation = .iso7816 cla)
    (h : after (ConversationState.advance options) t body = some c') :
    c'.pending = [] ∧ c'.continuation = .iso7816 cla ∧
      c'.data = t.data ++ continuedData body ∧
      (∀ r ∈ body, is61 r.status.raw = true ∨ is6c r.status.raw = true) ∧
      ((t.continuing = true ∨ ∃ r ∈ body, is61 r.status.raw = true) → c'.continuing = true) := by
  induction body generalizing t with
  | nil =>
    cases h
    exact ⟨hp, hk, by simp [continuedData], by simp, by simp⟩
  | cons r body ih =>
    obtain ⟨u, hgo, h⟩ := after_cons_eq_some.mp h
    obtain ⟨hpu, hku, hcase⟩ := goes_iso hp hk (advance_goes.mp hgo)
    obtain ⟨hp', hk', hdata, hall, hcont⟩ := ih hpu hku h
    refine ⟨hp', hk', ?_, ?_, ?_⟩
    · rcases hcase with ⟨h6c, _, _, hd, _⟩ | ⟨h61, _, _, hd, _⟩
      · rw [hdata, hd]
        simp [continuedData, is6c_not_61 h6c]
      · rw [hdata, hd]
        simp [continuedData, h61]
    · intro r' hr'
      rcases List.mem_cons.mp hr' with rfl | hr'
      · exact hcase.elim (fun h => Or.inr h.1) (fun h => Or.inl h.1)
      · exact hall r' hr'
    · intro hsome
      apply hcont
      rcases hcase with ⟨h6c, _, _, _, hc⟩ | ⟨_, _, _, _, hc⟩
      · rcases hsome with hc' | ⟨r', hr', h61⟩
        · exact Or.inl (hc.trans hc')
        · rcases List.mem_cons.mp hr' with rfl | hr'
          · rw [is6c_not_61 h6c] at h61; cases h61
          · exact Or.inr ⟨r', hr', h61⟩
      · exact Or.inl hc

/-- How many more turns can pass without accepted data. -/
def idleBudget (c : ConversationState) : ℕ :=
  (if c.corrected then 0 else 1) + (if c.continuing then 0 else 2)

theorem idle_stretch {stretch : List ResponseApdu} (hp : t.pending = [])
    (hk : t.continuation = .iso7816 cla)
    (h : after (ConversationState.advance options) t stretch = some c')
    (hidle : ∀ r ∈ stretch, is61 r.status.raw = true → r.data = []) :
    stretch.length + idleBudget c' ≤ idleBudget t := by
  induction stretch generalizing t with
  | nil => cases h; simp
  | cons r stretch ih =>
    obtain ⟨u, hgo, h⟩ := after_cons_eq_some.mp h
    obtain ⟨hpu, hku, hcase⟩ := goes_iso hp hk (advance_goes.mp hgo)
    have hrec := ih hpu hku h (fun r' hr' => hidle r' (List.mem_cons_of_mem _ hr'))
    have hstep : idleBudget u + 1 ≤ idleBudget t := by
      rcases hcase with ⟨_, hc, hc', _, hcont⟩ | ⟨h61, hd, hc', _, hcont'⟩
      · simp [idleBudget, hc, hc', hcont, Nat.add_comm]
      · have hnot : t.continuing = false := by
          cases hcont : t.continuing with
          | false => rfl
          | true => exact absurd (hidle r List.mem_cons_self h61) (hd hcont)
        simp only [idleBudget, hc', hcont', hnot]
        split_ifs <;> simp_all
    rw [List.length_cons]
    omega

theorem idleBudget_le (c : ConversationState) : idleBudget c ≤ 3 := by
  simp only [idleBudget]
  split_ifs <;> omega

theorem empty_61_violates {r : ResponseApdu} (hp : t.pending = [])
    (hk : t.continuation = .iso7816 cla) (hc : t.continuing = true)
    (h61 : is61 r.status.raw = true) (hd : r.data = []) :
    t.advance options r = .error (conversationError .protocolViolation) := by
  rw [advance_proceed (not_correctable_of_not_6c (is61_not_6c h61)) hp, proceed_iso hk,
    if_pos h61, ConversationState.getResponse, if_pos ⟨hc, hd⟩]

end iso

theorem data_in_acknowledgement_violates {options : OperationOptions} {c : ConversationState}
    {r : ResponseApdu} (hp : c.pending ≠ []) (hs : r.status = ⟨0x9000⟩) (hd : r.data ≠ []) :
    c.advance options r = .error (conversationError .protocolViolation) := by
  rw [advance_pending hp, ConversationState.acknowledge, hs, if_neg (by decide), if_pos hd]

/-- An ISO conversation returns the 61xx data in order, then the terminating response;
unproductive responses end it, and at most three turns pass without accepted data. -/
theorem iso_reassembly {logical : LogicalCommand} {options : OperationOptions}
    {c₀ : ConversationState} {cla : UInt8}
    (h₀ : ConversationState.new logical options = .ok c₀)
    (hk : logical.continuation = .iso7816 cla) :
    (∀ script d, Returns (ConversationState.advance options) c₀ script d →
      ∃ body last, script = acknowledgements c₀ ++ body ++ [last] ∧
        (∀ r ∈ body, is61 r.status.raw = true ∨ is6c r.status.raw = true) ∧
        d.data = continuedData body ++ last.data ∧ d.status = last.status) ∧
    (∀ script c r, after (ConversationState.advance options) c₀ script = some c →
      (∃ r' ∈ script.drop c₀.pending.length, is61 r'.status.raw = true) →
      is61 r.status.raw = true → r.data = [] →
      EndsOperation options c r (conversationError .protocolViolation)) ∧
    (∀ script c r, after (ConversationState.advance options) c₀ script = some c →
      script.length < c₀.pending.length → r.status = ⟨0x9000⟩ → r.data ≠ [] →
      EndsOperation options c r (conversationError .protocolViolation)) ∧
    (∀ before stretch c, after (ConversationState.advance options) c₀ (before ++ stretch) = some c →
      c₀.pending.length ≤ before.length →
      (∀ r ∈ stretch, is61 r.status.raw = true → r.data = []) → stretch.length ≤ 3) := by
  obtain ⟨hd₀, hk₀, hc₀, _⟩ := new_progress h₀
  have hlast : ∀ script c, after (ConversationState.advance options) c₀ script = some c →
      c₀.pending.length ≤ script.length →
      ∃ body t, script = acknowledgements c₀ ++ body ∧ t.pending = [] ∧
        t.continuation = .iso7816 cla ∧ t.data = [] ∧
        after (ConversationState.advance options) t body = some c := by
    intro script c h hlen
    obtain ⟨body, t, hs, hp, hsame, hb⟩ := after_split_of_le h hlen
    exact ⟨body, t, hs, hp, by rw [hsame.continuation, hk₀, hk], by rw [hsame.data, hd₀], hb⟩
  refine ⟨?_, ?_, ?_, ?_⟩
  · rintro script d ⟨init, last, c, u, rfl, hinit, hret⟩
    obtain ⟨hfin, _⟩ := advance_finishes.mp hret
    have hpc : c.pending = [] := by cases hfin <;> assumption
    have hlen : c₀.pending.length ≤ init.length := by
      rcases after_split hinit with ⟨body, _, rfl, _⟩ | ⟨_, hne⟩
      · simp [acknowledgements]
      · exact absurd hpc hne
    obtain ⟨body, t, rfl, hpt, hkt, hdt, hb⟩ := hlast init c hinit hlen
    obtain ⟨_, hkc, hdata, hall, _⟩ := after_iso hpt hkt hb
    refine ⟨body, last, rfl, hall, ?_⟩
    cases hfin with
    | polled i probe _ hcont => rw [hkc] at hcont; cases hcont
    | final =>
      rw [hdt, List.nil_append] at hdata
      exact ⟨by rw [hdata], rfl⟩
  · rintro script c r h ⟨r', hr', h61'⟩ h61 hd
    have hlen : c₀.pending.length ≤ script.length := by
      by_contra hlt
      rw [List.drop_eq_nil_of_le (by omega)] at hr'
      cases hr'
    obtain ⟨body, t, rfl, hpt, hkt, _, hb⟩ := hlast script c h hlen
    obtain ⟨hpc, hkc, _, _, hcont⟩ := after_iso hpt hkt hb
    have hmem : r' ∈ body := by
      rw [List.drop_left' (by simp [acknowledgements])] at hr'
      exact hr'
    exact endsOperation (empty_61_violates hpc hkc (hcont (Or.inr ⟨r', hmem, h61'⟩)) h61 hd)
  · intro script c r h hlen hs hd
    rcases after_split h with ⟨body, _, rfl, _⟩ | ⟨_, hne⟩
    · simp [acknowledgements] at hlen
    · exact endsOperation (data_in_acknowledgement_violates hne hs hd)
  · intro before stretch c h hlen hidle
    obtain ⟨t, hbefore, hstretch⟩ := after_append_eq_some.mp h
    obtain ⟨body, u, _, hpu, hku, _, hb⟩ := hlast before t hbefore hlen
    obtain ⟨hpt, hkt, _⟩ := after_iso hpu hku hb
    have hbound := idle_stretch hpt hkt hstretch hidle
    have := idleBudget_le t
    omega

/-- Two acknowledged fragments, one 61xx page and the final one; the same conversation
ends at an unproductive page, and at data in answer to its first fragment. -/
theorem iso_reassembly_chained :
    ∃ c₀ c, ConversationState.new chainedExample narrowOptions = .ok c₀ ∧
      (∃ body last, [acknowledgement, acknowledgement, ⟨[7], ⟨0x6102⟩⟩, ⟨[8, 9], ⟨0x9000⟩⟩] =
        acknowledgements c₀ ++ body ++ [last] ∧
        (∀ r ∈ body, is61 r.status.raw = true ∨ is6c r.status.raw = true) ∧
        [7, 8, 9] = continuedData body ++ last.data ∧ ⟨0x9000⟩ = last.status) ∧
      after (ConversationState.advance narrowOptions) c₀
        [acknowledgement, acknowledgement, ⟨[7], ⟨0x6102⟩⟩] = some c ∧
      EndsOperation narrowOptions c ⟨[], ⟨0x6102⟩⟩ (conversationError .protocolViolation) ∧
      EndsOperation narrowOptions c₀ ⟨[7], ⟨0x9000⟩⟩ (conversationError .protocolViolation) := by
  have h₀ : ConversationState.new chainedExample narrowOptions = .ok _ := rfl
  obtain ⟨hreturns, hempty, hdata, _⟩ := iso_reassembly h₀ rfl
  refine ⟨_, _, h₀, ?_, rfl, ?_, ?_⟩
  · exact hreturns _ ⟨[7, 8, 9], ⟨0x9000⟩⟩
      ⟨[acknowledgement, acknowledgement, ⟨[7], ⟨0x6102⟩⟩], ⟨[8, 9], ⟨0x9000⟩⟩, _, _, rfl, rfl, rfl⟩
  · exact hempty [acknowledgement, acknowledgement, ⟨[7], ⟨0x6102⟩⟩] _ _ rfl
      ⟨_, List.mem_singleton_self _, by decide⟩ (by decide) rfl
  · exact hdata [] _ _ rfl (by decide) rfl (by decide)

section oath

variable {options : OperationOptions} {t c' : ConversationState} {instruction : UInt8}
  {probe : Bool}

/-- A page is nonempty and announces more, or succeeds where success is polled. -/
def IsPage (probe : Bool) (r : ResponseApdu) : Prop :=
  r.data ≠ [] ∧ (is61 r.status.raw = true ∨ probe = true ∧ r.status = ⟨0x9000⟩)

instance (probe : Bool) : DecidablePred (IsPage probe) :=
  fun _ => inferInstanceAs (Decidable (_ ∧ _))

theorem IsPage.more {r : ResponseApdu} (h : IsPage probe r) : morePages probe r = true := by
  obtain ⟨hd, h61 | ⟨hp, hs⟩⟩ := h
  · simp [morePages, h61]
  · simp [morePages, hp, hs, hd]

theorem sendRemaining_encodes (hv : options.Valid) (instruction : UInt8) :
    CommandApdu.encode ⟨0, instruction, 0, 0⟩ []
      (.exact (min 255 (options.exchange.maxResponseBytes - 2))) .short =
    .ok (.build ⟨0, instruction, 0, 0⟩ []
      (.exact (min 255 (options.exchange.maxResponseBytes - 2))) .short) := by
  have hr := hv.response
  apply encode_eq_ok.mpr
  refine ⟨by decide, ⟨?_, ?_⟩, rfl⟩
  · omega
  · change _ ≤ 256
    omega

theorem page_goes (hv : options.Valid) {r : ResponseApdu} (hp : t.pending = [])
    (hk : t.continuation = .oath instruction probe) (h : IsPage probe r) :
    ∃ u, t.advance options r = .ok (none, u) ∧ u.pending = [] ∧
      u.continuation = .oath instruction probe ∧ u.data = t.data ++ r.data ∧
      u.oathPoll = (r.status.raw == 0x9000) ∧ u.correctLe = false :=
  ⟨_, advance_goes.mpr (.sentRemaining instruction probe _ hp hk h.more h.1
    (sendRemaining_encodes hv instruction)), hp, hk, rfl, rfl, rfl⟩

/-- Serving pages accumulates their data and remembers how the last one was served. -/
theorem after_pages (hv : options.Valid) {pages : List ResponseApdu} (hp : t.pending = [])
    (hk : t.continuation = .oath instruction probe) (h : ∀ r ∈ pages, IsPage probe r) :
    ∃ u, after (ConversationState.advance options) t pages = some u ∧ u.pending = [] ∧
      u.continuation = .oath instruction probe ∧
      u.data = t.data ++ pages.flatMap ResponseApdu.data ∧
      (∀ r, pages.getLast? = some r → u.oathPoll = (r.status.raw == 0x9000)) := by
  induction pages generalizing t with
  | nil => exact ⟨t, rfl, hp, hk, by simp, fun r hr => by cases hr⟩
  | cons r pages ih =>
    obtain ⟨u, hgo, hpu, hku, hdu, hou, _⟩ := page_goes hv hp hk (h r List.mem_cons_self)
    obtain ⟨w, hw, hpw, hkw, hdw, how⟩ :=
      ih hpu hku (fun r' hr' => h r' (List.mem_cons_of_mem _ hr'))
    refine ⟨w, by rw [after_cons hgo, hw], hpw, hkw, ?_, ?_⟩
    · rw [hdw, hdu, List.flatMap_cons, List.append_assoc]
    · intro last hlast
      cases pages with
      | nil =>
        cases hlast
        cases hw
        exact hou
      | cons r' pages =>
        rw [List.getLast?_cons_cons] at hlast
        exact how last hlast

/-- The turns of an OATH conversation after its last frame: a correction or a page. -/
theorem goes_oath {r : ResponseApdu} (hp : t.pending = [])
    (hk : t.continuation = .oath instruction probe) (h : Goes options t r c') :
    c'.pending = [] ∧ c'.continuation = .oath instruction probe ∧
    ((is6c r.status.raw = true ∧ c'.oathPoll = t.oathPoll) ∨
      (morePages probe r = true ∧ c'.oathPoll = (r.status.raw == 0x9000))) := by
  cases h with
  | corrected current hsw hle _ hc hfit hcur hlen => exact ⟨hp, hk, Or.inl ⟨hsw, rfl⟩⟩
  | acknowledged next rest hn hr => rw [hp] at hn; cases hn
  | sentRemaining i probe' current _ hcont hmore hd hcur =>
    cases hk.symm.trans hcont
    exact ⟨hp, hk, Or.inr ⟨hmore, rfl⟩⟩
  | gotResponse cla current _ hcont => rw [hk] at hcont; cases hcont

theorem after_oath {body : List ResponseApdu} (hp : t.pending = [])
    (hk : t.continuation = .oath instruction probe)
    (h : after (ConversationState.advance options) t body = some c') :
    c'.pending = [] ∧ c'.continuation = .oath instruction probe := by
  refine after_invariant (fun c => c.pending = [] ∧ c.continuation = .oath instruction probe)
    ?_ ⟨hp, hk⟩ h
  intro s i u hs hu
  obtain ⟨hpu, hku, _⟩ := goes_oath hs.1 hs.2 (advance_goes.mp hu)
  exact ⟨hpu, hku⟩

theorem oath_empty_61_violates {r : ResponseApdu} (hp : t.pending = [])
    (hk : t.continuation = .oath instruction probe) (h61 : is61 r.status.raw = true)
    (hd : r.data = []) :
    t.advance options r = .error (conversationError .protocolViolation) := by
  have hmore : morePages probe r = true := by simp [morePages, h61]
  rw [advance_proceed (not_correctable_of_not_6c (is61_not_6c h61)) hp, proceed_oath hk,
    if_neg (fun hpoll => morePages_not_6985 hmore hpoll.2.1), if_pos hmore,
    ConversationState.sendRemaining, if_pos hd]

/-- A final status returns what was gathered, unless it is the end of a poll. -/
theorem oath_final (options : OperationOptions) {r : ResponseApdu} (hp : t.pending = [])
    (hk : t.continuation = .oath instruction probe) (h6c : is6c r.status.raw = false)
    (hmore : morePages probe r = false) (hpoll : t.oathPoll = true → r ≠ ⟨[], ⟨0x6985⟩⟩) :
    t.advance options r = .ok (some ⟨t.data ++ r.data, r.status⟩, { t with data := [] }) := by
  apply advance_finishes.mpr
  refine ⟨.final hp (not_correctable_of_not_6c h6c) ?_ ?_ ?_, rfl⟩
  · intro _ _ _ ho
    exact hpoll ho
  · intro i probe' hi
    cases hk.symm.trans hi
    exact hmore
  · intro cla hi; cases hk.symm.trans hi

end oath

/-- OATH conversations return every page exactly once, whatever marks the end. -/
theorem oath_pages {logical : LogicalCommand} {options : OperationOptions}
    {c₀ : ConversationState} {instruction : UInt8} {probe : Bool} (hv : options.Valid)
    (h₀ : ConversationState.new logical options = .ok c₀)
    (hk : logical.continuation = .oath instruction probe) :
    (∀ pages, pages ≠ [] → (∀ r ∈ pages, IsPage probe r) →
      Returns (ConversationState.advance options) c₀
        (acknowledgements c₀ ++ pages ++ [⟨[], ⟨0x9000⟩⟩])
        ⟨pages.flatMap ResponseApdu.data, ⟨0x9000⟩⟩ ∧
      ((∃ r, pages.getLast? = some r ∧ r.status = ⟨0x9000⟩) →
        Returns (ConversationState.advance options) c₀
          (acknowledgements c₀ ++ pages ++ [⟨[], ⟨0x6985⟩⟩])
          ⟨pages.flatMap ResponseApdu.data, ⟨0x9000⟩⟩)) ∧
    (probe = false → ∀ pages last, (∀ r ∈ pages, IsPage probe r) → last ≠ [] →
      Returns (ConversationState.advance options) c₀
        (acknowledgements c₀ ++ pages ++ [⟨last, ⟨0x9000⟩⟩])
        ⟨pages.flatMap ResponseApdu.data ++ last, ⟨0x9000⟩⟩) ∧
    (∀ script c r, after (ConversationState.advance options) c₀ script = some c →
      c₀.pending.length ≤ script.length → is61 r.status.raw = true → r.data = [] →
      EndsOperation options c r (conversationError .protocolViolation)) ∧
    (∀ script c r, after (ConversationState.advance options) c₀ script = some c →
      c₀.pending.length ≤ script.length → r.status = ⟨0x6985⟩ →
      (r.data ≠ [] ∨ ∃ page, script.getLast? = some page ∧ is61 page.status.raw = true) →
      ∃ d c', c.advance options r = .ok (some d, c') ∧ d.status = ⟨0x6985⟩) := by
  obtain ⟨hd₀, hk₀, _⟩ := new_progress h₀
  obtain ⟨t, hacks, hpt, hsame⟩ := after_acknowledgements options c₀
  have hkt : t.continuation = .oath instruction probe := by rw [hsame.continuation, hk₀, hk]
  have hdt : t.data = [] := by rw [hsame.data, hd₀]
  have hserved : ∀ pages, (∀ r ∈ pages, IsPage probe r) →
      ∃ u, after (ConversationState.advance options) c₀ (acknowledgements c₀ ++ pages) = some u ∧
        u.pending = [] ∧ u.continuation = .oath instruction probe ∧
        u.data = pages.flatMap ResponseApdu.data ∧
        (∀ r, pages.getLast? = some r → u.oathPoll = (r.status.raw == 0x9000)) := by
    intro pages hpages
    obtain ⟨u, hu, hpu, hku, hdu, hou⟩ := after_pages hv hpt hkt hpages
    refine ⟨u, by rw [after_append, hacks]; exact hu, hpu, hku, ?_, hou⟩
    rw [hdu, hdt, List.nil_append]
  have hlater : ∀ script c, after (ConversationState.advance options) c₀ script = some c →
      c₀.pending.length ≤ script.length →
      c.pending = [] ∧ c.continuation = .oath instruction probe := by
    intro script c h hlen
    obtain ⟨body, u, _, hpu, hsu, hb⟩ := after_split_of_le h hlen
    exact after_oath hpu (by rw [hsu.continuation, hk₀, hk]) hb
  refine ⟨?_, ?_, ?_, ?_⟩
  · intro pages hne hpages
    obtain ⟨u, hu, hpu, hku, hdu, hou⟩ := hserved pages hpages
    refine ⟨⟨_, _, u, { u with data := [] }, rfl, hu, ?_⟩, ?_⟩
    · have h := oath_final options (r := ⟨[], ⟨0x9000⟩⟩) hpu hku
        (by decide) (by cases probe <;> decide) (fun _ => by decide)
      rw [List.append_nil, hdu] at h
      exact h
    · rintro ⟨last, hlast, hs⟩
      have hpoll : u.oathPoll = true := by rw [hou last hlast, hs]; decide
      refine ⟨_, _, u, { u with data := [] }, rfl, hu, advance_finishes.mpr ⟨?_, rfl⟩⟩
      rw [← hdu]
      exact .polled instruction probe hpu hku hpoll rfl
  · rintro rfl pages last hpages hne
    obtain ⟨u, hu, hpu, hku, hdu, _⟩ := hserved pages hpages
    refine ⟨_, _, u, { u with data := [] }, rfl, hu, ?_⟩
    have h61 : is61 0x9000 = false := by decide
    have h := oath_final options (r := ⟨last, ⟨0x9000⟩⟩) hpu hku
      (show is6c 0x9000 = false by decide) (by simp [morePages, h61])
      (fun _ he => by cases he)
    rw [hdu] at h
    exact h
  · intro script c r h hlen h61 hd
    obtain ⟨hpc, hkc⟩ := hlater script c h hlen
    exact endsOperation (oath_empty_61_violates hpc hkc h61 hd)
  · intro script c r h hlen hs hwhy
    obtain ⟨hpc, hkc⟩ := hlater script c h hlen
    have h6c : is6c r.status.raw = false := by rw [hs]; decide
    have hmore : morePages probe r = false := by
      cases hm : morePages probe r with
      | false => rfl
      | true => exact absurd (by rw [hs]) (morePages_not_6985 hm)
    refine ⟨_, _, oath_final options hpc hkc h6c hmore ?_, hs⟩
    intro hpoll hr
    rcases hwhy with hd | ⟨page, hpage, h61⟩
    · rw [hr] at hd; exact hd rfl
    · -- the last turn was this page, and it switched the poll flag off
      obtain ⟨init, rfl⟩ := List.getLast?_eq_some_iff.mp hpage
      obtain ⟨u, hinit, hlast⟩ := after_append_eq_some.mp h
      obtain ⟨v, hgo, hv'⟩ := after_cons_eq_some.mp hlast
      cases hv'
      cases advance_goes.mp hgo with
      | corrected _ hsw => rw [is61_not_6c h61] at hsw; cases hsw
      | acknowledged _ _ _ hr' => rw [hr'] at h61; revert h61; decide
      | sentRemaining _ _ _ _ _ hm =>
        have h9000 : page.status.raw = 0x9000 := by simpa using hpoll
        rw [h9000] at h61
        revert h61
        decide
      | gotResponse _ _ _ hcont => cases hkc.symm.trans hcont

/-- CALCULATE ALL, polled after success. -/
def polledExample : LogicalCommand :=
  { header := ⟨0, 0xa4, 0, 1⟩, data := [0x74, 1, 9], le := .absent,
    continuation := .oath 0x06 true }

def unpolledExample : LogicalCommand := { polledExample with continuation := .oath 0xa5 false }

theorem oath_pages_polled :
    ∃ c₀ c c₁, ConversationState.new polledExample {} = .ok c₀ ∧
      Returns (ConversationState.advance {}) c₀
        [⟨[1, 2], ⟨0x6110⟩⟩, ⟨[3], ⟨0x9000⟩⟩, ⟨[], ⟨0x9000⟩⟩] ⟨[1, 2, 3], ⟨0x9000⟩⟩ ∧
      Returns (ConversationState.advance {}) c₀
        [⟨[1, 2], ⟨0x6110⟩⟩, ⟨[3], ⟨0x9000⟩⟩, ⟨[], ⟨0x6985⟩⟩] ⟨[1, 2, 3], ⟨0x9000⟩⟩ ∧
      after (ConversationState.advance {}) c₀ [⟨[1, 2], ⟨0x6110⟩⟩] = some c ∧
      EndsOperation {} c ⟨[], ⟨0x6110⟩⟩ (conversationError .protocolViolation) ∧
      (∃ d c', c.advance {} ⟨[], ⟨0x6985⟩⟩ = .ok (some d, c') ∧ d.status = ⟨0x6985⟩) ∧
      ConversationState.new unpolledExample {} = .ok c₁ ∧
      Returns (ConversationState.advance {}) c₁ [⟨[1, 2], ⟨0x6110⟩⟩, ⟨[3], ⟨0x9000⟩⟩]
        ⟨[1, 2, 3], ⟨0x9000⟩⟩ := by
  have hv : OperationOptions.Valid {} := by constructor <;> decide
  have h₀ : ConversationState.new polledExample {} = .ok _ := rfl
  have h₁ : ConversationState.new unpolledExample {} = .ok _ := rfl
  have hfirst : ∀ probe, ∀ r ∈ [(⟨[1, 2], ⟨0x6110⟩⟩ : ResponseApdu)], IsPage probe r := by
    intro probe r hr
    obtain rfl := List.mem_singleton.mp hr
    exact ⟨by decide, Or.inl (by decide)⟩
  have hpages : ∀ r ∈ [(⟨[1, 2], ⟨0x6110⟩⟩ : ResponseApdu), ⟨[3], ⟨0x9000⟩⟩], IsPage true r := by
    intro r hr
    rcases List.mem_cons.mp hr with rfl | hr
    · exact hfirst true _ (List.mem_singleton_self _)
    · obtain rfl := List.mem_singleton.mp hr
      exact ⟨by decide, Or.inr ⟨rfl, rfl⟩⟩
  obtain ⟨hserved, _, hempty, hfailed⟩ := oath_pages hv h₀ rfl
  obtain ⟨_, hfinal, _, _⟩ := oath_pages hv h₁ rfl
  obtain ⟨hended, hpolled⟩ := hserved _ (by decide) hpages
  refine ⟨_, _, _, h₀, hended, hpolled ⟨_, rfl, rfl⟩, rfl, ?_, ?_, h₁, ?_⟩
  · exact hempty [⟨[1, 2], ⟨0x6110⟩⟩] _ _ rfl (by decide) (by decide) rfl
  · exact hfailed [⟨[1, 2], ⟨0x6110⟩⟩] _ ⟨[], ⟨0x6985⟩⟩ rfl (by decide) rfl
      (Or.inr ⟨_, rfl, by decide⟩)
  · exact hfinal rfl [⟨[1, 2], ⟨0x6110⟩⟩] [3] (hfirst false) (by decide)

end ProtocolReassembly
