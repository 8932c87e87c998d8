import LibCanokey.ProtocolTranscript

/-! # Operations within their budgets

Two operations that differ in what their counters have spent, and in a part of their machines
that the next turn does not look at, answer one script of replies alike until a budget is
exhausted. -/
namespace ProtocolBudgets

open BigEndian CheckedCursor ProtocolError ProtocolApdu ProtocolConversation ProtocolOperation
open ProtocolTranscript ScriptedRuns

variable {σ T : Type*}

/-- A machine seen through `f`, with other counters. -/
def shifted (f : σ → σ) (op : Operation σ T) (e b : ℕ) : Operation σ T :=
  { op with machine := op.machine.map f, exchanges := e, responseBytes := b }

def advances (replies : List Bytes) : List Call := replies.map .advance

/-- What a script of replies can cost at most is left in both budgets. -/
structure Sufficient (options : OperationOptions) (e b : ℕ) (replies : List Bytes) : Prop where
  exchanges : e + replies.length ≤ options.limits.maxExchanges
  bytes : b + (replies.map List.length).sum ≤
    min usizeMax options.limits.maxTotalResponseBytes

/-- The turn that `bytes` cause does not look at what `f` changes. -/
structure Blind (M : Machine σ T) (f : σ → σ) (op : Operation σ T) (bytes : Bytes) : Prop where
  next : ∀ m r, op.machine = some m → completed op bytes = some r →
    M.next (f m) (some r) = ((M.next m (some r)).1, f (M.next m (some r)).2)
  progress : ∀ m, (M.takeProgress (f m)).1 = (M.takeProgress m).1

section budgets

variable {options : OperationOptions} {e b : ℕ} {bytes : Bytes} {replies : List Bytes}

theorem Sufficient.head (h : Sufficient options e b (bytes :: replies)) :
    e < options.limits.maxExchanges ∧
      b + bytes.length ≤ min usizeMax options.limits.maxTotalResponseBytes := by
  obtain ⟨he, hb⟩ := h
  rw [List.length_cons] at he
  rw [List.map_cons, List.sum_cons] at hb
  omega

theorem Sufficient.spend (h : Sufficient options e b (bytes :: replies)) :
    Sufficient options (e + 1) (b + bytes.length) replies := by
  obtain ⟨he, hb⟩ := h
  rw [List.length_cons] at he
  rw [List.map_cons, List.sum_cons] at hb
  exact ⟨by omega, by omega⟩

theorem Sufficient.mono (h : Sufficient options e b replies) {e₁ b₁ : ℕ} (he : e₁ ≤ e)
    (hb : b₁ ≤ b) : Sufficient options e₁ b₁ replies := by
  obtain ⟨he', hb'⟩ := h
  exact ⟨by omega, by omega⟩

/-- What is enough for some replies is enough without some of them. -/
theorem Sufficient.fewer {front between rest : List Bytes}
    (h : Sufficient options e b (front ++ between ++ rest)) :
    Sufficient options e b (front ++ rest) := by
  obtain ⟨he, hb⟩ := h
  simp only [List.length_append, List.map_append, List.sum_append] at he hb
  refine ⟨?_, ?_⟩
  · rw [List.length_append]
    omega
  · rw [List.map_append, List.sum_append]
    omega

theorem parse_data_length {r : ResponseApdu} (h : ResponseApdu.parse bytes = .ok r) :
    r.data.length ≤ bytes.length := by
  rw [ResponseApdu.parse] at h
  split_ifs at h
  cases h
  simp

end budgets

section replies

variable {M : Machine σ T} {f : σ → σ} {op : Operation σ T} {e b : ℕ} {bytes : Bytes}
  {replies : List Bytes}

/-- Within both budgets neither the counters nor the machine decide what is complete. -/
theorem completed_shifted
    (h₀ : Sufficient op.options op.exchanges op.responseBytes (bytes :: replies))
    (h : Sufficient op.options e b (bytes :: replies)) :
    completed (shifted f op e b) bytes = completed op bytes := by
  have hfits {total : ℕ} {r : ResponseApdu} (hr : ResponseApdu.parse bytes = .ok r)
      (htotal : total + bytes.length ≤ min usizeMax op.options.limits.maxTotalResponseBytes) :
      total + r.data.length ≤ min usizeMax op.options.limits.maxTotalResponseBytes := by
    have := parse_data_length hr
    omega
  apply Option.ext
  intro d
  rw [completed_eq_some, completed_eq_some]
  constructor
  · rintro ⟨hs, hlen, r, c, c', hp, hc, _, ha⟩
    exact ⟨hs, hlen, r, c, c', hp, hc, hfits hp h₀.head.2, ha⟩
  · rintro ⟨hs, hlen, r, c, c', hp, hc, _, ha⟩
    exact ⟨hs, hlen, r, c, c', hp, hc, hfits hp h.head.2, ha⟩

theorem record_shifted (hp : ∀ m, (M.takeProgress (f m)).1 = (M.takeProgress m).1)
    (reply : Except Error Step) (e b : ℕ) :
    Operation.record M (reply, shifted f op e b) =
      ((Operation.record M (reply, op)).1, shifted f (Operation.record M (reply, op)).2 e b) := by
  cases reply with
  | ok step => rfl
  | error err =>
    have hbind : (op.machine.map f).bind (fun m => (M.takeProgress m).1) =
        op.machine.bind fun m => (M.takeProgress m).1 := by
      cases op.machine with
      | none => rfl
      | some m => exact hp m
    simp only [Operation.record, shifted, hbind]
    rfl

/-- Two results of one step that differ by a shift, with what the step has spent. -/
structure Alike (f : σ → σ) (op : Operation σ T) (e b spent : ℕ)
    (x y : Except Error Step × Operation σ T) : Prop where
  exchanges : x.2.exchanges ≤ op.exchanges + 1
  bytes : x.2.responseBytes ≤ op.responseBytes + spent
  options : x.2.options = op.options
  shift : ∃ e₁ b₁, e₁ ≤ e + 1 ∧ b₁ ≤ b + spent ∧ y = (x.1, shifted f x.2 e₁ b₁)

theorem exchange_alike {k : ConversationState} {m : Option σ} {n : ℕ}
    (h₀ : op.exchanges < op.options.limits.maxExchanges)
    (h : e < op.options.limits.maxExchanges) :
    Alike f op e b n
      { op with machine := m, conversation := some k,
                responseBytes := op.responseBytes + n }.exchange
      { shifted f op e b with machine := m.map f, conversation := some k,
                              responseBytes := b + n }.exchange := by
  have hleft : ¬ op.exchanges ≥ op.options.limits.maxExchanges := by omega
  have hright : ¬ e ≥ op.options.limits.maxExchanges := by omega
  simp only [Operation.exchange, shifted, if_neg hleft]
  exact ⟨le_rfl, le_rfl, rfl, e + 1, b + n, le_rfl, le_rfl, if_neg hright⟩

theorem drive_alike {input : Option ResponseData} {n : ℕ}
    (h₀ : op.exchanges < op.options.limits.maxExchanges)
    (h : e < op.options.limits.maxExchanges)
    (hf : ∀ m, op.machine = some m →
      M.next (f m) input = ((M.next m input).1, f (M.next m input).2)) :
    Alike f op e b n
      (Operation.drive M { op with responseBytes := op.responseBytes + n, conversation := none }
        input)
      (Operation.drive M { shifted f op e b with responseBytes := b + n, conversation := none }
        input) := by
  cases hm : op.machine with
  | none =>
    simp only [Operation.drive, shifted, hm, Option.map_none]
    exact ⟨by simp, le_rfl, rfl, e, b + n, by simp, le_rfl, by simp [shifted]⟩
  | some m =>
    simp only [Operation.drive, shifted, hm, Option.map_some, hf m hm]
    rcases M.next m input with ⟨err | c | value, m'⟩
    · exact ⟨by simp, le_rfl, rfl, e, b + n, by simp, le_rfl, rfl⟩
    · dsimp only
      cases hnew : ConversationState.new c op.options with
      | error err => exact ⟨by simp, le_rfl, rfl, e, b + n, by simp, le_rfl, rfl⟩
      | ok k => exact @exchange_alike _ _ f op e b k (some m') n h₀ h
    · exact ⟨by simp, le_rfl, rfl, e, b + n, by simp, le_rfl, rfl⟩

theorem inner_alike (hs : op.state = .awaitingResponse)
    (h₀ : Sufficient op.options op.exchanges op.responseBytes (bytes :: replies))
    (h : Sufficient op.options e b (bytes :: replies)) (hf : Blind M f op bytes) :
    Alike f op e b bytes.length (op.advanceInner M bytes)
      ((shifted f op e b).advanceInner M bytes) := by
  obtain ⟨he₀, hb₀⟩ := h₀.head
  obtain ⟨he, hb⟩ := h.head
  have hsame {reply : Except Error Step} : Alike f op e b bytes.length (reply, op)
      (reply, shifted f op e b) :=
    ⟨by simp, by simp, rfl, e, b, by simp, by simp, rfl⟩
  by_cases hlen : bytes.length > op.options.exchange.maxResponseBytes
  · have hleft : op.advanceInner M bytes = (.error (conversationError .limitExceeded), op) :=
      if_pos hlen
    have hright : (shifted f op e b).advanceInner M bytes =
        (.error (conversationError .limitExceeded), shifted f op e b) := if_pos hlen
    rw [hleft, hright]
    exact hsame
  cases hp : ResponseApdu.parse bytes with
  | error err =>
    simp only [Operation.advanceInner, if_neg hlen, hp, shifted]
    exact hsame
  | ok r =>
    have hr := parse_data_length hp
    have hspent {reply : Except Error Step} : Alike f op e b bytes.length
        (reply, { op with responseBytes := op.responseBytes + r.data.length })
        (reply, { shifted f op e b with responseBytes := b + r.data.length }) :=
      ⟨by simp, Nat.add_le_add_left hr _, rfl, e, _, by simp, Nat.add_le_add_left hr _, rfl⟩
    have hmore {x y : Except Error Step × Operation σ T}
        (h : Alike f op e b r.data.length x y) : Alike f op e b bytes.length x y := by
      obtain ⟨hx, hxb, ho, e₁, b₁, he₁, hb₁, hy⟩ := h
      exact ⟨hx, by omega, ho, e₁, b₁, he₁, by omega, hy⟩
    have hadd₀ : checkedAdd op.responseBytes r.data.length =
        some (op.responseBytes + r.data.length) := by
      rw [checkedAdd, if_pos (by omega)]
    have hadd : checkedAdd b r.data.length = some (b + r.data.length) := by
      rw [checkedAdd, if_pos (by omega)]
    have hfit₀ : ¬ op.responseBytes + r.data.length > op.options.limits.maxTotalResponseBytes := by
      omega
    have hfit : ¬ b + r.data.length > op.options.limits.maxTotalResponseBytes := by omega
    cases hc : op.conversation with
    | none =>
      simp only [Operation.advanceInner, if_neg hlen, hp, shifted, hadd₀, hadd, if_neg hfit₀,
        if_neg hfit, hc]
      have := @hspent (.error stateError)
      simpa [shifted, hc] using this
    | some c =>
      simp only [Operation.advanceInner, if_neg hlen, hp, shifted, hadd₀, hadd, if_neg hfit₀,
        if_neg hfit, hc]
      rcases ha : c.advance op.options r with err | ⟨_ | d, c'⟩
      · have := @hspent (.error err)
        simpa [shifted, hc] using this
      · exact hmore (@exchange_alike _ _ f op e b c' op.machine _ he₀ he)
      · have hd : completed op bytes = some d :=
          completed_eq_some.mpr ⟨hs, by omega, r, c, c', hp, hc, by omega, ha⟩
        exact hmore (drive_alike he₀ he fun m hm => hf.next m d hm hd)

theorem Alike.record {n : ℕ} {x y : Except Error Step × Operation σ T}
    (h : Alike f op e b n x y) (hp : ∀ m, (M.takeProgress (f m)).1 = (M.takeProgress m).1) :
    Alike f op e b n (Operation.record M x) (Operation.record M y) := by
  obtain ⟨hx, hxb, ho, e₁, b₁, he₁, hb₁, hy⟩ := h
  obtain ⟨reply, o⟩ := x
  have hrecord : (Operation.record M (reply, o)).2.exchanges = o.exchanges ∧
      (Operation.record M (reply, o)).2.responseBytes = o.responseBytes ∧
      (Operation.record M (reply, o)).2.options = o.options := by
    cases reply <;> exact ⟨rfl, rfl, rfl⟩
  refine ⟨?_, ?_, ?_, e₁, b₁, he₁, hb₁, ?_⟩
  · rw [hrecord.1]
    exact hx
  · rw [hrecord.2.1]
    exact hxb
  · rw [hrecord.2.2]
    exact ho
  · rw [hy, record_shifted hp]

/-- Within the budgets one reply does the same to an operation and to its shift. -/
theorem advance_alike
    (h₀ : Sufficient op.options op.exchanges op.responseBytes (bytes :: replies))
    (h : Sufficient op.options e b (bytes :: replies)) (hf : Blind M f op bytes) :
    Alike f op e b bytes.length (op.advance M bytes) ((shifted f op e b).advance M bytes) := by
  by_cases hs : op.state = .awaitingResponse
  · have hleft : op.advance M bytes = Operation.record M (op.advanceInner M bytes) :=
      if_neg (not_not.mpr hs)
    have hright : (shifted f op e b).advance M bytes =
        Operation.record M ((shifted f op e b).advanceInner M bytes) := if_neg (not_not.mpr hs)
    rw [hleft, hright]
    exact (inner_alike hs h₀ h hf).record hf.progress
  · have hleft : op.advance M bytes = (.error stateError, op) := if_pos hs
    have hright : (shifted f op e b).advance M bytes = (.error stateError, shifted f op e b) :=
      if_pos hs
    rw [hleft, hright]
    exact ⟨by simp, by simp, rfl, e, b, by simp, by simp, rfl⟩

/-- A call begins and shows what it proposes and accepts. -/
theorem seen_alike {op' : Operation σ T} {call call' : Call}
    (hproposal : proposal M op' call' = proposal M op call)
    (hreply : (op'.call M call').1 = (op.call M call).1)
    (hshown : (op'.call M call').2.conversation = (op.call M call).2.conversation) :
    begun M op' call' = begun M op call ∧ shown M op' call' = shown M op call := by
  refine ⟨?_, ?_⟩
  · rw [begun, hreply, hproposal, begun]
  · rw [shown, hreply, hshown, shown]

theorem proposal_shifted
    (h₀ : Sufficient op.options op.exchanges op.responseBytes (bytes :: replies))
    (h : Sufficient op.options e b (bytes :: replies)) (hf : Blind M f op bytes) :
    proposal M (shifted f op e b) (.advance bytes) = proposal M op (.advance bytes) := by
  have hcompleted := completed_shifted (f := f) h₀ h
  simp only [proposal, handed, hcompleted]
  cases hr : completed op bytes with
  | none => rfl
  | some r =>
    cases hm : op.machine with
    | none => simp [shifted, hm]
    | some m => simp [shifted, hm, hf.next m r hm hr]

end replies

/-- Two transcripts that have grown alike since `p` and `p'`, with `replies` still to come. -/
structure Beside (f : σ → σ) (p p' : Recorded σ T) (replies : List Bytes)
    (s s' : Recorded σ T) : Prop where
  commands : ∃ cs, s.commands = p.commands ++ cs ∧ s'.commands = p'.commands ++ cs
  frames : ∃ fs, s.frames = p.frames ++ fs ∧ s'.frames = p'.frames ++ fs
  spent : Sufficient s.op.options s.op.exchanges s.op.responseBytes replies
  op : ∃ e b, Sufficient s.op.options e b replies ∧ s'.op = shifted f s.op e b

section scripts

variable {M : Machine σ T} {f : σ → σ} {p p' s s' : Recorded σ T} {bytes : Bytes}
  {replies : List Bytes}

theorem both_grow {α : Type*} {l l' a a' new new' : List α}
    (h : ∃ xs, a = l ++ xs ∧ a' = l' ++ xs) (hnew : new' = new) :
    ∃ xs, a ++ new = l ++ xs ∧ a' ++ new' = l' ++ xs := by
  obtain ⟨xs, rfl, rfl⟩ := h
  exact ⟨xs ++ new, by simp, by simp [hnew]⟩

/-- Calls whose effects are alike make transcripts grow alike. -/
theorem beside_call {call call' : Call} {x y : Except Error Step × Operation σ T}
    {o : Operation σ T} {e b n : ℕ}
    (hcommands : ∃ cs, s.commands = p.commands ++ cs ∧ s'.commands = p'.commands ++ cs)
    (hframes : ∃ fs, s.frames = p.frames ++ fs ∧ s'.frames = p'.frames ++ fs)
    (hx : s.op.call M call = (.step x.1, x.2)) (hy : s'.op.call M call' = (.step y.1, y.2))
    (hproposal : proposal M s'.op call' = proposal M s.op call) (h : Alike f o e b n x y)
    (h₀ : Sufficient o.options (o.exchanges + 1) (o.responseBytes + n) replies)
    (h₁ : Sufficient o.options (e + 1) (b + n) replies) :
    Beside f p p' replies (Recorded.call M s call).2 (Recorded.call M s' call').2 := by
  obtain ⟨hxe, hxb, ho, e₁, b₁, he₁, hb₁, hshift⟩ := h
  obtain ⟨hbegun, hshown⟩ := seen_alike hproposal (by rw [hx, hy, hshift])
    (by rw [hx, hy, hshift]; rfl)
  refine ⟨both_grow hcommands (by rw [hbegun]), both_grow hframes (by rw [hshown]), ?_, ?_⟩
  · simp only [Recorded.call, hx, ho]
    exact h₀.mono hxe hxb
  · simp only [Recorded.call, hx, hy, ho, hshift]
    exact ⟨e₁, b₁, h₁.mono he₁ hb₁, rfl⟩

theorem Beside.step (h : Beside f p p' (bytes :: replies) s s') (hf : Blind M f s.op bytes) :
    Beside f p p' replies (Recorded.call M s (.advance bytes)).2
      (Recorded.call M s' (.advance bytes)).2 := by
  obtain ⟨e, b, hsuff, hop⟩ := h.op
  have hproposal := proposal_shifted h.spent hsuff hf
  have halike := advance_alike h.spent hsuff hf
  rw [← hop] at hproposal halike
  exact beside_call h.commands h.frames rfl rfl hproposal halike h.spent.spend hsuff.spend

theorem blind_id (op : Operation σ T) (bytes : Bytes) : Blind M id op bytes :=
  ⟨fun _ _ _ _ => rfl, fun _ => rfl⟩

/-- Operations that differ in their counters alone stay so. -/
theorem Beside.run {rest : List Bytes} (h : Beside id p p' (replies ++ rest) s s') :
    Beside id p p' rest (run (Recorded.call M) s (advances replies)).2
      (run (Recorded.call M) s' (advances replies)).2 := by
  induction replies generalizing s s' with
  | nil => exact h
  | cons bytes replies ih => exact ih (h.step (blind_id _ _))

/-- What a caller can ask of two such operations is the same. -/
theorem Beside.same (h : Beside id p p' replies s s') :
    s'.op.state = s.op.state ∧ s'.op.result = s.op.result ∧ s'.op.error = s.op.error ∧
      s'.op.command = s.op.command := by
  obtain ⟨e, b, _, hop⟩ := h.op
  rw [hop]
  exact ⟨rfl, rfl, rfl, rfl⟩

/-- Two operations over machines that their opening turn does not tell apart. -/
theorem started_beside {m₀ : σ} {options : OperationOptions} {op op' : Operation σ T}
    (h : Operation.fromMachine m₀ options = .ok op)
    (h' : Operation.fromMachine (f m₀) options = .ok op')
    (hnext : M.next (f m₀) none = ((M.next m₀ none).1, f (M.next m₀ none).2))
    (hprogress : ∀ m, (M.takeProgress (f m)).1 = (M.takeProgress m).1)
    (hsuff : Sufficient options 1 0 replies) :
    Beside f { op := op } { op := op' } replies (recorded M op [.start])
      (recorded M op' [.start]) := by
  obtain ⟨hexchanges, hbytes⟩ := hsuff
  rw [Operation.fromMachine] at h h'
  cases hv : options.validate with
  | error err =>
    rw [hv] at h
    cases h
  | ok o =>
    obtain ⟨_, rfl⟩ := validate_eq_ok.mp hv
    rw [hv] at h h'
    cases h
    cases h'
    have hlt : 0 < o.limits.maxExchanges := by omega
    have hproposal : proposal M (⟨some (f m₀), none, none, none, none, .created, o, 0, 0⟩ :
        Operation σ T) .start =
        proposal M (⟨some m₀, none, none, none, none, .created, o, 0, 0⟩ : Operation σ T)
          .start := by
      simp [proposal, handed, hnext]
    have halike := @drive_alike _ _ M f
      (⟨some m₀, none, none, none, none, .created, o, 0, 0⟩ : Operation σ T) 0 0 none 0 hlt hlt
      (by rintro m ⟨⟩; exact hnext)
    exact beside_call ⟨[], rfl, rfl⟩ ⟨[], rfl, rfl⟩ rfl rfl hproposal
      (halike.record hprogress) ⟨hexchanges, hbytes⟩ ⟨hexchanges, hbytes⟩

/-- A reply that completes a response hands it to the machine. -/
theorem advance_completed {op : Operation σ T} {r : ResponseData}
    (h : completed op bytes = some r) : ∃ n ≤ bytes.length, op.advance M bytes =
      Operation.record M (Operation.drive M
        { op with responseBytes := op.responseBytes + n, conversation := none } (some r)) := by
  obtain ⟨hs, hlen, d, c, c', hp, hc, hfit, ha⟩ := completed_eq_some.mp h
  refine ⟨d.data.length, parse_data_length hp, ?_⟩
  rw [Operation.advance, if_neg (not_not.mpr hs), Operation.advanceInner, if_neg (by omega), hp]
  dsimp only
  rw [checkedAdd, if_pos (by omega)]
  dsimp only
  rw [if_neg (by omega), hc]
  dsimp only
  rw [ha]

/-- Nothing of an earlier turn is left in an operation but its machine and its counters. -/
structure Fresh (options : OperationOptions) (op : Operation σ T) : Prop where
  output : op.output = none
  progress : op.progress = none
  error : op.error = none
  options : op.options = options

/-- Two responses that lead two machines to one turn, in operations that have nothing else left,
make the transcripts grow alike from there on. -/
theorem switched_beside {options : OperationOptions} {m m' : σ} {r r' : ResponseData}
    {bytes' : Bytes} (h : Fresh options s.op) (h' : Fresh options s'.op)
    (hr : completed s.op bytes = some r) (hr' : completed s'.op bytes' = some r')
    (hm : s.op.machine = some m) (hm' : s'.op.machine = some m')
    (hnext : M.next m' (some r') = M.next m (some r))
    (h₀ : Sufficient options s.op.exchanges s.op.responseBytes (bytes :: replies))
    (h₁ : Sufficient options s'.op.exchanges s'.op.responseBytes (bytes' :: replies)) :
    Beside id s s' replies (Recorded.call M s (.advance bytes)).2
      (Recorded.call M s' (.advance bytes')).2 := by
  obtain ⟨n, hn, hadvance⟩ := advance_completed (M := M) hr
  obtain ⟨n', hn', hadvance'⟩ := advance_completed (M := M) hr'
  have hs := (completed_eq_some.mp hr).1
  have hs' := (completed_eq_some.mp hr').1
  have hdrive : Operation.drive M
      { s'.op with responseBytes := s'.op.responseBytes + n', conversation := none } (some r') =
      Operation.drive M { shifted id { s.op with responseBytes := s.op.responseBytes + n }
        s'.op.exchanges (s'.op.responseBytes + n') with
          responseBytes := s'.op.responseBytes + n' + 0, conversation := none } (some r) := by
    simp only [Operation.drive, shifted, hm, hm', Option.map_some, id, hnext, hs, hs', h.output,
      h'.output, h.progress, h'.progress, h.error, h'.error, h.options, h'.options, Nat.add_zero]
  have halike := @drive_alike _ _ M id { s.op with responseBytes := s.op.responseBytes + n }
    s'.op.exchanges (s'.op.responseBytes + n') (some r) 0
    (by rw [h.options]; exact h₀.head.1) (by rw [h.options]; exact h₁.head.1) fun _ _ => rfl
  rw [← hdrive] at halike
  have hproposal : proposal M s'.op (.advance bytes') = proposal M s.op (.advance bytes) := by
    simp only [proposal, handed, hr, hr', Option.map_some, hm, hm', hnext]
  have hx : s.op.call M (.advance bytes) = (.step (s.op.advance M bytes).1,
      (s.op.advance M bytes).2) := rfl
  have hy : s'.op.call M (.advance bytes') = (.step (s'.op.advance M bytes').1,
      (s'.op.advance M bytes').2) := rfl
  rw [hadvance] at hx
  rw [hadvance'] at hy
  refine beside_call ⟨[], by simp, by simp⟩ ⟨[], by simp, by simp⟩ hx hy hproposal
    (halike.record fun _ => rfl) ?_ ?_
  · change Sufficient s.op.options (s.op.exchanges + 1) (s.op.responseBytes + n) replies
    rw [h.options]
    exact h₀.spend.mono le_rfl (by omega)
  · change Sufficient s.op.options (s'.op.exchanges + 1) (s'.op.responseBytes + n') replies
    rw [h.options]
    exact h₁.spend.mono le_rfl (by omega)

/-- The budgets of a run after some of the replies that they are enough for. -/
theorem sufficient_after {m₀ : σ} {options : OperationOptions} {op : Operation σ T}
    {rest : List Bytes} (h : Operation.fromMachine m₀ options = .ok op)
    (hsuff : Sufficient options 1 0 (replies ++ rest)) :
    Sufficient options (recorded M op (.start :: advances replies)).op.exchanges
      (recorded M op (.start :: advances replies)).op.responseBytes rest := by
  have hself : Beside id { op := op } { op := op } (replies ++ rest) (recorded M op [.start])
      (recorded M op [.start]) := started_beside h h rfl (fun _ => rfl) hsuff
  have hspent := (hself.run (M := M)).spent
  have hoptions := (recorded_follows M h (.start :: advances replies)).lifecycle.options
  rw [← hoptions]
  exact hspent

end scripts

section traces

variable {M : Machine σ T} {m₀ m m' : σ} {cs cs' : List LogicalCommand} {rs : List ResponseData}

/-- The responses decide the commands and the machine. -/
theorem trace_determined (h : Trace M m₀ cs rs m) (h' : Trace M m₀ cs' rs m') :
    cs' = cs ∧ m' = m := by
  induction h generalizing cs' m' with
  | opened h =>
    generalize hrs : ([] : List ResponseData) = rs' at h'
    cases h' with
    | opened h' =>
      rw [h] at h'
      cases h'
      exact ⟨rfl, rfl⟩
    | answered _ _ => simp at hrs
  | answered ht h ih =>
    generalize hrs : _ ++ [_] = rs' at h'
    cases h' with
    | opened h' => simp at hrs
    | answered ht' h' =>
      obtain ⟨rfl, hlast⟩ := List.append_inj' hrs rfl
      cases hlast
      obtain ⟨rfl, rfl⟩ := ih ht'
      rw [h] at h'
      cases h'
      exact ⟨rfl, rfl⟩

/-- A transcript only grows. -/
theorem recorded_longer (M : Machine σ T) (op : Operation σ T) (calls more : List Call) :
    (recorded M op calls).responses <+: (recorded M op (calls ++ more)).responses ∧
      (recorded M op calls).frames <+: (recorded M op (calls ++ more)).frames := by
  induction more using List.reverseRecOn with
  | nil =>
    rw [List.append_nil]
    exact ⟨List.prefix_rfl, List.prefix_rfl⟩
  | append_singleton more call ih =>
    rw [← List.append_assoc, recorded_concat]
    exact ⟨ih.1.trans (List.prefix_append _ _), ih.2.trans (List.prefix_append _ _)⟩

end traces

end ProtocolBudgets
