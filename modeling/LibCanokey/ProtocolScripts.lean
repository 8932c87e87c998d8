import LibCanokey.ProtocolSession

/-! # Scripts of one conversation

A caller that hands a waiting operation the replies of a script: while they keep its conversation
going nothing else of the operation changes, and the reply that ends it goes to the machine. -/
namespace ProtocolScripts

open BigEndian CheckedCursor ProtocolError ProtocolApdu ProtocolConversation ProtocolOperation
open ProtocolSession ScriptedRuns

variable {σ T : Type*}

/-- The calls that hand a script of replies over. -/
def replies (script : List ResponseApdu) : List Call :=
  script.map fun r => .advance (responseFrame r.data r.status.raw)

def dataLength (script : List ResponseApdu) : ℕ := (script.map fun r => r.data.length).sum

/-- The replies of a script fit the limits of one response and of the whole operation. -/
structure Room (options : OperationOptions) (e b : ℕ) (script : List ResponseApdu) : Prop where
  frames : ∀ r ∈ script, r.data.length + 2 ≤ options.exchange.maxResponseBytes
  bytes : b + dataLength script ≤ min usizeMax options.limits.maxTotalResponseBytes
  exchanges : e + script.length ≤ options.limits.maxExchanges + 1

section scripts

variable {M : Machine σ T} {op : Operation σ T} {k k' : ConversationState} {e b : ℕ}
  {r : ResponseApdu} {script : List ResponseApdu} {d : ResponseData}

theorem Room.head (h : Room op.options e b (r :: script)) : Fits op.options b r.data := by
  refine ⟨h.frames r List.mem_cons_self, ?_⟩
  have := h.bytes
  simp only [dataLength, List.map_cons, List.sum_cons] at this
  omega

theorem Room.tail (h : Room op.options e b (r :: script)) :
    Room op.options (e + 1) (b + r.data.length) script := by
  obtain ⟨hframes, hbytes, hexchanges⟩ := h
  simp only [dataLength, List.map_cons, List.sum_cons] at hbytes
  simp only [List.length_cons] at hexchanges
  refine ⟨fun r' hr' => hframes r' (List.mem_cons_of_mem _ hr'), ?_, by omega⟩
  simp only [dataLength]
  omega

/-- The whole script of a conversation goes to the machine as one response. -/
theorem run_returns (h : Returns (ConversationState.advance op.options) k script d)
    (hroom : Room op.options e b script) :
    (run (Operation.call M) (waitingOp op k e b) (replies script)).2 =
      handOver M op (e + (script.length - 1)) (b + dataLength script) d := by
  obtain ⟨init, last, t, u, rfl, hafter, hlast⟩ := h
  induction init generalizing k e b with
  | nil =>
    cases hafter
    have hone := waiting_returns (M := M) (e := e) hroom.head hlast
    refine hone.trans ?_
    simp [dataLength]
  | cons r init ih =>
    obtain ⟨k₁, hgo, hafter⟩ := after_cons_eq_some.mp hafter
    have hroom' : Room op.options e b (r :: (init ++ [last])) := hroom
    have he : e < op.options.limits.maxExchanges := by
      have := hroom'.exchanges
      simp only [List.length_cons, List.length_append] at this
      omega
    have hcall : (waitingOp op k e b).call M
        (.advance (responseFrame r.data r.status.raw)) =
        (.step (.ok .exchange), waitingOp op k₁ (e + 1) (b + r.data.length)) := by
      rw [Operation.call, waiting_goes hroom'.head he hgo]
    have hrest := ih hroom'.tail hafter
    change (run (Operation.call M)
      ((waitingOp op k e b).call M (.advance (responseFrame r.data r.status.raw))).2
        (replies (init ++ [last]))).2 = _
    rw [hcall, hrest]
    have hcount : e + 1 + ((init ++ [last]).length - 1) =
        e + ((r :: init ++ [last]).length - 1) := by
      simp
      omega
    have hbytes : b + r.data.length + dataLength (init ++ [last]) =
        b + dataLength (r :: init ++ [last]) := by
      simp only [dataLength, List.cons_append, List.map_cons, List.sum_cons]
      omega
    rw [hcount, hbytes]

theorem handOver_done {m m' : σ} {value : T} (hm : op.machine = some m)
    (hn : M.next m (some d) = (.ok (.done value), m')) :
    (handOver M op e b d).state = .completed ∧ (handOver M op e b d).result = .ok value := by
  simp only [handOver, Operation.drive, hm, hn]
  exact ⟨rfl, rfl⟩

theorem handOver_error {m m' : σ} {err : Error} (hm : op.machine = some m)
    (hn : M.next m (some d) = (.error err, m')) :
    (handOver M op e b d).state = .failed ∧ (handOver M op e b d).error = some err := by
  simp only [handOver, Operation.drive, hm, hn]
  exact ⟨rfl, rfl⟩

end scripts

end ProtocolScripts
