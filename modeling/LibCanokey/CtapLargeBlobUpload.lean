import LibCanokey.CtapLargeBlobFirmware
import LibCanokey.ProtocolDelivery

/-! # The prebuilt fragments of a write

How the messages divide the array, that every one of them fits the limits, and what the device
makes of them one after another. -/
namespace CtapLargeBlobUpload

open BigEndian ListTraversal ProtocolError ProtocolConversation ProtocolOperation
open ProtocolTranscript ProtocolSession ProtocolDelivery
open CtapCbor CtapMessage CtapFields CtapReading CtapSubcommand CtapLargeBlob
open CtapLargeBlobFirmware

/-- What a fragment message says. -/
def Carries (message fragment : Bytes) (offset : ℕ) (length : Option ℕ) : Prop :=
  ∃ body value, message = 0x0c :: body ∧ decoded body = .ok value ∧
    value.mapGetInt 2 = some (.bytes fragment) ∧ value.mapGetInt 3 = some (uint offset) ∧
    value.mapGetInt 4 = length.map uint

section fragments

variable {hashes : Hashes} {options : OperationOptions} {size : ℕ}
  {token : Option (PinToken × PinUvAuthProtocol)}

theorem fragmentMessage_eq_ok {fragment message : Bytes} {offset : ℕ}
    (h : fragmentMessage hashes options size token fragment offset = .ok message) :
    setMessage hashes fragment offset (announced offset size) token = .ok message ∧
      message.length ≤ options.limits.maxInputBytes ∧
      validateCommand (msg message) options = .ok () := by
  obtain ⟨built, hset, h⟩ := bind_eq_ok.mp h
  obtain ⟨_, hwithin, h⟩ := bind_eq_ok.mp h
  obtain ⟨_, hvalid, h⟩ := bind_eq_ok.mp h
  cases h
  simp only [withinInput] at hwithin
  split_ifs at hwithin with hbig
  exact ⟨hset, Nat.le_of_not_lt hbig, hvalid⟩

theorem announced_lt {offset : ℕ} (hsize : size < 2 ^ 16) :
    ∀ t, announced offset size = some t → t < 2 ^ 16 := by
  intro t ht
  rw [announced] at ht
  split_ifs at ht
  cases ht
  exact hsize

/-- The reserved overhead dominates every head and the authentication. -/
theorem length_setMessage_le {fragment message : Bytes} {offset : ℕ}
    (hfragment : fragment.length < 2 ^ 16) (hoffset : offset < 2 ^ 16) (hsize : size < 2 ^ 16)
    (h : setMessage hashes fragment offset (announced offset size) token = .ok message) :
    message.length ≤ fragment.length + writeMessageOverhead := by
  obtain ⟨auth, _, hauth, rfl⟩ := setMessage_eq_ok h
  have htotal := @announced_lt size offset hsize
  have := length_setBody_le hfragment hoffset htotal hauth
  simp only [List.length_cons, writeMessageOverhead]
  omega

theorem setMessage_carries {fragment message : Bytes} {offset : ℕ}
    (hfragment : fragment.length < 2 ^ 16) (hoffset : offset < 2 ^ 16) (hsize : size < 2 ^ 16)
    (h : setMessage hashes fragment offset (announced offset size) token = .ok message) :
    Carries message fragment offset (announced offset size) := by
  obtain ⟨auth, _, hauth, rfl⟩ := setMessage_eq_ok h
  obtain ⟨hdecoded, _⟩ := parse_setBody hfragment hoffset (announced_lt hsize) hauth
  have hfields := @setFields_fields fragment offset (announced offset size) auth
  exact ⟨_, _, rfl, hdecoded, hfields.set_key, hfields.offset_key, hfields.length_key⟩

/-- The chunks of the array, nonempty and no longer than a fragment. -/
structure Pieces (options : OperationOptions) (data : Bytes) (pieces : List Bytes) : Prop where
  flatten : pieces.flatten = data
  nonempty : ∀ piece ∈ pieces, piece ≠ []
  short : ∀ piece ∈ pieces, piece.length ≤ fragmentLength options

theorem fragments_pieces {data : Bytes} (hdata : data ≠ []) (hpos : 0 < fragmentLength options) :
    Pieces options data (fragments (fragmentLength options) data) := by
  have hlen := List.length_pos_iff.mpr hdata
  refine ⟨flatten_chunks (le_mul_divCeil hpos _), ?_, fun piece => length_le_of_mem_chunks⟩
  exact fun piece => ne_nil_of_mem_chunks hpos (mul_divCeil_pred_lt hpos hlen)

/-- The messages are the pieces in order, each at the end of those before it. -/
inductive Built (hashes : Hashes) (options : OperationOptions) (size : ℕ)
    (token : Option (PinToken × PinUvAuthProtocol)) : ℕ → List Bytes → List Bytes → Prop where
  | nil {offset : ℕ} : Built hashes options size token offset [] []
  | cons {offset : ℕ} {piece message : Bytes} {pieces messages : List Bytes}
      (hset : setMessage hashes piece offset (announced offset size) token = .ok message)
      (hfit : message.length ≤ options.limits.maxInputBytes)
      (hvalid : validateCommand (msg message) options = .ok ())
      (rest : Built hashes options size token (offset + piece.length) pieces messages) :
      Built hashes options size token offset (piece :: pieces) (message :: messages)

theorem fragmentMessages_built {pieces messages : List Bytes} {offset : ℕ}
    (h : fragmentMessages hashes options size token pieces offset = .ok messages) :
    Built hashes options size token offset pieces messages := by
  induction pieces generalizing messages offset with
  | nil =>
    cases h
    exact .nil
  | cons piece pieces ih =>
    obtain ⟨message, hmessage, h⟩ := bind_eq_ok.mp h
    obtain ⟨rest, hrest, h⟩ := bind_eq_ok.mp h
    cases h
    obtain ⟨hset, hfit, hvalid⟩ := fragmentMessage_eq_ok hmessage
    exact .cons hset hfit hvalid (ih hrest)

theorem Built.length {pieces messages : List Bytes} {offset : ℕ}
    (h : Built hashes options size token offset pieces messages) :
    pieces.length = messages.length := by
  induction h with
  | nil => rfl
  | cons _ _ _ _ ih => simp [ih]

theorem Built.valid {pieces messages : List Bytes} {offset : ℕ}
    (h : Built hashes options size token offset pieces messages) :
    ∀ message ∈ messages, message.length ≤ options.limits.maxInputBytes ∧
      validateCommand (msg message) options = .ok () := by
  induction h with
  | nil => simp
  | cons _ hfit hvalid _ ih => exact List.forall_mem_cons.mpr ⟨⟨hfit, hvalid⟩, ih⟩

/-- Each message carries its piece at its offset. -/
theorem Built.carries {pieces messages : List Bytes} {offset : ℕ}
    (h : Built hashes options size token offset pieces messages) (hsize : size < 2 ^ 16)
    (hend : offset + pieces.flatten.length ≤ size) {i : ℕ} {message : Bytes}
    (hi : messages[i]? = some message) :
    ∃ piece, pieces[i]? = some piece ∧
      Carries message piece (offset + (pieces.take i).flatten.length)
        (announced (offset + (pieces.take i).flatten.length) size) := by
  induction h generalizing i with
  | nil => simp at hi
  | @cons offset piece message' pieces messages hset _ _ _ ih =>
    rw [List.flatten_cons, List.length_append] at hend
    cases i with
    | zero =>
      cases hi
      exact ⟨piece, rfl, setMessage_carries (by omega) (by simp; omega) hsize hset⟩
    | succ i =>
      obtain ⟨piece', hpiece, hcarries⟩ := ih (by omega) (i := i) hi
      refine ⟨piece', hpiece, ?_⟩
      rw [List.take_succ_cons, List.flatten_cons, List.length_append, ← Nat.add_assoc]
      exact hcarries

end fragments

/-! ## The device takes the messages one after another -/

/-- Every message is acknowledged, and the last one commits. -/
structure Stored (fw : Firmware) (device : Device) (data : Bytes) (messages : List Bytes) :
    Prop where
  acknowledged : ∀ i message, messages[i]? = some message →
    ((device.after fw (messages.take i)).message fw message).1 = [0x00]
  kept : ∀ i < messages.length, (device.after fw (messages.take i)).array = device.array
  committed : (device.after fw messages).array = data

section stored

variable {fw : Firmware} {device device' : Device} {data received : Bytes}
  {options : OperationOptions} {size offset : ℕ} {token : Option (PinToken × PinUvAuthProtocol)}

theorem Stored.last {message : Bytes}
    (h : device.message fw message = ([0x00], { device with array := data, upload := none })) :
    Stored fw device data [message] := by
  constructor
  · intro i m hi
    cases i with
    | zero =>
      cases hi
      exact congrArg Prod.fst h
    | succ i => simp at hi
  · intro i hi
    obtain rfl : i = 0 := by simpa using hi
    rfl
  · exact congrArg (fun r => r.2.array) h

theorem Stored.cons {message : Bytes} {messages : List Bytes}
    (h : device.message fw message = ([0x00], device')) (harray : device'.array = device.array)
    (hrest : Stored fw device' data messages) : Stored fw device data (message :: messages) := by
  have hafter (ms : List Bytes) : device.after fw (message :: ms) = device'.after fw ms :=
    congrArg (fun r : Bytes × Device => r.2.after fw ms) h
  constructor
  · intro i m hi
    cases i with
    | zero =>
      cases hi
      exact congrArg Prod.fst h
    | succ i =>
      rw [List.take_succ_cons, hafter]
      exact hrest.acknowledged i m hi
  · intro i hi
    cases i with
    | zero => rfl
    | succ i =>
      rw [List.take_succ_cons, hafter, ← harray]
      exact hrest.kept i (Nat.lt_of_succ_lt_succ hi)
  · rw [hafter]
    exact hrest.committed

theorem Stored.head {message : Bytes} {messages : List Bytes}
    (h : Stored fw device data (message :: messages)) :
    device.message fw message = ([0x00], (device.message fw message).2) :=
  Prod.ext (h.acknowledged 0 message rfl) rfl

theorem Stored.tail {message next : Bytes} {messages : List Bytes}
    (h : Stored fw device data (message :: next :: messages)) :
    Stored fw (device.message fw message).2 data (next :: messages) := by
  have harray := h.kept 1 (by simp)
  refine ⟨fun i m hi => h.acknowledged (i + 1) m hi, ?_, h.committed⟩
  intro i hi
  exact (h.kept (i + 1) (Nat.succ_lt_succ hi)).trans harray.symm

/-- The induction is on the pieces left; the file holds those before them. -/
theorem Built.stored {pieces messages : List Bytes}
    (h : Built fw.hashes options size token offset pieces messages)
    (hsize : minLargeBlobArrayBytes ≤ size ∧ size ≤ maxLargeBlobArrayBytes)
    (hpieces : ∀ piece ∈ pieces, piece ≠ [] ∧ piece.length ≤ defaultMaxFragmentLength)
    (hne : pieces ≠ []) (hdata : received ++ pieces.flatten = data) (hlen : data.length = size)
    (htrailer : IntegrityTrailer fw.hashes data) (hpin : Authorized device token)
    (hcont : Continues device offset size received) : Stored fw device data messages := by
  induction h generalizing device received with
  | nil => exact absurd rfl hne
  | @cons offset piece message pieces messages hset _ _ rest ih =>
    obtain ⟨⟨hpiece, hshort⟩, hothers⟩ := List.forall_mem_cons.mp hpieces
    have hpos := List.length_pos_iff.mpr hpiece
    have htotal := congrArg List.length hdata
    rw [List.flatten_cons] at hdata
    simp only [List.flatten_cons, List.length_append] at htotal
    have hoffset := hcont.1
    have hmost : maxLargeBlobArrayBytes < 2 ^ 16 := by decide
    by_cases hlast : pieces = []
    · subst hlast
      cases rest
      rw [List.flatten_nil, List.append_nil] at hdata
      apply Stored.last
      refine message_stores hsize (by omega) hshort hpin hcont hset ?_
      rw [hdata, Device.store, if_neg (by rw [hlen]; exact Nat.lt_irrefl size), if_pos htrailer]
    · have hmore : 0 < pieces.flatten.length := by
        obtain ⟨next, others, rfl⟩ := List.exists_cons_of_ne_nil hlast
        have := List.length_pos_iff.mpr (hothers next List.mem_cons_self).1
        rw [List.flatten_cons, List.length_append]
        omega
      have hstore : device.store fw ⟨size, received ++ piece⟩ =
          .ok { device with upload := some ⟨size, received ++ piece⟩ } := by
        have hlt : (received ++ piece).length < size := by
          rw [List.length_append]
          omega
        exact if_pos hlt
      refine Stored.cons (message_stores hsize (by omega) hshort hpin hcont hset hstore) rfl ?_
      have hnext : offset + piece.length = (received ++ piece).length := by
        rw [List.length_append]
        omega
      exact @ih { device with upload := some ⟨size, received ++ piece⟩ } (received ++ piece) hothers
        hlast (by rw [List.append_assoc]; exact hdata) hpin ⟨hnext, fun _ => rfl⟩

end stored

/-! ## Runs of the write -/

section runs

variable {messages : List Bytes}

/-- The commands of a whole write. -/
def writeCommands (messages : List Bytes) : List LogicalCommand := select :: messages.map msg

theorem nextFragment_command {s s' : WriteArray} {c : LogicalCommand}
    (h : s.nextFragment = (.ok (.command c), s')) :
    ∃ message, s.messages = message :: s'.messages ∧ c = msg message := by
  simp only [WriteArray.nextFragment] at h
  cases hm : s.messages with
  | nil =>
    rw [hm] at h
    cases h
  | cons message rest =>
    rw [hm] at h
    cases h
    exact ⟨message, rfl, rfl⟩

/-- A response is followed by the next message. -/
theorem writing_answers {s s' : WriteArray} {r : ResponseData} {c : LogicalCommand}
    (h : writing.next s (some r) = (.ok (.command c), s')) :
    ∃ message, s.messages = message :: s'.messages ∧ c = msg message := by
  simp only [writing, WriteArray.next] at h
  cases hs : s.stage with
  | select =>
    simp only [hs, WriteArray.selectNext] at h
    split at h
    · cases h
    · exact @nextFragment_command { s with stage := .exchange } s' c h
  | exchange =>
    simp only [hs, WriteArray.exchangeNext] at h
    split at h
    · cases h
    · exact nextFragment_command h

/-- What was begun and what is left are the whole write. -/
theorem writing_trace {cs : List LogicalCommand} {rs : List ResponseData} {m : WriteArray}
    (h : Trace writing ⟨.select, messages⟩ cs rs m) :
    cs ++ m.messages.map msg = writeCommands messages := by
  induction h with
  | opened h =>
    cases h
    rfl
  | answered _ h ih =>
    obtain ⟨message, hm, rfl⟩ := writing_answers h
    rw [List.append_assoc, List.singleton_append, ← List.map_cons, ← hm]
    exact ih

theorem writing_commands {options : OperationOptions} {op : Operation WriteArray Unit}
    (hop : Operation.fromMachine ⟨.select, messages⟩ options = .ok op) (calls : List Call) :
    (recorded writing op calls).commands <+: writeCommands messages := by
  rcases (recorded_follows writing hop calls).standing.commands with hnil | ⟨_, _, _, ht⟩
  · rw [hnil]
    exact List.nil_prefix
  · exact ⟨_, writing_trace ht⟩

theorem select_relayed : Relayed select := ⟨by decide, rfl, 0, rfl, by decide⟩

theorem msg_relayed (message : Bytes) : Relayed (msg message) := by
  have hheader : (0x80 : UInt8) &&& 0x10 = 0 ∧ (0x10 : UInt8) ≠ 0xc0 := by decide
  exact ⟨hheader, rfl, 0x80, rfl, by decide⟩

theorem writeCommands_relayed : ∀ c ∈ writeCommands messages, Relayed c := by
  intro c hc
  rcases List.mem_cons.mp hc with rfl | hc
  · exact select_relayed
  · obtain ⟨message, _, rfl⟩ := List.mem_map.mp hc
    exact msg_relayed message

theorem performed_messages (fw : Firmware) (device : Device) (messages : List Bytes) :
    performed (fidoApplet fw) device (writeCommands messages) = device.after fw messages := by
  have hmap (device : Device) : performed (fidoApplet fw) device (messages.map msg) =
      device.after fw messages := by
    rw [performed, List.foldl_map]
    rfl
  exact hmap device

/-- Up to any prefix of the write the old array is in place; after all of it the new one is. -/
theorem Stored.performed {fw : Firmware} {device : Device} {data : Bytes}
    (h : Stored fw device data messages) {done : List LogicalCommand}
    (hdone : done <+: writeCommands messages) :
    (ProtocolDelivery.performed (fidoApplet fw) device done).array =
      if done = writeCommands messages then data else device.array := by
  by_cases hall : done = writeCommands messages
  · rw [if_pos hall, hall, performed_messages]
    exact h.committed
  · rw [if_neg hall]
    cases done with
    | nil => rfl
    | cons c done =>
      obtain ⟨rfl, hpre⟩ := List.cons_prefix_cons.mp hdone
      have htake := List.prefix_iff_eq_take.mp hpre
      rw [← List.map_take] at htake
      have hlt : done.length < messages.length := by
        by_contra hge
        apply hall
        rw [htake, List.take_of_length_le (by omega), writeCommands]
      have := performed_messages fw device (messages.take done.length)
      rw [writeCommands, ← htake] at this
      rw [this]
      exact h.kept _ hlt

/-- A device that got any part of what a run exposed, in order. -/
theorem writing_delivered {options : OperationOptions} {op : Operation WriteArray Unit}
    (hop : Operation.fromMachine ⟨.select, messages⟩ options = .ok op) {fw : Firmware}
    {device : Device} {data : Bytes} (h : Stored fw device data messages) (calls : List Call)
    {frames : List ProtocolApdu.CommandApdu}
    (hframes : frames <+: (recorded writing op calls).frames) :
    ∃ done, done <+: (recorded writing op calls).commands ∧
      (delivered (fidoApplet fw) { applet := device } frames).applet =
        performed (fidoApplet fw) device done ∧
      (delivered (fidoApplet fw) { applet := device } frames).applet.array =
        if done = writeCommands messages then data else device.array := by
  have hcommands := writing_commands hop calls
  obtain ⟨done, hdone, happlet⟩ := delivered_performed hop (fidoApplet fw) device
    (fun c hc => writeCommands_relayed c (hcommands.subset hc)) hframes
  refine ⟨done, hdone, happlet, ?_⟩
  rw [happlet]
  exact h.performed (hdone.trans hcommands)

end runs

end CtapLargeBlobUpload
