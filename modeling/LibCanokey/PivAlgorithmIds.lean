import LibCanokey.CompatAlgorithms
import LibCanokey.PivConfiguration
import LibCanokey.PivAccessOrdering

/-! # Written algorithm configurations

The configuration that a card is sent is the one a later profile reads, and every extension
algorithm has the identifier that was written for it. -/
namespace PivAlgorithmIds

open BigEndian ListTraversal ProtocolError ProtocolApdu ProtocolConversation ProtocolOperation
open ScriptedRuns ProtocolTranscript CompatProfile CompatAlgorithms
open PivCommand PivManagement PivManagementAuthentication PivAccess PivAccessOrdering PivWrite
open PivConfiguration

theorem readIds_eq_ok {entries ids ids' : List (Algorithm × UInt8)}
    (h : entries.foldlM readId ids = .ok ids') :
    ids' = ids ++ entries ∧ ∀ entry ∈ entries, entry.2 ≠ 0 := by
  induction entries generalizing ids with
  | nil =>
    cases h
    exact ⟨(List.append_nil _).symm, fun _ he => absurd he List.not_mem_nil⟩
  | cons entry entries ih =>
    rw [List.foldlM_cons] at h
    obtain ⟨next, hnext, h⟩ := bind_eq_ok.mp h
    rw [readId] at hnext
    split_ifs at hnext with hbad
    cases hnext
    push Not at hbad
    obtain ⟨rfl, hrest⟩ := ih h
    refine ⟨by rw [List.append_assoc]; rfl, ?_⟩
    intro e he
    rcases List.mem_cons.mp he with rfl | he
    · exact hbad.1
    · exact hrest e he

/-- What a parsed configuration holds, field by field. -/
theorem parse_eq_ok {data : Bytes} {config : AlgorithmConfig}
    (h : AlgorithmConfig.parse data = .ok config) :
    config.raw = data ∧ config.ids = (extensionOrder data.length).zip (data.drop 1) ∧
      ∀ entry ∈ config.ids, entry.2 ≠ 0 := by
  rw [AlgorithmConfig.parse] at h
  split_ifs at h
  obtain ⟨ids, hids, h⟩ := bind_eq_ok.mp h
  cases h
  obtain ⟨rfl, hnonzero⟩ := readIds_eq_ok hids
  exact ⟨rfl, rfl, hnonzero⟩

theorem wireId_of_mem {config : AlgorithmConfig} {a : Algorithm} {b : UInt8}
    (henabled : config.enabled = true) (hkeys : (config.ids.map Prod.fst).Nodup)
    (h : (a, b) ∈ config.ids) : config.wireId a = some b := by
  rw [AlgorithmConfig.wireId, if_pos henabled]
  cases hfind : config.ids.find? (·.1 == a) with
  | none => exact absurd (List.find?_eq_none.mp hfind (a, b) h) (by simp)
  | some entry =>
    have hkey : entry.1 = a := by simpa using List.find?_some hfind
    have hentry : entry = (a, b) :=
      List.inj_on_of_nodup_map hkeys (List.mem_of_find?_eq_some hfind) h hkey
    rw [hentry]
    rfl

/-- The nine extension algorithms, in the order of their fields. -/
abbrev extensions : List Algorithm := extensionOrder 10

/-- The byte of a configuration of ten bytes that stands for an algorithm. -/
def written (raw : Bytes) (a : Algorithm) : Option UInt8 := raw[extensions.idxOf a + 1]?

/-- Identifiers with a meaning of their own on 3.1: no algorithm, the algorithms with a fixed
identifier, AES management keys and randomized signing. -/
def reserved : List UInt8 := [0, 0x06, 0x07, 0x0a, 0x11, 0x14, 0xff]

section written

variable {raw : Bytes} {config : AlgorithmConfig} {p : DeviceProfile} {a : Algorithm}

theorem mem_extensions_iff : a ∈ extensions ↔ fixedWireId a = none := by
  cases a <;> decide

theorem length_extensions : extensions.length = 9 := rfl

theorem written_mem (hlen : raw.length = 10) (ha : a ∈ extensions) :
    ∃ b, written raw a = some b ∧ (a, b) ∈ extensions.zip (raw.drop 1) := by
  have hidx : extensions.idxOf a < 9 := List.idxOf_lt_length_of_mem ha
  have hin : extensions.idxOf a + 1 < raw.length := by omega
  refine ⟨raw[extensions.idxOf a + 1], List.getElem?_eq_getElem hin, ?_⟩
  have hzip : extensions.idxOf a < (extensions.zip (raw.drop 1)).length := by
    rw [List.length_zip, List.length_drop, length_extensions]
    omega
  have hentry := List.getElem_mem hzip
  rw [List.getElem_zip, List.getElem_idxOf, List.getElem_drop] at hentry
  simpa only [Nat.add_comm 1] using hentry

/-- What the parser and the check before the write leave of ten bytes. -/
structure Assigned (config : AlgorithmConfig) : Prop where
  length : config.raw.length = 10
  ids : config.ids = extensions.zip (config.raw.drop 1)
  distinct : (config.raw.drop 1 ++ reserved).Nodup

theorem assigned {data : Bytes} (hparse : AlgorithmConfig.parse data = .ok config)
    (hlen : config.raw.length = 10)
    (hfixed : ((config.raw.drop 1).any fun b => fixedIds.contains b) = false) :
    Assigned config := by
  obtain ⟨hraw, hids, hnonzero⟩ := parse_eq_ok hparse
  have hzip : config.ids = extensions.zip (config.raw.drop 1) := by
    rw [hids, ← hraw, hlen]
  have hvalues : config.ids.map Prod.snd = config.raw.drop 1 := by
    rw [hzip]
    apply List.map_snd_zip
    rw [List.length_drop, hlen, length_extensions]
  obtain ⟨hnodup, hfree⟩ := parse_fresh hparse
  rw [hvalues] at hnodup
  refine ⟨hlen, hzip, List.nodup_append.mpr ⟨hnodup, by decide, ?_⟩⟩
  intro b hb b' hb' heq
  subst heq
  have hunwritten := List.any_eq_false.mp hfixed b hb
  rw [← hvalues] at hb
  obtain ⟨entry, hentry, rfl⟩ := List.mem_map.mp hb
  have hunassigned := hfree entry hentry
  -- the three lists of excluded values, put together
  simp only [fixedIds, reserved, List.contains_cons, List.contains_nil, List.mem_cons,
    List.not_mem_nil, or_false, Bool.or_eq_true, beq_iff_eq, not_or, Bool.or_false] at *
  rcases hb' with h | h | h | h | h | h | h
  · exact hunwritten.1 h
  · exact hunassigned.1 h
  · exact hunwritten.2.2.1 h
  · exact hunwritten.2.1 h
  · exact hunwritten.2.2.2.1 h
  · exact hunwritten.2.2.2.2.1 h
  · exact hunwritten.2.2.2.2.2 h

theorem Assigned.extensionWireId (h : Assigned config) (henabled : config.enabled = true)
    (hconfig : p.config = some config) (ha : a ∈ extensions) :
    ∃ b, written config.raw a = some b ∧ p.extensionWireId a = some b := by
  obtain ⟨b, hb, hmem⟩ := written_mem h.length ha
  refine ⟨b, hb, ?_⟩
  have hkeys : (config.ids.map Prod.fst).Nodup := by
    rw [h.ids, List.map_fst_zip (by rw [List.length_drop, h.length, length_extensions])]
    decide
  have hwire : config.wireId a = some b := by
    apply wireId_of_mem henabled hkeys
    rw [h.ids]
    exact hmem
  have hfree : b ∉ ([0x0a, 0xff] : List UInt8) := by
    intro hb'
    have hdisjoint := (List.nodup_append.mp h.distinct).2.2 b (List.of_mem_zip hmem).2 b
    have hreserved : b ∈ reserved := by
      rcases List.mem_pair.mp hb' with rfl | rfl <;> decide
    exact hdisjoint hreserved rfl
  rw [DeviceProfile.extensionWireId, hconfig, Option.bind_some, hwire]
  dsimp only
  exact if_neg fun hbad => hfree hbad.2

/-- The range of every algorithm includes 3.1. -/
theorem extension_supported (hbase : p.base = some ⟨3, 1, 0⟩) (ha : fixedWireId a = none)
    (hsupport : p.extensionSupport a = .supported) :
    (p.keyAlgorithmSupport a).support = .supported := by
  have hbaseline : (p.firmwareRange ⟨1, 3, 0⟩ ⟨3, 1, 0⟩).support = .supported := by
    rw [DeviceProfile.firmwareRange, hbase]
    decide
  have hrange : (p.firmwareRange a.extensionFirst ⟨3, 1, 0⟩).support = .supported := by
    rw [DeviceProfile.firmwareRange, hbase]
    cases a <;> decide
  rw [keyAlgorithmSupport_extension ha, if_neg (not_not_intro hbaseline),
    if_neg (not_not_intro hrange)]
  exact hsupport

end written

/-- A configuration reaches the card as it was parsed, and its identifiers are those that any
3.1 profile resolves after reading it back. -/
structure Usable (cipher : BlockCipher) (config : AlgorithmConfig) (op : Writing) : Prop where
  sent : ∀ calls, ∀ c ∈
    (recorded (selectedMachine cipher (sequence MutationResult)) op calls).commands,
    c.header.ins = 0xee → c.header = ⟨0, 0xee, 2, 0⟩ ∧ c.data = config.raw
  completed : ∀ calls,
    (recorded (selectedMachine cipher (sequence MutationResult)) op calls).op.state = .completed →
      ∃ c ∈ (recorded (selectedMachine cipher (sequence MutationResult)) op calls).commands,
        c.header = ⟨0, 0xee, 2, 0⟩ ∧ c.data = config.raw
  reparsed : AlgorithmConfig.parse config.raw = .ok config
  distinct : (config.raw.drop 1 ++ reserved).Nodup
  resolved : ∀ p : DeviceProfile, p.base = some ⟨3, 1, 0⟩ → p.config = some config →
    ∀ a ∈ extensions, ∃ b, written config.raw a = some b ∧ p.algorithmWireId a = some b ∧
      (∀ a', p.algorithmWireId a' = some b → a' = a) ∧
      (p.keyAlgorithmSupport a).support = .supported

section sending

variable {cipher : BlockCipher} {profile : DeviceProfile} {config : AlgorithmConfig}
  {access : Access} {options : OperationOptions} {op : Writing}

theorem preamble_ins {full : List LogicalCommand} {rs : List ResponseData}
    (h : Preamble cipher access full rs) : ∀ c ∈ full, c.header.ins ≠ 0xee := by
  apply h.each fun c => c.header.ins ≠ 0xee
  · exact show (0xa4 : UInt8) ≠ 0xee by decide
  · intro a fields
    exact show (0x87 : UInt8) ≠ 0xee by decide
  · intro pin
    exact show (0x20 : UInt8) ≠ 0xee by decide

theorem prepareConfig_eq_ok {target : Sequence MutationResult}
    (h : prepareConfig profile config options = .ok target) :
    config.raw.length = 10 ∧
      (config.enabled = true →
        ((config.raw.drop 1).any fun b => fixedIds.contains b) = false) ∧
      target =
        ⟨[request (command 0xee 2 0 config.raw false) .command none], none, some reprobe⟩ := by
  obtain ⟨_, _, h⟩ := bind_eq_ok.mp h
  split_ifs at h with hbad
  push Not at hbad
  obtain ⟨hlen, hfixed⟩ := hbad
  refine ⟨hlen, ?_, (prepare_eq_ok.mp h).2⟩
  intro henabled
  simpa using hfixed henabled

theorem written_config_usable (cipher : BlockCipher)
    (hconfig : ∃ data, AlgorithmConfig.parse data = .ok config) (henabled : config.enabled = true)
    (h : setAlgorithmConfig profile config access options = .ok op) : Usable cipher config op := by
  obtain ⟨data, hparse⟩ := hconfig
  obtain ⟨_, _, h⟩ := bind_eq_ok.mp h
  obtain ⟨target, htarget, hop⟩ := bind_eq_ok.mp h
  obtain ⟨hlen, hfixed, rfl⟩ := prepareConfig_eq_ok htarget
  have hassigned := assigned hparse hlen (hfixed henabled)
  refine ⟨?_, ?_, ?_, hassigned.distinct, ?_⟩
  · intro calls c hc hins
    obtain ⟨plain, rfl, hplain⟩ := single_commands hop calls c hc
    rw [explicitLe_header] at hins ⊢
    rw [explicitLe_data]
    rcases hplain with rfl | ⟨full, answers, hfull, hmem⟩
    · exact ⟨rfl, rfl⟩
    · exact absurd hins (preamble_ins hfull plain hmem)
  · intro calls hdone
    refine ⟨_, single_sent hop calls hdone, ?_⟩
    exact ⟨explicitLe_header _ _, explicitLe_data _ _⟩
  · rw [(parse_eq_ok hparse).1]
    exact hparse
  · intro p hbase hconfig a ha
    have hsound : Sound p := by
      refine ⟨?_⟩
      intro config' hconfig'
      cases hconfig.symm.trans hconfig'
      exact parse_fresh hparse
    have hextension := mem_extensions_iff.mp ha
    obtain ⟨b, hwritten, hwire⟩ := hassigned.extensionWireId henabled hconfig ha
    have hid : p.algorithmWireId a = some b := by
      rw [algorithmWireId_eq, hextension, hconfig]
      exact hwire
    refine ⟨b, hwritten, hid, fun a' ha' => algorithmWireId_injective hsound ha' hid, ?_⟩
    apply extension_supported hbase hextension
    rw [DeviceProfile.extensionSupport, hconfig]
    dsimp only
    rw [if_pos (by rw [hwire]; rfl)]

/-- The wire order of the fields, with identifiers of 3.1. -/
def exampleConfig : Bytes := [1, 0xe0, 0x05, 0x16, 0xe1, 0x53, 0x15, 0x54, 0xe2, 0xe3]

theorem written_config_usable_example :
    ∃ config op, AlgorithmConfig.parse exampleConfig = .ok config ∧
      setAlgorithmConfig exampleProfile config .existing {} = .ok op ∧
      Usable exampleCipher config op := by
  have hparse : AlgorithmConfig.parse exampleConfig =
      .ok ⟨true, extensions.zip (exampleConfig.drop 1), exampleConfig⟩ := rfl
  have hop : setAlgorithmConfig exampleProfile
      ⟨true, extensions.zip (exampleConfig.drop 1), exampleConfig⟩ .existing {} = .ok _ := rfl
  exact ⟨_, _, hparse, hop, written_config_usable exampleCipher ⟨_, hparse⟩ rfl hop⟩

end sending

end PivAlgorithmIds
