import LibCanokey.AdminExecute
import LibCanokey.ProtocolStages
import LibCanokey.SparseUpdates
import Mathlib.Data.List.GetD

/-! # Configuration patches

The bytes that a patch gives a configuration, the card that the writes are for, and exactly when
and what a patch writes. -/
namespace AdminPatch

open BigEndian ListTraversal ProtocolError ProtocolApdu ProtocolConversation ProtocolOperation
open CompatProfile AdminTypes AdminExecute SparseUpdates

/-- The flags of a patch, with their places in every layout. -/
def patchFlags (p : ConfigurationPatch) : List (ℕ × Option Bool) :=
  [(0, p.ledOn), (2, p.ndefReadOnly), (3, p.ndefEnabled), (4, p.webusbLanding)]

def flagUpdates (p : ConfigurationPatch) : List (ℕ × UInt8) :=
  (patchFlags p).flatMap fun f => f.2.toList.map fun v => (f.1, v.toUInt8)

def featureUpdates (p : ConfigurationPatch) (raw : Bytes) : List (ℕ × UInt8) :=
  if p.featureMask = 0 then [] else [(5, patchedFeatures (raw.getD 5 0) p)]

/-- What a patch makes of the bytes it selects. -/
def updates (p : ConfigurationPatch) (raw : Bytes) : List (ℕ × UInt8) :=
  flagUpdates p ++ featureUpdates p raw

/-- The command that gives a byte its value; before 3.1 it carries an explicit Le. -/
def updateCommand (legacy : Bool) (u : ℕ × UInt8) : LogicalCommand :=
  let c := if u.1 = 2 then write 8 u.2 0 [] else write 0x40 (UInt8.ofNat (u.1 + 1)) u.2 []
  if legacy then { c with le := .exact 256 } else c

/-- The byte that a command of the card writes and its new value: 08 NDEF read-only, 40/01 LED,
40/04 NDEF, 40/05 WebUSB and 40/06 features. -/
def written (c : LogicalCommand) : Option (ℕ × UInt8) :=
  if c.header.ins = 0x08 then some (2, c.header.p1)
  else if c.header.ins = 0x40 then
    if c.header.p1 = 1 then some (0, c.header.p2)
    else if c.header.p1 = 4 then some (3, c.header.p2)
    else if c.header.p1 = 5 then some (4, c.header.p2)
    else if c.header.p1 = 6 then some (5, c.header.p2)
    else none
  else none

/-- The configuration of the card after a command. -/
def cardWrite (raw : Bytes) (c : LogicalCommand) : Bytes :=
  match written c with
  | some (i, v) => raw.set i v
  | none => raw

/-- What a patch makes the card do: one command for each byte whose value changes. -/
def patchCommands (layout : AdminConfigurationLayout) (p : ConfigurationPatch) (raw : Bytes) :
    List LogicalCommand :=
  (changes (updates p raw) raw).map (updateCommand (layout != .features))

/-- The bytes that READ CONFIG may answer in a layout. -/
def Accepts (layout : AdminConfigurationLayout) (raw : Bytes) : Prop :=
  match layoutShape layout with
  | some (n, flags) => raw.length = n ∧ ∀ i ∈ flags, raw.getD i 0 ≤ 1
  | none => raw.length = 6 ∧ ∀ i ∈ [0, 2, 3, 4], raw.getD i 0 ≤ 1

/-- What construction leaves of the patches for a layout. -/
structure Selectable (layout : AdminConfigurationLayout) (p : ConfigurationPatch) : Prop where
  mask : p.featureMask &&& ~~~featureBits = 0
  values : p.featureValues &&& ~~~p.featureMask = 0
  features : layout ≠ .features → p.featureMask = 0

/-- When a patch can be applied to a configuration. -/
structure Applicable (options : OperationOptions) (layout : AdminConfigurationLayout)
    (raw : Bytes) (p : ConfigurationPatch) : Prop where
  accepted : Accepts layout raw
  present : layout = .touchPolicies → p.ndefEnabled = none ∧ p.webusbLanding = none
  known : ∀ f, (5, f) ∈ changes (updates p raw) raw → f &&& ~~~featureBits = 0
  fits : ∀ u ∈ changes (updates p raw) raw,
    validateCommand (updateCommand (layout != .features) u) options = .ok ()

/-- The old configuration with the selected flags and feature bits replaced, and nothing else. -/
structure Replaced (p : ConfigurationPatch) (raw new : Bytes) : Prop where
  length : new.length = raw.length
  selected : ∀ i v, (i, some v) ∈ patchFlags p → new[i]? = some v.toUInt8
  features : ∀ k, (new.getD 5 0).toBitVec.getLsbD k =
    if p.featureMask.toBitVec.getLsbD k then p.featureValues.toBitVec.getLsbD k
    else (raw.getD 5 0).toBitVec.getLsbD k
  unselected : ∀ i, i ≠ 5 → (∀ v, (i, some v) ∉ patchFlags p) → new[i]? = raw[i]?

/-- What the commands of a patch make of the configuration they are sent for. -/
structure Exact (options : OperationOptions) (layout : AdminConfigurationLayout)
    (p : ConfigurationPatch) (raw new : Bytes) : Prop where
  replaced : Replaced p raw new
  minimal : ∀ i, (∃ c ∈ patchCommands layout p raw, ∃ v, written c = some (i, v)) ↔
    new[i]? ≠ raw[i]?
  once : ∃ us : List (ℕ × UInt8),
    (patchCommands layout p raw).map written = us.map some ∧ (us.map Prod.fst).Nodup
  again : Applicable options layout new p ∧ patchCommands layout p new = []

section updates

variable {p : ConfigurationPatch} {raw : Bytes}

theorem updates_places (p : ConfigurationPatch) (raw : Bytes) :
    ((updates p raw).map Prod.fst).Sublist [0, 2, 3, 4, 5] := by
  rw [updates, flagUpdates, patchFlags, featureUpdates]
  cases p.ledOn <;> cases p.ndefReadOnly <;> cases p.ndefEnabled <;> cases p.webusbLanding <;>
    split_ifs <;> simp
  all_goals decide

theorem updates_nodup (p : ConfigurationPatch) (raw : Bytes) :
    ((updates p raw).map Prod.fst).Nodup := by
  have hplaces : [0, 2, 3, 4, 5].Nodup := by decide
  exact hplaces.sublist (updates_places p raw)

theorem updates_mem {u : ℕ × UInt8} (h : u ∈ updates p raw) : u.1 ∈ [0, 2, 3, 4, 5] :=
  (updates_places p raw).subset (List.mem_map_of_mem h)

theorem written_update (legacy : Bool) {u : ℕ × UInt8} (h : u.1 ∈ [0, 2, 3, 4, 5]) :
    written (updateCommand legacy u) = some u := by
  obtain ⟨i, v⟩ := u
  simp only [List.mem_cons, List.not_mem_nil, or_false] at h
  rcases h with rfl | rfl | rfl | rfl | rfl <;> cases legacy <;> rfl

theorem cardWrites (legacy : Bool) {us : List (ℕ × UInt8)} (h : ∀ u ∈ us, u.1 ∈ [0, 2, 3, 4, 5]) :
    (us.map (updateCommand legacy)).foldl cardWrite raw = applied us raw := by
  induction us generalizing raw with
  | nil => rfl
  | cons u us ih =>
    obtain ⟨hu, hus⟩ := List.forall_mem_cons.mp h
    have hwrite : cardWrite raw (updateCommand legacy u) = raw.set u.1 u.2 := by
      rw [cardWrite, written_update legacy hu]
    rw [List.map_cons, List.foldl_cons, hwrite, ih hus, applied_cons]

theorem changes_append (us vs : List (ℕ × UInt8)) :
    changes (us ++ vs) raw = changes us raw ++ changes vs raw := List.filter_append us vs

end updates

section settings

variable {raw : Bytes}

/-- A flag byte is one of two. -/
theorem flag_eq_iff {i : ℕ} {v : Bool} (hlt : i < raw.length) (hflag : raw.getD i 0 ≤ 1) :
    v = flag raw i ↔ raw[i]? = some v.toUInt8 := by
  rw [List.getD_eq_getElem _ _ hlt] at hflag
  rw [flag, List.getD_eq_getElem _ _ hlt, List.getElem?_eq_getElem hlt]
  generalize raw[i] = b at hflag
  have hb : b = 0 ∨ b = 1 := by
    have h := UInt8.le_iff_toNat_le.mp hflag
    have hcases : b.toNat = 0 ∨ b.toNat = 1 := by
      simp at h
      omega
    rcases hcases with h0 | h1
    · exact Or.inl (UInt8.toNat_inj.mp h0)
    · exact Or.inr (UInt8.toNat_inj.mp h1)
  rcases hb with rfl | rfl <;> cases v <;> decide

/-- The changes of one flag, as updates of its byte. -/
theorem setting_changes {value : Option Bool} {i : ℕ} {ins p1 : UInt8} (hlt : i < raw.length)
    (hflag : raw.getD i 0 ≤ 1)
    (hcommand : ∀ v, Setting.command ⟨value, some (flag raw i), ins, p1⟩ v =
      updateCommand false (i, v.toUInt8)) :
    Setting.changes ⟨value, some (flag raw i), ins, p1⟩ =
      (changes (value.toList.map fun v => (i, v.toUInt8)) raw).map (updateCommand false) := by
  cases value with
  | none => rfl
  | some v =>
    rw [Setting.changes]
    dsimp only
    by_cases hsame : v = flag raw i
    · rw [if_pos (congrArg some hsame)]
      have := (flag_eq_iff hlt hflag).mp hsame
      simp [changes, this]
    · rw [if_neg (fun h => hsame (Option.some.inj h)), hcommand]
      have hne : raw[i]? ≠ some v.toUInt8 := fun h => hsame ((flag_eq_iff hlt hflag).mpr h)
      simp [changes, hne]

/-- The flags that a layout has are flags of every answer it accepts. -/
theorem Accepts.flag {layout : AdminConfigurationLayout} (h : Accepts layout raw) {i : ℕ}
    (hi : i = 0 ∨ i = 2 ∨ (i = 3 ∨ i = 4) ∧ layout ≠ .touchPolicies) :
    i < raw.length ∧ raw.getD i 0 ≤ 1 := by
  rw [Accepts] at h
  have hshape {n : ℕ} {flags : List ℕ} (h : raw.length = n ∧ ∀ j ∈ flags, raw.getD j 0 ≤ 1)
      (hlt : i < n) (hmem : i ∈ flags) : i < raw.length ∧ raw.getD i 0 ≤ 1 :=
    ⟨h.1 ▸ hlt, h.2 i hmem⟩
  cases layout with
  | touchPolicies =>
    simp only [ne_eq, not_true_eq_false, and_false, or_false] at hi
    exact hshape h (by omega) (by simp; omega)
  | basic => exact hshape h (by omega) (by simp; omega)
  | keyboardReturn => exact hshape h (by omega) (by simp; omega)
  | reserved => exact hshape h (by omega) (by simp; omega)
  | features => exact hshape h (by omega) (by simp; omega)

theorem Accepts.length_le {layout : AdminConfigurationLayout} (h : Accepts layout raw) :
    raw.length ≤ 7 := by
  have hshape {n : ℕ} {flags : List ℕ} (h : raw.length = n ∧ ∀ j ∈ flags, raw.getD j 0 ≤ 1)
      (hn : n ≤ 7) : raw.length ≤ 7 := h.1 ▸ hn
  cases layout with
  | touchPolicies => exact hshape h (by decide)
  | basic => exact hshape h (by decide)
  | keyboardReturn => exact hshape h (by decide)
  | reserved => exact hshape h (by decide)
  | features => exact hshape h (by decide)

/-- The settings of a layout, of which 1.3 lacks NDEF and WebUSB. -/
def layoutSettings (layout : AdminConfigurationLayout) (raw : Bytes) (p : ConfigurationPatch) :
    List Setting :=
  settings p (some (flag raw 0)) (some (flag raw 2))
    (if layout ≠ .touchPolicies then some (flag raw 3) else none)
    (if layout ≠ .touchPolicies then some (flag raw 4) else none)

theorem layoutSettings_changes {layout : AdminConfigurationLayout} {p : ConfigurationPatch}
    (h : Accepts layout raw)
    (hpresent : layout = .touchPolicies → p.ndefEnabled = none ∧ p.webusbLanding = none) :
    (layoutSettings layout raw p).flatMap Setting.changes =
      (changes (flagUpdates p) raw).map (updateCommand false) := by
  have hset {value : Option Bool} {i : ℕ} {ins p1 : UInt8}
      (hi : i = 0 ∨ i = 2 ∨ (i = 3 ∨ i = 4) ∧ layout ≠ .touchPolicies)
      (hcommand : ∀ v, Setting.command ⟨value, some (flag raw i), ins, p1⟩ v =
        updateCommand false (i, v.toUInt8)) :
      Setting.changes ⟨value, some (flag raw i), ins, p1⟩ =
        (changes (value.toList.map fun v => (i, v.toUInt8)) raw).map (updateCommand false) :=
    setting_changes (h.flag hi).1 (h.flag hi).2 hcommand
  have hled : Setting.changes ⟨p.ledOn, some (flag raw 0), 0x40, 1⟩ = _ :=
    hset (Or.inl rfl) fun v => rfl
  have hreadOnly : Setting.changes ⟨p.ndefReadOnly, some (flag raw 2), 8, 0⟩ = _ :=
    hset (Or.inr (Or.inl rfl)) fun v => rfl
  simp only [layoutSettings, settings, flagUpdates, patchFlags, List.flatMap_cons,
    List.flatMap_nil, List.append_nil, changes_append, List.map_append, hled, hreadOnly]
  by_cases hlayout : layout = .touchPolicies
  · obtain ⟨hndef, hwebusb⟩ := hpresent hlayout
    simp [hndef, hwebusb, Setting.changes, changes]
  · have hndef : Setting.changes ⟨p.ndefEnabled, some (flag raw 3), 0x40, 4⟩ = _ :=
      hset (Or.inr (Or.inr ⟨Or.inl rfl, hlayout⟩)) fun v => rfl
    have hwebusb : Setting.changes ⟨p.webusbLanding, some (flag raw 4), 0x40, 5⟩ = _ :=
      hset (Or.inr (Or.inr ⟨Or.inr rfl, hlayout⟩)) fun v => rfl
    rw [if_pos hlayout, if_pos hlayout, hndef, hwebusb]

end settings

section writes

variable {options : OperationOptions} {raw : Bytes} {p : ConfigurationPatch}
  {layout : AdminConfigurationLayout}

def explicitLe (c : LogicalCommand) : LogicalCommand := { c with le := .exact 256 }

/-- A setting goes through the loop when the layout has its flag and its command fits. -/
def Legal (options : OperationOptions) (setting : Setting) : Prop :=
  (setting.old = none → setting.value = none) ∧
    ∀ c ∈ setting.changes, validateCommand (explicitLe c) options = .ok ()

theorem legacyStep_eq_ok (setting : Setting) (out out' : List LogicalCommand) :
    legacyStep options out setting = .ok out' ↔
      Legal options setting ∧ out' = out ++ setting.changes.map explicitLe := by
  obtain ⟨value, old, ins, p1⟩ := setting
  cases value with
  | none =>
    simp only [legacyStep, Legal, Setting.changes, List.map_nil, List.append_nil]
    constructor
    · intro h
      cases h
      simp
    · rintro ⟨_, rfl⟩
      rfl
  | some value =>
    cases old with
    | none => simp [legacyStep, Legal]
    | some old =>
      simp only [legacyStep, Legal, Setting.changes]
      by_cases hsame : value = old
      · simp [hsame, eq_comm]
      · rw [if_neg hsame, if_neg (fun h => hsame (Option.some.inj h)), bind_eq_ok]
        simp only [explicitLe, reduceCtorEq, IsEmpty.forall_iff, true_and, List.mem_singleton,
          forall_eq, List.map_singleton]
        constructor
        · rintro ⟨_, hvalid, h⟩
          cases h
          exact ⟨hvalid, rfl⟩
        · rintro ⟨hvalid, rfl⟩
          exact ⟨_, hvalid, rfl⟩

theorem patchedFeatures_unselected {old : UInt8} (hmask : p.featureMask = 0)
    (hvalues : p.featureValues &&& ~~~p.featureMask = 0) : patchedFeatures old p = old := by
  rw [hmask] at hvalues
  have hzero : p.featureValues = 0 := by simpa using hvalues
  simp [patchedFeatures, hmask, hzero]

/-- The feature byte is written when the patch changes it and every bit of the result is known. -/
theorem featureWrite_eq_ok (hlength : raw.length = 6)
    (hvalues : p.featureValues &&& ~~~p.featureMask = 0) {ws : List LogicalCommand} :
    featureWrite (raw.getD 5 0) p = .ok ws ↔
      (∀ u ∈ changes (featureUpdates p raw) raw, u.2 &&& ~~~featureBits = 0) ∧
        ws = (changes (featureUpdates p raw) raw).map (updateCommand false) := by
  have hat : raw[5]? = some (raw.getD 5 0) := by
    rw [List.getD_eq_getElem _ _ (by omega), List.getElem?_eq_getElem (by omega)]
  rw [featureUpdates]
  generalize raw.getD 5 0 = old at hat ⊢
  rw [featureWrite]
  by_cases hsame : patchedFeatures old p = old
  · have hnone : changes (if p.featureMask = 0 then [] else [(5, patchedFeatures old p)]) raw =
        [] := by
      split_ifs with hmask
      · rfl
      · simp [changes, hat, hsame]
    rw [if_pos hsame, hnone]
    simp [eq_comm]
  · have hmask : p.featureMask ≠ 0 := fun h => hsame (patchedFeatures_unselected h hvalues)
    have hone : changes (if p.featureMask = 0 then [] else [(5, patchedFeatures old p)]) raw =
        [(5, patchedFeatures old p)] := by
      have hne : old ≠ patchedFeatures old p := fun h => hsame h.symm
      simp [changes, hat, hmask, hne]
    rw [if_neg hsame, hone, List.forall_mem_singleton, List.map_singleton]
    have hcommand : updateCommand false (5, patchedFeatures old p) =
        write 0x40 6 (patchedFeatures old p) [] := rfl
    by_cases hknown : patchedFeatures old p &&& ~~~featureBits = 0
    · rw [if_neg (not_not.mpr hknown), hcommand]
      constructor
      · intro h
        exact ⟨hknown, (Except.ok.inj h).symm⟩
      · rintro ⟨_, rfl⟩
        rfl
    · rw [if_pos hknown]
      simp [hknown]

theorem legacyParse_eq_ok {profile : DeviceProfile} {config : LegacyConfiguration}
    (hlayout : profile.adminConfigurationLayout = .ok layout) (hlegacy : layout ≠ .features) :
    LegacyConfiguration.parse profile raw = .ok config ↔
      Accepts layout raw ∧ config.raw = raw ∧ config.layout = layout := by
  obtain ⟨n, flags, hshape⟩ : ∃ n flags, layoutShape layout = some (n, flags) := by
    cases layout with
    | features => exact absurd rfl hlegacy
    | _ => exact ⟨_, _, rfl⟩
  rw [LegacyConfiguration.parse, bind_eq_ok, Accepts, hshape]
  simp only [hlayout]
  constructor
  · rintro ⟨l, hl, h⟩
    cases hl
    split at h
    · cases h
    · rename_i n' flags' hs
      cases hs.symm.trans hshape
      split_ifs at h with hfits
      cases h
      exact ⟨hfits, rfl, rfl⟩
  · rintro ⟨hfits, hraw, hl⟩
    refine ⟨layout, rfl, ?_⟩
    split
    · rename_i hs
      cases hs.symm.trans hshape
    · rename_i n' flags' hs
      cases hs.symm.trans hshape
      rw [dif_pos hfits]
      obtain ⟨raw', layout', fits⟩ := config
      cases hraw
      cases hl
      rfl

theorem Accepts.legacy (h : Accepts layout raw) (hlegacy : layout ≠ .features) :
    ∃ config : LegacyConfiguration, config.raw = raw ∧ config.layout = layout := by
  cases layout with
  | features => exact absurd rfl hlegacy
  | _ => exact ⟨⟨raw, _, _, _, rfl, h.1, h.2⟩, rfl, rfl⟩

theorem layoutSettings_legal {layout : AdminConfigurationLayout} :
    (∀ s ∈ layoutSettings layout raw p, Legal options s) ↔
      (layout = .touchPolicies → p.ndefEnabled = none ∧ p.webusbLanding = none) ∧
        ∀ c ∈ (layoutSettings layout raw p).flatMap Setting.changes,
          validateCommand (explicitLe c) options = .ok () := by
  have hpresent : (∀ s ∈ layoutSettings layout raw p, s.old = none → s.value = none) ↔
      (layout = .touchPolicies → p.ndefEnabled = none ∧ p.webusbLanding = none) := by
    by_cases hlayout : layout = .touchPolicies <;> simp [layoutSettings, settings, hlayout]
  rw [← hpresent]
  constructor
  · intro h
    refine ⟨fun s hs => (h s hs).1, ?_⟩
    intro c hc
    obtain ⟨s, hs, hc⟩ := List.mem_flatMap.mp hc
    exact (h s hs).2 c hc
  · rintro ⟨hold, hvalid⟩ s hs
    exact ⟨hold s hs, fun c hc => hvalid c (List.mem_flatMap.mpr ⟨s, hs, hc⟩)⟩

theorem flagUpdates_mem {u : ℕ × UInt8} (h : u ∈ flagUpdates p) : u.1 ∈ [0, 2, 3, 4] := by
  obtain ⟨f, hf, h⟩ := List.mem_flatMap.mp h
  obtain ⟨v, _, rfl⟩ := List.mem_map.mp h
  have hplace : f.1 ∈ (patchFlags p).map Prod.fst := List.mem_map_of_mem hf
  exact hplace

/-- Only the feature byte has bits that can be unknown. -/
theorem known_iff :
    (∀ f, (5, f) ∈ changes (updates p raw) raw → f &&& ~~~featureBits = 0) ↔
      ∀ u ∈ changes (featureUpdates p raw) raw, u.2 &&& ~~~featureBits = 0 := by
  rw [updates, changes_append]
  constructor
  · intro h u hu
    obtain ⟨i, f⟩ := u
    have hi : i = 5 := by
      have hmem := (mem_changes.mp hu).1
      rw [featureUpdates] at hmem
      split_ifs at hmem with hmask
      · cases hmem
      · exact congrArg Prod.fst (List.mem_singleton.mp hmem)
    subst hi
    exact h f (List.mem_append_right _ hu)
  · intro h f hf
    rcases List.mem_append.mp hf with hf | hf
    · have := flagUpdates_mem (mem_changes.mp hf).1
      simp at this
    · exact h _ hf

theorem updateCommand_explicitLe (us : List (ℕ × UInt8)) :
    (us.map (updateCommand false)).map explicitLe = us.map (updateCommand true) := by
  rw [List.map_map]
  rfl

theorem legacyWrites_eq_ok (config : LegacyConfiguration) {ws : List LogicalCommand} :
    legacyWrites options config p = .ok ws ↔
      ((config.layout = .touchPolicies → p.ndefEnabled = none ∧ p.webusbLanding = none) ∧
        ∀ c ∈ (layoutSettings config.layout config.raw p).flatMap Setting.changes,
          validateCommand (explicitLe c) options = .ok ()) ∧
      ws = ((layoutSettings config.layout config.raw p).flatMap Setting.changes).map
        explicitLe := by
  have hsettings : legacyWrites options config p =
      (layoutSettings config.layout config.raw p).foldlM (legacyStep options) [] := rfl
  rw [hsettings, foldlM_append_eq_ok legacyStep_eq_ok, layoutSettings_legal, List.nil_append,
    List.map_flatMap]

theorem featureWrites_eq_ok (config : Configuration)
    (hvalues : p.featureValues &&& ~~~p.featureMask = 0) {ws : List LogicalCommand} :
    featureWrites options config p = .ok ws ↔
      (∀ u ∈ changes (featureUpdates p config.raw) config.raw, u.2 &&& ~~~featureBits = 0) ∧
      (∀ u ∈ changes (updates p config.raw) config.raw,
        validateCommand (updateCommand false u) options = .ok ()) ∧
      ws = (changes (updates p config.raw) config.raw).map (updateCommand false) := by
  have haccepts : Accepts .features config.raw := ⟨config.length, config.flags⟩
  have hflags := layoutSettings_changes (p := p) haccepts fun h => by cases h
  have hsettings : (settings p (some config.ledOn) (some config.ndefReadOnly)
      (some config.ndefEnabled) (some config.webusbLanding)).flatMap Setting.changes =
      (changes (flagUpdates p) config.raw).map (updateCommand false) := hflags
  have hold : config.features = config.raw.getD 5 0 := rfl
  rw [featureWrites, hsettings, hold, bind_eq_ok]
  simp only [featureWrite_eq_ok config.length hvalues]
  rw [updates, changes_append, List.map_append]
  constructor
  · rintro ⟨features, ⟨hknown, rfl⟩, h⟩
    obtain ⟨_, hfits, h⟩ := bind_eq_ok.mp h
    rw [← List.map_append] at hfits
    refine ⟨hknown, ?_, (Except.ok.inj h).symm⟩
    intro u hu
    exact forM_eq_ok.mp hfits _ (List.mem_map_of_mem hu)
  · rintro ⟨hknown, hfits, rfl⟩
    refine ⟨_, ⟨hknown, rfl⟩, bind_eq_ok.mpr ⟨(), ?_, rfl⟩⟩
    rw [← List.map_append, forM_eq_ok, List.forall_mem_map]
    exact hfits

/-- A patch succeeds exactly when it can be applied as a whole, and its writes are then the
changes that it makes. -/
theorem patchWrites_eq_ok {profile : DeviceProfile}
    (hlayout : profile.adminConfigurationLayout = .ok layout) (hselect : Selectable layout p)
    {ws : List LogicalCommand} :
    patchWrites profile options raw p = .ok ws ↔
      Applicable options layout raw p ∧ ws = patchCommands layout p raw := by
  have happlicable : Applicable options layout raw p ↔ Accepts layout raw ∧
      (layout = .touchPolicies → p.ndefEnabled = none ∧ p.webusbLanding = none) ∧
      (∀ u ∈ changes (featureUpdates p raw) raw, u.2 &&& ~~~featureBits = 0) ∧
      ∀ u ∈ changes (updates p raw) raw,
        validateCommand (updateCommand (layout != .features) u) options = .ok () := by
    rw [← known_iff]
    exact ⟨fun h => ⟨h.accepted, h.present, h.known, h.fits⟩,
      fun ⟨haccepted, hpresent, hknown, hfits⟩ => ⟨haccepted, hpresent, hknown, hfits⟩⟩
  rw [happlicable, patchCommands, patchWrites, bind_eq_ok]
  simp only [hlayout, Except.ok.injEq, exists_eq_left']
  by_cases hfeatures : layout = .features
  · subst hfeatures
    rw [if_neg (not_not.mpr rfl), bind_eq_ok]
    have hshape : Accepts .features raw ↔ raw.length = 6 ∧ ∀ i ∈ [0, 2, 3, 4], raw.getD i 0 ≤ 1 :=
      Iff.rfl
    constructor
    · rintro ⟨config, hparse, h⟩
      rw [Configuration.parse] at hparse
      split_ifs at hparse with hfits
      cases hparse
      obtain ⟨hknown, hvalid, rfl⟩ := (featureWrites_eq_ok _ hselect.values).mp h
      exact ⟨⟨hfits, (fun h => by cases h), hknown, hvalid⟩, rfl⟩
    · rintro ⟨⟨hfits, _, hknown, hvalid⟩, rfl⟩
      rw [hshape] at hfits
      refine ⟨⟨raw, hfits.1, hfits.2⟩, dif_pos hfits, ?_⟩
      exact (featureWrites_eq_ok _ hselect.values).mpr ⟨hknown, hvalid, rfl⟩
  · have hupdates : updates p raw = flagUpdates p := by
      rw [updates, featureUpdates, if_pos (hselect.features hfeatures), List.append_nil]
    have hnone : changes (featureUpdates p raw) raw = [] := by
      rw [featureUpdates, if_pos (hselect.features hfeatures)]
      rfl
    have hlegacy : (layout != .features) = true := by simp [hfeatures]
    rw [if_pos hfeatures, bind_eq_ok, hnone, hupdates, hlegacy]
    simp only [legacyParse_eq_ok hlayout hfeatures, legacyWrites_eq_ok]
    constructor
    · rintro ⟨config, ⟨haccepts, hraw, hl⟩, ⟨hpresent, hvalid⟩, rfl⟩
      rw [hraw, hl] at hvalid ⊢
      rw [hl] at hpresent
      rw [layoutSettings_changes haccepts hpresent] at hvalid ⊢
      refine ⟨⟨haccepts, hpresent, by simp, ?_⟩, updateCommand_explicitLe _⟩
      intro u hu
      exact hvalid _ (List.mem_map_of_mem hu)
    · rintro ⟨⟨haccepts, hpresent, _, hvalid⟩, rfl⟩
      obtain ⟨config, rfl, rfl⟩ := haccepts.legacy hfeatures
      refine ⟨config, ⟨haccepts, rfl, rfl⟩, ?_⟩
      rw [layoutSettings_changes haccepts hpresent]
      refine ⟨⟨hpresent, ?_⟩, (updateCommand_explicitLe _).symm⟩
      rw [List.forall_mem_map]
      exact hvalid

end writes

section exactness

variable {options : OperationOptions} {raw : Bytes} {p : ConfigurationPatch}
  {layout : AdminConfigurationLayout}

theorem mem_flagUpdates {i : ℕ} {b : UInt8} :
    (i, b) ∈ flagUpdates p ↔ ∃ v : Bool, (i, some v) ∈ patchFlags p ∧ b = v.toUInt8 := by
  rw [flagUpdates, List.mem_flatMap]
  constructor
  · rintro ⟨⟨j, value⟩, hf, hmem⟩
    obtain ⟨v, hv, hb⟩ := List.mem_map.mp hmem
    cases hb
    rw [Option.mem_toList] at hv
    exact ⟨v, hv ▸ hf, rfl⟩
  · rintro ⟨v, hf, rfl⟩
    exact ⟨_, hf, by simp⟩

theorem Applicable.within (h : Applicable options layout raw p) (hselect : Selectable layout p) :
    ∀ u ∈ updates p raw, u.1 < raw.length := by
  intro u hu
  rcases List.mem_append.mp hu with hu | hu
  · obtain ⟨v, hf, _⟩ := mem_flagUpdates.mp hu
    refine (h.accepted.flag ?_).1
    simp only [patchFlags, List.mem_cons, Prod.mk.injEq, List.not_mem_nil, or_false] at hf
    have hpresent := h.present
    rcases hf with ⟨hi, _⟩ | ⟨hi, _⟩ | ⟨hi, hv⟩ | ⟨hi, hv⟩
    · exact Or.inl hi
    · exact Or.inr (Or.inl hi)
    · refine Or.inr (Or.inr ⟨Or.inl hi, ?_⟩)
      intro hl
      rw [(hpresent hl).1] at hv
      cases hv
    · refine Or.inr (Or.inr ⟨Or.inr hi, ?_⟩)
      intro hl
      rw [(hpresent hl).2] at hv
      cases hv
  · rw [featureUpdates] at hu
    split_ifs at hu with hmask
    · cases hu
    · have hfeatures : layout = .features := by
        by_contra hne
        exact hmask (hselect.features hne)
      have hlength : raw.length = 6 := by
        have := h.accepted
        rw [hfeatures] at this
        exact this.1
      rw [List.mem_singleton.mp hu, hlength]
      exact Nat.lt_succ_self 5

theorem patchedFeatures_bits (old : UInt8) (hvalues : p.featureValues &&& ~~~p.featureMask = 0)
    (k : ℕ) :
    (patchedFeatures old p).toBitVec.getLsbD k =
      if p.featureMask.toBitVec.getLsbD k then p.featureValues.toBitVec.getLsbD k
      else old.toBitVec.getLsbD k := by
  have hbit := congrArg (fun b : UInt8 => b.toBitVec.getLsbD k) hvalues
  simp only [UInt8.toBitVec_and, UInt8.toBitVec_not, BitVec.getLsbD_and, BitVec.getLsbD_not,
    UInt8.toBitVec_zero, BitVec.getLsbD_zero] at hbit
  simp only [patchedFeatures, UInt8.toBitVec_or, UInt8.toBitVec_and, UInt8.toBitVec_not,
    BitVec.getLsbD_or, BitVec.getLsbD_and, BitVec.getLsbD_not]
  by_cases hk : k < 8
  · rw [decide_eq_true hk, Bool.true_and] at *
    cases hmask : p.featureMask.toBitVec.getLsbD k with
    | true => simp
    | false =>
      rw [hmask, Bool.not_false, Bool.and_true] at hbit
      simp [hbit]
  · simp [BitVec.getLsbD_of_ge _ k (Nat.le_of_not_lt hk)]

theorem patchedFeatures_twice (old : UInt8) :
    patchedFeatures (patchedFeatures old p) p = patchedFeatures old p := by
  apply UInt8.toBitVec_inj.mp
  apply BitVec.eq_of_getLsbD_eq
  intro k hk
  simp only [patchedFeatures, UInt8.toBitVec_or, UInt8.toBitVec_and, UInt8.toBitVec_not,
    BitVec.getLsbD_or, BitVec.getLsbD_and, BitVec.getLsbD_not, decide_eq_true hk, Bool.true_and]
  cases p.featureMask.toBitVec.getLsbD k <;> cases p.featureValues.toBitVec.getLsbD k <;> simp

theorem patched_eq_applied (p : ConfigurationPatch) (raw : Bytes) :
    (patchCommands layout p raw).foldl cardWrite raw = applied (updates p raw) raw := by
  rw [patchCommands, cardWrites, applied_changes (updates_nodup p raw)]
  intro u hu
  exact updates_mem (mem_changes.mp hu).1

theorem getD_applied (h : ∀ u ∈ updates p raw, u.1 < raw.length) :
    (applied (updates p raw) raw).getD 5 0 =
      if p.featureMask = 0 then raw.getD 5 0 else patchedFeatures (raw.getD 5 0) p := by
  rw [List.getD_eq_getElem?_getD]
  by_cases hmask : p.featureMask = 0
  · have hnot : 5 ∉ (updates p raw).map Prod.fst := by
      intro hmem
      obtain ⟨u, hu, hplace⟩ := List.mem_map.mp hmem
      rw [updates, featureUpdates, if_pos hmask, List.append_nil] at hu
      have := flagUpdates_mem hu
      rw [hplace] at this
      simp at this
    rw [getElem?_applied_of_notMem hnot, if_pos hmask, List.getD_eq_getElem?_getD]
  · have hmem : (5, patchedFeatures (raw.getD 5 0) p) ∈ updates p raw := by
      rw [updates, featureUpdates, if_neg hmask]
      exact List.mem_append_right _ (List.mem_singleton_self _)
    rw [getElem?_applied_of_mem (updates_nodup p raw) hmem (h _ hmem), if_neg hmask,
      Option.getD_some]

theorem applied_replaced (hselect : Selectable layout p)
    (h : ∀ u ∈ updates p raw, u.1 < raw.length) :
    Replaced p raw (applied (updates p raw) raw) := by
  refine ⟨length_applied _ _, ?_, ?_, ?_⟩
  · intro i v hv
    have hmem : (i, v.toUInt8) ∈ updates p raw :=
      List.mem_append_left _ (mem_flagUpdates.mpr ⟨v, hv, rfl⟩)
    exact getElem?_applied_of_mem (updates_nodup p raw) hmem (h _ hmem)
  · intro k
    rw [getD_applied h]
    by_cases hmask : p.featureMask = 0
    · rw [if_pos hmask, hmask]
      simp
    · rw [if_neg hmask]
      exact patchedFeatures_bits _ hselect.values k
  · intro i hi hnone
    apply getElem?_applied_of_notMem
    intro hmem
    obtain ⟨⟨j, b⟩, hu, rfl⟩ := List.mem_map.mp hmem
    rcases List.mem_append.mp hu with hu | hu
    · obtain ⟨v, hv, _⟩ := mem_flagUpdates.mp hu
      exact hnone v hv
    · rw [featureUpdates] at hu
      split_ifs at hu
      · cases hu
      · exact hi (congrArg Prod.fst (List.mem_singleton.mp hu))

theorem applied_flag {i : ℕ} (hi : i ≠ 5 ∨ p.featureMask = 0) (hflag : raw.getD i 0 ≤ 1) :
    (applied (updates p raw) raw).getD i 0 ≤ 1 := by
  rw [List.getD_eq_getElem?_getD] at hflag ⊢
  by_cases hmem : i ∈ (updates p raw).map Prod.fst
  · obtain ⟨⟨j, b⟩, hu, rfl⟩ := List.mem_map.mp hmem
    have hflags : (j, b) ∈ flagUpdates p := by
      rcases List.mem_append.mp hu with hu | hu
      · exact hu
      · rw [featureUpdates] at hu
        split_ifs at hu with hmask
        · cases hu
        · rcases hi with hi | hi
          · exact absurd (congrArg Prod.fst (List.mem_singleton.mp hu)) hi
          · exact absurd hi hmask
    obtain ⟨v, _, rfl⟩ := mem_flagUpdates.mp hflags
    have hv : v.toUInt8 ≤ 1 := by cases v <;> decide
    by_cases hlt : j < raw.length
    · rw [getElem?_applied_of_mem (updates_nodup p raw) hu hlt]
      exact hv
    · rw [List.getElem?_eq_none (by rw [length_applied]; exact Nat.le_of_not_lt hlt)]
      decide
  · rw [getElem?_applied_of_notMem hmem]
    exact hflag

/-- The flags of a patched configuration are flags again, so that its layout accepts it. -/
theorem applied_accepts (h : Accepts layout raw) (hselect : Selectable layout p) :
    Accepts layout (applied (updates p raw) raw) := by
  have hkeep {n : ℕ} {flags : List ℕ} (h : raw.length = n ∧ ∀ i ∈ flags, raw.getD i 0 ≤ 1)
      (hi : ∀ i ∈ flags, i ≠ 5 ∨ p.featureMask = 0) :
      (applied (updates p raw) raw).length = n ∧
        ∀ i ∈ flags, (applied (updates p raw) raw).getD i 0 ≤ 1 :=
    ⟨by rw [length_applied, h.1], fun i hmem => applied_flag (hi i hmem) (h.2 i hmem)⟩
  rw [Accepts] at h ⊢
  by_cases hfeatures : layout = .features
  · subst hfeatures
    exact hkeep h (by simp)
  · have hmask := hselect.features hfeatures
    cases layout with
    | features => exact absurd rfl hfeatures
    | _ => exact hkeep h fun _ _ => Or.inr hmask

theorem updates_applied (h : ∀ u ∈ updates p raw, u.1 < raw.length) :
    updates p (applied (updates p raw) raw) = updates p raw := by
  have hfeatures : featureUpdates p (applied (updates p raw) raw) = featureUpdates p raw := by
    simp only [featureUpdates, getD_applied h]
    split_ifs with hmask
    · rfl
    · rw [patchedFeatures_twice]
  exact congrArg (flagUpdates p ++ ·) hfeatures

theorem exact_of_applicable (h : Applicable options layout raw p)
    (hselect : Selectable layout p) :
    Exact options layout p raw ((patchCommands layout p raw).foldl cardWrite raw) := by
  have hwithin := h.within hselect
  have hnodup := updates_nodup p raw
  have hnone : changes (updates p (applied (updates p raw) raw)) (applied (updates p raw) raw) =
      [] := by
    rw [updates_applied hwithin]
    exact changes_applied hnodup hwithin
  have hwritten : (patchCommands layout p raw).map written =
      (changes (updates p raw) raw).map some := by
    rw [patchCommands, List.map_map]
    apply List.map_congr_left
    intro u hu
    exact written_update _ (updates_mem (mem_changes.mp hu).1)
  rw [patched_eq_applied]
  refine ⟨applied_replaced hselect hwithin, ?_, ⟨_, hwritten, ?_⟩, ?_, ?_⟩
  · intro i
    rw [← exists_mem_changes hnodup hwithin]
    constructor
    · rintro ⟨c, hc, v, hv⟩
      have hmem : some (i, v) ∈ (changes (updates p raw) raw).map some := by
        rw [← hwritten, ← hv]
        exact List.mem_map_of_mem hc
      obtain ⟨u, hu, heq⟩ := List.mem_map.mp hmem
      exact ⟨v, Option.some.inj heq ▸ hu⟩
    · rintro ⟨v, hv⟩
      have hmem : some (i, v) ∈ (patchCommands layout p raw).map written := by
        rw [hwritten]
        exact List.mem_map_of_mem hv
      obtain ⟨c, hc, hcv⟩ := List.mem_map.mp hmem
      exact ⟨c, hc, v, hcv⟩
  · exact hnodup.sublist ((changes_sublist _ _).map Prod.fst)
  · refine ⟨applied_accepts h.accepted hselect, h.present, ?_, ?_⟩
    · rw [hnone]
      intro f hf
      cases hf
    · rw [hnone]
      intro u hu
      cases hu
  · rw [patchCommands, hnone]
    rfl

end exactness

end AdminPatch
