import Mathlib.Data.List.Induction
import Mathlib.Data.List.Nodup
import LibCanokey.PivProtection
import LibCanokey.ProtocolTlvBer

/-! # Schemas of the protection objects

ADMIN DATA and PRINTED as grammars of definite BER, and the headers that their parsers come to:
both accept exactly the schema unless a header announces more than 128 bytes. -/
namespace PivProtectionSchema

open BigEndian CheckedCursor ListTraversal ProtocolError ProtocolTlv ProtocolTlvRoundTrip
open ProtocolTlvFields ProtocolTlvBer PivProtection

/-- One field and nothing else. -/
def Sole (expected : ℕ) (value data : Bytes) : Prop :=
  ∃ tag : Tag, tag.value = expected ∧ BerField (tag, value) data

/-- A field that the container of ADMIN DATA may hold. -/
def Allowed (field : Tag × Bytes) : Prop :=
  field.1.value = 0x81 ∧ field.2.length = 1 ∨
    field.1.value = 0x82 ∧ (field.2.length = 0 ∨ field.2.length = 16) ∨
    field.1.value = 0x83 ∧ field.2.length ≤ 8

/-- Allowed fields in any order, no two of them with one tag. -/
structure PolicyFields (fields : List (Tag × Bytes)) : Prop where
  allowed : ∀ field ∈ fields, Allowed field
  distinct : (fields.map fun field => field.1.value).Nodup

/-- An empty object, an empty container, or one that holds the flags. -/
inductive AdminData (flags : UInt8) (data : Bytes) : Prop where
  | absent (h : Sole 0x53 [] data) (hf : flags = 0)
  | empty {outer : Bytes} (h : Sole 0x53 outer data) (h' : Sole 0x80 [] outer) (hf : flags = 0)
  | policy {outer admin : Bytes} {fields : List (Tag × Bytes)} {tag : Tag}
      (h : Sole 0x53 outer data) (h' : Sole 0x80 admin outer) (hb : BerFields fields admin)
      (hp : PolicyFields fields) (ht : tag.value = 0x81) (hf : (tag, [flags]) ∈ fields)

inductive Printed (key data : Bytes) : Prop where
  | mk {outer inner : Bytes} (h : Sole 0x53 outer data) (h' : Sole 0x88 inner outer)
      (h'' : Sole 0x89 key inner) (hlen : key.length = 24)

/-- The headers that are read for one field: the first, and one after that field. -/
inductive Header (expected : ℕ) (data : Bytes) (n : ℕ) : Prop where
  | first (h : Announces n data)
  | trailing {value bytes rest : Bytes} (h : Sole expected value bytes) (hb : data = bytes ++ rest)
      (ha : Announces n rest)

/-- The headers that the parser of ADMIN DATA comes to. -/
inductive AdminHeader (data : Bytes) (n : ℕ) : Prop where
  | object (h : Header 0x53 data n)
  | container {outer : Bytes} (hs : Sole 0x53 outer data) (h : Header 0x80 outer n)
  | field {outer admin bytes rest : Bytes} {fields : List (Tag × Bytes)}
      (hs : Sole 0x53 outer data) (hs' : Sole 0x80 admin outer) (hb : BerFields fields bytes)
      (hp : PolicyFields fields) (hrest : admin = bytes ++ rest) (h : Announces n rest)

/-- The headers that the parser of PRINTED comes to. -/
inductive PrintedHeader (data : Bytes) (n : ℕ) : Prop where
  | object (h : Header 0x53 data n)
  | template {outer : Bytes} (hs : Sole 0x53 outer data) (h : Header 0x88 outer n)
  | key {outer inner : Bytes} (hs : Sole 0x53 outer data) (hs' : Sole 0x88 inner outer)
      (h : Header 0x89 inner n)

def overlong : Error := (Error.new .limitExceeded).atPhase .parsing

section single

variable {data value : Bytes} {expected n : ℕ}

theorem Sole.length_le (h : Sole expected value data) : value.length ≤ data.length := by
  obtain ⟨tag, _, form, _, rfl⟩ := h
  rw [List.length_append]
  exact Nat.le_add_left _ _

theorem lenient (hlen : data.length ≤ 128) : Lenient (.newBer data protectionLimits) := by
  refine ⟨rfl, show 1 ≤ 4 by decide, ?_⟩
  have hmax : 128 ≤ usizeMax := by decide
  exact Nat.le_trans hlen hmax

theorem single_sole (hlen : data.length ≤ 128) (h : Sole expected value data) :
    single data expected = .ok value := by
  have hle := h.length_le
  obtain ⟨tag, htag, hfield⟩ := h
  have hsole := @sole_field (.newBer data protectionLimits)
    (fun field => field.tag.value == expected) malformed (tag, value) (lenient hlen) hfield
    (Nat.le_trans hle hlen) (beq_iff_eq.mpr htag)
  rw [single, hsole]
  rfl

theorem single_overlong (hlen : data.length ≤ 128) (h : Header expected data n) (hn : 128 < n) :
    single data expected = .error overlong := by
  have hheader : SoleHeader (.newBer data protectionLimits)
      (fun field => field.tag.value == expected) n := by
    cases h with
    | first ha => exact .first ha
    | @trailing value bytes rest hs hb ha =>
      have hle := hs.length_le
      obtain ⟨tag, htag, hfield⟩ := hs
      have hmax : value.length ≤ 128 := by
        rw [hb, List.length_append] at hlen
        omega
      exact .trailing hfield hb hmax (beq_iff_eq.mpr htag) ha
  rw [single, sole_overlong (lenient hlen) hheader hn]
  rfl

theorem single_cases (hlen : data.length ≤ 128) :
    (∃ value, Sole expected value data ∧ single data expected = .ok value) ∨
      (∃ n, Header expected data n ∧ 128 < n) ∨ single data expected = .error malformed := by
  have hcases := @sole_cases (.newBer data protectionLimits)
    (fun field => field.tag.value == expected) malformed (lenient hlen)
  rcases hcases with ⟨field, hfield, _, haccept, hsole⟩ | ⟨n, hheader, hn⟩ | he
  · refine Or.inl ⟨field.2, ⟨field.1, beq_iff_eq.mp haccept, hfield⟩, ?_⟩
    rw [single, hsole]
    rfl
  · refine Or.inr (Or.inl ⟨n, ?_, hn⟩)
    cases hheader with
    | first ha => exact .first ha
    | trailing hf hb _ haccept ha => exact .trailing ⟨_, beq_iff_eq.mp haccept, hf⟩ hb ha
  · refine Or.inr (Or.inr ?_)
    rw [single, or_self_iff.mp he]
    rfl

end single

section fields

variable {fields : List (Tag × Bytes)} {field : Tag × Bytes} {acc acc' : AdminFields}
  {reader : TlvReader}

def tags (fields : List (Tag × Bytes)) : List ℕ := fields.map fun field => field.1.value

/-- What the loop remembers of the fields it has taken. -/
structure Seen (fields : List (Tag × Bytes)) (acc : AdminFields) : Prop where
  absent : acc.flags = none ↔ 0x81 ∉ tags fields
  flags : ∀ b, acc.flags = some b ↔ ∃ tag : Tag, tag.value = 0x81 ∧ (tag, [b]) ∈ fields
  salt : acc.salt = true ↔ 0x82 ∈ tags fields
  date : acc.date = true ↔ 0x83 ∈ tags fields

theorem policyFields_concat : PolicyFields (fields ++ [field]) ↔
    PolicyFields fields ∧ Allowed field ∧ field.1.value ∉ tags fields := by
  constructor
  · rintro ⟨hallowed, hdistinct⟩
    rw [List.map_append, List.map_singleton, List.nodup_append] at hdistinct
    refine ⟨⟨fun f hf => hallowed f (List.mem_append_left _ hf), hdistinct.1⟩,
      hallowed field (by simp), ?_⟩
    intro hmem
    exact hdistinct.2.2 _ hmem _ (List.mem_singleton_self _) rfl
  · rintro ⟨⟨hallowed, hdistinct⟩, hfield, hnew⟩
    refine ⟨?_, ?_⟩
    · intro f hf
      rcases List.mem_append.mp hf with hf | hf
      · exact hallowed f hf
      · rw [List.mem_singleton.mp hf]
        exact hfield
    · rw [List.map_append, List.map_singleton]
      refine List.nodup_append.mpr ⟨hdistinct, List.nodup_singleton _, ?_⟩
      intro v hv w hw heq
      rw [List.mem_singleton.mp hw] at heq
      exact hnew (heq ▸ hv)

theorem tags_concat : tags (fields ++ [field]) = tags fields ++ [field.1.value] := by
  simp [tags]

theorem mem_tags {value : Bytes} {tag : Tag} {n : ℕ} (ht : tag.value = n)
    (hmem : (tag, value) ∈ fields) : n ∈ tags fields :=
  List.mem_map.mpr ⟨_, hmem, ht⟩

/-- A field that is not the flags leaves them as they were. -/
theorem flags_kept (hs : Seen fields acc) (hne : field.1.value ≠ 0x81) :
    (acc.flags = none ↔ 0x81 ∉ tags (fields ++ [field])) ∧
      ∀ b, acc.flags = some b ↔
        ∃ tag : Tag, tag.value = 0x81 ∧ (tag, [b]) ∈ fields ++ [field] := by
  constructor
  · rw [tags_concat, hs.absent, List.mem_append, List.mem_singleton, not_or]
    exact (and_iff_left (Ne.symm hne)).symm
  · intro b
    rw [hs.flags]
    constructor
    · rintro ⟨tag, ht, hmem⟩
      exact ⟨tag, ht, List.mem_append_left _ hmem⟩
    · rintro ⟨tag, ht, hmem⟩
      rcases List.mem_append.mp hmem with hmem | hmem
      · exact ⟨tag, ht, hmem⟩
      · rw [← List.mem_singleton.mp hmem] at hne
        exact absurd ht hne

/-- A new field of a policy is taken, by its tag. -/
theorem take_allowed (hs : Seen fields acc) (ha : Allowed field)
    (hnew : field.1.value ∉ tags fields) :
    ∃ acc', acc.take (yielded reader field) = .ok acc' ∧ Seen (fields ++ [field]) acc' := by
  rcases ha with ⟨ht, hlen⟩ | ⟨ht, hlen⟩ | ⟨ht, hlen⟩
  · obtain ⟨b, hb⟩ := List.length_eq_one_iff.mp hlen
    rw [ht] at hnew
    have hnone : acc.flags = none := hs.absent.mpr hnew
    refine ⟨{ acc with flags := some b }, ?_, ?_, ?_, ?_, ?_⟩
    · rw [AdminFields.take, if_pos ⟨ht, by rw [hnone]; rfl, hlen⟩]
      simp [yielded, hb]
    · simp [tags_concat, ht]
    · intro c
      simp only [Option.some.injEq]
      constructor
      · rintro rfl
        refine ⟨field.1, ht, List.mem_append_right _ ?_⟩
        rw [← hb]
        exact List.mem_singleton_self _
      · rintro ⟨tag, htag, hmem⟩
        rcases List.mem_append.mp hmem with hmem | hmem
        · exact absurd (mem_tags htag hmem) hnew
        · rw [← List.mem_singleton.mp hmem] at hb
          exact (List.cons.inj hb).1.symm
    · simp [tags_concat, ht, hs.salt]
    · simp [tags_concat, ht, hs.date]
  · rw [ht] at hnew
    obtain ⟨habsent, hflags⟩ := flags_kept hs (show field.1.value ≠ 0x81 by rw [ht]; decide)
    refine ⟨{ acc with salt := true }, ?_, habsent, hflags, ?_, ?_⟩
    · have hsalt : ¬ acc.salt = true := fun h => hnew (hs.salt.mp h)
      rw [AdminFields.take, if_neg (by simp [yielded, ht]), if_pos ⟨ht, hsalt, hlen⟩]
    · simp [tags_concat, ht]
    · simp [tags_concat, ht, hs.date]
  · rw [ht] at hnew
    obtain ⟨habsent, hflags⟩ := flags_kept hs (show field.1.value ≠ 0x81 by rw [ht]; decide)
    refine ⟨{ acc with date := true }, ?_, habsent, hflags, ?_, ?_⟩
    · have hdate : ¬ acc.date = true := fun h => hnew (hs.date.mp h)
      rw [AdminFields.take, if_neg (by simp [yielded, ht]), if_neg (by simp [yielded, ht]),
        if_pos ⟨ht, hdate, hlen⟩]
    · simp [tags_concat, ht, hs.salt]
    · simp [tags_concat, ht]

theorem take_eq_ok (hs : Seen fields acc) (h : acc.take (yielded reader field) = .ok acc') :
    Allowed field ∧ field.1.value ∉ tags fields := by
  rw [AdminFields.take] at h
  split_ifs at h with hflags hsalt hdate
  · obtain ⟨ht, hnone, hlen⟩ := hflags
    refine ⟨Or.inl ⟨ht, hlen⟩, ?_⟩
    rw [show field.1.value = 0x81 from ht]
    exact hs.absent.mp (Option.isNone_iff_eq_none.mp hnone)
  · obtain ⟨ht, hnew, hlen⟩ := hsalt
    refine ⟨Or.inr (Or.inl ⟨ht, hlen⟩), ?_⟩
    rw [show field.1.value = 0x82 from ht]
    exact fun hmem => hnew (hs.salt.mpr hmem)
  · obtain ⟨ht, hnew, hlen⟩ := hdate
    refine ⟨Or.inr (Or.inr ⟨ht, hlen⟩), ?_⟩
    rw [show field.1.value = 0x83 from ht]
    exact fun hmem => hnew (hs.date.mpr hmem)

theorem take_error {f : Tlv} {e : Error} (h : acc.take f = .error e) : e = malformed := by
  rw [AdminFields.take] at h
  split_ifs at h
  cases h
  rfl

theorem seen_nil : Seen [] {} := by
  refine ⟨?_, ?_, ?_, ?_⟩ <;> simp [tags]

/-- By induction from the last field: a policy is taken to its end, -/
theorem fold_policy (h : PolicyFields fields) :
    ∃ acc, fields.foldlM (fun acc field => acc.take (yielded reader field)) ({} : AdminFields) =
      .ok acc ∧ Seen fields acc := by
  induction fields using List.reverseRecOn with
  | nil => exact ⟨{}, rfl, seen_nil⟩
  | append_singleton fields field ih =>
    obtain ⟨hfields, hallowed, hnew⟩ := policyFields_concat.mp h
    obtain ⟨acc, hfold, hseen⟩ := ih hfields
    obtain ⟨acc', htake, hseen'⟩ := @take_allowed _ _ _ reader hseen hallowed hnew
    refine ⟨acc', ?_, hseen'⟩
    rw [List.foldlM_append, hfold]
    simp [bind, Except.bind, htake, pure, Except.pure]

/-- and what is taken to its end is a policy. -/
theorem policy_of_fold (h : fields.foldlM (fun acc field => acc.take (yielded reader field))
    ({} : AdminFields) = .ok acc) : PolicyFields fields ∧ Seen fields acc := by
  have hpolicy : PolicyFields fields := by
    induction fields using List.reverseRecOn generalizing acc with
    | nil => exact ⟨fun _ hf => absurd hf List.not_mem_nil, List.nodup_nil⟩
    | append_singleton fields field ih =>
      rw [List.foldlM_append] at h
      obtain ⟨mid, hfold, h⟩ := bind_eq_ok.mp h
      obtain ⟨last, htake, _⟩ := bind_eq_ok.mp h
      have hfields := ih hfold
      obtain ⟨mid', hfold', hseen⟩ := @fold_policy _ reader hfields
      cases hfold.symm.trans hfold'
      exact policyFields_concat.mpr ⟨hfields, take_eq_ok hseen htake⟩
  obtain ⟨acc', hfold, hseen⟩ := @fold_policy _ reader hpolicy
  cases h.symm.trans hfold
  exact ⟨hpolicy, hseen⟩

end fields

section objects

variable {data admin : Bytes} {flags : UInt8} {n : ℕ}

theorem Seen.present {fields : List (Tag × Bytes)} {acc : AdminFields} (hs : Seen fields acc)
    (h : acc.flags = some flags) : ∃ tag : Tag, tag.value = 0x81 ∧ (tag, [flags]) ∈ fields :=
  (hs.flags flags).mp h

theorem Allowed.length_le {field : Tag × Bytes} (h : Allowed field) : field.2.length ≤ 128 := by
  rcases h with ⟨_, h⟩ | ⟨_, h | h⟩ | ⟨_, h⟩ <;> omega

/-- The fields of a policy are taken, whatever follows them. -/
theorem policy_takes {fields : List (Tag × Bytes)} {bytes rest : Bytes}
    (hb : BerFields fields bytes) (hp : PolicyFields fields) (hrest : admin = bytes ++ rest) :
    ∃ acc, Takes AdminFields.take (.newBer admin protectionLimits) {} fields bytes rest acc ∧
      Seen fields acc := by
  obtain ⟨acc, hfold, hseen⟩ := @fold_policy _ (.newBer admin protectionLimits) hp
  exact ⟨acc, ⟨hb, hrest, fun field hmem => (hp.allowed field hmem).length_le, hfold⟩, hseen⟩

theorem adminFlags_policy {fields : List (Tag × Bytes)} {tag : Tag} (hlen : admin.length ≤ 128)
    (hb : BerFields fields admin) (hp : PolicyFields fields) (ht : tag.value = 0x81)
    (hf : (tag, [flags]) ∈ fields) : adminFlags admin = .ok ⟨flags⟩ := by
  obtain ⟨acc, htakes, hseen⟩ := policy_takes hb hp (List.append_nil admin).symm
  rw [adminFlags, readFields_all (lenient hlen) htakes]
  dsimp only
  rw [(hseen.flags flags).mpr ⟨tag, ht, hf⟩]

theorem adminFlags_overlong {fields : List (Tag × Bytes)} {bytes rest : Bytes}
    (hlen : admin.length ≤ 128) (hb : BerFields fields bytes) (hp : PolicyFields fields)
    (hrest : admin = bytes ++ rest) (ha : Announces n rest) (hn : 128 < n) :
    adminFlags admin = .error overlong := by
  obtain ⟨acc, htakes, _⟩ := policy_takes hb hp hrest
  rw [adminFlags, readFields_overlong (lenient hlen) htakes ha hn]
  rfl

theorem adminFlags_cases (hlen : admin.length ≤ 128) :
    (∃ flags fields, ∃ tag : Tag, BerFields fields admin ∧ PolicyFields fields ∧
      tag.value = 0x81 ∧ (tag, [flags]) ∈ fields ∧ adminFlags admin = .ok ⟨flags⟩) ∨
    (∃ fields bytes rest n, BerFields fields bytes ∧ PolicyFields fields ∧ admin = bytes ++ rest ∧
      Announces n rest ∧ 128 < n) ∨ adminFlags admin = .error malformed := by
  have hlenient := lenient hlen
  rcases @readFields_cases (.newBer admin protectionLimits) _ AdminFields.take {} hlenient with
    ⟨fields, bytes, acc, ht⟩ | ⟨fields, bytes, rest, acc, n, ht, ha, hn⟩ | ⟨e, he, hsource⟩
  · obtain ⟨hpolicy, hseen⟩ := policy_of_fold ht.folded
    have hrun := readFields_all (lenient hlen) ht
    obtain ⟨hparts, hwhole, -, -⟩ := ht
    have hall : admin = bytes := hwhole.trans (List.append_nil _)
    subst hall
    cases hflags : acc.flags with
    | none =>
      refine Or.inr (Or.inr ?_)
      rw [adminFlags, hrun]
      dsimp only
      rw [hflags]
    | some flags =>
      obtain ⟨tag, htag, hmem⟩ := hseen.present hflags
      exact Or.inl ⟨flags, fields, tag, hparts, hpolicy, htag, hmem,
        adminFlags_policy hlen hparts hpolicy htag hmem⟩
  · exact Or.inr (Or.inl ⟨fields, bytes, rest, n, ht.parts, (policy_of_fold ht.folded).1, ht.whole,
      ha, hn⟩)
  · refine Or.inr (Or.inr ?_)
    have hmalformed : e = malformed := by
      rcases hsource with rfl | ⟨acc, field, hstep⟩
      · rfl
      · exact take_error hstep
    rw [adminFlags, he, hmalformed]
    rfl

theorem fromAdminObject_eq (hlen : data.length ≤ 128) :
    ManagementProtection.fromAdminObject data = (do
      let outer ← single data 0x53
      if outer = [] then .ok ⟨0⟩
      else
        let admin ← single outer 0x80
        if admin = [] then .ok ⟨0⟩ else adminFlags admin) :=
  if_neg (Nat.not_lt.mpr hlen)

/-- A field, or a header, is not nothing. -/
theorem BerFields.ne_nil {fields : List (Tag × Bytes)} {field : Tag × Bytes} {bytes : Bytes}
    (hb : BerFields fields bytes) (hf : field ∈ fields) : bytes ≠ [] := by
  cases hb with
  | nil => exact absurd hf List.not_mem_nil
  | cons h _ => exact h.announces.ne_nil

theorem Sole.ne_nil {value : Bytes} {expected : ℕ} (h : Sole expected value data) : data ≠ [] := by
  obtain ⟨_, _, hfield⟩ := h
  exact BerFields.ne_nil (.single hfield) (List.mem_singleton_self _)

theorem Header.ne_nil {expected : ℕ} (h : Header expected data n) : data ≠ [] := by
  cases h with
  | first ha => exact ha.ne_nil
  | trailing h hb _ =>
    rw [hb]
    exact List.append_ne_nil_of_left_ne_nil h.ne_nil _

/-- The value of a template that holds something is parsed further. -/
theorem admin_inner {outer : Bytes} (hlen : data.length ≤ 128) (h : Sole 0x53 outer data)
    (hne : outer ≠ []) : ManagementProtection.fromAdminObject data = (do
      let admin ← single outer 0x80
      if admin = [] then .ok ⟨0⟩ else adminFlags admin) := by
  rw [fromAdminObject_eq hlen, single_sole hlen h]
  exact if_neg hne

theorem admin_accepts (hlen : data.length ≤ 128) (h : AdminData flags data) :
    ManagementProtection.fromAdminObject data = .ok ⟨flags⟩ := by
  cases h with
  | absent h hf =>
    rw [fromAdminObject_eq hlen, single_sole hlen h, hf]
    rfl
  | empty h h' hf =>
    rw [admin_inner hlen h h'.ne_nil, single_sole (Nat.le_trans h.length_le hlen) h', hf]
    rfl
  | @policy outer admin fields tag h h' hb hp ht hf =>
    have houter := Nat.le_trans h.length_le hlen
    rw [admin_inner hlen h h'.ne_nil, single_sole houter h']
    change (if admin = [] then _ else _) = _
    rw [if_neg (BerFields.ne_nil hb hf)]
    exact adminFlags_policy (Nat.le_trans h'.length_le houter) hb hp ht hf

theorem admin_overlong (hlen : data.length ≤ 128) (h : AdminHeader data n) (hn : 128 < n) :
    ManagementProtection.fromAdminObject data = .error overlong := by
  cases h with
  | object h =>
    rw [fromAdminObject_eq hlen, single_overlong hlen h hn]
    rfl
  | container hs h =>
    rw [admin_inner hlen hs h.ne_nil, single_overlong (Nat.le_trans hs.length_le hlen) h hn]
    rfl
  | @field outer admin bytes rest fields hs hs' hb hp hrest h =>
    have houter := Nat.le_trans hs.length_le hlen
    have hne : admin ≠ [] := by
      rw [hrest]
      exact List.append_ne_nil_of_right_ne_nil _ h.ne_nil
    rw [admin_inner hlen hs hs'.ne_nil, single_sole houter hs']
    change (if admin = [] then _ else _) = _
    rw [if_neg hne]
    exact adminFlags_overlong (Nat.le_trans hs'.length_le houter) hb hp hrest h hn

theorem admin_cases (hlen : data.length ≤ 128) :
    (∃ flags, AdminData flags data ∧ ManagementProtection.fromAdminObject data = .ok ⟨flags⟩) ∨
      (∃ n, AdminHeader data n ∧ 128 < n) ∨
      ManagementProtection.fromAdminObject data = .error malformed := by
  have haccepted {flags : UInt8} (h : AdminData flags data) :
      ∃ flags, AdminData flags data ∧ ManagementProtection.fromAdminObject data = .ok ⟨flags⟩ :=
    ⟨flags, h, admin_accepts hlen h⟩
  rcases @single_cases data 0x53 hlen with ⟨outer, hs, hsingle⟩ | ⟨n, hheader, hn⟩ | he
  · by_cases hnil : outer = []
    · subst hnil
      exact Or.inl (haccepted (.absent hs rfl))
    have houter := Nat.le_trans hs.length_le hlen
    rw [admin_inner hlen hs hnil] at haccepted ⊢
    rcases @single_cases outer 0x80 houter with ⟨admin, hs', hsingle'⟩ | ⟨n, hheader, hn⟩ | he
    · by_cases hempty : admin = []
      · subst hempty
        exact Or.inl (haccepted (.empty hs hs' rfl))
      rcases adminFlags_cases (Nat.le_trans hs'.length_le houter) with
        ⟨flags, fields, tag, hb, hp, ht, hf, _⟩ | ⟨fields, bytes, rest, n, hb, hp, hrest, ha, hn⟩ |
          he
      · exact Or.inl (haccepted (.policy hs hs' hb hp ht hf))
      · exact Or.inr (Or.inl ⟨n, .field hs hs' hb hp hrest ha, hn⟩)
      · refine Or.inr (Or.inr ?_)
        rw [hsingle']
        exact (if_neg hempty).trans he
    · exact Or.inr (Or.inl ⟨n, .container hs hheader, hn⟩)
    · refine Or.inr (Or.inr ?_)
      rw [he]
      rfl
  · exact Or.inr (Or.inl ⟨n, .object hheader, hn⟩)
  · refine Or.inr (Or.inr ?_)
    rw [fromAdminObject_eq hlen, he]
    rfl

theorem protectedKey_eq (hlen : data.length ≤ 64) :
    protectedManagementKeyFromObject data = (do
      let key ← single (← single (← single data 0x53) 0x88) 0x89
      if key.length ≠ 24 then .error malformed else .ok key) :=
  if_neg (Nat.not_lt.mpr hlen)

/-- What is left to parse after one template, and after both. -/
theorem printed_outer {outer : Bytes} (hlen : data.length ≤ 64) (h : Sole 0x53 outer data) :
    protectedManagementKeyFromObject data = (do
      let key ← single (← single outer 0x88) 0x89
      if key.length ≠ 24 then .error malformed else .ok key) := by
  rw [protectedKey_eq hlen, single_sole (Nat.le_trans hlen (by decide)) h]
  rfl

theorem printed_inner {outer inner : Bytes} (hlen : data.length ≤ 64) (h : Sole 0x53 outer data)
    (h' : Sole 0x88 inner outer) : protectedManagementKeyFromObject data = (do
      let key ← single inner 0x89
      if key.length ≠ 24 then .error malformed else .ok key) := by
  have houter := Nat.le_trans h.length_le hlen
  rw [printed_outer hlen h, single_sole (Nat.le_trans houter (by decide)) h']
  rfl

theorem printed_accepts {key : Bytes} (hlen : data.length ≤ 64) (h : Printed key data) :
    protectedManagementKeyFromObject data = .ok key := by
  obtain ⟨h, h', h'', hkey⟩ := h
  have hinner := Nat.le_trans (Nat.le_trans h'.length_le h.length_le) hlen
  rw [printed_inner hlen h h', single_sole (Nat.le_trans hinner (by decide)) h'']
  exact if_neg (not_not_intro hkey)

theorem printed_overlong (hlen : data.length ≤ 64) (h : PrintedHeader data n) (hn : 128 < n) :
    protectedManagementKeyFromObject data = .error overlong := by
  have hdata : data.length ≤ 128 := Nat.le_trans hlen (by decide)
  cases h with
  | object h =>
    rw [protectedKey_eq hlen, single_overlong hdata h hn]
    rfl
  | template hs h =>
    rw [printed_outer hlen hs, single_overlong (Nat.le_trans hs.length_le hdata) h hn]
    rfl
  | key hs hs' h =>
    have hinner := Nat.le_trans (Nat.le_trans hs'.length_le hs.length_le) hdata
    rw [printed_inner hlen hs hs', single_overlong hinner h hn]
    rfl

theorem printed_cases (hlen : data.length ≤ 64) :
    (∃ key, Printed key data ∧ protectedManagementKeyFromObject data = .ok key) ∨
      (∃ n, PrintedHeader data n ∧ 128 < n) ∨
      protectedManagementKeyFromObject data = .error malformed := by
  have hdata : data.length ≤ 128 := Nat.le_trans hlen (by decide)
  rcases @single_cases data 0x53 hdata with ⟨outer, hs, -⟩ | ⟨n, hheader, hn⟩ | he
  · have houter := Nat.le_trans hs.length_le hdata
    rcases @single_cases outer 0x88 houter with ⟨inner, hs', -⟩ | ⟨n, hheader, hn⟩ | he
    · rcases @single_cases inner 0x89 (Nat.le_trans hs'.length_le houter) with
        ⟨key, hs'', hkey⟩ | ⟨n, hheader, hn⟩ | he
      · by_cases hlength : key.length = 24
        · have hprinted : Printed key data := ⟨hs, hs', hs'', hlength⟩
          exact Or.inl ⟨key, hprinted, printed_accepts hlen hprinted⟩
        · refine Or.inr (Or.inr ?_)
          rw [printed_inner hlen hs hs', hkey]
          exact if_pos hlength
      · exact Or.inr (Or.inl ⟨n, .key hs hs' hheader, hn⟩)
      · refine Or.inr (Or.inr ?_)
        rw [printed_inner hlen hs hs', he]
        rfl
    · exact Or.inr (Or.inl ⟨n, .template hs hheader, hn⟩)
    · refine Or.inr (Or.inr ?_)
      rw [printed_outer hlen hs, he]
      rfl
  · exact Or.inr (Or.inl ⟨n, .object hheader, hn⟩)
  · refine Or.inr (Or.inr ?_)
    rw [protectedKey_eq hlen, he]
    rfl

end objects

/-- A parser accepts exactly its schema and reports anything else as an invalid response, in the
phase of parsing. -/
structure Meets {T : Type} (result : Except Error T) (schema : T → Prop) : Prop where
  accepts : ∀ value, result = .ok value ↔ schema value
  reports : ∀ e, result = .error e → e.kind = .invalidResponse ∧ e.phase = .parsing

/-- A result that is accepted, comes from an overlong header or is malformed meets the schema
exactly when there is no such header. -/
theorem meets_iff {T : Type} {result : Except Error T} {schema : T → Prop} {header : ℕ → Prop}
    (haccepts : ∀ value, schema value → result = .ok value)
    (hoverlong : ∀ n, header n → 128 < n → result = .error overlong)
    (hcases : (∃ value, schema value ∧ result = .ok value) ∨ (∃ n, header n ∧ 128 < n) ∨
      result = .error malformed) : Meets result schema ↔ ∀ n, header n → n ≤ 128 := by
  constructor
  · intro hmeets n hheader
    by_contra hn
    have hkind := (hmeets.reports _ (hoverlong n hheader (Nat.not_le.mp hn))).1
    cases hkind
  · intro hshort
    refine ⟨fun value => ⟨?_, haccepts value⟩, ?_⟩
    · intro hvalue
      rcases hcases with ⟨value', hschema, hvalue'⟩ | ⟨n, hheader, hn⟩ | he
      · cases hvalue.symm.trans hvalue'
        exact hschema
      · exact absurd (hshort n hheader) (Nat.not_le.mpr hn)
      · cases hvalue.symm.trans he
    · intro e herror
      rcases hcases with ⟨value', _, hvalue'⟩ | ⟨n, hheader, hn⟩ | he
      · cases herror.symm.trans hvalue'
      · exact absurd (hshort n hheader) (Nat.not_le.mpr hn)
      · cases herror.symm.trans he
        exact ⟨rfl, rfl⟩

/-- Both parsers meet their schemas on every input within their bounds in which no header that they
come to announces more than 128 bytes. -/
theorem protection_schemas_iff (data : Bytes) :
    (data.length ≤ 128 →
      (Meets (ManagementProtection.fromAdminObject data) (fun p => AdminData p.flags data) ↔
        ∀ n, AdminHeader data n → n ≤ 128)) ∧
    (data.length ≤ 64 →
      (Meets (protectedManagementKeyFromObject data) (fun key => Printed key data) ↔
        ∀ n, PrintedHeader data n → n ≤ 128)) := by
  constructor
  · intro hlen
    apply meets_iff
    · intro p h
      exact admin_accepts hlen h
    · intro n h hn
      exact admin_overlong hlen h hn
    · rcases admin_cases hlen with ⟨flags, h, hok⟩ | h
      · exact Or.inl ⟨⟨flags⟩, h, hok⟩
      · exact Or.inr h
  · intro hlen
    apply meets_iff
    · intro key h
      exact printed_accepts hlen h
    · intro n h hn
      exact printed_overlong hlen h hn
    · exact printed_cases hlen

theorem protection_schemas_iff_empty :
    Meets (ManagementProtection.fromAdminObject [0x53, 0]) (fun p => AdminData p.flags [0x53, 0]) ↔
      ∀ n, AdminHeader [0x53, 0] n → n ≤ 128 :=
  (protection_schemas_iff [0x53, 0]).1 (by decide)

/-- A truncated object of three bytes that announces 129 is reported as a limit. -/
theorem truncated_object_limit :
    ManagementProtection.fromAdminObject [0x53, 0x81, 0x81] =
        .error ((Error.new .limitExceeded).atPhase .parsing) ∧
      protectedManagementKeyFromObject [0x53, 0x81, 0x81] =
        .error ((Error.new .limitExceeded).atPhase .parsing) ∧
      ¬ Meets (ManagementProtection.fromAdminObject [0x53, 0x81, 0x81])
        (fun p => AdminData p.flags [0x53, 0x81, 0x81]) ∧
      ¬ Meets (protectedManagementKeyFromObject [0x53, 0x81, 0x81])
        (fun key => Printed key [0x53, 0x81, 0x81]) := by
  refine ⟨rfl, rfl, ?_, ?_⟩
  · intro hmeets
    cases (hmeets.reports _ rfl).1
  · intro hmeets
    cases (hmeets.reports _ rfl).1

end PivProtectionSchema
