import LibCanokey.PivDirectory

/-! # The listing of a metadata directory

Nothing of a payload of version 1 is lost in its entries, and every issue of an entry is reported
exactly where it is one. -/
namespace PivDirectoryListing

open BigEndian ListTraversal ProtocolError ProtocolTlv CompatProfile PivCommand PivDirectory

/-- The six bytes of an entry. -/
def entryBytes (e : DirectoryEntry) : Bytes :=
  [e.reference, e.flags, e.keyFields.1, e.keyFields.2.1, e.keyFields.2.2.1, e.keyFields.2.2.2]

/-- The header of version 1 and its payload, whose length is one plain byte. -/
structure Framed (payload data : Bytes) : Prop where
  whole : data = [1, 1, 1, 2, UInt8.ofNat payload.length] ++ payload
  entries : payload.length % 6 = 0
  most : payload.length ≤ 144

/-- What the issues of the entry at a place say. -/
structure Diagnosed (entries : List DirectoryEntry) (i : ℕ) (e : DirectoryEntry) : Prop where
  duplicate : .duplicateSlot ∈ e.issues ↔
    ∃ j < i, ∃ e', entries[j]? = some e' ∧ e'.reference = e.reference
  unknown : .unknownSlot ∈ e.issues ↔ ∀ slot : Slot, slot.reference ≠ e.reference
  empty : .emptyFlags ∈ e.issues ↔ e.flags = 0
  flags : .unknownFlags ∈ e.issues ↔ ∃ k, 2 ≤ k ∧ e.flags.toNat.testBit k = true
  keyFields : .keyFieldsWithoutKey ∈ e.issues ↔
    e.flags.toNat.testBit 0 = false ∧ ∃ b ∈ (entryBytes e).drop 2, b ≠ 0

section entries

variable {profile : DeviceProfile} {seen : List UInt8} {item : Bytes} {items : List Bytes}
  {i : ℕ} {e : DirectoryEntry}

theorem entryBytes_directoryEntry (h : item.length = 6) :
    entryBytes (directoryEntry profile seen item) = item := by
  match item, h with
  | [_, _, _, _, _, _], _ => rfl

theorem directoryEntries_bytes (h : ∀ item ∈ items, item.length = 6) :
    (directoryEntries profile seen items).flatMap entryBytes = items.flatten := by
  induction items generalizing seen with
  | nil => rfl
  | cons item items ih =>
    obtain ⟨hitem, hitems⟩ := List.forall_mem_cons.mp h
    rw [directoryEntries, List.flatMap_cons, entryBytes_directoryEntry hitem, ih hitems,
      List.flatten_cons]

theorem length_directoryEntries :
    (directoryEntries profile seen items).length = items.length := by
  induction items generalizing seen with
  | nil => rfl
  | cons item items ih => rw [directoryEntries, List.length_cons, List.length_cons, ih]

/-- The entry at a place, with what the references before it and those of `seen` make of it. -/
theorem directoryEntries_getElem? (h : (directoryEntries profile seen items)[i]? = some e) :
    ∃ item before, item ∈ items ∧ e = directoryEntry profile before item ∧
      ∀ r, r ∈ before ↔ r ∈ seen ∨
        ∃ j < i, ∃ e', (directoryEntries profile seen items)[j]? = some e' ∧ e'.reference = r := by
  induction items generalizing seen i with
  | nil => cases h
  | cons item items ih =>
    rw [directoryEntries] at h ⊢
    cases i with
    | zero =>
      obtain rfl := Option.some.inj h
      refine ⟨item, seen, List.mem_cons_self, rfl, ?_⟩
      intro r
      simp
    | succ i =>
      obtain ⟨found, before, hmem, he, hbefore⟩ := ih h
      refine ⟨found, before, List.mem_cons_of_mem _ hmem, he, ?_⟩
      intro r
      rw [hbefore, List.mem_cons]
      constructor
      · rintro ((rfl | hseen) | ⟨j, hj, e', he', hr⟩)
        · exact Or.inr ⟨0, Nat.succ_pos i, _, rfl, rfl⟩
        · exact Or.inl hseen
        · exact Or.inr ⟨j + 1, Nat.succ_lt_succ hj, e', he', hr⟩
      · rintro (hseen | ⟨j, hj, e', he', hr⟩)
        · exact Or.inl (Or.inr hseen)
        · cases j with
          | zero =>
            obtain rfl := Option.some.inj he'
            exact Or.inl (Or.inl hr.symm)
          | succ j => exact Or.inr ⟨j, Nat.lt_of_succ_lt_succ hj, e', he', hr⟩

end entries

section issues

variable {seen : List UInt8} {reference flags : UInt8} {key : Bytes}

/-- The ordinary references are those of the slots. -/
theorem ordinarySlot_iff :
    ordinarySlot reference = true ↔ ∃ slot : Slot, slot.reference = reference := by
  have hretired : ∀ r : UInt8, 0x82 ≤ r ∧ r ≤ 0x95 →
      1 ≤ r - 0x81 ∧ r - 0x81 ≤ 20 ∧ 0x81 + (r - 0x81) = r :=
    forall_byte (by decide +kernel)
  have hindex : ∀ n : UInt8, 1 ≤ n ∧ n ≤ 20 → ordinarySlot (0x81 + n) = true :=
    forall_byte (by decide +kernel)
  constructor
  · intro h
    simp only [ordinarySlot, Bool.or_eq_true, beq_iff_eq, Bool.and_eq_true,
      decide_eq_true_eq] at h
    rcases h with (((rfl | rfl) | rfl) | rfl) | hrange
    · exact ⟨.authentication, rfl⟩
    · exact ⟨.signature, rfl⟩
    · exact ⟨.keyManagement, rfl⟩
    · exact ⟨.cardAuthentication, rfl⟩
    · obtain ⟨hlower, hupper, hsum⟩ := hretired reference hrange
      exact ⟨.retired ⟨reference - 0x81, hlower, hupper⟩, hsum⟩
  · rintro ⟨slot, rfl⟩
    cases slot with
    | retired n => exact hindex n.index ⟨n.lower, n.upper⟩
    | _ => decide

theorem mem_when {α : Type} {c : Prop} [Decidable c] {x y : α} :
    x ∈ (if c then [y] else []) ↔ c ∧ x = y := by
  by_cases h : c
  · simp [h]
  · simp [h]

theorem mem_entryIssues (issue : DirectoryIssue) : issue ∈ entryIssues seen reference flags key ↔
    (ordinarySlot reference = false ∧ issue = .unknownSlot) ∨
    (reference ∈ seen ∧ issue = .duplicateSlot) ∨ (flags = 0 ∧ issue = .emptyFlags) ∨
    (flags &&& (~~~ 3) ≠ 0 ∧ issue = .unknownFlags) ∨
    ((flags &&& 1 = 0 ∧ key.any (· != 0) = true) ∧ issue = .keyFieldsWithoutKey) := by
  have hslot : issue ∈
      (if ordinarySlot reference = true then [] else [DirectoryIssue.unknownSlot]) ↔
      ordinarySlot reference = false ∧ issue = .unknownSlot := by
    cases ordinarySlot reference <;> simp
  simp only [entryIssues, List.mem_append, mem_when, hslot]
  simp only [or_assoc]

/-- The flags beyond key and certificate, and the flag of a key, as bits. -/
theorem flag_bits (flags : UInt8) :
    (flags &&& (~~~ 3) ≠ 0 ↔ ∃ k, 2 ≤ k ∧ flags.toNat.testBit k = true) ∧
      (flags &&& 1 = 0 ↔ flags.toNat.testBit 0 = false) := by
  have hbits : ∀ b : UInt8, (b &&& (~~~ 3) ≠ 0 ↔ ∃ k < 8, 2 ≤ k ∧ b.toNat.testBit k = true) ∧
      (b &&& 1 = 0 ↔ b.toNat.testBit 0 = false) := forall_byte (by decide +kernel)
  obtain ⟨hhigh, hkey⟩ := hbits flags
  refine ⟨hhigh.trans ⟨?_, ?_⟩, hkey⟩
  · rintro ⟨k, _, hk, hbit⟩
    exact ⟨k, hk, hbit⟩
  · rintro ⟨k, hk, hbit⟩
    refine ⟨k, ?_, hk, hbit⟩
    by_contra hlarge
    have hlt : flags.toNat < 2 ^ k :=
      Nat.lt_of_lt_of_le flags.toNat_lt (Nat.pow_le_pow_right (by decide) (Nat.le_of_not_lt hlarge))
    rw [Nat.testBit_lt_two_pow hlt] at hbit
    cases hbit

end issues

section listing

variable {profile : DeviceProfile} {items : List Bytes} {data payload : Bytes} {limit i : ℕ}
  {e : DirectoryEntry} {d : MetadataDirectory}

theorem entries_diagnosed (hlen : ∀ item ∈ items, item.length = 6)
    (h : (directoryEntries profile [] items)[i]? = some e) :
    Diagnosed (directoryEntries profile [] items) i e := by
  obtain ⟨item, before, hmem, rfl, hbefore⟩ := directoryEntries_getElem? h
  have hbytes := @entryBytes_directoryEntry profile before item (hlen item hmem)
  have hissues : (directoryEntry profile before item).issues =
      entryIssues before (item.getD 0 0) (item.getD 1 0) (item.drop 2) := rfl
  obtain ⟨hhigh, hkey⟩ := flag_bits (item.getD 1 0)
  refine ⟨?_, ?_, ?_, ?_, ?_⟩
  · rw [hissues, mem_entryIssues]
    simp only [reduceCtorEq, and_false, false_or, or_false, and_true]
    rw [hbefore]
    simp only [List.not_mem_nil, false_or]
    rfl
  · rw [hissues, mem_entryIssues]
    simp only [reduceCtorEq, and_false, or_false, and_true]
    rw [← Bool.not_eq_true, ordinarySlot_iff, not_exists]
    rfl
  · rw [hissues, mem_entryIssues]
    simp only [reduceCtorEq, and_false, false_or, or_false, and_true]
    rfl
  · rw [hissues, mem_entryIssues]
    simp only [reduceCtorEq, and_false, false_or, or_false, and_true]
    exact hhigh
  · rw [hissues, mem_entryIssues, hbytes]
    simp only [reduceCtorEq, and_false, false_or, and_true]
    rw [hkey, List.any_eq_true]
    simp only [bne_iff_ne]
    rfl

/-- A payload of whole entries, taken apart and put together again. -/
theorem listing_entries (hlen : payload.length % 6 = 0) :
    (∀ item ∈ chunks 6 (payload.length / 6) payload, item.length = 6) ∧
      (directoryEntries profile [] (chunks 6 (payload.length / 6) payload)).flatMap entryBytes =
        payload := by
  have hall : ∀ item ∈ chunks 6 (payload.length / 6) payload, item.length = 6 :=
    fun item hitem => length_of_mem_chunks (by omega) hitem
  refine ⟨hall, ?_⟩
  rw [directoryEntries_bytes hall, flatten_chunks (by omega)]

/-- What parsing a framed reply comes to. -/
theorem parse_framed (h : Framed payload data) (hlimit : data.length ≤ limit) :
    MetadataDirectory.parse profile data limit = .ok ⟨data, 1,
      some (directoryEntries profile [] (chunks 6 (payload.length / 6) payload))⟩ := by
  obtain ⟨rfl, hentries, hmost⟩ := h
  have hnat : (UInt8.ofNat payload.length).toNat = payload.length := by
    rw [UInt8.toNat_ofNat']
    exact Nat.mod_eq_of_lt (by omega)
  have hbyte : ¬ UInt8.ofNat payload.length > 144 := by
    rw [gt_iff_lt, UInt8.lt_iff_toNat_lt, hnat]
    exact Nat.not_lt_of_le hmost
  have hlen : ([1, 1, 1, 2, UInt8.ofNat payload.length] ++ payload).length =
      5 + payload.length := by
    rw [List.length_append]
    rfl
  have hframe : ¬ (([1, 1, 1, 2, UInt8.ofNat payload.length] ++ payload).length < 5 ∨
      ([1, 1, 1, 2, UInt8.ofNat payload.length] ++ payload).take 2 ≠ [1, 1] ∨
      ([1, 1, 1, 2, UInt8.ofNat payload.length] ++ payload).getD 3 0 ≠ 2 ∨
      ([1, 1, 1, 2, UInt8.ofNat payload.length] ++ payload).length ≠
        5 + (([1, 1, 1, 2, UInt8.ofNat payload.length] ++ payload).getD 4 0).toNat) := by
    rintro (hshort | hhead | htag | hsize)
    · omega
    · exact hhead rfl
    · exact htag rfl
    · refine hsize (hlen.trans ?_)
      exact congrArg (5 + ·) hnat.symm
  have hdecode : decodeEntries profile 1 (UInt8.ofNat payload.length) payload = .ok (some
      (directoryEntries profile [] (chunks 6 (payload.length / 6) payload))) := by
    rw [decodeEntries, if_pos rfl, if_neg]
    rintro (huneven | hlarge)
    · exact huneven (by rw [hnat]; exact hentries)
    · exact hbyte hlarge
  rw [MetadataDirectory.parse, if_neg (Nat.not_lt_of_le hlimit), if_neg hframe]
  have hbody : decodeEntries profile
      (([1, 1, 1, 2, UInt8.ofNat payload.length] ++ payload).getD 2 0)
      (([1, 1, 1, 2, UInt8.ofNat payload.length] ++ payload).getD 4 0)
      (([1, 1, 1, 2, UInt8.ofNat payload.length] ++ payload).drop 5) = _ := hdecode
  rw [hbody]
  rfl

theorem version_of_parse (h : MetadataDirectory.parse profile data limit = .ok d) :
    d.version = data.getD 2 0 := by
  rw [MetadataDirectory.parse] at h
  by_cases hlimit : data.length > limit
  · rw [if_pos hlimit] at h
    cases h
  rw [if_neg hlimit] at h
  by_cases hframe : data.length < 5 ∨ data.take 2 ≠ [1, 1] ∨ data.getD 3 0 ≠ 2 ∨
      data.length ≠ 5 + (data.getD 4 0).toNat
  · rw [if_pos hframe] at h
    cases h
  rw [if_neg hframe] at h
  obtain ⟨entries, -, hd⟩ := bind_eq_ok.mp h
  obtain rfl := Except.ok.inj hd
  rfl

/-- Nothing but a framed payload is a reply of version 1. -/
theorem framed_of_parse (h : MetadataDirectory.parse profile data limit = .ok d)
    (hversion : data.getD 2 0 = 1) : data.length ≤ limit ∧ ∃ payload, Framed payload data := by
  rw [MetadataDirectory.parse] at h
  by_cases hlimit : data.length > limit
  · rw [if_pos hlimit] at h
    cases h
  rw [if_neg hlimit] at h
  by_cases hframe : data.length < 5 ∨ data.take 2 ≠ [1, 1] ∨ data.getD 3 0 ≠ 2 ∨
      data.length ≠ 5 + (data.getD 4 0).toNat
  · rw [if_pos hframe] at h
    cases h
  rw [if_neg hframe] at h
  obtain ⟨entries, hentries, -⟩ := bind_eq_ok.mp h
  rw [hversion, decodeEntries, if_pos rfl] at hentries
  by_cases hpayload : (data.getD 4 0).toNat % 6 ≠ 0 ∨ data.getD 4 0 > 144
  · rw [if_pos hpayload] at hentries
    cases hentries
  simp only [not_or, not_not, Nat.not_lt] at hframe hpayload
  obtain ⟨hfive, hhead, htag, hsize⟩ := hframe
  obtain ⟨hsix, hmost⟩ := hpayload
  refine ⟨Nat.le_of_not_lt hlimit, data.drop 5, ?_⟩
  have hrest : (data.drop 5).length = (data.getD 4 0).toNat := by
    rw [List.length_drop]
    omega
  refine ⟨?_, by rw [hrest]; exact hsix, ?_⟩
  · rw [hrest, UInt8.ofNat_toNat]
    match data, hfive with
    | a :: b :: v :: t :: l :: rest, _ =>
      obtain ⟨rfl, rfl⟩ : a = 1 ∧ b = 1 := by simpa using hhead
      obtain rfl : v = 1 := hversion
      obtain rfl : t = 2 := htag
      rfl
  · rw [hrest]
    have hle := UInt8.le_iff_toNat_le.mp (UInt8.not_lt.mp hmost)
    exact hle

end listing

/-- A reply of version 1 is accepted exactly when it is its header and at most 24 whole entries,
within the limit; the entries spell the payload, and their issues are what is wrong with them. -/
theorem listing_exact (profile : DeviceProfile) (data : Bytes) (limit : ℕ) :
    (data[2]? = some 1 → ((∃ d, MetadataDirectory.parse profile data limit = .ok d) ↔
      data.length ≤ limit ∧ ∃ payload, Framed payload data)) ∧
    ∀ d, MetadataDirectory.parse profile data limit = .ok d → d.version = 1 →
      d.raw = data ∧ ∃ entries, d.entries = some entries ∧
        entries.flatMap entryBytes = data.drop 5 ∧ entries.length ≤ 24 ∧
        ∀ i e, entries[i]? = some e → Diagnosed entries i e := by
  refine ⟨?_, ?_⟩
  · intro hversion
    constructor
    · rintro ⟨d, h⟩
      exact framed_of_parse h (by rw [List.getD_eq_getElem?_getD, hversion]; rfl)
    · rintro ⟨hlimit, payload, hframed⟩
      exact ⟨_, parse_framed hframed hlimit⟩
  · intro d h hone
    have hversion : data.getD 2 0 = 1 := (version_of_parse h).symm.trans hone
    obtain ⟨hlimit, payload, hframed⟩ := framed_of_parse h hversion
    rw [parse_framed hframed hlimit] at h
    obtain rfl := Except.ok.inj h
    obtain ⟨hitems, hbytes⟩ := @listing_entries profile payload hframed.entries
    refine ⟨rfl, _, rfl, ?_, ?_, ?_⟩
    · rw [hbytes, hframed.whole]
      rfl
    · rw [length_directoryEntries, length_chunks]
      have hmost := hframed.most
      omega
    · intro i e he
      exact entries_diagnosed hitems he

/-- A signature slot listed twice, the second time with a stray bit and without its key. -/
theorem listing_exact_duplicate :
    ∃ d entries, MetadataDirectory.parse ⟨none, none, none, none, []⟩
        [1, 1, 1, 2, 12, 0x9c, 1, 0x11, 1, 2, 1, 0x9c, 4, 0, 0, 3, 0] 64 = .ok d ∧
      d.entries = some entries ∧ entries.length ≤ 24 ∧
      (∀ e, entries[1]? = some e → .duplicateSlot ∈ e.issues) := by
  have hexact := listing_exact ⟨none, none, none, none, []⟩
    [1, 1, 1, 2, 12, 0x9c, 1, 0x11, 1, 2, 1, 0x9c, 4, 0, 0, 3, 0] 64
  obtain ⟨d, hd⟩ := (hexact.1 rfl).mpr
    ⟨by decide, [0x9c, 1, 0x11, 1, 2, 1, 0x9c, 4, 0, 0, 3, 0], rfl, rfl, by decide⟩
  obtain ⟨-, entries, hentries, hbytes, hmost, hall⟩ := hexact.2 d hd (version_of_parse hd)
  refine ⟨d, entries, hd, hentries, hmost, ?_⟩
  intro e he
  refine (hall 1 e he).duplicate.mpr ⟨0, by decide, ?_⟩
  match entries, he with
  | e₀ :: e₁ :: rest, he =>
    obtain rfl := Option.some.inj he
    refine ⟨e₀, rfl, ?_⟩
    have hfirst := congrArg (·.getD 0 0) hbytes
    have hsecond := congrArg (·.getD 6 0) hbytes
    exact hfirst.trans hsecond.symm

end PivDirectoryListing
