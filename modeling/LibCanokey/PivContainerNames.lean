import LibCanokey.PivConfiguration

/-! # Container names as text

A name is accepted exactly when it is a short text without NUL, whichever of its two forms it is
given in, and neither form loses anything of the other. -/
namespace PivContainerNames

open BigEndian ProtocolError PivConfiguration Utf16Text

section bytes

variable {b : Bytes} {units : List ℕ} {text : List Char}

theorem length_flatMap_toLeBytes (units : List ℕ) :
    (units.flatMap toLeBytes).length = 2 * units.length := by
  induction units with
  | nil => rfl
  | cons u units ih =>
    rw [List.flatMap_cons, List.length_append, ih, List.length_cons]
    change 2 + _ = _
    omega

theorem utf16Units_toLeBytes (h : ∀ u ∈ units, u < 2 ^ 16) :
    utf16Units (units.flatMap toLeBytes) = units := by
  induction units with
  | nil => rfl
  | cons u units ih =>
    obtain ⟨hu, hunits⟩ := List.forall_mem_cons.mp h
    have hvalue : (UInt8.ofNat (u / 256)).toNat * 256 + (UInt8.ofNat u).toNat = u := by
      rw [toNat_ofNat_mod, toNat_ofNat_mod]
      omega
    have hstep : utf16Units ((u :: units).flatMap toLeBytes) =
        ((UInt8.ofNat (u / 256)).toNat * 256 + (UInt8.ofNat u).toNat) ::
          utf16Units (units.flatMap toLeBytes) := rfl
    rw [hstep, hvalue, ih hunits]

/-- Whole pairs of bytes are the bytes of their units. -/
theorem toLeBytes_utf16Units {b : Bytes} (h : b.length % 2 = 0) :
    (utf16Units b).flatMap toLeBytes = b := by
  match b, h with
  | [], _ => rfl
  | [_], h => cases h
  | low :: high :: rest, h =>
    have hrest : rest.length % 2 = 0 := by
      simp only [List.length_cons] at h
      omega
    have hlow : UInt8.ofNat (high.toNat * 256 + low.toNat) = low := by
      apply byte_ext
      have := byte_lt low
      rw [toNat_ofNat_mod]
      omega
    have hhigh : UInt8.ofNat ((high.toNat * 256 + low.toNat) / 256) = high := by
      apply byte_ext
      have := byte_lt low
      have := byte_lt high
      rw [toNat_ofNat_mod]
      omega
    rw [utf16Units, List.flatMap_cons, toLeBytes, hlow, hhigh, toLeBytes_utf16Units hrest]
    rfl

theorem utf16Units_lt (b : Bytes) : ∀ u ∈ utf16Units b, u < 2 ^ 16 := by
  match b with
  | [] => exact fun _ hu => absurd hu List.not_mem_nil
  | [_] => exact fun _ hu => absurd hu List.not_mem_nil
  | low :: high :: rest =>
    have := byte_lt low
    have := byte_lt high
    rw [utf16Units]
    exact List.forall_mem_cons.mpr ⟨by omega, utf16Units_lt rest⟩

theorem map_cons_eq_some {c : Char} {decoded : Option (List Char)} {rest : List (Option Char)}
    (h : ∀ text, decoded = some text ↔ rest = text.map some) :
    decoded.map (c :: ·) = some text ↔ some c :: rest = text.map some := by
  rw [Option.map_eq_some_iff, cons_eq_map_some]
  constructor
  · rintro ⟨tail, htail, rfl⟩
    exact ⟨c, tail, rfl, rfl, (h tail).mp htail⟩
  · rintro ⟨_, tail, hc, rfl, htail⟩
    obtain rfl := Option.some.inj hc
    exact ⟨tail, (h tail).mpr htail, rfl⟩

/-- The validation loop accepts what the decoder reads without an error item. -/
theorem decodeUtf16_eq_some : decodeUtf16 units = some text ↔ items units = text.map some := by
  have hnone {rest : List (Option Char)} {text : List Char} :
      (none : Option (List Char)) = some text ↔ none :: rest = text.map some := by
    simp [cons_eq_map_some]
  fun_induction decodeUtf16 units generalizing text with
  | case1 => cases text <;> simp [items]
  | case2 u rest h ih =>
    obtain ⟨hhigh, hlow⟩ : ¬ High u ∧ ¬ Low u := by
      simp only [High, Low]
      omega
    rw [items_plain hhigh hlow]
    exact map_cons_eq_some fun _ => ih
  | case3 u rest h hlow =>
    rw [items_low (⟨hlow, by omega⟩ : Low u)]
    exact hnone
  | case4 u h hlow =>
    have hhigh : High u := ⟨by omega, by omega⟩
    have hitems : items [u] = [none] := by simp [items, hhigh]
    rw [hitems]
    exact hnone
  | case5 u h hlow v rest hv =>
    have hhigh : High u := ⟨by omega, by omega⟩
    have hlone : ¬ Low v := by
      simp only [Low]
      omega
    rw [items_lone hhigh hlone]
    exact hnone
  | case6 u h hlow v rest hv ih =>
    have hhigh : High u := ⟨by omega, by omega⟩
    have hpair : Low v := ⟨by omega, by omega⟩
    rw [items_pair hhigh hpair]
    exact map_cons_eq_some fun _ => ih

/-- Units that a machine word holds are read exactly when they are those of a text. -/
theorem decodeUtf16_iff (h : ∀ u ∈ units, u < 2 ^ 16) :
    decodeUtf16 units = some text ↔ encode text = units := by
  rw [decodeUtf16_eq_some]
  constructor
  · exact encode_of_items h
  · rintro rfl
    exact items_encode text

/-- What the validation loop accepts, of units that a machine word holds. -/
theorem decoded_iff (h : ∀ u ∈ units, u < 2 ^ 16) :
    ((decodeUtf16 units).any fun text => !text.contains nul) = true ↔
      Paired units ∧ 0 ∉ units := by
  constructor
  · intro hany
    cases hdecode : decodeUtf16 units with
    | none =>
      rw [hdecode] at hany
      cases hany
    | some text =>
      obtain rfl := (decodeUtf16_iff h).mp hdecode
      rw [hdecode, Option.any_some] at hany
      refine ⟨paired_encode text, ?_⟩
      rw [zero_mem_encode]
      change nul ∉ text
      simpa using hany
  · rintro ⟨hpaired, hzero⟩
    obtain ⟨text, htext⟩ := exists_text hpaired h
    rw [(decodeUtf16_iff h).mpr htext, Option.any_some]
    rw [← htext, zero_mem_encode] at hzero
    have hnul : nul ∉ text := hzero
    simpa using hnul

end bytes

section names

variable {text : String} {b : Bytes} {name : ContainerName}

theorem fromUtf16le_eq_ok :
    ContainerName.fromUtf16le b = .ok name ↔ validName b = true ∧ name.utf16le = b := by
  rw [ContainerName.fromUtf16le]
  by_cases h : validName b = true
  · rw [dif_pos h]
    constructor
    · intro hok
      cases hok
      exact ⟨h, rfl⟩
    · rintro ⟨_, rfl⟩
      rfl
  · rw [dif_neg h]
    constructor
    · intro hok
      cases hok
    · rintro ⟨hvalid, _⟩
      exact absurd hvalid h

theorem validName_iff : validName b = true ↔
    b.length % 2 = 0 ∧ b.length ≤ 78 ∧ Paired (utf16Units b) ∧ 0 ∉ utf16Units b := by
  rw [validName, Bool.and_eq_true, Bool.and_eq_true, decoded_iff (utf16Units_lt b),
    decide_eq_true_eq, beq_iff_eq]
  constructor
  · rintro ⟨⟨hlen, heven⟩, hunits⟩
    exact ⟨heven, hlen, hunits⟩
  · rintro ⟨heven, hlen, hunits⟩
    exact ⟨⟨hlen, heven⟩, hunits⟩

theorem validName_encode (text : List Char) :
    validName ((encode text).flatMap toLeBytes) = true ↔
      (encode text).length ≤ 39 ∧ nul ∉ text := by
  rw [validName_iff, utf16Units_toLeBytes fun u hu => encode_lt hu, length_flatMap_toLeBytes,
    zero_mem_encode]
  constructor
  · rintro ⟨_, hlen, _, hnul⟩
    exact ⟨by omega, hnul⟩
  · rintro ⟨hlen, hnul⟩
    exact ⟨by omega, by omega, paired_encode text, hnul⟩

/-- The bytes of a text are a name exactly when the text is short and has no NUL. -/
theorem fromText_eq_ok : ContainerName.fromText text = .ok name ↔
    ((encode text.toList).length ≤ 39 ∧ nul ∉ text.toList) ∧
      name.utf16le = (encode text.toList).flatMap toLeBytes := by
  rw [ContainerName.fromText]
  by_cases hlong : (encode text.toList).length > 39
  · rw [if_pos hlong]
    constructor
    · intro h
      cases h
    · rintro ⟨⟨hshort, _⟩, _⟩
      omega
  · rw [if_neg hlong, fromUtf16le_eq_ok, validName_encode]

/-- A name reads as the text whose units it holds. -/
theorem encode_text (name : ContainerName) : encode name.text.toList = utf16Units name.utf16le := by
  obtain ⟨_, _, hpaired, _⟩ := validName_iff.mp name.valid
  obtain ⟨text, htext⟩ := exists_text hpaired (utf16Units_lt _)
  rw [ContainerName.text, String.toList_ofList, ← htext, lossy_encode]

/-- The two constructors accept what they should, and each form of a name gives back the other. -/
theorem container_names_round_trip :
    (∀ text : String,
      ((∃ name, ContainerName.fromText text = .ok name) ↔
        (encode text.toList).length ≤ 39 ∧ nul ∉ text.toList) ∧
      ∀ name, ContainerName.fromText text = .ok name → name.text = text) ∧
    ∀ b : Bytes,
      ((∃ name, ContainerName.fromUtf16le b = .ok name) ↔
        b.length % 2 = 0 ∧ b.length ≤ 78 ∧ Paired (utf16Units b) ∧ 0 ∉ utf16Units b) ∧
      ∀ name, ContainerName.fromUtf16le b = .ok name →
        items (utf16Units b) = name.text.toList.map some ∧
        ∃ back, ContainerName.fromText name.text = .ok back ∧ back.utf16le = b := by
  refine ⟨?_, ?_⟩
  · intro text
    refine ⟨⟨?_, ?_⟩, ?_⟩
    · rintro ⟨name, hname⟩
      exact (fromText_eq_ok.mp hname).1
    · intro h
      exact ⟨⟨_, (validName_encode _).mpr h⟩, fromText_eq_ok.mpr ⟨h, rfl⟩⟩
    · intro name hname
      obtain ⟨_, hbytes⟩ := fromText_eq_ok.mp hname
      rw [ContainerName.text, hbytes, utf16Units_toLeBytes fun u hu => encode_lt hu, lossy_encode,
        String.ofList_toList]
  · intro b
    refine ⟨⟨?_, ?_⟩, ?_⟩
    · rintro ⟨name, hname⟩
      exact validName_iff.mp (fromUtf16le_eq_ok.mp hname).1
    · intro h
      exact ⟨⟨b, validName_iff.mpr h⟩, fromUtf16le_eq_ok.mpr ⟨validName_iff.mpr h, rfl⟩⟩
    · intro name hname
      obtain ⟨hvalid, rfl⟩ := fromUtf16le_eq_ok.mp hname
      obtain ⟨heven, hlen, _, hzero⟩ := validName_iff.mp hvalid
      have htext := encode_text name
      have hbytes := toLeBytes_utf16Units heven
      have hcount := length_flatMap_toLeBytes (utf16Units name.utf16le)
      rw [← htext, zero_mem_encode] at hzero
      refine ⟨by rw [← htext, items_encode], name, fromText_eq_ok.mpr ⟨⟨?_, hzero⟩, ?_⟩, rfl⟩
      · rw [htext]
        rw [hbytes] at hcount
        omega
      · rw [htext, hbytes]

/-- A clef, which takes a surrogate pair, and a letter. -/
def clefText : List Char := [Char.ofNat 0x1d11e, 'e']

theorem container_names_round_trip_clef :
    ∃ name back, ContainerName.fromText (String.ofList clefText) = .ok name ∧
      name.utf16le = [0x34, 0xd8, 0x1e, 0xdd, 0x65, 0] ∧ name.text = String.ofList clefText ∧
      ContainerName.fromText name.text = .ok back ∧ back.utf16le = name.utf16le := by
  obtain ⟨hof, hto⟩ := container_names_round_trip
  obtain ⟨hiff, htext⟩ := hof (String.ofList clefText)
  rw [String.toList_ofList] at hiff
  obtain ⟨name, hname⟩ := hiff.mpr ⟨by decide, by decide⟩
  have hbytes := (fromText_eq_ok.mp hname).2
  rw [String.toList_ofList] at hbytes
  obtain ⟨_, back, hback, hsame⟩ :=
    (hto name.utf16le).2 name (fromUtf16le_eq_ok.mpr ⟨name.valid, rfl⟩)
  refine ⟨name, back, hname, ?_, htext name hname, hback, hsame⟩
  rw [hbytes]
  decide

end names

end PivContainerNames
