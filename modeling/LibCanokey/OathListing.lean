import LibCanokey.OathPutDecoding

/-! # Listings

The records that a paged command answers with, as a card of either dialect encodes them: the
parser accepts exactly the payloads that are such records one after another. -/
namespace OathListing

open BigEndian ListTraversal ProtocolError OathTypes OathExecute OathPutDecoding

def codeTag : Code → UInt8
  | .truncated _ => 0x76
  | .full _ => 0x75
  | .hotp => 0x77
  | .touchRequired => 0x7c

def codeBytes : Code → Bytes
  | .truncated bytes => bytes
  | .full bytes => bytes
  | .hotp => []
  | .touchRequired => []

abbrev Field := UInt8 × Bytes

def encodeFields (fs : List Field) : Bytes := fs.flatMap fun f => field f.1 f.2

def encodePairs (ps : List (Field × Field)) : Bytes := ps.flatMap fun p => encodeFields [p.1, p.2]

/-- Fields whose values fit their length bytes. -/
def Framed (fs : List Field) : Prop := ∀ f ∈ fs, f.2.length < 256

/-- A name and what the card knows of the credential: 71 and 75 in the legacy dialect. -/
def legacyRecord (e : Entry) : Field × Field :=
  ((0x71, e.name.bytes), (0x75, [e.algorithmType, e.digits.getD 0]))

/-- One field 72 in the modern dialect. -/
def modernRecord (e : Entry) : Field := (0x72, e.algorithmType :: e.name.bytes)

/-- A name and its code: 71 and one of 75, 76, 77 and 7C. -/
def calculationRecord (c : Calculation) : Field × Field :=
  ((0x71, (c.name.map Name.bytes).getD []), (codeTag c.code, c.digits :: codeBytes c.code))

/-- Only the legacy dialect reports digits. -/
def Listable (legacy : Bool) (e : Entry) : Prop := e.digits.isSome = legacy

def CodeOf (format : Format) : Code → Prop
  | .truncated bytes =>
    format = .truncated ∧ bytes.length = 4 ∧ bytes.getD 0 0 &&& 0x80 = 0
  | .full bytes => format = .full ∧ bytes.length ∈ [20, 32, 64]
  | .hotp => True
  | .touchRequired => True

/-- A record of CALCULATE ALL in a format. -/
structure Calculated (format : Format) (c : Calculation) : Prop where
  name : c.name.isSome = true
  digits : 4 ≤ c.digits ∧ c.digits ≤ 8
  code : CodeOf format c.code

/-- The payload of a card that has `outcome` to tell. -/
def Encodes (request : Request) (legacy : Bool) (outcome : Outcome) (data : Bytes) : Prop :=
  match request, outcome with
  | .list, .entries es =>
    (∀ e ∈ es, Listable legacy e) ∧
      data =
        if legacy then encodePairs (es.map legacyRecord) else encodeFields (es.map modernRecord)
  | .calculateAll _ format, .calculations cs =>
    (∀ c ∈ cs, Calculated format c) ∧ data = encodePairs (cs.map calculationRecord)
  | _, _ => False

section fields

variable {n : ℕ} {bytes rest : Bytes} {fs : List Field} {f : Field}

theorem field_append (h : f.2.length < 256) (rest : Bytes) :
    ∃ length : UInt8, field f.1 f.2 ++ rest = f.1 :: length :: (f.2 ++ rest) ∧
      length.toNat = f.2.length :=
  ⟨UInt8.ofNat f.2.length, rfl, length_byte h⟩

/-- One turn of the splitter, over a whole field. -/
theorem fieldsFrom_field (h : f.2.length < 256) (n : ℕ) (rest : Bytes) :
    fieldsFrom (n + 1) (field f.1 f.2 ++ rest) = (fieldsFrom n rest).map fun fs => f :: fs := by
  obtain ⟨length, hbytes, hlength⟩ := field_append h rest
  rw [hbytes, fieldsFrom, hlength, if_neg (by simp), List.drop_left, List.take_left]

theorem fieldsFrom_complete (hn : (encodeFields fs).length ≤ n) (h : Framed fs) :
    fieldsFrom n (encodeFields fs) = .ok fs := by
  induction fs generalizing n with
  | nil => cases n <;> rfl
  | cons f fs ih =>
    obtain ⟨hf, hfs⟩ := List.forall_mem_cons.mp h
    have hsplit : encodeFields (f :: fs) = field f.1 f.2 ++ encodeFields fs := rfl
    rw [hsplit] at hn ⊢
    simp only [field, List.length_append, List.length_cons] at hn
    cases n with
    | zero => omega
    | succ n =>
      rw [fieldsFrom_field hf, ih (by omega) hfs]
      rfl

/-- One turn of the splitter takes a field off the front. -/
theorem fieldsFrom_succ_eq_ok (h : fieldsFrom (n + 1) bytes = .ok fs) (hne : bytes ≠ []) :
    ∃ f fs' rest, fs = f :: fs' ∧ bytes = field f.1 f.2 ++ rest ∧ f.2.length < 256 ∧
      fieldsFrom n rest = .ok fs' := by
  match bytes, h, hne with
  | [], _, hne => exact absurd rfl hne
  | [_], h, _ => cases h
  | tag :: length :: rest, h, _ =>
    rw [fieldsFrom] at h
    by_cases hshort : rest.length < length.toNat
    · rw [if_pos hshort] at h
      cases h
    · rw [if_neg hshort] at h
      obtain ⟨fs', hfs', rfl⟩ := map_eq_ok.mp h
      have htake : (rest.take length.toNat).length = length.toNat := by
        rw [List.length_take]
        omega
      have hbyte : UInt8.ofNat (rest.take length.toNat).length = length := by
        rw [htake, UInt8.ofNat_toNat]
      have hlt : (rest.take length.toNat).length < 256 := by
        rw [htake]
        exact length.toNat_lt
      refine ⟨(tag, rest.take length.toNat), fs', _, rfl, ?_, hlt, hfs'⟩
      rw [field, hbyte]
      change _ = tag :: length :: (rest.take length.toNat ++ rest.drop length.toNat)
      rw [List.take_append_drop]

theorem fieldsFrom_sound (hn : bytes.length ≤ n) (h : fieldsFrom n bytes = .ok fs) :
    bytes = encodeFields fs ∧ Framed fs := by
  have hempty {n : ℕ} {fs : List Field} (h : fieldsFrom n [] = .ok fs) :
      [] = encodeFields fs ∧ Framed fs := by
    cases n <;> cases h <;> exact ⟨rfl, by simp [Framed]⟩
  induction n generalizing bytes fs with
  | zero =>
    obtain rfl := List.eq_nil_of_length_eq_zero (Nat.le_zero.mp hn)
    exact hempty h
  | succ n ih =>
    by_cases hne : bytes = []
    · subst hne
      exact hempty h
    · obtain ⟨f, fs', rest, rfl, rfl, hf, hrest⟩ := fieldsFrom_succ_eq_ok h hne
      simp only [field, List.length_append, List.length_cons] at hn
      obtain ⟨rfl, hfs'⟩ := ih (by omega) hrest
      exact ⟨rfl, List.forall_mem_cons.mpr ⟨hf, hfs'⟩⟩

/-- The splitter returns the fields that the bytes consist of, and nothing else. -/
theorem fields_eq_ok : fields bytes = .ok fs ↔ bytes = encodeFields fs ∧ Framed fs := by
  constructor
  · exact fieldsFrom_sound le_rfl
  · rintro ⟨rfl, hfs⟩
    exact fieldsFrom_complete le_rfl hfs

theorem fields_error {e : Error} (h : fields bytes = .error e) : e = invalid := by
  have hfrom (n : ℕ) (bytes : Bytes) (h : fieldsFrom n bytes = .error e) : e = invalid := by
    induction n generalizing bytes with
    | zero => cases h
    | succ n ih =>
      match bytes, h with
      | [], h => cases h
      | [_], h =>
        cases h
        rfl
      | tag :: length :: rest, h =>
        rw [fieldsFrom] at h
        by_cases hshort : rest.length < length.toNat
        · rw [if_pos hshort] at h
          cases h
          rfl
        · rw [if_neg hshort] at h
          exact ih _ (map_eq_error.mp h)
  exact hfrom _ _ h

end fields

section pairs

variable {α : Type}

theorem pairs_flatMap (ps : List (α × α)) : pairs (ps.flatMap fun p => [p.1, p.2]) = ps := by
  induction ps with
  | nil => rfl
  | cons p ps ih =>
    rw [List.flatMap_cons]
    change p :: pairs (ps.flatMap fun p => [p.1, p.2]) = p :: ps
    rw [ih]

theorem flatMap_pairs {xs : List α} (h : xs.length % 2 = 0) :
    (pairs xs).flatMap (fun p => [p.1, p.2]) = xs := by
  match xs, h with
  | [], _ => rfl
  | [_], h => simp at h
  | a :: b :: xs, h =>
    have htail : xs.length % 2 = 0 := by
      simp only [List.length_cons] at h
      omega
    rw [pairs, List.flatMap_cons, flatMap_pairs htail]
    rfl

theorem pairs_length (ps : List (α × α)) : (ps.flatMap fun p => [p.1, p.2]).length % 2 = 0 := by
  rw [List.length_flatMap]
  simp

/-- Pairs of short fields are short fields. -/
theorem framed_pairs {ps : List (Field × Field)}
    (h : ∀ p ∈ ps, p.1.2.length < 256 ∧ p.2.2.length < 256) :
    Framed (ps.flatMap fun p => [p.1, p.2]) := by
  intro f hf
  obtain ⟨p, hp, hf⟩ := List.mem_flatMap.mp hf
  obtain ⟨hfirst, hsecond⟩ := h p hp
  rcases List.mem_cons.mp hf with rfl | hf
  · exact hfirst
  · rw [List.mem_singleton.mp hf]
    exact hsecond

theorem encodePairs_eq (ps : List (Field × Field)) :
    encodePairs ps = encodeFields (ps.flatMap fun p => [p.1, p.2]) := by
  rw [encodePairs, encodeFields, List.flatMap_assoc]
  rfl

end pairs

section records

variable {pair : Field × Field} {f : Field} {e : Entry} {c : Calculation} {format : Format}
  {bytes : Bytes}

theorem name_eq_ok {name : Name} {bytes : Bytes} :
    ((Name.fromBytes bytes).mapError fun _ => invalid) = .ok name ↔ bytes = name.bytes := by
  rw [Name.fromBytes]
  by_cases h : 1 ≤ bytes.length ∧ bytes.length ≤ 64
  · rw [dif_pos h]
    constructor
    · intro hok
      cases hok
      rfl
    · rintro rfl
      rfl
  · rw [dif_neg h]
    constructor
    · intro hok
      cases hok
    · rintro rfl
      exact absurd name.bounded h

theorem legacyEntry_eq_ok : legacyEntry pair = .ok e ↔ Listable true e ∧ pair = legacyRecord e := by
  obtain ⟨⟨tag, name⟩, tag', bytes⟩ := pair
  constructor
  · intro h
    match bytes, h with
    | [type, digits], h =>
      rw [legacyEntry] at h
      dsimp only at h
      split_ifs at h with htags
      obtain ⟨hname, hdigits⟩ := not_or.mp htags
      obtain ⟨n, hn, rfl⟩ := map_eq_ok.mp h
      rw [name_eq_ok.mp hn, not_not.mp hname, not_not.mp hdigits]
      exact ⟨rfl, rfl⟩
    | [], h => cases h
    | [_], h => cases h
    | _ :: _ :: _ :: _, h => cases h
  · rintro ⟨hlistable, hpair⟩
    obtain ⟨n, type, digits⟩ := e
    cases digits with
    | none => cases hlistable
    | some digits =>
      rw [hpair]
      have hname := name_eq_ok.mpr (rfl : n.bytes = n.bytes)
      change (((Name.fromBytes n.bytes).mapError fun _ => invalid).map fun name =>
        (⟨name, type, some digits⟩ : Entry)) = _
      rw [hname]
      rfl

theorem modernEntry_eq_ok : modernEntry f = .ok e ↔ Listable false e ∧ f = modernRecord e := by
  obtain ⟨tag, bytes⟩ := f
  constructor
  · intro h
    match bytes, h with
    | type :: second :: rest, h =>
      rw [modernEntry] at h
      dsimp only at h
      split_ifs at h with htag
      obtain ⟨n, hn, rfl⟩ := map_eq_ok.mp h
      rw [name_eq_ok.mp hn, not_not.mp htag]
      exact ⟨rfl, rfl⟩
    | [], h => cases h
    | [_], h => cases h
  · rintro ⟨hlistable, hf⟩
    obtain ⟨n, type, digits⟩ := e
    cases digits with
    | some digits => cases hlistable
    | none =>
      obtain ⟨bytes', hbounded⟩ := n
      cases bytes' with
      | nil => exact absurd hbounded.1 (by simp)
      | cons second rest =>
        rw [hf]
        have hname := (@name_eq_ok ⟨second :: rest, hbounded⟩ (second :: rest)).mpr rfl
        change (((Name.fromBytes (second :: rest)).mapError fun _ => invalid).map fun name =>
          (⟨name, type, none⟩ : Entry)) = _
        rw [hname]
        rfl

/-- A code is read exactly when its tag and length are those of one the format allows. -/
theorem calculation_eq_ok {tag : UInt8} {raw : Bytes} :
    calculation tag raw format none true = .ok c ↔
      c.name = none ∧ (4 ≤ c.digits ∧ c.digits ≤ 8) ∧ CodeOf format c.code ∧
        tag = codeTag c.code ∧ raw = c.digits :: codeBytes c.code := by
  cases raw with
  | nil =>
    constructor
    · intro h
      cases h
    · rintro ⟨_, _, _, _, hraw⟩
      cases hraw
  | cons digits bytes =>
    rw [calculation]
    constructor
    · intro h
      split_ifs at h with hdigits htruncated hfull hhotp htouch
      · obtain ⟨rfl, hformat, hlength, hsign⟩ := htruncated
        cases h
        exact ⟨rfl, hdigits, ⟨hformat, hlength, hsign⟩, rfl, rfl⟩
      · obtain ⟨rfl, hformat, hlength⟩ := hfull
        cases h
        exact ⟨rfl, hdigits, ⟨hformat, by simpa using hlength⟩, rfl, rfl⟩
      · obtain ⟨rfl, _, rfl⟩ := hhotp
        cases h
        exact ⟨rfl, hdigits, trivial, rfl, rfl⟩
      · obtain ⟨rfl, _, rfl⟩ := htouch
        cases h
        exact ⟨rfl, hdigits, trivial, rfl, rfl⟩
    · rintro ⟨hname, hdigits, hcode, rfl, hraw⟩
      obtain ⟨name, digits', code⟩ := c
      cases hname
      obtain ⟨rfl, rfl⟩ := List.cons.inj hraw
      rw [if_neg (not_not.mpr hdigits)]
      cases code with
      | truncated bytes => rw [if_pos ⟨rfl, hcode⟩]; rfl
      | full bytes =>
        obtain ⟨hformat, hlength⟩ := hcode
        have hother : ¬ ((0x75 : UInt8) = 0x76) := by decide
        rw [if_neg fun h => hother h.1]
        exact if_pos ⟨rfl, hformat, by simpa [codeBytes] using hlength⟩
      | hotp => simp [codeTag, codeBytes]
      | touchRequired => simp [codeTag, codeBytes]

theorem namedCalculation_eq_ok :
    namedCalculation format pair = .ok c ↔ Calculated format c ∧ pair = calculationRecord c := by
  obtain ⟨⟨tag, name⟩, tag', bytes⟩ := pair
  rw [namedCalculation]
  dsimp only
  constructor
  · intro h
    split_ifs at h with htag
    obtain ⟨c', hc', h⟩ := bind_eq_ok.mp h
    obtain ⟨n, hn, h⟩ := bind_eq_ok.mp h
    obtain ⟨_, hdigits, hcode, htag', hbytes⟩ := calculation_eq_ok.mp hc'
    cases h
    refine ⟨⟨rfl, hdigits, hcode⟩, ?_⟩
    rw [name_eq_ok.mp hn, not_not.mp htag, htag', hbytes]
    rfl
  · rintro ⟨⟨hname, hdigits, hcode⟩, hpair⟩
    obtain ⟨name', digits, code⟩ := c
    obtain ⟨n, rfl⟩ := Option.isSome_iff_exists.mp hname
    cases hpair
    rw [if_neg (not_not.mpr rfl), bind_eq_ok]
    refine ⟨⟨none, digits, code⟩, calculation_eq_ok.mpr ⟨rfl, hdigits, hcode, rfl, rfl⟩, ?_⟩
    exact bind_eq_ok.mpr ⟨n, name_eq_ok.mpr rfl, rfl⟩

end records

section results

variable {request : Request} {legacy : Bool} {outcome : Outcome} {data : Bytes} {format : Format}
  {challenge : FixedBytes 8}

/-- The fields of a record are never too long for their length byte. -/
theorem legacyRecord_short (e : Entry) :
    (legacyRecord e).1.2.length < 256 ∧ (legacyRecord e).2.2.length < 256 := by
  have := e.name.bounded
  exact ⟨by simp only [legacyRecord]; omega, by simp [legacyRecord]⟩

theorem modernRecord_short (e : Entry) : (modernRecord e).2.length < 256 := by
  have := e.name.bounded
  simp only [modernRecord, List.length_cons]
  omega

theorem calculationRecord_short {c : Calculation} (h : Calculated format c) :
    (calculationRecord c).1.2.length < 256 ∧ (calculationRecord c).2.2.length < 256 := by
  obtain ⟨name, digits, code⟩ := c
  obtain ⟨n, rfl⟩ := Option.isSome_iff_exists.mp h.name
  have hname := n.bounded
  have hcode : (codeBytes code).length ≤ 64 := by
    cases code with
    | truncated bytes =>
      obtain ⟨_, hlength, _⟩ := h.code
      simp only [codeBytes]
      omega
    | full bytes =>
      obtain ⟨_, hlength⟩ := h.code
      simp only [List.mem_cons, List.not_mem_nil, or_false] at hlength
      simp only [codeBytes]
      omega
    | hotp => simp [codeBytes]
    | touchRequired => simp [codeBytes]
  refine ⟨?_, ?_⟩
  · change n.bytes.length < 256
    omega
  · simp only [calculationRecord, List.length_cons]
    omega

/-- Fields taken in pairs are exactly the records that they encode. -/
theorem pairs_eq_ok {β : Type} {f : Field × Field → Except Error β} {g : β → Field × Field}
    {Good : β → Prop} (h : ∀ pair b, f pair = .ok b ↔ Good b ∧ pair = g b)
    (hshort : ∀ b, Good b → (g b).1.2.length < 256 ∧ (g b).2.2.length < 256) {ys : List β} :
    (∃ fs, fields data = .ok fs ∧ fs.length % 2 = 0 ∧ (pairs fs).mapM f = .ok ys) ↔
      (∀ b ∈ ys, Good b) ∧ data = encodePairs (ys.map g) := by
  constructor
  · rintro ⟨fs, hfs, heven, hys⟩
    obtain ⟨hgood, hpairs⟩ := (mapM_inverse h).mp hys
    refine ⟨hgood, ?_⟩
    rw [(fields_eq_ok.mp hfs).1, encodePairs_eq, ← hpairs, flatMap_pairs heven]
  · rintro ⟨hgood, rfl⟩
    refine ⟨(ys.map g).flatMap fun p => [p.1, p.2], ?_, pairs_length _, ?_⟩
    · refine fields_eq_ok.mpr ⟨encodePairs_eq _, framed_pairs ?_⟩
      intro pair hpair
      obtain ⟨b, hb, rfl⟩ := List.mem_map.mp hpair
      exact hshort b (hgood b hb)
    · rw [pairs_flatMap]
      exact (mapM_inverse h).mpr ⟨hgood, rfl⟩

/-- The two requests that answer in pages. -/
def Request.isPaged (request : Request) (legacy : Bool) : Bool := (request.minimum legacy).isSome

/-- Reading fields in pairs, as the parsers of paired records do. -/
theorem paired_eq_ok {β : Type} {f : Field × Field → Except Error β} {g : β → Field × Field}
    {Good : β → Prop} (h : ∀ pair b, f pair = .ok b ↔ Good b ∧ pair = g b)
    (hshort : ∀ b, Good b → (g b).1.2.length < 256 ∧ (g b).2.2.length < 256)
    (out : List β → Outcome) :
    (fields data >>= fun fs => if fs.length % 2 ≠ 0 then .error invalid
      else ((pairs fs).mapM f).map out) = .ok outcome ↔
      ∃ ys, outcome = out ys ∧ (∀ b ∈ ys, Good b) ∧ data = encodePairs (ys.map g) := by
  rw [bind_eq_ok]
  constructor
  · rintro ⟨fs, hfs, hrest⟩
    by_cases heven : fs.length % 2 = 0
    · rw [if_neg (not_not.mpr heven)] at hrest
      obtain ⟨ys, hys, rfl⟩ := map_eq_ok.mp hrest
      exact ⟨ys, rfl, (pairs_eq_ok h hshort).mp ⟨fs, hfs, heven, hys⟩⟩
    · rw [if_pos heven] at hrest
      cases hrest
  · rintro ⟨ys, rfl, hencoded⟩
    obtain ⟨fs, hfs, heven, hys⟩ := (pairs_eq_ok h hshort).mpr hencoded
    exact ⟨fs, hfs, by rw [if_neg (not_not.mpr heven), hys]; rfl⟩

/-- Encoded outcomes, with the outcome in front. -/
theorem encodes_entries : Encodes .list legacy outcome data ↔ ∃ es, outcome = .entries es ∧
    (∀ e ∈ es, Listable legacy e) ∧ data =
      if legacy then encodePairs (es.map legacyRecord) else encodeFields (es.map modernRecord) := by
  cases outcome <;> simp [Encodes]

theorem encodes_calculations : Encodes (.calculateAll challenge format) legacy outcome data ↔
    ∃ cs, outcome = .calculations cs ∧ (∀ c ∈ cs, Calculated format c) ∧
      data = encodePairs (cs.map calculationRecord) := by
  cases outcome <;> simp [Encodes]

/-- A payload is accepted exactly when it encodes the outcome. -/
theorem result_eq_ok (hpaged : Request.isPaged request legacy = true) :
    result request data legacy = .ok outcome ↔ Encodes request legacy outcome data := by
  cases request with
  | list =>
    rw [encodes_entries]
    cases legacy with
    | true =>
      exact paired_eq_ok (fun _ _ => legacyEntry_eq_ok) (fun e _ => legacyRecord_short e) .entries
    | false =>
      have hread : result .list data false =
          fields data >>= fun fs => (fs.mapM modernEntry).map .entries := rfl
      rw [hread, bind_eq_ok]
      constructor
      · rintro ⟨fs, hfs, hrest⟩
        obtain ⟨es, hes, rfl⟩ := map_eq_ok.mp hrest
        obtain ⟨hgood, hrecords⟩ := (mapM_inverse fun _ _ => modernEntry_eq_ok).mp hes
        exact ⟨es, rfl, hgood, by rw [(fields_eq_ok.mp hfs).1, hrecords]; rfl⟩
      · rintro ⟨es, rfl, hgood, hdata⟩
        refine ⟨es.map modernRecord, fields_eq_ok.mpr ⟨hdata, ?_⟩, ?_⟩
        · intro f hf
          obtain ⟨e, _, rfl⟩ := List.mem_map.mp hf
          exact modernRecord_short e
        · rw [(mapM_inverse fun _ _ => modernEntry_eq_ok).mpr ⟨hgood, rfl⟩]
          rfl
  | calculateAll challenge format =>
    rw [encodes_calculations]
    exact paired_eq_ok (fun _ _ => namedCalculation_eq_ok) (fun c hc => calculationRecord_short hc)
      .calculations
  | _ => cases hpaged

theorem name_error {bytes : Bytes} {e : Error}
    (h : ((Name.fromBytes bytes).mapError fun _ => invalid) = .error e) : e = invalid := by
  rw [Name.fromBytes] at h
  split_ifs at h
  · cases h
  · cases h
    rfl

theorem calculation_error {tag : UInt8} {raw : Bytes} {e : Error}
    (h : calculation tag raw format none true = .error e) : e = invalid := by
  unfold calculation at h
  split at h
  · cases h
    rfl
  · split_ifs at h
    all_goals
      cases h
      rfl

/-- Every reader of a record fails with the one error. -/
theorem record_error {e : Error} :
    (∀ pair, legacyEntry pair = .error e → e = invalid) ∧
      (∀ f, modernEntry f = .error e → e = invalid) ∧
      ∀ format pair, namedCalculation format pair = .error e → e = invalid := by
  refine ⟨?_, ?_, ?_⟩
  · intro pair h
    unfold legacyEntry at h
    split at h
    · split_ifs at h
      · cases h
        rfl
      · exact name_error (map_eq_error.mp h)
    · cases h
      rfl
  · intro f h
    unfold modernEntry at h
    split at h
    · split_ifs at h
      · cases h
        rfl
      · exact name_error (map_eq_error.mp h)
    · cases h
      rfl
  · intro format pair h
    rw [namedCalculation] at h
    split_ifs at h
    · cases h
      rfl
    · rcases bind_eq_error.mp h with h | ⟨c, _, h⟩
      · exact calculation_error h
      · rcases bind_eq_error.mp h with h | ⟨n, _, h⟩
        · exact name_error h
        · cases h

/-- Whatever else a payload is, it is rejected as a whole and with one error. -/
theorem result_error (hpaged : Request.isPaged request legacy = true) {e : Error}
    (h : result request data legacy = .error e) : e = invalid := by
  have hpairs {β : Type} {f : Field × Field → Except Error β} {out : List β → Outcome}
      (hf : ∀ pair e, f pair = .error e → e = invalid) {fs : List Field}
      (h : (if fs.length % 2 ≠ 0 then .error invalid else ((pairs fs).mapM f).map out) = .error e) :
      e = invalid := by
    by_cases heven : fs.length % 2 = 0
    · rw [if_neg (not_not.mpr heven)] at h
      obtain ⟨pair, _, hpair⟩ := mapM_eq_error (map_eq_error.mp h)
      exact hf pair _ hpair
    · rw [if_pos heven] at h
      cases h
      rfl
  cases request with
  | list =>
    rcases bind_eq_error.mp h with h | ⟨fs, _, h⟩
    · exact fields_error h
    · cases legacy with
      | true => exact hpairs (fun pair _ hp => record_error.1 pair hp) h
      | false =>
        obtain ⟨f, _, hf⟩ := mapM_eq_error (map_eq_error.mp h)
        exact record_error.2.1 f hf
  | calculateAll challenge format =>
    rcases bind_eq_error.mp h with h | ⟨fs, _, h⟩
    · exact fields_error h
    · exact hpairs (fun pair _ hp => record_error.2.2 format pair hp) h
  | _ => cases hpaged

end results

section flaws

variable {request : Request} {legacy : Bool} {outcome : Outcome} {data : Bytes}

/-- The start of a field that ends before its value does. -/
def Cut : Bytes → Prop
  | [] => False
  | [_] => True
  | _ :: length :: rest => rest.length < length.toNat

def isPaired (request : Request) (legacy : Bool) : Bool :=
  match request with
  | .list => legacy
  | _ => true

/-- A name, then a type and a digit count or a code of the format. -/
structure PairFormed (request : Request) (p : Field × Field) : Prop where
  tag : p.1.1 = 0x71
  name : 1 ≤ p.1.2.length ∧ p.1.2.length ≤ 64
  value : match request with
    | .calculateAll _ format => ∃ digits code, (4 ≤ digits ∧ digits ≤ 8) ∧ CodeOf format code ∧
        p.2 = (codeTag code, digits :: codeBytes code)
    | _ => p.2.1 = 0x75 ∧ p.2.2.length = 2

/-- A type, then a name. -/
structure FieldFormed (f : Field) : Prop where
  tag : f.1 = 0x72
  name : 1 + 1 ≤ f.2.length ∧ f.2.length ≤ 1 + 64

/-- The ways in which a payload is not a listing. -/
inductive Flawed (request : Request) (legacy : Bool) : Bytes → Prop
  | truncated {fs : List Field} {rest : Bytes} (hfs : Framed fs) (hrest : Cut rest) :
      Flawed request legacy (encodeFields fs ++ rest)
  | unpaired {fs : List Field} (hfs : Framed fs) (hpaired : isPaired request legacy = true)
      (hodd : fs.length % 2 = 1) : Flawed request legacy (encodeFields fs)
  | pair {ps : List (Field × Field)} {p : Field × Field}
      (hps : Framed (ps.flatMap fun p => [p.1, p.2])) (hpaired : isPaired request legacy = true)
      (hp : p ∈ ps) (hformed : ¬ PairFormed request p) : Flawed request legacy (encodePairs ps)
  | field {fs : List Field} {f : Field} (hfs : Framed fs)
      (hpaired : isPaired request legacy = false) (hf : f ∈ fs) (hformed : ¬ FieldFormed f) :
      Flawed request legacy (encodeFields fs)

/-- What a listing consists of, field by field. -/
theorem encodes_framed (hpaged : Request.isPaged request legacy = true)
    (h : Encodes request legacy outcome data) :
    (isPaired request legacy = true → ∃ ps, data = encodePairs ps ∧
      Framed (ps.flatMap fun p => [p.1, p.2]) ∧ ∀ p ∈ ps, PairFormed request p) ∧
    (isPaired request legacy = false → ∃ fs, data = encodeFields fs ∧ Framed fs ∧
      ∀ f ∈ fs, FieldFormed f) := by
  cases request with
  | list =>
    obtain ⟨es, rfl, _, hdata⟩ := encodes_entries.mp h
    refine ⟨?_, ?_⟩
    · intro hpaired
      cases (hpaired : legacy = true)
      refine ⟨es.map legacyRecord, hdata, framed_pairs ?_, ?_⟩
      · intro p hp
        obtain ⟨e, _, rfl⟩ := List.mem_map.mp hp
        exact legacyRecord_short e
      · intro p hp
        obtain ⟨e, _, rfl⟩ := List.mem_map.mp hp
        exact ⟨rfl, e.name.bounded, rfl, rfl⟩
    · intro hplain
      cases (hplain : legacy = false)
      refine ⟨es.map modernRecord, hdata, ?_, ?_⟩
      · intro f hf
        obtain ⟨e, _, rfl⟩ := List.mem_map.mp hf
        exact modernRecord_short e
      · intro f hf
        obtain ⟨e, _, rfl⟩ := List.mem_map.mp hf
        have := e.name.bounded
        refine ⟨rfl, ?_⟩
        simp only [modernRecord, List.length_cons]
        omega
  | calculateAll challenge format =>
    obtain ⟨cs, rfl, hgood, hdata⟩ := encodes_calculations.mp h
    refine ⟨?_, ?_⟩
    · intro _
      refine ⟨cs.map calculationRecord, hdata, framed_pairs ?_, ?_⟩
      · intro p hp
        obtain ⟨c, hc, rfl⟩ := List.mem_map.mp hp
        exact calculationRecord_short (hgood c hc)
      · intro p hp
        obtain ⟨c, hc, rfl⟩ := List.mem_map.mp hp
        obtain ⟨hname, hdigits, hcode⟩ := hgood c hc
        obtain ⟨name, digits, code⟩ := c
        obtain ⟨n, rfl⟩ := Option.isSome_iff_exists.mp hname
        exact ⟨rfl, n.bounded, digits, code, hdigits, hcode, rfl⟩
    · intro hplain
      cases hplain
  | _ => cases hpaged

/-- Fields are read off their encoding in one way. -/
theorem encodeFields_injective {fs gs : List Field} (hfs : Framed fs) (hgs : Framed gs)
    (h : encodeFields fs = encodeFields gs) : fs = gs := by
  have hread := fields_eq_ok.mpr ⟨rfl, hfs⟩
  rw [h, fields_eq_ok.mpr ⟨rfl, hgs⟩] at hread
  exact (Except.ok.inj hread).symm

/-- A cut field is not the start of further fields. -/
theorem cut_not_fields {fs gs : List Field} {rest : Bytes} (hfs : Framed fs) (hgs : Framed gs)
    (hrest : Cut rest) : encodeFields fs ++ rest ≠ encodeFields gs := by
  induction fs generalizing gs with
  | nil =>
    intro h
    cases gs with
    | nil =>
      cases (h : rest = [])
      exact hrest
    | cons g gs =>
      obtain ⟨hg, _⟩ := List.forall_mem_cons.mp hgs
      obtain ⟨length, hbytes, hlength⟩ := field_append hg (encodeFields gs)
      have hcut : rest = g.1 :: length :: (g.2 ++ encodeFields gs) := h.trans hbytes
      rw [hcut] at hrest
      have hshort : (g.2 ++ encodeFields gs).length < length.toNat := hrest
      rw [hlength, List.length_append] at hshort
      omega
  | cons f fs ih =>
    intro h
    obtain ⟨hf, hfs⟩ := List.forall_mem_cons.mp hfs
    obtain ⟨length, hbytes, hlength⟩ := field_append hf (encodeFields fs ++ rest)
    have hleft : encodeFields (f :: fs) ++ rest =
        f.1 :: length :: (f.2 ++ (encodeFields fs ++ rest)) := by
      rw [← hbytes, ← List.append_assoc]
      rfl
    cases gs with
    | nil =>
      rw [hleft] at h
      cases h
    | cons g gs =>
      obtain ⟨hg, hgs⟩ := List.forall_mem_cons.mp hgs
      obtain ⟨length', hbytes', hlength'⟩ := field_append hg (encodeFields gs)
      have hright : encodeFields (g :: gs) = g.1 :: length' :: (g.2 ++ encodeFields gs) := hbytes'
      rw [hleft, hright] at h
      obtain ⟨_, htail⟩ := List.cons.inj h
      obtain ⟨hbyte, hvalue⟩ := List.cons.inj htail
      rw [← hbyte] at hlength'
      obtain ⟨_, hrest'⟩ := List.append_inj hvalue (hlength.symm.trans hlength')
      exact ih hfs hgs hrest'

/-- A flawed payload is not a listing, not even a shorter one. -/
theorem flawed_not_encodes (hpaged : Request.isPaged request legacy = true)
    (h : Flawed request legacy data) (outcome : Outcome) :
    ¬ Encodes request legacy outcome data := by
  intro hencodes
  obtain ⟨hpairs, hfields⟩ := encodes_framed hpaged hencodes
  cases h with
  | truncated hfs hrest =>
    by_cases hpaired : isPaired request legacy = true
    · obtain ⟨ps, hdata, hps, _⟩ := hpairs hpaired
      rw [encodePairs_eq] at hdata
      exact cut_not_fields hfs hps hrest hdata
    · obtain ⟨gs, hdata, hgs, _⟩ := hfields (Bool.eq_false_iff.mpr hpaired)
      exact cut_not_fields hfs hgs hrest hdata
  | unpaired hfs hpaired hodd =>
    obtain ⟨ps, hdata, hps, _⟩ := hpairs hpaired
    rw [encodePairs_eq] at hdata
    have heven := pairs_length ps
    rw [← encodeFields_injective hfs hps hdata] at heven
    omega
  | @pair ps p hps hpaired hp hformed =>
    obtain ⟨qs, hdata, hqs, hall⟩ := hpairs hpaired
    rw [encodePairs_eq, encodePairs_eq] at hdata
    have hsame : ps = qs := by
      rw [← pairs_flatMap ps, encodeFields_injective hps hqs hdata, pairs_flatMap]
    rw [hsame] at hp
    exact hformed (hall p hp)
  | @field fs f hfs hpaired hf hformed =>
    obtain ⟨gs, hdata, hgs, hall⟩ := hfields hpaired
    rw [encodeFields_injective hfs hgs hdata] at hf
    exact hformed (hall f hf)

end flaws

end OathListing
