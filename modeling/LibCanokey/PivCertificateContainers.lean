import LibCanokey.PivObjects
import LibCanokey.ProtocolTlvSequences

/-! # Certificate containers

A container is a strict sequence of at most three fields in any order. A compressed payload is
taken chunk by chunk, and what has been taken stays within the limit whatever the chunks are. -/
namespace PivCertificateContainers

open BigEndian ListTraversal ProtocolError ProtocolTlv ProtocolTlvRoundTrip ProtocolTlvFields
open ProtocolTlvSequences PivObjects

/-- The fields of a container: one nonempty certificate, at most one information byte that is 00
or 01, at most one empty checksum and nothing else. -/
structure Container (fields : List (Tag × Bytes)) (payload : Bytes) (compressed : Bool) :
    Prop where
  certificate : valuesOf 0x70 fields = [payload]
  nonempty : payload ≠ []
  info : valuesOf 0x71 fields = [] ∧ compressed = false ∨
    valuesOf 0x71 fields = [[0]] ∧ compressed = false ∨
    valuesOf 0x71 fields = [[1]] ∧ compressed = true
  lrc : valuesOf 0xfe fields = [] ∨ valuesOf 0xfe fields = [[]]
  only : ∀ f ∈ fields, f.1.value = 0x70 ∨ f.1.value = 0x71 ∨ f.1.value = 0xfe

/-- The decoder ends without an error, leaves nothing unread, and its output is not empty and
within the limit. -/
structure Expands (read : GzipRead) (maxBytes : ℕ) (der : Bytes) : Prop where
  ends : read.unread = some []
  output : der = (read.chunks.map (·.1)).flatten
  nonempty : der ≠ []
  bounded : der.length ≤ maxBytes

/-- The chunks still to come and the output so far, at some turn of the loop. -/
inductive Reaches (maxBytes : ℕ) (chunks : List Chunk) : List Chunk → Bytes → Prop where
  | start : Reaches maxBytes chunks chunks []
  | next {chunk : Chunk} {rest : List Chunk} {output : Bytes}
      (h : Reaches maxBytes chunks (chunk :: rest) output)
      (hfit : ¬ chunk.1.length > maxBytes - output.length) :
      Reaches maxBytes chunks rest (output ++ chunk.1)

/-! ## The loop of the decoder -/

section inflate

variable {maxBytes : ℕ} {chunks rest : List Chunk} {output der : Bytes} {read : GzipRead}

/-- Every turn keeps the bound, and the loop goes on from there. -/
theorem Reaches.bounded (h : Reaches maxBytes chunks rest output) :
    output.length ≤ maxBytes ∧
      inflate maxBytes chunks [] = inflate maxBytes rest output := by
  induction h with
  | start => exact ⟨Nat.zero_le _, rfl⟩
  | @next chunk rest output h hfit ih =>
    obtain ⟨hlen, hloop⟩ := ih
    refine ⟨?_, ?_⟩
    · rw [List.length_append]
      omega
    · rw [hloop, inflate, if_neg hfit]

theorem inflate_of_fit (h : output.length + ((chunks.map (·.1)).flatten).length ≤ maxBytes) :
    inflate maxBytes chunks output = .ok (output ++ (chunks.map (·.1)).flatten) := by
  induction chunks generalizing output with
  | nil => rw [inflate, List.map_nil, List.flatten_nil, List.append_nil]
  | cons chunk chunks ih =>
    rw [List.map_cons, List.flatten_cons, List.length_append] at h
    rw [inflate, if_neg (by omega), ih (by rw [List.length_append]; omega), List.map_cons,
      List.flatten_cons, List.append_assoc]

theorem inflate_iff : inflate maxBytes chunks [] = .ok der ↔
    der = (chunks.map (·.1)).flatten ∧ der.length ≤ maxBytes := by
  constructor
  · intro h
    obtain ⟨hbounded, houtput⟩ := inflate_length (Nat.zero_le _) h
    exact ⟨houtput, hbounded⟩
  · rintro ⟨rfl, hbounded⟩
    exact inflate_of_fit (by simpa using hbounded)

theorem decompress_iff {gunzip : Gunzip} {bytes : Bytes} :
    decompress gunzip bytes maxBytes = .ok der ↔ Expands (gunzip bytes) maxBytes der := by
  constructor
  · intro h
    obtain ⟨output, houtput, h⟩ := bind_eq_ok.mp h
    obtain ⟨hall, hbounded⟩ := inflate_iff.mp houtput
    cases hunread : (gunzip bytes).unread with
    | none =>
      rw [hunread] at h
      cases h
    | some unread =>
      rw [hunread] at h
      dsimp only at h
      by_cases hbad : unread ≠ [] ∨ output = []
      · rw [if_pos hbad] at h
        cases h
      · rw [if_neg hbad] at h
        cases h
        simp only [not_or, not_not] at hbad
        exact ⟨by rw [hunread, hbad.1], hall, hbad.2, hbounded⟩
  · rintro ⟨hends, houtput, hnonempty, hbounded⟩
    refine bind_eq_ok.mpr ⟨der, inflate_iff.mpr ⟨houtput, hbounded⟩, ?_⟩
    rw [hends]
    dsimp only
    exact if_neg (by simpa using hnonempty)

end inflate

/-! ## The fields -/

section fields

variable {c c' : CertificateFields} {fields : List (Tag × Bytes)} {reader : TlvReader}
  {f : Tag × Bytes}

/-- The values that a scan of a container has kept. -/
def slots (c : CertificateFields) (tag : ℕ) : Option Bytes :=
  if tag = 0x70 then c.certificate
  else if tag = 0x71 then c.info.map ([·])
  else if tag = 0xfe then if c.lrc then some [] else none
  else none

def known (tag : ℕ) : Bool := tag == 0x70 || tag == 0x71 || tag == 0xfe

def step (reader : TlvReader) (c : CertificateFields) (f : Tag × Bytes) :
    Except Error CertificateFields :=
  c.take (asTlv reader f)

/-- The lengths of the three fields. -/
def Legal (f : Tag × Bytes) : Prop :=
  f.1.value = 0x70 ∨ f.1.value = 0x71 ∧ f.2.length = 1 ∨ f.1.value = 0xfe ∧ f.2 = []

theorem step_eq_ok : step reader c f = .ok c' ↔
    (f.1.value = 0x70 ∧ c.certificate = none ∧ c' = { c with certificate := some f.2 }) ∨
    (f.1.value = 0x71 ∧ c.info = none ∧ f.2.length = 1 ∧
      c' = { c with info := some (f.2.getD 0 0) }) ∨
    (f.1.value = 0xfe ∧ c.lrc = false ∧ f.2 = [] ∧ c' = { c with lrc := true }) := by
  rw [step, CertificateFields.take, asTlv]
  dsimp only
  simp only [Option.isNone_iff_eq_none, Bool.not_eq_true]
  constructor
  · intro h
    by_cases h70 : f.1.value = 0x70 ∧ c.certificate = none
    · rw [if_pos h70] at h
      exact Or.inl ⟨h70.1, h70.2, (Except.ok.inj h).symm⟩
    rw [if_neg h70] at h
    by_cases h71 : f.1.value = 0x71 ∧ c.info = none ∧ f.2.length = 1
    · rw [if_pos h71] at h
      exact Or.inr (Or.inl ⟨h71.1, h71.2.1, h71.2.2, (Except.ok.inj h).symm⟩)
    rw [if_neg h71] at h
    by_cases hfe : f.1.value = 0xfe ∧ c.lrc = false ∧ f.2 = []
    · rw [if_pos hfe] at h
      exact Or.inr (Or.inr ⟨hfe.1, hfe.2.1, hfe.2.2, (Except.ok.inj h).symm⟩)
    rw [if_neg hfe] at h
    cases h
  · rintro (⟨htag, hnone, rfl⟩ | ⟨htag, hnone, hlen, rfl⟩ | ⟨htag, hlrc, hvalue, rfl⟩)
    · rw [if_pos ⟨htag, hnone⟩]
    · rw [if_neg (by omega), if_pos ⟨htag, hnone, hlen⟩]
    · rw [if_neg (by omega), if_neg (by omega), if_pos ⟨htag, hlrc, hvalue⟩]

theorem slots_certificate (c : CertificateFields) : slots c 0x70 = c.certificate := rfl

theorem slots_info (c : CertificateFields) : slots c 0x71 = c.info.map ([·]) := rfl

theorem slots_lrc (c : CertificateFields) : slots c 0xfe = if c.lrc then some [] else none := rfl

/-- Only the slot of the field changes. -/
theorem slots_step (h : step reader c f = .ok c') :
    slots c' = Function.update (slots c) f.1.value (some f.2) := by
  funext tag
  rcases step_eq_ok.mp h with ⟨htag, -, rfl⟩ | ⟨htag, -, hlen, rfl⟩ | ⟨htag, -, hvalue, rfl⟩
  · rw [htag]
    by_cases hown : tag = 0x70
    · subst hown
      rw [Function.update_self, slots_certificate]
    · rw [Function.update_of_ne hown, slots, slots, if_neg hown, if_neg hown]
  · rw [htag]
    by_cases hown : tag = 0x71
    · subst hown
      obtain ⟨b, hb⟩ := List.length_eq_one_iff.mp hlen
      rw [Function.update_self, slots_info, hb]
      rfl
    · rw [Function.update_of_ne hown, slots, slots, if_neg hown, if_neg hown]
  · rw [htag]
    by_cases hown : tag = 0xfe
    · subst hown
      rw [Function.update_self, slots_lrc, hvalue]
      rfl
    · rw [Function.update_of_ne hown, slots, slots, if_neg hown, if_neg hown]

theorem collects (reader : TlvReader) :
    Collects (step reader) (fun _ => True) slots (fun _ => []) known Legal := by
  constructor
  · intro c f _
    constructor
    · rintro ⟨c', h⟩
      rcases step_eq_ok.mp h with
        ⟨htag, hnone, -⟩ | ⟨htag, hnone, hlen, -⟩ | ⟨htag, hlrc, hvalue, -⟩
      · refine ⟨Or.inl htag, fun _ => ?_⟩
        rw [htag, slots_certificate, hnone]
      · refine ⟨Or.inr (Or.inl ⟨htag, hlen⟩), fun _ => ?_⟩
        rw [htag, slots_info, hnone]
        rfl
      · refine ⟨Or.inr (Or.inr ⟨htag, hvalue⟩), fun _ => ?_⟩
        rw [htag, slots_lrc, hlrc]
        rfl
    · rintro ⟨htag | ⟨htag, hlen⟩ | ⟨htag, hvalue⟩, hfree⟩
      · have hnone := hfree (by rw [htag]; rfl)
        rw [htag, slots_certificate] at hnone
        exact ⟨_, step_eq_ok.mpr (Or.inl ⟨htag, hnone, rfl⟩)⟩
      · have hnone := hfree (by rw [htag]; rfl)
        rw [htag, slots_info, Option.map_eq_none_iff] at hnone
        exact ⟨_, step_eq_ok.mpr (Or.inr (Or.inl ⟨htag, hnone, hlen, rfl⟩))⟩
      · have hnone := hfree (by rw [htag]; rfl)
        rw [htag, slots_lrc] at hnone
        have hlrc : c.lrc = false := by
          cases hset : c.lrc with
          | false => rfl
          | true =>
            rw [hset] at hnone
            cases hnone
        exact ⟨_, step_eq_ok.mpr (Or.inr (Or.inr ⟨htag, hlrc, hvalue, rfl⟩))⟩
  · intro c f c' _ _
    trivial
  · intro c f c' _ h _
    exact ⟨slots_step h, rfl⟩
  · intro c f c' _ h hknown
    rcases step_eq_ok.mp h with ⟨htag, -⟩ | ⟨htag, -⟩ | ⟨htag, -⟩
    all_goals
      rw [htag] at hknown
      cases hknown

/-- The scan of a container, by the values under each tag. -/
theorem scan_iff : (∃ c, fields.foldlM (step reader) {} = .ok c) ↔
    (∀ f ∈ fields, Legal f) ∧ ∀ tag, known tag = true → (valuesOf tag fields).length ≤ 1 :=
  (collects reader).iff_of_empty trivial (by funext tag; simp [slots])

theorem scan_slots (h : fields.foldlM (step reader) {} = .ok c) (tag : ℕ)
    (htag : known tag = true) : (slots c tag).toList = valuesOf tag fields := by
  obtain ⟨-, -, hslots, -⟩ := (collects reader).fold trivial h
  have hempty : slots {} tag = none := by simp [slots]
  rw [hslots tag htag, hempty]
  rfl

end fields

/-! ## Whole containers -/

section container

variable {c : CertificateFields} {fields : List (Tag × Bytes)} {reader : TlvReader}
  {payload der data : Bytes} {compressed : Bool} {gunzip : Gunzip} {maxBytes : ℕ}
  {cert : Certificate}

theorem payload_eq_ok : c.payload = .ok payload ↔ c.certificate = some payload ∧ payload ≠ [] := by
  rw [CertificateFields.payload]
  cases c.certificate with
  | none => simp
  | some bytes =>
    dsimp only
    by_cases hnil : bytes = []
    · rw [if_pos hnil]
      simp [hnil]
    · rw [if_neg hnil]
      constructor
      · intro h
        cases h
        exact ⟨rfl, hnil⟩
      · rintro ⟨h, -⟩
        cases h
        rfl

theorem isCompressed_eq_ok : c.isCompressed = .ok compressed ↔
    c.info = none ∧ compressed = false ∨ c.info = some 0 ∧ compressed = false ∨
      c.info = some 1 ∧ compressed = true := by
  rw [CertificateFields.isCompressed]
  cases c.info with
  | none => simp [eq_comm]
  | some b =>
    rw [Option.getD_some]
    by_cases hzero : b = 0
    · rw [if_pos hzero]
      simp [hzero, eq_comm]
    · rw [if_neg hzero]
      by_cases hone : b = 1
      · rw [if_pos hone]
        simp [hone, eq_comm]
      · rw [if_neg hone]
        simp [hzero, hone]

/-- What the scan of a container keeps and passes on. -/
theorem container_of_scan (h : fields.foldlM (step reader) {} = .ok c)
    (hpayload : c.payload = .ok payload) (hcompressed : c.isCompressed = .ok compressed) :
    Container fields payload compressed := by
  obtain ⟨hlegal, -⟩ := scan_iff.mp ⟨c, h⟩
  obtain ⟨hcertificate, hnonempty⟩ := payload_eq_ok.mp hpayload
  have h70 := scan_slots h 0x70 rfl
  have h71 := scan_slots h 0x71 rfl
  have hfe := scan_slots h 0xfe rfl
  rw [slots_certificate, hcertificate] at h70
  rw [slots_info] at h71
  rw [slots_lrc] at hfe
  refine ⟨h70.symm, hnonempty, ?_, ?_, ?_⟩
  · rw [← h71]
    rcases isCompressed_eq_ok.mp hcompressed with ⟨hinfo, hc⟩ | ⟨hinfo, hc⟩ | ⟨hinfo, hc⟩
    · exact Or.inl ⟨by rw [hinfo]; rfl, hc⟩
    · exact Or.inr (Or.inl ⟨by rw [hinfo]; rfl, hc⟩)
    · exact Or.inr (Or.inr ⟨by rw [hinfo]; rfl, hc⟩)
  · rw [← hfe]
    cases c.lrc with
    | false => exact Or.inl rfl
    | true => exact Or.inr rfl
  · intro f hf
    rcases hlegal f hf with htag | ⟨htag, -⟩ | ⟨htag, -⟩
    · exact Or.inl htag
    · exact Or.inr (Or.inl htag)
    · exact Or.inr (Or.inr htag)

theorem Container.legal (h : Container fields payload compressed) : ∀ f ∈ fields, Legal f := by
  intro f hf
  have hvalue {tag : ℕ} (htag : f.1.value = tag) : f.2 ∈ valuesOf tag fields :=
    mem_valuesOf.mpr ⟨f, hf, htag, rfl⟩
  rcases h.only f hf with htag | htag | htag
  · exact Or.inl htag
  · refine Or.inr (Or.inl ⟨htag, ?_⟩)
    have hmem := hvalue htag
    rcases h.info with ⟨hnone, -⟩ | ⟨hzero, -⟩ | ⟨hone, -⟩
    · rw [hnone] at hmem
      cases hmem
    · rw [hzero] at hmem
      rw [List.mem_singleton.mp hmem]
      rfl
    · rw [hone] at hmem
      rw [List.mem_singleton.mp hmem]
      rfl
  · refine Or.inr (Or.inr ⟨htag, ?_⟩)
    have hmem := hvalue htag
    rcases h.lrc with hnone | hempty
    · rw [hnone] at hmem
      cases hmem
    · rw [hempty] at hmem
      exact List.mem_singleton.mp hmem

theorem Container.once (h : Container fields payload compressed) {tag : ℕ}
    (htag : known tag = true) : (valuesOf tag fields).length ≤ 1 := by
  have hcases : tag = 0x70 ∨ tag = 0x71 ∨ tag = 0xfe := by
    simpa [known, or_assoc] using htag
  rcases hcases with rfl | rfl | rfl
  · rw [h.certificate]
    exact Nat.le_refl _
  · rcases h.info with ⟨hinfo, -⟩ | ⟨hinfo, -⟩ | ⟨hinfo, -⟩
    all_goals
      rw [hinfo]
      decide
  · rcases h.lrc with hlrc | hlrc
    all_goals
      rw [hlrc]
      decide

/-- A container is scanned to its payload and its kind. -/
theorem Container.scanned (h : Container fields payload compressed) :
    ∃ c, fields.foldlM (step reader) {} = .ok c ∧ c.payload = .ok payload ∧
      c.isCompressed = .ok compressed := by
  obtain ⟨c, hscan⟩ := (@scan_iff fields reader).mpr ⟨h.legal, fun _ htag => h.once htag⟩
  have h70 := scan_slots hscan 0x70 rfl
  have h71 := scan_slots hscan 0x71 rfl
  rw [slots_certificate, h.certificate] at h70
  rw [slots_info] at h71
  have hcertificate : c.certificate = some payload := by
    cases hc : c.certificate with
    | none =>
      rw [hc] at h70
      cases h70
    | some bytes =>
      rw [hc] at h70
      rw [(List.cons.inj h70).1]
  have hinfo {b : UInt8} (hb : valuesOf 0x71 fields = [[b]]) : c.info = some b := by
    rw [hb] at h71
    cases hc : c.info with
    | none =>
      rw [hc] at h71
      cases h71
    | some found =>
      rw [hc] at h71
      exact congrArg some (List.cons.inj (List.cons.inj h71).1).1
  refine ⟨c, hscan, payload_eq_ok.mpr ⟨hcertificate, h.nonempty⟩, isCompressed_eq_ok.mpr ?_⟩
  rcases h.info with ⟨hnone, hc⟩ | ⟨hzero, hc⟩ | ⟨hone, hc⟩
  · rw [hnone, Option.toList_eq_nil_iff, Option.map_eq_none_iff] at h71
    exact Or.inl ⟨h71, hc⟩
  · exact Or.inr (Or.inl ⟨hinfo hzero, hc⟩)
  · exact Or.inr (Or.inr ⟨hinfo hone, hc⟩)

/-- What the payload becomes. -/
def Unpacks (gunzip : Gunzip) (maxBytes : ℕ) (payload : Bytes) (cert : Certificate) : Prop :=
  if cert.compressed then Expands (gunzip payload) maxBytes cert.der else cert.der = payload

theorem unpack_eq_ok : unpack gunzip payload cert.compressed maxBytes = .ok cert.der ↔
    Unpacks gunzip maxBytes payload cert := by
  rw [unpack, Unpacks]
  cases cert.compressed with
  | false =>
    constructor
    · intro h
      exact (Except.ok.inj h).symm
    · intro h
      exact congrArg Except.ok h.symm
  | true => exact decompress_iff

/-- A certificate is read exactly from a container within the limit. -/
theorem fromObject_iff : Certificate.fromObject gunzip data maxBytes = .ok cert ↔
    data.length ≤ maxBytes ∧ ∃ fields payload,
      StrictSequence { maxValueBytes := maxBytes } fields data ∧
      Container fields payload cert.compressed ∧ Unpacks gunzip maxBytes payload cert := by
  rw [Certificate.fromObject]
  constructor
  · intro h
    by_cases hlimit : data.length > maxBytes
    · rw [if_pos hlimit] at h
      cases h
    rw [if_neg hlimit] at h
    obtain ⟨c, hread, h⟩ := bind_eq_ok.mp h
    obtain ⟨payload, hpayload, h⟩ := bind_eq_ok.mp h
    obtain ⟨compressed, hcompressed, h⟩ := bind_eq_ok.mp h
    obtain ⟨der, hder, h⟩ := bind_eq_ok.mp h
    obtain rfl := Except.ok.inj h
    obtain ⟨fields, hfields, hscan⟩ := (readFields_strict rfl (show 1 ≤ 16 by decide)).mp hread
    exact ⟨Nat.le_of_not_lt hlimit, fields, payload, hfields,
      container_of_scan hscan hpayload hcompressed, unpack_eq_ok.mp hder⟩
  · rintro ⟨hlimit, fields, payload, hfields, hcontainer, hunpacks⟩
    obtain ⟨c, hscan, hpayload, hcompressed⟩ := hcontainer.scanned
    rw [if_neg (Nat.not_lt_of_le hlimit)]
    refine bind_eq_ok.mpr ⟨c, (readFields_strict rfl (show 1 ≤ 16 by decide)).mpr
      ⟨fields, hfields, hscan⟩, ?_⟩
    refine bind_eq_ok.mpr ⟨payload, hpayload, ?_⟩
    refine bind_eq_ok.mpr ⟨cert.compressed, hcompressed, ?_⟩
    exact bind_eq_ok.mpr ⟨cert.der, unpack_eq_ok.mpr hunpacks, rfl⟩

end container

/-- A certificate is read exactly from a container within the limit, to its payload or what the
decoder makes of it; at no turn of the decoder's loop is the output beyond the limit. -/
theorem from_object_exact (gunzip : Gunzip) (data : Bytes) (maxBytes : ℕ) :
    (∀ cert, Certificate.fromObject gunzip data maxBytes = .ok cert ↔
      data.length ≤ maxBytes ∧ ∃ fields payload,
        StrictSequence { maxValueBytes := maxBytes } fields data ∧
        Container fields payload cert.compressed ∧ Unpacks gunzip maxBytes payload cert) ∧
    (∀ payload rest output, Reaches maxBytes (gunzip payload).chunks rest output →
      output.length ≤ maxBytes ∧
        inflate maxBytes (gunzip payload).chunks [] = inflate maxBytes rest output) := by
  refine ⟨?_, ?_⟩
  · intro cert
    exact fromObject_iff
  · intro payload rest output h
    exact h.bounded

/-- A decoder that gives the bytes 5 and 6 in two chunks. -/
def twoChunks : Gunzip := fun _ => ⟨[⟨[5], by decide⟩, ⟨[6], by decide⟩], some []⟩

/-- A compressed payload behind its information byte. -/
theorem from_object_exact_compressed :
    Certificate.fromObject twoChunks [0x71, 1, 1, 0x70, 1, 9] 6 = .ok ⟨[5, 6], true⟩ ∧
      ([5] : Bytes).length ≤ 6 := by
  obtain ⟨hexact, hbounded⟩ := from_object_exact twoChunks [0x71, 1, 1, 0x70, 1, 9] 6
  have hinfo : ShortTag 0x71 := by decide
  have hcertificate : ShortTag 0x70 := by decide
  have hfield {b v : UInt8} (h : ShortTag b) : encodeField (shortTag b h, [v]) = [b, 1, v] := by
    rw [encodeField, shortTag_toBytes]
    rfl
  have hadmitted {b v : UInt8} (h : ShortTag b) :
      Admitted { maxValueBytes := 6 } (shortTag b h, [v]) := by
    refine ⟨show 1 < 2 ^ 32 by decide, ?_, show 1 ≤ 6 by decide⟩
    rw [hfield]
    exact show 3 ≤ CheckedCursor.usizeMax by decide
  refine ⟨(hexact _).mpr ⟨by decide,
    [(shortTag 0x71 hinfo, [1]), (shortTag 0x70 hcertificate, [9])], [9], ⟨?_, ?_⟩,
    ⟨rfl, by decide, Or.inr (Or.inr ⟨rfl, rfl⟩), Or.inl rfl, ?_⟩, ?_⟩, ?_⟩
  · rw [List.flatMap_cons, List.flatMap_cons, hfield, hfield]
    rfl
  · intro f hf
    rcases List.mem_pair.mp hf with rfl | rfl
    · exact hadmitted hinfo
    · exact hadmitted hcertificate
  · intro f hf
    rcases List.mem_pair.mp hf with rfl | rfl
    · exact Or.inr (Or.inl rfl)
    · exact Or.inl rfl
  · exact ⟨rfl, rfl, by decide, by decide⟩
  · exact (hbounded [9] [⟨[6], by decide⟩] [5] (.next .start (by decide))).1

end PivCertificateContainers
