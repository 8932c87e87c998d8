import LibCanokey.ProtocolApdu

/-! # An independent ISO 7816-4 command decoder

The seven case layouts of ISO 7816-4 are told apart from the bytes after the header
alone. The decoder never looks at a `CommandApdu`; it is what a card would do. -/
namespace ProtocolApduDecoder

open BigEndian ProtocolError ProtocolApdu

inductive ApduCase where
  | case1
  | case2S
  | case3S
  | case4S
  | case2E
  | case3E
  | case4E
  deriving DecidableEq, Repr

structure DecodedCommand where
  header : ApduHeader
  data : Bytes
  le : ExpectedLength
  deriving DecidableEq, Repr

def extendedCaseOf (lc : ℕ) (rest : Bytes) : Option ApduCase :=
  if lc = 0 then none
  else if rest.length = lc then some .case3E
  else if rest.length = lc + 2 then some .case4E
  else none

/-- A leading zero announces the extended forms unless it is the whole body. -/
def caseOf : Bytes → Option ApduCase
  | [] => some .case1
  | [_] => some .case2S
  | lc :: rest =>
    if lc ≠ 0 then
      if rest.length = lc.toNat then some .case3S
      else if rest.length = lc.toNat + 1 then some .case4S
      else none
    else match rest with
      | [_, _] => some .case2E
      | hi :: lo :: rest => extendedCaseOf (ofBeBytes [hi, lo]) rest
      | _ => none

/-- A zero Le field stands for the maximum of its width. -/
def leOf (most : ℕ) (field : Bytes) : ExpectedLength :=
  .exact (if ofBeBytes field = 0 then most else ofBeBytes field)

def fieldsOf (body : Bytes) : ApduCase → Bytes × ExpectedLength
  | .case1 => ([], .absent)
  | .case2S => ([], leOf 256 body)
  | .case3S => (body.drop 1, .absent)
  | .case4S => ((body.drop 1).take (body.length - 2), leOf 256 (body.drop (body.length - 1)))
  | .case2E => ([], leOf 65536 (body.drop 1))
  | .case3E => (body.drop 3, .absent)
  | .case4E => ((body.drop 3).take (body.length - 5), leOf 65536 (body.drop (body.length - 2)))

def decode : Bytes → Option DecodedCommand
  | cla :: ins :: p1 :: p2 :: body =>
    (caseOf body).map fun c => ⟨⟨cla, ins, p1, p2⟩, (fieldsOf body c).1, (fieldsOf body c).2⟩
  | _ => none

/-- The layout each kind of command takes. -/
def layout (data : Bytes) (le : ExpectedLength) (encoding : ApduEncoding) : ApduCase :=
  match data, le, encoding with
  | [], .absent, _ => .case1
  | [], .exact _, .short => .case2S
  | [], .exact _, .extended => .case2E
  | _ :: _, .absent, .short => .case3S
  | _ :: _, .absent, .extended => .case3E
  | _ :: _, .exact _, .short => .case4S
  | _ :: _, .exact _, .extended => .case4E

def bodyOf (data : Bytes) (le : ExpectedLength) (encoding : ApduEncoding) : Bytes :=
  lcField data le encoding ++ data ++ leField le encoding

theorem decode_build (h : ApduHeader) (data : Bytes) (le : ExpectedLength)
    (e : ApduEncoding) :
    decode (CommandApdu.build h data le e).bytes =
      (caseOf (bodyOf data le e)).map fun c =>
        ⟨h, (fieldsOf (bodyOf data le e) c).1, (fieldsOf (bodyOf data le e) c).2⟩ := by
  simp [CommandApdu.build, ApduHeader.toBytes, decode, bodyOf, List.append_assoc]

theorem leOf_short {n : ℕ} (h0 : n ≠ 0) (h : n ≤ 256) :
    leOf 256 [UInt8.ofNat n] = .exact n := by
  simp only [leOf]
  rw [ofBeBytes_cons, toNat_ofNat_mod]
  rcases Nat.lt_or_eq_of_le h with hlt | rfl
  · simp [Nat.mod_eq_of_lt hlt, h0]
  · simp

theorem leOf_extended {n : ℕ} (h0 : n ≠ 0) (h : n ≤ 65536) :
    leOf 65536 (toBeBytes 2 n) = .exact n := by
  simp only [leOf]
  rw [ofBeBytes_toBeBytes_mod]
  rcases Nat.lt_or_eq_of_le h with hlt | rfl
  · simp [Nat.mod_eq_of_lt hlt, h0]
  · simp

theorem lc_ne_zero {n : ℕ} (h0 : 0 < n) (h : n < 256) : UInt8.ofNat n ≠ 0 := by
  intro hz
  have := congrArg UInt8.toNat hz
  rw [toNat_ofNat_of_lt h] at this
  simp at this
  omega

theorem caseOf_short {lc : Byte} {b : Byte} {rest : Bytes} (h : lc ≠ 0) :
    caseOf (lc :: b :: rest) =
      if (b :: rest).length = lc.toNat then some .case3S
      else if (b :: rest).length = lc.toNat + 1 then some .case4S else none := by
  simp only [caseOf, ne_eq, h, not_false_eq_true, if_true]

theorem caseOf_extended {hi lo b : Byte} {rest : Bytes} :
    caseOf (0 :: hi :: lo :: b :: rest) = extendedCaseOf (ofBeBytes [hi, lo]) (b :: rest) := by
  simp [caseOf]

theorem caseOf_bodyOf {data : Bytes} {le : ExpectedLength} {e : ApduEncoding}
    (hd : data.length < e.max) : caseOf (bodyOf data le e) = some (layout data le e) := by
  cases data with
  | nil =>
    cases le <;> cases e <;> simp [bodyOf, lcField, leField, caseOf, layout, toBeBytes]
  | cons b rest =>
    cases e with
    | short =>
      have hlt : rest.length + 1 < 256 := by simpa [ApduEncoding.max] using hd
      have hn := lc_ne_zero (Nat.succ_pos _) hlt
      have hv := toNat_ofNat_of_lt hlt
      cases le with
      | absent =>
        simp only [bodyOf, lcField, leField, ne_eq, reduceCtorEq, not_false_eq_true, if_true,
          List.length_cons, List.cons_append, List.nil_append, List.append_nil]
        rw [caseOf_short hn, hv]
        simp [layout]
      | exact n =>
        simp only [bodyOf, lcField, leField, ne_eq, reduceCtorEq, not_false_eq_true, if_true,
          List.length_cons, List.cons_append, List.nil_append]
        rw [caseOf_short hn, hv]
        simp [layout]
    | extended =>
      have hlt : rest.length + 1 < 65536 := by simpa [ApduEncoding.max] using hd
      have hv : ofBeBytes (toBeBytes 2 (rest.length + 1)) = rest.length + 1 :=
        ofBeBytes_toBeBytes (by simpa using hlt)
      simp only [toBeBytes] at hv
      cases le with
      | absent =>
        simp only [bodyOf, lcField, leField, ne_eq, reduceCtorEq, not_false_eq_true, if_true,
          List.length_cons, List.cons_append, List.nil_append, List.append_nil, toBeBytes]
        rw [caseOf_extended, hv]
        simp [extendedCaseOf, layout]
      | exact n =>
        simp only [bodyOf, lcField, leField, ne_eq, reduceCtorEq, not_false_eq_true, if_true,
          List.length_cons, List.cons_append, List.nil_append, toBeBytes]
        rw [caseOf_extended, hv]
        simp [extendedCaseOf, layout]

theorem fieldsOf_bodyOf {data : Bytes} {le : ExpectedLength} {e : ApduEncoding}
    (hl : le.InRange e.max) : fieldsOf (bodyOf data le e) (layout data le e) = (data, le) := by
  cases le with
  | absent =>
    cases data <;> cases e <;> simp [bodyOf, lcField, leField, fieldsOf, layout, toBeBytes]
  | exact n =>
    obtain ⟨h0, hm⟩ := hl
    cases e with
    | short =>
      have hn := leOf_short h0 hm
      cases data <;> simp [bodyOf, lcField, leField, fieldsOf, layout, hn]
    | extended =>
      have hn := leOf_extended h0 hm
      cases data with
      | nil => simpa [bodyOf, lcField, leField, fieldsOf, layout] using hn
      | cons b rest =>
        have hl : (toBeBytes 2 n).length = 2 := length_toBeBytes 2 n
        simp [bodyOf, lcField, leField, fieldsOf, layout, toBeBytes] at hn ⊢
        exact hn

/-- Every accepted encoding decodes to exactly what was encoded. -/
theorem decode_of_encode {h : ApduHeader} {data : Bytes} {le : ExpectedLength}
    {e : ApduEncoding} {c : CommandApdu} (he : CommandApdu.encode h data le e = .ok c) :
    decode c.bytes = some ⟨h, data, le⟩ := by
  obtain ⟨hd, hl, rfl⟩ := encode_eq_ok.mp he
  rw [decode_build, caseOf_bodyOf hd, Option.map_some, fieldsOf_bodyOf hl]

theorem decode_of_corrected {h : ApduHeader} {data : Bytes} {le : ExpectedLength}
    {e : ApduEncoding} {c c' : CommandApdu} {n : ℕ}
    (he : CommandApdu.encode h data le e = .ok c) (hc : c.corrected n = .ok c') :
    decode c'.bytes = some ⟨h, data, .exact n⟩ := by
  obtain ⟨_, _, rfl⟩ := encode_eq_ok.mp he
  rw [corrected_build] at hc
  exact decode_of_encode hc

/-- One decoder, told nothing but the bytes, inverts the encoding and the 6Cxx correction. -/
theorem encode_uniquely_decodable :
    (∀ header data le encoding c, CommandApdu.encode header data le encoding = .ok c →
      decode c.bytes = some ⟨header, data, le⟩) ∧
    (∀ header data le encoding c n c', CommandApdu.encode header data le encoding = .ok c →
      c.corrected n = .ok c' → decode c'.bytes = some ⟨header, data, .exact n⟩) :=
  ⟨fun _ _ _ _ _ he => decode_of_encode he, fun _ _ _ _ _ _ _ he hc => decode_of_corrected he hc⟩

/-- The maximum short Le as 00, corrected to 0x20; the maximum extended Le as 0000. -/
theorem encode_uniquely_decodable_maximum :
    decode [0, 0xca, 1, 2, 3, 7, 8, 9, 0] = some ⟨⟨0, 0xca, 1, 2⟩, [7, 8, 9], .exact 256⟩ ∧
      decode [0, 0xca, 1, 2, 3, 7, 8, 9, 0x20] = some ⟨⟨0, 0xca, 1, 2⟩, [7, 8, 9], .exact 32⟩ ∧
      decode [0, 0xca, 1, 2, 0, 0, 0] = some ⟨⟨0, 0xca, 1, 2⟩, [], .exact 65536⟩ := by
  obtain ⟨hencode, hcorrect⟩ := encode_uniquely_decodable
  exact ⟨hencode ⟨0, 0xca, 1, 2⟩ [7, 8, 9] (.exact 256) .short _ rfl,
    hcorrect ⟨0, 0xca, 1, 2⟩ [7, 8, 9] (.exact 256) .short _ 32 _ rfl rfl,
    hencode ⟨0, 0xca, 1, 2⟩ [] (.exact 65536) .extended _ rfl⟩

end ProtocolApduDecoder
