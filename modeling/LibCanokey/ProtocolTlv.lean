import LibCanokey.CheckedCursor
import LibCanokey.ProtocolError

/-! # Definite-length tag-length-value fields

The reader and the writer of the protocol crate. A reader is a cursor passed along; the
writer is returned on its error path too. -/
namespace ProtocolTlv

open BigEndian CheckedCursor ProtocolError

def malformed : Error := (Error.new .invalidResponse).atPhase .parsing

/-- The continuation loop of `parse_tag`, entered with `n` bytes behind it. -/
def scanTail : Bytes → ℕ → Except Error ℕ
  | [], _ => .error malformed
  | byte :: rest, n =>
    if n + 1 > 4 then .error malformed
    else if byte &&& 128 = 0 then .ok (n + 1)
    else scanTail rest (n + 1)

/-- The number of bytes `parse_tag` takes for the tag. -/
def scanTag : Bytes → Except Error ℕ
  | [] => .error malformed
  | first :: rest =>
    if first = 0 ∨ first = 0xff then .error malformed
    else if first &&& 31 = 31 then
      if rest.head?.all (fun v => v &&& 127 = 0) then .error malformed
      else scanTail rest 1
    else .ok 1

/-- A checked tag: its packed wire bytes, which only a scan of the wire can supply. -/
structure Tag where
  value : ℕ
  len : ℕ
  wire : ∃ bytes, scanTag bytes = .ok len ∧ ofBeBytes (bytes.take len) = value
  deriving DecidableEq

def parseTag (bytes : Bytes) : Except Error (Tag × ℕ) :=
  match h : scanTag bytes with
  | .error e => .error e
  | .ok n => .ok (⟨ofBeBytes (bytes.take n), n, bytes, h, rfl⟩, n)

def Tag.fromBytes (bytes : Bytes) : Except Error Tag :=
  match parseTag bytes with
  | .error e => .error e
  | .ok (tag, len) => if len ≠ bytes.length then .error malformed else .ok tag

def Tag.toBytes (tag : Tag) : Bytes := (toBeBytes 4 tag.value).drop (4 - tag.len)

structure TlvLimits where
  maxValueBytes : ℕ := 1024 * 1024
  maxDepth : ℕ := 16
  deriving DecidableEq, Repr

structure Tlv where
  tag : Tag
  value : Bytes
  depth : ℕ
  limits : TlvLimits
  minimalLengths : Bool

structure TlvReader where
  bytes : Bytes
  depth : ℕ
  limits : TlvLimits
  minimalLengths : Bool

def Tlv.children (field : Tlv) : Except Error TlvReader :=
  if field.depth ≥ field.limits.maxDepth then .error (.new .limitExceeded)
  else .ok
    { bytes := field.value
      depth := field.depth + 1
      limits := field.limits
      minimalLengths := field.minimalLengths }

def TlvReader.new (bytes : Bytes) (limits : TlvLimits) : TlvReader :=
  { bytes := bytes, depth := 1, limits := limits, minimalLengths := true }

def TlvReader.newBer (bytes : Bytes) (limits : TlvLimits) : TlvReader :=
  { TlvReader.new bytes limits with minimalLengths := false }

/-- The length part of `next`: the value's length and the offset it starts at. -/
def TlvReader.length (reader : TlvReader) (offset : ℕ) : Except Error (ℕ × ℕ) :=
  match reader.bytes[offset]? with
  | none => .error malformed
  | some first =>
    if first < 128 then .ok (first.toNat, offset + 1)
    else
      let n := (first &&& 127).toNat
      if n = 0 ∨ n > 4 then .error malformed
      else match slice reader.bytes (offset + 1) (offset + 1 + n) with
        | none => .error malformed
        | some encoded =>
          if reader.minimalLengths ∧ encoded.head? = some 0 then .error malformed
          else match checkedOfBeBytes encoded with
            | none => .error malformed
            | some len =>
              if reader.minimalLengths ∧ len < 128 then .error malformed
              else .ok (len, offset + 1 + n)

def TlvReader.next (reader : TlvReader) : Except Error (Option Tlv × TlvReader) :=
  if reader.bytes = [] then .ok (none, reader)
  else if reader.depth > reader.limits.maxDepth then .error (.new .limitExceeded)
  else match parseTag reader.bytes with
    | .error e => .error e
    | .ok (tag, offset) => match reader.length offset with
      | .error e => .error e
      | .ok (len, offset) =>
        if len > reader.limits.maxValueBytes then .error (.new .limitExceeded)
        else match checkedAdd offset len with
          | none => .error malformed
          | some stop => match slice reader.bytes offset stop with
            | none => .error malformed
            | some value => .ok
              (some
                { tag := tag
                  value := value
                  depth := reader.depth
                  limits := reader.limits
                  minimalLengths := reader.minimalLengths },
                { reader with bytes := reader.bytes.drop stop })

/-- The length bytes `push` writes; a length of 128 or more drops its leading zero bytes. -/
def lengthField (n : ℕ) : Bytes :=
  if n < 128 then [UInt8.ofNat n]
  else
    let bytes := toBeBytes 4 n
    let start := (bytes.findIdx? (· ≠ 0)).getD 3
    (0x80 ||| UInt8.ofNat (4 - start)) :: bytes.drop start

theorem checkedTotal_eq_false {a b c limit : ℕ} :
    ((checkedAdd a b).bind (checkedAdd · c)).all (· > limit) = false ↔
      a + b + c ≤ limit ∧ a + b + c ≤ usizeMax := by
  by_cases hab : a + b ≤ usizeMax
  · rw [checkedAdd_of_le hab, Option.bind_some]
    by_cases hc : a + b + c ≤ usizeMax
    · rw [checkedAdd_of_le hc]
      simp [hc]
    · simp [checkedAdd, hc]
  · have hc : ¬a + b + c ≤ usizeMax := by omega
    simp [checkedAdd, hab, hc]

/-- A writer never holds more than its limit. -/
structure TlvWriter where
  bytes : Bytes
  limit : ℕ
  within : bytes.length ≤ limit

def TlvWriter.new (limit : ℕ) : TlvWriter := ⟨[], limit, Nat.zero_le _⟩

def TlvWriter.push (writer : TlvWriter) (tag : Tag) (value : Bytes) :
    Except Error Unit × TlvWriter :=
  -- `u32::try_from` is only reached for the long form
  if ¬value.length < 128 ∧ value.length ≥ 2 ^ 32 then (.error (.new .limitExceeded), writer)
  else
    let head := tag.toBytes ++ lengthField value.length
    if h : ((checkedAdd writer.bytes.length head.length).bind
        (checkedAdd · value.length)).all (· > writer.limit) = true then
      (.error (.new .limitExceeded), writer)
    else
      (.ok (),
        { bytes := writer.bytes ++ head ++ value
          limit := writer.limit
          within := by
            have hfit := (checkedTotal_eq_false.mp (Bool.eq_false_iff.mpr h)).1
            simpa only [List.length_append] using hfit })

end ProtocolTlv
