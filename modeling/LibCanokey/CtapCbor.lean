import LibCanokey.CheckedCursor
import LibCanokey.KeyedSorting
import LibCanokey.ProtocolError

/-! # Strict canonical CBOR of the CTAP2 client

The parser and the encoder, whose depth counter is carried as the number of levels left,
`MAX_DEPTH + 1 - depth`. The parser's unchecked additions, subtractions and slices are
spelled out with a panic of their own. Allocation is not modelled. -/
namespace CtapCbor

open BigEndian CheckedCursor KeyedSorting ProtocolError

def maxDepth : ℕ := 64

/-- `negative n` is the integer `-1 - n`; a map keeps the order of its entries. -/
inductive Value where
  | unsigned (n : UInt64)
  | negative (n : UInt64)
  | bytes (raw : Bytes)
  | text (s : String)
  | array (items : List Value)
  | map (entries : List (Value × Value))
  | bool (b : Bool)
  | null

def invalid : Error := (Error.new .invalidResponse).atPhase .parsing

def limit : Error := (Error.new .limitExceeded).atPhase .parsing

def limitConstruction : Error := (Error.new .limitExceeded).atPhase .construction

/-! ## Encoding -/

def head (out : Bytes) (major : UInt8) (argument : UInt64) : Bytes :=
  let tag := major <<< 5
  if argument < 24 then out ++ [tag ||| argument.toUInt8]
  else if argument ≤ 0xff then out ++ [tag ||| 24] ++ [argument.toUInt8]
  else if argument ≤ 0xffff then out ++ [tag ||| 25] ++ toBeBytes 2 argument.toNat
  else if argument ≤ 0xffffffff then out ++ [tag ||| 26] ++ toBeBytes 4 argument.toNat
  else out ++ [tag ||| 27] ++ toBeBytes 8 argument.toNat

/-- The order of encoded keys: by length, then bytewise. -/
def keyOrder : Bytes → Bytes → Ordering := shortlex compare

def utf8 (s : String) : Bytes := s.toByteArray.data.toList

def encodeInto : ℕ → Value → Bytes → Except Error Bytes
  | 0, _, _ => .error limitConstruction
  | levels + 1, value, out => match value with
    | .unsigned argument => .ok (head out 0 argument)
    | .negative argument => .ok (head out 1 argument)
    | .bytes raw => .ok (head out 2 (UInt64.ofNat raw.length) ++ raw)
    | .text s => .ok (head out 3 (UInt64.ofNat (utf8 s).length) ++ utf8 s)
    | .array items =>
      items.foldlM (fun out item => encodeInto levels item out)
        (head out 4 (UInt64.ofNat items.length))
    | .map entries => do
      let encoded ← entries.mapM fun entry =>
        (encodeInto levels entry.1 []).map fun keyBytes => (keyBytes, entry.2)
      let sorted := sortBy keyOrder Prod.fst encoded
      sorted.foldlM (fun out entry => encodeInto levels entry.2 (out ++ entry.1))
        (head out 5 (UInt64.ofNat sorted.length))
    | .bool false => .ok (out ++ [0xf4])
    | .bool true => .ok (out ++ [0xf5])
    | .null => .ok (out ++ [0xf6])

def encode (value : Value) : Except Error Bytes := encodeInto maxDepth value []

/-! ## Parsing -/

/-- What stops a parse: an error it returns, or a panic. -/
inductive Halt where
  | refused (e : Error)
  | panicked
  deriving DecidableEq

abbrev Outcome := Except Halt

def refuse {α : Type} (e : Error) : Outcome α := .error (.refused e)

def orRefuse {α : Type} (x : Option α) (e : Error) : Outcome α := x.elim (refuse e) .ok

def orPanic {α : Type} (x : Option α) : Outcome α := x.elim (.error .panicked) .ok

def add (a b : ℕ) : Outcome ℕ := orPanic (checkedAdd a b)

def sub (a b : ℕ) : Outcome ℕ := if b ≤ a then .ok (a - b) else .error .panicked

def readBe (bytes : Bytes) (pos count : ℕ) : Outcome (UInt64 × ℕ) := do
  let stop ← orRefuse (checkedAdd pos count) invalid
  let raw ← orRefuse (slice bytes pos stop) invalid
  pure (raw.foldl shiftIn 0, stop)

/-- The least argument that needs `count` bytes. -/
def minimum (count : ℕ) : ℕ := if count = 1 then 24 else 2 ^ (8 * (count / 2))

def readArgument (bytes : Bytes) (pos : ℕ) (info : UInt8) : Outcome (UInt64 × ℕ) :=
  if info ≤ 23 then do
    let next ← add pos 1
    pure (info.toUInt64, next)
  else if info ≤ 27 then do
    let count := 2 ^ (info.toNat - 24)
    let next ← add pos 1
    let (value, stop) ← readBe bytes next count
    if value.toNat < minimum count then refuse invalid else pure (value, stop)
  else refuse invalid

def take (bytes : Bytes) (pos remaining length : ℕ) : Outcome (Bytes × ℕ) :=
  if length > remaining then refuse invalid
  else do
    let stop ← add pos length
    let raw ← orPanic (slice bytes pos stop)
    pure (raw, stop)

def simpleValue (info : UInt8) : Outcome Value :=
  if info = 20 then pure (.bool false)
  else if info = 21 then pure (.bool true)
  else if info = 22 then pure .null
  else refuse invalid

def parseItems (item : ℕ → Outcome (Value × ℕ)) : ℕ → ℕ → Outcome (List Value × ℕ)
  | 0, cursor => pure ([], cursor)
  | count + 1, cursor => do
    let (value, next) ← item cursor
    let (items, stop) ← parseItems item count next
    pure (value :: items, stop)

/-- The entry loop of a map; `seen` holds the canonical encodings of the keys so far. -/
def parseEntries (item : ℕ → Outcome (Value × ℕ)) :
    ℕ → ℕ → List Bytes → Outcome (List (Value × Value) × ℕ)
  | 0, cursor, _ => pure ([], cursor)
  | count + 1, cursor, seen => do
    let (key, next) ← item cursor
    let keyBytes ← orRefuse (encode key).toOption limit
    if keyBytes ∈ seen then refuse invalid
    else do
      let (value, next) ← item next
      let (entries, stop) ← parseEntries item count next (keyBytes :: seen)
      pure ((key, value) :: entries, stop)

/-- What follows the head of an item; `item` parses one level further down. -/
def parseContent (bytes : Bytes) (item : ℕ → Outcome (Value × ℕ)) (major : UInt8)
    (argument : UInt64) (pos : ℕ) : Outcome (Value × ℕ) := do
  let remaining ← sub bytes.length pos
  if major = 0 then pure (.unsigned argument, pos)
  else if major = 1 then pure (.negative argument, pos)
  else if major = 2 then do
    let (raw, stop) ← take bytes pos remaining argument.toNat
    pure (.bytes raw, stop)
  else if major = 3 then do
    let (raw, stop) ← take bytes pos remaining argument.toNat
    let s ← orRefuse (String.fromUTF8? ⟨raw.toArray⟩) invalid
    pure (.text s, stop)
  else if major = 4 then
    if argument.toNat > remaining then refuse invalid
    else do
      let (items, stop) ← parseItems item argument.toNat pos
      pure (.array items, stop)
  else if major = 5 then
    if argument.toNat > remaining / 2 then refuse invalid
    else do
      let (entries, stop) ← parseEntries item argument.toNat pos []
      pure (.map entries, stop)
  else .error .panicked

def parseAt (bytes : Bytes) : ℕ → ℕ → Outcome (Value × ℕ)
  | 0, _ => refuse limit
  | levels + 1, pos => do
    let initial ← orRefuse bytes[pos]? invalid
    let major := initial >>> 5
    let info := initial &&& 0x1f
    if major = 7 then do
      let value ← simpleValue info
      let next ← add pos 1
      pure (value, next)
    else if major = 6 then refuse invalid
    else do
      let (argument, next) ← readArgument bytes pos info
      parseContent bytes (parseAt bytes levels) major argument next

def parseItem (bytes : Bytes) : Outcome (Value × ℕ) := parseAt bytes maxDepth 0

def parse (bytes : Bytes) : Outcome Value := do
  let (value, consumed) ← parseItem bytes
  if consumed ≠ bytes.length then refuse invalid else pure value

end CtapCbor
