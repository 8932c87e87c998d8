import LibCanokey.BigEndian
import LibCanokey.ProtocolError

/-! # Physical ISO 7816 APDU codecs

`CommandApdu.encode`, the 6Cxx correction and response splitting, as the protocol crate
computes them. A secret buffer is its byte list; wiping is not modelled. -/
namespace ProtocolApdu

open BigEndian ProtocolError

inductive ExpectedLength where
  | absent
  | exact (n : ℕ)
  deriving DecidableEq, Repr

inductive ApduEncoding where
  | short
  | extended
  deriving DecidableEq, Repr

structure ApduHeader where
  cla : UInt8
  ins : UInt8
  p1 : UInt8
  p2 : UInt8
  deriving DecidableEq, Repr

structure CommandApdu where
  bytes : Bytes
  header : ApduHeader
  dataStart : ℕ
  dataLen : ℕ
  encoding : ApduEncoding
  deriving DecidableEq, Repr

def ApduEncoding.max : ApduEncoding → ℕ
  | .short => 256
  | .extended => 65536

def ExpectedLength.InRange (max : ℕ) : ExpectedLength → Prop
  | .absent => True
  | .exact n => n ≠ 0 ∧ n ≤ max

instance (max : ℕ) (le : ExpectedLength) : Decidable (le.InRange max) := by
  cases le <;> unfold ExpectedLength.InRange <;> infer_instance

def ApduHeader.toBytes (h : ApduHeader) : Bytes := [h.cla, h.ins, h.p1, h.p2]

/-- The bytes between header and data: Lc, or the extended marker of a bare Le. -/
def lcField (data : Bytes) (le : ExpectedLength) : ApduEncoding → Bytes
  | .short => if data ≠ [] then [UInt8.ofNat data.length] else []
  | .extended =>
    if data ≠ [] then 0 :: toBeBytes 2 data.length
    else if le ≠ .absent then [0] else []

/-- The maximum of each form is truncated to zero by the cast, as ISO 7816 wants. -/
def leField : ExpectedLength → ApduEncoding → Bytes
  | .absent, _ => []
  | .exact n, .short => [UInt8.ofNat n]
  | .exact n, .extended => toBeBytes 2 n

def CommandApdu.build (header : ApduHeader) (data : Bytes) (le : ExpectedLength)
    (encoding : ApduEncoding) : CommandApdu :=
  let start := header.toBytes ++ lcField data le encoding
  { bytes := start ++ data ++ leField le encoding
    header := header
    dataStart := start.length
    dataLen := data.length
    encoding := encoding }

def CommandApdu.encode (header : ApduHeader) (data : Bytes) (le : ExpectedLength)
    (encoding : ApduEncoding) : Except Error CommandApdu :=
  if data.length ≥ encoding.max ∨ ¬ le.InRange encoding.max then
    .error (.new .invalidArgument)
  else .ok (.build header data le encoding)

def CommandApdu.corrected (c : CommandApdu) (le : ℕ) : Except Error CommandApdu :=
  CommandApdu.encode c.header ((c.bytes.drop c.dataStart).take c.dataLen) (.exact le) c.encoding

structure ResponseApdu where
  data : Bytes
  status : StatusWord
  deriving DecidableEq, Repr

def ResponseApdu.parse (bytes : Bytes) : Except Error ResponseApdu :=
  if bytes.length < 2 then .error ((Error.new .invalidResponse).atPhase .parsing)
  else .ok
    { data := bytes.take (bytes.length - 2)
      status := ⟨UInt16.ofNat (ofBeBytes (bytes.drop (bytes.length - 2)))⟩ }

theorem encode_eq_ok {header : ApduHeader} {data : Bytes} {le : ExpectedLength}
    {encoding : ApduEncoding} {c : CommandApdu} :
    CommandApdu.encode header data le encoding = .ok c ↔
      data.length < encoding.max ∧ le.InRange encoding.max ∧
        c = .build header data le encoding := by
  simp only [CommandApdu.encode]
  split_ifs with h
  · constructor
    · intro he; cases he
    · rintro ⟨hd, hl, _⟩
      rcases h with h | h
      · omega
      · exact absurd hl h
  · push Not at h
    constructor
    · intro he
      exact ⟨h.1, h.2, (Except.ok.inj he).symm⟩
    · rintro ⟨_, _, rfl⟩; rfl

theorem length_build (h : ApduHeader) (d : Bytes) (le : ExpectedLength) (e : ApduEncoding) :
    (CommandApdu.build h d le e).bytes.length =
      4 + (lcField d le e).length + d.length + (leField le e).length := by
  simp [CommandApdu.build, ApduHeader.toBytes]
  omega

/-- The recorded data window of a built command is its data. -/
theorem data_build (h : ApduHeader) (d : Bytes) (le : ExpectedLength) (e : ApduEncoding) :
    ((CommandApdu.build h d le e).bytes.drop (CommandApdu.build h d le e).dataStart).take
      (CommandApdu.build h d le e).dataLen = d := by
  simp [CommandApdu.build, List.append_assoc, List.drop_append, List.take_append]

theorem corrected_build (h : ApduHeader) (d : Bytes) (le : ExpectedLength) (e : ApduEncoding)
    (n : ℕ) : (CommandApdu.build h d le e).corrected n = CommandApdu.encode h d (.exact n) e := by
  simp only [CommandApdu.corrected]
  rw [data_build]
  rfl

end ProtocolApdu
