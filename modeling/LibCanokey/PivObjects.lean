import LibCanokey.PivAccess

/-! # Reading PIV objects and certificates

The reads that return an object's value, its container or an unwrapped certificate, over an
uninterpreted gzip reader. -/
namespace PivObjects

open BigEndian ProtocolError ProtocolApdu ProtocolConversation ProtocolOperation ProtocolTlv
open ProtocolTlvFields CompatProfile PivCommand PivAccess

/-- What one `read` of the decoder returns; an empty one would be the end. -/
abbrev Chunk := {chunk : Bytes // chunk ≠ [] ∧ chunk.length ≤ 4096}

/-- The chunks a decoder returns and what it leaves unread, if it ends without an error. -/
structure GzipRead where
  chunks : List Chunk
  unread : Option Bytes

abbrev Gunzip := Bytes → GzipRead

structure Certificate where
  der : Bytes
  compressed : Bool
  deriving DecidableEq, Repr

structure CertificateFields where
  certificate : Option Bytes := none
  info : Option UInt8 := none
  lrc : Bool := false

def CertificateFields.take (c : CertificateFields) (field : Tlv) :
    Except Error CertificateFields :=
  if field.tag.value = 0x70 ∧ c.certificate.isNone then
    .ok { c with certificate := some field.value }
  else if field.tag.value = 0x71 ∧ c.info.isNone ∧ field.value.length = 1 then
    .ok { c with info := some (field.value.getD 0 0) }
  else if field.tag.value = 0xfe ∧ ¬ c.lrc ∧ field.value = [] then .ok { c with lrc := true }
  else .error malformed

def oversized : Error := (Error.new .limitExceeded).atPhase .parsing

/-- The loop over the chunks; the output never exceeds `maxBytes`. -/
def inflate (maxBytes : ℕ) : List Chunk → Bytes → Except Error Bytes
  | [], output => .ok output
  | chunk :: chunks, output =>
    if chunk.1.length > maxBytes - output.length then .error oversized
    else inflate maxBytes chunks (output ++ chunk.1)

def decompress (gunzip : Gunzip) (bytes : Bytes) (maxBytes : ℕ) : Except Error Bytes := do
  let output ← inflate maxBytes (gunzip bytes).chunks []
  match (gunzip bytes).unread with
  | none => .error malformed
  | some unread => if unread ≠ [] ∨ output = [] then .error malformed else .ok output

/-- The nonempty certificate field. -/
def CertificateFields.payload (c : CertificateFields) : Except Error Bytes :=
  match c.certificate with
  | none => .error malformed
  | some bytes => if bytes = [] then .error malformed else .ok bytes

def CertificateFields.isCompressed (c : CertificateFields) : Except Error Bool :=
  if c.info.getD 0 = 0 then .ok false
  else if c.info.getD 0 = 1 then .ok true
  else .error ((Error.new .unsupportedProtocolVersion).atPhase .parsing)

/-- The payload as it stands or decompressed. -/
def unpack (gunzip : Gunzip) (bytes : Bytes) (compressed : Bool) (maxBytes : ℕ) :
    Except Error Bytes :=
  if compressed then decompress gunzip bytes maxBytes else .ok bytes

def Certificate.fromObject (gunzip : Gunzip) (data : Bytes) (maxBytes : ℕ) :
    Except Error Certificate :=
  if data.length > maxBytes then .error oversized
  else do
    let fields ← readFields CertificateFields.take (.new data { maxValueBytes := maxBytes }) {}
    let bytes ← fields.payload
    let compressed ← fields.isCompressed
    let der ← unpack gunzip bytes compressed maxBytes
    .ok { der := der, compressed := compressed }

variable {T : Type}

/-- The objects that early firmware returns without their container. -/
def unwrapped (id : ObjectId) (data : Bytes) : Bool :=
  (id.tag.value == 0x5fc102 && data.head? == some 0x30) ||
    (id.tag.value == 0x5fc107 && data.head? == some 0xf0)

def containerTag (id : ObjectId) : ℕ := if id.tag.value = 0x7e then 0x7e else 0x53

def objectReply (profile : DeviceProfile) (id : ObjectId) (limit : ℕ) (preserveContainer : Bool)
    (parse : Bytes → Except Error T) (r : ResponseData) : Except Error T := do
  r.ensureSuccess .command
  if profile.legacyUnwrappedObjects ∧ unwrapped id r.data then parse r.data
  else
    let tlv ← sole (.new r.data { maxValueBytes := limit })
      (fun field => field.tag.value == containerTag id) malformed
    if preserveContainer then parse r.data else parse tlv.value

def prepareReadObjectFormat (profile : DeviceProfile) (id : ObjectId)
    (options : OperationOptions) (preserveContainer : Bool) (parse : Bytes → Except Error T) :
    Except Error (Sequence T) := do
  require profile
  prepare (getData id) options
    (objectReply profile id options.limits.maxTotalResponseBytes preserveContainer parse)

def prepareReadObjectWith (profile : DeviceProfile) (id : ObjectId) (options : OperationOptions)
    (parse : Bytes → Except Error T) : Except Error (Sequence T) :=
  prepareReadObjectFormat profile id options false parse

def readObjectWith (profile : DeviceProfile) (id : ObjectId) (access : Access)
    (options : OperationOptions) (parse : Bytes → Except Error T) :
    Except Error (Operation (Selected (Sequence T)) T) := do
  let target ← prepareReadObjectWith profile id options parse
  withAccess profile access target options

def readObject (profile : DeviceProfile) (id : ObjectId) (access : Access)
    (options : OperationOptions) : Except Error (Operation (Selected (Sequence Bytes)) Bytes) :=
  readObjectWith profile id access options .ok

def readCertificate (gunzip : Gunzip) (profile : DeviceProfile) (slot : Slot) (access : Access)
    (options : OperationOptions) :
    Except Error (Operation (Selected (Sequence Certificate)) Certificate) :=
  readObjectWith profile (.certificate slot) access options fun data =>
    Certificate.fromObject gunzip data options.limits.maxTotalResponseBytes

/-- The complete 53 or 7E container, as the card returned it. -/
def readObjectContainer (profile : DeviceProfile) (id : ObjectId) (access : Access)
    (options : OperationOptions) : Except Error (Operation (Selected (Sequence Bytes)) Bytes) := do
  let sequence ← prepareReadObjectFormat profile id options true .ok
  withAccess profile access sequence options

theorem inflate_length {maxBytes : ℕ} {chunks : List Chunk} {output der : Bytes}
    (hfit : output.length ≤ maxBytes) (h : inflate maxBytes chunks output = .ok der) :
    der.length ≤ maxBytes ∧ der = output ++ (chunks.map (·.1)).flatten := by
  induction chunks generalizing output with
  | nil =>
    cases h
    exact ⟨hfit, by simp⟩
  | cons chunk chunks ih =>
    rw [inflate] at h
    split_ifs at h with hbig
    have hlen : (output ++ chunk.1).length ≤ maxBytes := by
      rw [List.length_append]
      omega
    obtain ⟨hder, heq⟩ := ih hlen h
    refine ⟨hder, ?_⟩
    rw [heq, List.map_cons, List.flatten_cons, List.append_assoc]

end PivObjects
