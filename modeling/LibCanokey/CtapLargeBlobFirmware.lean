import LibCanokey.CtapLargeBlob
import LibCanokey.CtapReading
import LibCanokey.ProtocolSession

/-! # The large-blob array on the device

The documented firmware: reads clamp at the end of the array, fragments are collected in a
temporary file at the tracked offset and replace the array once the announced length is
reached and the integrity trailer matches. -/
namespace CtapLargeBlobFirmware

open BigEndian CheckedCursor ListTraversal ProtocolError ProtocolConversation ProtocolSession
open CtapCbor CtapMessage CtapFields CtapReading CtapSubcommand CtapLargeBlob

/-- A build of the firmware, whose fragments cover the host's. -/
structure Firmware where
  hashes : Hashes
  maxFragmentLength : ℕ
  covers : defaultMaxFragmentLength ≤ maxFragmentLength

/-- The temporary file and the length it is to reach. -/
structure Upload where
  length : ℕ
  received : Bytes
  deriving DecidableEq

structure Device where
  array : Bytes
  upload : Option Upload := none
  pin : Option PinToken := none

structure BlobRequest where
  get : Option ℕ
  set : Option Bytes
  offset : ℕ
  length : Option ℕ
  auth : Option Bytes
  protocol : Option ℕ

def uintAt (value : Value) (key : ℤ) : Option ℕ :=
  ((value.mapGetInt key).bind Value.asUint).map UInt64.toNat

def bytesAt (value : Value) (key : ℤ) : Option Bytes := (value.mapGetInt key).bind Value.asBytes

def parseLargeBlobs (body : Bytes) : Except UInt8 BlobRequest :=
  match decoded body with
  | .error _ => .error 0x12
  | .ok value =>
    match uintAt value 3 with
    | none => .error 0x14
    | some offset =>
      .ok ⟨uintAt value 1, bytesAt value 2, offset, uintAt value 4, bytesAt value 5, uintAt value 6⟩

def readPayload (substring : Bytes) : Bytes := [0xa1, 0x01] ++ byteString substring

def Device.get (fw : Firmware) (device : Device) (length : ℕ) (r : BlobRequest) :
    Except UInt8 Bytes :=
  if r.auth.isSome ∨ r.protocol.isSome then .error 0x02
  else if r.offset > device.array.length then .error 0x02
  else if length > fw.maxFragmentLength then .error 0x03
  else .ok (readPayload ((device.array.drop r.offset).take length))

/-- The file that a fragment at offset 0 opens. -/
def opened (length : Option ℕ) : Except UInt8 Upload :=
  match length with
  | none => .error 0x02
  | some length =>
    if length < minLargeBlobArrayBytes then .error 0x02
    else if length > maxLargeBlobArrayBytes then .error 0x18
    else .ok ⟨length, []⟩

/-- The file that a later fragment continues. -/
def Device.continued (device : Device) (offset : ℕ) (length : Option ℕ) : Except UInt8 Upload :=
  if length.isSome then .error 0x02
  else
    match device.upload with
    | none => .error 0x04
    | some upload => if offset = upload.received.length then .ok upload else .error 0x04

def Device.file (device : Device) (offset : ℕ) (length : Option ℕ) : Except UInt8 Upload :=
  if offset = 0 then opened length else device.continued offset length

def protocolOf (n : ℕ) : Option PinUvAuthProtocol :=
  if n = 1 then some .v1 else if n = 2 then some .v2 else none

/-- Without a PIN any authentication is ignored. -/
def Device.authorize (fw : Firmware) (device : Device) (fragment : Bytes) (r : BlobRequest) :
    Except UInt8 Unit :=
  match device.pin with
  | none => .ok ()
  | some token =>
    match r.auth, r.protocol.bind protocolOf with
    | some auth, some protocol =>
      if auth = token.authenticate fw.hashes protocol
          (List.replicate 32 0xff ++ [0x0c, 0x00] ++ toLeBytes32 r.offset ++
            (fw.hashes.sha256 fragment).1) then .ok ()
      else .error 0x33
    | _, _ => .error 0x36

/-- The last 16 bytes are the truncated hash of those before them. -/
def IntegrityTrailer (hashes : Hashes) (array : Bytes) : Prop :=
  array.drop (array.length - 16) = (hashes.sha256 (array.take (array.length - 16))).1.take 16

instance (hashes : Hashes) (array : Bytes) : Decidable (IntegrityTrailer hashes array) :=
  inferInstanceAs (Decidable (_ = _))

/-- The array is replaced once the file has its length. -/
def Device.store (fw : Firmware) (device : Device) (upload : Upload) : Except UInt8 Device :=
  if upload.received.length < upload.length then .ok { device with upload := some upload }
  else if IntegrityTrailer fw.hashes upload.received then
    .ok { device with array := upload.received, upload := none }
  else .error 0x3d

def Device.set (fw : Firmware) (device : Device) (fragment : Bytes) (r : BlobRequest) :
    Except UInt8 Device :=
  if fragment.length > fw.maxFragmentLength then .error 0x03
  else do
    let upload ← device.file r.offset r.length
    device.authorize fw fragment r
    device.store fw { upload with received := upload.received ++ fragment }

def Device.largeBlobs (fw : Firmware) (device : Device) (body : Bytes) :
    Except UInt8 (Bytes × Device) := do
  let r ← parseLargeBlobs body
  match r.get, r.set with
  | some length, none => (device.get fw length r).map fun payload => (payload, device)
  | none, some fragment => (device.set fw fragment r).map fun device => ([], device)
  | _, _ => .error 0x02

/-- The status byte and payload with which a message is answered. -/
def Device.message (fw : Firmware) (device : Device) (message : Bytes) : Bytes × Device :=
  if message.head? = some 0x0c then
    match device.largeBlobs fw message.tail with
    | .ok (payload, device) => (0x00 :: payload, device)
    | .error status => ([status], device)
  else ([0x01], device)

def Device.after (fw : Firmware) (device : Device) (messages : List Bytes) : Device :=
  messages.foldl (fun device message => (device.message fw message).2) device

def fidoApplet (fw : Firmware) : Applet Device := fun device command =>
  if command.header.ins = 0xa4 then
    (⟨[], ⟨if command.data = fido2Aid then 0x9000 else 0x6a82⟩⟩, device)
  else if command.header.cla = 0x80 ∧ command.header.ins = 0x10 then
    (⟨(device.message fw command.data).1, ⟨0x9000⟩⟩, (device.message fw command.data).2)
  else (⟨[], ⟨0x6d00⟩⟩, device)

theorem applet_select (fw : Firmware) (device : Device) :
    fidoApplet fw device ⟨select.header, select.data, select.le⟩ = (⟨[], ⟨0x9000⟩⟩, device) := rfl

theorem applet_msg (fw : Firmware) (device : Device) (message : Bytes) :
    fidoApplet fw device ⟨(msg message).header, (msg message).data, (msg message).le⟩ =
      (⟨(device.message fw message).1, ⟨0x9000⟩⟩, (device.message fw message).2) := rfl

/-! ## What the device reads in the messages of the host -/

section messages

variable {fragment : Bytes} {offset : ℕ} {total : Option ℕ}
  {auth : Option (Bytes × PinUvAuthProtocol)}

theorem setFields_plain (hfragment : fragment.length < 2 ^ 16)
    (hauth : ∀ a, auth = some a → a.1.length ≤ 32) :
    Plain (setFields fragment offset total auth) := by
  have hlen : ∀ a, auth = some a → a.1.length < 2 ^ 64 := fun a ha => by
    have := hauth a ha
    omega
  refine ⟨?_, ?_, ?_, ?_⟩
  · cases total <;> cases auth <;> simp [setFields]
  · cases total <;> cases auth <;> simp [setFields]
  · have hbytes : Value.bytes fragment = .bytes fragment := rfl
    intro f hf
    simp only [setFields, List.mem_append, List.mem_cons, List.not_mem_nil, or_false,
      List.mem_map, List.mem_flatMap, Option.mem_toList] at hf
    rcases hf with ((rfl | rfl) | ⟨t, _, rfl⟩) | ⟨a, ha, rfl | rfl⟩
    · exact ⟨trivial, Nat.lt_trans hfragment (by decide)⟩
    · exact ⟨trivial, trivial⟩
    · exact ⟨trivial, trivial⟩
    · exact ⟨trivial, hlen a ha⟩
    · exact ⟨trivial, trivial⟩
  · cases total <;> cases auth <;> simp [setFields]

theorem length_setBody_le (hfragment : fragment.length < 2 ^ 16) (hoffset : offset < 2 ^ 16)
    (htotal : ∀ t, total = some t → t < 2 ^ 16) (hauth : ∀ a, auth = some a → a.1.length ≤ 32) :
    (setBody fragment offset total auth).length ≤ fragment.length + 53 := by
  have hmap : (setFields fragment offset total auth).length < 2 ^ 16 := by
    cases total <;> cases auth <;> simp [setFields]
  have hfields := length_head_le (by decide : 5 < 8) hmap
  have hfrag := length_head_le (by decide : 2 < 8) hfragment
  have hoff := length_head_le (by decide : 0 < 8) hoffset
  have hlength : (keyed 4 (total.map uintBytes)).length ≤ 4 := by
    cases total with
    | none => exact Nat.zero_le _
    | some t =>
      have := length_head_le (by decide : 0 < 8) (htotal t rfl)
      exact Nat.succ_le_succ this
  have hparam : (authBytes auth).length ≤ 38 := by
    cases auth with
    | none => exact Nat.zero_le _
    | some a =>
      have ha := hauth a rfl
      have := length_head_le (by decide : 2 < 8) (show a.1.length < 2 ^ 16 by omega)
      simp only [authBytes, byteString, List.cons_append, List.length_cons, List.length_append,
        List.length_nil] at this ⊢
      change (head [] 2 (UInt64.ofNat a.1.length)).length ≤ 3 at this
      omega
  change (head [] 5 (UInt64.ofNat _)).length ≤ 3 at hfields
  change (head [] 2 (UInt64.ofNat _)).length ≤ 3 at hfrag
  change (head [] 0 (UInt64.ofNat _)).length ≤ 3 at hoff
  simp only [setBody, byteString, uintBytes, List.cons_append, List.length_cons,
    List.length_append]
  omega

theorem setFields_small :
    ∀ f ∈ setFields fragment offset total auth, f.1 < 24 := by
  cases total <;> cases auth <;> simp [setFields]

/-- What a fragment message says, key by key. -/
structure Says (value : Value) (fragment : Bytes) (offset : ℕ) (total : Option ℕ)
    (auth : Option (Bytes × PinUvAuthProtocol)) : Prop where
  get_key : value.mapGetInt 1 = none
  set_key : value.mapGetInt 2 = some (.bytes fragment)
  offset_key : value.mapGetInt 3 = some (uint offset)
  length_key : value.mapGetInt 4 = total.map uint
  auth_key : value.mapGetInt 5 = auth.map fun auth => .bytes auth.1
  protocol_key : value.mapGetInt 6 = auth.map fun auth => uint auth.2.toU8.toNat

theorem setFields_fields : Says (fieldMap (setFields fragment offset total auth)) fragment offset
    total auth := by
  have hat (k : ℕ) (hk : k < 24) :=
    mapGetInt_fieldMap (@setFields_small fragment offset total auth) hk
  constructor
  · exact (hat 1 (by decide)).trans (by cases total <;> cases auth <;> rfl)
  · exact (hat 2 (by decide)).trans (by cases total <;> cases auth <;> rfl)
  · exact (hat 3 (by decide)).trans (by cases total <;> cases auth <;> rfl)
  · exact (hat 4 (by decide)).trans (by cases total <;> cases auth <;> rfl)
  · exact (hat 5 (by decide)).trans (by cases total <;> cases auth <;> rfl)
  · exact (hat 6 (by decide)).trans (by cases total <;> cases auth <;> rfl)

theorem uintAt_some {value : Value} {key : ℤ} {n : ℕ} (h : value.mapGetInt key = some (uint n))
    (hn : n < 2 ^ 64) : uintAt value key = some n := by
  rw [uintAt, h]
  exact congrArg some (UInt64.toNat_ofNat_of_lt' hn)

theorem uintAt_map {value : Value} {key : ℤ} {n : Option ℕ}
    (h : value.mapGetInt key = n.map uint) (hn : ∀ m, n = some m → m < 2 ^ 64) :
    uintAt value key = n := by
  cases n with
  | none =>
    rw [uintAt, h]
    rfl
  | some n => exact uintAt_some h (hn n rfl)

theorem parse_setBody (hfragment : fragment.length < 2 ^ 16) (hoffset : offset < 2 ^ 16)
    (htotal : ∀ t, total = some t → t < 2 ^ 16) (hauth : ∀ a, auth = some a → a.1.length ≤ 32) :
    decoded (setBody fragment offset total auth) =
        .ok (fieldMap (setFields fragment offset total auth)) ∧
      parseLargeBlobs (setBody fragment offset total auth) =
        .ok ⟨none, some fragment, offset, total, auth.map Prod.fst,
          auth.map fun auth => auth.2.toU8.toNat⟩ := by
  have hlen := length_setBody_le hfragment hoffset htotal hauth
  have husize : 2 ^ 16 + 53 ≤ usizeMax := by decide
  have hdecoded := decoded_fieldMap (@setFields_plain fragment offset total auth hfragment hauth)
    (encode_setFields fragment offset total auth) (by omega)
  have hfields := @setFields_fields fragment offset total auth
  have hbig : (2 : ℕ) ^ 16 < 2 ^ 64 := by decide
  have h1 : uintAt (fieldMap (setFields fragment offset total auth)) 1 = none := by
    rw [uintAt, hfields.get_key]
    rfl
  have h2 : bytesAt (fieldMap (setFields fragment offset total auth)) 2 = some fragment := by
    rw [bytesAt, hfields.set_key]
    rfl
  have h3 := uintAt_some hfields.offset_key (by omega)
  have h4 := uintAt_map hfields.length_key fun t ht => Nat.lt_trans (htotal t ht) hbig
  have h5 : bytesAt (fieldMap (setFields fragment offset total auth)) 5 = auth.map Prod.fst := by
    rw [bytesAt, hfields.auth_key]
    cases auth <;> rfl
  have h6 : uintAt (fieldMap (setFields fragment offset total auth)) 6 =
      auth.map fun auth => auth.2.toU8.toNat := by
    refine uintAt_map (hfields.protocol_key.trans (by cases auth <;> rfl)) ?_
    intro n hn
    obtain ⟨a, _, rfl⟩ := Option.map_eq_some_iff.mp hn
    exact Nat.lt_trans (protocol_small a.2) (by decide)
  refine ⟨hdecoded, ?_⟩
  simp only [parseLargeBlobs, hdecoded, h1, h2, h3, h4, h5, h6]

end messages

/-! ## Fragments are collected until the announced length -/

/-- The token that a device with a PIN wants. -/
def Authorized (device : Device) (token : Option (PinToken × PinUvAuthProtocol)) : Prop :=
  ∀ pin, device.pin = some pin → ∃ protocol, token = some (pin, protocol)

section uploads

variable {fw : Firmware} {device : Device} {fragment received : Bytes} {offset : ℕ}
  {total : Option ℕ} {token : Option (PinToken × PinUvAuthProtocol)}

theorem fragmentAuth_eq_ok {hashes : Hashes} {auth : Option (Bytes × PinUvAuthProtocol)}
    (h : fragmentAuth hashes fragment offset token = .ok auth) :
    auth = token.map fun t =>
      (t.1.authenticate hashes t.2 (macInput hashes fragment offset), t.2) := by
  rcases token with _ | ⟨token, protocol⟩
  · cases h
    rfl
  · simp only [fragmentAuth] at h
    split_ifs at h
    cases h
    rfl

theorem setMessage_eq_ok {hashes : Hashes} {message : Bytes}
    (h : setMessage hashes fragment offset total token = .ok message) :
    ∃ auth, fragmentAuth hashes fragment offset token = .ok auth ∧
      (∀ a, auth = some a → a.1.length ≤ 32) ∧
      message = 0x0c :: setBody fragment offset total auth := by
  obtain ⟨auth, hauth, h⟩ := bind_eq_ok.mp h
  obtain ⟨body, hbody, h⟩ := bind_eq_ok.mp h
  cases (encode_setFields fragment offset total auth).symm.trans hbody
  cases h
  refine ⟨auth, hauth, ?_, rfl⟩
  intro a ha
  rw [fragmentAuth_eq_ok hauth, Option.map_eq_some_iff] at ha
  obtain ⟨t, _, rfl⟩ := ha
  exact length_authenticate _ _ _ _

theorem authorize_ok {auth : Option (Bytes × PinUvAuthProtocol)}
    (h : fragmentAuth fw.hashes fragment offset token = .ok auth) (hpin : Authorized device token) :
    device.authorize fw fragment ⟨none, some fragment, offset, total, auth.map Prod.fst,
      auth.map fun auth => auth.2.toU8.toNat⟩ = .ok () := by
  rw [Device.authorize]
  cases hp : device.pin with
  | none => rfl
  | some pin =>
    obtain ⟨protocol, rfl⟩ := hpin pin hp
    rw [fragmentAuth_eq_ok h]
    have hprotocol : protocolOf protocol.toU8.toNat = some protocol := by cases protocol <;> rfl
    simp only [Option.map_some, Option.bind_some, hprotocol, macInput, if_true]

/-- The file that the device continues, or opens at offset 0. -/
def Continues (device : Device) (offset size : ℕ) (received : Bytes) : Prop :=
  offset = received.length ∧ (received ≠ [] → device.upload = some ⟨size, received⟩)

/-- The announced length goes with the first fragment only. -/
def announced (offset size : ℕ) : Option ℕ := if offset = 0 then some size else none

theorem message_stores {size : ℕ} {message : Bytes}
    (hsize : minLargeBlobArrayBytes ≤ size ∧ size ≤ maxLargeBlobArrayBytes)
    (hoffset : offset < 2 ^ 16) (hfragment : fragment.length ≤ defaultMaxFragmentLength)
    (hpin : Authorized device token) (hcont : Continues device offset size received)
    (h : setMessage fw.hashes fragment offset (announced offset size) token = .ok message)
    {device' : Device} (hstore : device.store fw ⟨size, received ++ fragment⟩ = .ok device') :
    device.message fw message = ([0x00], device') := by
  obtain ⟨auth, hauth, hlen, rfl⟩ := setMessage_eq_ok h
  have hmost : maxLargeBlobArrayBytes < 2 ^ 16 := by decide
  have hfrag : defaultMaxFragmentLength < 2 ^ 16 := by decide
  have htotal : ∀ t, announced offset size = some t → t < 2 ^ 16 := by
    intro t ht
    rw [announced] at ht
    split_ifs at ht
    cases ht
    omega
  have hshort : fragment.length < 2 ^ 16 := by omega
  obtain ⟨_, hparse⟩ := parse_setBody hshort hoffset htotal hlen
  have hfile : device.file offset (announced offset size) = .ok ⟨size, received⟩ := by
    rw [Device.file]
    by_cases hzero : offset = 0
    · have hnil : received = [] := by
        apply List.eq_nil_of_length_eq_zero
        rw [← hcont.1, hzero]
      rw [if_pos hzero, announced, if_pos hzero, hnil, opened, if_neg (by omega),
        if_neg (by omega)]
    · have hne : received ≠ [] := by
        intro hnil
        exact hzero (by rw [hcont.1, hnil]; rfl)
      rw [if_neg hzero, announced, if_neg hzero, Device.continued, hcont.2 hne]
      exact if_pos hcont.1
  have hset : device.set fw fragment ⟨none, some fragment, offset, announced offset size,
      auth.map Prod.fst, auth.map fun auth => auth.2.toU8.toNat⟩ = .ok device' := by
    rw [Device.set, if_neg (Nat.not_lt_of_le (Nat.le_trans hfragment fw.covers))]
    refine bind_eq_ok.mpr ⟨_, hfile, ?_⟩
    exact bind_eq_ok.mpr ⟨(), authorize_ok hauth hpin, hstore⟩
  have hblobs : device.largeBlobs fw (setBody fragment offset (announced offset size) auth) =
      .ok ([], device') := by
    rw [Device.largeBlobs]
    refine bind_eq_ok.mpr ⟨_, hparse, ?_⟩
    dsimp only
    rw [hset]
    rfl
  simp only [Device.message, List.head?_cons, if_true, List.tail_cons, hblobs]

end uploads

/-! ## Reads -/

section reads

variable {offset length : ℕ}

def getBody (offset length : ℕ) : Bytes :=
  head [] 5 2 ++ (1 :: uintBytes length ++ 3 :: uintBytes offset)

theorem encode_getFields (offset length : ℕ) :
    encode (fieldMap [(1, uint length), (3, uint offset)]) = .ok (getBody offset length) := by
  apply (encodeInto_fieldMap (by simp) (by simp)).mpr
  refine ⟨1 :: uintBytes length ++ 3 :: uintBytes offset, ?_, rfl⟩
  have h : Fields 63 [(1, uint length), (3, uint offset)]
      (1 :: uintBytes length ++ (3 :: uintBytes offset ++ [])) := .cons rfl (.cons rfl .nil)
  rwa [List.append_nil] at h

theorem getMessage_eq (offset length : ℕ) :
    getMessage offset length = .ok (0x0c :: getBody offset length) :=
  bind_eq_ok.mpr ⟨_, encode_getFields offset length, rfl⟩

theorem length_getBody_le (hoffset : offset < 2 ^ 16) (hlength : length < 2 ^ 16) :
    (getBody offset length).length ≤ 9 := by
  have hoff := length_head_le (by decide : 0 < 8) hoffset
  have hlen := length_head_le (by decide : 0 < 8) hlength
  have hmap : (head [] 5 2).length = 1 := rfl
  change (head [] 0 (UInt64.ofNat _)).length ≤ 3 at hoff hlen
  simp only [getBody, uintBytes, List.cons_append, List.length_cons, List.length_append]
  omega

theorem parse_getBody (hoffset : offset < 2 ^ 16) (hlength : length < 2 ^ 16) :
    parseLargeBlobs (getBody offset length) =
      .ok ⟨some length, none, offset, none, none, none⟩ := by
  have hplain : Plain [(1, uint length), (3, uint offset)] := by
    refine ⟨by simp, by simp, ?_, by simp⟩
    intro f hf
    simp only [List.mem_cons, List.not_mem_nil, or_false] at hf
    rcases hf with rfl | rfl <;> exact ⟨trivial, trivial⟩
  have hlen := length_getBody_le hoffset hlength
  have husize : 9 ≤ usizeMax := by decide
  have hdecoded := decoded_fieldMap hplain (encode_getFields offset length) (by omega)
  have hat (k : ℕ) (hk : k < 24) := mapGetInt_fieldMap hplain.small hk
  have h1 := uintAt_some (hat 1 (by decide)) (Nat.lt_trans hlength (by decide))
  have h3 := uintAt_some (hat 3 (by decide)) (Nat.lt_trans hoffset (by decide))
  have habsent {k : ℤ} (h : (fieldMap [(1, uint length), (3, uint offset)]).mapGetInt k = none) :
      uintAt (fieldMap [(1, uint length), (3, uint offset)]) k = none ∧
        bytesAt (fieldMap [(1, uint length), (3, uint offset)]) k = none := by
    simp only [uintAt, bytesAt, h]
    exact ⟨rfl, rfl⟩
  have h2 := (habsent (hat 2 (by decide))).2
  have h4 := (habsent (hat 4 (by decide))).1
  have h5 := (habsent (hat 5 (by decide))).2
  have h6 := (habsent (hat 6 (by decide))).1
  rw [parseLargeBlobs, hdecoded]
  dsimp only
  simp only [Nat.cast_ofNat, Nat.cast_one] at h1 h2 h3 h4 h5 h6
  simp only [h1, h2, h3, h4, h5, h6]

/-- A read within the array is answered with what is there. -/
theorem message_reads {fw : Firmware} {device : Device}
    (hlength : length ≤ defaultMaxFragmentLength) (hoffset : offset ≤ device.array.length)
    (harray : device.array.length < 2 ^ 16) :
    device.message fw (0x0c :: getBody offset length) =
      (0x00 :: readPayload ((device.array.drop offset).take length), device) := by
  have hfrag : defaultMaxFragmentLength < 2 ^ 16 := by decide
  have hget : device.get fw length ⟨some length, none, offset, none, none, none⟩ =
      .ok (readPayload ((device.array.drop offset).take length)) := by
    rw [Device.get, if_neg (by simp), if_neg (Nat.not_lt_of_le hoffset),
      if_neg (Nat.not_lt_of_le (Nat.le_trans hlength fw.covers))]
  have hparse := parse_getBody (Nat.lt_of_le_of_lt hoffset harray)
    (Nat.lt_of_le_of_lt hlength hfrag)
  have hblobs : device.largeBlobs fw (getBody offset length) =
      .ok (readPayload ((device.array.drop offset).take length), device) := by
    rw [Device.largeBlobs]
    refine bind_eq_ok.mpr ⟨_, hparse, ?_⟩
    dsimp only
    rw [hget]
    rfl
  simp only [Device.message, List.head?_cons, if_true, List.tail_cons, hblobs]

theorem length_readPayload_le {substring : Bytes} (h : substring.length < 2 ^ 16) :
    (readPayload substring).length ≤ substring.length + 5 := by
  have hlen := length_head_le (by decide : 2 < 8) h
  change (head [] 2 (UInt64.ofNat _)).length ≤ 3 at hlen
  simp only [readPayload, byteString, List.cons_append, List.nil_append, List.length_cons,
    List.length_append]
  omega

/-- The host reads the substring back. -/
theorem parseConfig_readPayload {substring : Bytes} (h : substring.length < 2 ^ 16) :
    parseConfig (readPayload substring) = .ok substring := by
  have hplain : Plain [(1, Value.bytes substring)] := by
    refine ⟨by simp, by simp, ?_, by simp⟩
    intro f hf
    rw [List.mem_singleton.mp hf]
    exact ⟨trivial, Nat.lt_trans h (by decide)⟩
  have hencode : encode (fieldMap [(1, Value.bytes substring)]) = .ok (readPayload substring) := by
    have hhead : head [] 5 (UInt64.ofNat 1) = [0xa1] := by decide
    apply (encodeInto_fieldMap hplain.keys hplain.small).mpr
    refine ⟨_, (fields_singleton (encode_bytes substring)).mpr rfl, ?_⟩
    rw [List.length_singleton, hhead]
    rfl
  have hlen := length_readPayload_le h
  have husize : 2 ^ 16 + 5 ≤ usizeMax := by decide
  have hdecoded := decoded_fieldMap hplain hencode (by omega)
  have hat := mapGetInt_fieldMap hplain.small (by decide : 1 < 24)
  refine bind_eq_ok.mpr ⟨_, hdecoded, ?_⟩
  refine bind_eq_ok.mpr ⟨.bytes substring, ?_, rfl⟩
  simp only [Nat.cast_one] at hat
  rw [hat]
  rfl

end reads

end CtapLargeBlobFirmware
