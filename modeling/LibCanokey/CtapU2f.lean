import LibCanokey.CtapAuthData

/-! # U2F registration

A registration response holds a public key, a key handle behind its length byte, a certificate
framed by its own DER length, and the signature that is left. -/
namespace CtapU2f

open BigEndian CheckedCursor ListTraversal ProtocolError CtapCbor CtapCborParser CtapAuthData

def registerReserved : UInt8 := 0x05

def sec1Uncompressed : UInt8 := 0x04

def fixedRequestLen : ℕ := 64

structure U2fRegistration where
  userPublicKey : ByteArrayOf 65
  keyHandle : Bytes
  certificate : Bytes
  signature : Bytes
  raw : Bytes
  deriving DecidableEq

/-- The value of a long length field; every index and sum is checked. -/
def derLongLen (bytes : Bytes) (count : ℕ) : Outcome ℕ := do
  let stop ← add 2 count
  if count = 0 ∨ count > 2 ∨ bytes.length < stop then refuse invalid
  else do
    let field ← orPanic (slice bytes 2 stop)
    add stop (field.foldl shiftIn 0).toNat

/-- Total length of a DER SEQUENCE at the start, header included. -/
def derSequenceLen (bytes : Bytes) : Outcome ℕ :=
  if bytes.length < 2 then refuse invalid
  else do
    let tag ← orPanic bytes[0]?
    if tag ≠ 0x30 then refuse invalid
    else do
      let first ← orPanic bytes[1]?
      if first &&& 0x80 = 0 then add 2 first.toNat
      else derLongLen bytes (first &&& 0x7f).toNat

/-- The certificate and the signature behind it. -/
def splitCertificate (rest : Bytes) : Outcome (Bytes × Bytes) := do
  let certLen ← derSequenceLen rest
  if certLen > rest.length then refuse invalid
  else do
    let certificate ← orPanic (slice rest 0 certLen)
    let signature ← tail rest certLen
    if signature = [] then refuse invalid else pure (certificate, signature)

def parseRegistration (bytes : Bytes) : Outcome U2fRegistration :=
  if bytes.length < fixedRequestLen + 3 then refuse invalid
  else do
    let reserved ← orPanic bytes[0]?
    let point ← orPanic bytes[1]?
    if reserved ≠ registerReserved ∨ point ≠ sec1Uncompressed then refuse invalid
    else do
      let key ← orPanic (slice bytes 1 66)
      let userPublicKey ← array 65 key
      let keyHandleLen ← orPanic bytes[66]?
      let rest ← tail bytes 67
      if keyHandleLen.toNat = 0 ∨ rest.length < keyHandleLen.toNat then refuse invalid
      else do
        let keyHandle ← orPanic (slice rest 0 keyHandleLen.toNat)
        let rest ← tail rest keyHandleLen.toNat
        let (certificate, signature) ← splitCertificate rest
        pure ⟨userPublicKey, keyHandle, certificate, signature, bytes⟩

/-! ## The format -/

/-- A length field of one, two or three bytes, and what it says; a longer field than the value
needs is as good. -/
inductive LengthField : Bytes → ℕ → Prop where
  | short (b : UInt8) (h : b.toNat < 128) : LengthField [b] b.toNat
  | oneByte (b : UInt8) : LengthField [0x81, b] b.toNat
  | twoBytes (b c : UInt8) : LengthField [0x82, b, c] (ofBeBytes [b, c])

/-- One complete SEQUENCE. -/
def DerSequence (bytes : Bytes) : Prop :=
  ∃ field contents, LengthField field contents.length ∧ bytes = 0x30 :: (field ++ contents)

/-- The response that holds these parts. -/
def registration (key keyHandle certificate signature : Bytes) : Bytes :=
  registerReserved :: (key ++
    UInt8.ofNat keyHandle.length :: (keyHandle ++ (certificate ++ signature)))

/-- The conditions on the parts of a response. -/
structure WellFormed (key : ByteArrayOf 65) (keyHandle certificate signature : Bytes) : Prop where
  point : key.1.head? = some sec1Uncompressed
  handle : 1 ≤ keyHandle.length ∧ keyHandle.length ≤ 255
  certificate : DerSequence certificate
  signature : signature ≠ []

section length

variable {bytes field rest : Bytes} {n len count : ℕ}

theorem LengthField.bounds (h : LengthField field len) : field.length ≤ 3 ∧ len < 65536 := by
  cases h with
  | short b hb => exact ⟨by simp, Nat.lt_of_lt_of_le b.toNat_lt (by decide)⟩
  | oneByte b => exact ⟨by simp, Nat.lt_of_lt_of_le b.toNat_lt (by decide)⟩
  | twoBytes b c =>
    exact ⟨by simp, Nat.lt_of_lt_of_le (ofBeBytes_lt [b, c]) (Nat.le_refl (256 ^ 2))⟩

/-- The first byte of a length field: short, or the number of the bytes behind it. -/
theorem first_cases (first : UInt8) :
    (first &&& 0x80 = 0 ↔ first.toNat < 128) ∧
      ((first &&& 0x7f).toNat = 1 → first &&& 0x80 ≠ 0 → first = 0x81) ∧
      ((first &&& 0x7f).toNat = 2 → first &&& 0x80 ≠ 0 → first = 0x82) := by
  have hall : ∀ b : UInt8, (b &&& 0x80 = 0 ↔ b.toNat < 128) ∧
      ((b &&& 0x7f).toNat = 1 → b &&& 0x80 ≠ 0 → b = 0x81) ∧
      ((b &&& 0x7f).toNat = 2 → b &&& 0x80 ≠ 0 → b = 0x82) := forall_byte (by decide +kernel)
  exact hall first

theorem ofBeBytes_singleton (b : UInt8) : ofBeBytes [b] = b.toNat := by
  rw [ofBeBytes_cons]
  simp

/-- Sums of this size never leave the machine word. -/
theorem add_small {a b : ℕ} (h : a + b < 65540) : add a b = .ok (a + b) :=
  add_eq_ok.mpr ⟨rfl, Nat.le_trans (Nat.le_of_lt h) (by decide)⟩

theorem derLongLen_eq_ok : derLongLen bytes count = .ok n ↔
    1 ≤ count ∧ count ≤ 2 ∧
      ∃ field, Consumes bytes 2 field (2 + count) ∧ n = 2 + count + ofBeBytes field := by
  constructor
  · intro h
    obtain ⟨stop, hstop, h⟩ := bind_eq_ok.mp h
    obtain ⟨rfl, -⟩ := add_eq_ok.mp hstop
    obtain ⟨hcount, h⟩ := guard_eq_ok.mp h
    obtain ⟨field, hfield, h⟩ := bind_eq_ok.mp h
    have hc := slice_eq_some.mp (orPanic_eq_ok.mp hfield)
    have hlen := hc.stops
    obtain ⟨hn, -⟩ := add_eq_ok.mp h
    rw [toNat_foldl_shiftIn (by omega)] at hn
    exact ⟨by omega, by omega, field, hc, hn.symm⟩
  · rintro ⟨hone, htwo, field, hc, rfl⟩
    have hlen := hc.stops
    have hin := hc.inside
    have hvalue : ofBeBytes field < 256 ^ 2 :=
      Nat.lt_of_lt_of_le (ofBeBytes_lt field) (Nat.pow_le_pow_right (by decide) (by omega))
    refine bind_eq_ok.mpr ⟨2 + count, add_small (by omega), ?_⟩
    refine guard_eq_ok.mpr ⟨by omega, ?_⟩
    refine bind_eq_ok.mpr ⟨field, orPanic_eq_ok.mpr (slice_eq_some.mpr hc), ?_⟩
    rw [toNat_foldl_shiftIn (by omega)]
    exact add_small (by omega)

theorem derSequenceLen_eq_ok : derSequenceLen bytes = .ok n ↔
    ∃ first, bytes[0]? = some 0x30 ∧ bytes[1]? = some first ∧
      (if first &&& 0x80 = 0 then add 2 first.toNat
        else derLongLen bytes (first &&& 0x7f).toNat) = .ok n := by
  constructor
  · intro h
    obtain ⟨-, h⟩ := guard_eq_ok.mp h
    obtain ⟨tag, htag, h⟩ := bind_eq_ok.mp h
    obtain ⟨hsequence, h⟩ := guard_eq_ok.mp h
    obtain ⟨first, hfirst, hbody⟩ := bind_eq_ok.mp h
    obtain rfl := not_not.mp hsequence
    exact ⟨first, orPanic_eq_ok.mp htag, orPanic_eq_ok.mp hfirst, hbody⟩
  · rintro ⟨first, htag, hfirst, h⟩
    have hlen := (List.getElem?_eq_some_iff.mp hfirst).1
    refine guard_eq_ok.mpr ⟨by omega, ?_⟩
    refine bind_eq_ok.mpr ⟨0x30, orPanic_eq_ok.mpr htag, ?_⟩
    refine guard_eq_ok.mpr ⟨not_not.mpr rfl, ?_⟩
    exact bind_eq_ok.mpr ⟨first, orPanic_eq_ok.mpr hfirst, h⟩

/-- The header and what it declares. -/
theorem derSequenceLen_iff : derSequenceLen bytes = .ok n ↔
    ∃ field len, LengthField field len ∧ Consumes bytes 0 (0x30 :: field) (1 + field.length) ∧
      n = 1 + field.length + len := by
  rw [derSequenceLen_eq_ok]
  constructor
  · rintro ⟨first, htag, hfirst, h⟩
    obtain ⟨hshort, hone, htwo⟩ := first_cases first
    have hheader {field : Bytes} {stop : ℕ} (hc : Consumes bytes 2 field stop) :
        Consumes bytes 0 (0x30 :: first :: field) stop :=
      consumes_cons.mpr ⟨htag, consumes_cons.mpr ⟨hfirst, hc⟩⟩
    by_cases hbit : first &&& 0x80 = 0
    · rw [if_pos hbit] at h
      have hlen := (List.getElem?_eq_some_iff.mp hfirst).1
      exact ⟨[first], first.toNat, .short first (hshort.mp hbit),
        hheader (consumes_nil.mpr ⟨rfl, hlen⟩), (add_eq_ok.mp h).1.symm⟩
    · rw [if_neg hbit] at h
      obtain ⟨hlower, hupper, field, hc, hn⟩ := derLongLen_eq_ok.mp h
      have hlen := hc.stops
      by_cases hcount : (first &&& 0x7f).toNat = 1
      · obtain ⟨b, rfl⟩ := List.length_eq_one_iff.mp (by omega : field.length = 1)
        obtain rfl := hone hcount hbit
        rw [ofBeBytes_singleton] at hn
        exact ⟨[0x81, b], b.toNat, .oneByte b, hheader hc, hn⟩
      · have hcount : (first &&& 0x7f).toNat = 2 := by omega
        obtain ⟨b, c, rfl⟩ := List.length_eq_two.mp (by omega : field.length = 2)
        obtain rfl := htwo hcount hbit
        exact ⟨[0x82, b, c], ofBeBytes [b, c], .twoBytes b c, hheader hc, hn⟩
  · rintro ⟨field, len, hfield, hc, rfl⟩
    obtain ⟨htag, hc⟩ := consumes_cons.mp hc
    cases hfield with
    | short b hb =>
      obtain ⟨hfirst, -⟩ := consumes_cons.mp hc
      refine ⟨b, htag, hfirst, ?_⟩
      rw [if_pos ((first_cases b).1.mpr hb)]
      exact add_small (by omega)
    | oneByte b =>
      obtain ⟨hfirst, hc⟩ := consumes_cons.mp hc
      refine ⟨0x81, htag, hfirst, derLongLen_eq_ok.mpr ⟨by decide, by decide, [b], hc, ?_⟩⟩
      rw [ofBeBytes_singleton]
      rfl
    | twoBytes b c =>
      obtain ⟨hfirst, hc⟩ := consumes_cons.mp hc
      exact ⟨0x82, htag, hfirst, derLongLen_eq_ok.mpr ⟨by decide, by decide, [b, c], hc, rfl⟩⟩

end length

section registration

variable {bytes rest key keyHandle certificate signature : Bytes} {n : ℕ} {r : U2fRegistration}

theorem derSequence_iff : DerSequence certificate ↔
    derSequenceLen (certificate ++ rest) = .ok certificate.length := by
  rw [derSequenceLen_iff]
  constructor
  · rintro ⟨field, contents, hfield, rfl⟩
    refine ⟨field, contents.length, hfield, ?_, ?_⟩
    · have hc := @consumes_left (0x30 :: field) (contents ++ rest)
      rw [List.length_cons, Nat.add_comm, ← List.append_assoc] at hc
      exact hc
    · rw [List.length_cons, List.length_append]
      omega
  · rintro ⟨field, len, hfield, hc, hn⟩
    -- the header is no longer than the certificate, so it starts it
    have hstart : (0x30 :: field) <+: certificate ++ rest := ⟨_, hc.left.symm⟩
    have hle : (0x30 :: field).length ≤ certificate.length := by
      rw [List.length_cons]
      omega
    obtain ⟨contents, rfl⟩ :=
      List.prefix_of_prefix_length_le hstart (List.prefix_append _ _) hle
    have hlen : contents.length = len := by
      rw [List.length_append, List.length_cons] at hn
      omega
    exact ⟨field, contents, hlen.symm ▸ hfield, List.cons_append⟩

/-- The certificate is exactly the sequence at the start, the signature what is left. -/
theorem splitCertificate_eq_ok : splitCertificate rest = .ok (certificate, signature) ↔
    rest = certificate ++ signature ∧ DerSequence certificate ∧ signature ≠ [] := by
  constructor
  · intro h
    obtain ⟨certLen, hlen, h⟩ := bind_eq_ok.mp h
    obtain ⟨hinside, h⟩ := guard_eq_ok.mp h
    obtain ⟨taken, htaken, h⟩ := bind_eq_ok.mp h
    obtain ⟨left, hleft, h⟩ := bind_eq_ok.mp h
    obtain ⟨hsome, h⟩ := guard_eq_ok.mp h
    cases h
    have hc := slice_eq_some.mp (orPanic_eq_ok.mp htaken)
    obtain ⟨-, rfl⟩ := tail_eq_ok.mp hleft
    have hwhole : rest = certificate ++ rest.drop certLen := hc.left
    have hstop : certificate.length = certLen := by
      have := hc.stops
      omega
    refine ⟨hwhole, ?_, hsome⟩
    rw [hwhole, ← hstop] at hlen
    exact derSequence_iff.mpr hlen
  · rintro ⟨rfl, hsequence, hsome⟩
    refine bind_eq_ok.mpr ⟨certificate.length, derSequence_iff.mp hsequence, ?_⟩
    refine guard_eq_ok.mpr ⟨by rw [List.length_append]; omega, ?_⟩
    refine bind_eq_ok.mpr
      ⟨certificate, orPanic_eq_ok.mpr (slice_eq_some.mpr consumes_left), ?_⟩
    refine bind_eq_ok.mpr ⟨signature, tail_eq_ok.mpr ⟨by rw [List.length_append]; omega, ?_⟩, ?_⟩
    · rw [List.drop_left]
    · exact guard_eq_ok.mpr ⟨hsome, rfl⟩

/-- Where the parts of a registration lie. -/
theorem registration_parts {key : Bytes} (hkey : key.length = 65)
    (hbytes : bytes = registration key keyHandle certificate signature) :
    Consumes bytes 0 (registerReserved :: key) 66 ∧
      bytes.drop 66 = UInt8.ofNat keyHandle.length :: (keyHandle ++ (certificate ++ signature)) ∧
      bytes.drop 67 = keyHandle ++ (certificate ++ signature) ∧
      bytes.length = 67 + keyHandle.length + (certificate ++ signature).length := by
  have hwhole : Consumes bytes 0 (registerReserved :: key) 66 := by
    have hc := @consumes_left (registerReserved :: key)
      (UInt8.ofNat keyHandle.length :: (keyHandle ++ (certificate ++ signature)))
    rw [List.length_cons, hkey, List.cons_append] at hc
    rw [hbytes]
    exact hc
  have hbehind : bytes.drop 66 =
      UInt8.ofNat keyHandle.length :: (keyHandle ++ (certificate ++ signature)) := by
    have hleft := hwhole.left
    rw [List.drop_zero, hbytes, registration, ← List.cons_append] at hleft
    rw [hbytes]
    exact (List.append_cancel_left hleft).symm
  refine ⟨hwhole, hbehind, ?_, ?_⟩
  · have hstep := congrArg List.tail hbehind
    rwa [List.tail_drop] at hstep
  · have hsum := congrArg List.length hbytes
    rw [registration, List.length_cons, List.length_append, hkey, List.length_cons,
      List.length_append] at hsum
    omega

theorem parseRegistration_sound {key : ByteArrayOf 65} {raw : Bytes}
    (h : parseRegistration bytes = .ok ⟨key, keyHandle, certificate, signature, raw⟩) :
    WellFormed key keyHandle certificate signature ∧
      bytes = registration key.1 keyHandle certificate signature ∧ raw = bytes := by
  obtain ⟨hsize, h⟩ := guard_eq_ok.mp h
  obtain ⟨reserved, hreserved, h⟩ := bind_eq_ok.mp h
  obtain ⟨point, hpoint, h⟩ := bind_eq_ok.mp h
  obtain ⟨hhead, h⟩ := guard_eq_ok.mp h
  obtain ⟨slice, hkey, h⟩ := bind_eq_ok.mp h
  obtain ⟨array, harray, h⟩ := bind_eq_ok.mp h
  obtain ⟨length, hlength, h⟩ := bind_eq_ok.mp h
  obtain ⟨behind, hbehind, h⟩ := bind_eq_ok.mp h
  obtain ⟨hroom, h⟩ := guard_eq_ok.mp h
  obtain ⟨handle, hhandle, h⟩ := bind_eq_ok.mp h
  obtain ⟨last, hlast, h⟩ := bind_eq_ok.mp h
  obtain ⟨⟨one, two⟩, hsplit, h⟩ := bind_eq_ok.mp h
  cases h
  obtain ⟨hfive, hfour⟩ : reserved = registerReserved ∧ point = sec1Uncompressed := by
    simpa using hhead
  have hzero := drop_of_getElem? (orPanic_eq_ok.mp hreserved)
  have hone := drop_of_getElem? (orPanic_eq_ok.mp hpoint)
  have hc := slice_eq_some.mp (orPanic_eq_ok.mp hkey)
  rw [← array_eq_ok.mp harray] at hc
  have hlen := drop_of_getElem? (orPanic_eq_ok.mp hlength)
  obtain ⟨-, rfl⟩ := tail_eq_ok.mp hbehind
  have hh := slice_eq_some.mp (orPanic_eq_ok.mp hhandle)
  obtain ⟨-, rfl⟩ := tail_eq_ok.mp hlast
  obtain ⟨hrest, hsequence, hsome⟩ := splitCertificate_eq_ok.mp hsplit
  have hcount : keyHandle.length = length.toNat := by
    have := hh.stops
    omega
  have hupper := length.toNat_lt
  refine ⟨⟨?_, by omega, hsequence, hsome⟩, ?_, rfl⟩
  · rw [← hfour]
    have hstart := congrArg List.head? (hc.left.symm.trans hone)
    have hne : key.1 ≠ [] := by
      have := key.2
      rintro hnil
      rw [hnil] at this
      cases this
    rwa [List.head?_append_of_ne_nil _ hne] at hstart
  · have hleft := hh.left
    rw [List.drop_zero, hrest] at hleft
    rw [registration, ← hfive, hcount, UInt8.ofNat_toNat, ← hleft, ← hlen, ← hc.left, ← hzero,
      List.drop_zero]

theorem parseRegistration_complete {key : ByteArrayOf 65}
    (h : WellFormed key keyHandle certificate signature)
    (hbytes : bytes = registration key.1 keyHandle certificate signature) :
    parseRegistration bytes = .ok ⟨key, keyHandle, certificate, signature, bytes⟩ := by
  obtain ⟨key, hkey⟩ := key
  obtain ⟨hpoint, ⟨hlower, hupper⟩, hsequence, hsome⟩ := h
  have hcount : (UInt8.ofNat keyHandle.length).toNat = keyHandle.length :=
    toNat_ofNat_of_lt (by omega)
  obtain ⟨hwhole, hbehind, hrest, hsize⟩ := registration_parts hkey hbytes
  obtain ⟨hzero, hc⟩ := consumes_cons.mp hwhole
  obtain ⟨tail, rfl⟩ : ∃ tail, key = sec1Uncompressed :: tail :=
    List.head?_eq_some_iff.mp hpoint
  obtain ⟨hone, -⟩ := consumes_cons.mp hc
  refine guard_eq_ok.mpr ⟨by rw [fixedRequestLen]; omega, ?_⟩
  refine bind_eq_ok.mpr ⟨_, orPanic_eq_ok.mpr hzero, ?_⟩
  refine bind_eq_ok.mpr ⟨_, orPanic_eq_ok.mpr hone, ?_⟩
  refine guard_eq_ok.mpr ⟨by simp, ?_⟩
  refine bind_eq_ok.mpr ⟨_, orPanic_eq_ok.mpr (slice_eq_some.mpr hc), ?_⟩
  refine bind_eq_ok.mpr ⟨⟨_, hkey⟩, array_eq_ok.mpr rfl, ?_⟩
  refine bind_eq_ok.mpr ⟨_, orPanic_eq_ok.mpr (getElem?_of_drop hbehind), ?_⟩
  refine bind_eq_ok.mpr ⟨_, tail_eq_ok.mpr ⟨by omega, hrest.symm⟩, ?_⟩
  rw [hcount]
  refine guard_eq_ok.mpr ⟨by rw [List.length_append]; omega, ?_⟩
  refine bind_eq_ok.mpr ⟨_, orPanic_eq_ok.mpr (slice_eq_some.mpr consumes_left), ?_⟩
  refine bind_eq_ok.mpr ⟨certificate ++ signature, tail_eq_ok.mpr ⟨?_, ?_⟩, ?_⟩
  · rw [List.length_append]
    omega
  · rw [List.drop_left]
  · have hsplit := splitCertificate_eq_ok.mpr ⟨rfl, hsequence, hsome⟩
    exact bind_eq_ok.mpr ⟨(certificate, signature), hsplit, rfl⟩

/-- A response is accepted exactly when well-formed parts put it together. -/
theorem parseRegistration_eq_ok {key : ByteArrayOf 65} {raw : Bytes} :
    parseRegistration bytes = .ok ⟨key, keyHandle, certificate, signature, raw⟩ ↔
      WellFormed key keyHandle certificate signature ∧
        bytes = registration key.1 keyHandle certificate signature ∧ raw = bytes := by
  constructor
  · exact parseRegistration_sound
  · rintro ⟨h, hbytes, rfl⟩
    exact parseRegistration_complete h hbytes

end registration

section safe

variable {bytes : Bytes} {count : ℕ}

theorem safe_byte {i : ℕ} (h : i < bytes.length) : Safe (orPanic bytes[i]?) :=
  safe_orPanic (by rw [List.getElem?_eq_getElem h]; rfl)

theorem safe_slice {i j : ℕ} (hij : i ≤ j) (hj : j ≤ bytes.length) :
    Safe (orPanic (slice bytes i j)) :=
  safe_orPanic (by rw [slice, if_pos ⟨hij, hj⟩]; rfl)

theorem derLongLen_safe (h : count < 128) : Safe (derLongLen bytes count) := by
  refine safe_bind (safe_add (Nat.le_trans (by omega : 2 + count ≤ 130) (by decide))) ?_
  intro stop hstop
  obtain ⟨rfl, -⟩ := add_eq_ok.mp hstop
  refine safe_guard ?_
  intro hcount
  refine safe_bind (safe_slice (by omega) (by omega)) ?_
  intro field hfield
  have hlen := (slice_eq_some.mp (orPanic_eq_ok.mp hfield)).stops
  have hvalue : ofBeBytes field < 256 ^ 2 :=
    Nat.lt_of_lt_of_le (ofBeBytes_lt field) (Nat.pow_le_pow_right (by decide) (by omega))
  rw [toNat_foldl_shiftIn (by omega)]
  exact safe_add (Nat.le_trans (by omega : 2 + count + ofBeBytes field ≤ 65540) (by decide))

theorem derSequenceLen_safe : Safe (derSequenceLen bytes) := by
  refine safe_guard ?_
  intro hsize
  refine safe_bind (safe_byte (by omega)) ?_
  intro tag _
  refine safe_guard ?_
  intro _
  refine safe_bind (safe_byte (by omega)) ?_
  intro first _
  by_cases hbit : first &&& 0x80 = 0
  · have hfirst := first.toNat_lt
    rw [if_pos hbit]
    exact safe_add (Nat.le_trans (by omega : 2 + first.toNat ≤ 300) (by decide))
  · rw [if_neg hbit]
    apply derLongLen_safe
    have hmask : ∀ b : UInt8, (b &&& 0x7f).toNat < 128 := forall_byte (by decide +kernel)
    exact hmask first

theorem splitCertificate_safe : Safe (splitCertificate bytes) := by
  refine safe_bind derSequenceLen_safe ?_
  intro certLen _
  refine safe_guard ?_
  intro hinside
  refine safe_bind (safe_slice (Nat.zero_le _) (by omega)) ?_
  intro certificate _
  refine safe_bind (tail_safe (by omega)) ?_
  intro signature _
  exact safe_guard fun _ => safe_ok _

/-- No index and no slice leaves the input, and no sum wraps. -/
theorem parseRegistration_safe : Safe (parseRegistration bytes) := by
  refine safe_guard ?_
  intro hsize
  rw [fixedRequestLen] at hsize
  refine safe_bind (safe_byte (by omega)) ?_
  intro reserved _
  refine safe_bind (safe_byte (by omega)) ?_
  intro point _
  refine safe_guard ?_
  intro _
  refine safe_bind (safe_slice (by decide) (by omega)) ?_
  intro key _
  refine safe_bind (array_safe 65 key) ?_
  intro userPublicKey _
  refine safe_bind (safe_byte (by omega)) ?_
  intro keyHandleLen _
  refine safe_bind (tail_safe (by omega)) ?_
  intro rest _
  refine safe_guard ?_
  intro hroom
  refine safe_bind (safe_slice (Nat.zero_le _) (by omega)) ?_
  intro keyHandle _
  refine safe_bind (tail_safe (by omega)) ?_
  intro last _
  exact safe_bind splitCertificate_safe fun _ _ => safe_ok _

end safe

/-- A response of well-formed parts is split into exactly these parts, what is accepted is put
together from the parts that are returned, and no input leads an index or a sum astray. -/
theorem registration_split_exact :
    (∀ (key : ByteArrayOf 65) (keyHandle certificate signature : Bytes),
      WellFormed key keyHandle certificate signature →
      parseRegistration (registration key.1 keyHandle certificate signature) =
        .ok ⟨key, keyHandle, certificate, signature,
          registration key.1 keyHandle certificate signature⟩) ∧
    (∀ bytes r, parseRegistration bytes = .ok r →
      bytes = registration r.userPublicKey.1 r.keyHandle r.certificate r.signature ∧
        WellFormed r.userPublicKey r.keyHandle r.certificate r.signature ∧ r.raw = bytes) ∧
    (∀ bytes, parseRegistration bytes ≠ .error .panicked) ∧
    (∀ rest n, derSequenceLen rest = .ok n → n < 65540) := by
  refine ⟨?_, ?_, ?_, ?_⟩
  · intro key keyHandle certificate signature hparts
    exact parseRegistration_eq_ok.mpr ⟨hparts, rfl, rfl⟩
  · intro bytes r h
    obtain ⟨hparts, hbytes, hraw⟩ := parseRegistration_eq_ok.mp h
    exact ⟨hbytes, hparts, hraw⟩
  · intro bytes
    exact parseRegistration_safe
  · intro rest n h
    obtain ⟨field, len, hfield, -, rfl⟩ := derSequenceLen_iff.mp h
    obtain ⟨hlength, hlen⟩ := hfield.bounds
    omega

/-- An empty certificate behind a length field that is longer than it need be. -/
theorem registration_split_exact_nonminimal :
    ∃ r, parseRegistration (registration (0x04 :: List.replicate 64 0) [9] [0x30, 0x81, 0] [7]) =
        .ok r ∧ r.keyHandle = [9] ∧ r.certificate = [0x30, 0x81, 0] ∧ r.signature = [7] := by
  have hcertificate : DerSequence [0x30, 0x81, 0] := ⟨[0x81, 0], [], .oneByte 0, rfl⟩
  exact ⟨_, registration_split_exact.1 ⟨0x04 :: List.replicate 64 0, rfl⟩ [9] [0x30, 0x81, 0] [7]
    ⟨rfl, by decide, hcertificate, by decide⟩, rfl, rfl, rfl⟩

end CtapU2f
