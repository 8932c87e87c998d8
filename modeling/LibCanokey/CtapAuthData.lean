import LibCanokey.CtapCborParser
import LibCanokey.CtapCborCanonical
import LibCanokey.CtapCose

/-! # Authenticator data

The parser of `authenticatorData` and the grammar of its sections: the attested credential
with one COSE key and the extensions, each present as its flag says. -/
namespace CtapAuthData

open BigEndian CheckedCursor ListTraversal ProtocolError CtapCbor CtapCborLanguage
open CtapCborParser CtapCborCanonical CtapCose

def minLen : ℕ := 37

def maxLen : ℕ := 65536

def maxCredentialIdLen : ℕ := 1023

/-- A byte array of a fixed size. -/
abbrev ByteArrayOf (n : ℕ) := {b : Bytes // b.length = n}

structure AttestedCredentialData where
  aaguid : ByteArrayOf 16
  credentialId : {id : Bytes // 1 ≤ id.length ∧ id.length ≤ maxCredentialIdLen}
  credentialPublicKey : CoseKey
  deriving DecidableEq

structure AuthenticatorData where
  raw : Bytes
  rpIdHash : ByteArrayOf 32
  flags : UInt8
  signCount : UInt32
  attestedCredentialData : Option AttestedCredentialData
  extensions : Option Value
  deriving DecidableEq

def flagBe : UInt8 := 0x08
def flagBs : UInt8 := 0x10
def flagAt : UInt8 := 0x40
def flagEd : UInt8 := 0x80

/-- `try_into` of a slice. -/
def array (n : ℕ) (bytes : Bytes) : Outcome (ByteArrayOf n) :=
  if h : bytes.length = n then pure ⟨bytes, h⟩ else refuse invalid

/-- `&bytes[pos..]`. -/
def tail (bytes : Bytes) (pos : ℕ) : Outcome Bytes :=
  orPanic (if pos ≤ bytes.length then some (bytes.drop pos) else none)

/-- `?` on a result that cannot panic. -/
def returned {α : Type} (x : Except Error α) : Outcome α := x.mapError .refused

/-- The credential ID of a length read before it. -/
def credentialId (bytes : Bytes) (pos length : ℕ) :
    Outcome ({id : Bytes // 1 ≤ id.length ∧ id.length ≤ maxCredentialIdLen} × ℕ) := do
  let stop ← add pos length
  let id ← orRefuse (slice bytes pos stop) invalid
  if h : 1 ≤ id.length ∧ id.length ≤ maxCredentialIdLen then pure (⟨id, h⟩, stop)
  else refuse invalid

def attestedSection (bytes : Bytes) (pos : ℕ) : Outcome (AttestedCredentialData × ℕ) := do
  let stop ← add pos 18
  let header ← orRefuse (slice bytes pos stop) invalid
  let first ← orPanic (slice header 0 16)
  let aaguid ← array 16 first
  let high ← orPanic header[16]?
  let low ← orPanic header[17]?
  let idLen := ofBeBytes [high, low]
  if ¬ (1 ≤ idLen ∧ idLen ≤ maxCredentialIdLen) then refuse invalid
  else do
    let (id, stop) ← credentialId bytes stop idLen
    let rest ← tail bytes stop
    let (value, consumed) ← parseItem rest
    let stop ← add stop consumed
    let key ← returned (CoseKey.fromValue value)
    pure (⟨aaguid, id, key⟩, stop)

def extensionSection (bytes : Bytes) (pos : ℕ) : Outcome (Value × ℕ) := do
  let rest ← tail bytes pos
  let (value, consumed) ← parseItem rest
  let entries ← orRefuse value.asMap invalid
  if entries.any fun entry => entry.1.asText.isNone then refuse invalid
  else do
    let stop ← add pos consumed
    pure (value, stop)

/-- A section that is read when its flag is set. -/
def optional {α : Type} (flags flag : UInt8) (part : ℕ → Outcome (α × ℕ)) (pos : ℕ) :
    Outcome (Option α × ℕ) :=
  if flags &&& flag ≠ 0 then do
    let (value, stop) ← part pos
    pure (some value, stop)
  else pure (none, pos)

def AuthenticatorData.parse (bytes : Bytes) : Outcome AuthenticatorData :=
  if bytes.length < minLen ∨ bytes.length > maxLen then refuse invalid
  else do
    let hash ← orPanic (slice bytes 0 32)
    let rpIdHash ← array 32 hash
    let flags ← orPanic bytes[32]?
    let count ← orPanic (slice bytes 33 37)
    let count ← array 4 count
    if flags &&& flagBs ≠ 0 ∧ flags &&& flagBe = 0 then refuse invalid
    else do
      let (attested, pos) ← optional flags flagAt (attestedSection bytes) 37
      let (extensions, pos) ← optional flags flagEd (extensionSection bytes) pos
      if pos ≠ bytes.length then refuse invalid
      else pure ⟨bytes, rpIdHash, flags, UInt32.ofNat (ofBeBytes count.1), attested, extensions⟩

/-! ## The grammar -/

structure AttestedParts where
  aaguid : Bytes
  id : Bytes
  key : Bytes

def AttestedParts.bytes (p : AttestedParts) : Bytes :=
  p.aaguid ++ (toBeBytes 2 p.id.length ++ (p.id ++ p.key))

structure Parts where
  rpIdHash : Bytes
  flags : UInt8
  signCount : Bytes
  attested : Option AttestedParts
  extensions : Option Bytes

def Parts.bytes (p : Parts) : Bytes :=
  p.rpIdHash ++ (p.flags :: (p.signCount ++
    ((p.attested.map AttestedParts.bytes).getD [] ++ p.extensions.getD [])))

/-- A part that is there when its flag is set, and what is read from it. -/
inductive Present {α β : Type} (flag : Prop) (Reads : α → β → Prop) :
    Option α → Option β → Prop where
  | absent (h : ¬ flag) : Present flag Reads none none
  | present {a : α} {b : β} (h : flag) (hr : Reads a b) : Present flag Reads (some a) (some b)

structure AttestedReads (p : AttestedParts) (d : AttestedCredentialData) : Prop where
  aaguid : d.aaguid.1 = p.aaguid
  id : d.credentialId.1 = p.id
  key : ∃ v, Strict p.key v ∧ CoseKey.fromValue v = .ok d.credentialPublicKey

/-- One strict map with text keys. -/
structure ExtensionReads (p : Bytes) (v : Value) : Prop where
  item : Strict p v
  keys : ∃ entries, v = .map entries ∧ ∀ entry ∈ entries, entry.1.asText.isSome = true

/-- A byte string, its division into sections and what they hold. -/
structure Divides (bytes : Bytes) (p : Parts) (d : AuthenticatorData) : Prop where
  size : minLen ≤ bytes.length ∧ bytes.length ≤ maxLen
  whole : p.bytes = bytes
  rpIdHash : d.rpIdHash.1 = p.rpIdHash
  flags : d.flags = p.flags
  signCount : p.signCount = toBeBytes 4 d.signCount.toNat
  backup : p.flags &&& flagBs ≠ 0 → p.flags &&& flagBe ≠ 0
  attested : Present (p.flags &&& flagAt ≠ 0) AttestedReads p.attested d.attestedCredentialData
  extensions : Present (p.flags &&& flagEd ≠ 0) ExtensionReads p.extensions d.extensions
  raw : d.raw = bytes

section reading

variable {bytes : Bytes} {pos stop : ℕ}

theorem array_eq_ok {n : ℕ} {a : ByteArrayOf n} : array n bytes = .ok a ↔ a.1 = bytes := by
  rw [array]
  constructor
  · intro h
    by_cases hlen : bytes.length = n
    · rw [dif_pos hlen] at h
      cases h
      rfl
    · rw [dif_neg hlen] at h
      cases h
  · rintro rfl
    exact dif_pos a.2

theorem tail_eq_ok {rest : Bytes} :
    tail bytes pos = .ok rest ↔ pos ≤ bytes.length ∧ rest = bytes.drop pos := by
  rw [tail, orPanic_eq_ok]
  split_ifs with h
  · simp [h, eq_comm]
  · simp [h]

theorem returned_eq_ok {α : Type} {x : Except Error α} {y : α} :
    returned x = .ok y ↔ x = .ok y := by
  cases x with
  | error e =>
    constructor
    · intro h
      cases h
    · intro h
      cases h
  | ok z =>
    constructor
    · intro h
      cases h
      rfl
    · intro h
      cases h
      rfl

theorem strict_iff {v : Value} {b : Bytes} : Strict b v ↔ b = wire v ∧ Good maxDepth v := by
  constructor
  · rintro ⟨he, hd, hk⟩
    obtain ⟨hs, hb⟩ := encodes_iff.mp he
    exact ⟨hb, hs, hd, hk⟩
  · rintro ⟨hb, hs, hd, hk⟩
    exact ⟨encodes_iff.mpr ⟨hs, hb⟩, hd, hk⟩

/-- One item from a place on consumes exactly its strict encoding. -/
theorem item_eq_ok (ha : bytes.length ≤ usizeMax) (hpos : pos ≤ bytes.length) {v : Value} {n : ℕ} :
    parseItem (bytes.drop pos) = .ok (v, n) ↔
      ∃ item, Consumes bytes pos item (pos + n) ∧ Strict item v := by
  have hlen : (bytes.drop pos).length ≤ usizeMax := by
    rw [List.length_drop]
    omega
  rw [parseItem, parseAt_eq_ok hlen (le_refl _), consumes_drop hpos]
  constructor
  · rintro ⟨hc, hg⟩
    exact ⟨wire v, hc, strict_iff.mpr ⟨rfl, hg⟩⟩
  · rintro ⟨item, hc, hs⟩
    obtain ⟨rfl, hg⟩ := strict_iff.mp hs
    exact ⟨hc, hg⟩

theorem credentialId_eq_ok (ha : bytes.length ≤ usizeMax) {length : ℕ}
    {id : {id : Bytes // 1 ≤ id.length ∧ id.length ≤ maxCredentialIdLen}} :
    credentialId bytes pos length = .ok (id, stop) ↔
      Consumes bytes pos id.1 stop ∧ id.1.length = length := by
  constructor
  · intro h
    obtain ⟨stop', hstop, h⟩ := bind_eq_ok.mp h
    obtain ⟨raw, hraw, h⟩ := bind_eq_ok.mp h
    have hc := slice_eq_some.mp (orRefuse_eq_ok.mp hraw)
    by_cases hlen : 1 ≤ raw.length ∧ raw.length ≤ maxCredentialIdLen
    · rw [dif_pos hlen] at h
      cases h
      have := hc.stops
      have := (add_eq_ok.mp hstop).1
      exact ⟨hc, by dsimp only; omega⟩
    · rw [dif_neg hlen] at h
      cases h
  · rintro ⟨hc, rfl⟩
    have hstop := hc.stops
    have hin := hc.inside
    refine bind_eq_ok.mpr ⟨stop, add_eq_ok.mpr ⟨hstop, by omega⟩, ?_⟩
    refine bind_eq_ok.mpr ⟨id.1, orRefuse_eq_ok.mpr (slice_eq_some.mpr hc), ?_⟩
    exact dif_pos id.2

/-- The header of the section: the AAGUID and the two bytes of the length. -/
theorem header_split {header : Bytes} (h : header.length = 18) :
    ∃ aaguid high low, header = aaguid ++ [high, low] ∧ aaguid.length = 16 ∧
      slice header 0 16 = some aaguid ∧ header[16]? = some high ∧ header[17]? = some low := by
  have hdrop : (header.drop 16).length = 2 := by
    rw [List.length_drop]
    omega
  obtain ⟨high, low, htwo⟩ := List.length_eq_two.mp hdrop
  have htake : (header.take 16).length = 16 := by
    rw [List.length_take]
    omega
  have hheader : header = header.take 16 ++ [high, low] := by
    rw [← htwo, List.take_append_drop]
  refine ⟨header.take 16, high, low, hheader, htake, ?_, getElem?_of_drop htwo, ?_⟩
  · rw [slice, if_pos ⟨Nat.zero_le _, by omega⟩]
    rfl
  · apply @getElem?_of_drop header [] low 17
    rw [show header.drop 17 = (header.drop 16).drop 1 by rw [List.drop_drop], htwo]
    rfl

theorem attestedSection_eq_ok (ha : bytes.length ≤ usizeMax) {d : AttestedCredentialData} :
    attestedSection bytes pos = .ok (d, stop) ↔
      ∃ p, Consumes bytes pos p.bytes stop ∧ AttestedReads p d := by
  constructor
  · intro h
    obtain ⟨middle, hmiddle, h⟩ := bind_eq_ok.mp h
    obtain ⟨header, hheader, h⟩ := bind_eq_ok.mp h
    have hc := slice_eq_some.mp (orRefuse_eq_ok.mp hheader)
    have hlen : header.length = 18 := by
      have := hc.stops
      have := (add_eq_ok.mp hmiddle).1
      omega
    obtain ⟨first, high, low, hsplit, hfirst, hslice, hhigh, hlow⟩ := header_split hlen
    obtain ⟨first', hf, h⟩ := bind_eq_ok.mp h
    obtain ⟨aaguid, haaguid, h⟩ := bind_eq_ok.mp h
    obtain ⟨high', hh, h⟩ := bind_eq_ok.mp h
    obtain ⟨low', hl, h⟩ := bind_eq_ok.mp h
    cases hslice.symm.trans (orPanic_eq_ok.mp hf)
    cases hhigh.symm.trans (orPanic_eq_ok.mp hh)
    cases hlow.symm.trans (orPanic_eq_ok.mp hl)
    obtain ⟨_, h⟩ := guard_eq_ok.mp h
    obtain ⟨⟨id, next⟩, hid, h⟩ := bind_eq_ok.mp h
    obtain ⟨rest, hrest, h⟩ := bind_eq_ok.mp h
    obtain ⟨⟨value, consumed⟩, hvalue, h⟩ := bind_eq_ok.mp h
    obtain ⟨last, hlast, h⟩ := bind_eq_ok.mp h
    obtain ⟨key, hkey, h⟩ := bind_eq_ok.mp h
    cases h
    obtain ⟨hidc, hidlen⟩ := (credentialId_eq_ok ha).mp hid
    obtain ⟨hnext, rfl⟩ := tail_eq_ok.mp hrest
    obtain ⟨item, hitem, hstrict⟩ := (item_eq_ok ha hnext).mp hvalue
    obtain ⟨rfl, _⟩ := add_eq_ok.mp hlast
    refine ⟨⟨first, id.1, item⟩, ?_, ⟨array_eq_ok.mp haaguid, rfl, value, hstrict,
      returned_eq_ok.mp hkey⟩⟩
    have htwo : toBeBytes 2 id.1.length = [high, low] := by
      rw [hidlen]
      exact toBeBytes_ofBeBytes [high, low]
    rw [AttestedParts.bytes, htwo, ← List.append_assoc, ← hsplit]
    exact hc.trans (hidc.trans hitem)
  · rintro ⟨⟨aaguid, id, item⟩, hc, ⟨haaguid, hid, value, hstrict, hkey⟩⟩
    obtain ⟨daaguid, did, dkey⟩ := d
    dsimp only at haaguid hid hstrict hkey
    have hbounds := did.2
    rw [hid] at hbounds
    have hcount : id.length < 256 ^ 2 := by
      simp only [maxCredentialIdLen] at hbounds
      omega
    have hheader : AttestedParts.bytes ⟨aaguid, id, item⟩ =
        (aaguid ++ toBeBytes 2 id.length) ++ (id ++ item) := by
      rw [AttestedParts.bytes, List.append_assoc]
    rw [hheader] at hc
    obtain ⟨middle, hc, hrest⟩ := consumes_append.mp hc
    obtain ⟨next, hidc, hitem⟩ := consumes_append.mp hrest
    have hwidth : aaguid.length = 16 := by
      rw [← haaguid]
      exact daaguid.2
    have hlen : (aaguid ++ toBeBytes 2 id.length).length = 18 := by
      rw [List.length_append, length_toBeBytes, hwidth]
    obtain ⟨first, high, low, hsplit, hfirst, hslice, hhigh, hlow⟩ := header_split hlen
    obtain ⟨rfl, htwo⟩ := List.append_inj hsplit (by rw [hwidth, hfirst])
    have hvalue : ofBeBytes [high, low] = id.length := by
      rw [← htwo, ofBeBytes_toBeBytes hcount]
    have hstops := hc.stops
    have hinside := hidc.inside
    have hend := hitem.stops
    have hlast := hitem.inside
    have hmiddle := hc.inside
    refine bind_eq_ok.mpr ⟨middle, add_eq_ok.mpr ⟨by omega, by omega⟩, ?_⟩
    refine bind_eq_ok.mpr ⟨_, orRefuse_eq_ok.mpr (slice_eq_some.mpr hc), ?_⟩
    refine bind_eq_ok.mpr ⟨aaguid, orPanic_eq_ok.mpr hslice, ?_⟩
    refine bind_eq_ok.mpr ⟨daaguid, array_eq_ok.mpr haaguid, ?_⟩
    refine bind_eq_ok.mpr ⟨high, orPanic_eq_ok.mpr hhigh, ?_⟩
    refine bind_eq_ok.mpr ⟨low, orPanic_eq_ok.mpr hlow, ?_⟩
    refine guard_eq_ok.mpr ⟨by rw [hvalue]; exact not_not.mpr hbounds, ?_⟩
    rw [hvalue]
    refine bind_eq_ok.mpr ⟨(did, next), (credentialId_eq_ok ha).mpr ?_, ?_⟩
    · rw [hid]
      exact ⟨hidc, rfl⟩
    · refine bind_eq_ok.mpr ⟨_, tail_eq_ok.mpr ⟨hinside, rfl⟩, ?_⟩
      refine bind_eq_ok.mpr ⟨(value, item.length), (item_eq_ok ha hinside).mpr
        ⟨item, by rw [hend]; exact hitem, hstrict⟩, ?_⟩
      refine bind_eq_ok.mpr ⟨stop, add_eq_ok.mpr ⟨hend, by omega⟩, ?_⟩
      exact bind_eq_ok.mpr ⟨dkey, returned_eq_ok.mpr hkey, rfl⟩

theorem textKeyed_iff {v : Value} :
    (∃ entries, v.asMap = some entries ∧
      ¬ (entries.any fun entry => entry.1.asText.isNone) = true) ↔
      ∃ entries, v = .map entries ∧ ∀ entry ∈ entries, entry.1.asText.isSome = true := by
  have hmap {entries : List (Value × Value)} : v.asMap = some entries ↔ v = .map entries := by
    cases v <;> simp [Value.asMap]
  simp only [hmap, List.any_eq_true, not_exists, not_and, Bool.not_eq_true,
    Option.isNone_eq_false_iff]

theorem extensionSection_eq_ok (ha : bytes.length ≤ usizeMax) (hpos : pos ≤ bytes.length)
    {v : Value} : extensionSection bytes pos = .ok (v, stop) ↔
      ∃ p, Consumes bytes pos p stop ∧ ExtensionReads p v := by
  constructor
  · intro h
    obtain ⟨rest, hrest, h⟩ := bind_eq_ok.mp h
    obtain ⟨⟨value, consumed⟩, hvalue, h⟩ := bind_eq_ok.mp h
    obtain ⟨entries, hentries, h⟩ := bind_eq_ok.mp h
    obtain ⟨hkeys, h⟩ := guard_eq_ok.mp h
    obtain ⟨last, hlast, h⟩ := bind_eq_ok.mp h
    cases h
    obtain ⟨_, rfl⟩ := tail_eq_ok.mp hrest
    obtain ⟨item, hitem, hstrict⟩ := (item_eq_ok ha hpos).mp hvalue
    obtain ⟨rfl, _⟩ := add_eq_ok.mp hlast
    exact ⟨item, hitem, hstrict, textKeyed_iff.mp ⟨entries, orRefuse_eq_ok.mp hentries, hkeys⟩⟩
  · rintro ⟨item, hc, hstrict, hkeys⟩
    obtain ⟨entries, hentries, hkeys⟩ := textKeyed_iff.mpr hkeys
    have hend := hc.stops
    have hinside := hc.inside
    refine bind_eq_ok.mpr ⟨_, tail_eq_ok.mpr ⟨hpos, rfl⟩, ?_⟩
    refine bind_eq_ok.mpr ⟨(v, item.length), (item_eq_ok ha hpos).mpr
      ⟨item, by rw [hend]; exact hc, hstrict⟩, ?_⟩
    refine bind_eq_ok.mpr ⟨entries, orRefuse_eq_ok.mpr hentries, ?_⟩
    refine guard_eq_ok.mpr ⟨hkeys, ?_⟩
    exact bind_eq_ok.mpr ⟨stop, add_eq_ok.mpr ⟨hend, by omega⟩, rfl⟩

/-- A section is read, or skipped, as its flag says. -/
theorem optional_eq_ok {α β : Type} {flags flag : UInt8} {part : ℕ → Outcome (α × ℕ)}
    {Reads : β → α → Prop} {content : β → Bytes} (hin : pos ≤ bytes.length)
    (hpart : ∀ {value stop}, part pos = .ok (value, stop) ↔
      ∃ p, Consumes bytes pos (content p) stop ∧ Reads p value) {value : Option α} :
    optional flags flag part pos = .ok (value, stop) ↔
      ∃ p, Consumes bytes pos ((p.map content).getD []) stop ∧
        Present (flags &&& flag ≠ 0) Reads p value := by
  rw [optional]
  by_cases hflag : flags &&& flag ≠ 0
  · rw [if_pos hflag]
    constructor
    · intro h
      obtain ⟨⟨found, last⟩, hfound, h⟩ := bind_eq_ok.mp h
      cases h
      obtain ⟨p, hc, hr⟩ := hpart.mp hfound
      exact ⟨some p, hc, .present hflag hr⟩
    · rintro ⟨p, hc, hp⟩
      cases hp with
      | absent h => exact absurd hflag h
      | present _ hr => exact bind_eq_ok.mpr ⟨(_, stop), hpart.mpr ⟨_, hc, hr⟩, rfl⟩
  · rw [if_neg hflag]
    constructor
    · intro h
      cases h
      exact ⟨none, consumes_nil.mpr ⟨rfl, hin⟩, .absent hflag⟩
    · rintro ⟨p, hc, hp⟩
      cases hp with
      | absent _ =>
        obtain ⟨rfl, _⟩ := consumes_nil.mp hc
        rfl
      | present h _ => exact absurd h hflag

/-- The parser accepts exactly the divided byte strings. -/
theorem parse_eq_ok {d : AuthenticatorData} :
    AuthenticatorData.parse bytes = .ok d ↔ ∃ p, Divides bytes p d := by
  have hmax : maxLen ≤ usizeMax := by decide
  constructor
  · intro h
    obtain ⟨hsize, h⟩ := guard_eq_ok.mp h
    have hsize : minLen ≤ bytes.length ∧ bytes.length ≤ maxLen := by omega
    have ha : bytes.length ≤ usizeMax := Nat.le_trans hsize.2 hmax
    obtain ⟨hash, hhash, h⟩ := bind_eq_ok.mp h
    obtain ⟨rpIdHash, hrp, h⟩ := bind_eq_ok.mp h
    obtain ⟨flags, hflags, h⟩ := bind_eq_ok.mp h
    obtain ⟨count, hcount, h⟩ := bind_eq_ok.mp h
    obtain ⟨word, hword, h⟩ := bind_eq_ok.mp h
    obtain ⟨hbackup, h⟩ := guard_eq_ok.mp h
    obtain ⟨⟨attested, middle⟩, hattested, h⟩ := bind_eq_ok.mp h
    obtain ⟨⟨extensions, last⟩, hextensions, h⟩ := bind_eq_ok.mp h
    obtain ⟨hend, h⟩ := guard_eq_ok.mp h
    cases h
    have hhash := slice_eq_some.mp (orPanic_eq_ok.mp hhash)
    have hcount := slice_eq_some.mp (orPanic_eq_ok.mp hcount)
    obtain ⟨p, hp, hreads⟩ := (optional_eq_ok hcount.inside
      (fun {_ _} => attestedSection_eq_ok ha)).mp hattested
    obtain ⟨e, he, hreads'⟩ := (@optional_eq_ok bytes middle last Value Bytes flags flagEd
      (extensionSection bytes) ExtensionReads (fun e => e) hp.inside
      (fun {_ _} => extensionSection_eq_ok ha hp.inside) extensions).mp hextensions
    refine ⟨⟨hash, flags, count, p, e⟩, hsize, ?_, array_eq_ok.mp hrp, rfl, ?_, ?_, hreads, hreads',
      rfl⟩
    · rw [not_not.mp hend] at he
      rw [Option.map_id'] at he
      have hflag : Consumes bytes 32 [flags] 33 :=
        consumes_cons.mpr ⟨orPanic_eq_ok.mp hflags, consumes_nil.mpr ⟨rfl, by
          have := hcount.inside
          omega⟩⟩
      exact consumes_all.mp (hhash.trans (hflag.trans (hcount.trans (hp.trans he))))
    · have hfour := array_eq_ok.mp hword
      have hbound : ofBeBytes word.1 < 2 ^ 32 := by
        have hlt := ofBeBytes_lt word.1
        rw [word.2] at hlt
        exact hlt
      have hvalue : (UInt32.ofNat (ofBeBytes word.1)).toNat = ofBeBytes word.1 :=
        UInt32.toNat_ofNat_of_lt' hbound
      have hbytes := toBeBytes_ofBeBytes word.1
      rw [word.2] at hbytes
      dsimp only
      rw [hvalue, hbytes, hfour]
    · intro hbs hbe
      exact hbackup ⟨hbs, hbe⟩
  · rintro ⟨⟨hash, flags, count, attested, extensions⟩, h⟩
    obtain ⟨raw, rpIdHash, flags', word, attested', extensions'⟩ := d
    obtain ⟨hsize, hwhole, hrp, hflags, hcount, hbackup, hattested, hextensions, hraw⟩ := h
    dsimp only at hrp hflags hcount hattested hextensions hraw hbackup
    subst hflags hraw
    have ha : raw.length ≤ usizeMax := Nat.le_trans hsize.2 hmax
    have hall := consumes_all.mpr hwhole
    obtain ⟨i, hhash, hall⟩ := consumes_append.mp hall
    obtain ⟨hflag, hall⟩ := consumes_cons.mp hall
    obtain ⟨j, hc, hall⟩ := consumes_append.mp hall
    obtain ⟨k, hp, he⟩ := consumes_append.mp hall
    have hi : i = 32 := by
      have hstops := hhash.stops
      have hwidth := rpIdHash.2
      rw [hrp] at hwidth
      dsimp only at hstops
      omega
    subst hi
    have hfour : count.length = 4 := by rw [hcount, length_toBeBytes]
    have hj : j = 37 := by
      have hstops := hc.stops
      dsimp only at hstops
      omega
    subst hj
    have hvalue : UInt32.ofNat (ofBeBytes count) = word := by
      rw [hcount, ofBeBytes_toBeBytes (show word.toNat < 256 ^ 4 from word.toNat_lt)]
      exact UInt32.ofNat_toNat
    refine guard_eq_ok.mpr ⟨by omega, ?_⟩
    refine bind_eq_ok.mpr ⟨hash, orPanic_eq_ok.mpr (slice_eq_some.mpr hhash), ?_⟩
    refine bind_eq_ok.mpr ⟨rpIdHash, array_eq_ok.mpr hrp, ?_⟩
    refine bind_eq_ok.mpr ⟨flags', orPanic_eq_ok.mpr hflag, ?_⟩
    refine bind_eq_ok.mpr ⟨count, orPanic_eq_ok.mpr (slice_eq_some.mpr hc), ?_⟩
    refine bind_eq_ok.mpr ⟨⟨count, hfour⟩, array_eq_ok.mpr rfl, ?_⟩
    refine guard_eq_ok.mpr ⟨fun hbad => hbackup hbad.1 hbad.2, ?_⟩
    refine bind_eq_ok.mpr ⟨(attested', k), (optional_eq_ok hc.inside
      (fun {_ _} => attestedSection_eq_ok ha)).mpr ⟨attested, hp, hattested⟩, ?_⟩
    refine bind_eq_ok.mpr ⟨(extensions', raw.length), (@optional_eq_ok raw k raw.length Value Bytes
      flags' flagEd (extensionSection raw) ExtensionReads (fun e => e) hp.inside
      (fun {_ _} => extensionSection_eq_ok ha hp.inside) extensions').mpr
        ⟨extensions, by rw [Option.map_id']; exact he, hextensions⟩, ?_⟩
    refine guard_eq_ok.mpr ⟨not_not.mpr rfl, ?_⟩
    rw [hvalue]
    rfl

end reading

section unique

variable {bytes : Bytes} {p p' : Parts} {d d' : AuthenticatorData}

theorem extensions_unique {flag : Prop} {e e' : Option Bytes} {v v' : Option Value}
    (h : Present flag ExtensionReads e v) (h' : Present flag ExtensionReads e' v')
    (heq : e.getD [] = e'.getD []) : e = e' := by
  cases h with
  | absent hno =>
    cases h' with
    | absent => rfl
    | present hyes => exact absurd hyes hno
  | present hyes =>
    cases h' with
    | absent hno => exact absurd hyes hno
    | present => exact congrArg some heq

/-- Attested sections of one credential that start alike hold the same item. -/
theorem attested_unique {a : AttestedCredentialData} {q q' : AttestedParts} {r r' : Bytes}
    (h : AttestedReads q a) (h' : AttestedReads q' a) (heq : q.bytes ++ r = q'.bytes ++ r') :
    q = q' ∧ r = r' := by
  obtain ⟨aaguid, id, key⟩ := q
  obtain ⟨aaguid', id', key'⟩ := q'
  obtain ⟨hguid, hid, v, hv, _⟩ := h
  obtain ⟨hguid', hid', v', hv', _⟩ := h'
  dsimp only at hguid hid hguid' hid' hv hv'
  obtain ⟨rfl, hg⟩ := strict_iff.mp hv
  obtain ⟨rfl, hg'⟩ := strict_iff.mp hv'
  subst hguid hid hguid' hid'
  simp only [AttestedParts.bytes, List.append_assoc, List.append_cancel_left_eq] at heq
  obtain ⟨rfl, hr⟩ := wire_determined hg.storable hg'.storable heq
  exact ⟨rfl, hr⟩

/-- A byte string divides in one way. -/
theorem divides_unique (h : Divides bytes p d) (h' : Divides bytes p' d') : p = p' ∧ d = d' := by
  have hd : d = d' := by
    have hparse := parse_eq_ok.mpr ⟨p, h⟩
    rw [parse_eq_ok.mpr ⟨p', h'⟩] at hparse
    exact (Except.ok.inj hparse).symm
  subst hd
  refine ⟨?_, rfl⟩
  obtain ⟨hash, flags, count, attested, extensions⟩ := p
  obtain ⟨hash', flags', count', attested', extensions'⟩ := p'
  have hwhole := h.whole.trans h'.whole.symm
  have hhash := h.rpIdHash.symm.trans h'.rpIdHash
  have hflags := h.flags.symm.trans h'.flags
  have hcount := h.signCount.trans h'.signCount.symm
  dsimp only at hhash hflags hcount
  subst hhash hflags hcount
  simp only [Parts.bytes, List.append_cancel_left_eq, List.cons.injEq, true_and] at hwhole
  have hattested := h.attested
  have hattested' := h'.attested
  have hextensions := h.extensions
  have hextensions' := h'.extensions
  dsimp only at hattested hattested' hextensions hextensions'
  have hsame : attested = attested' ∧ extensions.getD [] = extensions'.getD [] := by
    generalize d.attestedCredentialData = a at hattested hattested'
    cases hattested with
    | absent _ =>
      cases hattested'
      exact ⟨rfl, hwhole⟩
    | present _ hr =>
      cases hattested' with
      | present _ hr' =>
        obtain ⟨rfl, hrest⟩ := attested_unique hr hr' hwhole
        exact ⟨rfl, hrest⟩
  obtain ⟨rfl, hrest⟩ := hsame
  rw [extensions_unique hextensions hextensions' hrest]

end unique

section safe

variable {bytes : Bytes} {pos : ℕ}

theorem safe_orPanic {α : Type} {x : Option α} (h : x.isSome = true) : Safe (orPanic x) := by
  obtain ⟨y, rfl⟩ := Option.isSome_iff_exists.mp h
  exact safe_ok y

theorem array_safe (n : ℕ) (bytes : Bytes) : Safe (array n bytes) := by
  rw [array]
  by_cases h : bytes.length = n
  · rw [dif_pos h]
    exact safe_ok _
  · rw [dif_neg h]
    exact safe_refuse _

theorem tail_safe (h : pos ≤ bytes.length) : Safe (tail bytes pos) := by
  rw [tail, if_pos h]
  exact safe_ok _

theorem returned_safe {α : Type} (x : Except Error α) : Safe (returned x) := by
  cases x with
  | error e => exact safe_refuse e
  | ok y => exact safe_ok y

theorem parseItem_safe (ha : bytes.length ≤ usizeMax) : Safe (parseItem (bytes.drop pos)) := by
  apply parseAt_safe
  rw [List.length_drop]
  omega

/-- The cursor after an item is still inside the input. -/
theorem item_inside (ha : bytes.length ≤ usizeMax) (hpos : pos ≤ bytes.length) {v : Value} {n : ℕ}
    (h : parseItem (bytes.drop pos) = .ok (v, n)) : pos + n ≤ bytes.length := by
  obtain ⟨_, hc, _⟩ := (item_eq_ok ha hpos).mp h
  exact hc.inside

theorem credentialId_safe (hsize : bytes.length ≤ maxLen) (hpos : pos ≤ bytes.length)
    {length : ℕ} (hlen : length ≤ maxCredentialIdLen) : Safe (credentialId bytes pos length) := by
  have hroom : maxLen + maxCredentialIdLen ≤ usizeMax := by decide
  refine safe_bind (safe_add (by omega)) fun stop _ => ?_
  refine safe_bind (safe_orRefuse _ _) fun id _ => ?_
  by_cases hid : 1 ≤ id.length ∧ id.length ≤ maxCredentialIdLen
  · rw [dif_pos hid]
    exact safe_ok _
  · rw [dif_neg hid]
    exact safe_refuse _

theorem attestedSection_safe (hsize : bytes.length ≤ maxLen) (hpos : pos ≤ bytes.length) :
    Safe (attestedSection bytes pos) := by
  have hroom : maxLen + 18 ≤ usizeMax := by decide
  have ha : bytes.length ≤ usizeMax := by omega
  refine safe_bind (safe_add (by omega)) fun middle hmiddle => ?_
  refine safe_bind (safe_orRefuse _ _) fun header hheader => ?_
  have hc := slice_eq_some.mp (orRefuse_eq_ok.mp hheader)
  have hlen : header.length = 18 := by
    have := hc.stops
    have := (add_eq_ok.mp hmiddle).1
    omega
  obtain ⟨_, _, _, _, _, hslice, hhigh, hlow⟩ := header_split hlen
  refine safe_bind (safe_orPanic (by rw [hslice]; rfl)) fun first _ => ?_
  refine safe_bind (array_safe 16 first) fun aaguid _ => ?_
  refine safe_bind (safe_orPanic (by rw [hhigh]; rfl)) fun high _ => ?_
  refine safe_bind (safe_orPanic (by rw [hlow]; rfl)) fun low _ => ?_
  refine safe_guard fun hbounds => ?_
  have hbounds := not_not.mp hbounds
  refine safe_bind (credentialId_safe hsize hc.inside hbounds.2) fun found hfound => ?_
  obtain ⟨id, next⟩ := found
  have hnext := ((credentialId_eq_ok ha).mp hfound).1.inside
  refine safe_bind (tail_safe hnext) fun rest hrest => ?_
  obtain ⟨_, rfl⟩ := tail_eq_ok.mp hrest
  refine safe_bind (parseItem_safe ha) fun item hitem => ?_
  obtain ⟨value, consumed⟩ := item
  have hin := item_inside ha hnext hitem
  refine safe_bind (safe_add (Nat.le_trans hin ha)) fun last _ => ?_
  exact safe_bind (returned_safe _) fun _ _ => safe_ok _

theorem extensionSection_safe (hsize : bytes.length ≤ maxLen) (hpos : pos ≤ bytes.length) :
    Safe (extensionSection bytes pos) := by
  have ha : bytes.length ≤ usizeMax := Nat.le_trans hsize (by decide)
  refine safe_bind (tail_safe hpos) fun rest hrest => ?_
  obtain ⟨_, rfl⟩ := tail_eq_ok.mp hrest
  refine safe_bind (parseItem_safe ha) fun item hitem => ?_
  obtain ⟨value, consumed⟩ := item
  have hin := item_inside ha hpos hitem
  refine safe_bind (safe_orRefuse _ _) fun entries _ => ?_
  refine safe_guard fun _ => ?_
  exact safe_bind (safe_add (Nat.le_trans hin ha)) fun _ _ => safe_ok _

theorem optional_safe {α : Type} {flags flag : UInt8} {part : ℕ → Outcome (α × ℕ)}
    (h : Safe (part pos)) : Safe (optional flags flag part pos) := by
  rw [optional]
  split_ifs
  · exact safe_bind h fun _ _ => safe_ok _
  · exact safe_ok _

/-- No index and no slice leaves the input. -/
theorem parse_safe : Safe (AuthenticatorData.parse bytes) := by
  refine safe_guard fun hsize => ?_
  have hmin : 37 ≤ bytes.length := by
    simp only [minLen] at hsize
    omega
  have hmax : bytes.length ≤ maxLen := by omega
  have ha : bytes.length ≤ usizeMax := Nat.le_trans hmax (by decide)
  have hslice {i j : ℕ} (hij : i ≤ j) (hj : j ≤ 37) : (slice bytes i j).isSome = true := by
    rw [slice, if_pos ⟨hij, Nat.le_trans hj hmin⟩]
    rfl
  refine safe_bind (safe_orPanic (hslice (by omega) (by omega))) fun hash _ => ?_
  refine safe_bind (array_safe 32 hash) fun rpIdHash _ => ?_
  refine safe_bind (safe_orPanic (by rw [List.getElem?_eq_getElem (by omega)]; rfl))
    fun flags _ => ?_
  refine safe_bind (safe_orPanic (hslice (by omega) (by omega))) fun count _ => ?_
  refine safe_bind (array_safe 4 count) fun word _ => ?_
  refine safe_guard fun _ => ?_
  refine safe_bind (optional_safe (attestedSection_safe hmax hmin)) fun attested hattested => ?_
  obtain ⟨found, middle⟩ := attested
  obtain ⟨_, hp, _⟩ := (optional_eq_ok hmin (fun {_ _} => attestedSection_eq_ok ha)).mp hattested
  refine safe_bind (optional_safe (extensionSection_safe hmax hp.inside)) fun extensions _ => ?_
  exact safe_guard fun _ => safe_ok _

end safe

/-- The parser accepts exactly the byte strings of its grammar, each divided in one way into
the parts that it returns, and leaves the input on none. -/
theorem parse_divides (bytes : Bytes) :
    (∀ d, AuthenticatorData.parse bytes = .ok d ↔ ∃ p, Divides bytes p d) ∧
    (∀ p p' d d', Divides bytes p d → Divides bytes p' d' → p = p' ∧ d = d') ∧
    AuthenticatorData.parse bytes ≠ .error .panicked :=
  ⟨fun _ => parse_eq_ok, fun _ _ _ _ => divides_unique, parse_safe⟩

end CtapAuthData
