import Mathlib.Logic.Equiv.Basic
import LibCanokey.PivCommand
import LibCanokey.ProtocolTlvFields

/-! # Management-key authentication

External and mutual authentication with a management key over an uninterpreted block cipher:
each algorithm and key chooses a permutation of the blocks of that algorithm. -/
namespace PivManagement

open BigEndian CheckedCursor ListTraversal ProtocolError ProtocolApdu ProtocolConversation
open ProtocolOperation ProtocolTlv ProtocolTlvRoundTrip ProtocolTlvFields CompatProfile PivCommand

abbrev Block (a : ManagementKeyAlgorithm) := {b : Bytes // b.length = a.blockLen}

abbrev BlockCipher := (a : ManagementKeyAlgorithm) → Bytes → Equiv.Perm (Block a)

structure ManagementKey where
  algorithm : ManagementKeyAlgorithm
  bytes : Bytes
  full : bytes.length = 24
  deriving DecidableEq

def ManagementKey.fromBytes (algorithm : ManagementKeyAlgorithm) (bytes : Bytes) :
    Except Error ManagementKey :=
  if h : bytes.length = 24 then .ok ⟨algorithm, bytes, h⟩ else .error (.new .invalidArgument)

def ManagementKey.replacementCommand (key : ManagementKey) (touch : Bool) : LogicalCommand :=
  cmd 0xff 0xff (if touch then 0xfe else 0xff)
    ([key.algorithm.wireId, 0x9b, 24] ++ key.bytes) .absent

def invalid : Error := (Error.new .invalidResponse).atPhase .authentication

def ManagementKey.crypt (cipher : BlockCipher) (key : ManagementKey) (input : Bytes)
    (decrypt : Bool) : Except Error Bytes :=
  if h : input.length = key.algorithm.blockLen then
    let block : Block key.algorithm := ⟨input, h⟩
    let permutation := cipher key.algorithm key.bytes
    .ok (if decrypt then (permutation.symm block).1 else (permutation block).1)
  else .error invalid

/-- A mutual request holds a challenge of one block; `mutual` is a keyword here. -/
inductive Mode (a : ManagementKeyAlgorithm) where
  | external
  | mutualAuth (challenge : Block a)

structure ManagementAuthentication where
  key : ManagementKey
  mode : Mode key.algorithm

def ManagementAuthentication.external (key : ManagementKey) : ManagementAuthentication :=
  ⟨key, .external⟩

def ManagementAuthentication.mutualAuth (key : ManagementKey) (challenge : Bytes) :
    Except Error ManagementAuthentication :=
  if h : challenge.length = key.algorithm.blockLen then .ok ⟨key, .mutualAuth ⟨challenge, h⟩⟩
  else .error (.new .invalidArgument)

def ManagementAuthentication.inputLen (auth : ManagementAuthentication) : ℕ :=
  24 + match auth.mode with
    | .external => 0
    | .mutualAuth challenge => challenge.1.length

def authCommand (algorithm : ManagementKeyAlgorithm) (fields : List (UInt8 × Bytes)) :
    Except Error LogicalCommand := do
  let inner ← pushTags (.new 36) (fields.map fun field => ([field.1], field.2))
  let outer ← pushTag (.new 38) [0x7c] inner.bytes
  .ok (cmd 0x87 algorithm.wireId 0x9b outer.bytes .absent)

/-- The tag of the first request: a witness of the card or its challenge. -/
def Mode.firstTag {a : ManagementKeyAlgorithm} : Mode a → UInt8
  | .external => 0x81
  | .mutualAuth _ => 0x80

def ManagementAuthentication.initial (auth : ManagementAuthentication) :
    Except Error LogicalCommand :=
  authCommand auth.key.algorithm [(auth.mode.firstTag, [])]

def Mode.isMutual {a : ManagementKeyAlgorithm} : Mode a → Bool
  | .external => false
  | .mutualAuth _ => true

/-- The fields of the second request, around the block computed from the first reply. -/
def Mode.fields {a : ManagementKeyAlgorithm} (value : Bytes) : Mode a → List (UInt8 × Bytes)
  | .external => [(0x82, value)]
  | .mutualAuth challenge => [(0x80, value), (0x81, challenge.1)]

def ManagementAuthentication.validate (auth : ManagementAuthentication) (profile : DeviceProfile)
    (options : OperationOptions) : Except Error Unit := do
  (profile.managementKeySupport auth.key.algorithm).require
  validateCommand (← auth.initial) options
  let zeros := List.replicate auth.key.algorithm.blockLen 0
  validateCommand (← authCommand auth.key.algorithm (auth.mode.fields zeros)) options

def authStatus (r : ResponseData) : Except Error Unit :=
  if r.status.isSuccess then .ok ()
  else
    let error := authError r.status .managementKey
    .error (if r.status.raw = 0x6982 then { error with kind := .authenticationFailed } else error)

def authLimits : TlvLimits := { maxValueBytes := 18, maxDepth := 2 }

def authField (data : Bytes) (tag : UInt8) (len : ℕ) : Except Error Bytes := do
  let wrapped ← sole (.new data authLimits) (fun field => field.tag.value == 0x7c) invalid
  let inner ← wrapped.children
  let field ← sole inner
    (fun field => field.tag.value == tag.toNat && field.value.length == len) invalid
  .ok field.value

structure ManagementMachine where
  auth : ManagementAuthentication
  stage : ℕ

def ManagementMachine.new (auth : ManagementAuthentication) : ManagementMachine := ⟨auth, 0⟩

/-- `ok_or_else(invalid)?`. -/
def answered (response : Option ResponseData) : Except Error ResponseData :=
  match response with
  | none => .error invalid
  | some r => .ok r

def deviceAuthenticationFailed : Error :=
  { (Error.new .deviceAuthenticationFailed).atPhase .authentication with
    reference := some .managementKey }

/-- Stage 1 up to the fields of the second command. -/
def ManagementAuthentication.respond (cipher : BlockCipher) (auth : ManagementAuthentication)
    (response : Option ResponseData) : Except Error (List (UInt8 × Bytes)) := do
  let response ← answered response
  authStatus response
  let value ← authField response.data auth.mode.firstTag auth.key.algorithm.blockLen
  let value ← auth.key.crypt cipher value auth.mode.isMutual
  .ok (auth.mode.fields value)

/-- Stage 2: the answer that completes the authentication. -/
def ManagementAuthentication.verify (cipher : BlockCipher) (auth : ManagementAuthentication)
    (response : Option ResponseData) : Except Error Unit := do
  let response ← answered response
  authStatus response
  match auth.mode with
  | .external => if response.data ≠ [] then .error invalid else .ok ()
  | .mutualAuth challenge =>
    let actual ← authField response.data 0x82 auth.key.algorithm.blockLen
    let expected ← auth.key.crypt cipher challenge.1 false
    if expected ≠ actual then .error deviceAuthenticationFailed else .ok ()

def ManagementMachine.next (cipher : BlockCipher) (m : ManagementMachine)
    (response : Option ResponseData) : Except Error (Action Unit) × ManagementMachine :=
  match m.stage with
  | 0 => (m.auth.initial.map .command, { m with stage := 1 })
  | 1 =>
    match m.auth.respond cipher response with
    | .error e => (.error e, m)
    | .ok fields => ((authCommand m.auth.key.algorithm fields).map .command, { m with stage := 2 })
  | 2 =>
    match m.auth.verify cipher response with
    | .error e => (.error e, m)
    | .ok () => (.ok (.done ()), { m with stage := 3 })
  | _ => (.error stateError, m)

def management (cipher : BlockCipher) : Machine ManagementMachine Unit where
  next := ManagementMachine.next cipher

/-- A field of fewer than 128 bytes on the wire. -/
def field (f : UInt8 × Bytes) : Bytes := f.1 :: UInt8.ofNat f.2.length :: f.2

/-- `7C { … }`, for contents of fewer than 128 bytes. -/
def template (fields : List (UInt8 × Bytes)) : Bytes := field (0x7c, fields.flatMap field)

theorem length_field (f : UInt8 × Bytes) : (field f).length = f.2.length + 2 := by
  simp [field]

theorem fieldBytes_short {f : UInt8 × Bytes} (h : f.2.length < 128) :
    fieldBytes [f.1] f.2 = field f := by
  simp [fieldBytes, field, lengthField, h]

theorem usizeMax_large : 2 ^ 32 ≤ usizeMax := by decide

theorem pushTags_fits {fields : List (UInt8 × Bytes)} (writer : TlvWriter)
    (hf : ∀ f ∈ fields, ShortTag f.1 ∧ f.2.length < 128)
    (hfit : writer.bytes.length + (fields.flatMap field).length ≤ min writer.limit usizeMax) :
    ∃ after, pushTags writer (fields.map fun f => ([f.1], f.2)) = .ok after ∧
      after.bytes = writer.bytes ++ fields.flatMap field := by
  have hbytes : fields.flatMap (fun f => fieldBytes [f.1] f.2) = fields.flatMap field :=
    List.flatMap_congr fun f hmem => fieldBytes_short (hf f hmem).2
  obtain ⟨after, hpush, hafter⟩ := pushTags_short writer
    (fun f hmem => ⟨(hf f hmem).1, by have hlen := (hf f hmem).2; omega⟩) (by rwa [hbytes])
  exact ⟨after, hpush, by rw [hafter, hbytes]⟩

/-- The writers of `auth_command` have room for the fields of any two blocks. -/
theorem authCommand_template {a : ManagementKeyAlgorithm} {fields : List (UInt8 × Bytes)}
    (hf : ∀ f ∈ fields, ShortTag f.1 ∧ f.2.length < 128)
    (hfit : (fields.flatMap field).length ≤ 36) :
    authCommand a fields = .ok (cmd 0x87 a.wireId 0x9b (template fields) .absent) := by
  have hbig := usizeMax_large
  obtain ⟨inner, hinner, hib⟩ := pushTags_fits (.new 36) hf
    (by simp only [TlvWriter.new, List.length_nil]; omega)
  rw [show (TlvWriter.new 36).bytes = [] from rfl, List.nil_append] at hib
  have hlen : inner.bytes.length < 128 := by rw [hib]; omega
  have hbytes := fieldBytes_short (f := (0x7c, inner.bytes)) hlen
  obtain ⟨outer, houter, hob, _⟩ :=
    pushTag_fits (.new 38) inner.bytes
      (shortTag_toBytes (b := 0x7c) (by decide)) (by omega)
      (by rw [hbytes, length_field, hib]; simp only [TlvWriter.new, List.length_nil]; omega)
  rw [show (TlvWriter.new 38).bytes = [] from rfl, List.nil_append, hbytes, hib] at hob
  rw [authCommand, hinner]
  simp only [bind, Except.bind, houter, hob, template]

/-- The encoding of a field that the strict reader finds under a one-byte tag. -/
theorem encodeField_short {tag : Tag} {b : Byte} (hb : ShortTag b) (hv : tag.value = b.toNat)
    {value : Bytes} (h : value.length < 128) : encodeField (tag, value) = field (b, value) := by
  rw [eq_shortTag hb hv, encodeField, shortTag_toBytes hb]
  simp [field, lengthField, h]

theorem admitted_short {tag : Tag} {b : Byte} (hb : ShortTag b) (hv : tag.value = b.toNat)
    {value : Bytes} {limits : TlvLimits} (h : value.length < 128)
    (hl : value.length ≤ limits.maxValueBytes) : Admitted limits (tag, value) := by
  have hbig := usizeMax_large
  refine ⟨by dsimp only; omega, ?_, hl⟩
  rw [encodeField_short hb hv h, length_field]
  dsimp only
  omega

theorem value_shortTag {b : Byte} (h : ShortTag b) : (shortTag b h).value = b.toNat := rfl

/-- `auth_field` on one wrapped field of at most sixteen bytes never meets a limit. -/
theorem authField_template {tag tag' : UInt8} {value : Bytes} {len : ℕ} (ht : ShortTag tag)
    (hv : value.length ≤ 16) :
    authField (template [(tag, value)]) tag' len =
      if tag = tag' ∧ value.length = len then .ok value else .error invalid := by
  have h7c : ShortTag 0x7c := by decide
  have hflat : [(tag, value)].flatMap field = field (tag, value) := by simp
  have hin : (field (tag, value)).length ≤ 18 := by rw [length_field]; dsimp only; omega
  have hsmall : (field (tag, value)).length < 128 := by omega
  have hvalue : value.length < 128 := by omega
  have houter : sole (.new (template [(tag, value)]) authLimits)
      (fun f => f.tag.value == 0x7c) invalid =
        .ok ⟨shortTag 0x7c h7c, field (tag, value), 1, authLimits, true⟩ := by
    rw [sole_eq_ok rfl]
    refine ⟨?_, rfl, rfl, admitted_short h7c rfl hsmall hin, Nat.le_succ 1⟩
    rw [encodeField_short h7c (value_shortTag h7c) hsmall, template, hflat]
    rfl
  have hbytes : field (tag, value) = encodeField (shortTag tag ht, value) :=
    (encodeField_short ht (value_shortTag ht) hvalue).symm
  have hadmit : Admitted authLimits (shortTag tag ht, value) :=
    admitted_short ht rfl hvalue (by dsimp only [authLimits]; omega)
  rw [authField, houter]
  simp only [bind, Except.bind, Tlv.children]
  have hdepth : ¬ 1 ≥ authLimits.maxDepth := by decide
  rw [if_neg hdepth]
  dsimp only
  by_cases hmatch : tag = tag' ∧ value.length = len
  · obtain ⟨rfl, rfl⟩ := hmatch
    have hsole : sole ⟨field (tag, value), 2, authLimits, true⟩
        (fun f => f.tag.value == tag.toNat && f.value.length == value.length) invalid =
          .ok ⟨shortTag tag ht, value, 2, authLimits, true⟩ :=
      (sole_eq_ok rfl).mpr ⟨hbytes, rfl, by simp [shortTag], hadmit, Nat.le_refl 2⟩
    rw [if_pos ⟨rfl, rfl⟩, hsole]
  · rw [if_neg hmatch, sole_refused (by rw [hbytes, List.append_nil]) hadmit (Nat.le_refl 2)]
    simp only [shortTag, Bool.and_eq_false_iff, beq_eq_false_iff_ne]
    by_contra hboth
    push Not at hboth
    exact hmatch ⟨byte_ext hboth.1, hboth.2⟩

/-- `auth_field` accepts exactly one wrapped field with the tag and the length. -/
theorem authField_eq_ok {data : Bytes} {tag : UInt8} {len : ℕ} {value : Bytes}
    (ht : ShortTag tag) (hlen : len ≤ 16) :
    authField data tag len = .ok value ↔ data = template [(tag, value)] ∧ value.length = len := by
  constructor
  · intro h
    obtain ⟨wrapped, hw, h⟩ := bind_eq_ok.mp h
    obtain ⟨hdata, hwrapped, haccept, hadmit, _⟩ := (sole_eq_ok rfl).mp hw
    obtain ⟨inner, hchildren, h⟩ := bind_eq_ok.mp h
    obtain ⟨found, hi, h⟩ := bind_eq_ok.mp h
    cases h
    have hwv : wrapped.tag.value = (0x7c : UInt8).toNat := by simpa using haccept
    simp only [Tlv.children] at hchildren
    split_ifs at hchildren
    cases hchildren
    have hmin : wrapped.minimalLengths = true := by rw [hwrapped]
    obtain ⟨hval, _, hfound, _, _⟩ := (sole_eq_ok hmin).mp hi
    simp only [Bool.and_eq_true, beq_iff_eq] at hfound
    have hsmall : wrapped.value.length < 128 := by
      have hv : wrapped.value.length ≤ 18 := hadmit.value
      omega
    dsimp only at hval
    rw [encodeField_short ht hfound.1 (by omega)] at hval
    refine ⟨?_, hfound.2⟩
    rw [template, List.flatMap_cons, List.flatMap_nil, List.append_nil, ← hval]
    exact hdata.trans (encodeField_short (by decide) hwv hsmall)
  · rintro ⟨rfl, rfl⟩
    rw [authField_template ht hlen, if_pos ⟨rfl, rfl⟩]

end PivManagement
