import LibCanokey.CtapMembers

/-! # authenticatorGetInfo

The map that describes an authenticator, read member by member. The members are announced under
integer labels in any order, among others that are kept in the raw map. The two commands that are
only confirmed stand here too. -/
namespace CtapInfo

open BigEndian CheckedCursor ListTraversal ProtocolError ProtocolConversation ProtocolOperation
open ProtocolSession CtapCbor CtapCborLanguage CtapCborParser CtapMessage CtapCredential
open CtapAuthData CtapCoseReading CtapEnvelope CtapHmacSecret CtapMembers

def commandGetInfo : UInt8 := 0x04

def commandReset : UInt8 := 0x07

def commandSelection : UInt8 := 0x0b

structure PublicKeyCredentialParameters where
  type_ : String
  alg : ℤ
  deriving DecidableEq, Repr

structure AuthenticatorInfo where
  versions : List String
  aaguid : ByteArrayOf 16
  extensions : Option (List String)
  options : Option (List (String × Bool))
  maxMsgSize : Option UInt64
  pinUvAuthProtocols : Option Bytes
  maxCredentialCountInList : Option UInt64
  maxCredentialIdLength : Option UInt64
  transports : Option (List String)
  algorithms : Option (List PublicKeyCredentialParameters)
  maxSerializedLargeBlobArray : Option UInt64
  forcePinChange : Option Bool
  minPinLength : Option UInt64
  firmwareVersion : Option UInt64
  maxCredBlobLength : Option UInt64
  maxRpIdsForSetMinPinLength : Option UInt64
  remainingDiscoverableCredentials : Option UInt64
  vendorPrototypeConfigCommands : Option (List UInt64)
  raw : Value

def optUint (map : Value) (key : ℤ) : Except Error (Option UInt64) := opt map key uint64

def optBool (map : Value) (key : ℤ) : Except Error (Option Bool) :=
  opt map key boolean

def optTextArray (map : Value) (key : ℤ) : Except Error (Option (List String)) :=
  opt map key textArray

def parseOption (entry : Value × Value) : Except Error (String × Bool) := do
  let name ← text entry.1
  let value ← required entry.2.asBool
  .ok (name, value)

def parseOptionsMap (value : Value) : Except Error (List (String × Bool)) := do
  (← required value.asMap).mapM parseOption

def parseAlgorithm (item : Value) : Except Error PublicKeyCredentialParameters := do
  let type_ ← text (← required (item.mapGetText "type"))
  let alg ← required (← required (item.mapGetText "alg")).asInt
  .ok ⟨type_, alg⟩

def parseAlgorithms (value : Value) : Except Error (List PublicKeyCredentialParameters) := do
  (← required value.asArray).mapM parseAlgorithm

/-- `u8::try_from`. -/
def narrowed (n : UInt64) : Except Error UInt8 :=
  if n.toNat < 256 then .ok (UInt8.ofNat n.toNat) else .error invalid

def parseProtocols (value : Value) : Except Error Bytes := do
  (← uintArray value).mapM narrowed

/-- `try_into` an array of 16 bytes. -/
def parseAaguid (value : Value) : Except Error (ByteArrayOf 16) := do
  let bytes ← required value.asBytes
  if h : bytes.length = 16 then .ok ⟨bytes, h⟩ else .error invalid

def parseGetInfo (bytes : Bytes) : Except Error AuthenticatorInfo := do
  let value ← decoded bytes
  let _ ← required value.asMap
  let versions ← textArray (← required (value.mapGetInt 1))
  let aaguid ← parseAaguid (← required (value.mapGetInt 3))
  let pinUvAuthProtocols ← opt value 6 parseProtocols
  let extensions ← optTextArray value 2
  let options ← opt value 4 parseOptionsMap
  let maxMsgSize ← optUint value 5
  let maxCredentialCountInList ← optUint value 7
  let maxCredentialIdLength ← optUint value 8
  let transports ← optTextArray value 9
  let algorithms ← opt value 10 parseAlgorithms
  let maxSerializedLargeBlobArray ← optUint value 11
  let forcePinChange ← optBool value 12
  let minPinLength ← optUint value 13
  let firmwareVersion ← optUint value 14
  let maxCredBlobLength ← optUint value 15
  let maxRpIdsForSetMinPinLength ← optUint value 16
  let remainingDiscoverableCredentials ← optUint value 20
  let vendorPrototypeConfigCommands ← opt value 21 uintArray
  .ok { versions, aaguid, extensions, options, maxMsgSize, pinUvAuthProtocols,
        maxCredentialCountInList, maxCredentialIdLength, transports, algorithms,
        maxSerializedLargeBlobArray, forcePinChange, minPinLength, firmwareVersion,
        maxCredBlobLength, maxRpIdsForSetMinPinLength, remainingDiscoverableCredentials,
        vendorPrototypeConfigCommands, raw := value }

def getInfo (options : OperationOptions) :
    Except Error (Operation (Sequence AuthenticatorInfo) AuthenticatorInfo) :=
  selectThen [commandGetInfo] options fun response => typed response parseGetInfo

def reset (options : OperationOptions) : Except Error (Operation (Sequence Unit) Unit) :=
  selectThen [commandReset] options fun response => typed response emptyPayload

def selection (options : OperationOptions) : Except Error (Operation (Sequence Unit) Unit) :=
  selectThen [commandSelection] options fun response => typed response emptyPayload

/-! ## The members of a description -/

/-- The protocols are numbers of one byte. -/
def SpellsProtocols (protocols : Bytes) (v : Value) : Prop :=
  v = .array (protocols.map fun b => .unsigned b.toUInt64)

def SpellsOptions (options : List (String × Bool)) (v : Value) : Prop :=
  v = .map (options.map fun o => (.text o.1, .bool o.2))

def SpellsLabel (n : ℤ) (v : Value) : Prop := v = .fromInt n ∧ IsI64 n

/-- One algorithm, whatever else is said of it. -/
def SpellsAlgorithm (p : PublicKeyCredentialParameters) (item : Value) : Prop :=
  ∃ es, item = .map es ∧ Announced es (.text "type") SpellsText (some p.type_) ∧
    Announced es (.text "alg") SpellsLabel (some p.alg)

def SpellsAlgorithms (ps : List PublicKeyCredentialParameters) (v : Value) : Prop :=
  ∃ items, v = .array items ∧ List.Forall₂ (fun item p => SpellsAlgorithm p item) items ps

section members

theorem narrowed_eq_ok {n : UInt64} {b : UInt8} : narrowed n = .ok b ↔ n = b.toUInt64 := by
  rw [narrowed]
  have hb := b.toNat_lt
  by_cases h : n.toNat < 256
  · rw [if_pos h, Except.ok.injEq]
    constructor
    · rintro rfl
      apply UInt64.toNat.inj
      rw [UInt8.toNat_toUInt64, toNat_ofNat_of_lt h]
    · rintro rfl
      rw [UInt8.toNat_toUInt64, UInt8.ofNat_toNat]
  · rw [if_neg h]
    constructor
    · intro hok
      cases hok
    · rintro rfl
      rw [UInt8.toNat_toUInt64] at h
      omega

theorem parseProtocols_exact : Exact parseProtocols SpellsProtocols := by
  intro v bytes hv
  have hinverse (n : UInt64) (b : UInt8) : narrowed n = .ok b ↔ True ∧ n = b.toUInt64 := by
    rw [narrowed_eq_ok, true_and]
  rw [parseProtocols, bind_eq_ok]
  constructor
  · rintro ⟨ns, hns, hall⟩
    obtain ⟨_, rfl⟩ := (mapM_inverse hinverse).mp hall
    rw [SpellsProtocols, (uintArray_exact v _ hv).mp hns, List.map_map]
    rfl
  · intro hspells
    refine ⟨bytes.map UInt8.toUInt64, (uintArray_exact v _ hv).mpr ?_,
      (mapM_inverse hinverse).mpr ⟨fun _ _ => trivial, rfl⟩⟩
    rw [SpellsUints, List.map_map]
    exact hspells

theorem parseOption_eq_ok {entry : Value × Value} {o : String × Bool} :
    parseOption entry = .ok o ↔ entry = (.text o.1, .bool o.2) := by
  obtain ⟨key, value⟩ := entry
  rw [parseOption, bind_eq_ok]
  constructor
  · rintro ⟨name, hname, h⟩
    obtain ⟨b, hb, h⟩ := bind_eq_ok.mp h
    cases h
    exact Prod.ext (text_eq_ok.mp hname) (boolean_eq_ok.mp hb)
  · intro h
    cases h
    exact ⟨o.1, text_eq_ok.mpr rfl, bind_eq_ok.mpr ⟨o.2, boolean_eq_ok.mpr rfl, rfl⟩⟩

theorem parseOptionsMap_exact : Exact parseOptionsMap SpellsOptions := by
  intro v options _
  have hinverse (entry : Value × Value) (o : String × Bool) :
      parseOption entry = .ok o ↔ True ∧ entry = (.text o.1, .bool o.2) := by
    rw [parseOption_eq_ok, true_and]
  rw [parseOptionsMap, bind_eq_ok]
  constructor
  · rintro ⟨entries, hentries, hall⟩
    obtain ⟨_, rfl⟩ := (mapM_inverse hinverse).mp hall
    exact asMap_eq_ok.mp hentries
  · rintro rfl
    exact ⟨_, asMap_eq_ok.mpr rfl, (mapM_inverse hinverse).mpr ⟨fun _ _ => trivial, rfl⟩⟩

theorem asInt_exact : Exact (fun value => required value.asInt) SpellsLabel := by
  intro v n _
  rw [required_eq_ok]
  exact asInt_eq_some

theorem parseAlgorithm_exact : Exact parseAlgorithm SpellsAlgorithm := by
  intro item p hitem
  constructor
  · intro h
    obtain ⟨t, ht, h⟩ := bind_eq_ok.mp h
    obtain ⟨type_, htype, h⟩ := bind_eq_ok.mp h
    obtain ⟨a, ha, h⟩ := bind_eq_ok.mp h
    obtain ⟨alg, halg, h⟩ := bind_eq_ok.mp h
    cases h
    cases item with
    | map es =>
      exact ⟨es, rfl, (member_eq_ok hitem text_exact).mp (bind_eq_ok.mpr ⟨t, ht, htype⟩),
        (member_eq_ok hitem asInt_exact).mp (bind_eq_ok.mpr ⟨a, ha, halg⟩)⟩
    | unsigned | negative | bytes | text | array | bool | null => cases ht
  · rintro ⟨es, rfl, htype, halg⟩
    obtain ⟨t, ht, htype⟩ := bind_eq_ok.mp ((member_eq_ok hitem text_exact).mpr htype)
    obtain ⟨a, ha, halg⟩ := bind_eq_ok.mp ((member_eq_ok hitem asInt_exact).mpr halg)
    refine bind_eq_ok.mpr ⟨t, ht, bind_eq_ok.mpr ⟨_, htype, ?_⟩⟩
    exact bind_eq_ok.mpr ⟨a, ha, bind_eq_ok.mpr ⟨_, halg, rfl⟩⟩

theorem parseAlgorithms_exact : Exact parseAlgorithms SpellsAlgorithms := by
  intro v ps hv
  rw [parseAlgorithms, bind_eq_ok]
  have hitems {items : List Value} (h : v = .array items) : items.mapM parseAlgorithm = .ok ps ↔
      List.Forall₂ (fun item p => SpellsAlgorithm p item) items ps := by
    subst h
    have hdistinct := (everywhere_array.mp hv).2
    rw [mapM_eq_ok]
    constructor
    · intro hall
      exact ((List.forall₂_and_left _ _).mpr ⟨hdistinct, hall⟩).imp fun item p hp =>
        (parseAlgorithm_exact item p hp.1).mp hp.2
    · intro hall
      exact ((List.forall₂_and_left _ _).mpr ⟨hdistinct, hall⟩).imp fun item p hp =>
        (parseAlgorithm_exact item p hp.1).mpr hp.2
  constructor
  · rintro ⟨items, hread, hall⟩
    have harray := asArray_eq_ok.mp hread
    exact ⟨items, harray, (hitems harray).mp hall⟩
  · rintro ⟨items, harray, hall⟩
    exact ⟨items, asArray_eq_ok.mpr harray, (hitems harray).mpr hall⟩

theorem parseAaguid_exact : Exact parseAaguid fun a => SpellsBytes a.1 := by
  intro v a _
  rw [parseAaguid, bind_eq_ok]
  constructor
  · rintro ⟨bytes, hbytes, h⟩
    split_ifs at h with hlen
    cases h
    exact byteString_eq_ok.mp hbytes
  · intro h
    exact ⟨a.1, byteString_eq_ok.mpr h, dif_pos a.2⟩

end members

/-- The description that entries spell, in any order and among any others. -/
structure Announces (es : List (Value × Value)) (i : AuthenticatorInfo) : Prop where
  versions : Announced es (.unsigned 1) SpellsTexts (some i.versions)
  extensions : Announced es (.unsigned 2) SpellsTexts i.extensions
  aaguid : Announced es (.unsigned 3) (fun a : ByteArrayOf 16 => SpellsBytes a.1) (some i.aaguid)
  options : Announced es (.unsigned 4) SpellsOptions i.options
  maxMsgSize : Announced es (.unsigned 5) SpellsUint i.maxMsgSize
  pinUvAuthProtocols : Announced es (.unsigned 6) SpellsProtocols i.pinUvAuthProtocols
  maxCredentialCountInList : Announced es (.unsigned 7) SpellsUint i.maxCredentialCountInList
  maxCredentialIdLength : Announced es (.unsigned 8) SpellsUint i.maxCredentialIdLength
  transports : Announced es (.unsigned 9) SpellsTexts i.transports
  algorithms : Announced es (.unsigned 10) SpellsAlgorithms i.algorithms
  maxSerializedLargeBlobArray :
    Announced es (.unsigned 11) SpellsUint i.maxSerializedLargeBlobArray
  forcePinChange : Announced es (.unsigned 12) SpellsBool i.forcePinChange
  minPinLength : Announced es (.unsigned 13) SpellsUint i.minPinLength
  firmwareVersion : Announced es (.unsigned 14) SpellsUint i.firmwareVersion
  maxCredBlobLength : Announced es (.unsigned 15) SpellsUint i.maxCredBlobLength
  maxRpIdsForSetMinPinLength :
    Announced es (.unsigned 16) SpellsUint i.maxRpIdsForSetMinPinLength
  remainingDiscoverableCredentials :
    Announced es (.unsigned 20) SpellsUint i.remainingDiscoverableCredentials
  vendorPrototypeConfigCommands :
    Announced es (.unsigned 21) SpellsUints i.vendorPrototypeConfigCommands
  raw : i.raw = .map es

section descriptions

theorem parseGetInfo_eq_ok {bytes : Bytes} (hlen : bytes.length ≤ usizeMax)
    {i : AuthenticatorInfo} :
    parseGetInfo bytes = .ok i ↔ ∃ es, Strict bytes (.map es) ∧ Announces es i := by
  constructor
  · intro h
    obtain ⟨value, hvalue, h⟩ := bind_eq_ok.mp h
    obtain ⟨es, hes, h⟩ := bind_eq_ok.mp h
    have hstrict := (decoded_eq_ok hlen).mp hvalue
    obtain rfl := asMap_eq_ok.mp hes
    have hd := hstrict.distinct
    obtain ⟨_, hfound, h⟩ := bind_eq_ok.mp h
    obtain ⟨_, hversions, h⟩ := bind_eq_ok.mp h
    obtain ⟨_, hheld, h⟩ := bind_eq_ok.mp h
    obtain ⟨_, haaguid, h⟩ := bind_eq_ok.mp h
    obtain ⟨_, hprotocols, h⟩ := bind_eq_ok.mp h
    obtain ⟨_, hextensions, h⟩ := bind_eq_ok.mp h
    obtain ⟨_, hoptions, h⟩ := bind_eq_ok.mp h
    obtain ⟨_, hmsg, h⟩ := bind_eq_ok.mp h
    obtain ⟨_, hcount, h⟩ := bind_eq_ok.mp h
    obtain ⟨_, hidLength, h⟩ := bind_eq_ok.mp h
    obtain ⟨_, htransports, h⟩ := bind_eq_ok.mp h
    obtain ⟨_, halgorithms, h⟩ := bind_eq_ok.mp h
    obtain ⟨_, harray, h⟩ := bind_eq_ok.mp h
    obtain ⟨_, hforce, h⟩ := bind_eq_ok.mp h
    obtain ⟨_, hpin, h⟩ := bind_eq_ok.mp h
    obtain ⟨_, hfirmware, h⟩ := bind_eq_ok.mp h
    obtain ⟨_, hcredBlob, h⟩ := bind_eq_ok.mp h
    obtain ⟨_, hrpIds, h⟩ := bind_eq_ok.mp h
    obtain ⟨_, hremaining, h⟩ := bind_eq_ok.mp h
    obtain ⟨_, hvendor, h⟩ := bind_eq_ok.mp h
    cases h
    refine ⟨es, hstrict, ?_⟩
    constructor
    · exact (member_eq_ok hd textArray_exact).mp (bind_eq_ok.mpr ⟨_, hfound, hversions⟩)
    · exact (opt_eq_ok hd textArray_exact).mp hextensions
    · exact (member_eq_ok hd parseAaguid_exact).mp (bind_eq_ok.mpr ⟨_, hheld, haaguid⟩)
    · exact (opt_eq_ok hd parseOptionsMap_exact).mp hoptions
    · exact (opt_eq_ok hd uint64_exact).mp hmsg
    · exact (opt_eq_ok hd parseProtocols_exact).mp hprotocols
    · exact (opt_eq_ok hd uint64_exact).mp hcount
    · exact (opt_eq_ok hd uint64_exact).mp hidLength
    · exact (opt_eq_ok hd textArray_exact).mp htransports
    · exact (opt_eq_ok hd parseAlgorithms_exact).mp halgorithms
    · exact (opt_eq_ok hd uint64_exact).mp harray
    · exact (opt_eq_ok hd boolean_exact).mp hforce
    · exact (opt_eq_ok hd uint64_exact).mp hpin
    · exact (opt_eq_ok hd uint64_exact).mp hfirmware
    · exact (opt_eq_ok hd uint64_exact).mp hcredBlob
    · exact (opt_eq_ok hd uint64_exact).mp hrpIds
    · exact (opt_eq_ok hd uint64_exact).mp hremaining
    · exact (opt_eq_ok hd uintArray_exact).mp hvendor
    · rfl
  · rintro ⟨es, hstrict, h⟩
    have hd := hstrict.distinct
    obtain ⟨_, hfound, hversions⟩ :=
      bind_eq_ok.mp ((member_eq_ok hd textArray_exact).mpr h.versions)
    obtain ⟨_, hheld, haaguid⟩ :=
      bind_eq_ok.mp ((member_eq_ok hd parseAaguid_exact).mpr h.aaguid)
    refine bind_eq_ok.mpr ⟨_, (decoded_eq_ok hlen).mpr hstrict, ?_⟩
    refine bind_eq_ok.mpr ⟨_, asMap_eq_ok.mpr rfl, ?_⟩
    refine bind_eq_ok.mpr ⟨_, hfound, ?_⟩
    refine bind_eq_ok.mpr ⟨_, hversions, ?_⟩
    refine bind_eq_ok.mpr ⟨_, hheld, ?_⟩
    refine bind_eq_ok.mpr ⟨_, haaguid, ?_⟩
    refine bind_eq_ok.mpr ⟨_, (opt_eq_ok hd parseProtocols_exact).mpr h.pinUvAuthProtocols, ?_⟩
    refine bind_eq_ok.mpr ⟨_, (opt_eq_ok hd textArray_exact).mpr h.extensions, ?_⟩
    refine bind_eq_ok.mpr ⟨_, (opt_eq_ok hd parseOptionsMap_exact).mpr h.options, ?_⟩
    refine bind_eq_ok.mpr ⟨_, (opt_eq_ok hd uint64_exact).mpr h.maxMsgSize, ?_⟩
    refine bind_eq_ok.mpr ⟨_, (opt_eq_ok hd uint64_exact).mpr h.maxCredentialCountInList, ?_⟩
    refine bind_eq_ok.mpr ⟨_, (opt_eq_ok hd uint64_exact).mpr h.maxCredentialIdLength, ?_⟩
    refine bind_eq_ok.mpr ⟨_, (opt_eq_ok hd textArray_exact).mpr h.transports, ?_⟩
    refine bind_eq_ok.mpr ⟨_, (opt_eq_ok hd parseAlgorithms_exact).mpr h.algorithms, ?_⟩
    refine bind_eq_ok.mpr ⟨_, (opt_eq_ok hd uint64_exact).mpr h.maxSerializedLargeBlobArray, ?_⟩
    refine bind_eq_ok.mpr ⟨_, (opt_eq_ok hd boolean_exact).mpr h.forcePinChange, ?_⟩
    refine bind_eq_ok.mpr ⟨_, (opt_eq_ok hd uint64_exact).mpr h.minPinLength, ?_⟩
    refine bind_eq_ok.mpr ⟨_, (opt_eq_ok hd uint64_exact).mpr h.firmwareVersion, ?_⟩
    refine bind_eq_ok.mpr ⟨_, (opt_eq_ok hd uint64_exact).mpr h.maxCredBlobLength, ?_⟩
    refine bind_eq_ok.mpr ⟨_, (opt_eq_ok hd uint64_exact).mpr h.maxRpIdsForSetMinPinLength, ?_⟩
    refine bind_eq_ok.mpr
      ⟨_, (opt_eq_ok hd uint64_exact).mpr h.remainingDiscoverableCredentials, ?_⟩
    refine bind_eq_ok.mpr
      ⟨_, (opt_eq_ok hd uintArray_exact).mpr h.vendorPrototypeConfigCommands, ?_⟩
    rw [← h.raw]

end descriptions

section commands

variable {κ : Type*} {respond : κ → Bytes → Bytes × κ} {a : κ} {options : OperationOptions}

/-- A reset is reported exactly when the authenticator confirms it with nothing else. -/
theorem reset_reports {op : Operation (Sequence Unit) Unit} (hop : reset options = .ok op)
    (hroom : Room options [commandReset] (respond a [commandReset]).1) :
    Reports (fun _ payload => payload = []) (respond a [commandReset]).1
        (execute (sequence Unit) (messageApplet respond) op a).1 ∧
      (execute (sequence Unit) (messageApplet respond) op a).2 = (respond a [commandReset]).2 :=
  typed_reports (fun _ _ _ => emptyPayload_eq_ok) hop hroom

theorem selection_reports {op : Operation (Sequence Unit) Unit} (hop : selection options = .ok op)
    (hroom : Room options [commandSelection] (respond a [commandSelection]).1) :
    Reports (fun _ payload => payload = []) (respond a [commandSelection]).1
        (execute (sequence Unit) (messageApplet respond) op a).1 ∧
      (execute (sequence Unit) (messageApplet respond) op a).2 = (respond a [commandSelection]).2 :=
  typed_reports (fun _ _ _ => emptyPayload_eq_ok) hop hroom

end commands

section card

variable {κ : Type*} {respond : κ → Bytes → Bytes × κ} {a : κ} {options : OperationOptions}
  {op : Operation (Sequence AuthenticatorInfo) AuthenticatorInfo}

/-- A payload that is the strict encoding of a description. -/
def SpellsInfo (i : AuthenticatorInfo) (payload : Bytes) : Prop :=
  ∃ es, Strict payload (.map es) ∧ Announces es i

/-- The operation reports a description exactly when the answer is the strict encoding of one, and
what it reports is what the answer says. -/
theorem getInfo_exact (hop : getInfo options = .ok op)
    (hroom : Room options [commandGetInfo] (respond a [commandGetInfo]).1) :
    Reports SpellsInfo (respond a [commandGetInfo]).1
        (execute (sequence AuthenticatorInfo) (messageApplet respond) op a).1 ∧
      (execute (sequence AuthenticatorInfo) (messageApplet respond) op a).2 =
        (respond a [commandGetInfo]).2 :=
  typed_reports (fun _ _ hlen => parseGetInfo_eq_ok hlen) hop hroom

/-- Required and optional members of every kind, and one under a label that is not known. -/
def exampleRaw : Value :=
  .map [(.unsigned 1, .array [.text "U2F_V2", .text "FIDO_2_1"]),
    (.unsigned 2, .array [.text "hmac-secret"]), (.unsigned 3, .bytes (List.replicate 16 7)),
    (.unsigned 4, .map [(.text "rk", .bool true), (.text "clientPin", .bool false)]),
    (.unsigned 5, .unsigned 1200), (.unsigned 6, .array [.unsigned 2, .unsigned 1]),
    (.unsigned 10, .array [.map [(.text "alg", .negative 6), (.text "type", .text "public-key")]]),
    (.unsigned 12, .bool false), (.unsigned 30, .bool true)]

def exampleAnswer : Bytes :=
  [0x00, 0xa9, 0x01, 0x82, 0x66] ++ utf8 "U2F_V2" ++ [0x68] ++ utf8 "FIDO_2_1" ++
    [0x02, 0x81, 0x6b] ++ utf8 "hmac-secret" ++ [0x03, 0x50] ++ List.replicate 16 7 ++
    [0x04, 0xa2, 0x62] ++ utf8 "rk" ++ [0xf5, 0x69] ++ utf8 "clientPin" ++ [0xf4] ++
    [0x05, 0x19, 0x04, 0xb0, 0x06, 0x82, 0x02, 0x01] ++
    [0x0a, 0x81, 0xa2, 0x63] ++ utf8 "alg" ++ [0x26, 0x64] ++ utf8 "type" ++ [0x6a] ++
    utf8 "public-key" ++ [0x0c, 0xf4, 0x18, 0x1e, 0xf5]

def exampleInfo : AuthenticatorInfo where
  versions := ["U2F_V2", "FIDO_2_1"]
  aaguid := ⟨List.replicate 16 7, rfl⟩
  extensions := some ["hmac-secret"]
  options := some [("rk", true), ("clientPin", false)]
  maxMsgSize := some 1200
  pinUvAuthProtocols := some [2, 1]
  maxCredentialCountInList := none
  maxCredentialIdLength := none
  transports := none
  algorithms := some [⟨"public-key", -7⟩]
  maxSerializedLargeBlobArray := none
  forcePinChange := some false
  minPinLength := none
  firmwareVersion := none
  maxCredBlobLength := none
  maxRpIdsForSetMinPinLength := none
  remainingDiscoverableCredentials := none
  vendorPrototypeConfigCommands := none
  raw := exampleRaw

theorem getInfo_exact_options : ∃ op, getInfo {} = .ok op ∧
    Ends (execute (sequence AuthenticatorInfo) (messageApplet fun n _ => (exampleAnswer, n + 1)) op
      0).1 (.ok exampleInfo) ∧
    (execute (sequence AuthenticatorInfo) (messageApplet fun n _ => (exampleAnswer, n + 1)) op
      0).2 = 1 := by
  have hread : parseGetInfo (exampleAnswer.drop 1) = .ok exampleInfo := rfl
  obtain ⟨op, hop⟩ := @selectThen_accepted _ [commandGetInfo] (by decide) (by decide)
    fun response => typed response parseGetInfo
  have hroom : Room {} [commandGetInfo] exampleAnswer :=
    ample_default _ _ (by decide) (by decide) (by decide)
  obtain ⟨hreports, hafter⟩ :=
    @getInfo_exact ℕ (fun n _ => (exampleAnswer, n + 1)) 0 {} op hop hroom
  have hspells : SpellsInfo exampleInfo (exampleAnswer.drop 1) :=
    (parseGetInfo_eq_ok (by decide)).mp hread
  exact ⟨op, hop, (hreports.accepted exampleInfo).mpr ⟨_, rfl, hspells⟩, hafter⟩

end card

end CtapInfo
