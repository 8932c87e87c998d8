import LibCanokey.CtapHmacOutput
import LibCanokey.CtapMembers

/-! # What is reported of credentials and assertions

The responses of authenticatorMakeCredential, authenticatorGetAssertion and
authenticatorGetNextAssertion: the members of their maps, the sections of the authenticator data
inside and the output of an hmac-secret exchange in its extensions. -/
namespace CtapCredentialReports

open BigEndian CheckedCursor ListTraversal ProtocolError ProtocolConversation ProtocolOperation
open ProtocolSession CtapCbor CtapCborLanguage CtapMessage CtapFields CtapCredentialManagement
open CtapCredential CtapAuthData CtapCoseReading CtapEnvelope CtapHmacSecret CtapMembers

def commandGetNextAssertion : UInt8 := 0x08

def getNextAssertion (aes : Aes256Cbc) (options : OperationOptions) :
    Except Error (Operation (Sequence GetAssertionResponse) GetAssertionResponse) :=
  selectThen [commandGetNextAssertion] options fun response =>
    typed response (parseGetAssertion aes none)

/-! ## The members of a response -/

def SpellsDescriptor (d : PublicKeyCredentialDescriptor) (v : Value) : Prop :=
  ∃ es x, v = .map es ∧ Announced es (.text "type") SpellsText (some d.type) ∧
    Announced es (.text "id") SpellsBytes (some d.id) ∧
    Announced es (.text "transports") SpellsTexts x ∧ d.transports = x.getD []

def SpellsUser (u : UserEntity) (v : Value) : Prop :=
  ∃ es, v = .map es ∧ Announced es (.text "id") SpellsBytes (some u.id) ∧
    Announced es (.text "name") SpellsText u.name ∧
    Announced es (.text "displayName") SpellsText u.displayName

def SpellsAuthData (d : AuthenticatorData) (v : Value) : Prop :=
  ∃ p, v = .bytes d.raw ∧ Divides d.raw p d

/-- A statement is any map under texts. -/
def SpellsStatement (statement v : Value) : Prop :=
  statement = v ∧ ∃ es, v = .map es ∧ ∀ e ∈ es, ∃ name, e.1 = .text name

/-- The entries of the extensions, none where there are no extensions. -/
def extensionEntries (d : AuthenticatorData) : List (Value × Value) :=
  (d.extensions.bind Value.asMap).getD []

/-- What an exchange decrypts from an entry. -/
def SpellsOutput (aes : Aes256Cbc) (input : HmacSecretInput) (output : Bytes) (v : Value) : Prop :=
  ∃ ciphertext, v = .bytes ciphertext ∧ input.decryptOutput aes ciphertext = .ok output

/-- The output of a requested exchange is in the extensions; without a request there is none. -/
inductive Outputs (aes : Aes256Cbc) (d : AuthenticatorData) (name : String) :
    Option HmacSecretInput → Option Bytes → Prop where
  | unasked : Outputs aes d name none none
  | asked {input : HmacSecretInput} {output : Bytes}
      (h : Announced (extensionEntries d) (.text name) (SpellsOutput aes input) (some output)) :
      Outputs aes d name (some input) (some output)

/-- The credential that entries spell, in any order and among any others. -/
structure SpellsCredential (aes : Aes256Cbc) (input : Option HmacSecretInput)
    (es : List (Value × Value)) (r : MakeCredentialResponse) : Prop where
  fmt : Announced es (.unsigned 1) SpellsText (some r.fmt)
  authData : Announced es (.unsigned 2) SpellsAuthData (some r.authData)
  attStmt : Announced es (.unsigned 3) SpellsStatement (some r.attStmt)
  epAtt : Announced es (.unsigned 4) SpellsBool r.epAtt
  largeBlobKey : Announced es (.unsigned 5) SpellsBytes r.largeBlobKey
  supported : ∃ x, Announced (extensionEntries r.authData) (.text extHmacSecret) SpellsBool x ∧
    r.hmacSecretSupported = x.getD false
  output : Outputs aes r.authData extHmacSecretMc input r.hmacSecretMc

structure SpellsAssertion (aes : Aes256Cbc) (input : Option HmacSecretInput)
    (es : List (Value × Value)) (r : GetAssertionResponse) : Prop where
  credential : Announced es (.unsigned 1) SpellsDescriptor r.credential
  authData : Announced es (.unsigned 2) SpellsAuthData (some r.authData)
  signature : Announced es (.unsigned 3) SpellsBytes (some r.signature)
  user : Announced es (.unsigned 4) SpellsUser r.user
  numberOfCredentials : Announced es (.unsigned 5) SpellsUint r.numberOfCredentials
  userSelected : Announced es (.unsigned 6) SpellsBool r.userSelected
  largeBlobKey : Announced es (.unsigned 7) SpellsBytes r.largeBlobKey
  output : Outputs aes r.authData extHmacSecret input r.hmacSecret

section members

variable {v : Value}

theorem optionalText_eq_ok {es : List (Value × Value)} (h : DistinctKeys (.map es)) {name : String}
    {x : Option String} : optionalText ((Value.map es).mapGetText name) = .ok x ↔
      Announced es (.text name) SpellsText x := by
  have hlooked (value : Option Value) : optionalText value = looked value text := by
    cases value <;> rfl
  rw [hlooked]
  exact looked_eq_ok h text_exact

theorem map_of_member {α : Type} {name : String} {f : Value → Except Error α} {a : α}
    (h : (do f (← required (v.mapGetText name))) = .ok a) : ∃ es, v = .map es := by
  obtain ⟨w, hw, _⟩ := bind_eq_ok.mp h
  cases v with
  | map es => exact ⟨es, rfl⟩
  | unsigned | negative | bytes | text | array | bool | null => cases hw

theorem parseDescriptor_exact : Exact parseDescriptor SpellsDescriptor := by
  intro v d hv
  constructor
  · intro h
    obtain ⟨t, ht, h⟩ := bind_eq_ok.mp h
    obtain ⟨type, htype, h⟩ := bind_eq_ok.mp h
    obtain ⟨i, hi, h⟩ := bind_eq_ok.mp h
    obtain ⟨id, hid, h⟩ := bind_eq_ok.mp h
    have htype : (do text (← required (v.mapGetText "type"))) = .ok type :=
      bind_eq_ok.mpr ⟨t, ht, htype⟩
    have hid : (do byteString (← required (v.mapGetText "id"))) = .ok id :=
      bind_eq_ok.mpr ⟨i, hi, hid⟩
    obtain ⟨es, rfl⟩ := map_of_member htype
    have hx : ∃ x, looked ((Value.map es).mapGetText "transports") textArray = .ok x ∧
        d = ⟨type, id, x.getD []⟩ := by
      cases hget : (Value.map es).mapGetText "transports" with
      | none =>
        rw [hget] at h
        cases h
        exact ⟨none, rfl, rfl⟩
      | some list =>
        rw [hget] at h
        obtain ⟨items, hitems, h⟩ := bind_eq_ok.mp h
        obtain ⟨transports, htransports, h⟩ := bind_eq_ok.mp h
        cases h
        have hread : textArray list = .ok transports := bind_eq_ok.mpr ⟨items, hitems, htransports⟩
        exact ⟨some transports, map_eq_ok.mpr ⟨_, hread, rfl⟩, rfl⟩
    obtain ⟨x, hlooked, rfl⟩ := hx
    exact ⟨es, x, rfl, (member_eq_ok hv text_exact).mp htype,
      (member_eq_ok hv byteString_exact).mp hid, (looked_eq_ok hv textArray_exact).mp hlooked, rfl⟩
  · rintro ⟨es, x, rfl, htype, hid, htransports, hx⟩
    obtain ⟨type, id, transports⟩ := d
    obtain ⟨t, ht, htype⟩ := bind_eq_ok.mp ((member_eq_ok hv text_exact).mpr htype)
    obtain ⟨i, hi, hid⟩ := bind_eq_ok.mp ((member_eq_ok hv byteString_exact).mpr hid)
    have hlooked : looked ((Value.map es).mapGetText "transports") textArray = .ok x :=
      (looked_eq_ok hv textArray_exact).mpr htransports
    refine bind_eq_ok.mpr ⟨t, ht, bind_eq_ok.mpr ⟨type, htype, ?_⟩⟩
    refine bind_eq_ok.mpr ⟨i, hi, bind_eq_ok.mpr ⟨id, hid, ?_⟩⟩
    dsimp only at hx
    subst hx
    cases hget : (Value.map es).mapGetText "transports" with
    | none =>
      rw [hget] at hlooked
      cases hlooked
      rfl
    | some list =>
      rw [hget] at hlooked
      obtain ⟨ts, hts, rfl⟩ := map_eq_ok.mp hlooked
      obtain ⟨items, hitems, hts⟩ := bind_eq_ok.mp hts
      exact bind_eq_ok.mpr ⟨items, hitems, bind_eq_ok.mpr ⟨ts, hts, rfl⟩⟩

theorem parseUser_exact : Exact parseUser SpellsUser := by
  intro v u hv
  constructor
  · intro h
    obtain ⟨i, hi, h⟩ := bind_eq_ok.mp h
    obtain ⟨id, hid, h⟩ := bind_eq_ok.mp h
    obtain ⟨name, hname, h⟩ := bind_eq_ok.mp h
    obtain ⟨displayName, hdisplay, h⟩ := bind_eq_ok.mp h
    cases h
    have hid : (do byteString (← required (v.mapGetText "id"))) = .ok id :=
      bind_eq_ok.mpr ⟨i, hi, hid⟩
    obtain ⟨es, rfl⟩ := map_of_member hid
    exact ⟨es, rfl, (member_eq_ok hv byteString_exact).mp hid, (optionalText_eq_ok hv).mp hname,
      (optionalText_eq_ok hv).mp hdisplay⟩
  · rintro ⟨es, rfl, hid, hname, hdisplay⟩
    obtain ⟨i, hi, hid⟩ := bind_eq_ok.mp ((member_eq_ok hv byteString_exact).mpr hid)
    refine bind_eq_ok.mpr ⟨i, hi, bind_eq_ok.mpr ⟨_, hid, ?_⟩⟩
    refine bind_eq_ok.mpr ⟨_, (optionalText_eq_ok hv).mpr hname, ?_⟩
    exact bind_eq_ok.mpr ⟨_, (optionalText_eq_ok hv).mpr hdisplay, rfl⟩

theorem parsedAuthData_eq_ok {bytes : Bytes} {d : AuthenticatorData} :
    parsedAuthData bytes = .ok d ↔ ∃ p, Divides bytes p d := by
  rw [← parse_eq_ok, parsedAuthData]
  cases AuthenticatorData.parse bytes with
  | ok data => simp
  | error halt => cases halt <;> simp

theorem authData_exact : Exact (fun value => do parsedAuthData (← byteString value))
    SpellsAuthData := by
  intro v d _
  rw [bind_eq_ok]
  constructor
  · rintro ⟨bytes, hbytes, h⟩
    obtain ⟨p, hp⟩ := parsedAuthData_eq_ok.mp h
    obtain rfl := hp.raw
    exact ⟨p, byteString_eq_ok.mp hbytes, hp⟩
  · rintro ⟨p, hbytes, hp⟩
    exact ⟨d.raw, byteString_eq_ok.mpr hbytes, parsedAuthData_eq_ok.mpr ⟨p, hp⟩⟩

theorem statement_exact : Exact (fun value => do
    let entries ← required value.asMap
    if entries.any fun entry => entry.1.asText.isNone then .error invalid
    else .ok value) SpellsStatement := by
  intro v statement _
  rw [bind_eq_ok]
  constructor
  · rintro ⟨es, hes, h⟩
    obtain rfl := asMap_eq_ok.mp hes
    split_ifs at h with hany
    cases h
    refine ⟨rfl, es, rfl, ?_⟩
    intro e he
    have htext : ¬ e.1.asText.isNone = true := fun hnone =>
      hany (List.any_eq_true.mpr ⟨e, he, hnone⟩)
    cases hname : e.1.asText with
    | none =>
      rw [hname] at htext
      exact absurd rfl htext
    | some name => exact ⟨name, text_eq_ok.mp (required_eq_ok.mpr hname)⟩
  · rintro ⟨rfl, es, rfl, htexts⟩
    refine ⟨es, asMap_eq_ok.mpr rfl, if_neg ?_⟩
    intro hany
    obtain ⟨e, he, hnone⟩ := List.any_eq_true.mp hany
    obtain ⟨name, hname⟩ := htexts e he
    rw [hname] at hnone
    cases hnone

end members

section extensions

variable {bytes : Bytes} {p : Parts} {d : AuthenticatorData}

/-- The extensions of divided data are the entries of a strict map. -/
theorem extensions_found (h : Divides bytes p d) :
    DistinctKeys (.map (extensionEntries d)) ∧
      ∀ name, d.extensions.bind (·.mapGetText name) =
        (Value.map (extensionEntries d)).mapGetText name := by
  have hext := h.extensions
  rw [extensionEntries]
  cases hd : d.extensions with
  | none => exact ⟨everywhere_map.mpr ⟨List.nodup_nil, by simp⟩, fun _ => rfl⟩
  | some v =>
    rw [hd] at hext
    cases hp : p.extensions with
    | none =>
      rw [hp] at hext
      cases hext
    | some section_ =>
      rw [hp] at hext
      cases hext with
      | present _ hr =>
        obtain ⟨entries, rfl, _⟩ := hr.keys
        exact ⟨hr.item.distinct, fun _ => rfl⟩

theorem declarationSupported_eq_ok (h : Divides bytes p d) {b : Bool} :
    declarationSupported d = .ok b ↔
      ∃ x, Announced (extensionEntries d) (.text extHmacSecret) SpellsBool x ∧
        b = x.getD false := by
  obtain ⟨hdistinct, hfound⟩ := extensions_found h
  have hlooked {x : Option Bool} :
      looked (d.extensions.bind (·.mapGetText extHmacSecret)) boolean = .ok x ↔
        Announced (extensionEntries d) (.text extHmacSecret) SpellsBool x := by
    rw [hfound]
    exact looked_eq_ok hdistinct boolean_exact
  have hdeclared : declarationSupported d =
      (looked (d.extensions.bind (·.mapGetText extHmacSecret)) boolean).map (·.getD false) := by
    simp only [declarationSupported, extHmacSecret]
    cases d.extensions.bind (·.mapGetText "hmac-secret") with
    | none => rfl
    | some value =>
      dsimp only [looked, Option.elim_some]
      rw [boolean]
      cases required value.asBool <;> rfl
  rw [hdeclared, map_eq_ok]
  simp only [hlooked, eq_comm]

theorem output_exact (aes : Aes256Cbc) (input : HmacSecretInput) :
    Exact (fun value => do input.decryptOutput aes (← byteString value))
      (SpellsOutput aes input) := by
  intro v output _
  rw [bind_eq_ok]
  constructor
  · rintro ⟨ciphertext, hbytes, h⟩
    exact ⟨ciphertext, byteString_eq_ok.mp hbytes, h⟩
  · rintro ⟨ciphertext, hbytes, h⟩
    exact ⟨ciphertext, byteString_eq_ok.mpr hbytes, h⟩

theorem exchangeOutput_eq_ok (h : Divides bytes p d) {aes : Aes256Cbc} {name : String}
    {input : Option HmacSecretInput} {output : Option Bytes} :
    exchangeOutput aes d name input = .ok output ↔ Outputs aes d name input output := by
  obtain ⟨hdistinct, hfound⟩ := extensions_found h
  cases input with
  | none =>
    constructor
    · intro hout
      cases hout
      exact .unasked
    · intro hout
      cases hout
      rfl
  | some input =>
    have hmember {out : Bytes} :
        (do
          let value ← required (d.extensions.bind (·.mapGetText name))
          let ciphertext ← byteString value
          input.decryptOutput aes ciphertext) = .ok out ↔
          Announced (extensionEntries d) (.text name) (SpellsOutput aes input) (some out) := by
      rw [hfound]
      exact member_eq_ok hdistinct (output_exact aes input)
    have hexchange : exchangeOutput aes d name (some input) = (do
        let value ← required (d.extensions.bind (·.mapGetText name))
        let ciphertext ← byteString value
        input.decryptOutput aes ciphertext).map some := by
      simp only [exchangeOutput]
      cases d.extensions.bind (·.mapGetText name) with
      | none => rfl
      | some value =>
        dsimp only [required, bind, Except.bind]
        cases hbytes : value.asBytes <;> simp only [byteString, hbytes, required, Except.map]
    rw [hexchange, map_eq_ok]
    constructor
    · rintro ⟨out, hout, rfl⟩
      exact .asked (hmember.mp hout)
    · intro hout
      cases hout with
      | asked hout => exact ⟨_, hmember.mpr hout, rfl⟩

end extensions

section responses

variable {aes : Aes256Cbc} {input : Option HmacSecretInput} {bytes : Bytes}

theorem parseMakeCredential_eq_ok (hlen : bytes.length ≤ usizeMax) {r : MakeCredentialResponse} :
    parseMakeCredential aes input bytes = .ok r ↔
      ∃ es, Strict bytes (.map es) ∧ SpellsCredential aes input es r := by
  constructor
  · intro h
    obtain ⟨value, hvalue, h⟩ := bind_eq_ok.mp h
    obtain ⟨es, hes, h⟩ := bind_eq_ok.mp h
    have hstrict := (decoded_eq_ok hlen).mp hvalue
    obtain rfl := asMap_eq_ok.mp hes
    have hd := hstrict.distinct
    obtain ⟨f, hf, h⟩ := bind_eq_ok.mp h
    obtain ⟨fmt, hfmt, h⟩ := bind_eq_ok.mp h
    obtain ⟨m, hm, h⟩ := bind_eq_ok.mp h
    obtain ⟨raw, hraw, h⟩ := bind_eq_ok.mp h
    obtain ⟨authData, hauth, h⟩ := bind_eq_ok.mp h
    obtain ⟨statement, hstatement, h⟩ := bind_eq_ok.mp h
    obtain ⟨entries, hentries, h⟩ := bind_eq_ok.mp h
    split_ifs at h with hany
    obtain ⟨supported, hsupported, h⟩ := bind_eq_ok.mp h
    obtain ⟨output, houtput, h⟩ := bind_eq_ok.mp h
    obtain ⟨epAtt, hepAtt, h⟩ := bind_eq_ok.mp h
    obtain ⟨largeBlobKey, hkey, h⟩ := bind_eq_ok.mp h
    cases h
    obtain ⟨p, hp⟩ := parsedAuthData_eq_ok.mp hauth
    have hauthData : (do parsedAuthData (← byteString m)) = .ok authData :=
      bind_eq_ok.mpr ⟨raw, hraw, hauth⟩
    have hread : (do
        let entries ← required statement.asMap
        if entries.any fun entry => entry.1.asText.isNone then .error invalid
        else .ok statement : Except Error Value) = .ok statement :=
      bind_eq_ok.mpr ⟨entries, hentries, if_neg hany⟩
    refine ⟨es, hstrict, ?_⟩
    constructor
    · exact (member_eq_ok hd text_exact).mp (bind_eq_ok.mpr ⟨f, hf, hfmt⟩)
    · exact (member_eq_ok hd authData_exact).mp (bind_eq_ok.mpr ⟨m, hm, hauthData⟩)
    · exact (member_eq_ok hd statement_exact).mp (bind_eq_ok.mpr ⟨statement, hstatement, hread⟩)
    · exact (opt_eq_ok hd boolean_exact).mp hepAtt
    · exact (opt_eq_ok hd byteString_exact).mp hkey
    · exact (declarationSupported_eq_ok hp).mp hsupported
    · exact (exchangeOutput_eq_ok hp).mp houtput
  · rintro ⟨es, hstrict, h⟩
    have hd := hstrict.distinct
    obtain ⟨f, hf, hfmt⟩ := bind_eq_ok.mp ((member_eq_ok hd text_exact).mpr h.fmt)
    obtain ⟨m, hm, hauth⟩ := bind_eq_ok.mp ((member_eq_ok hd authData_exact).mpr h.authData)
    obtain ⟨raw, hraw, hauth⟩ := bind_eq_ok.mp hauth
    obtain ⟨p, hp⟩ := parsedAuthData_eq_ok.mp hauth
    obtain ⟨w, hw, hstatement⟩ := bind_eq_ok.mp ((member_eq_ok hd statement_exact).mpr h.attStmt)
    obtain ⟨entries, hentries, hstatement⟩ := bind_eq_ok.mp hstatement
    split_ifs at hstatement with hany
    cases hstatement
    refine bind_eq_ok.mpr ⟨_, (decoded_eq_ok hlen).mpr hstrict, ?_⟩
    refine bind_eq_ok.mpr ⟨_, asMap_eq_ok.mpr rfl, ?_⟩
    refine bind_eq_ok.mpr ⟨_, hf, bind_eq_ok.mpr ⟨_, hfmt, ?_⟩⟩
    refine bind_eq_ok.mpr ⟨_, hm, bind_eq_ok.mpr ⟨_, hraw, ?_⟩⟩
    refine bind_eq_ok.mpr ⟨_, hauth, bind_eq_ok.mpr ⟨_, hw, ?_⟩⟩
    refine bind_eq_ok.mpr ⟨_, hentries, ?_⟩
    rw [if_neg hany]
    refine bind_eq_ok.mpr ⟨_, (declarationSupported_eq_ok hp).mpr h.supported, ?_⟩
    refine bind_eq_ok.mpr ⟨_, (exchangeOutput_eq_ok hp).mpr h.output, ?_⟩
    refine bind_eq_ok.mpr ⟨_, (opt_eq_ok hd boolean_exact).mpr h.epAtt, ?_⟩
    exact bind_eq_ok.mpr ⟨_, (opt_eq_ok hd byteString_exact).mpr h.largeBlobKey, rfl⟩

theorem parseGetAssertion_eq_ok (hlen : bytes.length ≤ usizeMax) {r : GetAssertionResponse} :
    parseGetAssertion aes input bytes = .ok r ↔
      ∃ es, Strict bytes (.map es) ∧ SpellsAssertion aes input es r := by
  constructor
  · intro h
    obtain ⟨value, hvalue, h⟩ := bind_eq_ok.mp h
    obtain ⟨es, hes, h⟩ := bind_eq_ok.mp h
    have hstrict := (decoded_eq_ok hlen).mp hvalue
    obtain rfl := asMap_eq_ok.mp hes
    have hd := hstrict.distinct
    obtain ⟨credential, hcredential, h⟩ := bind_eq_ok.mp h
    obtain ⟨m, hm, h⟩ := bind_eq_ok.mp h
    obtain ⟨raw, hraw, h⟩ := bind_eq_ok.mp h
    obtain ⟨authData, hauth, h⟩ := bind_eq_ok.mp h
    obtain ⟨s, hs, h⟩ := bind_eq_ok.mp h
    obtain ⟨signature, hsignature, h⟩ := bind_eq_ok.mp h
    obtain ⟨user, huser, h⟩ := bind_eq_ok.mp h
    obtain ⟨output, houtput, h⟩ := bind_eq_ok.mp h
    obtain ⟨number, hnumber, h⟩ := bind_eq_ok.mp h
    obtain ⟨selected, hselected, h⟩ := bind_eq_ok.mp h
    obtain ⟨largeBlobKey, hkey, h⟩ := bind_eq_ok.mp h
    cases h
    obtain ⟨p, hp⟩ := parsedAuthData_eq_ok.mp hauth
    have hauthData : (do parsedAuthData (← byteString m)) = .ok authData :=
      bind_eq_ok.mpr ⟨raw, hraw, hauth⟩
    refine ⟨es, hstrict, ?_⟩
    constructor
    · exact (opt_eq_ok hd parseDescriptor_exact).mp hcredential
    · exact (member_eq_ok hd authData_exact).mp (bind_eq_ok.mpr ⟨m, hm, hauthData⟩)
    · exact (member_eq_ok hd byteString_exact).mp (bind_eq_ok.mpr ⟨s, hs, hsignature⟩)
    · exact (opt_eq_ok hd parseUser_exact).mp huser
    · exact (opt_eq_ok hd uint64_exact).mp hnumber
    · exact (opt_eq_ok hd boolean_exact).mp hselected
    · exact (opt_eq_ok hd byteString_exact).mp hkey
    · exact (exchangeOutput_eq_ok hp).mp houtput
  · rintro ⟨es, hstrict, h⟩
    have hd := hstrict.distinct
    obtain ⟨m, hm, hauth⟩ := bind_eq_ok.mp ((member_eq_ok hd authData_exact).mpr h.authData)
    obtain ⟨raw, hraw, hauth⟩ := bind_eq_ok.mp hauth
    obtain ⟨p, hp⟩ := parsedAuthData_eq_ok.mp hauth
    obtain ⟨s, hs, hsignature⟩ := bind_eq_ok.mp ((member_eq_ok hd byteString_exact).mpr h.signature)
    refine bind_eq_ok.mpr ⟨_, (decoded_eq_ok hlen).mpr hstrict, ?_⟩
    refine bind_eq_ok.mpr ⟨_, asMap_eq_ok.mpr rfl, ?_⟩
    refine bind_eq_ok.mpr ⟨_, (opt_eq_ok hd parseDescriptor_exact).mpr h.credential, ?_⟩
    refine bind_eq_ok.mpr ⟨_, hm, bind_eq_ok.mpr ⟨_, hraw, bind_eq_ok.mpr ⟨_, hauth, ?_⟩⟩⟩
    refine bind_eq_ok.mpr ⟨_, hs, bind_eq_ok.mpr ⟨_, hsignature, ?_⟩⟩
    refine bind_eq_ok.mpr ⟨_, (opt_eq_ok hd parseUser_exact).mpr h.user, ?_⟩
    refine bind_eq_ok.mpr ⟨_, (exchangeOutput_eq_ok hp).mpr h.output, ?_⟩
    refine bind_eq_ok.mpr ⟨_, (opt_eq_ok hd uint64_exact).mpr h.numberOfCredentials, ?_⟩
    refine bind_eq_ok.mpr ⟨_, (opt_eq_ok hd boolean_exact).mpr h.userSelected, ?_⟩
    exact bind_eq_ok.mpr ⟨_, (opt_eq_ok hd byteString_exact).mpr h.largeBlobKey, rfl⟩

end responses

section card

variable {κ : Type*} {respond : κ → Bytes → Bytes × κ} {a : κ} {options : OperationOptions}
  {aes : Aes256Cbc} {params : GetAssertionParams}

/-- A payload that is the strict encoding of a credential. -/
def CredentialPayload (aes : Aes256Cbc) (input : Option HmacSecretInput)
    (r : MakeCredentialResponse) (payload : Bytes) : Prop :=
  ∃ es, Strict payload (.map es) ∧ SpellsCredential aes input es r

def AssertionPayload (aes : Aes256Cbc) (input : Option HmacSecretInput) (r : GetAssertionResponse)
    (payload : Bytes) : Prop :=
  ∃ es, Strict payload (.map es) ∧ SpellsAssertion aes input es r

/-- The parameters reach the authenticator once, in one encoded map, and the operation reports
exactly what its answer spells. -/
theorem makeCredential_reports {params : MakeCredentialParams}
    {op : Operation (Sequence MakeCredentialResponse) MakeCredentialResponse}
    (hop : makeCredential aes params options = .ok op)
    (hroom : ∀ body, encode (fieldMap params.fields) = .ok body →
      Room options (0x01 :: body) (respond a (0x01 :: body)).1) :
    ∃ body, encode (fieldMap params.fields) = .ok body ∧
      Reports (CredentialPayload aes params.hmacSecretMc) (respond a (0x01 :: body)).1
        (execute (sequence MakeCredentialResponse) (messageApplet respond) op a).1 ∧
      (execute (sequence MakeCredentialResponse) (messageApplet respond) op a).2 =
        (respond a (0x01 :: body)).2 := by
  rw [makeCredential] at hop
  split_ifs at hop
  obtain ⟨body, hbody, hop⟩ := bind_eq_ok.mp hop
  exact ⟨body, hbody, typed_reports (fun _ _ hlen => parseMakeCredential_eq_ok hlen) hop
    (hroom body hbody)⟩

theorem getAssertion_reports
    {op : Operation (Sequence GetAssertionResponse) GetAssertionResponse}
    (hop : getAssertion aes params options = .ok op)
    (hroom : ∀ body, encode (fieldMap params.fields) = .ok body →
      Room options (0x02 :: body) (respond a (0x02 :: body)).1) :
    ∃ body, encode (fieldMap params.fields) = .ok body ∧
      Reports (AssertionPayload aes params.hmacSecret) (respond a (0x02 :: body)).1
        (execute (sequence GetAssertionResponse) (messageApplet respond) op a).1 ∧
      (execute (sequence GetAssertionResponse) (messageApplet respond) op a).2 =
        (respond a (0x02 :: body)).2 := by
  rw [getAssertion] at hop
  split_ifs at hop
  obtain ⟨body, hbody, hop⟩ := bind_eq_ok.mp hop
  exact ⟨body, hbody, typed_reports (fun _ _ hlen => parseGetAssertion_eq_ok hlen) hop
    (hroom body hbody)⟩

/-- The next assertion is read without an exchange. -/
theorem getNextAssertion_reports
    {op : Operation (Sequence GetAssertionResponse) GetAssertionResponse}
    (hop : getNextAssertion aes options = .ok op)
    (hroom : Room options [commandGetNextAssertion] (respond a [commandGetNextAssertion]).1) :
    Reports (AssertionPayload aes none) (respond a [commandGetNextAssertion]).1
        (execute (sequence GetAssertionResponse) (messageApplet respond) op a).1 ∧
      (execute (sequence GetAssertionResponse) (messageApplet respond) op a).2 =
        (respond a [commandGetNextAssertion]).2 :=
  typed_reports (fun _ _ hlen => parseGetAssertion_eq_ok hlen) hop hroom

/-- The messages of all three operations reach the authenticator once and are answered by what is
reported. -/
structure ReportsExactly (aes : Aes256Cbc) (respond : κ → Bytes → Bytes × κ) (a : κ)
    (options : OperationOptions) : Prop where
  makeCredential : ∀ params op, makeCredential aes params options = .ok op →
    (∀ body, encode (fieldMap params.fields) = .ok body →
      Room options (0x01 :: body) (respond a (0x01 :: body)).1) →
    ∃ body, encode (fieldMap params.fields) = .ok body ∧
      Reports (CredentialPayload aes params.hmacSecretMc) (respond a (0x01 :: body)).1
        (execute (sequence MakeCredentialResponse) (messageApplet respond) op a).1 ∧
      (execute (sequence MakeCredentialResponse) (messageApplet respond) op a).2 =
        (respond a (0x01 :: body)).2
  getAssertion : ∀ params op, getAssertion aes params options = .ok op →
    (∀ body, encode (fieldMap params.fields) = .ok body →
      Room options (0x02 :: body) (respond a (0x02 :: body)).1) →
    ∃ body, encode (fieldMap params.fields) = .ok body ∧
      Reports (AssertionPayload aes params.hmacSecret) (respond a (0x02 :: body)).1
        (execute (sequence GetAssertionResponse) (messageApplet respond) op a).1 ∧
      (execute (sequence GetAssertionResponse) (messageApplet respond) op a).2 =
        (respond a (0x02 :: body)).2
  getNextAssertion : ∀ op, getNextAssertion aes options = .ok op →
    Room options [commandGetNextAssertion] (respond a [commandGetNextAssertion]).1 →
    Reports (AssertionPayload aes none) (respond a [commandGetNextAssertion]).1
        (execute (sequence GetAssertionResponse) (messageApplet respond) op a).1 ∧
      (execute (sequence GetAssertionResponse) (messageApplet respond) op a).2 =
        (respond a [commandGetNextAssertion]).2

theorem credentials_exact (aes : Aes256Cbc) (respond : κ → Bytes → Bytes × κ) (a : κ)
    (options : OperationOptions) : ReportsExactly aes respond a options where
  makeCredential _ _ hop hroom := makeCredential_reports hop hroom
  getAssertion _ _ hop hroom := getAssertion_reports hop hroom
  getNextAssertion _ hop hroom := getNextAssertion_reports hop hroom

end card

/-! ## A registration and a login between the platform of scalar 1 and the authenticator -/

section example_reports

open CtapClientPin CtapPinHistory CtapHmacOutput

/-- A digest of equal bytes. -/
def evenHash (b : UInt8) : ByteArrayOf 32 := ⟨List.replicate 32 b, List.length_replicate⟩

/-- The outputs of the salts, encrypted by the authenticator. -/
def exampleEnc (protocol : PinUvAuthProtocol) : Bytes :=
  if protocol = .v1 then oneEnc else vectorEnc

/-- The functions of the salts, in order. -/
def exampleOutput (protocol : PinUvAuthProtocol) : Bytes :=
  (exampleHashes.hmac credRandom firstSalt).1 ++
    if protocol = .v1 then [] else (exampleHashes.hmac credRandom secondSalt).1

/-- Authenticator data with one extension. -/
def exampleData (protocol : PinUvAuthProtocol) (name : String) : AuthenticatorData where
  raw := (evenHash 7).1 ++ [0x85, 0x00, 0x00, 0x00, 0x09, 0xa1, UInt8.ofNat (0x60 + name.length)] ++
    utf8 name ++ [0x58, UInt8.ofNat (exampleEnc protocol).length] ++ exampleEnc protocol
  rpIdHash := evenHash 7
  flags := 0x85
  signCount := 9
  attestedCredentialData := none
  extensions := some (.map [(.text name, .bytes (exampleEnc protocol))])

def exampleRegistration (protocol : PinUvAuthProtocol) : MakeCredentialParams where
  clientDataHash := evenHash 1
  rp := ⟨"r", none⟩
  user := ⟨[1], none, none⟩
  pubKeyCredParams := [.es256]
  hmacSecret := true
  hmacSecretMc := some (exampleInput protocol)

def exampleCredential (protocol : PinUvAuthProtocol) : MakeCredentialResponse where
  fmt := "none"
  authData := exampleData protocol extHmacSecretMc
  attStmt := .map []
  epAtt := some true
  largeBlobKey := none
  hmacSecretSupported := false
  hmacSecretMc := none

def exampleCredentialAnswer (protocol : PinUvAuthProtocol) : Bytes :=
  [0x00, 0xa4, 0x01, 0x64, 0x6e, 0x6f, 0x6e, 0x65, 0x02, 0x58,
      UInt8.ofNat (exampleData protocol extHmacSecretMc).raw.length] ++
    (exampleData protocol extHmacSecretMc).raw ++ [0x03, 0xa0, 0x04, 0xf5]

def exampleLogin (protocol : PinUvAuthProtocol) : GetAssertionParams where
  rpId := "r"
  clientDataHash := evenHash 1
  hmacSecret := some (exampleInput protocol)

/-- An assertion of one of two credentials. -/
def exampleAssertion (protocol : PinUvAuthProtocol) : GetAssertionResponse where
  credential := some ⟨"public-key", [9], []⟩
  authData := exampleData protocol extHmacSecret
  signature := [1, 2]
  user := some ⟨[1], none, none⟩
  numberOfCredentials := some 2
  userSelected := none
  largeBlobKey := none
  hmacSecret := none

def exampleAssertionAnswer (protocol : PinUvAuthProtocol) : Bytes :=
  [0x00, 0xa5, 0x01, 0xa2, 0x62, 0x69, 0x64, 0x41, 0x09, 0x64, 0x74, 0x79, 0x70, 0x65, 0x6a] ++
    utf8 "public-key" ++
    [0x02, 0x58, UInt8.ofNat (exampleData protocol extHmacSecret).raw.length] ++
    (exampleData protocol extHmacSecret).raw ++
    [0x03, 0x42, 0x01, 0x02, 0x04, 0xa1, 0x62, 0x69, 0x64, 0x41, 0x01, 0x05, 0x02]

theorem example_decrypted (protocol : PinUvAuthProtocol) :
    (exampleInput protocol).decryptOutput (cbc exampleCrypto.aes) (exampleEnc protocol) =
      .ok (exampleOutput protocol) := by
  cases protocol <;> decide +kernel

/-- The output of the exchange is in the extensions. -/
theorem example_asked (protocol : PinUvAuthProtocol) (name : String) :
    Outputs (cbc exampleCrypto.aes) (exampleData protocol name) name (some (exampleInput protocol))
      (some (exampleOutput protocol)) :=
  .asked ⟨_, List.mem_singleton_self _, _, rfl, example_decrypted protocol⟩

set_option maxRecDepth 8000 in
theorem exampleCredential_spelled (protocol : PinUvAuthProtocol) :
    CredentialPayload (cbc exampleCrypto.aes) none (exampleCredential protocol)
      ((exampleCredentialAnswer protocol).drop 1) := by
  have hlen : ((exampleCredentialAnswer protocol).drop 1).length ≤ usizeMax := by
    cases protocol <;> decide +kernel
  apply (parseMakeCredential_eq_ok hlen).mp
  cases protocol <;> rfl

set_option maxRecDepth 8000 in
theorem exampleAssertion_spelled (protocol : PinUvAuthProtocol) :
    AssertionPayload (cbc exampleCrypto.aes) none (exampleAssertion protocol)
      ((exampleAssertionAnswer protocol).drop 1) := by
  have hlen : ((exampleAssertionAnswer protocol).drop 1).length ≤ usizeMax := by
    cases protocol <;> decide +kernel
  apply (parseGetAssertion_eq_ok hlen).mp
  cases protocol <;> rfl

/-- A short message and a short answer have room. -/
theorem short_room {command : UInt8} {fields : List (ℕ × Value)} {short answer : Bytes}
    (hshort : encode (fieldMap fields) = .ok short) (hlen : (command :: short).length ≤ 2500)
    (hanswer : answer.length ≤ 512) : ∀ body, encode (fieldMap fields) = .ok body →
      body.length ≤ usizeMax ∧ Room {} (command :: body) answer := by
  intro body hbody
  cases hshort.symm.trans hbody
  have hword : 2500 ≤ usizeMax := by decide
  refine ⟨?_, ample_default _ _ (List.cons_ne_nil _ _) hlen hanswer⟩
  rw [List.length_cons] at hlen
  omega

set_option maxRecDepth 8000 in
/-- A registration with one salt, a login with two, and the second assertion of the login. -/
theorem credentials_exact_salts :
    (∃ op, makeCredential (cbc exampleCrypto.aes) (exampleRegistration .v1) {} = .ok op ∧
      Ends (execute (sequence MakeCredentialResponse)
        (messageApplet fun n _ => (exampleCredentialAnswer .v1, n + 1)) op 0).1
          (.ok { exampleCredential .v1 with hmacSecretMc := some (exampleOutput .v1) })) ∧
    (∃ op, getAssertion (cbc exampleCrypto.aes) (exampleLogin .v2) {} = .ok op ∧
      Ends (execute (sequence GetAssertionResponse)
        (messageApplet fun n _ => (exampleAssertionAnswer .v2, n + 1)) op 0).1
          (.ok { exampleAssertion .v2 with hmacSecret := some (exampleOutput .v2) })) ∧
    ∃ op, getNextAssertion (cbc exampleCrypto.aes) {} = .ok op ∧
      Ends (execute (sequence GetAssertionResponse)
        (messageApplet fun n _ => (exampleAssertionAnswer .v2, n + 1)) op 1).1
          (.ok (exampleAssertion .v2)) := by
  obtain ⟨es, hstrict, hspells⟩ := exampleAssertion_spelled .v2
  refine ⟨?_, ?_, ?_⟩
  · have hop : makeCredential (cbc exampleCrypto.aes) (exampleRegistration .v1) {} = .ok _ := rfl
    have hbody : encode (fieldMap (exampleRegistration .v1).fields) = .ok _ := rfl
    obtain ⟨body, _, hreports, _⟩ := (credentials_exact (cbc exampleCrypto.aes)
      (fun n _ => (exampleCredentialAnswer .v1, n + 1)) 0 {}).makeCredential _ _ hop
        fun body hsent => (short_room hbody (by decide) (by decide) body hsent).2
    obtain ⟨es, hstrict, h⟩ := exampleCredential_spelled .v1
    have hpayload : CredentialPayload (cbc exampleCrypto.aes) (some (exampleInput .v1))
        { exampleCredential .v1 with hmacSecretMc := some (exampleOutput .v1) }
        ((exampleCredentialAnswer .v1).drop 1) :=
      ⟨es, hstrict, h.fmt, h.authData, h.attStmt, h.epAtt, h.largeBlobKey, h.supported,
        example_asked _ _⟩
    exact ⟨_, hop, (hreports.accepted _).mpr ⟨_, rfl, hpayload⟩⟩
  · have hop : getAssertion (cbc exampleCrypto.aes) (exampleLogin .v2) {} = .ok _ := rfl
    have hbody : encode (fieldMap (exampleLogin .v2).fields) = .ok _ := rfl
    obtain ⟨body, _, hreports, _⟩ := (credentials_exact (cbc exampleCrypto.aes)
      (fun n _ => (exampleAssertionAnswer .v2, n + 1)) 0 {}).getAssertion _ _ hop
        fun body hsent => (short_room hbody (by decide) (by decide) body hsent).2
    have hpayload : AssertionPayload (cbc exampleCrypto.aes) (some (exampleInput .v2))
        { exampleAssertion .v2 with hmacSecret := some (exampleOutput .v2) }
        ((exampleAssertionAnswer .v2).drop 1) :=
      ⟨es, hstrict, hspells.credential, hspells.authData, hspells.signature, hspells.user,
        hspells.numberOfCredentials, hspells.userSelected, hspells.largeBlobKey, example_asked _ _⟩
    exact ⟨_, hop, (hreports.accepted _).mpr ⟨_, rfl, hpayload⟩⟩
  · have hop : getNextAssertion (cbc exampleCrypto.aes) {} = .ok _ := rfl
    have hreports := (credentials_exact (cbc exampleCrypto.aes)
      (fun n _ => (exampleAssertionAnswer .v2, n + 1)) 1 {}).getNextAssertion _ hop
        (ample_default _ _ (List.cons_ne_nil _ _) (by decide) (by decide))
    exact ⟨_, hop, (hreports.1.accepted _).mpr ⟨_, rfl, es, hstrict, hspells⟩⟩

end example_reports

end CtapCredentialReports
