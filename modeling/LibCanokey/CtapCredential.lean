import LibCanokey.CtapCredentialManagement
import LibCanokey.CtapHmacSecret

/-! # Making credentials and assertions

The requests of authenticatorMakeCredential and authenticatorGetAssertion and their typed
responses. A build without the feature `clientpin` has no hmac-secret inputs: there they are
`none`. -/
namespace CtapCredential

open BigEndian ListTraversal ProtocolError ProtocolConversation ProtocolOperation
open CtapCbor CtapCose CtapMessage CtapCredentialManagement CtapAuthData CtapHmacSecret

def extHmacSecret : String := "hmac-secret"

def extHmacSecretMc : String := "hmac-secret-mc"

def maxUserIdLen : ℕ := 64

/-- A parameter of one of the two widths, whatever the protocol. -/
structure PinUvAuth where
  protocol : PinUvAuthProtocol
  param : {b : Bytes // b.length = 16 ∨ b.length = 32}

def PinUvAuth.new (protocol : PinUvAuthProtocol) (param : Bytes) : Except Error PinUvAuth :=
  if h : param.length = 16 ∨ param.length = 32 then .ok ⟨protocol, param, h⟩
  else .error invalidArgument

/-- `RelyingParty::to_value`. -/
def relyingPartyValue (rp : RelyingParty) : Value :=
  .map ([(.text "id", .text rp.id)] ++ rp.name.toList.map fun name => (.text "name", .text name))

structure MakeCredentialParams where
  clientDataHash : ByteArrayOf 32
  rp : RelyingParty
  user : UserEntity
  pubKeyCredParams : List CoseAlgorithm
  excludeList : List PublicKeyCredentialDescriptor := []
  extensions : List (String × Value) := []
  options : List (String × Bool) := []
  pinUvAuth : Option PinUvAuth := none
  enterpriseAttestation : Option UInt32 := none
  hmacSecret : Bool := false
  hmacSecretMc : Option HmacSecretInput := none

structure GetAssertionParams where
  rpId : String
  clientDataHash : ByteArrayOf 32
  allowList : List PublicKeyCredentialDescriptor := []
  extensions : List (String × Value) := []
  options : List (String × Bool) := []
  pinUvAuth : Option PinUvAuth := none
  hmacSecret : Option HmacSecretInput := none

def extensionMap (entries : List (String × Value)) : Value :=
  .map (entries.map fun entry => (.text entry.1, entry.2))

def optionMap (entries : List (String × Bool)) : Value :=
  .map (entries.map fun entry => (.text entry.1, .bool entry.2))

def algorithmValue (algorithm : CoseAlgorithm) : Value :=
  .map [(.text "type", .text "public-key"), (.text "alg", .fromInt algorithm.id)]

/-- A member that is left out when its list is empty. -/
def listMember {α : Type} (key : ℕ) (entries : List α) (value : Value) : List (ℕ × Value) :=
  if entries = [] then [] else [(key, value)]

def authMembers (key : ℕ) (pinUvAuth : Option PinUvAuth) : List (ℕ × Value) :=
  match pinUvAuth with
  | none => []
  | some auth => [(key, .bytes auth.param.1), (key + 1, uint auth.protocol.toU8.toNat)]

/-- A name is among the raw extensions. -/
def rawExtension (extensions : List (String × Value)) (name : String) : Bool :=
  extensions.any fun entry => entry.1 == name

/-- The raw extensions and after them the typed ones. -/
def MakeCredentialParams.allExtensions (params : MakeCredentialParams) : List (String × Value) :=
  params.extensions ++ (if params.hmacSecret then [(extHmacSecret, .bool true)] else []) ++
    params.hmacSecretMc.toList.map fun input => (extHmacSecretMc, input.toValue)

def MakeCredentialParams.fields (params : MakeCredentialParams) : List (ℕ × Value) :=
  [(1, .bytes params.clientDataHash.1), (2, relyingPartyValue params.rp),
    (3, userValue params.user), (4, .array (params.pubKeyCredParams.map algorithmValue))] ++
  listMember 5 params.excludeList (.array (params.excludeList.map descriptorValue)) ++
  listMember 6 params.allExtensions (extensionMap params.allExtensions) ++
  listMember 7 params.options (optionMap params.options) ++
  authMembers 8 params.pinUvAuth ++
  params.enterpriseAttestation.toList.map fun n => (10, uint n.toNat)

/-- What the constructor rejects. -/
def MakeCredentialParams.Refused (params : MakeCredentialParams) : Prop :=
  params.rp.id = "" ∨ params.user.id = [] ∨ maxUserIdLen < params.user.id.length ∨
    params.pubKeyCredParams = [] ∨
    (∃ n ∈ params.enterpriseAttestation, ¬ (1 ≤ n ∧ n ≤ 2)) ∨
    (params.hmacSecret = true ∧ rawExtension params.extensions extHmacSecret = true) ∨
    (params.hmacSecretMc.isSome = true ∧
      (params.hmacSecret = false ∨ rawExtension params.extensions extHmacSecretMc = true))

instance (params : MakeCredentialParams) : Decidable params.Refused := by
  unfold MakeCredentialParams.Refused
  infer_instance

structure MakeCredentialResponse where
  fmt : String
  authData : AuthenticatorData
  attStmt : Value
  epAtt : Option Bool
  largeBlobKey : Option Bytes
  hmacSecretSupported : Bool
  hmacSecretMc : Option Bytes

structure GetAssertionResponse where
  credential : Option PublicKeyCredentialDescriptor
  authData : AuthenticatorData
  signature : Bytes
  user : Option UserEntity
  numberOfCredentials : Option UInt64
  userSelected : Option Bool
  largeBlobKey : Option Bytes
  hmacSecret : Option Bytes

/-- `opt`: an absent member is no error. -/
def opt {T : Type} (map : Value) (key : ℤ) (parse : Value → Except Error T) :
    Except Error (Option T) :=
  match map.mapGetInt key with
  | none => .ok none
  | some value => (parse value).map some

/-- A panic cannot occur and would be no answer. -/
def parsedAuthData (bytes : Bytes) : Except Error AuthenticatorData :=
  match AuthenticatorData.parse bytes with
  | .ok data => .ok data
  | .error (.refused e) => .error e
  | .error .panicked => .error invalid

def parseMakeCredential (aes : Aes256Cbc) (input : Option HmacSecretInput) (bytes : Bytes) :
    Except Error MakeCredentialResponse := do
  let value ← decoded bytes
  let _ ← required value.asMap
  let fmt ← required ((← required (value.mapGetInt 1)).asText)
  let authData ← parsedAuthData (← required ((← required (value.mapGetInt 2)).asBytes))
  let attStmt ← required (value.mapGetInt 3)
  let entries ← required attStmt.asMap
  if entries.any fun entry => entry.1.asText.isNone then .error invalid
  else do
    let supported ← declarationSupported authData
    let output ← exchangeOutput aes authData extHmacSecretMc input
    let epAtt ← opt value 4 fun value => required value.asBool
    let largeBlobKey ← opt value 5 fun value => required value.asBytes
    .ok ⟨fmt, authData, attStmt, epAtt, largeBlobKey, supported, output⟩

def parseGetAssertion (aes : Aes256Cbc) (input : Option HmacSecretInput) (bytes : Bytes) :
    Except Error GetAssertionResponse := do
  let value ← decoded bytes
  let _ ← required value.asMap
  let credential ← opt value 1 parseDescriptor
  let authData ← parsedAuthData (← required ((← required (value.mapGetInt 2)).asBytes))
  let signature ← required ((← required (value.mapGetInt 3)).asBytes)
  let user ← opt value 4 parseUser
  let output ← exchangeOutput aes authData extHmacSecret input
  let numberOfCredentials ← opt value 5 fun value => required value.asUint
  let userSelected ← opt value 6 fun value => required value.asBool
  let largeBlobKey ← opt value 7 fun value => required value.asBytes
  .ok ⟨credential, authData, signature, user, numberOfCredentials, userSelected, largeBlobKey,
    output⟩

def makeCredential (aes : Aes256Cbc) (params : MakeCredentialParams) (options : OperationOptions) :
    Except Error (Operation (Sequence MakeCredentialResponse) MakeCredentialResponse) :=
  if params.Refused then .error invalidArgument
  else do
    let body ← encode (CtapFields.fieldMap params.fields)
    selectThen (0x01 :: body) options fun response =>
      typed response (parseMakeCredential aes params.hmacSecretMc)

def GetAssertionParams.allExtensions (params : GetAssertionParams) : List (String × Value) :=
  params.extensions ++ params.hmacSecret.toList.map fun input => (extHmacSecret, input.toValue)

def GetAssertionParams.fields (params : GetAssertionParams) : List (ℕ × Value) :=
  [(1, .text params.rpId), (2, .bytes params.clientDataHash.1)] ++
  listMember 3 params.allowList (.array (params.allowList.map descriptorValue)) ++
  listMember 4 params.allExtensions (extensionMap params.allExtensions) ++
  listMember 5 params.options (optionMap params.options) ++
  authMembers 6 params.pinUvAuth

def GetAssertionParams.Refused (params : GetAssertionParams) : Prop :=
  params.rpId = "" ∨
    (params.hmacSecret.isSome = true ∧ rawExtension params.extensions extHmacSecret = true)

instance (params : GetAssertionParams) : Decidable params.Refused := by
  unfold GetAssertionParams.Refused
  infer_instance

def getAssertion (aes : Aes256Cbc) (params : GetAssertionParams) (options : OperationOptions) :
    Except Error (Operation (Sequence GetAssertionResponse) GetAssertionResponse) :=
  if params.Refused then .error invalidArgument
  else do
    let body ← encode (CtapFields.fieldMap params.fields)
    selectThen (0x02 :: body) options fun response =>
      typed response (parseGetAssertion aes params.hmacSecret)

end CtapCredential
