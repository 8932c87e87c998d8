import LibCanokey.CtapCose
import LibCanokey.CtapSubcommand

/-! # Credential management

The messages of authenticatorCredentialManagement, its typed responses and the machine that
runs an enumeration. -/
namespace CtapCredentialManagement

open BigEndian ListTraversal ProtocolError ProtocolConversation ProtocolOperation
open CtapCbor CtapCose CtapMessage CtapFields CtapSubcommand

structure PublicKeyCredentialDescriptor where
  type : String
  id : Bytes
  transports : List String
  deriving DecidableEq

structure UserEntity where
  id : Bytes
  name : Option String
  displayName : Option String
  deriving DecidableEq

structure RelyingParty where
  id : String
  name : Option String
  deriving DecidableEq

def message (hashes : Hashes) (subcommand : UInt8) (params : Option Value)
    (protocol : PinUvAuthProtocol) (token : Option PinToken) : Except Error Bytes :=
  subcommandMessage hashes 0x0a [] subcommand params protocol token

def descriptorValue (descriptor : PublicKeyCredentialDescriptor) : Value :=
  .map ([(.text "type", .text descriptor.type), (.text "id", .bytes descriptor.id)] ++
    if descriptor.transports = [] then []
    else [(.text "transports", .array (descriptor.transports.map .text))])

def userValue (user : UserEntity) : Value :=
  .map ([(.text "id", .bytes user.id)] ++
    user.name.toList.map (fun name => (.text "name", .text name)) ++
    user.displayName.toList.map fun name => (.text "displayName", .text name))

/-- An optional text member. -/
def optionalText (value : Option Value) : Except Error (Option String) :=
  match value with
  | none => .ok none
  | some value => (required value.asText).map some

def parseDescriptor (value : Value) : Except Error PublicKeyCredentialDescriptor := do
  let type ← required ((← required (value.mapGetText "type")).asText)
  let id ← required ((← required (value.mapGetText "id")).asBytes)
  match value.mapGetText "transports" with
  | none => .ok ⟨type, id, []⟩
  | some list =>
    let items ← required list.asArray
    let transports ← items.mapM fun item => required item.asText
    .ok ⟨type, id, transports⟩

def parseUser (value : Value) : Except Error UserEntity := do
  let id ← required ((← required (value.mapGetText "id")).asBytes)
  let name ← optionalText (value.mapGetText "name")
  let displayName ← optionalText (value.mapGetText "displayName")
  .ok ⟨id, name, displayName⟩

structure CredsMetadata where
  existingResidentCredentialsCount : UInt64
  maxPossibleRemainingResidentCredentialsCount : UInt64
  deriving DecidableEq

structure RpEntry where
  rp : RelyingParty
  rpIdHash : {b : Bytes // b.length = 32}
  deriving DecidableEq

/-- Exactly one of `publicKey` and `coseAlgorithm` is present. -/
structure CredentialEntry where
  user : Option UserEntity
  credentialId : PublicKeyCredentialDescriptor
  publicKey : Option CoseKey
  credProtect : Option UInt64
  largeBlobKey : Option Bytes
  coseAlgorithm : Option ℤ
  deriving DecidableEq

def parseCredsMetadata (bytes : Bytes) : Except Error CredsMetadata := do
  let value ← decoded bytes
  let _ ← required value.asMap
  let existing ← required ((← required (value.mapGetInt 1)).asUint)
  let remaining ← required ((← required (value.mapGetInt 2)).asUint)
  .ok ⟨existing, remaining⟩

def parseRpEntry (value : Value) : Except Error RpEntry := do
  let _ ← required value.asMap
  let rpValue ← required (value.mapGetInt 3)
  let id ← required ((← required (rpValue.mapGetText "id")).asText)
  let name ← optionalText (rpValue.mapGetText "name")
  let rpIdHash ← fixedBytes (value.mapGetInt 4)
  .ok ⟨⟨id, name⟩, rpIdHash⟩

/-- `opt`. -/
def optional {α : Type} (map : Value) (key : ℤ) (parse : Value → Except Error α) :
    Except Error (Option α) :=
  match map.mapGetInt key with
  | none => .ok none
  | some value => (parse value).map some

def parseCredentialEntry (value : Value) : Except Error CredentialEntry := do
  let _ ← required value.asMap
  let user ← optional value 6 parseUser
  let credentialId ← parseDescriptor (← required (value.mapGetInt 7))
  let publicKey ← optional value 8 CoseKey.fromValue
  let coseAlgorithm ← optional value 0x80 fun value => required value.asInt
  if publicKey.isSome = coseAlgorithm.isSome then .error invalid
  else do
    let credProtect ← optional value 0x0a fun value => required value.asUint
    let largeBlobKey ← optional value 0x0b fun value => required value.asBytes
    .ok ⟨user, credentialId, publicKey, credProtect, largeBlobKey, coseAlgorithm⟩

inductive Stage where
  | select
  | begin
  | getNext
  deriving DecidableEq, Repr

structure Enumerate (T : Type) where
  stage : Stage
  beginMessage : Bytes
  getNextMessage : Bytes
  totalKey : ℤ
  parseEntry : Value → Except Error T
  maxGetNext : ℕ
  items : List T
  remaining : ℕ

variable {T : Type}

def Enumerate.selectNext (s : Enumerate T) (response : Option ResponseData) :
    Except Error (Action (List T)) × Enumerate T :=
  match response with
  | none => (.ok (.command select), s)
  | some r =>
    match r.ensureSuccess .select with
    | .error e => (.error e, s)
    | .ok () => (.ok (.command (msg s.beginMessage)), { s with stage := .begin })

/-- The total and the first entry of a Begin response; nothing when there are no entries. -/
def Enumerate.beginResponse (s : Enumerate T) (response : ResponseData) :
    Except Error (Option (T × ℕ)) := do
  let split ← splitStatus response
  if split.status.raw = 0x2e then .ok none
  else do
    split.status.ensure .command
    let value ← decoded split.payload
    let _ ← required value.asMap
    let total ← required ((← required (value.mapGetInt s.totalKey)).asUint)
    if total = 0 then .error invalid
    else do
      let item ← s.parseEntry value
      .ok (some (item, total.toNat - 1))

def Enumerate.beginNext (s : Enumerate T) (response : ResponseData) :
    Except Error (Action (List T)) × Enumerate T :=
  match s.beginResponse response with
  | .error e => (.error e, s)
  | .ok none => (.ok (.done []), s)
  | .ok (some (item, remaining)) =>
    let s := { s with items := s.items ++ [item], remaining := remaining }
    if remaining > s.maxGetNext then (.error limit, s)
    else if remaining = 0 then (.ok (.done s.items), { s with items := [] })
    else (.ok (.command (msg s.getNextMessage)), { s with stage := .getNext })

def Enumerate.entryResponse (s : Enumerate T) (response : ResponseData) : Except Error T := do
  let split ← splitStatus response
  split.status.ensure .command
  s.parseEntry (← decoded split.payload)

def Enumerate.entryNext (s : Enumerate T) (response : ResponseData) :
    Except Error (Action (List T)) × Enumerate T :=
  match s.entryResponse response with
  | .error e => (.error e, s)
  | .ok item =>
    let s := { s with items := s.items ++ [item], remaining := s.remaining - 1 }
    if s.remaining = 0 then (.ok (.done s.items), { s with items := [] })
    else (.ok (.command (msg s.getNextMessage)), s)

def Enumerate.next (s : Enumerate T) (response : Option ResponseData) :
    Except Error (Action (List T)) × Enumerate T :=
  match s.stage, response with
  | .select, response => s.selectNext response
  | _, none => (.error (.new .protocolViolation), s)
  | .begin, some response => s.beginNext response
  | .getNext, some response => s.entryNext response

def enumeration (T : Type) : Machine (Enumerate T) (List T) where
  next := Enumerate.next

def withinInput (message : Bytes) (options : OperationOptions) : Except Error Unit :=
  if message.length > options.limits.maxInputBytes then .error (.new .limitExceeded) else .ok ()

def enumerate (beginMessage getNextMessage : Bytes) (totalKey : ℤ)
    (parseEntry : Value → Except Error T) (options : OperationOptions) :
    Except Error (Operation (Enumerate T) (List T)) := do
  let options ← options.validate
  withinInput beginMessage options
  validateCommand (msg beginMessage) options
  withinInput getNextMessage options
  validateCommand (msg getNextMessage) options
  validateCommand select options
  Operation.fromMachine
    { stage := .select
      beginMessage := beginMessage
      getNextMessage := getNextMessage
      totalKey := totalKey
      parseEntry := parseEntry
      maxGetNext := options.limits.maxExchanges - 2
      items := []
      remaining := 0 } options

def getCredsMetadata (hashes : Hashes) (token : PinToken) (protocol : PinUvAuthProtocol)
    (options : OperationOptions) :
    Except Error (Operation (Sequence CredsMetadata) CredsMetadata) :=
  do
  let message ← message hashes 0x01 none protocol (some token)
  selectThen message options fun response => typed response parseCredsMetadata

def enumerateRps (hashes : Hashes) (token : PinToken) (protocol : PinUvAuthProtocol)
    (options : OperationOptions) : Except Error (Operation (Enumerate RpEntry) (List RpEntry)) := do
  let beginMessage ← message hashes 0x02 none protocol (some token)
  let getNextMessage ← message hashes 0x03 none protocol none
  enumerate beginMessage getNextMessage 5 parseRpEntry options

def enumerateCredentialsParams (rpIdHash : {b : Bytes // b.length = 32}) (metadataOnly : Bool) :
    Value :=
  .map ([(uint 0x01, .bytes rpIdHash.1)] ++ if metadataOnly then [(uint 0x80, .bool true)] else [])

def enumerateCredentials (hashes : Hashes) (token : PinToken) (protocol : PinUvAuthProtocol)
    (rpIdHash : {b : Bytes // b.length = 32}) (metadataOnly : Bool) (options : OperationOptions) :
    Except Error (Operation (Enumerate CredentialEntry) (List CredentialEntry)) := do
  let params := enumerateCredentialsParams rpIdHash metadataOnly
  let beginMessage ← message hashes 0x04 (some params) protocol (some token)
  let getNextMessage ← message hashes 0x05 none protocol none
  enumerate beginMessage getNextMessage 9 parseCredentialEntry options

def deleteCredentialParams (credentialId : PublicKeyCredentialDescriptor) : Value :=
  .map [(uint 0x02, descriptorValue credentialId)]

def deleteCredential (hashes : Hashes) (token : PinToken) (protocol : PinUvAuthProtocol)
    (credentialId : PublicKeyCredentialDescriptor) (options : OperationOptions) :
    Except Error (Operation (Sequence Unit) Unit) :=
  if credentialId.id = [] then .error (.new .invalidArgument)
  else do
    let message ← message hashes 0x06 (some (deleteCredentialParams credentialId)) protocol
      (some token)
    selectThen message options fun response => typed response emptyPayload

def maxUserIdLen : ℕ := 64

def updateUserInformationParams (credentialId : PublicKeyCredentialDescriptor)
    (user : UserEntity) : Value :=
  .map [(uint 0x02, descriptorValue credentialId), (uint 0x03, userValue user)]

def updateUserInformation (hashes : Hashes) (token : PinToken) (protocol : PinUvAuthProtocol)
    (credentialId : PublicKeyCredentialDescriptor) (user : UserEntity)
    (options : OperationOptions) : Except Error (Operation (Sequence Unit) Unit) :=
  if credentialId.id = [] ∨ user.id = [] ∨ user.id.length > maxUserIdLen then
    .error (.new .invalidArgument)
  else do
    let message ← message hashes 0x07 (some (updateUserInformationParams credentialId user))
      protocol (some token)
    selectThen message options fun response => typed response emptyPayload

end CtapCredentialManagement
