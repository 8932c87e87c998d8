import LibCanokey.PivAccess

/-! # The metadata directory

The compact listing of keys and certificates, with a diagnosis of each entry. Its payload
length is one plain byte. -/
namespace PivDirectory

open BigEndian ListTraversal ProtocolError ProtocolApdu ProtocolConversation ProtocolOperation
open ProtocolTlv CompatProfile PivCommand PivAccess

inductive DirectoryIssue where
  | unknownSlot
  | duplicateSlot
  | emptyFlags
  | unknownFlags
  | keyFieldsWithoutKey
  deriving DecidableEq, Repr

structure DirectoryEntry where
  reference : UInt8
  flags : UInt8
  /-- Algorithm, origin, PIN policy and touch policy. -/
  keyFields : UInt8 × UInt8 × UInt8 × UInt8
  algorithm : Option Algorithm
  issues : List DirectoryIssue
  deriving DecidableEq, Repr

structure MetadataDirectory where
  raw : Bytes
  version : UInt8
  entries : Option (List DirectoryEntry)
  deriving DecidableEq, Repr

def ordinarySlot (reference : UInt8) : Bool :=
  reference == 0x9a || reference == 0x9c || reference == 0x9d || reference == 0x9e ||
    (0x82 ≤ reference && reference ≤ 0x95)

/-- The inconsistencies of one entry; `seen` holds the references before it. -/
def entryIssues (seen : List UInt8) (reference flags : UInt8) (key : Bytes) :
    List DirectoryIssue :=
  (if ordinarySlot reference then [] else [.unknownSlot]) ++
    (if reference ∈ seen then [.duplicateSlot] else []) ++
    (if flags = 0 then [.emptyFlags] else []) ++
    (if flags &&& (~~~ 3) ≠ 0 then [.unknownFlags] else []) ++
    if flags &&& 1 = 0 ∧ key.any (· != 0) then [.keyFieldsWithoutKey] else []

def directoryEntry (profile : DeviceProfile) (seen : List UInt8) (item : Bytes) :
    DirectoryEntry :=
  let reference := item.getD 0 0
  let flags := item.getD 1 0
  { reference := reference
    flags := flags
    keyFields := (item.getD 2 0, item.getD 3 0, item.getD 4 0, item.getD 5 0)
    algorithm := if flags &&& 1 ≠ 0 then profile.algorithmFromWireId (item.getD 2 0) else none
    issues := entryIssues seen reference flags (item.drop 2) }

def directoryEntries (profile : DeviceProfile) : List UInt8 → List Bytes → List DirectoryEntry
  | _, [] => []
  | seen, item :: items =>
    directoryEntry profile seen item ::
      directoryEntries profile (item.getD 0 0 :: seen) items

/-- The entries of the known version; a payload of another one is kept undecoded. -/
def decodeEntries (profile : DeviceProfile) (version length : UInt8) (payload : Bytes) :
    Except Error (Option (List DirectoryEntry)) :=
  if version = 1 then
    if length.toNat % 6 ≠ 0 ∨ length > 144 then .error malformed
    else .ok (some (directoryEntries profile [] (chunks 6 (payload.length / 6) payload)))
  else .ok none

def MetadataDirectory.parse (profile : DeviceProfile) (data : Bytes) (limit : ℕ) :
    Except Error MetadataDirectory :=
  if data.length > limit then .error limitExceeded
  else if data.length < 5 ∨ data.take 2 ≠ [1, 1] ∨ data.getD 3 0 ≠ 2 ∨
      data.length ≠ 5 + (data.getD 4 0).toNat then .error malformed
  else do
    let entries ← decodeEntries profile (data.getD 2 0) (data.getD 4 0) (data.drop 5)
    .ok { raw := data, version := data.getD 2 0, entries := entries }

def directoryCommand : LogicalCommand := { cmd 0xf7 1 0 [] (.exact 256) with correctLe := true }

def directoryReply (profile : DeviceProfile) (limit : ℕ) (r : ResponseData) :
    Except Error MetadataDirectory := do
  r.ensureSuccess .command
  MetadataDirectory.parse profile r.data limit

def prepareDirectory (profile : DeviceProfile) (options : OperationOptions) :
    Except Error (Sequence MetadataDirectory) := do
  (profile.capability .metadataDirectory).require
  prepare directoryCommand options
    (directoryReply profile options.limits.maxTotalResponseBytes)

def readMetadataDirectory (profile : DeviceProfile) (access : Access)
    (options : OperationOptions) :
    Except Error (Operation (Selected (Sequence MetadataDirectory)) MetadataDirectory) := do
  let target ← prepareDirectory profile options
  withAccess profile access target options

end PivDirectory
