import LibCanokey.PivCommand
import LibCanokey.ProtocolTlvFields

/-! # Host-managed protection objects

ADMIN DATA and PRINTED as the host writes them: the protection flags and the stored
management key. -/
namespace PivProtection

open BigEndian ProtocolError ProtocolTlv ProtocolTlvFields

def protectionLimits : TlvLimits := { maxValueBytes := 128, maxDepth := 4 }

/-- The one field of a template with the expected tag; every failure reports Parsing. -/
def single (data : Bytes) (expected : ℕ) : Except Error Bytes :=
  match sole (.newBer data protectionLimits) (fun field => field.tag.value == expected)
      malformed with
  | .error e => .error (e.atPhase .parsing)
  | .ok field => .ok field.value

structure ManagementProtection where
  flags : UInt8
  deriving DecidableEq, Repr

structure AdminFields where
  flags : Option UInt8 := none
  salt : Bool := false
  date : Bool := false

def AdminFields.take (admin : AdminFields) (field : Tlv) : Except Error AdminFields :=
  if field.tag.value = 0x81 ∧ admin.flags.isNone ∧ field.value.length = 1 then
    .ok { admin with flags := some (field.value.getD 0 0) }
  else if field.tag.value = 0x82 ∧ ¬ admin.salt ∧
      (field.value.length = 0 ∨ field.value.length = 16) then
    .ok { admin with salt := true }
  else if field.tag.value = 0x83 ∧ ¬ admin.date ∧ field.value.length ≤ 8 then
    .ok { admin with date := true }
  else .error malformed

def adminFlags (admin : Bytes) : Except Error ManagementProtection :=
  match readFields AdminFields.take (.newBer admin protectionLimits) {} with
  | .error e => .error (e.atPhase .parsing)
  | .ok fields =>
    match fields.flags with
    | none => .error malformed
    | some flags => .ok ⟨flags⟩

def ManagementProtection.fromAdminObject (data : Bytes) : Except Error ManagementProtection :=
  if data.length > 128 then .error ((Error.new .limitExceeded).atPhase .parsing)
  else do
    let outer ← single data 0x53
    if outer = [] then .ok ⟨0⟩
    else
      let admin ← single outer 0x80
      if admin = [] then .ok ⟨0⟩ else adminFlags admin

def ManagementProtection.claimsBlockedPuk (p : ManagementProtection) : Bool := p.flags &&& 1 != 0

def ManagementProtection.protectsManagementKey (p : ManagementProtection) : Bool :=
  p.flags &&& 2 != 0

def protectedManagementKeyFromObject (data : Bytes) : Except Error Bytes :=
  if data.length > 64 then .error ((Error.new .limitExceeded).atPhase .parsing)
  else do
    let key ← single (← single (← single data 0x53) 0x88) 0x89
    if key.length ≠ 24 then .error malformed else .ok key

end PivProtection
