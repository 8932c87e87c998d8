import LibCanokey.PivCommand

/-! # PIV credential changes

The operations that replace or unblock the PIN and the PUK, alone and as explicit commands
inside a selected transaction. -/
namespace PivCredentials

open BigEndian ListTraversal ProtocolError ProtocolApdu ProtocolConversation ProtocolOperation
open ProtocolTlv CompatProfile PivCommand

abbrev Changing := Operation (Sequence MutationResult) MutationResult

def changeSecret (profile : DeviceProfile) (ins p2 : UInt8) (old new : Secret)
    (reference : SecretReference) (options : OperationOptions) : Except Error Changing := do
  require profile
  make profile (selected (change ins p2 old.bytes new.bytes)) options fun r => do
    requireAuth r reference
    .ok unchanged

def changePin (profile : DeviceProfile) (old new : Pin) (options : OperationOptions) :
    Except Error Changing :=
  changeSecret profile 0x24 0x80 old new .pin options

def changePuk (profile : DeviceProfile) (old new : Puk) (options : OperationOptions) :
    Except Error Changing :=
  changeSecret profile 0x24 0x81 old new .puk options

def unblockPin (profile : DeviceProfile) (puk : Puk) (newPin : Pin) (options : OperationOptions) :
    Except Error Changing :=
  changeSecret profile 0x2c 0x80 puk newPin .puk options

inductive CredentialAction where
  | verifyPin (pin : Pin)
  | logout
  | changePin (old new : Pin)
  | changePuk (old new : Puk)
  | unblockPin (puk : Puk) (newPin : Pin)

def CredentialAction.command : CredentialAction → LogicalCommand
  | .verifyPin pin => PivCommand.verifyPin pin
  | .logout => PivCommand.logout
  | .changePin old new => change 0x24 0x80 old.bytes new.bytes
  | .changePuk old new => change 0x24 0x81 old.bytes new.bytes
  | .unblockPin puk newPin => change 0x2c 0x80 puk.bytes newPin.bytes

def CredentialAction.reference : CredentialAction → Option SecretReference
  | .verifyPin _ => some .pin
  | .logout => none
  | .changePin _ _ => some .pin
  | .changePuk _ _ => some .puk
  | .unblockPin _ _ => some .puk

def CredentialAction.mutates : CredentialAction → Bool
  | .verifyPin _ => false
  | .logout => false
  | _ => true

def credentialReply (reference : Option SecretReference) (r : ResponseData) :
    Except Error MutationResult :=
  if r.data ≠ [] then .error malformed
  else do
    match reference with
    | some reference => requireAuth r reference
    | none => r.ensureSuccess .authentication
    .ok unchanged

/-- SELECT comes first only when the caller asks for it. -/
def credentialRequests (action : CredentialAction) (selecting : Bool) : List Request :=
  (if selecting then [request select .select none] else []) ++
    [request action.command .authentication action.reference]

def credential (profile : DeviceProfile) (action : CredentialAction) (selecting : Bool)
    (options : OperationOptions) : Except Error Changing := do
  require profile
  make profile (credentialRequests action selecting) options (credentialReply action.reference)

end PivCredentials
