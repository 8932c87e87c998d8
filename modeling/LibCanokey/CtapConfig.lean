import LibCanokey.CtapSubcommand

/-! # Authenticator configuration

The messages of authenticatorConfig, all of them authenticated. -/
namespace CtapConfig

open BigEndian ProtocolError ProtocolConversation ProtocolOperation
open CtapCbor CtapMessage CtapSubcommand

/-- What precedes the subcommand in the authenticated input. -/
def macHeader : Bytes := List.replicate 32 0xff ++ [0x0d]

def message (hashes : Hashes) (subcommand : UInt8) (params : Option Value)
    (protocol : PinUvAuthProtocol) (token : PinToken) : Except Error Bytes :=
  subcommandMessage hashes 0x0d macHeader subcommand params protocol (some token)

def minMinPinLength : UInt8 := 4

def maxMinPinLengthRpIds : ℕ := 4

def toggleAlwaysUv (hashes : Hashes) (token : PinToken) (protocol : PinUvAuthProtocol)
    (options : OperationOptions) : Except Error (Operation (Sequence Unit) Unit) := do
  let message ← message hashes 0x02 none protocol token
  selectThen message options fun response => typed response emptyPayload

def setMinPinLengthParams (newMinPinLength : UInt8) (forcePinChange : Option Bool)
    (rpIds : List String) : Value :=
  .map ([(uint 0x01, uint newMinPinLength.toNat)] ++
    (if rpIds = [] then [] else [(uint 0x02, .array (rpIds.map .text))]) ++
    forcePinChange.toList.map fun force => (uint 0x03, .bool force))

def setMinPinLength (hashes : Hashes) (token : PinToken) (protocol : PinUvAuthProtocol)
    (newMinPinLength : UInt8) (forcePinChange : Option Bool) (rpIds : List String)
    (options : OperationOptions) : Except Error (Operation (Sequence Unit) Unit) :=
  if newMinPinLength < minMinPinLength ∨ rpIds.length > maxMinPinLengthRpIds ∨ "" ∈ rpIds then
    .error (.new .invalidArgument)
  else do
    let params := setMinPinLengthParams newMinPinLength forcePinChange rpIds
    let message ← message hashes 0x03 (some params) protocol token
    selectThen message options fun response => typed response emptyPayload

def enableLongTouchForReset (hashes : Hashes) (token : PinToken) (protocol : PinUvAuthProtocol)
    (options : OperationOptions) : Except Error (Operation (Sequence Unit) Unit) := do
  let message ← message hashes 0x04 none protocol token
  selectThen message options fun response => typed response emptyPayload

end CtapConfig
