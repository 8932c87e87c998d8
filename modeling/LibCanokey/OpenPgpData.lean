import LibCanokey.OpenPgpKeys

/-! # OpenPGP data objects

The fields that the application-related data, the cardholder data and the algorithm information
give out. -/
namespace OpenPgpData

open BigEndian ProtocolError CompatProfile OpenPgpTypes OpenPgpKeys

/-- `try_into` an array. -/
def fixed (n : ℕ) (b : Bytes) : Except Error (FixedBytes n) :=
  if h : b.length = n then .ok ⟨b, h⟩ else .error invalid

structure PasswordStatus where
  signaturePolicy : UInt8
  /-- Of PW1, the reset code and PW3. -/
  maximumLengths : UInt8 × UInt8 × UInt8
  retries : UInt8 × UInt8 × UInt8
  deriving DecidableEq, Repr

def PasswordStatus.parse : Bytes → Except Error PasswordStatus
  | [policy, pw1, reset, pw3, pw1Left, resetLeft, pw3Left] =>
    .ok ⟨policy, (pw1, reset, pw3), (pw1Left, resetLeft, pw3Left)⟩
  | _ => .error invalid

def aid (app : ApplicationData) : Except Error (Option (FixedBytes 16)) := do
  (← unique app.fields 0x4f).mapM (fixed 16)

def passwordStatus (app : ApplicationData) : Except Error (Option PasswordStatus) := do
  (← unique app.discretionary 0xc4).mapM PasswordStatus.parse

/-- The part of an aggregate of three that belongs to a slot. -/
def slotPart (slot : Slot) (n : ℕ) (b : Bytes) : Except Error (FixedBytes n) :=
  if b.length ≠ 3 * n then .error invalid
  else
    let at_ := slot.occurrence.toNat * n
    fixed n ((b.take (at_ + n)).drop at_)

def fingerprint (app : ApplicationData) (slot : Slot) : Except Error (Option (FixedBytes 20)) := do
  (← unique app.discretionary 0xc5).mapM (slotPart slot 20)

def generationTime (app : ApplicationData) (slot : Slot) : Except Error (Option ℕ) := do
  (← unique app.discretionary 0xcd).mapM fun b =>
    (slotPart slot 4 b).map fun time => ofBeBytes time.1

def touchPolicy (app : ApplicationData) (slot : Slot) : Except Error (Option (FixedBytes 2)) := do
  (← unique app.discretionary (0xd6 + slot.occurrence).toNat).mapM (fixed 2)

structure CardholderData where
  fields : List Field
  deriving DecidableEq, Repr

def CardholderData.parseWithProfile (profile : DeviceProfile) (bytes : Bytes) (limit : ℕ) :
    Except Error CardholderData := do
  let contents ← dataObjectContents profile 0x65 bytes limit
  let fields ← OpenPgpKeys.fields contents limit
  .ok ⟨fields⟩

def CardholderData.name (holder : CardholderData) : Except Error (Option Bytes) :=
  unique holder.fields 0x5b

def CardholderData.language (holder : CardholderData) : Except Error (Option Bytes) :=
  unique holder.fields 0x5f2d

def CardholderData.sex (holder : CardholderData) : Except Error (Option Bytes) :=
  unique holder.fields 0x5f35

structure AlgorithmInformation where
  raw : Bytes
  fields : List Field
  deriving DecidableEq, Repr

def AlgorithmInformation.parseWithProfile (profile : DeviceProfile) (bytes : Bytes) (limit : ℕ) :
    Except Error AlgorithmInformation := do
  let contents ← dataObjectContents profile 0xfa bytes limit
  let fields ← OpenPgpKeys.fields contents limit
  .ok ⟨bytes, fields⟩

end OpenPgpData
