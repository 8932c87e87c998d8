import LibCanokey.AdminTypes
import LibCanokey.BindingErrors
import LibCanokey.DeviceProbe
import LibCanokey.OathTypes
import LibCanokey.OpenPgpTypes
import LibCanokey.PivBatch
import LibCanokey.PivDiscovery
import LibCanokey.ProtocolTranscript

/-! # Operation handles of the C interface

A handle is an operation with the kind of its result and the mark of a call that unwound. The
functions are those of the header, with the caller's memory before and after. What a caller
reads of a handle is compared with the operation that the same calls leave behind. -/
namespace BindingOperations

open BigEndian ListTraversal ScriptedRuns ProtocolError ProtocolConversation ProtocolOperation
open ProtocolTranscript CompatProfile BindingMemory BindingErrors

/-- The variants of `Inner`, by the value that their operations return. -/
inductive Inner : Type → Type where
  | openPgp : Inner OpenPgpTypes.Outcome
  | oath : Inner OathTypes.Outcome
  | admin : Inner AdminTypes.Outcome
  | sm2Agreement : Inner PivSm2Agreement.Sm2Agreement
  | directory : Inner PivDirectory.MetadataDirectory
  | containerName : Inner PivConfiguration.ContainerName
  | probe : Inner DeviceProbe.Discovered
  | unit : Inner Unit
  | pinStatus : Inner PivDiscovery.PinStatus
  | object : Inner Bytes
  | certificate : Inner PivObjects.Certificate
  | mutation : Inner PivCommand.MutationResult
  | metadata : Inner PivMetadata.Metadata
  | batch : Inner PivBatch.BatchResults
  | publicKey : Inner KeyPublicKey.PublicKey
  | signature : Inner PivPrivate.Signature
  | algorithmConfig : Inner AlgorithmConfig

def passSlotBytes : AdminTypes.PassSlotState → Bytes
  | .off => [0x00]
  | .static appendEnter => [0x02, appendEnter.toUInt8]
  | .hmacSha1 => [0x03]
  | .oath name appendEnter => [0x01, UInt8.ofNat name.length] ++ name ++ [appendEnter.toUInt8]
  | .unknown t => [t]

/-- `admin::result_bytes`. -/
def adminBytes : AdminTypes.Value → Option Bytes
  | .bytes b => some b
  | .configuration c => some c.raw
  | .legacyConfiguration c => some c.raw
  | .legacySm2Configuration c => some c.raw
  | .appletUsage entries => some (entries.flatMap fun e =>
      e.appletId :: e.flags :: toBeBytes 4 e.logicalBytes.toNat)
  | .sm2Configuration s => some s.toBytes
  | .keyboardLayout id => some [id]
  | .keyboardKeymap map => some map.1
  | .passSlots slots => some (passSlotBytes slots.short ++ passSlotBytes slots.long)
  | _ => none

/-- The arm of the byte getter, for the variants that have one. -/
def Inner.bytes {T : Type} : Inner T → Option (T → Option Bytes)
  | .openPgp => some fun
    | .bytes b => some b
    | .signature _ b => some b
    | _ => none
  | .admin => some fun v => adminBytes v.value
  | .metadata => some fun v => some v.fields.raw
  | .signature => some fun v => some v.bytes
  | .sm2Agreement => some fun a => some a.key
  | .directory => some fun d => some d.raw
  | .containerName => some fun n => some n.utf16le
  | .algorithmConfig => some fun v => some v.raw
  | .certificate => some fun v => some v.der
  | .object => some fun v => some v
  | _ => none

def Inner.resultKind {T : Type} : Inner T → UInt32
  | .openPgp => 17
  | .oath => 16
  | .admin => 15
  | .probe => 1
  | .unit => 2
  | .pinStatus => 3
  | .object => 4
  | .certificate => 5
  | .mutation => 6
  | .metadata => 7
  | .publicKey => 8
  | .signature => 9
  | .algorithmConfig => 10
  | .batch => 11
  | .sm2Agreement => 14
  | .directory => 12
  | .containerName => 13

/-- Only the result of a probe is handed over. -/
def Inner.isProbe {T : Type} : Inner T → Bool
  | .probe => true
  | _ => false

structure CnkOperation (σ T : Type) where
  variant : Inner T
  inner : Operation σ T
  poisoned : Bool

def stepCode : Step → UInt32
  | .exchange => 1
  | .done => 2

/-- `inner.state() as u32`. -/
def stateCode : OperationState → UInt32
  | .created => 0
  | .awaitingResponse => 1
  | .completed => 2
  | .failed => 3
  | .cancelled => 4
  | .resultTaken => 5

variable {σ T : Type}

/-- A driving call, with what is then behind its output pointers. -/
structure Drove (σ T : Type) where
  code : Code
  step : Option UInt32
  error : Option CnkError
  op : CnkOperation σ T

/-- `unwound` is the operation that a call leaves behind when it unwinds instead of returning. -/
def drive (M : Machine σ T) (op : CnkOperation σ T) (step : Option UInt32)
    (error : Option CnkError) (response : Option Bytes) (unwound : Option (Operation σ T)) :
    Drove σ T :=
  match step with
  | none => ⟨.arg, none, error, op⟩
  | some _ =>
    match clearError error with
    | .error code => ⟨code, some 0, error, op⟩
    | .ok error =>
      if op.poisoned then ⟨.state, some 0, error, op⟩
      else match unwound with
        | some left => ⟨.panic, some 0, error, { op with inner := left.cancel, poisoned := true }⟩
        | none =>
          match response.elim (op.inner.start M) (op.inner.advance M) with
          | (.ok s, inner) => ⟨.ok, some (stepCode s), error, { op with inner := inner }⟩
          | (.error e, inner) =>
            ⟨(failure e error).1, some 0, (failure e error).2, { op with inner := inner }⟩

def cnkOperationStart (M : Machine σ T) (op : CnkOperation σ T) (step : Option UInt32)
    (error : Option CnkError) (unwound : Option (Operation σ T)) : Drove σ T :=
  drive M op step error none unwound

def cnkOperationAdvance (M : Machine σ T) (op : CnkOperation σ T) (response : Span)
    (step : Option UInt32) (error : Option CnkError) (unwound : Option (Operation σ T)) :
    Drove σ T :=
  match bytes response with
  | .ok r => drive M op step error (some r) unwound
  | .error code =>
    match clearError error with
    | .ok error => ⟨code, step.map fun _ => 0, error, op⟩
    | .error _ => ⟨code, step.map fun _ => 0, error, op⟩

def cnkOperationCancel (op : CnkOperation σ T) : CnkOperation σ T :=
  { op with inner := op.inner.cancel }

def cnkOperationCommand (op : CnkOperation σ T) (buffer : Option Bytes) (len : Option ℕ) :
    Copied :=
  if op.poisoned then ⟨.state, buffer, len⟩
  else match op.inner.command with
    | .ok cmd => copy cmd.bytes buffer len
    | .error _ => ⟨.state, buffer, len⟩

/-- The new profile is behind the output pointer, null unless the code is OK. -/
def cnkOperationTakeProfile (op : CnkOperation σ T) (out : Bool) :
    Code × Option T × CnkOperation σ T :=
  if ¬ out then (.arg, none, op)
  else if op.poisoned then (.state, none, op)
  else if op.variant.isProbe then
    match op.inner.takeResult with
    | (.ok p, inner) => (.ok, some p, { op with inner := inner })
    | (.error _, inner) => (.state, none, { op with inner := inner })
  else (.type, none, op)

def cnkOperationResultCopyBytes (op : CnkOperation σ T) (buffer : Option Bytes) (len : Option ℕ) :
    Copied :=
  if op.poisoned then ⟨.state, buffer, len⟩
  else match op.variant.bytes with
    | none => ⟨.type, buffer, len⟩
    | some get =>
      match op.inner.result with
      | .error _ => ⟨.state, buffer, len⟩
      | .ok v =>
        match get v with
        | some b => copy b buffer len
        | none => ⟨.type, buffer, len⟩

def cnkOperationState (op : CnkOperation σ T) (out : Option UInt32) : Code × Option UInt32 :=
  match out with
  | none => (.arg, none)
  | some before =>
    if op.poisoned then (.state, some before) else (.ok, some (stateCode op.inner.state))

def cnkOperationError (op : CnkOperation σ T) (out : Option CnkError) : Code × Option CnkError :=
  match out with
  | none => (.arg, none)
  | some before =>
    match clearError (some before) with
    | .error code => (code, some before)
    | .ok cleared =>
      if op.poisoned then (.state, cleared)
      else match op.inner.error with
        | some e => (.ok, (failure e cleared).2)
        | none => (.state, cleared)

def cnkOperationResultKind (op : CnkOperation σ T) (out : Option UInt32) : Code × Option UInt32 :=
  match out with
  | none => (.arg, none)
  | some before =>
    if op.poisoned ∨ op.inner.state ≠ .completed then (.state, some before)
    else (.ok, some op.variant.resultKind)

end BindingOperations
