import LibCanokey.BindingMemory

/-! # Errors and options of the C interface

The error record that a caller owns, the numbers its fields are written as, and the options
record. The reader at the end follows the header: what a caller makes of the numbers. -/
namespace BindingErrors

open BigEndian ProtocolError ProtocolConversation BindingMemory

structure CnkError where
  structSize : UInt32
  kind : UInt32 := 0
  phase : UInt32 := 0
  reference : UInt32 := 0
  presenceFlags : UInt32 := 0
  statusWord : UInt16 := 0
  retriesRemaining : UInt8 := 0
  applicationStatus : UInt8 := 0
  deriving DecidableEq, Repr

/-- `size_of::<CnkError>()`. -/
def errorSize : UInt32 := 24

structure CnkOptions where
  structSize : UInt32
  flags : UInt32
  maxCommandBytes : UInt32
  maxResponseBytes : UInt32
  maxTotalResponseBytes : UInt32
  maxExchanges : UInt32
  deriving DecidableEq, Repr

/-- `size_of::<CnkOptions>()`. -/
def optionsSize : UInt32 := 24

def options : Option CnkOptions → Except Code OperationOptions
  | none => .ok {}
  | some p =>
    if p.structSize < optionsSize ∨ p.flags &&& ~~~1 ≠ 0 then .error .arg
    else
      let out : OperationOptions :=
        { exchange :=
            { allowExtended := p.flags &&& 1 ≠ 0
              maxCommandBytes := p.maxCommandBytes.toNat
              maxResponseBytes := p.maxResponseBytes.toNat }
          limits :=
            { maxTotalResponseBytes := p.maxTotalResponseBytes.toNat
              maxExchanges := p.maxExchanges.toNat } }
      out.validate.mapError fun _ => .arg

/-- On an error the caller's record is untouched. -/
def clearError : Option CnkError → Except Code (Option CnkError)
  | none => .ok none
  | some p =>
    if p.structSize < errorSize then .error .arg else .ok (some { structSize := p.structSize })

def kindCode : ErrorKind → UInt32
  | .invalidArgument => 1
  | .invalidPin => 2
  | .invalidResponse => 3
  | .protocolViolation => 4
  | .limitExceeded => 5
  | .authenticationFailed => 6
  | .pinBlocked => 7
  | .securityStatusNotSatisfied => 8
  | .conditionsNotSatisfied => 9
  | .notFound => 10
  | .unsupportedDevice => 11
  | .unsupportedFeature => 12
  | .unsupportedAlgorithm => 13
  | .capabilityUnknown => 14
  | .unsupportedProtocolVersion => 15
  | .unexpectedStatusWord => 16
  | .operationStateError => 17
  | .deviceAuthenticationFailed => 18

/-- `error.phase as u32`: the place of the phase in its enumeration. -/
def phaseCode : Phase → UInt32
  | .construction => 0
  | .select => 1
  | .command => 2
  | .authentication => 3
  | .parsing => 4
  | .conversation => 5

def referenceCode : SecretReference → UInt32
  | .pin => 1
  | .puk => 2
  | .managementKey => 3
  | .adminPin => 4
  | .oathAccess => 5
  | .pw1Sign => 6
  | .pw1Other => 7
  | .pw3 => 8
  | .resetCode => 9

def failureCode (kind : ErrorKind) : Code :=
  match kind with
  | .invalidArgument | .invalidPin => .arg
  | .operationStateError => .state
  | _ => .protocol

def hasStatusWord : UInt32 := 1
def hasRetries : UInt32 := 2
def hasApplicationStatus : UInt32 := 4

/-- Write one optional field with its presence flag. -/
def present {α : Type} (flag : UInt32) (set : CnkError → α → CnkError) (value : Option α)
    (p : CnkError) : CnkError :=
  match value with
  | none => p
  | some v => set { p with presenceFlags := p.presenceFlags ||| flag } v

def describe (e : Error) (p : CnkError) : CnkError :=
  { p with
    kind := kindCode e.kind
    phase := phaseCode e.phase
    reference := e.reference.elim 0 referenceCode }
  |> present hasStatusWord (fun p sw => { p with statusWord := sw.raw }) e.statusWord
  |> present hasRetries (fun p n => { p with retriesRemaining := n }) e.retriesRemaining
  |> present hasApplicationStatus (fun p byte => { p with applicationStatus := byte })
      e.applicationStatus

def failure (e : Error) (out : Option CnkError) : Code × Option CnkError :=
  (failureCode e.kind, out.map (describe e))

/-! ## What a caller reads -/

def kinds : List ErrorKind :=
  [.invalidArgument, .invalidPin, .invalidResponse, .protocolViolation, .limitExceeded,
    .authenticationFailed, .deviceAuthenticationFailed, .pinBlocked, .securityStatusNotSatisfied,
    .conditionsNotSatisfied, .notFound, .unsupportedDevice, .unsupportedFeature,
    .unsupportedAlgorithm, .capabilityUnknown, .unsupportedProtocolVersion,
    .unexpectedStatusWord, .operationStateError]

def phases : List Phase :=
  [.construction, .select, .command, .authentication, .parsing, .conversation]

def references : List SecretReference :=
  [.pin, .puk, .managementKey, .adminPin, .oathAccess, .pw1Sign, .pw1Other, .pw3, .resetCode]

def readKind (n : UInt32) : Option ErrorKind := kinds.find? (kindCode · = n)

def readPhase (n : UInt32) : Option Phase := phases.find? (phaseCode · = n)

def readReference (n : UInt32) : Option (Option SecretReference) :=
  if n = 0 then some none else (references.find? (referenceCode · = n)).map some

def optional {α : Type} (p : CnkError) (flag : UInt32) (value : α) : Option α :=
  if p.presenceFlags &&& flag = 0 then none else some value

/-- The error that a filled record stands for. -/
def CnkError.read (p : CnkError) : Option Error := do
  let kind ← readKind p.kind
  let phase ← readPhase p.phase
  let reference ← readReference p.reference
  some
    { kind := kind
      phase := phase
      statusWord := optional p hasStatusWord ⟨p.statusWord⟩
      applicationStatus := optional p hasApplicationStatus p.applicationStatus
      reference := reference
      retriesRemaining := optional p hasRetries p.retriesRemaining }

section reading

theorem readKind_code (k : ErrorKind) : readKind (kindCode k) = some k := by
  cases k <;> decide

theorem readPhase_code (p : Phase) : readPhase (phaseCode p) = some p := by
  cases p <;> decide

theorem readReference_code (r : Option SecretReference) :
    readReference (r.elim 0 referenceCode) = some r := by
  cases r with
  | none => decide
  | some r => cases r <;> decide

/-- A record that was cleared before says everything about the error. -/
theorem read_describe (e : Error) (size : UInt32) :
    (describe e { structSize := size }).read = some e := by
  obtain ⟨kind, phase, statusWord, applicationStatus, reference, retriesRemaining⟩ := e
  have hreference := readReference_code reference
  cases statusWord <;> cases applicationStatus <;> cases retriesRemaining <;>
    simp [CnkError.read, describe, present, readKind_code, readPhase_code, hreference, optional,
      hasStatusWord, hasRetries, hasApplicationStatus] <;>
    decide

theorem describe_size (e : Error) (p : CnkError) : (describe e p).structSize = p.structSize := by
  obtain ⟨kind, phase, statusWord, applicationStatus, reference, retriesRemaining⟩ := e
  cases statusWord <;> cases applicationStatus <;> cases retriesRemaining <;> rfl

theorem clearError_eq_ok {p : CnkError} {out : Option CnkError} :
    clearError (some p) = .ok out ↔
      errorSize ≤ p.structSize ∧ out = some { structSize := p.structSize } := by
  rw [clearError]
  by_cases hsmall : p.structSize < errorSize
  · rw [if_pos hsmall]
    constructor
    · rintro ⟨⟩
    · rintro ⟨hsize, _⟩
      exact absurd hsmall (UInt32.not_lt.mpr hsize)
  · rw [if_neg hsmall]
    constructor
    · rintro ⟨⟩
      exact ⟨UInt32.not_lt.mp hsmall, rfl⟩
    · rintro ⟨_, rfl⟩
      rfl

theorem clearError_error {error : Option CnkError} {code : Code}
    (h : clearError error = .error code) : code = .arg := by
  cases error with
  | none => cases h
  | some p =>
    rw [clearError] at h
    split_ifs at h
    cases h
    rfl

end reading

/-- No flag but the lowest one is known. -/
theorem flags_known (flags : UInt32) : flags &&& ~~~1 = 0 ↔ flags = 0 ∨ flags = 1 := by
  constructor
  · intro h
    have hsplit : flags = flags &&& ~~~1 ||| flags &&& 1 := by
      apply UInt32.toBitVec_inj.mp
      apply BitVec.eq_of_getLsbD_eq
      intro i hi
      simp only [UInt32.toBitVec_or, UInt32.toBitVec_and, UInt32.toBitVec_not, BitVec.getLsbD_or,
        BitVec.getLsbD_and, BitVec.getLsbD_not, hi, decide_true, Bool.true_and]
      rw [← Bool.and_or_distrib_left, Bool.not_or_self, Bool.and_true]
    rw [h, UInt32.zero_or] at hsplit
    have hparity : flags.toNat = flags.toNat % 2 := by
      rw [← Nat.and_one_is_mod]
      exact congrArg UInt32.toNat hsplit
    have hbit : flags.toNat = 0 ∨ flags.toNat = 1 := by omega
    apply hbit.imp
    · exact fun hzero => UInt32.toNat_inj.mp hzero
    · exact fun hone => UInt32.toNat_inj.mp hone
  · rintro (h | h) <;> rw [h] <;> decide

/-- Explicit limits are taken over unchanged, and the accepted options are valid. -/
theorem options_eq_ok {p : CnkOptions} {o : OperationOptions} :
    options (some p) = .ok o ↔
      optionsSize ≤ p.structSize ∧ (p.flags = 0 ∨ p.flags = 1) ∧ o.Valid ∧
      o = { exchange := ⟨p.maxCommandBytes.toNat, p.maxResponseBytes.toNat, p.flags &&& 1 ≠ 0⟩
            limits := { maxTotalResponseBytes := p.maxTotalResponseBytes.toNat
                        maxExchanges := p.maxExchanges.toNat } } := by
  rw [options]
  by_cases hbad : p.structSize < optionsSize ∨ p.flags &&& ~~~1 ≠ 0
  · rw [if_pos hbad]
    constructor
    · rintro ⟨⟩
    · rintro ⟨hsize, hflags, _⟩
      rcases hbad with hsmall | hunknown
      · exact absurd hsmall (UInt32.not_lt.mpr hsize)
      · exact absurd ((flags_known _).mpr hflags) hunknown
  · rw [if_neg hbad]
    push Not at hbad
    obtain ⟨hsize, hflags⟩ := hbad
    dsimp only
    constructor
    · intro h
      rw [Except.mapError.eq_def] at h
      split at h
      · cases h
      · rename_i accepted haccepted
        cases h
        obtain ⟨hvalid, heq⟩ := validate_eq_ok.mp haccepted
        subst heq
        exact ⟨UInt32.not_lt.mp hsize, (flags_known _).mp hflags, hvalid, rfl⟩
    · rintro ⟨_, _, hvalid, rfl⟩
      rw [validate_eq_ok.mpr ⟨hvalid, rfl⟩]
      rfl

end BindingErrors
