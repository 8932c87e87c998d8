import LibCanokey.PivConfiguration
import LibCanokey.PivDirectory
import LibCanokey.PivObjects
import LibCanokey.PivSm2Agreement

/-! # Batches of PIV requests

Requests of every kind, the machine that runs them in order under one SELECT and the admission
that prepares all of them before the first command. -/
namespace PivBatch

open BigEndian CheckedCursor ProtocolError ProtocolApdu ProtocolConversation ProtocolOperation
open ProtocolTlv CompatProfile KeyPublicKey PivCommand PivManagement PivAccess PivMetadata
open PivWrite PivConfiguration PivKeys PivPrivate PivStreaming PivSm2Agreement PivDirectory
open PivObjects

/-- The code outside the repository that the requests rest on. -/
structure Primitives where
  cipher : BlockCipher
  gunzip : Gunzip
  point : PointCheck
  der : EcDer

def maxBatchRequests : ℕ := 128

inductive BatchRequest where
  | agreeSm2 (slot : Slot) (input : Sm2AgreementInput)
  | readMetadataDirectory
  | readContainerName (slot : Slot)
  | setContainerName (slot : Slot) (name : ContainerName)
  | moveKey (source target : Slot)
  | deleteKey (slot : Slot)
  | resetPinPukRetries (pinRetries pukRetries : UInt8)
  | setAlgorithmConfig (config : AlgorithmConfig)
  | attest (slot : Slot)
  | verifyPin (pin : Pin)
  | authenticateManagement (auth : ManagementAuthentication)
  | logout
  | readObject (id : ObjectId)
  | readCertificate (slot : Slot)
  | writeObject (id : ObjectId) (data : Bytes)
  | writeCertificate (slot : Slot) (der : Bytes)
  | deleteCertificate (slot : Slot)
  | setManagementKey (key : ManagementKey) (touch : ManagementTouchPolicy)
  | getMetadata (reference : MetadataReference)
  | readAlgorithmConfig
  | generateKey (parameters : KeyParameters)
  | importKey (parameters : KeyParameters) (material : PrivateKeyMaterial)
  | sign (slot : Slot) (algorithm : Algorithm) (input : SignInput)
  | signStreaming (slot : Slot) (input : StreamingSignInput)
  | decrypt (slot : Slot) (algorithm : Algorithm) (ciphertext : Bytes)
  | derive (slot : Slot) (algorithm : Algorithm) (peer : Bytes)
  | decapsulate (slot : Slot) (ciphertext : Bytes)

def BatchRequest.inputLen : BatchRequest → ℕ
  | .agreeSm2 _ input => input.inputLen
  | .setContainerName _ name => name.utf16le.length
  | .setAlgorithmConfig config => config.raw.length
  | .verifyPin pin => pin.bytes.length
  | .authenticateManagement auth => auth.inputLen
  | .writeObject _ data => data.length
  | .writeCertificate _ der => der.length
  | .setManagementKey _ _ => 24
  | .importKey _ material => material.fields.length
  | .sign _ _ input => input.raw.length
  | .decrypt _ _ ciphertext | .decapsulate _ ciphertext => ciphertext.length
  | .signStreaming _ input => input.inputLen
  | .derive _ _ peer => peer.length
  | _ => 0

inductive BatchItem where
  | sm2Agreement (agreement : Sm2Agreement)
  | directory (directory : MetadataDirectory)
  | containerName (name : ContainerName)
  | unit
  | bytes (bytes : Bytes)
  | certificate (certificate : Certificate)
  | mutation (result : MutationResult)
  | metadata (metadata : Metadata)
  | algorithmConfig (config : AlgorithmConfig)
  | publicKey (key : PublicKey)
  | signature (signature : Signature)
  deriving DecidableEq

def BatchItem.byteLen : BatchItem → ℕ
  | .sm2Agreement a => a.key.length + a.ephemeralPublic.length
  | .directory d => d.raw.length
  | .containerName n => n.utf16le.length
  | .unit | .mutation _ => 0
  | .bytes b => b.length
  | .certificate c => c.der.length
  | .metadata m => m.fields.raw.length
  | .algorithmConfig c => c.raw.length
  | .signature s => s.bytes.length
  | .publicKey (.rsa _ modulus exponent) => modulus.length + exponent.length
  | .publicKey (.ec _ p) => p.length
  | .publicKey (.raw _ value) => value.length

structure BatchResults where
  items : List BatchItem := []
  failedIndex : Option ℕ := none
  deriving DecidableEq

/-- The machine of one request, whatever its state. -/
structure Boxed (T : Type) where
  {State : Type}
  machine : Machine State T
  state : State

def Boxed.next {T : Type} (b : Boxed T) (response : Option ResponseData) :
    Except Error (Action T) × Boxed T :=
  ((b.machine.next b.state response).1, { b with state := (b.machine.next b.state response).2 })

variable {σ T : Type}

def convertAction (convert : T → BatchItem) : Action T → Action BatchItem
  | .command c => .command c
  | .done value => .done (convert value)

def mapped (M : Machine σ T) (convert : T → BatchItem) : Machine σ BatchItem where
  next s response :=
    ((M.next s response).1.map (convertAction convert), (M.next s response).2)

def boxed (M : Machine σ T) (convert : T → BatchItem) :
    Except Error σ → Except Error (Boxed BatchItem)
  | .error e => .error e
  | .ok state => .ok ⟨mapped M convert, state⟩

structure BatchMachine where
  pending : List (Boxed BatchItem)
  current : Option (Boxed BatchItem)
  results : BatchResults
  resultBytes : ℕ
  maxResultBytes : ℕ

def BatchMachine.new (pending : List (Boxed BatchItem)) (options : OperationOptions) :
    BatchMachine :=
  { pending := pending
    current := none
    results := {}
    resultBytes := 0
    maxResultBytes := options.limits.maxTotalResponseBytes }

abbrev BatchTurn := Except Error (Action BatchResults) × BatchMachine

/-- The loop, entered with the request to run; only its first turn has a response. -/
def BatchMachine.loop (limit : ℕ) (current : Boxed BatchItem) (pending : List (Boxed BatchItem))
    (results : BatchResults) (resultBytes : ℕ) (response : Option ResponseData) : BatchTurn :=
  match current.next response with
  | (.error e, current) => (.error e, ⟨pending, some current, results, resultBytes, limit⟩)
  | (.ok (.command c), current) =>
    (.ok (.command c), ⟨pending, some current, results, resultBytes, limit⟩)
  | (.ok (.done value), current) =>
    match checkedAdd resultBytes value.byteLen with
    | none => (.error limitExceeded, ⟨pending, some current, results, resultBytes, limit⟩)
    | some total =>
      if total > limit then (.error oversized, ⟨pending, some current, results, total, limit⟩)
      else match pending with
        | [] =>
          (.ok (.done { results with items := results.items ++ [value] }),
            ⟨[], none, {}, total, limit⟩)
        | next :: pending =>
          BatchMachine.loop limit next pending
            { results with items := results.items ++ [value] } total none

def BatchMachine.next (s : BatchMachine) (response : Option ResponseData) : BatchTurn :=
  match s.current, s.pending with
  | some current, pending =>
    loop s.maxResultBytes current pending s.results s.resultBytes response
  | none, current :: pending =>
    loop s.maxResultBytes current pending s.results s.resultBytes response
  | none, [] => (.ok (.done s.results), { s with results := {} })

/-- The request that was running when the operation failed is the next item. -/
def BatchMachine.takeProgress (s : BatchMachine) : Option BatchResults × BatchMachine :=
  (some (if s.current.isSome then
      { s.results with failedIndex := some s.results.items.length } else s.results),
    { s with results := {} })

def batchMachine : Machine BatchMachine BatchResults where
  next := BatchMachine.next
  progress := fun s => some s.results
  takeProgress := BatchMachine.takeProgress

/-- Completed items while running, after a failure and after completion. -/
def batchProgress {σ : Type*} (M : Machine σ BatchResults) (op : Operation σ BatchResults) :
    Option BatchResults :=
  match op.result with
  | .ok results => some results
  | .error _ => op.currentProgress M

def verifyReply (r : ResponseData) : Except Error Unit := do
  requireAuth r .pin
  if r.data ≠ [] then .error invalid else .ok ()

/-- One machine for each request. -/
def BatchRequest.prepare (P : Primitives) (profile : DeviceProfile) (options : OperationOptions) :
    BatchRequest → Except Error (Boxed BatchItem)
  | .agreeSm2 slot input =>
    boxed (agreementMachine P.point) .sm2Agreement
      (prepareAgreement P.point profile slot input options)
  | .readMetadataDirectory => boxed (sequence _) .directory (prepareDirectory profile options)
  | .readContainerName slot =>
    boxed (sequence _) .containerName (prepareReadName profile (.key slot) options)
  | .setContainerName slot name =>
    boxed (sequence _) .mutation (prepareSetName profile (.key slot) name options)
  | .moveKey source target =>
    boxed (sequence _) .mutation (prepareMoveDelete profile source (some target) options)
  | .deleteKey slot => boxed (sequence _) .mutation (prepareMoveDelete profile slot none options)
  | .resetPinPukRetries pinRetries pukRetries =>
    boxed (sequence _) .mutation (prepareRetryReset profile pinRetries pukRetries options)
  | .setAlgorithmConfig config =>
    boxed (sequence _) .mutation (prepareConfig profile config options)
  | .attest slot => boxed (sequence _) .bytes (prepareAttest profile slot options)
  | .verifyPin pin =>
    boxed (sequence _) (fun () => .unit)
      (PivCommand.prepare (PivCommand.verifyPin pin) options verifyReply)
  | .authenticateManagement auth =>
    boxed (management P.cipher) (fun () => .unit)
      ((auth.validate profile options).map fun _ => .new auth)
  | .logout =>
    boxed (sequence _) (fun () => .unit)
      (PivCommand.prepare PivCommand.logout options fun r => r.ensureSuccess .authentication)
  | .readObject id => boxed (sequence _) .bytes (prepareReadObjectWith profile id options .ok)
  | .readCertificate slot =>
    boxed (sequence _) .certificate
      (prepareReadObjectWith profile (.certificate slot) options fun data =>
        Certificate.fromObject P.gunzip data options.limits.maxTotalResponseBytes)
  | .writeObject id data =>
    boxed (sequence _) .mutation (prepareWriteObject profile id data options)
  | .writeCertificate slot der =>
    boxed (sequence _) .mutation (prepareWriteCertificate profile slot der options)
  | .deleteCertificate slot =>
    boxed (sequence _) .mutation (prepareDeleteCertificate profile slot options)
  | .setManagementKey key touch =>
    boxed (sequence _) .mutation (prepareSetManagementKey profile key touch options)
  | .getMetadata reference =>
    boxed (sequence _) .metadata (prepareGetMetadata profile reference options)
  | .readAlgorithmConfig =>
    boxed (sequence _) .algorithmConfig (prepareReadAlgorithmConfig profile options)
  | .generateKey parameters =>
    boxed (sequence _) .publicKey (prepareGenerateKey profile parameters options)
  | .importKey parameters material =>
    boxed (sequence _) .mutation (prepareImportKey profile parameters material options)
  | .sign slot algorithm input =>
    boxed (sequence _) .signature (prepareSign P.der profile slot algorithm input options)
  | .signStreaming slot input =>
    boxed streaming .signature (prepareSignStreaming P.der profile slot input options)
  | .decrypt slot algorithm ciphertext =>
    boxed (sequence _) .bytes (prepareDecrypt profile slot algorithm ciphertext options)
  | .derive slot algorithm peer =>
    boxed (sequence _) .bytes (prepareDerive P.point profile slot algorithm peer options)
  | .decapsulate slot ciphertext =>
    boxed (sequence _) .bytes (prepareDecapsulate profile slot ciphertext options)

def BatchRequest.isRetryReset : BatchRequest → Bool
  | .resetPinPukRetries _ _ => true
  | _ => false

def BatchRequest.isVerifyPin : BatchRequest → Bool
  | .verifyPin _ => true
  | _ => false

def BatchRequest.isAuthentication : BatchRequest → Bool
  | .authenticateManagement _ => true
  | _ => false

def BatchRequest.isConfigWrite : BatchRequest → Bool
  | .setAlgorithmConfig _ => true
  | _ => false

/-- The requests that need an explicit management authentication before them. -/
def BatchRequest.mutates : BatchRequest → Bool
  | .setContainerName _ _ | .moveKey _ _ | .deleteKey _ | .resetPinPukRetries _ _
  | .setAlgorithmConfig _ | .writeObject _ _ | .writeCertificate _ _ | .deleteCertificate _
  | .setManagementKey _ _ | .generateKey _ | .importKey _ _ => true
  | _ => false

structure Admission where
  pending : List (Boxed BatchItem) := []
  management : Bool := false
  previousVerify : Bool := false

/-- The checks made before the request is prepared. -/
def Admission.refuses (a : Admission) (request : BatchRequest) (last : Bool) : Bool :=
  (request.isRetryReset && !a.previousVerify) || (request.isConfigWrite && !last) ||
    (request.mutates && !a.management)

/-- A retry reset clears the authentication that a management request sets. -/
def Admission.managementAfter (a : Admission) (request : BatchRequest) : Bool :=
  if request.isRetryReset then false
  else if request.isAuthentication then true
  else a.management

def Admission.add (P : Primitives) (profile : DeviceProfile) (options : OperationOptions)
    (a : Admission) (request : BatchRequest) (last : Bool) : Except Error Admission :=
  if a.refuses request last then .error invalidArgument
  else match request.prepare P profile options with
    | .error e => .error e
    | .ok machine => .ok
      { pending := a.pending ++ [machine]
        management := a.managementAfter request
        previousVerify := request.isVerifyPin }

/-- The loop over the requests; the last one has nothing after it. -/
def admitAll (P : Primitives) (profile : DeviceProfile) (options : OperationOptions) :
    Admission → List BatchRequest → Except Error Admission
  | a, [] => .ok a
  | a, request :: requests =>
    match a.add P profile options request requests.isEmpty with
    | .error e => .error e
    | .ok a => admitAll P profile options a requests

/-- The checked sum of the semantic inputs. -/
def inputBytes (requests : List BatchRequest) : Option ℕ :=
  requests.foldlM (fun total r => checkedAdd total r.inputLen) 0

def checkRequests (profile : DeviceProfile) (requests : List BatchRequest)
    (options : OperationOptions) : Except Error Unit := do
  require profile
  let _ ← options.validate
  if requests = [] ∨ requests.length > maxBatchRequests then .error invalidArgument
  else if (inputBytes requests).all (· > options.limits.maxInputBytes) then .error limitExceeded
  else .ok ()

def batch (P : Primitives) (profile : DeviceProfile) (requests : List BatchRequest)
    (options : OperationOptions) : Except Error (Operation (Selected BatchMachine) BatchResults) :=
  match checkRequests profile requests options with
  | .error e => .error e
  | .ok () =>
    match admitAll P profile options {} requests with
    | .error e => .error e
    | .ok a => withAccess profile .none (BatchMachine.new a.pending options) options

end PivBatch
