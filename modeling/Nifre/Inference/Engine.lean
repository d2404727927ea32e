import Nifre.Inference.ModelRunner
import Nifre.Inference.Scheduler

/-!
# The continuous-batching engine

The metrics collector and the clock are left out: nothing the engine decides depends on them. The
calls of the registered token callbacks are recorded in `emitted`.
-/

namespace Nifre

structure Engine (Row : Type) where
  maxConcurrentRequests : Int
  scheduler : Scheduler Nat
  cache : Option (KVCacheType Row)
  prefillChunkSize : Int
  maxTokensPerStep : Int
  usePagedKvCache : Bool
  usePrefixCache : Bool
  /-- The ids with a callback, and the calls made so far. -/
  tokenCallbacks : List String
  emitted : List (String × Nat)

namespace Engine

variable {Row Score : Type} [LinearOrder Score]

abbrev M (Row : Type) := EStateM PyError (Engine Row)

/-- `__init__`. -/
def new (model : InferenceModel Row Score) (maxConcurrentRequests : Int)
    (prefillChunkSize : Int := 128) (maxTokensPerStep : Int := 2048)
    (usePagedKvCache : Bool := true) (usePrefixCache : Bool := true) :
    Except PyError (Engine Row) := do
  let scheduler ← Scheduler.new maxConcurrentRequests maxTokensPerStep
  pure
    { maxConcurrentRequests := maxConcurrentRequests
      scheduler := scheduler
      cache := none
      prefillChunkSize := prefillChunkSize
      maxTokensPerStep := maxTokensPerStep
      usePagedKvCache := model.supportsPagedKvCache && usePagedKvCache
      usePrefixCache := model.supportsPrefixCache && usePrefixCache
      tokenCallbacks := []
      emitted := [] }

def onScheduler {α : Type} (m : Scheduler.M Nat α) : M Row α :=
  Exec.within (·.scheduler) (fun s e => { e with scheduler := s }) m

/-- Work on the cache, if there is one. -/
def onCache {α : Type} (m : KVCacheType.M Row α) : M Row α := do
  let e ← get
  match e.cache with
  | none => throw (.attributeError "'NoneType' object has no attribute 'reset_slot'")
  | some c => Exec.within (fun _ => c) (fun c e => { e with cache := some c }) m

/-- What the model runner left of the request objects and the cache. -/
def withRunner (s : ModelRunner Row) (e : Engine Row) : Engine Row :=
  { e with
    scheduler := { e.scheduler with requests := s.requests }
    cache := some s.cache }

/-- Hand the cache and the request objects to the model runner. -/
def onRunner {α : Type} (m : ModelRunner.M Row α) : M Row α := do
  let e ← get
  match e.cache with
  | none => throw (.attributeError "'NoneType' object has no attribute 'reset_slot'")
  | some c =>
    Exec.within (fun e : Engine Row => (⟨e.scheduler.requests, c⟩ : ModelRunner Row)) withRunner m

/-! ## Requests -/

/-- `add_request`; `requestId` is the id that `uuid4` yields. -/
def addRequest (requestId : String) (promptTokenIds : List Nat) (maxNewTokens : Int) :
    M Row String := do
  let e ← get
  let r ← onScheduler (Scheduler.create
    { requestId := requestId
      promptTokenIds := promptTokenIds
      maxNewTokens := maxNewTokens
      prefillChunkSize := e.prefillChunkSize })
  onScheduler (Scheduler.addRequest r)
  pure requestId

def registerTokenCallback (requestId : String) : M Row Unit :=
  modify fun e => { e with tokenCallbacks := requestId :: e.tokenCallbacks.erase requestId }

def unregisterTokenCallback (requestId : String) : M Row Unit :=
  modify fun e => { e with tokenCallbacks := e.tokenCallbacks.erase requestId }

/-- `_cancel_request`. -/
def cancelRequest (requestId status : String) : M Row Ref := do
  let r ← onScheduler (Scheduler.cancelRequest requestId status)
  let e ← get
  match (e.scheduler.requests r).batchIdx, e.cache with
  | some b, some _ => onCache (KVCacheType.resetSlot b)
  | _, _ => pure ()
  pure r

/-! ## Configuration -/

def getConfig (e : Engine Row) : EngineConfig where
  maxConcurrentRequests := e.maxConcurrentRequests
  prefillChunkSize := e.prefillChunkSize
  maxTokensPerStep := e.maxTokensPerStep
  usePagedKvCache := e.usePagedKvCache
  usePrefixCache := e.usePrefixCache

/-- Change one of the two flags, unless there is a cache already. -/
def setFlag (name : String) (current : Engine Row → Bool) (assign : Bool → Engine Row → Engine Row)
    (cacheInitialized : Bool) : Option Bool → M Row Unit
  | none => pure ()
  | some v => do
    let e ← get
    if v ≠ current e then
      if cacheInitialized then
        throw (.valueError s!"cannot change {name} after KV cache is initialized")
      else
        modify (assign v)

/-- `if v is not None: self.f = v`. -/
def assignSome {α : Type} (assign : α → Engine Row → Engine Row) : Option α → M Row Unit
  | none => pure ()
  | some v => modify (assign v)

/-- The part of `reconfigure` that the scheduler takes part in. -/
def reconfigureScheduler (maxTokensPerStep maxConcurrentRequests : Option Int)
    (cacheInitialized : Bool) : M Row Unit :=
  if maxTokensPerStep.isSome ∨ maxConcurrentRequests.isSome then do
    onScheduler (Scheduler.reconfigure maxTokensPerStep maxConcurrentRequests cacheInitialized)
    assignSome (fun v e => { e with maxConcurrentRequests := v }) maxConcurrentRequests
  else
    pure ()

def reconfigure (prefillChunkSize maxTokensPerStep maxConcurrentRequests : Option Int)
    (usePagedKvCache usePrefixCache : Option Bool) : M Row EngineConfig := do
  Exec.ofExcept (validateEngineConfig maxConcurrentRequests prefillChunkSize maxTokensPerStep)
  let e ← get
  let cacheInitialized := e.cache.isSome
  setFlag "use_paged_kv_cache" (·.usePagedKvCache) (fun v e => { e with usePagedKvCache := v })
    cacheInitialized usePagedKvCache
  setFlag "use_prefix_cache" (·.usePrefixCache) (fun v e => { e with usePrefixCache := v })
    cacheInitialized usePrefixCache
  assignSome (fun v e => { e with prefillChunkSize := v }) prefillChunkSize
  assignSome (fun v e => { e with maxTokensPerStep := v }) maxTokensPerStep
  reconfigureScheduler maxTokensPerStep maxConcurrentRequests cacheInitialized
  let e ← get
  pure e.getConfig

/-- `reconfigure(**changes)`. -/
def reconfigureWith (changes : EngineChanges) : M Row EngineConfig :=
  reconfigure changes.prefillChunkSize changes.maxTokensPerStep changes.maxConcurrentRequests
    changes.usePagedKvCache changes.usePrefixCache

/-! ## step -/

variable (chain : Int → List Nat → Int) (model : InferenceModel Row Score)

/-- The cache that `_ensure_cache` makes. -/
def makeCache (usePagedKvCache usePrefixCache : Bool) (batchSize : Nat) :
    Except PyError (KVCacheType Row) :=
  match model.makeKvCache with
  | some make => .ok (.hf ((make usePrefixCache).initBatch batchSize))
  | none =>
    if usePagedKvCache then
      .paged <$> PagedKVCache.initBatch
        { numLayers := model.config.numLayers
          maxSeqLen := model.config.maxSeqLen
          blockSize := model.config.blockSize
          enablePrefixCache := usePrefixCache
          prefixCacheMaxEntries := 1024 }
        model.emptyPaged model.emptyPaged batchSize
    else
      .ok (.dense (KVCache.initBatch model.config.numLayers model.config.maxSeqLen
        model.emptyDense model.emptyDense batchSize))

/-- Where `init_batch` raises (a pool without blocks, for a `max_seq_len` of 0), the source is left
with a cache object that holds nothing, and this engine with none. -/
def ensureCache : M Row Unit := do
  let e ← get
  match e.cache with
  | some _ => pure ()
  | none =>
    let c ← Exec.ofExcept
      (makeCache model e.usePagedKvCache e.usePrefixCache e.maxConcurrentRequests.toNat)
    set { e with cache := some c }

def emitToken (requestId : String) (tokenId : Nat) : M Row Unit := do
  let e ← get
  if requestId ∈ e.tokenCallbacks then
    set { e with emitted := e.emitted ++ [(requestId, tokenId)] }

def releaseCacheSlot (batchIdx : Option Nat) (r : Ref) : M Row Unit := do
  let e ← get
  if (e.scheduler.requests r).state ≠ .finished then
    pure ()
  else
    match batchIdx, e.cache with
    | some b, some _ => onCache (KVCacheType.resetSlot b)
    | _, _ => pure ()

/-- Register the prompt of a request once it is complete, where the cache can. -/
def registerComplete (r : Ref) : M Row Unit := do
  let e ← get
  let request := e.scheduler.requests r
  if request.prefillComplete ∧ (e.cache.any fun c => c.hasPrefix) then
    let b ← Exec.ofExcept (ModelRunner.batchIdx request)
    onCache (KVCacheType.registerPrefix chain b request.promptTokenIds)

/-- The loop of `_run_prefill`, for one request and its sampled token. -/
def finishPrefill (r : Ref) (tokenId : Option Nat) : M Row Unit := do
  registerComplete chain r
  match tokenId with
  | none => pure ()
  | some tokenId =>
    let e ← get
    let request := e.scheduler.requests r
    onScheduler (Scheduler.markPrefillDone r)
    onScheduler (Scheduler.markDecodeDone r tokenId)
    emitToken request.requestId tokenId
    releaseCacheSlot request.batchIdx r

def runPrefill (requests : List Ref) : M Row Unit := do
  let tokenIds ← onRunner (ModelRunner.prefill chain model requests)
  forM (requests.zip tokenIds) fun (r, tokenId) => finishPrefill chain r tokenId

/-- The loop of `_run_decode`, for one request and its sampled token. -/
def finishDecode (r : Ref) (tokenId : Nat) : M Row Unit := do
  let e ← get
  let request := e.scheduler.requests r
  onScheduler (Scheduler.markDecodeDone r tokenId)
  emitToken request.requestId tokenId
  releaseCacheSlot request.batchIdx r

def runDecode (requests : List Ref) : M Row Unit := do
  let tokenIds ← onRunner (ModelRunner.decode model requests)
  forM (requests.zip tokenIds) fun (r, tokenId) => finishDecode r tokenId

/-- `if requests: self._run_prefill(requests)`. -/
def prefillBatch (requests : List Ref) : M Row Unit :=
  if requests ≠ [] then runPrefill chain model requests else pure ()

/-- `if requests: self._run_decode(requests)`. -/
def decodeBatch (requests : List Ref) : M Row Unit :=
  if requests ≠ [] then runDecode model requests else pure ()

def step : M Row Bool := do
  let e ← get
  if e.scheduler.hasWork = false then
    pure false
  else
    ensureCache model
    let result ← onScheduler Scheduler.schedule
    prefillBatch chain model result.prefillRequests
    decodeBatch model result.decodeRequests
    pure true

/-- `run_until_done`, with at most `fuel` calls of `step`: whether the loop has ended by then. -/
def runUntilDone : Nat → M Row Bool
  | 0 => pure false
  | fuel + 1 => do
    let more ← step chain model
    if more then runUntilDone fuel else pure true

/-! ## Runs -/

/-- A call of a method of the engine. -/
inductive Op where
  | addRequest (requestId : String) (promptTokenIds : List Nat) (maxNewTokens : Int)
  | step
  | cancelRequest (requestId status : String)
  | reconfigure (prefillChunkSize maxTokensPerStep maxConcurrentRequests : Option Int)
      (usePagedKvCache usePrefixCache : Option Bool)
  | registerTokenCallback (requestId : String)
  | unregisterTokenCallback (requestId : String)

def call : Op → M Row Unit
  | .addRequest requestId promptTokenIds maxNewTokens => do
    let _ ← Engine.addRequest requestId promptTokenIds maxNewTokens
  | .step => do
    let _ ← Engine.step chain model
  | .cancelRequest requestId status => do
    let _ ← Engine.cancelRequest requestId status
  | .reconfigure prefillChunkSize maxTokensPerStep maxConcurrentRequests usePaged usePrefix => do
    let _ ← Engine.reconfigure prefillChunkSize maxTokensPerStep maxConcurrentRequests usePaged
      usePrefix
  | .registerTokenCallback requestId => Engine.registerTokenCallback requestId
  | .unregisterTokenCallback requestId => Engine.unregisterTokenCallback requestId

/-- The state after one call, on either exit. -/
def next (e : Engine Row) (op : Op) : Engine Row := Exec.after (call chain model op) e

end Engine

end Nifre
