import Nifre.Inference.Engine
import Nifre.Observability.MetricsStore

/-!
# The metrics collector

The hooks of the engine write into the metrics store. The methods of the engine are the same as
without a collector, but for the calls of the hooks. Every hook reads the clock where the source
does, so the collector holds the readings to come; how long a forward pass takes is given with the
call.
-/

namespace Nifre

/-- The time stamps of a request. -/
structure RequestTimes (F : Type) where
  createdAt : F
  prefillDurationSec : Option F := none
  firstTokenAt : Option F := none
  lastTokenAt : Option F := none
  finishedAt : Option F := none

structure MetricsCollector (F : Type) where
  store : MetricsStore F
  times : Ref → RequestTimes F
  /-- What `time.time()` gives from now on, call by call. -/
  clock : Nat → F

section

variable {F : Type} [Field F]

namespace MetricsCollector

/-- The next reading of the clock. -/
def now (c : MetricsCollector F) : F := c.clock 0

/-- The clock was read. -/
def tick (c : MetricsCollector F) : MetricsCollector F :=
  { c with clock := fun n => c.clock (n + 1) }

def stamp (c : MetricsCollector F) (r : Ref) (f : RequestTimes F → RequestTimes F) :
    MetricsCollector F :=
  { c with times := Function.update c.times r (f (c.times r)) }

/-- `created_at` of a new request. -/
def onCreate (r : Ref) (c : MetricsCollector F) : MetricsCollector F :=
  c.tick.stamp r fun _ => { createdAt := c.now }

def onRequestEnqueued (c : MetricsCollector F) : MetricsCollector F :=
  { c with store := c.store.recordEnqueue }

/-- The time stamps of a request after a prefill. -/
def stampPrefill (now durationSec : F) (request : InferenceRequest Nat) (t : RequestTimes F) :
    RequestTimes F :=
  let t := { t with prefillDurationSec := some (t.prefillDurationSec.getD 0 + durationSec) }
  if request.prefillComplete then { t with firstTokenAt := some now, lastTokenAt := some now }
  else t

def onPrefillBatch (durationSec : F) (requests : List Ref)
    (objects : Ref → InferenceRequest Nat) (tokensProcessed : Int) (c : MetricsCollector F) :
    MetricsCollector F :=
  requests.foldl (fun c' r => c'.stamp r (stampPrefill c.now durationSec (objects r)))
    { c.tick with store := c.store.recordPrefillStep durationSec tokensProcessed }

def onPrefixCacheHit (tokensSaved : Nat) (c : MetricsCollector F) : MetricsCollector F :=
  { c with store := c.store.recordPrefixCacheHit tokensSaved }

/-- The loop of `_run_prefill` that reports the prefix hits. -/
def onPrefixCacheHits (requests : List Ref) (objects : Ref → InferenceRequest Nat)
    (c : MetricsCollector F) : MetricsCollector F :=
  requests.foldl (fun c r =>
    if 0 < (objects r).prefixCacheHitTokens then c.onPrefixCacheHit (objects r).prefixCacheHitTokens
    else c) c

def onDecodeBatch (durationSec : F) (c : MetricsCollector F) : MetricsCollector F :=
  { c.tick with store := c.store.recordDecodeStep c.now durationSec }

def onDecodeToken (r : Ref) (request : InferenceRequest Nat) (c : MetricsCollector F) :
    MetricsCollector F :=
  let now := c.now
  let c := c.tick
  let c := match (c.times r).lastTokenAt with
    | none => c
    | some lastTokenAt =>
      if 1 ≤ request.numGenerated then
        { c with store := c.store.recordInterToken (now - lastTokenAt) }
      else c
  c.stamp r fun t => { t with lastTokenAt := some now }

/-- The time of a request's end is read first, that of the record after it. -/
def onRequestFinished (r : Ref) (request : InferenceRequest Nat) (c : MetricsCollector F) :
    MetricsCollector F :=
  let finishedAt := c.now
  let c := c.tick.stamp r fun t => { t with finishedAt := some finishedAt }
  let t := c.times r
  { c.tick with
    store := c.store.recordCompletion c.now (t.firstTokenAt.map fun first => first - t.createdAt)
      (finishedAt - t.createdAt) request.numPromptTokens request.numGenerated request.status }

/-- `on_request_failed`; the status of the request object is the caller's part. -/
def onRequestFailed (r : Ref) (request : InferenceRequest Nat) (status : String)
    (c : MetricsCollector F) : MetricsCollector F :=
  let finishedAt := c.now
  let c := c.tick.stamp r fun t => { t with finishedAt := some finishedAt }
  { c.tick with
    store := c.store.recordCompletion c.now none (finishedAt - (c.times r).createdAt)
      request.numPromptTokens request.numGenerated status }

end MetricsCollector

/-! ## The engine with a collector -/

structure Metered (F Row : Type) where
  engine : Engine Row
  metrics : MetricsCollector F

/-- How long the forward passes of a call take, by the performance counter. -/
structure PassTimes (F : Type) where
  prefillSec : F
  decodeSec : F

namespace Metered

variable {Row Score : Type} [LinearOrder Score]

abbrev M (F Row : Type) := EStateM PyError (Metered F Row)

def onEngine {α : Type} (m : Engine.M Row α) : M F Row α :=
  Exec.within (·.engine) (fun e s => { s with engine := e }) m

/-- Call hooks, which see the request objects. -/
def hook (f : (Ref → InferenceRequest Nat) → MetricsCollector F → MetricsCollector F) :
    M F Row Unit :=
  modify fun s => { s with metrics := f s.engine.scheduler.requests s.metrics }

/-- `if request.state == RequestState.FINISHED: ...`. -/
def hookFinished (r : Ref) : M F Row Unit :=
  hook fun objects c =>
    if (objects r).state = .finished then c.onRequestFinished r (objects r) else c

def addRequest (requestId : String) (promptTokenIds : List Nat) (maxNewTokens : Int) :
    M F Row String := do
  let s ← get
  let id ← onEngine (Engine.addRequest requestId promptTokenIds maxNewTokens)
  hook fun _ c => (c.onCreate s.engine.scheduler.created).onRequestEnqueued
  pure id

/-- The prompt tokens of a request's next chunk, as `_prefill_tokens_this_step` counts them. -/
def chunkCount (request : InferenceRequest Nat) : Int :=
  let start := request.prefillOffset
  let stop := min (start + request.prefillChunkSize) (request.numPromptTokens : Int)
  stop - start

/-- `_prefill_tokens_this_step`. -/
def prefillTokensThisStep (objects : Ref → InferenceRequest Nat) (requests : List Ref) : Int :=
  (requests.map fun r => chunkCount (objects r)).sum

variable (chain : Int → List Nat → Int) (model : InferenceModel Row Score) (passes : PassTimes F)

def finishPrefill (r : Ref) (tokenId : Option Nat) : M F Row Unit := do
  onEngine (Engine.registerComplete chain r)
  match tokenId with
  | none => pure ()
  | some tokenId =>
    let s ← get
    let request := s.engine.scheduler.requests r
    onEngine (Engine.onScheduler (Scheduler.markPrefillDone r))
    onEngine (Engine.onScheduler (Scheduler.markDecodeDone r tokenId))
    onEngine (Engine.emitToken request.requestId tokenId)
    hookFinished r
    onEngine (Engine.releaseCacheSlot request.batchIdx r)

/-- `_run_prefill`: the tokens are counted before the forward pass. -/
def runPrefill (requests : List Ref) : M F Row Unit := do
  let s ← get
  let tokensProcessed := prefillTokensThisStep s.engine.scheduler.requests requests
  let tokenIds ← onEngine (Engine.onRunner (ModelRunner.prefill chain model requests))
  hook fun objects c => c.onPrefixCacheHits requests objects
  hook fun objects c => c.onPrefillBatch passes.prefillSec requests objects tokensProcessed
  forM (requests.zip tokenIds) fun (r, tokenId) => finishPrefill chain r tokenId

def finishDecode (r : Ref) (tokenId : Nat) : M F Row Unit := do
  let s ← get
  let request := s.engine.scheduler.requests r
  onEngine (Engine.onScheduler (Scheduler.markDecodeDone r tokenId))
  onEngine (Engine.emitToken request.requestId tokenId)
  hook fun objects c => c.onDecodeToken r (objects r)
  hookFinished r
  onEngine (Engine.releaseCacheSlot request.batchIdx r)

/-- `_run_decode`. -/
def runDecode (requests : List Ref) : M F Row Unit := do
  let tokenIds ← onEngine (Engine.onRunner (ModelRunner.decode model requests))
  hook fun _ c => c.onDecodeBatch passes.decodeSec
  forM (requests.zip tokenIds) fun (r, tokenId) => finishDecode r tokenId

def prefillBatch (requests : List Ref) : M F Row Unit :=
  if requests ≠ [] then runPrefill chain model passes requests else pure ()

def decodeBatch (requests : List Ref) : M F Row Unit :=
  if requests ≠ [] then runDecode model passes requests else pure ()

def step : M F Row Bool := do
  let s ← get
  if s.engine.scheduler.hasWork = false then
    pure false
  else
    onEngine (Engine.ensureCache model)
    let result ← onEngine (Engine.onScheduler Scheduler.schedule)
    prefillBatch chain model passes result.prefillRequests
    decodeBatch model passes result.decodeRequests
    pure true

/-- `on_request_failed`, which writes the status of the request too. -/
def onRequestFailed (r : Ref) (status : String) : M F Row Unit := do
  onEngine (Engine.onScheduler (modify fun s =>
    s.update r fun request => { request with status := status }))
  hook fun objects c => c.onRequestFailed r (objects r) status

/-- What a call of `generate` does once its deadline has passed: it cancels its request and reports
it. -/
def timeOut (requestId : String) : M F Row Unit := do
  let r ← onEngine (Engine.cancelRequest requestId "timeout")
  onRequestFailed r "timeout"

/-- `snapshot` of the collector, as far as the engine and the store go. -/
def snapshot [LinearOrder F] [FloorRing F] (s : Metered F Row) (now : F) :
    MetricsStore.Snapshot F :=
  s.metrics.store.snapshot now s.engine.scheduler.running.size s.engine.scheduler.waiting.length

/-! ## Runs -/

def call : Engine.Op → M F Row Unit
  | .addRequest requestId promptTokenIds maxNewTokens => do
    let _ ← addRequest requestId promptTokenIds maxNewTokens
  | .step => do
    let _ ← step chain model passes
  | op => onEngine (Engine.call chain model op)

/-- The state after one call, on either exit. -/
def next (s : Metered F Row) (op : PassTimes F × Engine.Op) : Metered F Row :=
  Exec.after (call chain model op.1 op.2) s

/-- A call of the engine, or a deadline that has passed. -/
inductive Act where
  | call (op : Engine.Op)
  | timeOut (requestId : String)

def act : Act → M F Row Unit
  | .call op => call chain model passes op
  | .timeOut requestId => timeOut requestId

/-- The state after one act, on either exit. -/
def nextAct (s : Metered F Row) (a : PassTimes F × Act) : Metered F Row :=
  Exec.after (act chain model a.1 a.2) s

end Metered

end

end Nifre
