import Nifre.Py

/-!
# Requests and configuration

The records of `data_model.py`. The time stamps of a request are left out: nothing the scheduler
or the engine decides depends on them.
-/

namespace Nifre

/-- Lifecycle of one generation job. -/
inductive RequestState where
  | waiting
  | prefill
  | decode
  | finished
  deriving DecidableEq, Repr

instance : ToString RequestState where
  toString
    | .waiting => "RequestState.WAITING"
    | .prefill => "RequestState.PREFILL"
    | .decode => "RequestState.DECODE"
    | .finished => "RequestState.FINISHED"

structure InferenceRequest (Tok : Type) where
  requestId : String
  promptTokenIds : List Tok
  maxNewTokens : Int
  state : RequestState := .waiting
  outputTokenIds : List Tok := []
  batchIdx : Option Nat := none
  prefillOffset : Nat := 0
  prefillChunkSize : Int := 128
  slotPrepared : Bool := false
  prefixCacheHitTokens : Nat := 0
  status : String := "ok"

namespace InferenceRequest

variable {Tok : Type}

def numPromptTokens (r : InferenceRequest Tok) : Nat := r.promptTokenIds.length

def numGenerated (r : InferenceRequest Tok) : Nat := r.outputTokenIds.length

def prefillComplete (r : InferenceRequest Tok) : Bool := r.numPromptTokens ≤ r.prefillOffset

end InferenceRequest

/-- A request object, by its place in the order of creation. -/
abbrev Ref := Nat

structure ScheduleResult where
  prefillRequests : List Ref
  decodeRequests : List Ref
  deriving DecidableEq, Repr

/-- What the engine and the caches read of a model's configuration. -/
structure ModelConfig where
  numLayers : Nat
  maxSeqLen : Nat
  padTokenId : Nat
  blockSize : Nat := 16

/-- Snapshot of tunable engine settings. -/
structure EngineConfig where
  maxConcurrentRequests : Int
  prefillChunkSize : Int
  maxTokensPerStep : Int
  usePagedKvCache : Bool
  usePrefixCache : Bool
  deriving DecidableEq, Repr

/-- The keyword arguments of a reconfiguration: the settings it names, with their new values. -/
structure EngineChanges where
  prefillChunkSize : Option Int := none
  maxTokensPerStep : Option Int := none
  maxConcurrentRequests : Option Int := none
  usePagedKvCache : Option Bool := none
  usePrefixCache : Option Bool := none
  deriving DecidableEq, Repr

/-- `dataclasses.replace(config, **changes)`. -/
def EngineConfig.replace (config : EngineConfig) (changes : EngineChanges) : EngineConfig where
  maxConcurrentRequests := changes.maxConcurrentRequests.getD config.maxConcurrentRequests
  prefillChunkSize := changes.prefillChunkSize.getD config.prefillChunkSize
  maxTokensPerStep := changes.maxTokensPerStep.getD config.maxTokensPerStep
  usePagedKvCache := changes.usePagedKvCache.getD config.usePagedKvCache
  usePrefixCache := changes.usePrefixCache.getD config.usePrefixCache

/-- A setting that is given must be positive. -/
def checkPositive (name : String) : Option Int → Except PyError Unit
  | none => .ok ()
  | some v => if v ≤ 0 then .error (.valueError s!"{name} must be positive, got {v}") else .ok ()

def validateEngineConfig (maxConcurrentRequests prefillChunkSize maxTokensPerStep : Option Int) :
    Except PyError Unit := do
  checkPositive "max_concurrent_requests" maxConcurrentRequests
  checkPositive "prefill_chunk_size" prefillChunkSize
  checkPositive "max_tokens_per_step" maxTokensPerStep

end Nifre
