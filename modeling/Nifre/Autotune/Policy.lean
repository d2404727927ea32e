import Nifre.Autotune.Classifier
import Nifre.Inference.DataModel

/-!
# The tuning policy

Workload labels to proposed changes of the engine settings. Each rule adds to the changes and to
the reasons.
-/

namespace Nifre

inductive TuningGoal where
  | latency
  | throughput
  | balanced
  deriving DecidableEq, Repr

structure PolicyConfig where
  minPrefillChunkSize : Int := 32
  maxPrefillChunkSize : Int := 512
  prefillChunkStep : Int := 64
  minMaxTokensPerStep : Int := 256
  maxMaxTokensPerStep : Int := 4096
  tokenBudgetStep : Int := 256
  minMaxConcurrentRequests : Int := 1
  maxMaxConcurrentRequests : Int := 16
  concurrencyStep : Int := 1

structure TuningPlan where
  config : EngineConfig
  reason : String
  changes : EngineChanges

/-- `_step_int`. -/
def stepInt (current delta minimum maximum : Int) : Option Int :=
  if delta = 0 then
    none
  else
    let newValue := max minimum (min maximum (current + delta))
    if newValue ≠ current then some newValue else none

structure TuningPolicy where
  config : PolicyConfig := {}

namespace TuningPolicy

/-- What the rules have collected so far. -/
structure Updates where
  changes : EngineChanges := {}
  reasons : List String := []

namespace Updates

/-- `if new_chunk is not None: ...`. -/
def setChunk (newChunk : Option Int) (reason : String) (u : Updates) : Updates :=
  match newChunk with
  | none => u
  | some v =>
    { changes := { u.changes with prefillChunkSize := some v }, reasons := u.reasons ++ [reason] }

/-- `if new_budget is not None: ...`. -/
def setBudget (newBudget : Option Int) (reason : String) (u : Updates) : Updates :=
  match newBudget with
  | none => u
  | some v =>
    { changes := { u.changes with maxTokensPerStep := some v }, reasons := u.reasons ++ [reason] }

/-- `if new_concurrency is not None: ...`. -/
def setConcurrency (newConcurrency : Option Int) (reason : String) (u : Updates) : Updates :=
  match newConcurrency with
  | none => u
  | some v =>
    { changes := { u.changes with maxConcurrentRequests := some v }, reasons := u.reasons ++ [reason] }

end Updates

variable (policy : TuningPolicy) (current : EngineConfig) (labels : WorkloadLabels)
  (cacheInitialized : Bool)

/-- The next prefill chunk size, by `delta`. -/
def stepChunk (delta : Int) : Option Int :=
  stepInt current.prefillChunkSize delta policy.config.minPrefillChunkSize
    policy.config.maxPrefillChunkSize

/-- The next token budget, by `delta`. -/
def stepBudget (delta : Int) : Option Int :=
  stepInt current.maxTokensPerStep delta policy.config.minMaxTokensPerStep
    policy.config.maxMaxTokensPerStep

/-- The next number of slots. -/
def stepConcurrency : Option Int :=
  stepInt current.maxConcurrentRequests policy.config.concurrencyStep
    policy.config.minMaxConcurrentRequests policy.config.maxMaxConcurrentRequests

/-- `_apply_latency_rules`. -/
def applyLatencyRules (u : Updates) : Updates :=
  let u := if labels.latencySensitive ∨ labels.queueHigh then
      u.setChunk (policy.stepChunk current (-policy.config.prefillChunkStep))
        "reduce prefill chunk size for lower TTFT"
    else u
  if labels.latencySensitive then
    u.setBudget (policy.stepBudget current (-policy.config.tokenBudgetStep))
      "lower token budget to interleave decode sooner"
  else u

/-- `_apply_throughput_rules`. -/
def applyThroughputRules (u : Updates) : Updates :=
  let u := if labels.queueHigh ∧ ¬cacheInitialized then
      u.setConcurrency (policy.stepConcurrency current) "raise concurrency to drain queue"
    else u
  if labels.throughputLow then
    u.setBudget (policy.stepBudget current policy.config.tokenBudgetStep)
      "raise token budget for higher throughput"
  else u

/-- `_apply_balanced_rules`. -/
def applyBalancedRules (u : Updates) : Updates :=
  let halfChunk := policy.stepChunk current (-policy.config.prefillChunkStep / 2)
  let u := if labels.latencySensitive then
      u.setChunk halfChunk "trim prefill chunks to protect latency"
    else u
  let u := if labels.throughputLow then
      u.setBudget (policy.stepBudget current (max (policy.config.tokenBudgetStep / 2) 1))
        "nudge token budget up for throughput"
    else u
  if labels.queueHigh then
    if ¬cacheInitialized then
      u.setConcurrency (policy.stepConcurrency current) "raise concurrency to reduce queue wait"
    else if u.changes.prefillChunkSize = none then
      u.setChunk halfChunk "reduce prefill chunks while queue is high"
    else u
  else u

/-- `_apply_prefix_rules`. -/
def applyPrefixRules (u : Updates) : Updates :=
  if labels.prefixFriendly ∧ ¬current.usePrefixCache ∧ current.usePagedKvCache ∧
      ¬cacheInitialized then
    { changes := { u.changes with usePrefixCache := some true }
      reasons := u.reasons ++ ["enable prefix cache for shared-prefix workload"] }
  else u

/-- What the rules collect for a goal. -/
def applyRules (goal : TuningGoal) : Updates :=
  let u := match goal with
    | .latency => policy.applyLatencyRules current labels {}
    | .throughput => policy.applyThroughputRules current labels cacheInitialized {}
    | .balanced => policy.applyBalancedRules current labels cacheInitialized {}
  applyPrefixRules current labels cacheInitialized u

def propose (goal : TuningGoal) : Option TuningPlan :=
  if labels.errorElevated then
    none
  else
    let u := policy.applyRules current labels cacheInitialized goal
    if u.changes = {} then
      none
    else
      some
        { config := current.replace u.changes
          reason := "; ".intercalate u.reasons
          changes := u.changes }

end TuningPolicy

end Nifre
