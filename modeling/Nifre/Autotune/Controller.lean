import Nifre.Autotune.Policy
import Nifre.Inference.Engine

/-!
# The tuning controller

It observes the metrics, tries out a change of the engine settings, and keeps it or takes it back.
A tick is given the time and the metrics it reads. Between ticks the engine runs on.
-/

namespace Nifre

structure ControllerConfig (F : Type) [OfScientific F] where
  intervalSec : F := 30.0
  evaluationSec : F := 60.0
  cooldownSec : F := 30.0
  minCompletedRequests : Int := 1
  latencyRegressionThresholdPct : F := 5.0
  throughputRegressionThresholdPct : F := 5.0
  errorRateRegressionDelta : F := 0.02

structure EvaluationSnapshot (F : Type) where
  ttftP95Ms : F
  tokensPerSec : F
  errorRate : F

structure PendingAttempt (F : Type) where
  name : String
  reason : String
  previousConfig : EngineConfig
  baseline : EvaluationSnapshot F
  startedAt : F
  changes : EngineChanges

/-- What a tick did last. -/
inductive TuningAction where
  | attempted
  | promoted
  | rolledBack
  deriving DecidableEq, Repr

/-- Records optimization attempts: an action, the name of the attempt, and the details. -/
structure OptimizationTracker where
  attempted : Nat := 0
  promoted : Nat := 0
  rolledBack : Nat := 0
  events : List (TuningAction × String × String) := []

namespace OptimizationTracker

def recordAttempt (t : OptimizationTracker) (name details : String) : OptimizationTracker :=
  { t with attempted := t.attempted + 1, events := t.events ++ [(.attempted, name, details)] }

def recordPromotion (t : OptimizationTracker) (name details : String) : OptimizationTracker :=
  { t with promoted := t.promoted + 1, events := t.events ++ [(.promoted, name, details)] }

def recordRollback (t : OptimizationTracker) (name details : String) : OptimizationTracker :=
  { t with rolledBack := t.rolledBack + 1, events := t.events ++ [(.rolledBack, name, details)] }

end OptimizationTracker

/-- The settings that are named, in alphabetical order. -/
def EngineChanges.keys (changes : EngineChanges) : List String :=
  (if changes.maxConcurrentRequests.isSome then ["max_concurrent_requests"] else []) ++
  (if changes.maxTokensPerStep.isSome then ["max_tokens_per_step"] else []) ++
  (if changes.prefillChunkSize.isSome then ["prefill_chunk_size"] else []) ++
  (if changes.usePagedKvCache.isSome then ["use_paged_kv_cache"] else []) ++
  (if changes.usePrefixCache.isSome then ["use_prefix_cache"] else [])

/-- The same settings, with their values in `config`. -/
def EngineChanges.restore (changes : EngineChanges) (config : EngineConfig) : EngineChanges where
  prefillChunkSize := changes.prefillChunkSize.map fun _ => config.prefillChunkSize
  maxTokensPerStep := changes.maxTokensPerStep.map fun _ => config.maxTokensPerStep
  maxConcurrentRequests := changes.maxConcurrentRequests.map fun _ => config.maxConcurrentRequests
  usePagedKvCache := changes.usePagedKvCache.map fun _ => config.usePagedKvCache
  usePrefixCache := changes.usePrefixCache.map fun _ => config.usePrefixCache

/-- `_attempt_name`. -/
def attemptName (changes : EngineChanges) : String :=
  "autotune:" ++ ",".intercalate changes.keys

structure TuningController (F Row : Type) [OfScientific F] where
  engine : Engine Row
  optimization : OptimizationTracker := {}
  goal : TuningGoal := .balanced
  config : ControllerConfig F := {}
  classifier : WorkloadClassifier F := {}
  policy : TuningPolicy := {}
  pending : Option (PendingAttempt F) := none
  lastAttemptAt : F := 0.0
  lastAction : Option TuningAction := none
  lastReason : Option String := none

section

variable {F : Type} [OfScientific F] [Zero F] [Add F] [Sub F] [Mul F] [Div F] [LT F] [LE F]
  [DecidableLT F] [DecidableLE F]

omit [OfScientific F] [Sub F] [Mul F] [LE F] [DecidableLE F] in
/-- `_evaluation_from_metrics`. -/
def evaluationFromMetrics (snapshot : MetricsSnapshot F) : EvaluationSnapshot F :=
  let workload := workloadSnapshotFromMetrics snapshot
  { ttftP95Ms := workload.ttftP95Ms
    tokensPerSec := workload.tokensPerSec
    errorRate := workload.errorRate }

/-- `_is_improvement`. -/
def isImprovement (goal : TuningGoal) (config : ControllerConfig F)
    (baseline current : EvaluationSnapshot F) : Bool :=
  if baseline.errorRate + config.errorRateRegressionDelta < current.errorRate then
    false
  else
    match goal with
    | .latency =>
      if baseline.ttftP95Ms ≤ 0 then false else current.ttftP95Ms < baseline.ttftP95Ms
    | .throughput =>
      if baseline.tokensPerSec ≤ 0 then
        0 < current.tokensPerSec
      else
        let threshold := 1.0 + config.throughputRegressionThresholdPct / 100.0
        baseline.tokensPerSec * threshold ≤ current.tokensPerSec
    | .balanced =>
      let latencyOk := baseline.ttftP95Ms ≤ 0 ∨ current.ttftP95Ms ≤ baseline.ttftP95Ms * 1.02
      let throughputOk :=
        baseline.tokensPerSec ≤ 0 ∨ baseline.tokensPerSec * 0.98 ≤ current.tokensPerSec
      latencyOk ∧ throughputOk ∧
        (current.ttftP95Ms < baseline.ttftP95Ms ∨ baseline.tokensPerSec < current.tokensPerSec)

/-- `_is_regression`. -/
def isRegression (goal : TuningGoal) (config : ControllerConfig F)
    (baseline current : EvaluationSnapshot F) : Bool :=
  if baseline.errorRate + config.errorRateRegressionDelta < current.errorRate then
    true
  else
    match goal with
    | .latency =>
      if baseline.ttftP95Ms ≤ 0 then
        false
      else
        let threshold := 1.0 + config.latencyRegressionThresholdPct / 100.0
        baseline.ttftP95Ms * threshold < current.ttftP95Ms
    | .throughput =>
      if baseline.tokensPerSec ≤ 0 then
        false
      else
        let threshold := 1.0 - config.throughputRegressionThresholdPct / 100.0
        current.tokensPerSec < baseline.tokensPerSec * threshold
    | .balanced =>
      let latencyRegressed := 0 < baseline.ttftP95Ms ∧
        baseline.ttftP95Ms * (1.0 + config.latencyRegressionThresholdPct / 100.0)
          < current.ttftP95Ms
      let throughputRegressed := 0 < baseline.tokensPerSec ∧
        current.tokensPerSec
          < baseline.tokensPerSec * (1.0 - config.throughputRegressionThresholdPct / 100.0)
      latencyRegressed ∨ throughputRegressed

end

namespace TuningController

variable {F Row : Type} [OfScientific F] [Zero F] [Add F] [Sub F] [Mul F] [Div F] [LT F] [LE F]
  [DecidableLT F] [DecidableLE F]

abbrev M (F Row : Type) [OfScientific F] := EStateM PyError (TuningController F Row)

/-- `_apply_changes`: the worker only adds its lock. -/
def applyChanges (changes : EngineChanges) : M F Row Unit := do
  let _ ← Exec.within (·.engine) (fun e c => { c with engine := e })
    (Engine.reconfigureWith changes)

/-- `_rollback`. -/
def rollback (attempt : PendingAttempt F) : M F Row Unit :=
  applyChanges (attempt.changes.restore attempt.previousConfig)

/-- Record the labels of the metrics. -/
def observe (metrics : MetricsSnapshot F) : M F Row WorkloadLabels :=
  Exec.within (·.classifier) (fun classifier c => { c with classifier := classifier })
    (WorkloadClassifier.observe (workloadSnapshotFromMetrics metrics))

/-- The part of `_maybe_start_attempt` that follows a plan for the current configuration. -/
def startAttempt (plan : TuningPlan) (current : EngineConfig) (metrics : MetricsSnapshot F)
    (now : F) : M F Row TuningAction := do
  let name := attemptName plan.changes
  modify fun c => { c with optimization := c.optimization.recordAttempt name plan.reason }
  applyChanges plan.changes
  modify fun c => { c with
    pending := some
      { name := name
        reason := plan.reason
        previousConfig := current
        baseline := evaluationFromMetrics metrics
        startedAt := now
        changes := plan.changes }
    lastAttemptAt := now
    lastAction := some .attempted
    lastReason := some plan.reason }
  pure .attempted

/-- `_maybe_start_attempt`. -/
def maybeStartAttempt (metrics : MetricsSnapshot F) (now : F) : M F Row (Option TuningAction) := do
  let c ← get
  if metrics.completedRequests.getD 0 < c.config.minCompletedRequests then
    pure none
  else
    let labels ← observe metrics
    let c ← get
    let current := c.engine.getConfig
    match c.policy.propose current labels c.engine.cache.isSome c.goal with
    | none => pure none
    | some plan =>
      let action ← startAttempt plan current metrics now
      pure (some action)

/-- What `_finish_evaluation` records of the attempt. -/
def recordAction (action : TuningAction) (attempt : PendingAttempt F) (details : String)
    (c : TuningController F Row) : TuningController F Row :=
  { c with
    optimization := match action with
      | .promoted => c.optimization.recordPromotion attempt.name details
      | _ => c.optimization.recordRollback attempt.name details
    lastAction := some action
    lastReason := some attempt.reason }

/-- The two branches of `_finish_evaluation` that roll back. -/
def takeBack (attempt : PendingAttempt F) (details : String) : M F Row TuningAction := do
  rollback attempt
  modify (recordAction .rolledBack attempt details)
  pure .rolledBack

/-- The branches of `_finish_evaluation`. -/
def evaluate (attempt : PendingAttempt F) (metrics : MetricsSnapshot F) : M F Row TuningAction := do
  let c ← get
  let current := evaluationFromMetrics metrics
  if isRegression c.goal c.config attempt.baseline current then
    takeBack attempt s!"regression vs baseline: {attempt.reason}"
  else if isImprovement c.goal c.config attempt.baseline current then do
    modify (recordAction .promoted attempt attempt.reason)
    pure .promoted
  else
    takeBack attempt s!"neutral result, reverted: {attempt.reason}"

/-- `_finish_evaluation`, of the pending attempt. -/
def finishEvaluation (attempt : PendingAttempt F) (metrics : MetricsSnapshot F) (now : F) :
    M F Row TuningAction := do
  let action ← evaluate attempt metrics
  modify fun c => { c with pending := none, lastAttemptAt := now }
  pure action

/-- One controller cycle. -/
def tick (metrics : MetricsSnapshot F) (now : F) : M F Row (Option TuningAction) := do
  let c ← get
  match c.pending with
  | some attempt =>
    if c.config.evaluationSec ≤ now - attempt.startedAt then do
      let action ← finishEvaluation attempt metrics now
      pure (some action)
    else
      pure none
  | none =>
    if now - c.lastAttemptAt < c.config.cooldownSec then
      pure none
    else
      maybeStartAttempt metrics now

/-! ## Runs -/

variable {Score : Type} [LinearOrder Score] (chain : Int → List Nat → Int)
  (model : InferenceModel Row Score)

/-- A tick, a change of the goal, or a call of a method of the engine. -/
inductive Event (F : Type) where
  | tick (metrics : MetricsSnapshot F) (now : F)
  | setGoal (goal : TuningGoal)
  | engine (op : Engine.Op)

/-- The state after an event, on either exit. -/
def next (c : TuningController F Row) : Event F → TuningController F Row
  | .tick metrics now => Exec.after (tick metrics now) c
  | .setGoal goal => { c with goal := goal }
  | .engine op => { c with engine := Engine.next chain model c.engine op }

end TuningController

end Nifre
