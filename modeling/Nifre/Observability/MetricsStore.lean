import Nifre.Lib.BoundedDeque
import Nifre.Autotune.Workload
import Mathlib.Algebra.Order.Floor.Defs
import Mathlib.Algebra.Field.Basic
import Mathlib.Data.List.Sort

/-!
# The metrics store

Counters over the whole life of the store, and bounded deques of the latest samples and events. A
call that looks at the clock is given the time it reads. Arithmetic is exact.
-/

namespace Nifre

section

variable {F : Type} [Field F] [LinearOrder F]

section

variable [FloorRing F]

/-- `round(x, digits)`: to the nearest, a tie to the even digit. -/
def roundTo (digits : Nat) (x : F) : F :=
  let scaled := x * 10 ^ digits
  let lower := ⌊scaled⌋
  let rest := scaled - lower
  let nearest :=
    if rest < 1 / 2 then lower
    else if 1 / 2 < rest then lower + 1
    else if lower % 2 = 0 then lower else lower + 1
  (nearest : F) / 10 ^ digits

def percentile (values : List F) (p : F) : F :=
  if values.isEmpty then
    0
  else
    let ordered := values.insertionSort (· ≤ ·)
    let rank := ((ordered.length : F) - 1) * (p / 100)
    let lower := ⌊rank⌋.toNat
    let upper := min (lower + 1) (ordered.length - 1)
    if lower = upper then
      ordered.getD lower 0
    else
      let weight := rank - lower
      ordered.getD lower 0 + (ordered.getD upper 0 - ordered.getD lower 0) * weight

structure LatencySummary (F : Type) where
  p50Ms : F
  p95Ms : F
  p99Ms : F
  meanMs : F

def latencySummary (samples : List F) : LatencySummary F :=
  if samples.isEmpty then
    { p50Ms := 0, p95Ms := 0, p99Ms := 0, meanMs := 0 }
  else
    { p50Ms := roundTo 2 (percentile samples 50 * 1000)
      p95Ms := roundTo 2 (percentile samples 95 * 1000)
      p99Ms := roundTo 2 (percentile samples 99 * 1000)
      meanMs := roundTo 2 (samples.sum / samples.length * 1000) }

end

structure MetricsStore (F : Type) where
  windowSec : F
  totalEnqueued : Nat := 0
  totalCompleted : Nat := 0
  totalErrors : Nat := 0
  totalTimeouts : Nat := 0
  totalInputTokens : Nat := 0
  totalOutputTokens : Nat := 0
  totalDecodeIterations : Nat := 0
  totalPrefillTokens : Int := 0
  prefixCacheHits : Nat := 0
  prefixCacheTokensSaved : Nat := 0
  completionTimestamps : BoundedDeque 5000 F := .empty
  ttftSamples : BoundedDeque 2000 F := .empty
  totalLatencySamples : BoundedDeque 2000 F := .empty
  prefillStepSamples : BoundedDeque 2000 F := .empty
  prefillTokensPerStepSamples : BoundedDeque 2000 Int := .empty
  decodeStepSamples : BoundedDeque 2000 F := .empty
  interTokenSamples : BoundedDeque 5000 F := .empty
  /-- When a request finished, with its input and output tokens. -/
  tokenEvents : BoundedDeque 10000 (F × Nat × Nat) := .empty
  decodeIterationTimestamps : BoundedDeque 5000 F := .empty

namespace MetricsStore

/-- `__init__`. -/
def new (windowSec : F) : MetricsStore F := { windowSec := windowSec }

/-! ## Recording -/

def recordEnqueue (s : MetricsStore F) : MetricsStore F :=
  { s with totalEnqueued := s.totalEnqueued + 1 }

/-- The counter of a request's status. -/
def countStatus (status : String) (s : MetricsStore F) : MetricsStore F :=
  if status = "timeout" then { s with totalTimeouts := s.totalTimeouts + 1 }
  else if status = "error" then { s with totalErrors := s.totalErrors + 1 }
  else { s with totalCompleted := s.totalCompleted + 1 }

def recordCompletion (now : F) (ttftSec : Option F) (totalLatencySec : F)
    (inputTokens outputTokens : Nat) (status : String) (s : MetricsStore F) : MetricsStore F :=
  let s := s.countStatus status
  { s with
    completionTimestamps := s.completionTimestamps.append now
    totalLatencySamples := s.totalLatencySamples.append totalLatencySec
    ttftSamples := match ttftSec with
      | none => s.ttftSamples
      | some ttft => s.ttftSamples.append ttft
    totalInputTokens := s.totalInputTokens + inputTokens
    totalOutputTokens := s.totalOutputTokens + outputTokens
    tokenEvents := s.tokenEvents.append (now, inputTokens, outputTokens) }

def recordPrefixCacheHit (tokensSaved : Nat) (s : MetricsStore F) : MetricsStore F :=
  { s with
    prefixCacheHits := s.prefixCacheHits + 1
    prefixCacheTokensSaved := s.prefixCacheTokensSaved + tokensSaved }

def recordPrefillStep (durationSec : F) (tokensProcessed : Int) (s : MetricsStore F) :
    MetricsStore F :=
  { s with
    prefillStepSamples := s.prefillStepSamples.append durationSec
    prefillTokensPerStepSamples := s.prefillTokensPerStepSamples.append tokensProcessed
    totalPrefillTokens := s.totalPrefillTokens + tokensProcessed }

def recordDecodeStep (now durationSec : F) (s : MetricsStore F) : MetricsStore F :=
  { s with
    decodeStepSamples := s.decodeStepSamples.append durationSec
    totalDecodeIterations := s.totalDecodeIterations + 1
    decodeIterationTimestamps := s.decodeIterationTimestamps.append now }

def recordInterToken (gapSec : F) (s : MetricsStore F) : MetricsStore F :=
  { s with interTokenSamples := s.interTokenSamples.append gapSec }

/-! ## Rates -/

/-- `_rate`. -/
def rate (s : MetricsStore F) (timestamps : List F) (now : F) : F :=
  let cutoff := now - s.windowSec
  let count := (timestamps.filter fun ts => cutoff ≤ ts).length
  if s.windowSec = 0 then 0 else count / s.windowSec

/-- `_token_rates`: of all tokens, of the input and of the output. -/
def tokenRates (s : MetricsStore F) (now : F) : F × F × F :=
  let cutoff := now - s.windowSec
  let events := s.tokenEvents.items.filter fun e => cutoff ≤ e.1
  let inputTokens := (events.map fun e => e.2.1).sum
  let outputTokens := (events.map fun e => e.2.2).sum
  let total := inputTokens + outputTokens
  let window := if s.windowSec = 0 then 1 else s.windowSec
  (total / window, inputTokens / window, outputTokens / window)

/-- `requests_per_sec` before it is rounded. -/
def requestsPerSec (s : MetricsStore F) (now : F) : F := s.rate s.completionTimestamps.items now

/-- `decode_iterations_per_sec` before it is rounded. -/
def decodeIterationsPerSec (s : MetricsStore F) (now : F) : F :=
  s.rate s.decodeIterationTimestamps.items now

def finishedTotal (s : MetricsStore F) : Nat := s.totalCompleted + s.totalErrors + s.totalTimeouts

/-- `a / b if b else 0.0`. -/
def ratio (a b : Int) : F := if b = 0 then 0 else a / b

/-! ## The snapshot -/

/-- What `snapshot` says of the engine's work. -/
structure Snapshot (F : Type) where
  timestamp : F
  requestsPerSec : F
  activeRequests : Int
  queuedRequests : Int
  completedRequests : Nat
  errorRate : F
  timeoutRate : F
  ttft : LatencySummary F
  totalRequestLatency : LatencySummary F
  prefillStepLatency : LatencySummary F
  decodeStepLatency : LatencySummary F
  interTokenLatency : LatencySummary F
  tokensPerSec : F
  inputTokensPerSec : F
  outputTokensPerSec : F
  tokensPerRequest : F
  decodeIterationsPerSec : F
  totalPrefillTokens : Int
  avgPrefillTokensPerStep : F
  prefixCacheHits : Nat
  prefixCacheTokensSaved : Nat
  prefixCacheReuseRatio : F

def snapshot [FloorRing F] (s : MetricsStore F) (now : F) (activeRequests queuedRequests : Int) :
    Snapshot F :=
  let (tokensPerSec, inputTps, outputTps) := s.tokenRates now
  let prefillTokens := s.prefillTokensPerStepSamples.items
  { timestamp := now
    requestsPerSec := roundTo 3 (s.requestsPerSec now)
    activeRequests := activeRequests
    queuedRequests := queuedRequests
    completedRequests := s.totalCompleted
    errorRate := roundTo 4 (ratio s.totalErrors s.finishedTotal)
    timeoutRate := roundTo 4 (ratio s.totalTimeouts s.finishedTotal)
    ttft := latencySummary s.ttftSamples.items
    totalRequestLatency := latencySummary s.totalLatencySamples.items
    prefillStepLatency := latencySummary s.prefillStepSamples.items
    decodeStepLatency := latencySummary s.decodeStepSamples.items
    interTokenLatency := latencySummary s.interTokenSamples.items
    tokensPerSec := roundTo 2 tokensPerSec
    inputTokensPerSec := roundTo 2 inputTps
    outputTokensPerSec := roundTo 2 outputTps
    tokensPerRequest :=
      roundTo 2 (ratio (s.totalInputTokens + s.totalOutputTokens) s.totalCompleted)
    decodeIterationsPerSec := roundTo 2 (s.decodeIterationsPerSec now)
    totalPrefillTokens := s.totalPrefillTokens
    avgPrefillTokensPerStep := roundTo 2 (ratio prefillTokens.sum prefillTokens.length)
    prefixCacheHits := s.prefixCacheHits
    prefixCacheTokensSaved := s.prefixCacheTokensSaved
    prefixCacheReuseRatio :=
      let all := s.prefixCacheTokensSaved + s.totalPrefillTokens
      if 0 < all then roundTo 4 (ratio s.prefixCacheTokensSaved all) else 0 }

/-- The entries of a snapshot that the tuning controller reads. -/
def Snapshot.metrics (snapshot : Snapshot F) : MetricsSnapshot F where
  timestamp := some snapshot.timestamp
  queuedRequests := some snapshot.queuedRequests
  activeRequests := some snapshot.activeRequests
  completedRequests := some snapshot.completedRequests
  errorRate := some snapshot.errorRate
  ttftP95Ms := some snapshot.ttft.p95Ms
  ttftP50Ms := some snapshot.ttft.p50Ms
  tokensPerSec := some snapshot.tokensPerSec
  prefixCacheTokensSaved := some snapshot.prefixCacheTokensSaved
  totalPrefillTokens := some snapshot.totalPrefillTokens
  avgPrefillTokensPerStep := some snapshot.avgPrefillTokensPerStep

/-! ## Runs -/

/-- A call of a method that records. -/
inductive Event (F : Type) where
  | enqueue
  | completion (now : F) (ttftSec : Option F) (totalLatencySec : F) (inputTokens outputTokens : Nat)
      (status : String)
  | prefixCacheHit (tokensSaved : Nat)
  | prefillStep (durationSec : F) (tokensProcessed : Int)
  | decodeStep (now durationSec : F)
  | interToken (gapSec : F)

def record (s : MetricsStore F) : Event F → MetricsStore F
  | .enqueue => s.recordEnqueue
  | .completion now ttftSec totalLatencySec inputTokens outputTokens status =>
    s.recordCompletion now ttftSec totalLatencySec inputTokens outputTokens status
  | .prefixCacheHit tokensSaved => s.recordPrefixCacheHit tokensSaved
  | .prefillStep durationSec tokensProcessed => s.recordPrefillStep durationSec tokensProcessed
  | .decodeStep now durationSec => s.recordDecodeStep now durationSec
  | .interToken gapSec => s.recordInterToken gapSec

def recordAll (s : MetricsStore F) (events : List (Event F)) : MetricsStore F :=
  events.foldl record s

end MetricsStore

end

end Nifre
