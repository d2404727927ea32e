import Mathlib.Algebra.Group.Defs

/-!
# Workload metrics

The numbers are of any type with the operations that are used; no law of arithmetic is assumed.
-/

namespace Nifre

/-- What the controller reads of `MetricsCollector.snapshot()`. A missing entry is `none`. -/
structure MetricsSnapshot (F : Type) where
  timestamp : Option F := none
  queuedRequests : Option Int := none
  activeRequests : Option Int := none
  completedRequests : Option Int := none
  errorRate : Option F := none
  ttftP95Ms : Option F := none
  ttftP50Ms : Option F := none
  tokensPerSec : Option F := none
  prefixCacheTokensSaved : Option F := none
  totalPrefillTokens : Option F := none
  avgPrefillTokensPerStep : Option F := none

/-- Point-in-time view of engine load. -/
structure WorkloadSnapshot (F : Type) where
  timestamp : F
  queuedRequests : Int
  activeRequests : Int
  ttftP95Ms : F
  ttftP50Ms : F
  tokensPerSec : F
  prefixCacheHitRate : F
  errorRate : F
  avgPrefillTokensPerStep : F

def workloadSnapshotFromMetrics {F : Type} [Zero F] [Add F] [Div F] [LT F] [DecidableLT F]
    (snapshot : MetricsSnapshot F) : WorkloadSnapshot F :=
  let tokensSaved := snapshot.prefixCacheTokensSaved.getD 0
  let totalPrefill := snapshot.totalPrefillTokens.getD 0
  let prefixDenominator := tokensSaved + totalPrefill
  { timestamp := snapshot.timestamp.getD 0
    queuedRequests := snapshot.queuedRequests.getD 0
    activeRequests := snapshot.activeRequests.getD 0
    ttftP95Ms := snapshot.ttftP95Ms.getD 0
    ttftP50Ms := snapshot.ttftP50Ms.getD 0
    tokensPerSec := snapshot.tokensPerSec.getD 0
    prefixCacheHitRate := if 0 < prefixDenominator then tokensSaved / prefixDenominator else 0
    errorRate := snapshot.errorRate.getD 0
    avgPrefillTokensPerStep := snapshot.avgPrefillTokensPerStep.getD 0 }

end Nifre
