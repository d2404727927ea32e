import Nifre.Autotune.Workload
import Nifre.Lib.Exec
import Nifre.Py

/-!
# The workload classifier

Maps the snapshots to labels; only the queue depth has a history.
-/

namespace Nifre

structure ClassifierConfig (F : Type) [OfScientific F] where
  queueHighThreshold : Int := 2
  queueHighWindowSec : F := 60.0
  queueHighMinSamples : Int := 3
  ttftP95LatencySensitiveMs : F := 500.0
  prefixFriendlyHitRate : F := 0.30
  throughputLowTps : F := 10.0
  errorElevatedRate : F := 0.05

structure WorkloadLabels where
  queueHigh : Bool := false
  prefixFriendly : Bool := false
  latencySensitive : Bool := false
  throughputLow : Bool := false
  errorElevated : Bool := false
  deriving DecidableEq, Repr

structure WorkloadClassifier (F : Type) [OfScientific F] where
  config : ClassifierConfig F := {}
  /-- Time stamp and queue depth, oldest first. -/
  queueSamples : List (F × Int) := []

namespace WorkloadClassifier

variable {F : Type} [OfScientific F] [Zero F] [Sub F] [Mul F] [LT F] [LE F] [DecidableLT F]
  [DecidableLE F]

/-- `_prune_queue_samples`. -/
def pruneQueueSamples (c : WorkloadClassifier F) (now : F) : WorkloadClassifier F :=
  let cutoff := now - c.config.queueHighWindowSec
  { c with queueSamples := c.queueSamples.dropWhile fun sample => sample.1 < cutoff }

/-- `_queue_sustained_high`. -/
def queueSustainedHigh (c : WorkloadClassifier F) : Except PyError Bool :=
  let recent := c.queueSamples
  if (recent.length : Int) < c.config.queueHighMinSamples then
    .ok false
  else if ¬recent.all fun sample => c.config.queueHighThreshold ≤ sample.2 then
    .ok false
  else
    match recent.getLast?, recent.head? with
    | some last, some first =>
      let windowSpan := last.1 - first.1
      let minSpan := c.config.queueHighWindowSec * 0.9
      .ok (minSpan ≤ windowSpan)
    | _, _ => .error (.indexError "list index out of range")

/-- `_classify`. -/
def classify (c : WorkloadClassifier F) (snapshot : WorkloadSnapshot F) :
    Except PyError WorkloadLabels := do
  let queueHigh ← c.queueSustainedHigh
  pure
    { queueHigh := queueHigh
      prefixFriendly := c.config.prefixFriendlyHitRate ≤ snapshot.prefixCacheHitRate
      latencySensitive :=
        c.config.ttftP95LatencySensitiveMs ≤ snapshot.ttftP95Ms ∧ 0 < snapshot.ttftP95Ms
      throughputLow := snapshot.tokensPerSec < c.config.throughputLowTps ∧
        (0 < snapshot.activeRequests ∨ 0 < snapshot.queuedRequests)
      errorElevated := c.config.errorElevatedRate ≤ snapshot.errorRate }

/-- Record the queue depth and return the labels of this snapshot. -/
def observe (snapshot : WorkloadSnapshot F) : EStateM PyError (WorkloadClassifier F) WorkloadLabels := do
  modify fun c => { c with
    queueSamples := c.queueSamples ++ [(snapshot.timestamp, snapshot.queuedRequests)] }
  modify fun c => c.pruneQueueSamples snapshot.timestamp
  let c ← get
  Exec.ofExcept (c.classify snapshot)

end WorkloadClassifier

end Nifre
