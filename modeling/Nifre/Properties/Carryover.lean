import Nifre.Properties.Verdict
import Nifre.Properties.MetricsRuns
import Mathlib.Data.Rat.Floor

/-!
# What an attempt is judged on

The metrics at the end of an attempt are those of the dashboard, so they do not start with the
attempt. What was recorded earlier counts in three ways: as the samples of the first token that are
still among the latest, as the tokens of requests that finished within the window, and in the
totals of errors and of finished requests.
-/

namespace Nifre

namespace MetricsStore

variable {F : Type} [Field F] [LinearOrder F]

/-- What is left of the past for the snapshot at `now`, after the `later` events. -/
structure Carryover (F : Type) where
  ttfts : List F
  inputTokens : Nat
  outputTokens : Nat
  errors : Nat
  finished : Nat
  deriving DecidableEq

/-- The completions that count, of those still kept. -/
def recentCompletions (windowSec now : F) (past later : List (Event F)) : List (F × Nat × Nat) :=
  ((past.flatMap Event.completions).rtake (10000 - (later.flatMap Event.completions).length)).filter
    fun e => now - windowSec ≤ e.1

def carryover (windowSec now : F) (past later : List (Event F)) : Carryover F where
  ttfts := (past.flatMap Event.ttfts).rtake (2000 - (later.flatMap Event.ttfts).length)
  inputTokens := ((recentCompletions windowSec now past later).map fun e => e.2.1).sum
  outputTokens := ((recentCompletions windowSec now past later).map fun e => e.2.2).sum
  errors := (past.map fun e => if e.isError then 1 else 0).sum
  finished := (past.map fun e => e.completions.length).sum

/-- The store after the past and the later events. -/
def after (windowSec : F) (past later : List (Event F)) : MetricsStore F :=
  ((new windowSec).recordAll past).recordAll later

variable {windowSec now : F} {past₁ past₂ later : List (Event F)}

omit [LinearOrder F] [Field F] in
theorem after_eq (windowSec : F) (past later : List (Event F)) :
    after windowSec past later = (new windowSec).recordAll (past ++ later) :=
  List.foldl_append.symm

/-- The samples of the first token, by what is left of the past. -/
theorem after_ttftSamples (windowSec now : F) (past later : List (Event F)) :
    (after windowSec past later).ttftSamples.items
      = (carryover windowSec now past later).ttfts
        ++ (later.flatMap Event.ttfts).rtake 2000 := by
  have hitems : (after windowSec past later).ttftSamples.items
      = ((past ++ later).flatMap Event.ttfts).rtake 2000 := by
    rw [after_eq]
    exact ttftSamples_appends.items_recordAll (new windowSec) (past ++ later)
  rw [hitems, List.flatMap_append, BoundedDeque.rtake_append_eq]
  rfl

/-- The token events that count, by what is left of the past. -/
theorem after_tokenEvents (past later : List (Event F)) :
    ((after windowSec past later).tokenEvents.items.filter fun e => now - windowSec ≤ e.1)
      = recentCompletions windowSec now past later ++
        ((later.flatMap Event.completions).rtake 10000).filter fun e => now - windowSec ≤ e.1 := by
  have hitems : (after windowSec past later).tokenEvents.items
      = ((past ++ later).flatMap Event.completions).rtake 10000 := by
    rw [after_eq]
    exact tokenEvents_appends.items_recordAll (new windowSec) (past ++ later)
  rw [hitems, List.flatMap_append, BoundedDeque.rtake_append_eq, List.filter_append]
  rfl

/-- **The rates of tokens depend on what is left of the past.** -/
theorem tokenRates_eq
    (h : carryover windowSec now past₁ later = carryover windowSec now past₂ later) :
    (after windowSec past₁ later).tokenRates now
      = (after windowSec past₂ later).tokenRates now := by
  have hsec : ∀ past, (after windowSec past later).windowSec = windowSec := fun past => by
    rw [after_eq]
    exact recordAll_windowSec _ _
  have hinput := congrArg Carryover.inputTokens h
  have houtput := congrArg Carryover.outputTokens h
  unfold tokenRates
  simp only [hsec, after_tokenEvents, List.map_append, List.sum_append]
  simp only [carryover] at hinput houtput
  rw [hinput, houtput]

/-- The share of errors depends on the totals. -/
theorem errorRatio_eq
    (h : carryover windowSec now past₁ later = carryover windowSec now past₂ later) :
    (ratio (after windowSec past₁ later).totalErrors
        (after windowSec past₁ later).finishedTotal : F)
      = ratio (after windowSec past₂ later).totalErrors
        (after windowSec past₂ later).finishedTotal := by
  have herrors := congrArg Carryover.errors h
  have hfinished := congrArg Carryover.finished h
  simp only [carryover] at herrors hfinished
  simp only [after_eq, recordAll_totalErrors, recordAll_finishedTotal, List.map_append,
    List.sum_append]
  rw [herrors, hfinished]

end MetricsStore

namespace TuningController

open MetricsStore

variable {F Row : Type} [Field F] [LinearOrder F] [FloorRing F]
  {windowSec now : F} {past₁ past₂ later : List (MetricsStore.Event F)}

/-- The metrics that the controller reads at `now`. -/
def metricsAt (windowSec now : F) (past later : List (MetricsStore.Event F))
    (activeRequests queuedRequests : Int) : MetricsSnapshot F :=
  ((MetricsStore.after windowSec past later).snapshot now activeRequests queuedRequests).metrics

/-- **The evaluation snapshot depends on the past through what is left of it.** -/
theorem evaluation_eq
    (h : carryover windowSec now past₁ later = carryover windowSec now past₂ later)
    (active₁ queued₁ active₂ queued₂ : Int) :
    evaluationFromMetrics (metricsAt windowSec now past₁ later active₁ queued₁)
      = evaluationFromMetrics (metricsAt windowSec now past₂ later active₂ queued₂) := by
  have httfts : (MetricsStore.after windowSec past₁ later).ttftSamples.items
      = (MetricsStore.after windowSec past₂ later).ttftSamples.items := by
    rw [after_ttftSamples windowSec now, after_ttftSamples windowSec now, h]
  unfold evaluationFromMetrics workloadSnapshotFromMetrics metricsAt Snapshot.metrics snapshot
  simp only [Option.getD_some]
  rw [httfts, tokenRates_eq h, errorRatio_eq h]

/-- **An attempt is judged on what was recorded during it, and on what is left of the past**: two
controllers with the same goal and thresholds, in runs that record the same during the attempt and
have the same left of the past, take the same evaluation snapshot and promote alike. -/
theorem judged_alike
    (h : carryover windowSec now past₁ later = carryover windowSec now past₂ later)
    {c₁ c₂ : TuningController F Row} (hgoal : c₂.goal = c₁.goal) (hconfig : c₂.config = c₁.config)
    (attempt : PendingAttempt F) (active₁ queued₁ active₂ queued₂ : Int) :
    evaluationFromMetrics (metricsAt windowSec now past₁ later active₁ queued₁)
        = evaluationFromMetrics (metricsAt windowSec now past₂ later active₂ queued₂) ∧
      ((∃ c', (finishEvaluation attempt
            (metricsAt windowSec now past₁ later active₁ queued₁) now).run c₁ = .ok .promoted c') ↔
        ∃ c', (finishEvaluation attempt
            (metricsAt windowSec now past₂ later active₂ queued₂) now).run c₂
          = .ok .promoted c') := by
  have heval := evaluation_eq h active₁ queued₁ active₂ queued₂
  refine ⟨heval, ?_⟩
  rw [finishEvaluation_promotes, finishEvaluation_promotes, heval, hgoal, hconfig]

/-- During the attempt one request finishes, soon after its first token. -/
def duringAttempt : List (MetricsStore.Event ℚ) := [.completion 950 (some (1 / 10)) 1 8 8 "ok"]

/-- Before it, at another time, one request has failed. -/
def oldError : List (MetricsStore.Event ℚ) := [.completion 10 none 1 8 0 "error"]

def oldSuccess : List (MetricsStore.Event ℚ) := [.completion 10 none 1 8 0 "ok"]

/-- **An error long before the attempt turns the verdict.** -/
theorem oldError_turnsVerdict :
    ∃ e, Engine.new (recallModel ⟨1, 8, 0, 2⟩ sumScores) 1 128 2048 true true = .ok e ∧
      let c : TuningController ℚ Nat := { engine := e, goal := .latency }
      let attempt : PendingAttempt ℚ := ⟨"", "", e.getConfig, ⟨200, 1, 0⟩, 900, {}⟩
      evaluationFromMetrics (metricsAt 60 960 oldError duringAttempt 0 0)
          ≠ evaluationFromMetrics (metricsAt 60 960 oldSuccess duringAttempt 0 0) ∧
        (∃ c', (finishEvaluation attempt (metricsAt 60 960 oldSuccess duringAttempt 0 0) 960).run c
          = .ok .promoted c') ∧
        ¬∃ c', (finishEvaluation attempt (metricsAt 60 960 oldError duringAttempt 0 0) 960).run c
          = .ok .promoted c' := by
  refine ⟨_, rfl, fun h => ?_, ?_, ?_⟩
  · have herrors := congrArg EvaluationSnapshot.errorRate h
    revert herrors
    decide +kernel
  · rw [finishEvaluation_promotes]
    decide +kernel
  · rw [finishEvaluation_promotes]
    decide +kernel

/-- Another success before the attempt, at another time, leaves nothing else. -/
theorem olderSuccess_judgedAlike :
    ∃ e, Engine.new (recallModel ⟨1, 8, 0, 2⟩ sumScores) 1 128 2048 true true = .ok e ∧
      let c : TuningController ℚ Nat := { engine := e, goal := .latency }
      let attempt : PendingAttempt ℚ := ⟨"", "", e.getConfig, ⟨200, 1, 0⟩, 900, {}⟩
      let older : List (MetricsStore.Event ℚ) := [.completion 5 none 3 80 1 "ok"]
      evaluationFromMetrics (metricsAt 60 960 oldSuccess duringAttempt 0 0)
          = evaluationFromMetrics (metricsAt 60 960 older duringAttempt 0 0) ∧
        ((∃ c', (finishEvaluation attempt (metricsAt 60 960 oldSuccess duringAttempt 0 0) 960).run c
            = .ok .promoted c') ↔
          ∃ c', (finishEvaluation attempt (metricsAt 60 960 older duringAttempt 0 0) 960).run c
            = .ok .promoted c') := by
  obtain ⟨e, h⟩ : ∃ e, Engine.new (recallModel ⟨1, 8, 0, 2⟩ sumScores) 1 128 2048 true true
    = .ok e := ⟨_, rfl⟩
  refine ⟨e, h, judged_alike ?_ rfl rfl _ 0 0 0 0⟩
  decide +kernel

end TuningController

end Nifre
