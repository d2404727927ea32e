import Nifre.Autotune.Controller
import Nifre.Properties.Reconfigure

/-!
# The ticks of the controller

The ways a tick ends, with the engine, the pending attempt and the record that it leaves. A tick
that finds an attempt that is due promotes it or takes it back; one that finds none may offer a new
plan to the engine. The engine may refuse either.
-/

namespace Nifre

namespace TuningController

variable {F Row Score : Type} [OfScientific F] [Zero F] [Add F] [Sub F] [Mul F] [Div F] [LT F]
  [LE F] [DecidableLT F] [DecidableLE F]

open Engine (Positive FlagsAllowed SlotsAllowed)

variable {c : TuningController F Row} {changes : EngineChanges}

/-- The attempt is due, and the metrics do not speak for keeping it. -/
def TakesBack (c : TuningController F Row) (attempt : PendingAttempt F)
    (metrics : MetricsSnapshot F) (now : F) : Prop :=
  c.config.evaluationSec ≤ now - attempt.startedAt ∧
    (isRegression c.goal c.config attempt.baseline (evaluationFromMetrics metrics) = true ∨
      isImprovement c.goal c.config attempt.baseline (evaluationFromMetrics metrics) = false)

instance (c : TuningController F Row) (attempt : PendingAttempt F) (metrics : MetricsSnapshot F)
    (now : F) : Decidable (TakesBack c attempt metrics now) :=
  inferInstanceAs (Decidable (_ ∧ (_ ∨ _)))

/-- The plan that a tick tries out, if it does. -/
def offered (c : TuningController F Row) (metrics : MetricsSnapshot F) (now : F) :
    Option TuningPlan :=
  if c.pending.isSome ∨ now - c.lastAttemptAt < c.config.cooldownSec ∨
      metrics.completedRequests.getD 0 < c.config.minCompletedRequests then
    none
  else
    (Exec.value? (WorkloadClassifier.observe (workloadSnapshotFromMetrics metrics))
      c.classifier).bind fun labels =>
        c.policy.propose c.engine.getConfig labels c.engine.cache.isSome c.goal

/-- The engine accepts the changes. -/
def Accepts (e : Engine Row) (changes : EngineChanges) : Prop :=
  Positive changes ∧ FlagsAllowed e changes ∧ SlotsAllowed e changes

instance (e : Engine Row) (changes : EngineChanges) : Decidable (Accepts e changes) :=
  inferInstanceAs (Decidable (_ ∧ _ ∧ _))

/-! ## The engine's answer -/

/-- The engine was handed to `reconfigure`, or not touched. -/
def Touched (e e' : Engine Row) : Prop :=
  e' = e ∨ ∃ changes, e' = Exec.after (Engine.reconfigureWith changes) e

/-- What a refusal leaves of the engine: nothing has changed, or all but the number of slots. -/
def Refused (e : Engine Row) (changes : EngineChanges) (e' : Engine Row) : Prop :=
  (e' = e ∧ ¬(Positive changes ∧ FlagsAllowed e changes)) ∨
    (e' = e.assigned changes ∧ Positive changes ∧ FlagsAllowed e changes ∧
      ¬SlotsAllowed e changes)

theorem Refused.not_accepts {e e' : Engine Row} (h : Refused e changes e') :
    ¬Accepts e changes := by
  rcases h with ⟨-, hnot⟩ | ⟨-, -, -, hslots⟩
  · exact fun h => hnot ⟨h.1, h.2.1⟩
  · exact fun h => hslots h.2.2

omit [Zero F] [Add F] [Sub F] [Mul F] [Div F] [LT F] [LE F] [DecidableLT F] [DecidableLE F] in
/-- **The ways `_apply_changes` ends.** -/
theorem applyChanges_cases (changes : EngineChanges) (c : TuningController F Row) :
    (∃ err e', (applyChanges changes).run c = .error err { c with engine := e' } ∧
      Refused c.engine changes e' ∧ Touched c.engine e') ∨
    (applyChanges changes).run c = .ok () { c with engine := c.engine.reconfigured changes } ∧
      Accepts c.engine changes ∧ Touched c.engine (c.engine.reconfigured changes) := by
  have hout := Engine.reconfigure_outcome c.engine changes
  unfold applyChanges
  generalize hrun : (Engine.reconfigureWith changes).run c.engine = result at hout
  cases hout with
  | refused err hnot =>
    exact Or.inl ⟨err, c.engine, Exec.run_bind_error (Exec.run_within_error hrun),
      Or.inl ⟨rfl, hnot⟩, Or.inl rfl⟩
  | halfway err hpos hflags hslots =>
    exact Or.inl ⟨err, _, Exec.run_bind_error (Exec.run_within_error hrun),
      Or.inr ⟨rfl, hpos, hflags, hslots⟩, Or.inr ⟨changes, (Exec.after_of_error hrun).symm⟩⟩
  | done hpos hflags hslots =>
    refine Or.inr ⟨?_, ⟨hpos, hflags, hslots⟩, Or.inr ⟨changes, (Exec.after_of_ok hrun).symm⟩⟩
    rw [Exec.run_bind_ok (Exec.run_within_ok hrun)]
    rfl

omit [Zero F] [Add F] [Mul F] [Div F] [LT F] [LE F] [DecidableLT F] [DecidableLE F] [Sub F] in
/-- What follows a roll back that raises does not run. -/
theorem takeBack_run_error {attempt : PendingAttempt F} {details : String} {err : PyError}
    {c' : TuningController F Row}
    (h : (applyChanges (attempt.changes.restore attempt.previousConfig)).run c = .error err c') :
    (takeBack attempt details).run c = .error err c' :=
  Exec.run_bind_error h

omit [Zero F] [Add F] [Mul F] [Div F] [LT F] [LE F] [DecidableLT F] [DecidableLE F] [Sub F] in
theorem takeBack_run_ok {attempt : PendingAttempt F} {details : String}
    {c' : TuningController F Row}
    (h : (applyChanges (attempt.changes.restore attempt.previousConfig)).run c = .ok () c') :
    (takeBack attempt details).run c
      = .ok .rolledBack (recordAction .rolledBack attempt details c') := by
  unfold takeBack rollback
  rw [Exec.run_bind_ok h]
  rfl

/-- An improvement without a regression is promoted, and anything else taken back. -/
theorem evaluate_cases (attempt : PendingAttempt F) (metrics : MetricsSnapshot F) :
    (isRegression c.goal c.config attempt.baseline (evaluationFromMetrics metrics) = false ∧
      isImprovement c.goal c.config attempt.baseline (evaluationFromMetrics metrics) = true ∧
      (evaluate attempt metrics).run c
        = .ok .promoted (recordAction .promoted attempt attempt.reason c)) ∨
    ((isRegression c.goal c.config attempt.baseline (evaluationFromMetrics metrics) = true ∨
      isImprovement c.goal c.config attempt.baseline (evaluationFromMetrics metrics) = false) ∧
      ∃ details, (evaluate attempt metrics).run c = (takeBack attempt details).run c) := by
  unfold evaluate
  rw [Exec.run_bind_ok (EStateM.run_get c)]
  simp only
  by_cases hregr : isRegression c.goal c.config attempt.baseline (evaluationFromMetrics metrics)
      = true
  · rw [if_pos hregr]
    exact Or.inr ⟨Or.inl hregr, _, rfl⟩
  · rw [if_neg hregr]
    by_cases himpr : isImprovement c.goal c.config attempt.baseline (evaluationFromMetrics metrics)
        = true
    · rw [if_pos himpr]
      exact Or.inl ⟨by simpa using hregr, himpr, rfl⟩
    · rw [if_neg himpr]
      exact Or.inr ⟨Or.inr (by simpa using himpr), _, rfl⟩

/-- A due attempt is promoted, or taken back with some details. -/
theorem evaluate_run (attempt : PendingAttempt F) (metrics : MetricsSnapshot F) {now : F}
    (hdue : c.config.evaluationSec ≤ now - attempt.startedAt) :
    (¬TakesBack c attempt metrics now ∧ (evaluate attempt metrics).run c
      = .ok .promoted (recordAction .promoted attempt attempt.reason c)) ∨
    (TakesBack c attempt metrics now ∧ ∃ details,
      (evaluate attempt metrics).run c = (takeBack attempt details).run c) := by
  rcases evaluate_cases (c := c) attempt metrics with ⟨hregr, himpr, hrun⟩ | ⟨hback, hrun⟩
  · refine Or.inl ⟨?_, hrun⟩
    rintro ⟨-, hr | hi⟩
    · exact Bool.false_ne_true (hregr.symm.trans hr)
    · exact Bool.false_ne_true (hi.symm.trans himpr)
  · exact Or.inr ⟨⟨hdue, hback⟩, hrun⟩

/-! ## The ways a tick ends -/

theorem exists_of_offered {metrics : MetricsSnapshot F} {now : F} {plan : TuningPlan}
    (h : offered c metrics now = some plan) :
    c.pending = none ∧ ∃ labels,
      c.policy.propose c.engine.getConfig labels c.engine.cache.isSome c.goal = some plan := by
  unfold offered at h
  split at h
  · cases h
  · next hready =>
    obtain ⟨labels, -, hplan⟩ := Option.bind_eq_some_iff.mp h
    exact ⟨Option.not_isSome_iff_eq_none.mp fun hp => hready (Or.inl hp), labels, hplan⟩

/-- **What a tick does**, and what it records. -/
inductive TickRun (c : TuningController F Row) (metrics : MetricsSnapshot F) (now : F) :
    EStateM.Result PyError (TuningController F Row) (Option TuningAction) → Prop
  /-- Nothing is due, and there is nothing to try out. -/
  | idle (c') : c'.engine = c.engine → c'.pending = c.pending →
    c'.optimization = c.optimization →
    (∀ attempt, c.pending = some attempt →
      ¬c.config.evaluationSec ≤ now - attempt.startedAt) →
    offered c metrics now = none → TickRun c metrics now (.ok none c')
  | unlabelled (err c') : c.pending = none → c'.engine = c.engine → c'.pending = none →
    c'.optimization = c.optimization → offered c metrics now = none →
    TickRun c metrics now (.error err c')
  /-- The engine refuses the plan, which is recorded as an attempt. -/
  | refused (err c' plan) : offered c metrics now = some plan →
    Refused c.engine plan.changes c'.engine → Touched c.engine c'.engine → c'.pending = none →
    c'.optimization = c.optimization.recordAttempt (attemptName plan.changes) plan.reason →
    TickRun c metrics now (.error err c')
  | attempted (c' plan attempt) : offered c metrics now = some plan →
    Accepts c.engine plan.changes → c'.engine = c.engine.reconfigured plan.changes →
    Touched c.engine c'.engine → c'.pending = some attempt →
    attempt.previousConfig = c.engine.getConfig → attempt.changes = plan.changes →
    c'.optimization = c.optimization.recordAttempt (attemptName plan.changes) plan.reason →
    TickRun c metrics now (.ok (some .attempted) c')
  | promoted (c' attempt) : c.pending = some attempt → ¬TakesBack c attempt metrics now →
    c'.engine = c.engine → c'.pending = none →
    c'.optimization = c.optimization.recordPromotion attempt.name attempt.reason →
    TickRun c metrics now (.ok (some .promoted) c')
  | rolledBack (c' attempt details) : c.pending = some attempt → TakesBack c attempt metrics now →
    Accepts c.engine (attempt.changes.restore attempt.previousConfig) →
    c'.engine = c.engine.reconfigured (attempt.changes.restore attempt.previousConfig) →
    Touched c.engine c'.engine → c'.pending = none →
    c'.optimization = c.optimization.recordRollback attempt.name details →
    TickRun c metrics now (.ok (some .rolledBack) c')
  /-- The engine refuses to be set back, and the attempt stays. -/
  | kept (err e' attempt) : c.pending = some attempt → TakesBack c attempt metrics now →
    Refused c.engine (attempt.changes.restore attempt.previousConfig) e' → Touched c.engine e' →
    TickRun c metrics now (.error err { c with engine := e' })

/-- The pending attempt is due. -/
theorem tick_due {attempt : PendingAttempt F} (hpending : c.pending = some attempt)
    (metrics : MetricsSnapshot F) {now : F}
    (hdue : c.config.evaluationSec ≤ now - attempt.startedAt) :
    TickRun c metrics now ((tick metrics now).run c) := by
  have htick : (tick metrics now).run c = (do
      let action ← finishEvaluation attempt metrics now
      pure (some action) : M F Row (Option TuningAction)).run c := by
    unfold tick
    rw [Exec.run_bind_ok (EStateM.run_get c)]
    simp only [hpending, if_pos hdue]
  rw [htick]
  unfold finishEvaluation
  rcases evaluate_run attempt metrics hdue with ⟨hkeep, hrun⟩ | ⟨hback, details, hrun⟩
  · rw [Exec.run_bind_ok (a := .promoted) (by rw [Exec.run_bind_ok hrun]; rfl)]
    exact .promoted _ attempt hpending hkeep rfl rfl rfl
  · rcases applyChanges_cases (attempt.changes.restore attempt.previousConfig) c with
      ⟨err, e', happly, hrefused, htouched⟩ | ⟨happly, haccepts, htouched⟩
    · rw [Exec.run_bind_error (Exec.run_bind_error (hrun.trans (takeBack_run_error happly)))]
      exact .kept err e' attempt hpending hback hrefused htouched
    · rw [Exec.run_bind_ok (a := .rolledBack)
        (by rw [Exec.run_bind_ok (hrun.trans (takeBack_run_ok happly))]; rfl)]
      exact .rolledBack _ attempt details hpending hback haccepts rfl htouched rfl rfl

/-- No attempt is pending, and the cooldown is over. -/
theorem maybeStartAttempt_run (hpending : c.pending = none) (metrics : MetricsSnapshot F)
    {now : F} (hcool : ¬now - c.lastAttemptAt < c.config.cooldownSec) :
    TickRun c metrics now ((maybeStartAttempt metrics now).run c) := by
  have hnone : ∀ attempt, c.pending = some attempt →
      ¬c.config.evaluationSec ≤ now - attempt.startedAt :=
    fun attempt h => by cases hpending.symm.trans h
  unfold maybeStartAttempt
  rw [Exec.run_bind_ok (EStateM.run_get c)]
  by_cases hfew : metrics.completedRequests.getD 0 < c.config.minCompletedRequests
  · rw [if_pos hfew]
    exact .idle c rfl rfl rfl hnone (if_pos (Or.inr (Or.inr hfew)))
  rw [if_neg hfew]
  have hready : ¬(c.pending.isSome ∨ now - c.lastAttemptAt < c.config.cooldownSec ∨
      metrics.completedRequests.getD 0 < c.config.minCompletedRequests) := by
    rintro (h | h | h)
    · rw [hpending] at h
      cases h
    · exact hcool h
    · exact hfew h
  unfold observe
  cases hobs : (WorkloadClassifier.observe (workloadSnapshotFromMetrics metrics)).run
      c.classifier with
  | error err classifier =>
    have hoffer : offered c metrics now = none := by
      rw [offered, if_neg hready, Exec.value?, hobs]
      rfl
    rw [Exec.run_bind_error (Exec.run_within_error hobs)]
    exact .unlabelled err _ hpending rfl hpending rfl hoffer
  | ok labels classifier =>
    have hoffer : offered c metrics now
        = c.policy.propose c.engine.getConfig labels c.engine.cache.isSome c.goal := by
      rw [offered, if_neg hready, Exec.value?, hobs]
      rfl
    rw [Exec.run_bind_ok (Exec.run_within_ok hobs), Exec.run_bind_ok (EStateM.run_get _)]
    simp only
    cases hplan : c.policy.propose c.engine.getConfig labels c.engine.cache.isSome c.goal with
    | none => exact .idle _ rfl rfl rfl hnone (hoffer.trans hplan)
    | some plan =>
      simp only
      unfold startAttempt
      -- the attempt is recorded before the changes are applied
      set c₁ : TuningController F Row := { c with
        classifier := classifier
        optimization := c.optimization.recordAttempt (attemptName plan.changes) plan.reason }
      have hmodify : (modify fun c => { c with
          optimization := c.optimization.recordAttempt (attemptName plan.changes) plan.reason } :
          M F Row PUnit).run { c with classifier := classifier } = .ok () c₁ := rfl
      rcases applyChanges_cases plan.changes c₁ with
        ⟨err, e', happly, hrefused, htouched⟩ | ⟨happly, haccepts, htouched⟩
      · rw [Exec.run_bind_error (by rw [Exec.run_bind_ok hmodify, Exec.run_bind_error happly])]
        exact .refused err _ plan (hoffer.trans hplan) hrefused htouched hpending rfl
      · rw [Exec.run_bind_ok (a := .attempted)
          (by rw [Exec.run_bind_ok hmodify, Exec.run_bind_ok happly]; rfl)]
        exact .attempted _ plan _ (hoffer.trans hplan) haccepts rfl htouched rfl rfl rfl rfl

theorem tick_run (c : TuningController F Row) (metrics : MetricsSnapshot F) (now : F) :
    TickRun c metrics now ((tick metrics now).run c) := by
  cases hpending : c.pending with
  | some attempt =>
    by_cases hdue : c.config.evaluationSec ≤ now - attempt.startedAt
    · exact tick_due hpending metrics hdue
    · unfold tick
      rw [Exec.run_bind_ok (EStateM.run_get c)]
      simp only [hpending, if_neg hdue]
      refine .idle c rfl rfl rfl (fun attempt' h => ?_) (if_pos (Or.inl (by rw [hpending]; rfl)))
      cases hpending.symm.trans h
      exact hdue
  | none =>
    unfold tick
    rw [Exec.run_bind_ok (EStateM.run_get c)]
    simp only [hpending]
    by_cases hcool : now - c.lastAttemptAt < c.config.cooldownSec
    · rw [if_pos hcool]
      exact .idle c rfl rfl rfl (fun attempt h => by cases hpending.symm.trans h)
        (if_pos (Or.inr (Or.inl hcool)))
    · rw [if_neg hcool]
      exact maybeStartAttempt_run hpending metrics hcool

end TuningController

end Nifre
