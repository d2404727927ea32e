import Nifre.Properties.Tuning
import Mathlib.Algebra.Order.Field.Basic
import Mathlib.Data.Rat.Cast.OfScientific

/-!
# The verdict on an attempt

An attempt is promoted if the metrics show an improvement and no regression. Both tests compare the
metrics with bounds that only the baseline decides, each on the side that its metric calls for, so
better metrics never turn a promotion into a roll back.
-/

namespace Nifre

/-- `better` is no worse than `worse` in any of the metrics. -/
structure EvaluationSnapshot.NoWorse {F : Type} [LE F] (worse better : EvaluationSnapshot F) :
    Prop where
  ttft : better.ttftP95Ms ≤ worse.ttftP95Ms
  tokens : worse.tokensPerSec ≤ better.tokensPerSec
  errors : better.errorRate ≤ worse.errorRate

section

variable {F : Type} [Field F] [LinearOrder F]

/-! ## The two tests -/

/-- **Where better metrics show a regression, worse metrics show one.** -/
theorem isRegression_antitone {goal : TuningGoal} {config : ControllerConfig F}
    {baseline worse better : EvaluationSnapshot F} (h : worse.NoWorse better)
    (hregr : isRegression goal config baseline better = true) :
    isRegression goal config baseline worse = true := by
  unfold isRegression at *
  split at hregr
  · -- the error rate is too high
    next herrors => rw [if_pos (herrors.trans_le h.errors)]
  split
  · rfl
  cases goal with
  | latency =>
    simp only at hregr ⊢
    split at hregr
    · cases hregr
    · next hpos =>
      rw [if_neg hpos]
      exact decide_eq_true ((of_decide_eq_true hregr).trans_le h.ttft)
  | throughput =>
    simp only at hregr ⊢
    split at hregr
    · cases hregr
    · next hpos =>
      rw [if_neg hpos]
      exact decide_eq_true (h.tokens.trans_lt (of_decide_eq_true hregr))
  | balanced =>
    refine decide_eq_true ?_
    rcases of_decide_eq_true hregr with ⟨hpos, hlatency⟩ | ⟨hpos, hthroughput⟩
    · exact Or.inl ⟨hpos, hlatency.trans_le h.ttft⟩
    · exact Or.inr ⟨hpos, h.tokens.trans_lt hthroughput⟩

/-- **Where worse metrics show an improvement, better metrics show one.** -/
theorem isImprovement_monotone {goal : TuningGoal} {config : ControllerConfig F}
    {baseline worse better : EvaluationSnapshot F} (h : worse.NoWorse better)
    (himpr : isImprovement goal config baseline worse = true) :
    isImprovement goal config baseline better = true := by
  unfold isImprovement at *
  split at himpr
  · cases himpr
  next herrors =>
  rw [if_neg fun hlt => herrors (hlt.trans_le h.errors)]
  cases goal with
  | latency =>
    simp only at himpr ⊢
    split at himpr
    · cases himpr
    · next hpos =>
      rw [if_neg hpos]
      exact decide_eq_true (h.ttft.trans_lt (of_decide_eq_true himpr))
  | throughput =>
    simp only at himpr ⊢
    split at himpr
    · next hzero =>
      rw [if_pos hzero]
      exact decide_eq_true ((of_decide_eq_true himpr).trans_le h.tokens)
    · next hpos =>
      rw [if_neg hpos]
      exact decide_eq_true ((of_decide_eq_true himpr).trans h.tokens)
  | balanced =>
    obtain ⟨hlatency, hthroughput, hgain⟩ := of_decide_eq_true himpr
    refine decide_eq_true ⟨?_, ?_, ?_⟩
    · exact hlatency.imp_right h.ttft.trans
    · exact hthroughput.imp_right fun hle => hle.trans h.tokens
    · rcases hgain with hfaster | hmore
      · exact Or.inl (h.ttft.trans_lt hfaster)
      · exact Or.inr (hmore.trans_le h.tokens)

end

/-! ## The controller -/

namespace TuningController

section

variable {F Row : Type} [OfScientific F] [Zero F] [Add F] [Sub F] [Mul F] [Div F] [LT F] [LE F]
  [DecidableLT F] [DecidableLE F]

omit [Zero F] [Add F] [Sub F] [Mul F] [Div F] [LT F] [LE F] [DecidableLT F] [DecidableLE F] in
/-- A roll back does not promote. -/
theorem takeBack_not_promoted (c : TuningController F Row) (attempt : PendingAttempt F)
    (details : String) (c' : TuningController F Row) :
    (takeBack attempt details).run c ≠ .ok .promoted c' := by
  intro hrun
  rcases applyChanges_cases (attempt.changes.restore attempt.previousConfig) c with
    ⟨err, e', happly, -, -⟩ | ⟨happly, -, -⟩
  · rw [takeBack_run_error happly] at hrun
    cases hrun
  · rw [takeBack_run_ok happly] at hrun
    cases hrun

/-- **What is promoted**: an improvement without a regression. -/
theorem finishEvaluation_promotes {c : TuningController F Row} {attempt : PendingAttempt F}
    {metrics : MetricsSnapshot F} {now : F} :
    (∃ c', (finishEvaluation attempt metrics now).run c = .ok .promoted c') ↔
      isRegression c.goal c.config attempt.baseline (evaluationFromMetrics metrics) = false ∧
      isImprovement c.goal c.config attempt.baseline (evaluationFromMetrics metrics) = true := by
  unfold finishEvaluation
  rcases evaluate_cases (c := c) attempt metrics with
    ⟨hregr, himpr, heval⟩ | ⟨hback, details, heval⟩
  · exact iff_of_true ⟨_, by rw [Exec.run_bind_ok heval]; rfl⟩ ⟨hregr, himpr⟩
  · refine iff_of_false ?_ ?_
    · rintro ⟨c', hrun⟩
      obtain ⟨action, s, htaken, hrest⟩ := Exec.run_bind_eq_ok hrun
      cases hrest
      exact takeBack_not_promoted c attempt details s (heval.symm.trans htaken)
    · rintro ⟨hregr, himpr⟩
      rcases hback with hr | hi
      · exact Bool.false_ne_true (hregr.symm.trans hr)
      · exact Bool.false_ne_true (hi.symm.trans himpr)

end

variable {F Row : Type} [Field F] [LinearOrder F]

/-- **The verdict is monotone**: of two evaluations of an attempt by controllers with the same goal
and the same thresholds, the one with the better metrics promotes if the other does, and sees a
regression only if the other does. -/
theorem verdict_monotone {c₁ c₂ : TuningController F Row} (hgoal : c₂.goal = c₁.goal)
    (hconfig : c₂.config = c₁.config) {attempt : PendingAttempt F}
    {worse better : MetricsSnapshot F} {now₁ now₂ : F}
    (h : (evaluationFromMetrics worse).NoWorse (evaluationFromMetrics better)) :
    ((∃ c', (finishEvaluation attempt worse now₁).run c₁ = .ok .promoted c') →
      ∃ c', (finishEvaluation attempt better now₂).run c₂ = .ok .promoted c') ∧
    (isRegression c₂.goal c₂.config attempt.baseline (evaluationFromMetrics better) = true →
      isRegression c₁.goal c₁.config attempt.baseline (evaluationFromMetrics worse) = true) := by
  rw [finishEvaluation_promotes, finishEvaluation_promotes, hgoal, hconfig]
  refine ⟨?_, isRegression_antitone h⟩
  rintro ⟨hregr, himpr⟩
  refine ⟨?_, isImprovement_monotone h himpr⟩
  by_contra hnot
  rw [isRegression_antitone h (by simpa using hnot)] at hregr
  cases hregr

/-- The metrics at the end of an attempt: with 22 tokens a second it is worth keeping. -/
def measured (tokensPerSec : ℚ) : MetricsSnapshot ℚ where
  completedRequests := some 9
  ttftP95Ms := some 90
  tokensPerSec := some tokensPerSec

theorem moreTokens_promoted :
    ∃ e, Engine.new (recallModel ⟨1, 8, 0, 2⟩ sumScores) 1 128 2048 true true = .ok e ∧
      let c : TuningController ℚ Nat := { engine := e, goal := .throughput }
      let attempt : PendingAttempt ℚ := ⟨"", "", e.getConfig, ⟨100, 20, 0⟩, 0, {}⟩
      ((∃ c', (finishEvaluation attempt (measured 22) 60).run c = .ok .promoted c') →
        ∃ c', (finishEvaluation attempt (measured 25) 60).run c = .ok .promoted c') ∧
      (isRegression c.goal c.config attempt.baseline (evaluationFromMetrics (measured 25)) = true →
        isRegression c.goal c.config attempt.baseline (evaluationFromMetrics (measured 22))
          = true) := by
  obtain ⟨e, h⟩ : ∃ e, Engine.new (recallModel ⟨1, 8, 0, 2⟩ sumScores) 1 128 2048 true true
    = .ok e := ⟨_, rfl⟩
  exact ⟨e, h, verdict_monotone rfl rfl ⟨by decide, by decide, by decide⟩⟩

end TuningController

end Nifre
