import Nifre.Properties.Tuning
import Nifre.Lib.Hoare
import Mathlib.Algebra.Order.Field.Basic
import Mathlib.Algebra.Order.Ring.Rat
import Mathlib.Data.Rat.Cast.OfScientific

/-!
# How often the controller decides

A tick that finds an attempt waits until it has been running for `evaluationSec`, and one that
finds none waits until `cooldownSec` after the last verdict. So whatever the times that the ticks
are given, the attempts of a run are apart by both.

* `tick_marks` — what a tick decides, after the decision before it
* `Marks.isChain` — the decisions of a run
* `decisions_paced` — the times between them
-/

namespace Nifre

namespace TuningController

variable {F Row Score : Type} [Field F] [LinearOrder F]

/-! ## Decisions -/

/-- What a tick returns, and its time. One that raises decides nothing. -/
def Event.decision (c : TuningController F Row) : Event F → Option (TuningAction × F)
  | .tick metrics now =>
    (Exec.value? (TuningController.tick metrics now) c).join.map fun action => (action, now)
  | _ => none

/-- The decisions of a run, in order. -/
def decisions [LinearOrder Score] (chain : Int → List Nat → Int)
    (model : InferenceModel Row Score) :
    TuningController F Row → List (Event F) → List (TuningAction × F)
  | _, [] => []
  | c, ev :: events =>
    (ev.decision c).toList ++ decisions chain model (c.next chain model ev) events

/-- The time that is to pass before an action. -/
def pause (config : ControllerConfig F) : TuningAction → F
  | .attempted => config.cooldownSec
  | .promoted | .rolledBack => config.evaluationSec

/-- Attempts and verdicts take turns, and none comes too soon. -/
def Paced (config : ControllerConfig F) (d d' : TuningAction × F) : Prop :=
  (d'.1 = .attempted ↔ d.1 ≠ .attempted) ∧ pause config d'.1 ≤ d'.2 - d.2

/-- The last decision, as the fields of the controller tell it. -/
structure Marks (config : ControllerConfig F) (d : TuningAction × F) (c : TuningController F Row) :
    Prop where
  config : c.config = config
  started : d.1 = .attempted → ∃ attempt, c.pending = some attempt ∧ attempt.startedAt = d.2
  judged : d.1 ≠ .attempted → c.pending = none ∧ c.lastAttemptAt = d.2

/-- The last decision once `action` is returned: this one, or still `d`. -/
def MarksAfter (config : ControllerConfig F) (d : TuningAction × F) (now : F) :
    Option TuningAction → TuningController F Row → Prop
  | some action, c => Paced config d (action, now) ∧ Marks config (action, now) c
  | none, c => Marks config d c

/-! ## One tick -/

variable {c : TuningController F Row} {config : ControllerConfig F} {d : TuningAction × F}

omit [LinearOrder F] in
theorem applyChanges_marks (changes : EngineChanges) :
    Exec.Keeps (Marks config d) (applyChanges changes : M F Row Unit) := by
  unfold applyChanges
  refine Exec.Keeps.bind (Exec.Keeps.within fun c h => ?_) fun _ => Exec.Keeps.pure _
  exact ⟨h.config, h.started, h.judged⟩

theorem observe_marks (metrics : MetricsSnapshot F) :
    Exec.Keeps (Marks config d) (observe metrics : M F Row WorkloadLabels) :=
  Exec.Keeps.within fun _ h => ⟨h.config, h.started, h.judged⟩

omit [LinearOrder F] in
theorem takeBack_marks (attempt : PendingAttempt F) (details : String) :
    Exec.Triple (Marks config d) (takeBack attempt details : M F Row TuningAction)
      (fun action c => action ≠ .attempted ∧ Marks config d c) (Marks config d) := by
  unfold takeBack rollback
  refine (applyChanges_marks _).triple.bind fun _ => ?_
  refine Exec.Triple.bind (R := fun _ => Marks config d) ?_ fun _ => ?_
  · exact Exec.Triple.modify fun c h => ⟨h.config, h.started, h.judged⟩
  · exact Exec.Triple.pure _ fun c h => ⟨by decide, h⟩

theorem evaluate_marks (attempt : PendingAttempt F) (metrics : MetricsSnapshot F) :
    Exec.Triple (Marks config d) (evaluate attempt metrics : M F Row TuningAction)
      (fun action c => action ≠ .attempted ∧ Marks config d c) (Marks config d) := by
  unfold evaluate
  refine Exec.Triple.get_bind fun c hc => Exec.Triple.of_state ?_ hc
  refine Exec.Triple.ite (fun _ => ?_) fun _ => Exec.Triple.ite (fun _ => ?_) fun _ => ?_
  · exact takeBack_marks attempt _
  · refine Exec.Triple.bind (R := fun _ => Marks config d) ?_ fun _ => ?_
    · exact Exec.Triple.modify fun c h => ⟨h.config, h.started, h.judged⟩
    · exact Exec.Triple.pure _ fun c h => ⟨by decide, h⟩
  · exact takeBack_marks attempt _

/-- A verdict is the last decision. -/
theorem finishEvaluation_marks {attempt : PendingAttempt F} {metrics : MetricsSnapshot F} {now : F}
    (hpaced : ∀ action ≠ .attempted, Paced config d (action, now)) :
    Exec.Triple (Marks config d) (finishEvaluation attempt metrics now : M F Row TuningAction)
      (fun action c => MarksAfter config d now (some action) c) (Marks config d) := by
  unfold finishEvaluation
  refine (evaluate_marks attempt metrics).bind fun action => ?_
  refine Exec.Triple.bind (R := fun _ => MarksAfter config d now (some action)) ?_ fun _ => ?_
  · refine Exec.Triple.modify ?_
    rintro c ⟨hverdict, h⟩
    exact ⟨hpaced action hverdict, h.config, fun ha => absurd ha hverdict, fun _ => ⟨rfl, rfl⟩⟩
  · exact Exec.Triple.pure _ fun c h => h

/-- An attempt is the last decision. -/
theorem startAttempt_marks {plan : TuningPlan} {current : EngineConfig}
    {metrics : MetricsSnapshot F} {now : F} (hpaced : Paced config d (.attempted, now)) :
    Exec.Triple (Marks config d) (startAttempt plan current metrics now : M F Row TuningAction)
      (fun action c => MarksAfter config d now (some action) c) (Marks config d) := by
  unfold startAttempt
  refine Exec.Triple.bind (R := fun _ => Marks config d) ?_ fun _ => ?_
  · exact Exec.Triple.modify fun c h => ⟨h.config, h.started, h.judged⟩
  refine (applyChanges_marks plan.changes).triple.bind fun _ => ?_
  refine Exec.Triple.bind (R := fun _ => MarksAfter config d now (some .attempted)) ?_ fun _ => ?_
  · refine Exec.Triple.modify fun c h => ?_
    exact ⟨hpaced, h.config, fun _ => ⟨_, rfl, rfl⟩, fun hne => absurd rfl hne⟩
  · exact Exec.Triple.pure _ fun c h => h

theorem maybeStartAttempt_marks {metrics : MetricsSnapshot F} {now : F}
    (hpaced : Paced config d (.attempted, now)) :
    Exec.Triple (Marks config d) (maybeStartAttempt metrics now : M F Row (Option TuningAction))
      (MarksAfter config d now) (Marks config d) := by
  unfold maybeStartAttempt
  refine Exec.Triple.get_bind fun c hc => Exec.Triple.of_state ?_ hc
  refine Exec.Triple.ite (fun _ => Exec.Triple.pure _ fun _ h => h) fun _ => ?_
  refine (observe_marks metrics).triple.bind fun labels => ?_
  refine Exec.Triple.get_bind fun c' hc' => Exec.Triple.of_state ?_ hc'
  dsimp only
  split
  · exact Exec.Triple.pure _ fun _ h => h
  · refine (startAttempt_marks hpaced).bind fun action => ?_
    exact Exec.Triple.pure _ fun _ h => h

/-- **What a tick decides comes neither out of turn nor too soon.** -/
theorem tick_marks (metrics : MetricsSnapshot F) (now : F) :
    Exec.Triple (Marks config d) (tick metrics now : M F Row (Option TuningAction))
      (MarksAfter config d now) (Marks config d) := by
  unfold tick
  refine Exec.Triple.get_bind fun c hc => Exec.Triple.of_state ?_ hc
  split
  · -- a verdict, unless it is too soon
    next attempt hpending =>
    have hattempted : d.1 = .attempted := by
      by_contra hne
      cases hpending.symm.trans (hc.judged hne).1
    refine Exec.Triple.ite (fun hdue => ?_) fun _ => Exec.Triple.pure _ fun _ h => h
    have hpaced : ∀ action ≠ .attempted, Paced config d (action, now) := by
      intro action haction
      refine ⟨iff_of_false haction fun hne => hne hattempted, ?_⟩
      obtain ⟨attempt', hpending', hstarted⟩ := hc.started hattempted
      cases hpending.symm.trans hpending'
      rw [hc.config, hstarted] at hdue
      cases action with
      | attempted => exact absurd rfl haction
      | promoted => exact hdue
      | rolledBack => exact hdue
    refine (finishEvaluation_marks hpaced).bind fun action => ?_
    exact Exec.Triple.pure _ fun _ h => h
  · next hpending =>
    have hjudged : d.1 ≠ .attempted := by
      intro ha
      obtain ⟨attempt, hpending', -⟩ := hc.started ha
      cases hpending.symm.trans hpending'
    refine Exec.Triple.ite (fun _ => Exec.Triple.pure _ fun _ h => h) fun hcool => ?_
    have hpaced : Paced config d (.attempted, now) := by
      rw [hc.config, (hc.judged hjudged).2] at hcool
      exact ⟨iff_of_true rfl hjudged, not_lt.mp hcool⟩
    exact maybeStartAttempt_marks hpaced

/-! ## Runs -/

variable [LinearOrder Score] {chain : Int → List Nat → Int} {model : InferenceModel Row Score}

variable (chain model) in
/-- One event: its decision follows the last one, and is the last one then. -/
theorem Marks.next (h : Marks config d c) (ev : Event F) :
    (ev.decision c = none ∧ Marks config d (c.next chain model ev)) ∨
      ∃ d', ev.decision c = some d' ∧ Paced config d d' ∧
        Marks config d' (c.next chain model ev) := by
  cases ev with
  | tick metrics now =>
    have htick := tick_marks metrics now c h
    rw [Event.decision, Exec.value?, TuningController.next]
    cases hrun : (TuningController.tick metrics now).run c with
    | error err c' =>
      rw [hrun] at htick
      rw [Exec.after_of_error hrun]
      exact Or.inl ⟨rfl, htick⟩
    | ok action c' =>
      rw [hrun] at htick
      rw [Exec.after_of_ok hrun]
      cases action with
      | none => exact Or.inl ⟨rfl, htick⟩
      | some action => exact Or.inr ⟨(action, now), rfl, htick.1, htick.2⟩
  | setGoal goal => exact Or.inl ⟨rfl, h.config, h.started, h.judged⟩
  | engine op => exact Or.inl ⟨rfl, h.config, h.started, h.judged⟩

/-- The decisions of a run, after the last one before it. -/
theorem Marks.isChain : ∀ {events : List (Event F)} {c : TuningController F Row}
    {d : TuningAction × F}, Marks config d c →
    (d :: decisions chain model c events).IsChain (Paced config)
  | [], _, _, _ => List.IsChain.singleton _
  | ev :: events, c, d, h => by
    rw [decisions]
    rcases h.next chain model ev with ⟨hnone, hmarks⟩ | ⟨d', hsome, hpaced, hmarks⟩
    · rw [hnone]
      exact hmarks.isChain
    · rw [hsome]
      exact List.IsChain.cons_cons hpaced hmarks.isChain

/-! ## The times between decisions -/

section

variable {log : List (TuningAction × F)}

/-- Attempts and verdicts take turns after a verdict. -/
theorem attempted_iff (h : log.IsChain (Paced config)) {d₀ : TuningAction × F}
    (hfirst : log[0]? = some d₀) (hverdict : d₀.1 ≠ .attempted) :
    ∀ {i : Nat} {d : TuningAction × F}, log[i]? = some d → (d.1 = .attempted ↔ i % 2 = 1)
  | 0, d, hd => by
    cases hfirst.symm.trans hd
    exact iff_of_false hverdict (by decide)
  | i + 1, d, hd => by
    obtain ⟨hlt, rfl⟩ := List.getElem?_eq_some_iff.mp hd
    have hbefore := attempted_iff h hfirst hverdict
      (List.getElem?_eq_getElem (Nat.lt_of_succ_lt hlt))
    rw [(List.isChain_iff_getElem.mp h i hlt).1, Ne, hbefore]
    omega

/-- Of two decisions in a row, one is an attempt and one a verdict. -/
theorem Paced.pause_add {d₁ d₂ : TuningAction × F} (h : Paced config d₁ d₂) :
    pause config d₁.1 + pause config d₂.1 = config.evaluationSec + config.cooldownSec := by
  obtain ⟨hturn, -⟩ := h
  obtain ⟨action₁, t₁⟩ := d₁
  obtain ⟨action₂, t₂⟩ := d₂
  dsimp only at hturn ⊢
  cases action₁ with
  | attempted =>
    cases action₂ with
    | attempted => exact absurd rfl (hturn.mp rfl)
    | promoted | rolledBack => exact add_comm _ _
  | promoted | rolledBack =>
    obtain rfl := hturn.mpr (by decide)
    rfl

variable [IsStrictOrderedRing F]

/-- **Every two decisions take both times.** -/
theorem elapsed (h : log.IsChain (Paced config)) {i : Nat} {d : TuningAction × F}
    (hd : log[i]? = some d) : ∀ {k : Nat} {d' : TuningAction × F}, log[i + 2 * k]? = some d' →
      k * (config.evaluationSec + config.cooldownSec) ≤ d'.2 - d.2
  | 0, d', hd' => by
    cases hd.symm.trans hd'
    rw [Nat.cast_zero, zero_mul, sub_self]
  | k + 1, d', hd' => by
    obtain ⟨hlt, rfl⟩ := List.getElem?_eq_some_iff.mp hd'
    have hlt₁ : i + 2 * k + 1 < log.length := Nat.lt_of_succ_lt hlt
    have hbefore := elapsed h hd (List.getElem?_eq_getElem (Nat.lt_of_succ_lt hlt₁))
    have hfirst := List.isChain_iff_getElem.mp h (i + 2 * k) hlt₁
    have hsecond := List.isChain_iff_getElem.mp h (i + 2 * k + 1) hlt
    have hpauses := hsecond.pause_add
    have htwo := add_le_add hfirst.2 hsecond.2
    rw [hpauses] at htwo
    calc ((k + 1 : Nat) : F) * (config.evaluationSec + config.cooldownSec)
        = k * (config.evaluationSec + config.cooldownSec)
          + (config.evaluationSec + config.cooldownSec) := by
            rw [Nat.cast_succ, add_mul, one_mul]
      _ ≤ (log[i + 2 * k].2 - d.2)
          + (log[i + 2 * k + 1].2 - log[i + 2 * k].2
            + (log[i + 2 * k + 1 + 1].2 - log[i + 2 * k + 1].2)) := add_le_add hbefore htwo
      _ = log[i + 2 * k + 1 + 1].2 - d.2 := by
            rw [add_comm (log[i + 2 * k + 1].2 - _), sub_add_sub_cancel, add_comm,
              sub_add_sub_cancel]

end

variable [IsStrictOrderedRing F]

/-- **The controller takes its time**, whatever the times that the ticks of a run are given. With no
attempt pending at first, attempts and verdicts take turns, an attempt comes `cooldownSec` after the
last verdict at the earliest and a verdict `evaluationSec` after its attempt, and so `k` attempts
need `k` times both. -/
theorem decisions_paced (hpending : c.pending = none) (events : List (Event F)) :
    let log := decisions chain model c events
    (∀ d, log[0]? = some d → c.config.cooldownSec ≤ d.2 - c.lastAttemptAt) ∧
      ∀ (i : Nat) d, log[i]? = some d →
        (d.1 = .attempted ↔ i % 2 = 0) ∧
        (∀ d', log[i + 1]? = some d' → pause c.config d'.1 ≤ d'.2 - d.2) ∧
        ∀ (k : Nat) d', log[i + 2 * k]? = some d' →
          k * (c.config.evaluationSec + c.config.cooldownSec) ≤ d'.2 - d.2 := by
  intro log
  -- as if a verdict had set the time of the last attempt
  have hverdict : TuningAction.rolledBack ≠ .attempted := by decide
  have hmarks : Marks c.config (.rolledBack, c.lastAttemptAt) c :=
    ⟨rfl, fun ha => absurd ha hverdict, fun _ => ⟨hpending, rfl⟩⟩
  have hchain : ((.rolledBack, c.lastAttemptAt) :: log).IsChain (Paced c.config) := hmarks.isChain
  have hturns : ∀ {i : Nat} {d : TuningAction × F}, log[i]? = some d →
      (d.1 = .attempted ↔ i % 2 = 0) := by
    intro i d hd
    have hodd := attempted_iff hchain rfl hverdict (i := i + 1) (d := d)
      (by rwa [List.getElem?_cons_succ])
    rw [hodd]
    omega
  refine ⟨fun d hd => ?_, fun i d hd => ⟨hturns hd, fun d' hd' => ?_, fun k d' hd' => ?_⟩⟩
  · have hattempted : d.1 = .attempted := (hturns hd).mpr rfl
    obtain ⟨hlt, rfl⟩ := List.getElem?_eq_some_iff.mp hd
    have hpaced := (List.isChain_iff_getElem.mp hchain 0 (Nat.succ_lt_succ hlt)).2
    rw [List.getElem_cons_succ, List.getElem_cons_zero, hattempted] at hpaced
    exact hpaced
  · obtain ⟨hlt, rfl⟩ := List.getElem?_eq_some_iff.mp hd'
    obtain ⟨-, rfl⟩ := List.getElem?_eq_some_iff.mp hd
    exact (List.isChain_iff_getElem.mp hchain.of_cons i hlt).2
  · exact elapsed hchain.of_cons hd hd'

/-- The attempt of the run with one request is rolled back, and tried again. -/
theorem secondAttempt_paced :
    ∃ e, Engine.new (recallModel ⟨1, 8, 0, 2⟩ sumScores) 1 128 2048 true true = .ok e ∧
      let c : TuningController ℚ Nat := { engine := e, goal := .throughput }
      let log := decisions PagedKVCache.sumChain (recallModel ⟨1, 8, 0, 2⟩ sumScores) c
        (evaluatedAfter [.addRequest "a" [1, 2] 4, .step] ++ [.tick (queueMetrics 250 5) 250])
      log = [(.attempted, 160), (.rolledBack, 220), (.attempted, 250)] ∧
      (∀ d, log[0]? = some d → c.config.cooldownSec ≤ d.2 - c.lastAttemptAt) ∧
        ∀ (i : Nat) d, log[i]? = some d →
          (d.1 = .attempted ↔ i % 2 = 0) ∧
          (∀ d', log[i + 1]? = some d' → pause c.config d'.1 ≤ d'.2 - d.2) ∧
          ∀ (k : Nat) d', log[i + 2 * k]? = some d' →
            k * (c.config.evaluationSec + c.config.cooldownSec) ≤ d'.2 - d.2 := by
  obtain ⟨e, h⟩ : ∃ e, Engine.new (recallModel ⟨1, 8, 0, 2⟩ sumScores) 1 128 2048 true true
    = .ok e := ⟨_, rfl⟩
  refine ⟨e, h, ?_, decisions_paced rfl _⟩
  cases h
  decide +kernel

end TuningController

end Nifre
