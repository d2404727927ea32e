import Nifre.Properties.Tuning

/-!
# Every attempt is resolved

A tick that finds an attempt that is due promotes it or takes it back, and the record of attempts
is the record of promotions and roll backs, with the pending one. Both break in one way: the engine
refuses what it is handed, and the exception leaves the attempt pending, or the record without one.
-/

namespace Nifre

namespace TuningController

variable {F Row Score : Type} [OfScientific F] [Zero F] [Add F] [Sub F] [Mul F] [Div F] [LT F]
  [LE F] [DecidableLT F] [DecidableLE F]

open Engine (RunsCached Positive FlagsAllowed SlotsAllowed)

variable {c : TuningController F Row} {start : OptimizationTracker} {metrics : MetricsSnapshot F}
  {now : F}

/-! ## What is to hold -/

/-- Since the start, every attempt on record is promoted, rolled back or pending. -/
def Counted (start : OptimizationTracker) (c : TuningController F Row) : Prop :=
  c.optimization.attempted + start.promoted + start.rolledBack
    = start.attempted + c.optimization.promoted + c.optimization.rolledBack
      + c.pending.toList.length

/-- A tick at which an attempt is due returns what became of it, and no attempt is pending. -/
def Evaluates (c : TuningController F Row) (metrics : MetricsSnapshot F) (now : F) : Prop :=
  ∀ attempt ∈ c.pending, c.config.evaluationSec ≤ now - attempt.startedAt →
    (Exec.value? (tick metrics now) c = some (some .promoted) ∨
      Exec.value? (tick metrics now) c = some (some .rolledBack)) ∧
    (Exec.after (tick metrics now) c).pending.isNone = true

instance (start : OptimizationTracker) (c : TuningController F Row) : Decidable (Counted start c) :=
  inferInstanceAs (Decidable (_ = _))

instance (c : TuningController F Row) (metrics : MetricsSnapshot F) (now : F) :
    Decidable (Evaluates c metrics now) :=
  inferInstanceAs (Decidable (∀ attempt ∈ c.pending, _ → (_ ∨ _) ∧ _))

/-- The engine accepts what the tick hands to it: the settings before an attempt that is taken back,
or a plan whose settings are positive. -/
def Settles (c : TuningController F Row) (metrics : MetricsSnapshot F) (now : F) : Prop :=
  (∀ attempt ∈ c.pending, TakesBack c attempt metrics now →
      Accepts c.engine (attempt.changes.restore attempt.previousConfig)) ∧
    ∀ plan ∈ offered c metrics now, Positive plan.changes

instance (c : TuningController F Row) (metrics : MetricsSnapshot F) (now : F) :
    Decidable (Settles c metrics now) :=
  inferInstanceAs (Decidable ((∀ attempt ∈ c.pending, _ → _) ∧ ∀ plan ∈ offered c metrics now, _))

/-! ## One tick -/

/-- Before there is a cache no request runs, so a plan is only refused for its values. -/
theorem accepts_of_offered (hcached : RunsCached c.engine) {plan : TuningPlan}
    (hoffer : offered c metrics now = some plan) (hpos : Positive plan.changes) :
    Accepts c.engine plan.changes := by
  obtain ⟨-, labels, hplan⟩ := exists_of_offered hoffer
  have hproposed := (TuningPolicy.propose_sound hplan).2
  refine ⟨hpos, fun hcache => ⟨fun v hv => ?_, fun v hv => ?_⟩, ?_⟩
  · rw [hproposed.paged] at hv
    cases hv
  · rw [hproposed.caching hcache] at hv
    cases hv
  · cases hc : c.engine.cache with
    | none => exact slotsAllowed_of_uncached hcached hc hpos
    | some cache =>
      intro v hv
      rw [hproposed.slots (by rw [hc]; rfl)] at hv
      cases hv

/-- What holds between the ticks. -/
structure Accounted (start : OptimizationTracker) (c : TuningController F Row) : Prop where
  live : Scheduler.Live c.engine.scheduler
  cached : RunsCached c.engine
  counted : Counted start c

theorem Accounted.ticked (h : Accounted start c) (metrics : MetricsSnapshot F) (now : F) :
    ((Evaluates c metrics now ∧ Counted start (Exec.after (tick metrics now) c)) ↔
        Settles c metrics now) ∧
      (Settles c metrics now → Accounted start (Exec.after (tick metrics now) c)) := by
  suffices hsuff : (Settles c metrics now ∧ Evaluates c metrics now ∧
        Accounted start (Exec.after (tick metrics now) c)) ∨
      (¬Settles c metrics now ∧
        ¬(Evaluates c metrics now ∧ Counted start (Exec.after (tick metrics now) c))) by
    rcases hsuff with ⟨hs, he, ha⟩ | ⟨hs, hn⟩
    · exact ⟨iff_of_true ⟨he, ha.counted⟩ hs, fun _ => ha⟩
    · exact ⟨iff_of_false hn hs, fun hs' => absurd hs' hs⟩
  have hcount := h.counted
  have hrun := tick_run c metrics now
  unfold Evaluates Exec.value? Exec.after Settles
  unfold Counted at hcount ⊢
  generalize (tick metrics now).run c = result at hrun
  cases hrun with
  | idle c' hengine hpending hopt hdue hoffer =>
    refine Or.inl ⟨⟨fun attempt ha hback => ?_, fun plan hp => ?_⟩, fun attempt ha hd => ?_, ?_⟩
    · exact absurd hback.1 (hdue attempt ha)
    · rw [hoffer] at hp
      cases hp
    · exact absurd hd (hdue attempt ha)
    · refine ⟨hengine ▸ h.live, hengine ▸ h.cached, ?_⟩
      unfold Counted
      rw [Exec.stateOf_ok, hopt, hpending]
      exact hcount
  | unlabelled err c' hnone hengine hnone' hopt hoffer =>
    refine Or.inl ⟨⟨fun attempt ha _ => ?_, fun plan hp => ?_⟩, fun attempt ha _ => ?_, ?_⟩
    · rw [hnone] at ha
      cases ha
    · rw [hoffer] at hp
      cases hp
    · rw [hnone] at ha
      cases ha
    · refine ⟨hengine ▸ h.live, hengine ▸ h.cached, ?_⟩
      unfold Counted
      rw [Exec.stateOf_error, hopt, hnone']
      rw [hnone] at hcount
      exact hcount
  | refused err c' plan hoffer hrefused htouched hnone' hopt =>
    -- an attempt is on record, and none is pending
    obtain ⟨hnone, -⟩ := exists_of_offered hoffer
    refine Or.inr ⟨fun hs => ?_, fun hc => ?_⟩
    · exact hrefused.not_accepts (accepts_of_offered h.cached hoffer (hs.2 plan hoffer))
    · have hafter := hc.2
      rw [Exec.stateOf_error, hopt, hnone'] at hafter
      rw [hnone] at hcount
      simp only [OptimizationTracker.recordAttempt] at hafter
      omega
  | attempted c' plan attempt hoffer haccepts hengine htouched hpending _ _ hopt =>
    obtain ⟨hnone, -⟩ := exists_of_offered hoffer
    obtain ⟨hlive, hcached⟩ := htouched.sound h.live h.cached
    refine Or.inl ⟨⟨fun attempt ha _ => ?_, fun plan' hp => ?_⟩, fun attempt ha _ => ?_, ?_⟩
    · rw [hnone] at ha
      cases ha
    · cases hoffer.symm.trans hp
      exact haccepts.1
    · rw [hnone] at ha
      cases ha
    · refine ⟨hlive, hcached, ?_⟩
      unfold Counted
      rw [hnone] at hcount
      rw [Exec.stateOf_ok, hopt, hpending]
      simp only [OptimizationTracker.recordAttempt, Option.toList_some, Option.toList_none,
        List.length_singleton, List.length_nil] at hcount ⊢
      omega
  | promoted c' attempt hpending hkeep hengine hnone hopt =>
    have hoffer : offered c metrics now = none := if_pos (Or.inl (by rw [hpending]; rfl))
    refine Or.inl ⟨⟨fun attempt' ha hback => ?_, fun plan hp => ?_⟩, fun attempt' ha _ => ?_, ?_⟩
    · cases hpending.symm.trans ha
      exact absurd hback hkeep
    · rw [hoffer] at hp
      cases hp
    · exact ⟨Or.inl rfl, by rw [Exec.stateOf_ok, hnone]; rfl⟩
    · refine ⟨hengine ▸ h.live, hengine ▸ h.cached, ?_⟩
      unfold Counted
      rw [hpending] at hcount
      rw [Exec.stateOf_ok, hopt, hnone]
      simp only [OptimizationTracker.recordPromotion, Option.toList_some, Option.toList_none,
        List.length_singleton, List.length_nil] at hcount ⊢
      omega
  | rolledBack c' attempt details hpending hback haccepts hengine htouched hnone hopt =>
    have hoffer : offered c metrics now = none := if_pos (Or.inl (by rw [hpending]; rfl))
    obtain ⟨hlive, hcached⟩ := htouched.sound h.live h.cached
    refine Or.inl ⟨⟨fun attempt' ha _ => ?_, fun plan hp => ?_⟩, fun attempt' ha _ => ?_, ?_⟩
    · cases hpending.symm.trans ha
      exact haccepts
    · rw [hoffer] at hp
      cases hp
    · exact ⟨Or.inr rfl, by rw [Exec.stateOf_ok, hnone]; rfl⟩
    · refine ⟨hlive, hcached, ?_⟩
      unfold Counted
      rw [hpending] at hcount
      rw [Exec.stateOf_ok, hopt, hnone]
      simp only [OptimizationTracker.recordRollback, Option.toList_some, Option.toList_none,
        List.length_singleton, List.length_nil] at hcount ⊢
      omega
  | kept err e' attempt hpending hback hrefused htouched =>
    -- the tick raises, and the attempt stays
    refine Or.inr ⟨fun hs => ?_, fun hc => ?_⟩
    · exact hrefused.not_accepts (hs.1 attempt hpending hback)
    · rcases (hc.1 attempt hpending hback.1).1 with hp | hr
      · cases hp
      · cases hr

/-! ## Runs -/

variable [LinearOrder Score] {chain : Int → List Nat → Int} {model : InferenceModel Row Score}

/-- The event evaluates the attempt that is due, if it is a tick. -/
def Event.Evaluates (c : TuningController F Row) : Event F → Prop
  | .tick metrics now => TuningController.Evaluates c metrics now
  | _ => True

/-- It does, and the record adds up after it. -/
def Event.Resolved (chain : Int → List Nat → Int) (model : InferenceModel Row Score)
    (start : OptimizationTracker) (c : TuningController F Row) (ev : Event F) : Prop :=
  ev.Evaluates c ∧ Counted start (c.next chain model ev)

instance (c : TuningController F Row) : ∀ ev : Event F, Decidable (ev.Evaluates c)
  | .tick metrics now => inferInstanceAs (Decidable (TuningController.Evaluates c metrics now))
  | .setGoal _ | .engine _ => inferInstanceAs (Decidable True)

instance (start : OptimizationTracker) (c : TuningController F Row) (ev : Event F) :
    Decidable (ev.Resolved chain model start c) :=
  inferInstanceAs (Decidable (_ ∧ _))

/-- The engine accepts what the event hands to it, if it is a tick. -/
def Event.Settles (c : TuningController F Row) : Event F → Prop
  | .tick metrics now => TuningController.Settles c metrics now
  | _ => True

instance (c : TuningController F Row) : ∀ ev : Event F, Decidable (ev.Settles c)
  | .tick metrics now => inferInstanceAs (Decidable (TuningController.Settles c metrics now))
  | .setGoal _ | .engine _ => inferInstanceAs (Decidable True)

theorem Accounted.next (h : Accounted start c) (ev : Event F) :
    (ev.Resolved chain model start c ↔ ev.Settles c) ∧
      (ev.Settles c → Accounted start (c.next chain model ev)) := by
  cases ev with
  | tick metrics now => exact h.ticked metrics now
  | setGoal goal =>
    have hkept : Accounted start (c.next chain model (.setGoal goal)) :=
      ⟨h.live, h.cached, h.counted⟩
    exact ⟨iff_of_true ⟨trivial, hkept.counted⟩ trivial, fun _ => hkept⟩
  | engine op =>
    have hkept : Accounted start (c.next chain model (.engine op)) :=
      ⟨Engine.next_live h.live op, h.cached.next h.live op, h.counted⟩
    exact ⟨iff_of_true ⟨trivial, hkept.counted⟩ trivial, fun _ => hkept⟩

/-- **Every attempt of a run is resolved exactly as long as the engine accepts what the ticks hand
to it.** -/
theorem resolved_iff {model : InferenceModel Row Score}
    {maxConcurrentRequests prefillChunkSize maxTokensPerStep : Int}
    {usePagedKvCache usePrefixCache : Bool} {e : Engine Row}
    (hnew : Engine.new model maxConcurrentRequests prefillChunkSize maxTokensPerStep usePagedKvCache
      usePrefixCache = .ok e) {ops : List Engine.Op} {c : TuningController F Row}
    (hengine : c.engine = ops.foldl (Engine.next chain model) e) (hpending : c.pending = none)
    (events : List (Event F)) :
    Exec.Along (Event.Resolved chain model c.optimization) (next chain model) c events ↔
      Exec.Along (fun c ev => ev.Settles c) (next chain model) c events := by
  have hstart := sound_start hnew ops hengine hpending
  have hcounted : Counted c.optimization c := by
    unfold Counted
    rw [hpending, Option.toList_none, List.length_nil]
    omega
  exact Exec.Along.congr (J := Accounted c.optimization) (L := fun _ _ => True)
    (fun c ev h _ => h.next ev) ⟨hstart.live, hstart.cached, hcounted⟩
    (Exec.along_of_forall (R := fun _ => True) fun _ _ => trivial)

/-- **The attempt of a run with two requests is never resolved**: its roll back raises. -/
theorem fillSlots_unresolved :
    ∃ e, Engine.new (recallModel ⟨1, 8, 0, 2⟩ sumScores) 1 128 2048 true true = .ok e ∧
      let c : TuningController ℚ Nat := { engine := e, goal := .throughput }
      ¬Exec.Along (Event.Resolved PagedKVCache.sumChain (recallModel ⟨1, 8, 0, 2⟩ sumScores) {})
        (next PagedKVCache.sumChain (recallModel ⟨1, 8, 0, 2⟩ sumScores)) c
        (evaluatedAfter fillSlots) := by
  refine ⟨_, rfl, ?_⟩
  decide +kernel

/-- With one request it is. -/
theorem oneRequest_resolved :
    ∃ e, Engine.new (recallModel ⟨1, 8, 0, 2⟩ sumScores) 1 128 2048 true true = .ok e ∧
      let c : TuningController ℚ Nat := { engine := e, goal := .throughput }
      Exec.Along (Event.Resolved PagedKVCache.sumChain (recallModel ⟨1, 8, 0, 2⟩ sumScores) {})
        (next PagedKVCache.sumChain (recallModel ⟨1, 8, 0, 2⟩ sumScores)) c
        (evaluatedAfter [.addRequest "a" [1, 2] 4, .step]) := by
  obtain ⟨e, h⟩ : ∃ e, Engine.new (recallModel ⟨1, 8, 0, 2⟩ sumScores) 1 128 2048 true true
    = .ok e := ⟨_, rfl⟩
  refine ⟨e, h, ?_⟩
  intro c
  have hstart : c.engine = ([] : List Engine.Op).foldl (Engine.next PagedKVCache.sumChain
      (recallModel ⟨1, 8, 0, 2⟩ sumScores)) e := rfl
  refine (resolved_iff h hstart rfl _).mpr ?_
  cases h
  decide +kernel

end TuningController

end Nifre
