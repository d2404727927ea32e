import Nifre.Properties.AllOrNothing
import Nifre.Properties.PolicyDirection

/-!
# Chunks that fit the budget

A prompt whose next chunk is larger than the token budget is never prefilled. A plan of the default
policy can make it so: it lowers the budget faster than the chunk size, and the requests keep the
chunk size they were created with.
-/

namespace Nifre

namespace Engine

open TuningPolicy (StepsChunk StepsBudget)

variable {Row : Type} {e e' : Engine Row} {changes : EngineChanges} {labels : WorkloadLabels}
  {goal : TuningGoal}

/-- The next prefill chunk of a request. -/
def nextChunk (e : Engine Row) (r : Ref) : Int :=
  Scheduler.prefillChunkTokens (e.scheduler.requests r)

/-- The requests that wait or run. -/
def unfinished (e : Engine Row) : List Ref := e.scheduler.waiting ++ e.scheduler.running.values

/-- The next chunk of every request, and of every future one, fits the budget of a step. -/
structure Schedulable (e : Engine Row) : Prop where
  budget : e.scheduler.maxTokensPerStep = e.maxTokensPerStep
  requests : ∀ r ∈ e.unfinished, e.nextChunk r ≤ e.maxTokensPerStep
  future : e.prefillChunkSize ≤ e.maxTokensPerStep

/-! ## What a plan of the default policy does to the engine -/

/-- The settings after a call whose flags are accepted: the number of slots may be refused, the
others are assigned on either exit. -/
structure Assigned (e : Engine Row) (changes : EngineChanges) (e' : Engine Row) : Prop where
  schedulerBudget : e'.scheduler.maxTokensPerStep
    = changes.maxTokensPerStep.getD e.scheduler.maxTokensPerStep
  budget : e'.maxTokensPerStep = changes.maxTokensPerStep.getD e.maxTokensPerStep
  chunk : e'.prefillChunkSize = changes.prefillChunkSize.getD e.prefillChunkSize
  unfinished : e'.unfinished = e.unfinished
  requests : e'.scheduler.requests = e.scheduler.requests

theorem reconfigureWith_assigned (hpos : Positive changes) (hflags : FlagsAllowed e changes) :
    Assigned e changes (Exec.after (reconfigureWith changes) e) := by
  have hout := reconfigure_outcome e changes
  unfold Exec.after
  generalize hrun : (reconfigureWith changes).run e = result at hout
  cases hout with
  | refused err hnot => exact absurd ⟨hpos, hflags⟩ hnot
  | halfway err _ _ _ => exact ⟨rfl, rfl, rfl, rfl, rfl⟩
  | done _ _ _ =>
    have h := @inEffect_reconfigured _ e changes hpos
    refine ⟨h.budget, congrArg EngineConfig.maxTokensPerStep h.config,
      congrArg EngineConfig.prefillChunkSize h.config, ?_, h.requests⟩
    unfold Engine.unfinished
    rw [Exec.stateOf_ok, ← h.waiting, ← h.running]

theorem Schedulable.assigned_iff (h : Schedulable e) (ha : Assigned e changes e') :
    Schedulable e' ↔
      (∀ r ∈ e.unfinished, e.nextChunk r ≤ changes.maxTokensPerStep.getD e.maxTokensPerStep) ∧
        changes.prefillChunkSize.getD e.prefillChunkSize
          ≤ changes.maxTokensPerStep.getD e.maxTokensPerStep := by
  have hchunk : ∀ r, e'.nextChunk r = e.nextChunk r := fun r => by
    unfold nextChunk
    rw [ha.requests]
  constructor
  · rintro ⟨-, hrequests, hfuture⟩
    rw [ha.budget, ha.chunk] at hfuture
    refine ⟨fun r hr => ?_, hfuture⟩
    rw [← hchunk, ← ha.budget]
    exact hrequests r (by rwa [ha.unfinished])
  · rintro ⟨hrequests, hfuture⟩
    refine ⟨?_, fun r hr => ?_, ?_⟩
    · rw [ha.schedulerBudget, ha.budget, h.budget]
    · rw [hchunk, ha.budget]
      exact hrequests r (by rwa [← ha.unfinished])
    · rwa [ha.budget, ha.chunk]

/-! ## When the chunks still fit -/

/-- The budget and the chunks leave room for the steps of the default policy. -/
structure Affords (e : Engine Row) (labels : WorkloadLabels) (goal : TuningGoal) : Prop where
  loweredRequests : goal = .latency → labels.latencySensitive = true → ∀ r ∈ e.unfinished,
    e.nextChunk r ≤ 256 ∨ (e.nextChunk r + 256 ≤ e.maxTokensPerStep ∧ e.nextChunk r ≤ 4096)
  loweredFuture : goal = .latency → labels.latencySensitive = true →
    e.prefillChunkSize ≤ 320 ∨ e.prefillChunkSize + 192 ≤ e.maxTokensPerStep ∨
      768 ≤ e.maxTokensPerStep
  cappedRequests : goal ≠ .latency → labels.throughputLow = true → ∀ r ∈ e.unfinished,
    e.nextChunk r ≤ 4096
  cappedFuture : goal ≠ .latency → labels.throughputLow = true →
    ¬StepsChunk labels e.cache.isSome goal → e.prefillChunkSize ≤ 4096
  raisedChunk : StepsChunk labels e.cache.isSome goal → ¬StepsBudget labels goal →
    32 ≤ e.maxTokensPerStep

/-- What the rules of the default policy propose for an engine. -/
abbrev proposed (e : Engine Row) (labels : WorkloadLabels) (goal : TuningGoal) : EngineChanges :=
  (TuningPolicy.applyRules {} e.getConfig labels e.cache.isSome goal).changes

theorem proposed_positive : Positive (e.proposed labels goal) := by
  obtain ⟨hchunk, hbudget, hslots⟩ :=
    @TuningPolicy.applyRules_stepped {} e.getConfig labels e.cache.isSome goal
  refine ⟨fun v hv => ?_, fun v hv => ?_, fun v hv => ?_⟩
  · rw [hslots] at hv
    split at hv
    · exact Int.lt_of_lt_of_le (by decide) (stepInt_ge hv)
    · cases hv
  · rw [hchunk] at hv
    split at hv
    · exact Int.lt_of_lt_of_le (by decide) (stepInt_ge hv)
    · cases hv
  · rw [hbudget] at hv
    split at hv
    · exact Int.lt_of_lt_of_le (by decide) (stepInt_ge hv)
    · cases hv

theorem proposed_flagsAllowed : FlagsAllowed e (e.proposed labels goal) := by
  have h : (e.proposed labels goal).Proposed e.getConfig e.cache.isSome :=
    TuningPolicy.applyRules_sound
  refine fun hcache => ⟨fun v hv => ?_, fun v hv => ?_⟩
  · rw [h.paged] at hv
    cases hv
  · rw [h.caching hcache] at hv
    cases hv

/-- The budget and the chunk size that are proposed, or else kept. -/
theorem proposed_budget : (e.proposed labels goal).maxTokensPerStep.getD e.maxTokensPerStep
    = if StepsBudget labels goal then
        max 256 (min 4096 (e.maxTokensPerStep + TuningPolicy.budgetDelta {} goal))
      else e.maxTokensPerStep := by
  rw [TuningPolicy.applyRules_stepped.budget]
  split
  · refine (stepInt_getD _ _ _ _).trans (if_neg ?_)
    cases goal <;> decide
  · rfl

theorem proposed_chunk : (e.proposed labels goal).prefillChunkSize.getD e.prefillChunkSize
    = if StepsChunk labels e.cache.isSome goal then
        max 32 (min 512 (e.prefillChunkSize + TuningPolicy.chunkDelta {} goal))
      else e.prefillChunkSize := by
  rw [TuningPolicy.applyRules_stepped.chunk]
  split
  · refine (stepInt_getD _ _ _ _).trans (if_neg ?_)
    cases goal <;> decide
  · rfl

/-- The chunks fit the proposed budget. -/
abbrev Fits (e : Engine Row) (labels : WorkloadLabels) (goal : TuningGoal) : Prop :=
  (∀ r ∈ e.unfinished,
      e.nextChunk r ≤ (e.proposed labels goal).maxTokensPerStep.getD e.maxTokensPerStep) ∧
    (e.proposed labels goal).prefillChunkSize.getD e.prefillChunkSize
      ≤ (e.proposed labels goal).maxTokensPerStep.getD e.maxTokensPerStep

/-- For latency, both are lowered, the budget by the larger step. -/
theorem Schedulable.fits_latency_iff (h : Schedulable e) :
    Fits e labels .latency ↔ Affords e labels .latency := by
  have hfuture := h.future
  have hbudget : TuningPolicy.budgetDelta {} .latency = -256 := rfl
  have hchunk : TuningPolicy.chunkDelta {} .latency = -64 := rfl
  unfold Fits
  rw [proposed_budget, proposed_chunk, hbudget, hchunk]
  by_cases hlabel : labels.latencySensitive = true
  · have hB : StepsBudget labels .latency := hlabel
    have hC : StepsChunk labels e.cache.isSome .latency := Or.inl hlabel
    rw [if_pos hB, if_pos hC]
    constructor
    · rintro ⟨hreq, hfut⟩
      refine ⟨fun _ _ r hr => ?_, fun _ _ => ?_, fun hg => absurd rfl hg, fun hg => absurd rfl hg,
        fun _ hn => absurd hB hn⟩
      · have := hreq r hr
        omega
      · omega
    · intro ha
      refine ⟨fun r hr => ?_, ?_⟩
      · have := ha.loweredRequests rfl hlabel r hr
        omega
      · have := ha.loweredFuture rfl hlabel
        omega
  · have hB : ¬StepsBudget labels .latency := hlabel
    rw [if_neg hB]
    constructor
    · rintro ⟨-, hfut⟩
      refine ⟨fun _ hl => absurd hl hlabel, fun _ hl => absurd hl hlabel, fun hg => absurd rfl hg,
        fun hg => absurd rfl hg, fun hC _ => ?_⟩
      rw [if_pos hC] at hfut
      omega
    · refine fun ha => ⟨h.requests, ?_⟩
      split
      · next hC =>
        have := ha.raisedChunk hC hB
        omega
      · exact hfuture

/-- For the other goals the budget is raised, or capped. -/
theorem Schedulable.fits_otherwise_iff (h : Schedulable e) (hgoal : goal ≠ .latency) :
    Fits e labels goal ↔ Affords e labels goal := by
  have hfuture := h.future
  have hbudget : 0 < TuningPolicy.budgetDelta {} goal :=
    TuningPolicy.budgetDelta_pos TuningPolicy.defaultConfig_valid hgoal
  have hchunk : StepsChunk labels e.cache.isSome goal →
      TuningPolicy.chunkDelta {} goal = -32 := by
    intro _
    cases goal with
    | latency => exact absurd rfl hgoal
    | throughput => rfl
    | balanced => rfl
  have hlow : StepsBudget labels goal ↔ labels.throughputLow = true := by
    cases goal with
    | latency => exact absurd rfl hgoal
    | throughput => exact Iff.rfl
    | balanced => exact Iff.rfl
  unfold Fits
  rw [proposed_budget, proposed_chunk]
  -- a budget that shrinks must still hold every chunk; one that stays needs only the new chunk
  by_cases hB : StepsBudget labels goal
  · rw [if_pos hB]
    constructor
    · rintro ⟨hreq, hfut⟩
      refine ⟨fun hg => absurd hg hgoal, fun hg => absurd hg hgoal, fun _ _ r hr => ?_,
        fun _ _ hC => ?_, fun _ hn => absurd hB hn⟩
      · have := hreq r hr
        omega
      · rw [if_neg hC] at hfut
        omega
    · intro ha
      refine ⟨fun r hr => ?_, ?_⟩
      · have := ha.cappedRequests hgoal (hlow.mp hB) r hr
        have := h.requests r hr
        omega
      · split
        · next hC =>
          have := hchunk hC
          omega
        · next hC =>
          have := ha.cappedFuture hgoal (hlow.mp hB) hC
          omega
  · rw [if_neg hB]
    constructor
    · rintro ⟨-, hfut⟩
      refine ⟨fun hg => absurd hg hgoal, fun hg => absurd hg hgoal,
        fun _ hl => absurd (hlow.mpr hl) hB, fun _ hl => absurd (hlow.mpr hl) hB, fun hC _ => ?_⟩
      rw [if_pos hC] at hfut
      omega
    · refine fun ha => ⟨h.requests, ?_⟩
      split
      · next hC =>
        have := ha.raisedChunk hC hB
        have := hchunk hC
        omega
      · exact hfuture

theorem Schedulable.fits_iff (h : Schedulable e) : Fits e labels goal ↔ Affords e labels goal := by
  by_cases hgoal : goal = .latency
  · subst hgoal
    exact h.fits_latency_iff
  · exact h.fits_otherwise_iff hgoal

theorem schedulable_reconfigure_none (h : Schedulable e) :
    Schedulable (Exec.after (reconfigureWith {}) e) := by
  have hpos : Positive {} := ⟨nofun, nofun, nofun⟩
  have hflags : FlagsAllowed e {} := fun _ => ⟨nofun, nofun⟩
  exact (h.assigned_iff (reconfigureWith_assigned hpos hflags)).mpr ⟨h.requests, h.future⟩

/-- **A plan of the default policy keeps every chunk within the budget exactly when the engine
affords it.** -/
theorem keepsSchedulable_iff (e : Engine Row) (h : Schedulable e) (labels : WorkloadLabels)
    (goal : TuningGoal) :
    (∀ plan, TuningPolicy.propose {} e.getConfig labels e.cache.isSome goal = some plan →
        Schedulable (Exec.after (reconfigureWith plan.changes) e)) ↔
      (labels.errorElevated = false → Affords e labels goal) := by
  rw [TuningPolicy.forall_propose_iff
    (fun changes => Schedulable (Exec.after (reconfigureWith changes) e))
    (schedulable_reconfigure_none h)]
  refine imp_congr_right fun _ => ?_
  rw [h.assigned_iff (reconfigureWith_assigned proposed_positive proposed_flagsAllowed)]
  exact h.fits_iff

/-- A prompt of 3 tokens. -/
def shortPrompt : List Op := [.addRequest "a" [1, 2, 3] 2]

/-- With the default settings a waiting prompt of 3 tokens leaves room for the steps of every
rule. -/
theorem shortPrompt_keepsSchedulable :
    ∃ e₀ e, Engine.new (recallModel ⟨1, 8, 0, 2⟩ sumScores) 2 128 2048 true true = .ok e₀ ∧
      e = shortPrompt.foldl (Engine.next (fun _ _ => 0) (recallModel ⟨1, 8, 0, 2⟩ sumScores)) e₀ ∧
      e.unfinished = [0] ∧
      ∀ labels goal plan,
        TuningPolicy.propose {} e.getConfig labels e.cache.isSome goal = some plan →
          Schedulable (Exec.after (reconfigureWith plan.changes) e) := by
  refine ⟨_, _, rfl, rfl, by decide +kernel, fun labels goal => ?_⟩
  refine (keepsSchedulable_iff _ ?_ labels goal).mpr fun _ => ?_
  · exact ⟨rfl, by decide +kernel, by decide +kernel⟩
  · exact ⟨fun _ _ => by decide +kernel, fun _ _ => by decide +kernel,
      fun _ _ => by decide +kernel, fun _ _ _ => by decide +kernel, fun _ _ => by decide +kernel⟩

/-- A prompt of 300 tokens. -/
def longPrompt : List Op := [.addRequest "a" (List.replicate 300 1) 2]

/-- Chunks of 400 tokens and a budget of 512: the plan lowers the budget to 256. -/
theorem longPrompt_unschedulable :
    ∃ e₀ e, Engine.new (recallModel ⟨1, 512, 0, 2⟩ sumScores) 2 400 512 true true = .ok e₀ ∧
      e = longPrompt.foldl (Engine.next (fun _ _ => 0) (recallModel ⟨1, 512, 0, 2⟩ sumScores)) e₀ ∧
      Schedulable e ∧
      ∃ plan, TuningPolicy.propose {} e.getConfig ⟨false, false, true, false, false⟩
          e.cache.isSome .latency = some plan ∧
        ¬Schedulable (Exec.after (reconfigureWith plan.changes) e) := by
  refine ⟨_, _, rfl, rfl, ⟨by decide +kernel, by decide +kernel, by decide +kernel⟩, _, rfl,
    fun h => ?_⟩
  exact absurd (h.requests 0) (by decide +kernel)

end Engine

end Nifre
