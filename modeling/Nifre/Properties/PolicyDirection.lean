import Nifre.Properties.TuningPolicy

/-!
# Which way a plan moves

The rules of the three goals in closed form: which of the settings they step, and by how much. A
rule moves its setting the way its reason says exactly when the setting is not beyond the far end
of the policy's range, where the clamp turns the step around.
-/

namespace Nifre

theorem stepInt_getD (current delta minimum maximum : Int) :
    (stepInt current delta minimum maximum).getD current
      = if delta = 0 then current else max minimum (min maximum (current + delta)) := by
  unfold stepInt
  by_cases hdelta : delta = 0
  · rw [if_pos hdelta, if_pos hdelta]
    rfl
  · rw [if_neg hdelta, if_neg hdelta]
    by_cases hsame : max minimum (min maximum (current + delta)) = current
    · rw [if_neg (fun h => h hsame), hsame]
      rfl
    · rw [if_pos hsame]
      rfl

theorem stepInt_ge {current delta minimum maximum v : Int}
    (h : stepInt current delta minimum maximum = some v) : minimum ≤ v := by
  have hv := stepInt_getD current delta minimum maximum
  have hne := stepInt_ne h
  rw [h, Option.getD_some] at hv
  split at hv
  · exact absurd hv hne
  · omega

/-- A step down goes down unless the value is below the range. -/
theorem stepInt_lowers {current delta minimum maximum : Int} (hdelta : delta < 0) :
    (stepInt current delta minimum maximum).getD current ≤ current ↔ minimum ≤ current := by
  rw [stepInt_getD, if_neg (by omega)]
  omega

/-- A step up goes up unless the value is above the range. -/
theorem stepInt_raises {current delta minimum maximum : Int} (hdelta : 0 < delta)
    (hrange : minimum ≤ maximum) :
    current ≤ (stepInt current delta minimum maximum).getD current ↔ current ≤ maximum := by
  rw [stepInt_getD, if_neg (by omega)]
  omega

/-- The steps are positive and the ranges are not empty. -/
structure PolicyConfig.Valid (config : PolicyConfig) : Prop where
  chunkStep : 0 < config.prefillChunkStep
  budgetStep : 0 < config.tokenBudgetStep
  concurrencyStep : 0 < config.concurrencyStep
  chunkRange : config.minPrefillChunkSize ≤ config.maxPrefillChunkSize
  budgetRange : config.minMaxTokensPerStep ≤ config.maxMaxTokensPerStep
  concurrencyRange : config.minMaxConcurrentRequests ≤ config.maxMaxConcurrentRequests

namespace TuningPolicy

variable (policy : TuningPolicy) (current : EngineConfig) (labels : WorkloadLabels)
  (cacheInitialized : Bool) (goal : TuningGoal)

/-! ## The rules in closed form -/

/-- The rules of the goal step the chunk size. -/
def StepsChunk : Prop :=
  match goal with
  | .latency => labels.latencySensitive ∨ labels.queueHigh
  | .throughput => False
  | .balanced => labels.latencySensitive ∨ (labels.queueHigh ∧ cacheInitialized)

/-- The rules of the goal step the token budget. -/
def StepsBudget : Prop :=
  match goal with
  | .latency => labels.latencySensitive
  | .throughput => labels.throughputLow
  | .balanced => labels.throughputLow

/-- The rules of the goal step the number of slots. -/
def StepsSlots : Prop :=
  goal ≠ .latency ∧ labels.queueHigh ∧ ¬cacheInitialized

instance : Decidable (StepsChunk labels cacheInitialized goal) :=
  match goal with
  | .latency => inferInstanceAs (Decidable (_ ∨ _))
  | .throughput => inferInstanceAs (Decidable False)
  | .balanced => inferInstanceAs (Decidable (_ ∨ (_ ∧ _)))

instance : Decidable (StepsBudget labels goal) :=
  match goal with
  | .latency => inferInstanceAs (Decidable (_ = _))
  | .throughput => inferInstanceAs (Decidable (_ = _))
  | .balanced => inferInstanceAs (Decidable (_ = _))

instance : Decidable (StepsSlots labels cacheInitialized goal) :=
  inferInstanceAs (Decidable (_ ∧ _ ∧ _))

def chunkDelta : Int :=
  match goal with
  | .latency => -policy.config.prefillChunkStep
  | .throughput => -policy.config.prefillChunkStep / 2
  | .balanced => -policy.config.prefillChunkStep / 2

def budgetDelta : Int :=
  match goal with
  | .latency => -policy.config.tokenBudgetStep
  | .throughput => policy.config.tokenBudgetStep
  | .balanced => max (policy.config.tokenBudgetStep / 2) 1

variable {policy current labels cacheInitialized goal}

namespace Updates

variable (u : Updates) (o : Option Int) (reason : String)

@[simp]
theorem setChunk_changes : (u.setChunk o reason).changes
    = { u.changes with prefillChunkSize := o.or u.changes.prefillChunkSize } := by
  cases o <;> rfl

@[simp]
theorem setBudget_changes : (u.setBudget o reason).changes
    = { u.changes with maxTokensPerStep := o.or u.changes.maxTokensPerStep } := by
  cases o <;> rfl

@[simp]
theorem setConcurrency_changes : (u.setConcurrency o reason).changes
    = { u.changes with maxConcurrentRequests := o.or u.changes.maxConcurrentRequests } := by
  cases o <;> rfl

/-- A rule that is under a condition. -/
@[simp]
theorem ite_changes (p : Prop) [Decidable p] (v : Updates) :
    (if p then v else u).changes = if p then v.changes else u.changes := by
  split <;> rfl

end Updates

/-- What the rules of a goal collect, before the rule for the prefix cache. -/
theorem applyLatencyRules_changes :
    (policy.applyLatencyRules current labels {}).changes =
      { prefillChunkSize := if labels.latencySensitive ∨ labels.queueHigh then
          policy.stepChunk current (-policy.config.prefillChunkStep) else none
        maxTokensPerStep := if labels.latencySensitive then
          policy.stepBudget current (-policy.config.tokenBudgetStep) else none } := by
  unfold applyLatencyRules
  by_cases hlatency : labels.latencySensitive = true
  · simp [hlatency]
  · by_cases hqueue : labels.queueHigh = true
    · simp [hlatency, hqueue]
    · simp [hlatency, hqueue]

theorem applyThroughputRules_changes :
    (policy.applyThroughputRules current labels cacheInitialized {}).changes =
      { maxTokensPerStep := if labels.throughputLow then
          policy.stepBudget current policy.config.tokenBudgetStep else none
        maxConcurrentRequests := if labels.queueHigh ∧ ¬cacheInitialized then
          policy.stepConcurrency current else none } := by
  unfold applyThroughputRules
  by_cases hslots : labels.queueHigh = true ∧ ¬cacheInitialized = true
  · by_cases hlow : labels.throughputLow = true
    · simp [hlow, hslots.1, hslots.2]
    · simp [hlow, hslots.1, hslots.2]
  · by_cases hlow : labels.throughputLow = true
    · simp only [hlow, hslots, if_true, if_false, Updates.setBudget_changes, Option.or_none]
    · simp only [hlow, hslots, if_false, Bool.false_eq_true]

theorem applyBalancedRules_changes :
    (policy.applyBalancedRules current labels cacheInitialized {}).changes =
      { prefillChunkSize :=
          if labels.latencySensitive ∨ (labels.queueHigh ∧ cacheInitialized) then
            policy.stepChunk current (-policy.config.prefillChunkStep / 2) else none
        maxTokensPerStep := if labels.throughputLow then
          policy.stepBudget current (max (policy.config.tokenBudgetStep / 2) 1) else none
        maxConcurrentRequests := if labels.queueHigh ∧ ¬cacheInitialized then
          policy.stepConcurrency current else none } := by
  unfold applyBalancedRules
  by_cases hlatency : labels.latencySensitive = true <;>
    by_cases hlow : labels.throughputLow = true <;>
      by_cases hqueue : labels.queueHigh = true <;>
        by_cases hcache : cacheInitialized = true <;> simp [hlatency, hlow, hqueue, hcache]

/-- What the rules of a goal name, and the step that each setting makes. -/
structure Stepped (policy : TuningPolicy) (current : EngineConfig) (labels : WorkloadLabels)
    (cacheInitialized : Bool) (goal : TuningGoal) (changes : EngineChanges) : Prop where
  chunk : changes.prefillChunkSize = if StepsChunk labels cacheInitialized goal then
    policy.stepChunk current (policy.chunkDelta goal) else none
  budget : changes.maxTokensPerStep = if StepsBudget labels goal then
    policy.stepBudget current (policy.budgetDelta goal) else none
  slots : changes.maxConcurrentRequests = if StepsSlots labels cacheInitialized goal then
    policy.stepConcurrency current else none

/-- The prefix rule only names a flag. -/
theorem Stepped.applyPrefixRules {u : Updates}
    (h : Stepped policy current labels cacheInitialized goal u.changes) :
    Stepped policy current labels cacheInitialized goal
      (applyPrefixRules current labels cacheInitialized u).changes := by
  unfold TuningPolicy.applyPrefixRules
  split
  · exact ⟨h.chunk, h.budget, h.slots⟩
  · exact h

theorem applyRules_stepped : Stepped policy current labels cacheInitialized goal
    (policy.applyRules current labels cacheInitialized goal).changes := by
  unfold applyRules
  refine Stepped.applyPrefixRules ?_
  cases goal with
  | latency =>
    simp only [applyLatencyRules_changes]
    exact ⟨rfl, rfl, (if_neg fun h => h.1 rfl).symm⟩
  | throughput =>
    simp only [applyThroughputRules_changes]
    refine ⟨(if_neg fun h => h).symm, rfl, ?_⟩
    exact if_congr ⟨fun h => ⟨by decide, h⟩, fun h => h.2⟩ rfl rfl
  | balanced =>
    simp only [applyBalancedRules_changes]
    refine ⟨rfl, rfl, ?_⟩
    exact if_congr ⟨fun h => ⟨by decide, h⟩, fun h => h.2⟩ rfl rfl

/-- What holds of the changes of every plan, in terms of the rules. -/
theorem forall_propose_iff (P : EngineChanges → Prop) (hnone : P {}) :
    (∀ plan, policy.propose current labels cacheInitialized goal = some plan → P plan.changes) ↔
      (labels.errorElevated = false →
        P (policy.applyRules current labels cacheInitialized goal).changes) := by
  unfold propose
  by_cases herr : labels.errorElevated = true
  · rw [if_pos herr, herr]
    exact iff_of_true (fun plan h => by cases h) (fun h => by cases h)
  · rw [if_neg herr]
    simp only [Bool.not_eq_true] at herr
    simp only [herr]
    by_cases hsame : (policy.applyRules current labels cacheInitialized goal).changes = {}
    · rw [if_pos hsame, hsame]
      exact iff_of_true (fun plan h => by cases h) (fun _ => hnone)
    · rw [if_neg hsame]
      constructor
      · exact fun h _ => h _ rfl
      · intro h plan hplan
        cases hplan
        exact h trivial

/-! ## The direction of a plan -/

/-- A plan moves each setting the way the rules say. -/
structure Directed (current : EngineConfig) (goal : TuningGoal) (config : EngineConfig) :
    Prop where
  chunk : config.prefillChunkSize ≤ current.prefillChunkSize
  lowered : goal = .latency → config.maxTokensPerStep ≤ current.maxTokensPerStep
  raised : goal ≠ .latency → current.maxTokensPerStep ≤ config.maxTokensPerStep
  slots : current.maxConcurrentRequests ≤ config.maxConcurrentRequests

/-- No setting that is stepped is beyond the far end of its range. -/
structure StepsInward (policy : TuningPolicy) (current : EngineConfig) (labels : WorkloadLabels)
    (cacheInitialized : Bool) (goal : TuningGoal) : Prop where
  chunk : StepsChunk labels cacheInitialized goal →
    policy.config.minPrefillChunkSize ≤ current.prefillChunkSize
  lowered : goal = .latency → StepsBudget labels goal →
    policy.config.minMaxTokensPerStep ≤ current.maxTokensPerStep
  raised : goal ≠ .latency → StepsBudget labels goal →
    current.maxTokensPerStep ≤ policy.config.maxMaxTokensPerStep
  slots : StepsSlots labels cacheInitialized goal →
    current.maxConcurrentRequests ≤ policy.config.maxMaxConcurrentRequests

theorem chunkDelta_neg (hvalid : policy.config.Valid) : policy.chunkDelta goal < 0 := by
  have hstep := hvalid.chunkStep
  cases goal <;> simp only [chunkDelta] <;> omega

theorem budgetDelta_neg (hvalid : policy.config.Valid) (hgoal : goal = .latency) :
    policy.budgetDelta goal < 0 := by
  have hstep := hvalid.budgetStep
  subst hgoal
  simp only [budgetDelta]
  omega

theorem budgetDelta_pos (hvalid : policy.config.Valid) (hgoal : goal ≠ .latency) :
    0 < policy.budgetDelta goal := by
  have hstep := hvalid.budgetStep
  cases goal with
  | latency => exact absurd rfl hgoal
  | throughput => exact hstep
  | balanced => simp only [budgetDelta]; omega

/-- A setting that may be stepped moves the right way if it does so when it is stepped. -/
theorem getD_ite_none_iff {p : Prop} [Decidable p] (P : Int → Prop) {o : Option Int}
    {current : Int} (hsame : P current) :
    P ((if p then o else none).getD current) ↔ (p → P (o.getD current)) := by
  by_cases hp : p
  · rw [if_pos hp]
    exact ⟨fun h _ => h, fun h => h hp⟩
  · rw [if_neg hp]
    exact iff_of_true hsame fun h => absurd h hp

theorem directed_applyRules_iff (hvalid : policy.config.Valid) :
    Directed current goal
        (current.replace (policy.applyRules current labels cacheInitialized goal).changes) ↔
      StepsInward policy current labels cacheInitialized goal := by
  obtain ⟨hchunk, hbudget, hslots⟩ :=
    @applyRules_stepped policy current labels cacheInitialized goal
  set changes := (policy.applyRules current labels cacheInitialized goal).changes
  have hc : (current.replace changes).prefillChunkSize ≤ current.prefillChunkSize ↔
      (StepsChunk labels cacheInitialized goal →
        policy.config.minPrefillChunkSize ≤ current.prefillChunkSize) := by
    unfold EngineConfig.replace
    rw [hchunk, getD_ite_none_iff (· ≤ current.prefillChunkSize) (Int.le_refl _)]
    exact imp_congr_right fun _ => stepInt_lowers (chunkDelta_neg hvalid)
  have hl : goal = .latency → ((current.replace changes).maxTokensPerStep
      ≤ current.maxTokensPerStep ↔ (StepsBudget labels goal →
        policy.config.minMaxTokensPerStep ≤ current.maxTokensPerStep)) := by
    intro hgoal
    unfold EngineConfig.replace
    rw [hbudget, getD_ite_none_iff (· ≤ current.maxTokensPerStep) (Int.le_refl _)]
    exact imp_congr_right fun _ => stepInt_lowers (budgetDelta_neg hvalid hgoal)
  have hr : goal ≠ .latency → (current.maxTokensPerStep
      ≤ (current.replace changes).maxTokensPerStep ↔ (StepsBudget labels goal →
        current.maxTokensPerStep ≤ policy.config.maxMaxTokensPerStep)) := by
    intro hgoal
    unfold EngineConfig.replace
    rw [hbudget, getD_ite_none_iff (current.maxTokensPerStep ≤ ·) (Int.le_refl _)]
    exact imp_congr_right fun _ =>
      stepInt_raises (budgetDelta_pos hvalid hgoal) hvalid.budgetRange
  have hs : current.maxConcurrentRequests ≤ (current.replace changes).maxConcurrentRequests ↔
      (StepsSlots labels cacheInitialized goal →
        current.maxConcurrentRequests ≤ policy.config.maxMaxConcurrentRequests) := by
    unfold EngineConfig.replace
    rw [hslots, getD_ite_none_iff (current.maxConcurrentRequests ≤ ·) (Int.le_refl _)]
    exact imp_congr_right fun _ => stepInt_raises hvalid.concurrencyStep hvalid.concurrencyRange
  constructor
  · exact fun h => ⟨hc.mp h.chunk, fun hgoal => (hl hgoal).mp (h.lowered hgoal),
      fun hgoal => (hr hgoal).mp (h.raised hgoal), hs.mp h.slots⟩
  · exact fun h => ⟨hc.mpr h.chunk, fun hgoal => (hl hgoal).mpr (h.lowered hgoal),
      fun hgoal => (hr hgoal).mpr (h.raised hgoal), hs.mpr h.slots⟩

/-- **Every plan moves its settings the way the rules say exactly when none of those that are
stepped is beyond the far end of its range.** -/
theorem directed_iff (policy : TuningPolicy) (hvalid : policy.config.Valid)
    (current : EngineConfig) (labels : WorkloadLabels) (cacheInitialized : Bool)
    (goal : TuningGoal) :
    (∀ plan, policy.propose current labels cacheInitialized goal = some plan →
        Directed current goal plan.config) ↔
      (labels.errorElevated = false →
        StepsInward policy current labels cacheInitialized goal) := by
  have hconfig : ∀ plan, policy.propose current labels cacheInitialized goal = some plan →
      plan.config = current.replace plan.changes := fun plan h => (propose_sound h).1
  rw [← directed_applyRules_iff hvalid,
    ← forall_propose_iff fun changes => Directed current goal (current.replace changes)]
  · constructor
    · exact fun h plan hplan => hconfig plan hplan ▸ h plan hplan
    · exact fun h plan hplan => (hconfig plan hplan).symm ▸ h plan hplan
  · exact ⟨Int.le_refl _, fun _ => Int.le_refl _, fun _ => Int.le_refl _, Int.le_refl _⟩

theorem defaultConfig_valid : PolicyConfig.Valid {} := by
  constructor <;> decide

/-- Chunks of 128 and a budget of 2048 tokens are within the default ranges. -/
theorem directed_iff_default :
    (∀ plan, TuningPolicy.propose {} ⟨4, 128, 2048, true, true⟩ ⟨true, true, true, true, false⟩
        false .latency = some plan → Directed ⟨4, 128, 2048, true, true⟩ .latency plan.config) ↔
      ((⟨true, true, true, true, false⟩ : WorkloadLabels).errorElevated = false →
        StepsInward {} ⟨4, 128, 2048, true, true⟩ ⟨true, true, true, true, false⟩ false
          .latency) :=
  directed_iff {} defaultConfig_valid _ _ _ _

/-- Chunks of 16 tokens are raised to 32 by a plan that says it reduces them. -/
theorem smallChunk_notDirected :
    ∃ plan, TuningPolicy.propose {} ⟨4, 16, 2048, true, true⟩ ⟨true, false, false, false, false⟩
        false .latency = some plan ∧
      plan.reason = "reduce prefill chunk size for lower TTFT" ∧
      ¬Directed ⟨4, 16, 2048, true, true⟩ .latency plan.config := by
  refine ⟨_, rfl, by decide, fun h => ?_⟩
  exact absurd h.chunk (by decide)

end TuningPolicy

end Nifre
