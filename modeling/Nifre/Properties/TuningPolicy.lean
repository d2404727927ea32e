import Nifre.Autotune.Policy

/-!
# What a plan changes

Every setting that a plan names gets a value other than its current one. Once there is a cache, a
plan names neither the number of slots nor one of the two flags.
-/

namespace Nifre

/-- Every setting that is named is to change. -/
structure EngineChanges.Differ (changes : EngineChanges) (current : EngineConfig) : Prop where
  prefillChunkSize : ∀ v, changes.prefillChunkSize = some v → v ≠ current.prefillChunkSize
  maxTokensPerStep : ∀ v, changes.maxTokensPerStep = some v → v ≠ current.maxTokensPerStep
  maxConcurrentRequests :
    ∀ v, changes.maxConcurrentRequests = some v → v ≠ current.maxConcurrentRequests
  usePagedKvCache : ∀ v, changes.usePagedKvCache = some v → v ≠ current.usePagedKvCache
  usePrefixCache : ∀ v, changes.usePrefixCache = some v → v ≠ current.usePrefixCache

/-- What a policy may propose to change. -/
structure EngineChanges.Proposed (changes : EngineChanges) (current : EngineConfig)
    (cacheInitialized : Bool) : Prop where
  differ : changes.Differ current
  slots : cacheInitialized = true → changes.maxConcurrentRequests = none
  caching : cacheInitialized = true → changes.usePrefixCache = none
  paged : changes.usePagedKvCache = none

theorem EngineChanges.differ_none (current : EngineConfig) : Differ {} current :=
  ⟨nofun, nofun, nofun, nofun, nofun⟩

theorem stepInt_ne {current delta minimum maximum v : Int}
    (h : stepInt current delta minimum maximum = some v) : v ≠ current := by
  unfold stepInt at h
  simp only at h
  split at h
  · cases h
  · split at h
    · next hne =>
      cases h
      exact hne
    · cases h

namespace TuningPolicy

variable {policy : TuningPolicy} {current : EngineConfig} {labels : WorkloadLabels}
  {cacheInitialized : Bool}

/-- What holds of the changes that the rules have collected so far. -/
abbrev Updates.Sound (current : EngineConfig) (cacheInitialized : Bool) (u : Updates) : Prop :=
  u.changes.Proposed current cacheInitialized

namespace Updates

variable {u : Updates}

theorem sound_empty : Sound current cacheInitialized {} :=
  ⟨EngineChanges.differ_none current, fun _ => rfl, fun _ => rfl, rfl⟩

theorem Sound.setChunk (h : Sound current cacheInitialized u) (delta : Int) (reason : String) :
    Sound current cacheInitialized (u.setChunk (policy.stepChunk current delta) reason) := by
  unfold Updates.setChunk
  cases hv : policy.stepChunk current delta with
  | none => exact h
  | some v =>
    refine ⟨{ h.differ with prefillChunkSize := fun w hw => ?_ }, h.slots, h.caching, h.paged⟩
    cases hw
    exact stepInt_ne hv

theorem Sound.setBudget (h : Sound current cacheInitialized u) (delta : Int) (reason : String) :
    Sound current cacheInitialized (u.setBudget (policy.stepBudget current delta) reason) := by
  unfold Updates.setBudget
  cases hv : policy.stepBudget current delta with
  | none => exact h
  | some v =>
    refine ⟨{ h.differ with maxTokensPerStep := fun w hw => ?_ }, h.slots, h.caching, h.paged⟩
    cases hw
    exact stepInt_ne hv

/-- The number of slots is only changed before there is a cache. -/
theorem Sound.setConcurrency (h : Sound current cacheInitialized u)
    (hcache : ¬cacheInitialized = true) (reason : String) :
    Sound current cacheInitialized (u.setConcurrency (policy.stepConcurrency current) reason) := by
  unfold Updates.setConcurrency
  cases hv : policy.stepConcurrency current with
  | none => exact h
  | some v =>
    refine ⟨{ h.differ with maxConcurrentRequests := fun w hw => ?_ }, fun hc => absurd hc hcache,
      h.caching, h.paged⟩
    cases hw
    exact stepInt_ne hv

end Updates

open Updates (Sound)

theorem applyLatencyRules_sound {u : Updates} (h : Sound current cacheInitialized u) :
    Sound current cacheInitialized (policy.applyLatencyRules current labels u) := by
  have hchunk : Sound current cacheInitialized (if labels.latencySensitive ∨ labels.queueHigh then
      u.setChunk (policy.stepChunk current (-policy.config.prefillChunkStep))
        "reduce prefill chunk size for lower TTFT" else u) := by
    split
    · exact h.setChunk _ _
    · exact h
  unfold applyLatencyRules
  simp only
  split
  · exact hchunk.setBudget _ _
  · exact hchunk

theorem applyThroughputRules_sound {u : Updates} (h : Sound current cacheInitialized u) :
    Sound current cacheInitialized
      (policy.applyThroughputRules current labels cacheInitialized u) := by
  have hslots : Sound current cacheInitialized (if labels.queueHigh ∧ ¬cacheInitialized then
      u.setConcurrency (policy.stepConcurrency current) "raise concurrency to drain queue"
      else u) := by
    split
    · next hq => exact h.setConcurrency hq.2 _
    · exact h
  unfold applyThroughputRules
  simp only
  split
  · exact hslots.setBudget _ _
  · exact hslots

theorem applyBalancedRules_sound {u : Updates} (h : Sound current cacheInitialized u) :
    Sound current cacheInitialized
      (policy.applyBalancedRules current labels cacheInitialized u) := by
  have hchunk : Sound current cacheInitialized (if labels.latencySensitive then
      u.setChunk (policy.stepChunk current (-policy.config.prefillChunkStep / 2))
        "trim prefill chunks to protect latency" else u) := by
    split
    · exact h.setChunk _ _
    · exact h
  unfold applyBalancedRules
  simp only
  set u₁ : Updates := if labels.latencySensitive then _ else u
  have hbudget : Sound current cacheInitialized (if labels.throughputLow then
      u₁.setBudget (policy.stepBudget current (max (policy.config.tokenBudgetStep / 2) 1))
        "nudge token budget up for throughput" else u₁) := by
    split
    · exact hchunk.setBudget _ _
    · exact hchunk
  set u₂ : Updates := if labels.throughputLow then _ else u₁
  split
  · split
    · next hcache => exact hbudget.setConcurrency hcache _
    · split
      · exact hbudget.setChunk _ _
      · exact hbudget
  · exact hbudget

theorem applyPrefixRules_sound {u : Updates} (h : Sound current cacheInitialized u) :
    Sound current cacheInitialized (applyPrefixRules current labels cacheInitialized u) := by
  unfold applyPrefixRules
  split
  · next hlabels =>
    obtain ⟨-, hoff, -, hcache⟩ := hlabels
    refine ⟨{ h.differ with usePrefixCache := fun w hw he => hoff ?_ }, h.slots,
      fun hc => absurd hc hcache, h.paged⟩
    cases hw
    exact he.symm
  · exact h

theorem applyRules_sound {goal : TuningGoal} :
    Sound current cacheInitialized
      (policy.applyRules current labels cacheInitialized goal) := by
  unfold applyRules
  refine applyPrefixRules_sound ?_
  cases goal with
  | latency => exact applyLatencyRules_sound Updates.sound_empty
  | throughput => exact applyThroughputRules_sound Updates.sound_empty
  | balanced => exact applyBalancedRules_sound Updates.sound_empty

/-- **What a plan changes.** -/
theorem propose_sound {goal : TuningGoal} {plan : TuningPlan}
    (h : policy.propose current labels cacheInitialized goal = some plan) :
    plan.config = current.replace plan.changes ∧
      plan.changes.Proposed current cacheInitialized := by
  unfold propose at h
  split at h
  · cases h
  · simp only at h
    split at h
    · cases h
    · cases h
      exact ⟨rfl, applyRules_sound⟩

end TuningPolicy

end Nifre
