import Nifre.Lib.Descent
import Nifre.Properties.PolicyDirection

/-!
# Tuning converges

With the labels, the goal and the cache as they are, every setting moves on its own: each plan takes
it nearer to the end of its range that the rules steer to, or puts it there at once if it starts on
the far side. The prefix cache is turned on at most once. So plans come to an end, and no
configuration comes up twice.
-/

namespace Nifre

/-- Where steps by `delta` lead: the end of the range that they go to, or the minimum if the range
is empty. -/
def stepTarget (delta minimum maximum : Int) : Int :=
  if maximum < minimum then minimum else if 0 < delta then maximum else minimum

/-- **A step gets nearer to its target.** -/
theorem stepInt_nearer {current delta minimum maximum v : Int}
    (h : stepInt current delta minimum maximum = some v) :
    (v - stepTarget delta minimum maximum).natAbs
      < (current - stepTarget delta minimum maximum).natAbs := by
  have hv := stepInt_getD current delta minimum maximum
  have hne := stepInt_ne h
  rw [h, Option.getD_some] at hv
  unfold stepTarget
  split at hv
  · exact absurd hv hne
  · split
    · omega
    · split <;> omega

namespace TuningPolicy

variable {policy : TuningPolicy} {current : EngineConfig} {labels : WorkloadLabels}
  {cacheInitialized : Bool} {goal : TuningGoal}

/-- How far a configuration is from where the rules lead. -/
def distance (policy : TuningPolicy) (goal : TuningGoal) (config : EngineConfig) : Nat :=
  (config.prefillChunkSize - stepTarget (policy.chunkDelta goal) policy.config.minPrefillChunkSize
      policy.config.maxPrefillChunkSize).natAbs
    + (config.maxTokensPerStep - stepTarget (policy.budgetDelta goal)
      policy.config.minMaxTokensPerStep policy.config.maxMaxTokensPerStep).natAbs
    + (config.maxConcurrentRequests - stepTarget policy.config.concurrencyStep
      policy.config.minMaxConcurrentRequests policy.config.maxMaxConcurrentRequests).natAbs
    + if config.usePrefixCache then 0 else 1

/-- The prefix cache is only turned on, and only if it is off. -/
theorem applyRules_prefixCache {v : Bool}
    (h : (policy.applyRules current labels cacheInitialized goal).changes.usePrefixCache = some v) :
    current.usePrefixCache = false ∧ v = true := by
  -- the rules of a goal do not name it
  have hnone : ∀ u : Updates, u.changes.usePrefixCache = none →
      (applyPrefixRules current labels cacheInitialized u).changes.usePrefixCache = some v →
        current.usePrefixCache = false ∧ v = true := by
    intro u hu hv
    unfold applyPrefixRules at hv
    split at hv
    · next hrule =>
      cases hv
      exact ⟨Bool.eq_false_iff.mpr hrule.2.1, rfl⟩
    · rw [hu] at hv
      cases hv
  unfold applyRules at h
  refine hnone _ ?_ h
  cases goal with
  | latency => simp only [applyLatencyRules_changes]
  | throughput => simp only [applyThroughputRules_changes]
  | balanced => simp only [applyBalancedRules_changes]

/-- A setting that the rules may step does not get farther from its target. -/
theorem getD_stepInt_le {p : Prop} [Decidable p] {setting delta minimum maximum : Int}
    {changed : Option Int}
    (h : changed = if p then stepInt setting delta minimum maximum else none) :
    (changed.getD setting - stepTarget delta minimum maximum).natAbs
      ≤ (setting - stepTarget delta minimum maximum).natAbs := by
  cases hchanged : changed with
  | none => exact Nat.le_refl _
  | some v =>
    rw [hchanged] at h
    split at h
    · exact (stepInt_nearer h.symm).le
    · cases h

/-- It gets nearer if it is named. -/
theorem getD_stepInt_lt {p : Prop} [Decidable p] {setting delta minimum maximum : Int}
    {changed : Option Int}
    (h : changed = if p then stepInt setting delta minimum maximum else none)
    (hnamed : changed ≠ none) :
    (changed.getD setting - stepTarget delta minimum maximum).natAbs
      < (setting - stepTarget delta minimum maximum).natAbs := by
  obtain ⟨v, hv⟩ := Option.ne_none_iff_exists'.mp hnamed
  rw [hv] at h ⊢
  split at h
  · exact stepInt_nearer h.symm
  · cases h

/-- **A plan leads nearer.** -/
theorem propose_nearer {plan : TuningPlan}
    (h : policy.propose current labels cacheInitialized goal = some plan) :
    policy.distance goal plan.config < policy.distance goal current := by
  unfold propose at h
  split at h
  · cases h
  · simp only at h
    split at h
    · cases h
    · next hsome =>
      cases h
      obtain ⟨hchunk, hbudget, hslots⟩ :=
        @applyRules_stepped policy current labels cacheInitialized goal
      have hpaged := (@applyRules_sound policy current labels cacheInitialized goal).paged
      have hprefix := @applyRules_prefixCache policy current labels cacheInitialized goal
      revert hsome hchunk hbudget hslots hpaged hprefix
      generalize (policy.applyRules current labels cacheInitialized goal).changes = changes
      intro hsome hchunk hbudget hslots hpaged hprefix
      have hc := getD_stepInt_le hchunk
      have hb := getD_stepInt_le hbudget
      have hs := getD_stepInt_le hslots
      have hflag : (if changes.usePrefixCache.getD current.usePrefixCache then 0 else 1)
          ≤ if current.usePrefixCache then 0 else 1 := by
        cases hnamed : changes.usePrefixCache with
        | none => exact Nat.le_refl _
        | some v =>
          obtain ⟨hoff, rfl⟩ := hprefix hnamed
          rw [hoff]
          exact Nat.zero_le _
      unfold distance EngineConfig.replace
      -- what is named gets nearer, and something is
      by_cases hchunkNamed : changes.prefillChunkSize = none
      · by_cases hbudgetNamed : changes.maxTokensPerStep = none
        · by_cases hslotsNamed : changes.maxConcurrentRequests = none
          · cases hnamed : changes.usePrefixCache with
            | none =>
              refine absurd ?_ hsome
              cases changes
              simp_all only
            | some v =>
              obtain ⟨hoff, rfl⟩ := hprefix hnamed
              rw [hchunkNamed, hbudgetNamed, hslotsNamed, hoff]
              exact Nat.lt_succ_self _
          · have hlt := getD_stepInt_lt hslots hslotsNamed
            exact Nat.add_lt_add_of_lt_of_le
              (Nat.add_lt_add_of_le_of_lt (Nat.add_le_add hc hb) hlt) hflag
        · have hlt := getD_stepInt_lt hbudget hbudgetNamed
          exact Nat.add_lt_add_of_lt_of_le (Nat.add_lt_add_of_lt_of_le
            (Nat.add_lt_add_of_le_of_lt hc hlt) hs) hflag
      · have hlt := getD_stepInt_lt hchunk hchunkNamed
        exact Nat.add_lt_add_of_lt_of_le (Nat.add_lt_add_of_lt_of_le
          (Nat.add_lt_add_of_lt_of_le hlt hb) hs) hflag

/-- One round of tuning: the configuration that is proposed. -/
def proposed (policy : TuningPolicy) (labels : WorkloadLabels) (cacheInitialized : Bool)
    (goal : TuningGoal) (current : EngineConfig) : Option EngineConfig :=
  (policy.propose current labels cacheInitialized goal).map TuningPlan.config

theorem proposed_nearer {config : EngineConfig}
    (h : policy.proposed labels cacheInitialized goal current = some config) :
    policy.distance goal config < policy.distance goal current := by
  obtain ⟨plan, hplan, rfl⟩ := Option.map_eq_some_iff.mp h
  exact propose_nearer hplan

theorem proposed_eq_none :
    policy.proposed labels cacheInitialized goal current = none ↔
      policy.propose current labels cacheInitialized goal = none :=
  Option.map_eq_none_iff

/-- The configuration after a number of rounds, or after as many as there are. -/
abbrev configAfter (policy : TuningPolicy) (labels : WorkloadLabels) (cacheInitialized : Bool)
    (goal : TuningGoal) (start : EngineConfig) (rounds : Nat) : EngineConfig :=
  Descent.orbit (policy.proposed labels cacheInitialized goal) start rounds

/-- **Tuning converges.** After finitely many rounds there is no plan any more, and until then no
configuration comes up twice. -/
theorem propose_converges (policy : TuningPolicy) (start : EngineConfig)
    (labels : WorkloadLabels) (cacheInitialized : Bool) (goal : TuningGoal) :
    ∃ rounds,
      policy.propose (policy.configAfter labels cacheInitialized goal start rounds) labels
        cacheInitialized goal = none ∧
      (∀ i < rounds, policy.propose (policy.configAfter labels cacheInitialized goal start i)
        labels cacheInitialized goal ≠ none) ∧
      ∀ i ≤ rounds, ∀ j ≤ rounds,
        policy.configAfter labels cacheInitialized goal start i
          = policy.configAfter labels cacheInitialized goal start j → i = j := by
  have hlt : ∀ a b, policy.proposed labels cacheInitialized goal a = some b →
      policy.distance goal b < policy.distance goal a := fun a b h => proposed_nearer h
  obtain ⟨rounds, hstop, hbefore⟩ := Descent.exists_stop (policy.distance goal) hlt start
  refine ⟨rounds, proposed_eq_none.mp hstop, fun i hi hnone => ?_,
    Descent.orbit_injective hlt hbefore⟩
  exact hbefore i hi (proposed_eq_none.mpr hnone)

end TuningPolicy

end Nifre
