import Nifre.Properties.Schedulable
import Nifre.Properties.Tuning

/-!
# Plans are applied and taken back

The engine accepts every plan of the default policy for it, since no request runs before there is a
cache. Back from there it accepts every setting but one: a chunk size that is not positive, which
only the constructor lets in.
-/

namespace Nifre

variable {Row Score : Type}

namespace Engine

open Scheduler (Live)
open TuningPolicy (StepsChunk)

variable {e : Engine Row} {changes : EngineChanges}

/-! ## The settings in engine and scheduler -/

/-- Engine and scheduler have the same settings, and all slots are free before there is a cache. -/
structure Paired (e : Engine Row) : Prop where
  live : Live e.scheduler
  cached : RunsCached e
  slots : e.maxConcurrentRequests = e.scheduler.maxConcurrentRequests
  budget : e.maxTokensPerStep = e.scheduler.maxTokensPerStep
  positive : 0 < e.scheduler.maxConcurrentRequests
  idle : e.cache = none → ∀ b, b ∈ e.scheduler.freeSlots ↔ b < e.scheduler.maxConcurrentRequests

theorem new_paired {model : InferenceModel Row Score}
    {maxConcurrentRequests prefillChunkSize maxTokensPerStep : Int}
    {usePagedKvCache usePrefixCache : Bool}
    (h : new model maxConcurrentRequests prefillChunkSize maxTokensPerStep usePagedKvCache
      usePrefixCache = .ok e) : Paired e := by
  have hlive := new_live h
  obtain ⟨s, hs, he⟩ := Exec.bind_eq_ok h
  cases he
  unfold Scheduler.new at hs
  split at hs
  · cases hs
  · next hslots =>
    split at hs
    · cases hs
    · cases hs
      refine ⟨hlive, fun _ => rfl, ?_, rfl, ?_, fun _ b => List.mem_range⟩
      · exact (Int.toNat_of_nonneg (Int.le_of_lt (Int.not_le.mp hslots))).symm
      · show 0 < maxConcurrentRequests.toNat
        omega

variable [LinearOrder Score] {chain : Int → List Nat → Int} {model : InferenceModel Row Score}

theorem Paired.step (h : Paired e) : Paired (Exec.after (step chain model) e) := by
  have hlive : Live (Engine.next chain model e .step).scheduler := next_live h.live .step
  have hcached : RunsCached (Engine.next chain model e .step) := h.cached.next h.live .step
  rw [Engine.next, call, Exec.after_dropped] at hlive hcached
  have hconfig := ((stepClosed_getConfig model e.getConfig).step (cacheSteps_any chain model) e
    ⟨h.live, rfl, rfl⟩).inv
  obtain ⟨hslots, hbudget⟩ := ((stepClosed_schedulerSettings model
    e.scheduler.maxConcurrentRequests e.scheduler.maxTokensPerStep).step
      (cacheSteps_any chain model) e ⟨h.live, ⟨rfl, rfl⟩, rfl⟩).inv
  refine ⟨hlive, hcached, ?_, ?_, hslots ▸ h.positive, fun hnone => ?_⟩
  · rw [hslots, ← h.slots]
    exact congrArg EngineConfig.maxConcurrentRequests hconfig
  · rw [hbudget, ← h.budget]
    exact congrArg EngineConfig.maxTokensPerStep hconfig
  · -- without a cache it did nothing
    have hbefore : e.cache = none := by
      rw [← Option.not_isSome_iff_eq_none] at hnone ⊢
      intro hsome
      have hkept := (callClosed_cached chain model).next (e := e) ⟨h.live, hsome⟩ .step
      rw [Engine.next, call, Exec.after_dropped] at hkept
      exact hnone hkept.inv
    rcases step_uncached chain model h.live hbefore with hsome | hsame
    · rw [hnone] at hsome
      cases hsome
    · rw [hsame]
      exact h.idle hbefore

omit [LinearOrder Score] in
theorem Paired.cancelRequest (h : Paired e) (requestId status : String) :
    Paired (Exec.after (cancelRequest requestId status) e) := by
  refine cancelRequest_pieces (J := Paired) (fun e h => ?_) (fun b e c h hc => ?_) e h
  · have hout := Scheduler.cancelRequest_outcome e.scheduler requestId status
    have hlive := h.live.cancelOutcome hout
    unfold Exec.after
    generalize (Scheduler.cancelRequest requestId status).run e.scheduler = result at hout hlive
    cases hout with
    | waiting r _ _ => exact { h with live := hlive }
    | running r _ hm =>
      -- before there is a cache no request runs
      have hrunning : e.cache ≠ none := fun hnone => by
        have hmem := OrderedDict.mem_values_iff.mpr ⟨_, hm⟩
        rw [h.cached hnone] at hmem
        cases hmem
      exact { h with
        live := hlive
        cached := fun hnone => absurd hnone hrunning
        idle := fun hnone => absurd hnone hrunning }
    | unknown err _ _ => exact { h with live := hlive }
  · exact { h with
      cached := fun hnone => nomatch hnone
      idle := fun hnone => nomatch hnone }

omit [LinearOrder Score] in
@[simp]
theorem cache_reconfigured (e : Engine Row) (changes : EngineChanges) :
    (e.reconfigured changes).cache = e.cache := by
  unfold reconfigured
  cases changes.maxConcurrentRequests <;> rfl

omit [LinearOrder Score] in
theorem Paired.reconfigured (h : Paired e) (hpos : Positive changes)
    (hlive : Live (e.reconfigured changes).scheduler) : Paired (e.reconfigured changes) := by
  have heff := inEffect_reconfigured (e := e) hpos
  have hslots := heff.slots
  refine ⟨hlive, fun hnone => ?_, ?_, ?_, ?_, fun hnone b => ?_⟩
  · rw [heff.running]
    rw [cache_reconfigured] at hnone
    exact h.cached hnone
  · rw [hslots, ← h.slots]
    exact congrArg EngineConfig.maxConcurrentRequests heff.config
  · rw [heff.budget, ← h.budget]
    exact congrArg EngineConfig.maxTokensPerStep heff.config
  · have hbefore := h.positive
    cases hv : changes.maxConcurrentRequests with
    | none =>
      rw [hv, Option.getD_none] at hslots
      omega
    | some v =>
      rw [hv, Option.getD_some] at hslots
      have := hpos.1 v hv
      omega
  · rw [cache_reconfigured] at hnone
    have hidle := h.idle hnone b
    cases hv : changes.maxConcurrentRequests with
    | none =>
      rw [hv, Option.getD_none] at hslots
      rw [heff.unnamedSlots hv, hidle]
      omega
    | some v =>
      rw [hv, Option.getD_some] at hslots
      rw [heff.freeSlots v hv b, hidle]
      omega

omit [LinearOrder Score] in
theorem Paired.reconfigure (h : Paired e) (changes : EngineChanges) :
    Paired (Exec.after (reconfigureWith changes) e) := by
  have hlive := reconfigureWith_live h.live changes
  have hcached := h.cached.reconfigureWith changes
  have hout := reconfigure_outcome e changes
  unfold Exec.after at hlive hcached ⊢
  generalize (reconfigureWith changes).run e = result at hout hlive hcached ⊢
  cases hout with
  | refused err _ => exact h
  | halfway err hpos _ _ =>
    exact ⟨hlive, hcached, h.slots, congrArg changes.maxTokensPerStep.getD h.budget, h.positive,
      h.idle⟩
  | done hpos _ _ => exact h.reconfigured hpos hlive

/-- **They have the same settings after every call**, also after one that raises. -/
theorem Paired.next (h : Paired e) (op : Op) : Paired (Engine.next chain model e op) := by
  cases op with
  | addRequest requestId promptTokenIds maxNewTokens =>
    have hlive : Live (Engine.next chain model e (.addRequest requestId promptTokenIds
      maxNewTokens)).scheduler := next_live h.live _
    rw [Engine.next, call, Exec.after_dropped, Exec.after_of_ok (addRequest_run e _ _ _)] at hlive ⊢
    exact ⟨hlive, h.cached, h.slots, h.budget, h.positive, h.idle⟩
  | step =>
    rw [Engine.next, call, Exec.after_dropped]
    exact h.step
  | cancelRequest requestId status =>
    rw [Engine.next, call, Exec.after_dropped]
    exact h.cancelRequest requestId status
  | reconfigure prefillChunkSize maxTokensPerStep maxConcurrentRequests usePaged usePrefix =>
    rw [Engine.next, call, Exec.after_dropped]
    exact h.reconfigure
      ⟨prefillChunkSize, maxTokensPerStep, maxConcurrentRequests, usePaged, usePrefix⟩
  | registerTokenCallback requestId => exact { h with }
  | unregisterTokenCallback requestId => exact { h with }

theorem Paired.run (h : Paired e) (ops : List Op) :
    Paired (ops.foldl (Engine.next chain model) e) := by
  induction ops generalizing e with
  | nil => exact h
  | cons op ops ih => exact ih (h.next op)

/-! ## There and back -/

/-- The settings, the slots and the free ones are as before. -/
structure Restored (e e' : Engine Row) : Prop where
  config : e'.getConfig = e.getConfig
  budget : e'.scheduler.maxTokensPerStep = e.scheduler.maxTokensPerStep
  slots : e'.scheduler.maxConcurrentRequests = e.scheduler.maxConcurrentRequests
  freeSlots : ∀ b, b ∈ e'.scheduler.freeSlots ↔ b ∈ e.scheduler.freeSlots

/-- The changes are made and give `config`, and setting what they name back restores the engine. -/
def Reversible (e : Engine Row) (changes : EngineChanges) (config : EngineConfig) : Prop :=
  ∃ e₁, (reconfigureWith changes).run e = .ok config e₁ ∧
    ∃ config' e₂, (reconfigureWith (changes.restore e.getConfig)).run e₁ = .ok config' e₂ ∧
      Restored e e₂

omit [LinearOrder Score] in
theorem reconfigureWith_run (hpos : Positive changes) (hflags : FlagsAllowed e changes)
    (hslots : SlotsAllowed e changes) :
    (reconfigureWith changes).run e
      = .ok (e.getConfig.replace changes) (e.reconfigured changes) := by
  have hout := reconfigure_outcome e changes
  generalize (reconfigureWith changes).run e = result at hout
  cases hout with
  | refused err hnot => exact absurd ⟨hpos, hflags⟩ hnot
  | halfway err _ _ hnot => exact absurd hslots hnot
  | done _ _ _ => rw [getConfig_reconfigured]

omit [LinearOrder Score] in
theorem positive_of_run {config : EngineConfig} {e' : Engine Row}
    (h : (reconfigureWith changes).run e = .ok config e') : Positive changes := by
  have hout := reconfigure_outcome e changes
  rw [h] at hout
  cases hout with
  | done hpos _ _ => exact hpos

omit [LinearOrder Score] in
/-- The scheduler accepts the number of slots if none is named once there is a cache. -/
theorem Paired.slotsAllowed (h : Paired e) (hpos : Positive changes)
    (hslots : e.cache.isSome = true → changes.maxConcurrentRequests = none) :
    SlotsAllowed e changes := by
  cases hc : e.cache with
  | none => exact TuningController.slotsAllowed_of_uncached h.cached hc hpos
  | some c =>
    intro v hv
    rw [hslots (by rw [hc]; rfl)] at hv
    cases hv

omit [LinearOrder Score] in
/-- **What a policy may propose is taken back**, if the previous values are positive. -/
theorem Paired.reversible (h : Paired e) (hplan : changes.Proposed e.getConfig e.cache.isSome)
    (hpos : Positive changes)
    (hchunk : ∀ v, changes.prefillChunkSize = some v → 0 < e.prefillChunkSize) :
    Reversible e changes (e.getConfig.replace changes) := by
  have hflags : FlagsAllowed e changes := fun hcache =>
    ⟨fun v hv => (by rw [hplan.paged] at hv; cases hv),
      fun v hv => (by rw [hplan.caching hcache] at hv; cases hv)⟩
  have hrun := reconfigureWith_run hpos hflags (h.slotsAllowed hpos hplan.slots)
  set e₁ := e.reconfigured changes with he₁
  have heff : InEffect e changes e₁ := inEffect_reconfigured hpos
  have hcache : e₁.cache = e.cache := cache_reconfigured e changes
  have hpaired : Paired e₁ := by
    have hafter := h.reconfigure changes
    rwa [Exec.after_of_ok hrun] at hafter
  -- the way back
  set back := changes.restore e.getConfig with hback
  have hpos' : Positive back := by
    refine ⟨fun v hv => ?_, fun v hv => ?_, fun v hv => ?_⟩
    · obtain ⟨_, -, rfl⟩ := Option.map_eq_some_iff.mp hv
      have := h.positive
      have := h.slots
      show 0 < e.maxConcurrentRequests
      omega
    · obtain ⟨w, hw, rfl⟩ := Option.map_eq_some_iff.mp hv
      exact hchunk w hw
    · obtain ⟨_, -, rfl⟩ := Option.map_eq_some_iff.mp hv
      have := h.live.budget
      have := h.budget
      show 0 < e.maxTokensPerStep
      omega
  have hslots' : e₁.cache.isSome = true → back.maxConcurrentRequests = none := fun hc => by
    rw [hcache] at hc
    exact Option.map_eq_none_iff.mpr (hplan.slots hc)
  have hflags' : FlagsAllowed e₁ back := fun hc => by
    rw [hcache] at hc
    refine ⟨fun v hv => ?_, fun v hv => ?_⟩
    · obtain ⟨w, hw, -⟩ := Option.map_eq_some_iff.mp hv
      rw [hplan.paged] at hw
      cases hw
    · obtain ⟨w, hw, -⟩ := Option.map_eq_some_iff.mp hv
      rw [hplan.caching hc] at hw
      cases hw
  have hrun' := reconfigureWith_run hpos' hflags' (hpaired.slotsAllowed hpos' hslots')
  set e₂ := e₁.reconfigured back with he₂
  have heff' : InEffect e₁ back e₂ := inEffect_reconfigured hpos'
  have hpaired' : Paired e₂ := by
    have hafter := hpaired.reconfigure back
    rwa [Exec.after_of_ok hrun'] at hafter
  have hconfig : e₂.getConfig = e.getConfig := by
    rw [heff'.config, heff.config]
    exact EngineConfig.replace_restore e.getConfig changes
  have hsame : e₂.scheduler.maxConcurrentRequests = e.scheduler.maxConcurrentRequests := by
    have := congrArg EngineConfig.maxConcurrentRequests hconfig
    have := hpaired'.slots
    have := h.slots
    simp only [getConfig] at *
    omega
  refine ⟨e₁, hrun, _, e₂, hrun', hconfig, ?_, hsame, fun b => ?_⟩
  · rw [← hpaired'.budget, ← h.budget]
    exact congrArg EngineConfig.maxTokensPerStep hconfig
  · cases hv : changes.maxConcurrentRequests with
    | none =>
      have hnone : back.maxConcurrentRequests = none := Option.map_eq_none_iff.mpr hv
      rw [heff'.unnamedSlots hnone, heff.unnamedSlots hv]
    | some v =>
      -- the number of slots is only changed before there is a cache, and then all are free
      have hnone : e.cache = none := by
        rw [← Option.not_isSome_iff_eq_none]
        intro hc
        rw [hplan.slots hc] at hv
        cases hv
      have hnone' : e₂.cache = none := (cache_reconfigured e₁ back).trans (hcache.trans hnone)
      rw [hpaired'.idle hnone', h.idle hnone, hsame]

/-! ## The plans of the default policy -/

omit [LinearOrder Score] in
/-- A setting that has to change its value is named. -/
theorem isSome_of_stepsChunk {labels : WorkloadLabels} {goal : TuningGoal}
    (hsteps : StepsChunk labels e.cache.isSome goal) (hlow : e.prefillChunkSize ≤ 0) :
    ∃ v, (e.proposed labels goal).prefillChunkSize = some v := by
  have hchunk := (@TuningPolicy.applyRules_stepped {} e.getConfig labels e.cache.isSome goal).chunk
  rw [if_pos hsteps] at hchunk
  rw [← Option.ne_none_iff_exists']
  intro hnone
  have hv := stepInt_getD e.getConfig.prefillChunkSize (TuningPolicy.chunkDelta {} goal) 32 512
  rw [show stepInt e.getConfig.prefillChunkSize (TuningPolicy.chunkDelta {} goal) 32 512 = none
    from hchunk.symm.trans hnone, Option.getD_none, if_neg (by cases goal <;> decide)] at hv
  have hsame : e.getConfig.prefillChunkSize = e.prefillChunkSize := rfl
  omega

omit [LinearOrder Score] in
theorem Paired.reversible_proposed_iff (h : Paired e) (labels : WorkloadLabels)
    (goal : TuningGoal) :
    Reversible e (e.proposed labels goal) (e.getConfig.replace (e.proposed labels goal)) ↔
      (StepsChunk labels e.cache.isSome goal → 0 < e.prefillChunkSize) := by
  constructor
  · rintro ⟨e₁, -, config', e₂, hback, -⟩ hsteps
    by_contra hlow
    obtain ⟨v, hv⟩ := isSome_of_stepsChunk hsteps (Int.not_lt.mp hlow)
    refine hlow ((positive_of_run hback).2.1 _ ?_)
    show (e.proposed labels goal).prefillChunkSize.map _ = _
    rw [hv]
    rfl
  · intro hchunk
    refine h.reversible TuningPolicy.applyRules_sound proposed_positive fun v hv => hchunk ?_
    by_contra hnot
    rw [(@TuningPolicy.applyRules_stepped {} e.getConfig labels e.cache.isSome goal).chunk,
      if_neg hnot] at hv
    cases hv

omit [LinearOrder Score] in
theorem Paired.reversible_none (h : Paired e) : Reversible e {} e.getConfig :=
  h.reversible ⟨EngineChanges.differ_none _, fun _ => rfl, fun _ => rfl, rfl⟩
    ⟨nofun, nofun, nofun⟩ nofun

/-- **In every reachable state the engine accepts the plans of the default policy and can be set
back exactly when the chunk size is positive or the goal's rules do not step it.** -/
theorem plans_reversible_iff {model : InferenceModel Row Score}
    {maxConcurrentRequests prefillChunkSize maxTokensPerStep : Int}
    {usePagedKvCache usePrefixCache : Bool} {e₀ : Engine Row}
    (hnew : new model maxConcurrentRequests prefillChunkSize maxTokensPerStep usePagedKvCache
      usePrefixCache = .ok e₀) (ops : List Op) (labels : WorkloadLabels) (goal : TuningGoal) :
    let e := ops.foldl (Engine.next chain model) e₀
    (∀ plan, TuningPolicy.propose {} e.getConfig labels e.cache.isSome goal = some plan →
        Reversible e plan.changes plan.config) ↔
      (labels.errorElevated = false → StepsChunk labels e.cache.isSome goal →
        0 < e.prefillChunkSize) := by
  intro e
  have h : Paired e := (new_paired hnew).run ops
  rw [← imp_congr_right fun _ => h.reversible_proposed_iff labels goal,
    ← TuningPolicy.forall_propose_iff
      (fun changes => Reversible e changes (e.getConfig.replace changes)) h.reversible_none]
  refine forall_congr' fun plan => imp_congr_right fun hplan => ?_
  rw [(TuningPolicy.propose_sound hplan).1]

/-- One request is served, with the default chunk size. -/
theorem servedOnce_reversible :
    ∃ e₀, new (recallModel ⟨1, 8, 0, 2⟩ sumScores) 2 128 2048 true true = .ok e₀ ∧
      let e := servedOnce.foldl (Engine.next (fun _ _ => 0) (recallModel ⟨1, 8, 0, 2⟩ sumScores)) e₀
      ∀ labels goal plan,
        TuningPolicy.propose {} e.getConfig labels e.cache.isSome goal = some plan →
          Reversible e plan.changes plan.config := by
  obtain ⟨e₀, hnew⟩ : ∃ e₀, new (recallModel ⟨1, 8, 0, 2⟩ sumScores) 2 128 2048 true true
      = .ok e₀ := ⟨_, rfl⟩
  refine ⟨e₀, hnew, fun labels goal => ?_⟩
  refine (plans_reversible_iff hnew servedOnce labels goal).mpr fun _ _ => ?_
  cases hnew
  decide +kernel

/-- **A chunk size of zero, which the constructor takes, is not set back.** -/
theorem zeroChunk_notReversible :
    ∃ e plan, new (recallModel ⟨1, 8, 0, 2⟩ sumScores) 2 0 2048 true true = .ok e ∧
      TuningPolicy.propose {} e.getConfig ⟨true, false, false, false, false⟩ e.cache.isSome
        .latency = some plan ∧ ¬Reversible e plan.changes plan.config := by
  refine ⟨_, _, rfl, rfl, ?_⟩
  rintro ⟨e₁, -, config', e₂, hback, -⟩
  exact absurd ((positive_of_run hback).2.1 0 rfl) (by decide)

end Engine

end Nifre
