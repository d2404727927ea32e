import Nifre.Properties.EngineFrame

/-!
# The ways a reconfiguration ends

From any state. It raises and changes nothing; it raises when the scheduler refuses the number of
slots, and by then the other settings are assigned; or everything is in effect.
-/

namespace Nifre

variable {Row : Type}

/-! ## The number of slots -/

namespace Scheduler

variable {Tok : Type} {s : Scheduler Tok}

/-- The scheduler accepts a new number of slots: they may only grow before there is a cache, and
the running requests keep theirs. -/
def AcceptsMax (s : Scheduler Tok) (newMax : Int) (cacheInitialized : Bool) : Prop :=
  0 < newMax ∧ (newMax = s.maxConcurrentRequests ∨
    (cacheInitialized = true → newMax ≤ s.maxConcurrentRequests) ∧ s.running.size ≤ newMax ∧
      ∀ r ∈ s.running.values, ∀ b ∈ (s.requests r).batchIdx.toList, (b : Int) < newMax)

instance (newMax : Int) (cacheInitialized : Bool) : Decidable (s.AcceptsMax newMax cacheInitialized) :=
  inferInstanceAs (Decidable (_ ∧ (_ ∨ _ ∧ _ ∧ _)))

/-- The scheduler with the number of slots it accepted. -/
def withMax (s : Scheduler Tok) (newMax : Int) : Scheduler Tok :=
  if newMax = s.maxConcurrentRequests then s else s.resized newMax.toNat

theorem applyMaxConcurrent_accepts {newMax : Int} {cacheInitialized : Bool}
    (h : s.AcceptsMax newMax cacheInitialized) :
    (applyMaxConcurrent newMax cacheInitialized).run s = .ok () (s.withMax newMax) := by
  obtain ⟨hpos, h⟩ := h
  unfold applyMaxConcurrent withMax
  rw [if_neg (by omega), Exec.run_bind_ok (EStateM.run_get s)]
  simp only
  by_cases hsame : newMax = s.maxConcurrentRequests
  · rw [if_pos hsame, if_pos hsame]
    rfl
  · obtain ⟨hgrow, hmany, hslots⟩ := h.resolve_left hsame
    have hnone : (s.running.values.findSome? fun r =>
        (s.requests r).batchIdx.filter fun b : Nat => newMax ≤ b) = none := by
      refine List.findSome?_eq_none_iff.mpr fun r hr => ?_
      cases hb : (s.requests r).batchIdx with
      | none => rfl
      | some b =>
        have := hslots r hr b (by simp [hb])
        simp [Option.filter, this]
    have hfilter : (s.freeSlots.filter fun slot : Nat => slot < newMax)
        = s.freeSlots.filter fun slot => slot < newMax.toNat := by
      refine List.filter_congr fun b _ => ?_
      rw [decide_eq_decide]
      omega
    have hif : ((s.maxConcurrentRequests : Int) < newMax) ↔
        s.maxConcurrentRequests < newMax.toNat := by omega
    rw [if_neg hsame, if_neg hsame, if_neg fun hc => by have := hgrow hc.1; omega,
      if_neg (by omega)]
    simp only [hnone, hif, hfilter]
    rfl

theorem applyMaxConcurrent_refuses {newMax : Int} {cacheInitialized : Bool}
    (h : ¬s.AcceptsMax newMax cacheInitialized) :
    ∃ e, (applyMaxConcurrent newMax cacheInitialized).run s = .error e s := by
  unfold applyMaxConcurrent
  by_cases hpos : newMax ≤ 0
  · rw [if_pos hpos]
    exact ⟨_, rfl⟩
  rw [if_neg hpos, Exec.run_bind_ok (EStateM.run_get s)]
  simp only
  by_cases hsame : newMax = s.maxConcurrentRequests
  · exact absurd ⟨by omega, Or.inl hsame⟩ h
  rw [if_neg hsame]
  by_cases hgrow : cacheInitialized = true ∧ (s.maxConcurrentRequests : Int) < newMax
  · rw [if_pos hgrow]
    exact ⟨_, rfl⟩
  rw [if_neg hgrow]
  by_cases hmany : newMax < s.running.size
  · rw [if_pos hmany]
    exact ⟨_, rfl⟩
  rw [if_neg hmany]
  cases hfind : s.running.values.findSome? fun r =>
      (s.requests r).batchIdx.filter fun b : Nat => newMax ≤ b with
  | some b => exact ⟨_, rfl⟩
  | none =>
    refine absurd ⟨by omega, Or.inr ⟨fun hc => ?_, by omega, fun r hr b hb => ?_⟩⟩ h
    · have : ¬(s.maxConcurrentRequests : Int) < newMax := fun hlt => hgrow ⟨hc, hlt⟩
      omega
    · have hnone := List.findSome?_eq_none_iff.mp hfind r hr
      rw [Option.mem_toList] at hb
      rw [hb] at hnone
      have : ¬newMax ≤ (b : Int) := by simpa [Option.filter] using hnone
      omega

end Scheduler

/-! ## The whole reconfiguration -/

namespace Engine

variable {e : Engine Row} {changes : EngineChanges}

/-- The settings that are given are positive. -/
def Positive (changes : EngineChanges) : Prop :=
  (∀ v, changes.maxConcurrentRequests = some v → 0 < v) ∧
    (∀ v, changes.prefillChunkSize = some v → 0 < v) ∧
    ∀ v, changes.maxTokensPerStep = some v → 0 < v

/-- Neither flag is to change once there is a cache. -/
def FlagsAllowed (e : Engine Row) (changes : EngineChanges) : Prop :=
  e.cache.isSome = true → (∀ v, changes.usePagedKvCache = some v → v = e.usePagedKvCache) ∧
    ∀ v, changes.usePrefixCache = some v → v = e.usePrefixCache

/-- The scheduler accepts the number of slots, if one is given. -/
def SlotsAllowed (e : Engine Row) (changes : EngineChanges) : Prop :=
  ∀ v, changes.maxConcurrentRequests = some v → e.scheduler.AcceptsMax v e.cache.isSome

instance (changes : EngineChanges) : Decidable (Positive changes) :=
  inferInstanceAs (Decidable ((∀ v ∈ changes.maxConcurrentRequests, 0 < v) ∧
    (∀ v ∈ changes.prefillChunkSize, 0 < v) ∧ ∀ v ∈ changes.maxTokensPerStep, 0 < v))

instance (e : Engine Row) (changes : EngineChanges) : Decidable (FlagsAllowed e changes) :=
  inferInstanceAs (Decidable (e.cache.isSome = true →
    (∀ v ∈ changes.usePagedKvCache, v = e.usePagedKvCache) ∧
      ∀ v ∈ changes.usePrefixCache, v = e.usePrefixCache))

instance (e : Engine Row) (changes : EngineChanges) : Decidable (SlotsAllowed e changes) :=
  inferInstanceAs (Decidable (∀ v ∈ changes.maxConcurrentRequests,
    e.scheduler.AcceptsMax v e.cache.isSome))

/-- The engine with all settings assigned but the number of slots. -/
def assigned (e : Engine Row) (changes : EngineChanges) : Engine Row :=
  { e with
    usePagedKvCache := changes.usePagedKvCache.getD e.usePagedKvCache
    usePrefixCache := changes.usePrefixCache.getD e.usePrefixCache
    prefillChunkSize := changes.prefillChunkSize.getD e.prefillChunkSize
    maxTokensPerStep := changes.maxTokensPerStep.getD e.maxTokensPerStep
    scheduler := { e.scheduler with
      maxTokensPerStep := changes.maxTokensPerStep.getD e.scheduler.maxTokensPerStep } }

/-- The engine with all settings assigned. -/
def reconfigured (e : Engine Row) (changes : EngineChanges) : Engine Row :=
  match changes.maxConcurrentRequests with
  | none => e.assigned changes
  | some v =>
    { e.assigned changes with
      scheduler := (e.assigned changes).scheduler.withMax v
      maxConcurrentRequests := v }

/-- **The ways `reconfigure` ends**, from any state. -/
inductive ReconfigureOutcome (e : Engine Row) (changes : EngineChanges) :
    EStateM.Result PyError (Engine Row) EngineConfig → Prop
  | refused (err) : ¬(Positive changes ∧ FlagsAllowed e changes) →
    ReconfigureOutcome e changes (.error err e)
  | halfway (err) : Positive changes → FlagsAllowed e changes → ¬SlotsAllowed e changes →
    ReconfigureOutcome e changes (.error err (e.assigned changes))
  | done : Positive changes → FlagsAllowed e changes → SlotsAllowed e changes →
    ReconfigureOutcome e changes (.ok (e.reconfigured changes).getConfig (e.reconfigured changes))

theorem setFlag_run (name : String) (current : Engine Row → Bool)
    (assign : Bool → Engine Row → Engine Row) (hself : ∀ e, assign (current e) e = e)
    {o : Option Bool} {cacheInitialized : Bool}
    (h : cacheInitialized = true → ∀ v, o = some v → v = current e) :
    (setFlag name current assign cacheInitialized o).run e
      = .ok () (assign (o.getD (current e)) e) := by
  cases o with
  | none =>
    rw [Option.getD_none, hself]
    rfl
  | some v =>
    unfold setFlag
    simp only
    rw [Exec.run_bind_ok (EStateM.run_get e), Option.getD_some]
    by_cases hv : v = current e
    · rw [if_neg (not_not.mpr hv), hv, hself]
      rfl
    · rw [if_pos hv, if_neg fun hc => hv (h hc v rfl)]
      rfl

theorem setFlag_raises (name : String) (current : Engine Row → Bool)
    (assign : Bool → Engine Row → Engine Row) {o : Option Bool}
    (h : ¬∀ v, o = some v → v = current e) :
    ∃ err, (setFlag name current assign true o).run e = .error err e := by
  cases o with
  | none => exact absurd nofun h
  | some v =>
    have hv : v ≠ current e := fun hv => h fun w hw => by cases hw; exact hv
    unfold setFlag
    simp only
    rw [Exec.run_bind_ok (EStateM.run_get e), if_pos hv, if_pos trivial]
    exact ⟨_, rfl⟩

theorem assignSome_run {α : Type} (assign : α → Engine Row → Engine Row) (current : Engine Row → α)
    (hself : ∀ e, assign (current e) e = e) (o : Option α)
    (e : Engine Row) : (assignSome assign o).run e = .ok () (assign (o.getD (current e)) e) := by
  cases o with
  | none =>
    rw [Option.getD_none, hself]
    rfl
  | some v => rfl

/-- The scheduler's part: its budget is positive, so only the number of slots can be refused. -/
theorem reconfigureScheduler_run {maxTokensPerStep : Option Int}
    (hpos : ∀ v, maxTokensPerStep = some v → 0 < v) (maxConcurrentRequests : Option Int)
    (cacheInitialized : Bool) (e : Engine Row) :
    let s := { e.scheduler with
      maxTokensPerStep := maxTokensPerStep.getD e.scheduler.maxTokensPerStep }
    ((∀ v, maxConcurrentRequests = some v → e.scheduler.AcceptsMax v cacheInitialized) →
      (reconfigureScheduler maxTokensPerStep maxConcurrentRequests cacheInitialized).run e
        = .ok () (match maxConcurrentRequests with
          | none => { e with scheduler := s }
          | some v => { e with scheduler := s.withMax v, maxConcurrentRequests := v })) ∧
    ((¬∀ v, maxConcurrentRequests = some v → e.scheduler.AcceptsMax v cacheInitialized) →
      ∃ err, (reconfigureScheduler maxTokensPerStep maxConcurrentRequests cacheInitialized).run e
        = .error err { e with scheduler := s }) := by
  intro s
  -- the scheduler's own method, after it has assigned the budget
  have hscheduler : (Scheduler.reconfigure maxTokensPerStep maxConcurrentRequests
      cacheInitialized).run e.scheduler
        = (Scheduler.reconfigure none maxConcurrentRequests cacheInitialized).run s := by
    cases maxTokensPerStep with
    | none => rfl
    | some v =>
      have hv := hpos v rfl
      unfold Scheduler.reconfigure
      simp only [if_neg (Int.not_le.mpr hv)]
      rfl
  unfold reconfigureScheduler
  cases maxConcurrentRequests with
  | none =>
    refine ⟨fun _ => ?_, fun hnot => absurd nofun hnot⟩
    cases maxTokensPerStep with
    | none => rfl
    | some v =>
      simp only [Option.isSome_some, true_or, if_true]
      rw [Exec.run_bind_ok (onScheduler_run hscheduler)]
      rfl
  | some v =>
    simp only [Option.isSome_some, or_true, if_true]
    have hsome : (∀ w, some v = some w → e.scheduler.AcceptsMax w cacheInitialized) ↔
        s.AcceptsMax v cacheInitialized := by simp [s, Scheduler.AcceptsMax]
    simp only [Option.some.injEq, forall_eq'] at hsome ⊢
    rw [hsome]
    constructor
    · intro h
      rw [Exec.run_bind_ok (onScheduler_run
        (hscheduler.trans (Scheduler.applyMaxConcurrent_accepts h)))]
      rfl
    · intro h
      obtain ⟨err, herr⟩ := Scheduler.applyMaxConcurrent_refuses h
      exact ⟨err, Exec.run_bind_error (onScheduler_error (hscheduler.trans herr))⟩

theorem reconfigure_outcome (e : Engine Row) (changes : EngineChanges) :
    ReconfigureOutcome e changes ((reconfigureWith changes).run e) := by
  unfold reconfigureWith reconfigure
  cases hvalid : validateEngineConfig changes.maxConcurrentRequests changes.prefillChunkSize
      changes.maxTokensPerStep with
  | error err =>
    refine .refused err fun h => ?_
    rw [validateEngineConfig_eq_ok_iff.mpr h.1] at hvalid
    cases hvalid
  | ok u =>
    have hpos : Positive changes := validateEngineConfig_eq_ok_iff.mp hvalid
    rw [Exec.ofExcept_ok, pure_bind, Exec.run_bind_ok (EStateM.run_get e)]
    set paged : Bool → Engine Row → Engine Row := fun v e => { e with usePagedKvCache := v }
    set caching : Bool → Engine Row → Engine Row := fun v e => { e with usePrefixCache := v }
    by_cases hflags : FlagsAllowed e changes
    · set e₁ : Engine Row := paged (changes.usePagedKvCache.getD e.usePagedKvCache) e
      rw [Exec.run_bind_ok (setFlag_run _ (·.usePagedKvCache) paged (fun _ => rfl)
          fun hc => (hflags hc).1),
        Exec.run_bind_ok (setFlag_run (e := e₁) _ (·.usePrefixCache) caching (fun _ => rfl)
          fun hc => (hflags hc).2),
        Exec.run_bind_ok (assignSome_run _ (·.prefillChunkSize) (fun _ => rfl) _ _),
        Exec.run_bind_ok (assignSome_run _ (·.maxTokensPerStep) (fun _ => rfl) _ _)]
      obtain ⟨hok, herr⟩ := reconfigureScheduler_run hpos.2.2 changes.maxConcurrentRequests
        e.cache.isSome (e := { e with
          usePagedKvCache := changes.usePagedKvCache.getD e.usePagedKvCache
          usePrefixCache := changes.usePrefixCache.getD e.usePrefixCache
          prefillChunkSize := changes.prefillChunkSize.getD e.prefillChunkSize
          maxTokensPerStep := changes.maxTokensPerStep.getD e.maxTokensPerStep })
      by_cases hslots : SlotsAllowed e changes
      · have hdone : ReconfigureOutcome e changes _ := .done hpos hflags hslots
        rw [Exec.run_bind_ok (hok hslots)]
        convert hdone using 1
        unfold reconfigured
        cases changes.maxConcurrentRequests <;> rfl
      · obtain ⟨err, hrun⟩ := herr hslots
        rw [Exec.run_bind_error hrun]
        exact .halfway err hpos hflags hslots
    · obtain ⟨hc, hnot⟩ := Classical.not_imp.mp hflags
      rw [hc]
      by_cases hp : ∀ v, changes.usePagedKvCache = some v → v = e.usePagedKvCache
      · obtain ⟨err, hrun⟩ := setFlag_raises (e := e) "use_prefix_cache" (·.usePrefixCache) caching
          fun hq => hnot ⟨hp, hq⟩
        rw [Exec.run_bind_ok (setFlag_run _ (·.usePagedKvCache) paged (fun _ => rfl) fun _ => hp)]
        have hsame : paged (changes.usePagedKvCache.getD e.usePagedKvCache) e = e := by
          cases hv : changes.usePagedKvCache with
          | none => rfl
          | some v => rw [Option.getD_some, hp v hv]
        rw [hsame, Exec.run_bind_error hrun]
        exact .refused err fun h => hflags h.2
      · obtain ⟨err, hrun⟩ := setFlag_raises (e := e) "use_paged_kv_cache" (·.usePagedKvCache) paged hp
        rw [Exec.run_bind_error hrun]
        exact .refused err fun h => hflags h.2

end Engine

end Nifre
