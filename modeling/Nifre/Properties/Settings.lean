import Nifre.Properties.Capacity

/-!
# The settings along a run

Only a reconfiguration changes what `get_config` returns, and no request runs before there is a
cache.
-/

namespace Nifre

variable {Row Score : Type}

namespace Engine

variable {e : Engine Row} {changes : EngineChanges}

/-! ## What `get_config` returns -/

theorem getConfig_reconfigured (e : Engine Row) (changes : EngineChanges) :
    (e.reconfigured changes).getConfig = e.getConfig.replace changes := by
  unfold reconfigured EngineConfig.replace
  cases changes.maxConcurrentRequests <;> rfl

/-- Without the number of slots. -/
theorem getConfig_assigned (e : Engine Row) (changes : EngineChanges) :
    (e.assigned changes).getConfig
      = e.getConfig.replace { changes with maxConcurrentRequests := none } := rfl

/-- The call is a reconfiguration. -/
def Op.Reconfigures : Op → Prop
  | .reconfigure .. => True
  | _ => False

instance : ∀ op : Op, Decidable op.Reconfigures
  | .reconfigure .. => inferInstanceAs (Decidable True)
  | .addRequest .. | .step | .cancelRequest .. | .registerTokenCallback _
  | .unregisterTokenCallback _ => inferInstanceAs (Decidable False)

/-- A reconfiguration keeps what all its ways to end keep. -/
theorem reconfigureWith_keeps {J : Engine Row → Prop} (changes : EngineChanges)
    (hassigned : ∀ e, J e → J (e.assigned changes))
    (hreconfigured : ∀ e, J e → J (e.reconfigured changes)) :
    Exec.Keeps J (reconfigureWith changes) := by
  intro e h
  have hout := reconfigure_outcome e changes
  unfold Exec.after
  generalize (reconfigureWith changes).run e = result at hout
  cases hout with
  | refused err _ => exact h
  | halfway err _ _ _ => exact hassigned e h
  | done _ _ _ => exact hreconfigured e h

variable [LinearOrder Score] {chain : Int → List Nat → Int} {model : InferenceModel Row Score}

omit [LinearOrder Score] in
theorem stepClosed_getConfig (model : InferenceModel Row Score) (config : EngineConfig) :
    StepClosed model (fun _ _ => True) fun e => e.getConfig = config where
  made := fun _ _ h _ _ => h
  cache := fun _ _ _ h _ _ => h
  forward := fun _ _ _ h _ => h
  assign := fun _ _ _ _ _ _ h _ _ => h
  startDecode := fun _ _ _ h _ _ _ => h
  handle := fun e r tokenId _ h _ _ => by
    unfold handled
    split <;> exact h

/-- **Only a reconfiguration changes the settings.** -/
theorem next_getConfig (hlive : Scheduler.Live e.scheduler) {op : Op} (hop : ¬op.Reconfigures) :
    (Engine.next chain model e op).getConfig = e.getConfig := by
  cases op with
  | addRequest requestId promptTokenIds maxNewTokens =>
    rw [Engine.next, call, Exec.after_dropped, Exec.after_of_ok (addRequest_run e _ _ _)]
    rfl
  | step =>
    rw [Engine.next, call, Exec.after_dropped]
    exact ((stepClosed_getConfig model e.getConfig).step (cacheSteps_any chain model) e
      ⟨hlive, rfl, rfl⟩).inv
  | cancelRequest requestId status =>
    rw [Engine.next, call, Exec.after_dropped]
    exact cancelRequest_pieces (J := fun e' => e'.getConfig = e.getConfig) (fun _ h => h)
      (fun _ _ _ h _ => h) e rfl
  | reconfigure => exact absurd trivial hop
  | registerTokenCallback requestId => rfl
  | unregisterTokenCallback requestId => rfl

/-! ## Before there is a cache -/

/-- No request runs before there is a cache. -/
def RunsCached (e : Engine Row) : Prop :=
  e.cache = none → e.scheduler.running.values = []

variable (chain model) in
/-- A step on an engine without a cache makes one, or changes nothing. -/
theorem step_uncached (hlive : Scheduler.Live e.scheduler)
    (hnone : e.cache = none) :
    (Exec.after (step chain model) e).cache.isSome = true ∨ Exec.after (step chain model) e = e := by
  by_cases hwork : e.scheduler.hasWork = false
  · right
    unfold step
    rw [Exec.after_bind, EStateM.run_get]
    simp only [if_pos hwork]
    rfl
  · cases hmake : makeCache model e.usePagedKvCache e.usePrefixCache
        e.maxConcurrentRequests.toNat with
    | error err =>
      right
      have hensure : (ensureCache model).run e = .error err e := by
        unfold ensureCache
        rw [Exec.run_bind_ok (EStateM.run_get e)]
        simp only [hnone, hmake]
        rfl
      unfold step
      rw [Exec.after_bind, EStateM.run_get]
      simp only [if_neg hwork]
      exact Exec.after_of_error (Exec.run_bind_error hensure)
    | ok c =>
      left
      -- the step goes on as a step of the engine with the new cache
      have hensure : (ensureCache model).run e = .ok () { e with cache := some c } := by
        unfold ensureCache
        rw [Exec.run_bind_ok (EStateM.run_get e)]
        simp only [hnone, hmake]
        rfl
      have hensure' : (ensureCache model).run { e with cache := some c }
          = .ok () { e with cache := some c } := rfl
      have hsame : Exec.after (step chain model) e
          = Exec.after (step chain model) { e with cache := some c } := by
        unfold step Exec.after
        rw [Exec.run_bind_ok (EStateM.run_get e), Exec.run_bind_ok (EStateM.run_get _)]
        simp only [if_neg hwork]
        rw [Exec.run_bind_ok hensure, Exec.run_bind_ok hensure']
      rw [hsame]
      have hkept := (callClosed_cached chain model).next (e := { e with cache := some c })
        ⟨hlive, rfl⟩ .step
      rw [Engine.next, call, Exec.after_dropped] at hkept
      exact hkept.inv

omit [LinearOrder Score] in
theorem RunsCached.reconfigureWith (h : RunsCached e) (changes : EngineChanges) :
    RunsCached (Exec.after (reconfigureWith changes) e) := by
  refine reconfigureWith_keeps (J := RunsCached) changes (fun _ h => h) (fun e h => ?_) e h
  unfold Engine.reconfigured Scheduler.withMax
  split
  · exact h
  · split <;> exact h

/-- **A request runs only once there is a cache**, in every run. -/
theorem RunsCached.next (hlive : Scheduler.Live e.scheduler) (h : RunsCached e)
    (op : Op) : RunsCached (Engine.next chain model e op) := by
  cases op with
  | addRequest requestId promptTokenIds maxNewTokens =>
    rw [Engine.next, call, Exec.after_dropped, Exec.after_of_ok (addRequest_run e _ _ _)]
    exact h
  | step =>
    rw [Engine.next, call, Exec.after_dropped]
    intro hnone
    cases hc : e.cache with
    | some c =>
      have hkept := (callClosed_cached chain model).next (e := e) ⟨hlive, by rw [hc]; rfl⟩ .step
      rw [Engine.next, call, Exec.after_dropped] at hkept
      have hsome := hkept.inv
      rw [hnone] at hsome
      cases hsome
    | none =>
      rcases step_uncached chain model hlive hc with hsome | hsame
      · rw [hnone] at hsome
        cases hsome
      · rw [hsame]
        exact h hc
  | cancelRequest requestId status =>
    rw [Engine.next, call, Exec.after_dropped]
    refine cancelRequest_pieces (J := RunsCached) (fun e h hnone => ?_)
      (fun b e c h _ hnone => by cases hnone) e h
    have hempty := h hnone
    have hout := Scheduler.cancelRequest_outcome e.scheduler requestId status
    unfold Exec.after
    generalize (Scheduler.cancelRequest requestId status).run e.scheduler = result at hout
    cases hout with
    | waiting r _ _ => exact hempty
    | running r _ hm => exact absurd (OrderedDict.mem_values_iff.mpr ⟨_, hm⟩) (by simp [hempty])
    | unknown err _ _ => exact hempty
  | reconfigure prefillChunkSize maxTokensPerStep maxConcurrentRequests usePaged usePrefix =>
    rw [Engine.next, call, Exec.after_dropped]
    exact h.reconfigureWith
      ⟨prefillChunkSize, maxTokensPerStep, maxConcurrentRequests, usePaged, usePrefix⟩
  | registerTokenCallback requestId => exact h
  | unregisterTokenCallback requestId => exact h

omit [LinearOrder Score] in
/-- The queues of a reconfigured engine. -/
theorem reconfigureWith_live (h : Scheduler.Live e.scheduler) (changes : EngineChanges) :
    Scheduler.Live (Exec.after (reconfigureWith changes) e).scheduler := by
  refine reconfigure_pieces (J := fun e => Scheduler.Live e.scheduler) (fun _ _ h => h)
    (fun _ _ _ h => h) (fun _ _ _ h => h) (fun _ _ _ h => h) (fun _ e h => ?_) e h
  exact reconfigureScheduler_pieces (fun e s h hs => hs.live h) (fun _ _ h => h) e h

end Engine

end Nifre
