import Nifre.Properties.TuningTicks
import Nifre.Properties.Settings
import Nifre.Properties.TuningPolicy
import Mathlib.Algebra.Ring.Rat

/-!
# Tuning attempts

A reference configuration is the one at the start, or the one promoted last. The engine has the
reference configuration, with the changes of the pending attempt if there is one. This breaks in
one way: an attempt is taken back, and the scheduler refuses the previous number of slots after
other settings have been assigned.
-/

namespace Nifre

/-- Taking the changes back gives the configuration before them. -/
theorem EngineConfig.replace_restore (config : EngineConfig) (changes : EngineChanges) :
    (config.replace changes).replace (changes.restore config) = config := by
  obtain ⟨c₁, c₂, c₃, c₄, c₅⟩ := changes
  cases c₁ <;> cases c₂ <;> cases c₃ <;> cases c₄ <;> cases c₅ <;> rfl

namespace TuningController

variable {F Row Score : Type} [OfScientific F] [Zero F] [Add F] [Sub F] [Mul F] [Div F] [LT F]
  [LE F] [DecidableLT F] [DecidableLE F]

open Engine (RunsCached Positive FlagsAllowed SlotsAllowed)

/-! ## The reference configuration -/

/-- The controller, and the reference configuration. -/
structure Tuned (F Row : Type) [OfScientific F] where
  reference : EngineConfig
  controller : TuningController F Row

/-- The configuration that the engine is to have. -/
def Tuned.expected (s : Tuned F Row) : EngineConfig :=
  match s.controller.pending with
  | none => s.reference
  | some attempt => s.reference.replace attempt.changes

/-- The engine has it. -/
def Tuned.Transactional (s : Tuned F Row) : Prop :=
  s.controller.engine.getConfig = s.expected

/-- The reference configuration after a tick: the attempted one, if it was promoted. -/
def referenceAfter (reference : EngineConfig) (pending : Option (PendingAttempt F)) :
    EStateM.Result PyError (TuningController F Row) (Option TuningAction) → EngineConfig
  | .ok (some .promoted) _ =>
    match pending with
    | some attempt => reference.replace attempt.changes
    | none => reference
  | _ => reference

/-- The state after a tick, on either exit. -/
def Tuned.ticked (s : Tuned F Row) (metrics : MetricsSnapshot F) (now : F) : Tuned F Row :=
  let result := (tick metrics now).run s.controller
  { reference := referenceAfter s.reference s.controller.pending result
    controller := Exec.stateOf result }

instance (s : Tuned F Row) : Decidable s.Transactional :=
  inferInstanceAs (Decidable (_ = _))

/-- The engine may take the changes back, but for the number of slots, which the scheduler refuses
after the prefill chunk size or the token budget has been assigned. -/
def HalfRestores (e : Engine Row) (changes : EngineChanges) (previous : EngineConfig) : Prop :=
  Positive (changes.restore previous) ∧ FlagsAllowed e (changes.restore previous) ∧
    ¬SlotsAllowed e (changes.restore previous) ∧
    (changes.prefillChunkSize.isSome = true ∨ changes.maxTokensPerStep.isSome = true)

instance (e : Engine Row) (changes : EngineChanges) (previous : EngineConfig) :
    Decidable (HalfRestores e changes previous) :=
  inferInstanceAs (Decidable (_ ∧ _ ∧ _ ∧ _))

/-- No attempt is taken back by halves. -/
def Reverts (c : TuningController F Row) (metrics : MetricsSnapshot F) (now : F) : Prop :=
  ∀ attempt, c.pending = some attempt → TakesBack c attempt metrics now →
    ¬HalfRestores c.engine attempt.changes attempt.previousConfig

instance (c : TuningController F Row) (metrics : MetricsSnapshot F) (now : F) :
    Decidable (Reverts c metrics now) :=
  inferInstanceAs (Decidable (∀ attempt ∈ c.pending, TakesBack c attempt metrics now →
    ¬HalfRestores c.engine attempt.changes attempt.previousConfig))

/-! ## A tick, piece by piece -/

/-- What holds between the ticks. -/
structure Tuned.Sound (s : Tuned F Row) : Prop where
  live : Scheduler.Live s.controller.engine.scheduler
  cached : RunsCached s.controller.engine
  transactional : s.Transactional
  pending : ∀ attempt, s.controller.pending = some attempt →
    attempt.previousConfig = s.reference ∧ attempt.changes.Differ s.reference

variable {c : TuningController F Row} {changes : EngineChanges}

/-- **The ways a tick ends.** -/
inductive TickOutcome (c : TuningController F Row) (metrics : MetricsSnapshot F) (now : F) :
    EStateM.Result PyError (TuningController F Row) (Option TuningAction) → Prop
  /-- Nothing to do yet, or nothing to propose. -/
  | quiet (c') : c'.engine = c.engine → c'.pending = c.pending →
    (∀ attempt, c.pending = some attempt → ¬TakesBack c attempt metrics now) →
    TickOutcome c metrics now (.ok none c')
  /-- No labels, or no plan that the engine accepts. -/
  | failed (err c') : c.pending = none → c'.pending = none →
    (c'.engine = c.engine ∨ ∃ plan labels, c.policy.propose c.engine.getConfig labels
      c.engine.cache.isSome c.goal = some plan ∧ Positive plan.changes ∧
      ¬SlotsAllowed c.engine plan.changes) →
    Touched c.engine c'.engine → TickOutcome c metrics now (.error err c')
  | attempted (c' plan labels attempt) : c.pending = none →
    c.policy.propose c.engine.getConfig labels c.engine.cache.isSome c.goal = some plan →
    c'.engine = c.engine.reconfigured plan.changes → Touched c.engine c'.engine →
    c'.pending = some attempt → attempt.previousConfig = c.engine.getConfig →
    attempt.changes = plan.changes → TickOutcome c metrics now (.ok (some .attempted) c')
  | promoted (c' attempt) : c.pending = some attempt → ¬TakesBack c attempt metrics now →
    c'.engine = c.engine → c'.pending = none → TickOutcome c metrics now (.ok (some .promoted) c')
  | rolledBack (c' attempt) : c.pending = some attempt → TakesBack c attempt metrics now →
    SlotsAllowed c.engine (attempt.changes.restore attempt.previousConfig) →
    c'.engine = c.engine.reconfigured (attempt.changes.restore attempt.previousConfig) →
    Touched c.engine c'.engine → c'.pending = none →
    TickOutcome c metrics now (.ok (some .rolledBack) c')
  /-- The engine refuses to be set back, and changes nothing. -/
  | stuck (err attempt) : c.pending = some attempt → TakesBack c attempt metrics now →
    ¬(Positive (attempt.changes.restore attempt.previousConfig) ∧
      FlagsAllowed c.engine (attempt.changes.restore attempt.previousConfig)) →
    TickOutcome c metrics now (.error err c)
  /-- The scheduler refuses, and the other settings are set back. -/
  | halfway (err c' attempt) : c.pending = some attempt → TakesBack c attempt metrics now →
    Positive (attempt.changes.restore attempt.previousConfig) →
    FlagsAllowed c.engine (attempt.changes.restore attempt.previousConfig) →
    ¬SlotsAllowed c.engine (attempt.changes.restore attempt.previousConfig) →
    c' = { c with
      engine := c.engine.assigned (attempt.changes.restore attempt.previousConfig) } →
    Touched c.engine c'.engine → TickOutcome c metrics now (.error err c')

theorem tick_outcome (c : TuningController F Row) (metrics : MetricsSnapshot F) (now : F) :
    TickOutcome c metrics now ((tick metrics now).run c) := by
  have hrun := tick_run c metrics now
  generalize (tick metrics now).run c = result at hrun ⊢
  cases hrun with
  | idle c' hengine hpending _ hdue _ =>
    exact .quiet c' hengine hpending fun attempt ha hback => hdue attempt ha hback.1
  | unlabelled err c' hnone hengine hnone' _ _ =>
    exact .failed err c' hnone hnone' (Or.inl hengine) (Or.inl hengine)
  | refused err c' plan hoffer hrefused htouched hnone' _ =>
    obtain ⟨hnone, labels, hplan⟩ := exists_of_offered hoffer
    refine .failed err c' hnone hnone' ?_ htouched
    rcases hrefused with ⟨hsame, -⟩ | ⟨-, hpos, -, hslots⟩
    · exact Or.inl hsame
    · exact Or.inr ⟨plan, labels, hplan, hpos, hslots⟩
  | attempted c' plan attempt hoffer _ hengine htouched hpending hprevious hchanges _ =>
    obtain ⟨hnone, labels, hplan⟩ := exists_of_offered hoffer
    exact .attempted c' plan labels attempt hnone hplan hengine htouched hpending hprevious hchanges
  | promoted c' attempt hpending hkeep hengine hnone _ =>
    exact .promoted c' attempt hpending hkeep hengine hnone
  | rolledBack c' attempt details hpending hback haccepts hengine htouched hnone _ =>
    exact .rolledBack c' attempt hpending hback haccepts.2.2 hengine htouched hnone
  | kept err e' attempt hpending hback hrefused htouched =>
    rcases hrefused with ⟨rfl, hnot⟩ | ⟨rfl, hpos, hflags, hslots⟩
    · exact .stuck err attempt hpending hback hnot
    · exact .halfway err _ attempt hpending hback hpos hflags hslots rfl htouched

/-! ## What the ticks keep -/

variable {s : Tuned F Row} {metrics : MetricsSnapshot F} {now : F}

omit [OfScientific F] [Zero F] [Add F] [Mul F] [Div F] [LT F] [LE F] [DecidableLT F] [DecidableLE F]
  [Sub F] in
theorem Touched.sound {e e' : Engine Row} (ht : Touched e e') (hlive : Scheduler.Live e.scheduler)
    (hcached : RunsCached e) : Scheduler.Live e'.scheduler ∧ RunsCached e' := by
  rcases ht with rfl | ⟨changes, rfl⟩
  · exact ⟨hlive, hcached⟩
  · exact ⟨Engine.reconfigureWith_live hlive changes, hcached.reconfigureWith changes⟩

omit [Zero F] [Add F] [Mul F] [Div F] [LT F] [LE F] [DecidableLT F] [DecidableLE F] [Sub F] in
/-- Before there is a cache no request runs, so the scheduler accepts any positive number of
slots. -/
theorem slotsAllowed_of_uncached {e : Engine Row} (h : RunsCached e) (hnone : e.cache = none)
    (hpos : Positive changes) : SlotsAllowed e changes := by
  intro v hv
  have hempty := h hnone
  have hsize : e.scheduler.running.size = 0 := by
    have := congrArg List.length hempty
    rwa [OrderedDict.values, List.length_map] at this
  have hv' := hpos.1 v hv
  refine ⟨hv', Or.inr ⟨fun hc => by simp [hnone] at hc, by omega, fun r hr => ?_⟩⟩
  rw [hempty] at hr
  cases hr

omit [Zero F] [Add F] [Mul F] [Div F] [LT F] [LE F] [DecidableLT F] [DecidableLE F] [Sub F] in
/-- The scheduler accepts the number of slots of every plan. -/
theorem Tuned.Sound.slotsAllowed (h : s.Sound) {current : EngineConfig}
    (hplan : changes.Proposed current s.controller.engine.cache.isSome) (hpos : Positive changes) :
    SlotsAllowed s.controller.engine changes := by
  cases hc : s.controller.engine.cache with
  | none => exact slotsAllowed_of_uncached h.cached hc hpos
  | some c =>
    intro v hv
    rw [hplan.slots (by rw [hc]; rfl)] at hv
    cases hv

omit [Zero F] [Add F] [Mul F] [Div F] [LT F] [LE F] [DecidableLT F] [DecidableLE F] [Sub F] in
/-- A half roll back that assigns nothing. -/
theorem assigned_eq_self {e : Engine Row} (hflags : FlagsAllowed e changes)
    (hcache : e.cache.isSome = true) (hchunk : changes.prefillChunkSize = none)
    (hbudget : changes.maxTokensPerStep = none) : e.assigned changes = e := by
  obtain ⟨hpaged, hcaching⟩ := hflags hcache
  have hp : changes.usePagedKvCache.getD e.usePagedKvCache = e.usePagedKvCache := by
    cases hv : changes.usePagedKvCache with
    | none => rfl
    | some v => exact hpaged v hv
  have hq : changes.usePrefixCache.getD e.usePrefixCache = e.usePrefixCache := by
    cases hv : changes.usePrefixCache with
    | none => rfl
    | some v => exact hcaching v hv
  unfold Engine.assigned
  rw [hp, hq, hchunk, hbudget]
  rfl

omit [Zero F] [Add F] [Mul F] [Div F] [LT F] [LE F] [DecidableLT F] [DecidableLE F] [Sub F] in
/-- **A half roll back leaves neither configuration.** -/
theorem assigned_not_expected {e : Engine Row} {reference : EngineConfig}
    (hconfig : e.getConfig = reference.replace changes) (hdiffer : changes.Differ reference)
    (hgiven : changes.prefillChunkSize.isSome = true ∨ changes.maxTokensPerStep.isSome = true) :
    (e.assigned (changes.restore reference)).getConfig ≠ reference.replace changes := by
  rw [Engine.getConfig_assigned, hconfig]
  intro h
  rcases hgiven with hsome | hsome
  · obtain ⟨v, hv⟩ := Option.isSome_iff_exists.mp hsome
    refine hdiffer.prefillChunkSize v hv ?_
    have := congrArg EngineConfig.prefillChunkSize h
    simpa [EngineConfig.replace, EngineChanges.restore, hv] using this.symm
  · obtain ⟨v, hv⟩ := Option.isSome_iff_exists.mp hsome
    refine hdiffer.maxTokensPerStep v hv ?_
    have := congrArg EngineConfig.maxTokensPerStep h
    simpa [EngineConfig.replace, EngineChanges.restore, hv] using this.symm

/-- **A tick leaves the engine with the expected configuration exactly if no attempt is taken back
by halves.** -/
theorem Tuned.Sound.ticked (h : s.Sound) (metrics : MetricsSnapshot F) (now : F) :
    ((s.ticked metrics now).Transactional ↔ Reverts s.controller metrics now) ∧
      (Reverts s.controller metrics now → (s.ticked metrics now).Sound) := by
  suffices hsuff : (Reverts s.controller metrics now ∧ (s.ticked metrics now).Sound) ∨
      (¬Reverts s.controller metrics now ∧ ¬(s.ticked metrics now).Transactional) by
    rcases hsuff with ⟨hr, hs⟩ | ⟨hr, hs⟩
    · exact ⟨iff_of_true hs.transactional hr, fun _ => hs⟩
    · exact ⟨iff_of_false hs hr, fun hr' => absurd hr' hr⟩
  have hout := tick_outcome s.controller metrics now
  have hconfig := h.transactional
  unfold Tuned.ticked
  simp only
  unfold Tuned.Transactional Tuned.expected at hconfig ⊢
  generalize (tick metrics now).run s.controller = result at hout
  cases hout with
  | quiet c' hengine hpending hkeep =>
    refine Or.inl ⟨fun attempt ha hback => absurd hback (hkeep attempt ha), ?_⟩
    exact ⟨hengine ▸ h.live, hengine ▸ h.cached, by
      unfold Tuned.Transactional Tuned.expected
      simp only [Exec.stateOf_ok, referenceAfter, hpending, hengine]
      exact hconfig, fun attempt ha => h.pending attempt (hpending ▸ ha)⟩
  | failed err c' hnone hnone' hwhy htouched =>
    refine Or.inl ⟨fun attempt ha => by (rw [hnone] at ha; cases ha), ?_⟩
    -- no plan that `propose` makes asks for slots that the engine refuses
    have hengine : c'.engine = s.controller.engine := by
      rcases hwhy with hsame | ⟨plan, labels, hplan, hpos, hslots⟩
      · exact hsame
      · exact absurd (h.slotsAllowed (TuningPolicy.propose_sound hplan).2 hpos) hslots
    rw [hnone] at hconfig
    exact ⟨hengine ▸ h.live, hengine ▸ h.cached, by
      unfold Tuned.Transactional Tuned.expected
      simp only [Exec.stateOf_error, referenceAfter, hnone', hengine]
      exact hconfig, fun attempt ha => by (rw [Exec.stateOf_error, hnone'] at ha; cases ha)⟩
  | attempted c' plan labels attempt hnone hplan hengine htouched hpending hprevious hchanges =>
    refine Or.inl ⟨fun attempt ha => by (rw [hnone] at ha; cases ha), ?_⟩
    obtain ⟨hlive, hcached⟩ := htouched.sound h.live h.cached
    rw [hnone] at hconfig
    simp only at hconfig
    refine ⟨hlive, hcached, ?_, fun attempt' ha => ?_⟩
    · unfold Tuned.Transactional Tuned.expected
      simp only [Exec.stateOf_ok, referenceAfter, hpending, hengine, hchanges]
      rw [Engine.getConfig_reconfigured, hconfig]
    · rw [Exec.stateOf_ok, hpending] at ha
      cases ha
      refine ⟨hprevious.trans hconfig, ?_⟩
      simp only [referenceAfter, hchanges]
      have hdiffer := (TuningPolicy.propose_sound hplan).2.differ
      rw [hconfig] at hdiffer
      exact hdiffer
  | promoted c' attempt hpending hkeep hengine hnone =>
    refine Or.inl ⟨fun attempt' ha hback => ?_, ?_⟩
    · cases hpending.symm.trans ha
      exact absurd hback hkeep
    · rw [hpending] at hconfig
      exact ⟨hengine ▸ h.live, hengine ▸ h.cached, by
        unfold Tuned.Transactional Tuned.expected
        simp only [Exec.stateOf_ok, referenceAfter, hpending, hnone, hengine]
        exact hconfig, fun attempt ha => by (rw [Exec.stateOf_ok, hnone] at ha; cases ha)⟩
  | rolledBack c' attempt hpending hback hslots hengine htouched hnone =>
    obtain ⟨hprevious, -⟩ := h.pending attempt hpending
    refine Or.inl ⟨fun attempt' ha _ hhalf => ?_, ?_⟩
    · cases hpending.symm.trans ha
      exact hhalf.2.2.1 hslots
    · obtain ⟨hlive, hcached⟩ := htouched.sound h.live h.cached
      rw [hpending] at hconfig
      exact ⟨hlive, hcached, by
        unfold Tuned.Transactional Tuned.expected
        simp only [Exec.stateOf_ok, referenceAfter, hnone, hengine]
        rw [Engine.getConfig_reconfigured, hconfig, hprevious, EngineConfig.replace_restore],
        fun attempt ha => by (rw [Exec.stateOf_ok, hnone] at ha; cases ha)⟩
  | stuck err attempt hpending hback hnot =>
    refine Or.inl ⟨fun attempt' ha _ hhalf => ?_, h.live, h.cached, hconfig, h.pending⟩
    cases hpending.symm.trans ha
    exact hnot ⟨hhalf.1, hhalf.2.1⟩
  | halfway err c' attempt hpending hback hpos hflags hslots hc' htouched =>
    obtain ⟨hprevious, hdiffer⟩ := h.pending attempt hpending
    rw [hpending] at hconfig
    by_cases hgiven : attempt.changes.prefillChunkSize.isSome = true ∨
        attempt.changes.maxTokensPerStep.isSome = true
    · -- some old values are set again and some are not
      refine Or.inr ⟨fun hr => hr attempt hpending hback ⟨hpos, hflags, hslots, hgiven⟩, ?_⟩
      subst hc'
      simp only [Exec.stateOf_error, referenceAfter, hpending]
      rw [hprevious]
      exact assigned_not_expected hconfig hdiffer hgiven
    · -- the engine is as before, and the attempt stays pending
      obtain ⟨hchunk, hbudget⟩ := not_or.mp hgiven
      have hcache : s.controller.engine.cache.isSome = true := by
        by_contra hnone
        exact hslots (slotsAllowed_of_uncached h.cached (Option.not_isSome_iff_eq_none.mp hnone)
          hpos)
      have hsame := assigned_eq_self hflags hcache
        (by simp [EngineChanges.restore, Option.not_isSome_iff_eq_none.mp hchunk])
        (by simp [EngineChanges.restore, Option.not_isSome_iff_eq_none.mp hbudget])
      rw [hsame] at hc'
      subst hc'
      refine Or.inl ⟨fun attempt' ha _ hhalf => ?_, h.live, h.cached, ?_, h.pending⟩
      · cases hpending.symm.trans ha
        exact hgiven hhalf.2.2.2
      · unfold Tuned.Transactional Tuned.expected
        simp only [Exec.stateOf_error, referenceAfter, hpending]
        exact hconfig

/-! ## Runs -/

variable [LinearOrder Score] {chain : Int → List Nat → Int} {model : InferenceModel Row Score}

/-- The state after an event, with the reference configuration. -/
def Tuned.next (chain : Int → List Nat → Int) (model : InferenceModel Row Score) (s : Tuned F Row) :
    Event F → Tuned F Row
  | .tick metrics now => s.ticked metrics now
  | .setGoal goal =>
    { s with controller := TuningController.next chain model s.controller (.setGoal goal) }
  | .engine op => { s with controller := TuningController.next chain model s.controller (.engine op) }

/-- The reference configuration is only observed. -/
theorem Tuned.next_controller (s : Tuned F Row) (ev : Event F) :
    (s.next chain model ev).controller = TuningController.next chain model s.controller ev := by
  cases ev <;> rfl

/-- Nobody but the controller reconfigures the engine. -/
def Event.Unshared : Event F → Prop
  | .engine op => ¬op.Reconfigures
  | _ => True

instance : ∀ ev : Event F, Decidable ev.Unshared
  | .engine op => inferInstanceAs (Decidable ¬op.Reconfigures)
  | .tick .. | .setGoal _ => inferInstanceAs (Decidable True)

/-- The event is not a tick that takes an attempt back by halves. -/
def Event.Whole (s : Tuned F Row) : Event F → Prop
  | .tick metrics now => Reverts s.controller metrics now
  | _ => True

instance (s : Tuned F Row) : ∀ ev : Event F, Decidable (ev.Whole s)
  | .tick metrics now => inferInstanceAs (Decidable (Reverts s.controller metrics now))
  | .setGoal _ | .engine _ => inferInstanceAs (Decidable True)

theorem Tuned.Sound.next (h : s.Sound) {ev : Event F} (hev : ev.Unshared) :
    ((s.next chain model ev).Transactional ↔ ev.Whole s) ∧
      (ev.Whole s → (s.next chain model ev).Sound) := by
  have hkept : (s.next chain model ev).Sound → ev.Whole s →
      ((s.next chain model ev).Transactional ↔ ev.Whole s) ∧
        (ev.Whole s → (s.next chain model ev).Sound) :=
    fun hs hw => ⟨iff_of_true hs.transactional hw, fun _ => hs⟩
  cases ev with
  | tick metrics now => exact h.ticked metrics now
  | setGoal goal => exact hkept ⟨h.live, h.cached, h.transactional, h.pending⟩ trivial
  | engine op =>
    refine hkept ⟨Engine.next_live h.live op, h.cached.next h.live op, ?_, h.pending⟩ trivial
    exact (Engine.next_getConfig h.live hev).trans h.transactional

omit [Zero F] [Add F] [Mul F] [Div F] [LT F] [LE F] [DecidableLT F] [DecidableLE F] [Sub F] in
/-- What holds of the engine when the controller starts. -/
theorem sound_start {maxConcurrentRequests prefillChunkSize maxTokensPerStep : Int}
    {usePagedKvCache usePrefixCache : Bool} {e : Engine Row}
    (hnew : Engine.new model maxConcurrentRequests prefillChunkSize maxTokensPerStep usePagedKvCache
      usePrefixCache = .ok e) (ops : List Engine.Op) {c : TuningController F Row}
    (hengine : c.engine = ops.foldl (Engine.next chain model) e) (hpending : c.pending = none) :
    Tuned.Sound ⟨c.engine.getConfig, c⟩ := by
  have hempty : e.scheduler.running.values = [] := by
    obtain ⟨scheduler, hs, he⟩ := Exec.bind_eq_ok hnew
    cases he
    unfold Scheduler.new at hs
    split at hs
    · cases hs
    · split at hs
      · cases hs
      · cases hs
        rfl
  have hrun : ∀ ops : List Engine.Op, ∀ e : Engine Row, Scheduler.Live e.scheduler →
      RunsCached e → Scheduler.Live (ops.foldl (Engine.next chain model) e).scheduler ∧
        RunsCached (ops.foldl (Engine.next chain model) e) := by
    intro ops
    induction ops with
    | nil => exact fun e hl hc => ⟨hl, hc⟩
    | cons op ops ih => exact fun e hl hc => ih _ (Engine.next_live hl op) (hc.next hl op)
  obtain ⟨hlive, hcached⟩ := hrun ops e (Engine.new_live hnew) fun _ => hempty
  refine ⟨hengine ▸ hlive, hengine ▸ hcached, ?_, fun attempt ha => ?_⟩
  · unfold Tuned.Transactional Tuned.expected
    rw [hpending]
  · rw [hpending] at ha
    cases ha

/-- **The engine has the expected configuration after every event of a run exactly as long as no
attempt is taken back by halves.** -/
theorem transactional_iff {model : InferenceModel Row Score}
    {maxConcurrentRequests prefillChunkSize maxTokensPerStep : Int}
    {usePagedKvCache usePrefixCache : Bool} {e : Engine Row}
    (hnew : Engine.new model maxConcurrentRequests prefillChunkSize maxTokensPerStep usePagedKvCache
      usePrefixCache = .ok e) {ops : List Engine.Op} {c : TuningController F Row}
    (hengine : c.engine = ops.foldl (Engine.next chain model) e) (hpending : c.pending = none)
    {events : List (Event F)} (hunshared : ∀ ev ∈ events, ev.Unshared) :
    Exec.Along (fun s ev => (Tuned.next chain model s ev).Transactional) (Tuned.next chain model)
        ⟨c.engine.getConfig, c⟩ events ↔
      Exec.Along (fun s ev => ev.Whole s) (Tuned.next chain model) ⟨c.engine.getConfig, c⟩ events := by
  exact Exec.Along.congr (J := Tuned.Sound) (L := fun _ ev => ev.Unshared)
    (fun s ev h hev => h.next hev) (sound_start hnew ops hengine hpending)
    (Exec.along_of_forall hunshared)

/-! ## A roll back by halves -/

/-- What the metrics say, with two requests in the queue. -/
def queueMetrics (timestamp tokensPerSec : ℚ) : MetricsSnapshot ℚ where
  timestamp := some timestamp
  queuedRequests := some 2
  activeRequests := some 1
  completedRequests := some 1
  ttftP95Ms := some 100
  tokensPerSec := some tokensPerSec

/-- The queue stays high and the throughput is low at last, so an attempt is made; then there is work
for the engine; then the attempt is due, and nothing got better. -/
def evaluatedAfter (work : List Engine.Op) : List (Event ℚ) :=
  [.tick (queueMetrics 100 20) 100, .tick (queueMetrics 130 20) 130, .tick (queueMetrics 160 5) 160]
    ++ work.map .engine ++ [.tick (queueMetrics 220 5) 220]

/-- The engine is filled with requests, or runs only one. -/
def fillSlots : List Engine.Op :=
  [.addRequest "a" [1, 2] 4, .addRequest "b" [3, 4] 4, .step]

/-- **The roll back raises after it has assigned the token budget.** -/
theorem fillSlots_notTransactional :
    ∃ e, Engine.new (recallModel ⟨1, 8, 0, 2⟩ sumScores) 1 128 2048 true true = .ok e ∧
      let c : TuningController ℚ Nat := { engine := e, goal := .throughput }
      (∀ ev ∈ evaluatedAfter fillSlots, ev.Unshared) ∧
        ¬Exec.Along (fun s ev => (Tuned.next PagedKVCache.sumChain
            (recallModel ⟨1, 8, 0, 2⟩ sumScores) s ev).Transactional)
          (Tuned.next PagedKVCache.sumChain (recallModel ⟨1, 8, 0, 2⟩ sumScores))
          ⟨e.getConfig, c⟩ (evaluatedAfter fillSlots) := by
  refine ⟨_, rfl, ?_⟩
  decide +kernel

theorem oneRequest_transactional :
    ∃ e, Engine.new (recallModel ⟨1, 8, 0, 2⟩ sumScores) 1 128 2048 true true = .ok e ∧
      let c : TuningController ℚ Nat := { engine := e, goal := .throughput }
      let events := evaluatedAfter [.addRequest "a" [1, 2] 4, .step]
      Exec.Along (fun s ev => (Tuned.next PagedKVCache.sumChain
          (recallModel ⟨1, 8, 0, 2⟩ sumScores) s ev).Transactional)
        (Tuned.next PagedKVCache.sumChain (recallModel ⟨1, 8, 0, 2⟩ sumScores))
        ⟨e.getConfig, c⟩ events := by
  obtain ⟨e, h⟩ : ∃ e, Engine.new (recallModel ⟨1, 8, 0, 2⟩ sumScores) 1 128 2048 true true
    = .ok e := ⟨_, rfl⟩
  refine ⟨e, h, ?_⟩
  intro c events
  have hstart : c.engine = ([] : List Engine.Op).foldl (Engine.next PagedKVCache.sumChain
      (recallModel ⟨1, 8, 0, 2⟩ sumScores)) e := rfl
  refine (transactional_iff h hstart rfl ?_).mpr ?_
  · decide
  · cases h
    decide +kernel

end TuningController

end Nifre
