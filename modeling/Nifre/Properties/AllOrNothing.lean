import Nifre.Properties.Reconfigure
import Nifre.Properties.ContinuousBatching

/-!
# All or nothing

A reconfiguration that returns has put every setting that is named into effect, in the engine and
in the scheduler, and nothing else. One that raises has changed nothing, unless it is the scheduler
that refuses, after another setting has been assigned.
-/

namespace Nifre

namespace Scheduler

variable {Tok : Type} {s : Scheduler Tok}

theorem mem_addSlots {freeSlots : List Nat} {oldMax newMax b : Nat} :
    b ∈ addSlots freeSlots oldMax newMax ↔ b ∈ freeSlots ∨ (oldMax ≤ b ∧ b < newMax) := by
  have hgen : ∀ (slots free : List Nat), b ∈ slots.foldl
      (fun free slot => if slot ∈ free then free else free ++ [slot]) free ↔
        b ∈ free ∨ b ∈ slots := by
    intro slots
    induction slots with
    | nil => simp
    | cons slot slots ih =>
      intro free
      rw [List.foldl_cons, ih, List.mem_cons]
      by_cases hslot : slot ∈ free
      · rw [if_pos hslot]
        constructor
        · rintro (h | h)
          · exact Or.inl h
          · exact Or.inr (Or.inr h)
        · rintro (h | rfl | h)
          · exact Or.inl h
          · exact Or.inl hslot
          · exact Or.inr h
      · rw [if_neg hslot, List.mem_append, List.mem_singleton, or_assoc]
  rw [addSlots, hgen, List.mem_range'_1]
  have hrange : oldMax ≤ b ∧ b < oldMax + (newMax - oldMax) ↔ oldMax ≤ b ∧ b < newMax := by omega
  rw [hrange]

/-- The free slots after a change of their number: those that are left, and the new ones. -/
theorem mem_withMax_freeSlots {newMax : Int} (hpos : 0 < newMax) {b : Nat} :
    b ∈ (s.withMax newMax).freeSlots ↔
      (b ∈ s.freeSlots ∧ (newMax < s.maxConcurrentRequests → (b : Int) < newMax)) ∨
        ((s.maxConcurrentRequests : Int) ≤ b ∧ (b : Int) < newMax) := by
  unfold withMax
  split
  · next hsame =>
    constructor
    · exact fun h => Or.inl ⟨h, fun hlt => by omega⟩
    · rintro (⟨h, -⟩ | h)
      · exact h
      · omega
  · next hne =>
    simp only [resized, List.mem_insertionSort]
    split
    · next hlt =>
      rw [mem_addSlots]
      constructor
      · rintro (h | h)
        · exact Or.inl ⟨h, fun hshrink => by omega⟩
        · exact Or.inr (by omega)
      · rintro (⟨h, -⟩ | h)
        · exact Or.inl h
        · exact Or.inr (by omega)
    · next hge =>
      rw [List.mem_filter, decide_eq_true_iff]
      constructor
      · exact fun ⟨h, hlt⟩ => Or.inl ⟨h, fun _ => by omega⟩
      · rintro (⟨h, hlt⟩ | h)
        · exact ⟨h, by have := hlt (by omega); omega⟩
        · omega

end Scheduler

namespace Engine

variable {Row : Type} {e e' : Engine Row} {changes : EngineChanges}

/-! ## The two outcomes -/

/-- What a call that raised must leave alone. -/
structure Untouched (e e' : Engine Row) : Prop where
  config : e'.getConfig = e.getConfig
  scheduler : e'.scheduler = e.scheduler

/-- What a call that returned must have done: every setting that is named is in effect in the
engine and in the scheduler, and the rest is as before. -/
structure InEffect (e : Engine Row) (changes : EngineChanges) (e' : Engine Row) : Prop where
  config : e'.getConfig = e.getConfig.replace changes
  budget : e'.scheduler.maxTokensPerStep
    = changes.maxTokensPerStep.getD e.scheduler.maxTokensPerStep
  slots : (e'.scheduler.maxConcurrentRequests : Int)
    = changes.maxConcurrentRequests.getD e.scheduler.maxConcurrentRequests
  unnamedSlots : changes.maxConcurrentRequests = none →
    e'.scheduler.freeSlots = e.scheduler.freeSlots
  freeSlots : ∀ newMax, changes.maxConcurrentRequests = some newMax → ∀ b : Nat,
    b ∈ e'.scheduler.freeSlots ↔
      (b ∈ e.scheduler.freeSlots ∧
        (newMax < e.scheduler.maxConcurrentRequests → (b : Int) < newMax)) ∨
      ((e.scheduler.maxConcurrentRequests : Int) ≤ b ∧ (b : Int) < newMax)
  waiting : e'.scheduler.waiting = e.scheduler.waiting
  running : e'.scheduler.running = e.scheduler.running
  completed : e'.scheduler.completed = e.scheduler.completed
  failed : e'.scheduler.failed = e.scheduler.failed
  requests : e'.scheduler.requests = e.scheduler.requests

/-- The call does everything or nothing. -/
structure AllOrNothing (e : Engine Row) (changes : EngineChanges) : Prop where
  returns : ∀ config e', (reconfigureWith changes).run e = .ok config e' →
    config = e'.getConfig ∧ InEffect e changes e'
  raises : ∀ msg e', (reconfigureWith changes).run e = .error (.valueError msg) e' →
    Untouched e e'

/-- A setting other than the number of slots is named with a new value. -/
def NamesAnother (e : Engine Row) (changes : EngineChanges) : Prop :=
  changes.usePagedKvCache.getD e.usePagedKvCache ≠ e.usePagedKvCache ∨
    changes.usePrefixCache.getD e.usePrefixCache ≠ e.usePrefixCache ∨
    changes.prefillChunkSize.getD e.prefillChunkSize ≠ e.prefillChunkSize ∨
    changes.maxTokensPerStep.getD e.maxTokensPerStep ≠ e.maxTokensPerStep ∨
    changes.maxTokensPerStep.getD e.scheduler.maxTokensPerStep ≠ e.scheduler.maxTokensPerStep

/-- The scheduler refuses the number of slots after another setting has been assigned. -/
def Splits (e : Engine Row) (changes : EngineChanges) : Prop :=
  Positive changes ∧ FlagsAllowed e changes ∧ ¬SlotsAllowed e changes ∧ NamesAnother e changes

instance (e : Engine Row) (changes : EngineChanges) : Decidable (NamesAnother e changes) :=
  inferInstanceAs (Decidable (_ ∨ _ ∨ _ ∨ _ ∨ _))

instance (e : Engine Row) (changes : EngineChanges) : Decidable (Splits e changes) :=
  inferInstanceAs (Decidable (_ ∧ _ ∧ _ ∧ _))

/-! ## What is raised -/

/-- The exception is a `ValueError`. -/
def IsValueError (err : PyError) : Prop := ∃ msg, err = .valueError msg

theorem checkPositive_throws (name : String) (o : Option Int) (err : PyError)
    (h : checkPositive name o = .error err) : IsValueError err := by
  cases o with
  | none => cases h
  | some v =>
    unfold checkPositive at h
    simp only at h
    split at h
    · cases h
      exact ⟨_, rfl⟩
    · cases h

theorem validateEngineConfig_throws {slots chunk budget : Option Int} {err : PyError}
    (h : validateEngineConfig slots chunk budget = .error err) : IsValueError err := by
  unfold validateEngineConfig at h
  cases hs : checkPositive "max_concurrent_requests" slots with
  | error err' =>
    rw [hs] at h
    cases h
    exact checkPositive_throws _ _ _ hs
  | ok _ =>
    rw [hs] at h
    cases hc : checkPositive "prefill_chunk_size" chunk with
    | error err' =>
      rw [hc] at h
      cases h
      exact checkPositive_throws _ _ _ hc
    | ok _ =>
      rw [hc] at h
      exact checkPositive_throws _ _ _ h

theorem applyMaxConcurrent_throws {Tok : Type} (newMax : Int) (cacheInitialized : Bool) :
    Exec.Throws IsValueError (Scheduler.applyMaxConcurrent newMax cacheInitialized :
      Scheduler.M Tok Unit) := by
  refine Exec.Throws.ite (Exec.Throws.throw ⟨_, rfl⟩) (Exec.Throws.get_bind fun s => ?_)
  refine Exec.Throws.ite (Exec.Throws.pure _) (Exec.Throws.ite (Exec.Throws.throw ⟨_, rfl⟩)
    (Exec.Throws.ite (Exec.Throws.throw ⟨_, rfl⟩) ?_))
  split
  · exact Exec.Throws.throw ⟨_, rfl⟩
  · exact fun _ _ _ h => by cases h

theorem schedulerReconfigure_throws {Tok : Type} (budget slots : Option Int)
    (cacheInitialized : Bool) : Exec.Throws IsValueError
      (Scheduler.reconfigure budget slots cacheInitialized : Scheduler.M Tok Unit) := by
  cases slots with
  | none =>
    cases budget with
    | none => exact Exec.Throws.pure _
    | some v =>
      exact Exec.Throws.ite (Exec.Throws.bind (Exec.Throws.throw ⟨_, rfl⟩) fun _ =>
        Exec.Throws.pure _) (Exec.Throws.bind (Exec.Throws.modify _) fun _ => Exec.Throws.pure _)
  | some n =>
    have hslots := @applyMaxConcurrent_throws Tok n cacheInitialized
    cases budget with
    | none => exact hslots
    | some v =>
      exact Exec.Throws.ite (Exec.Throws.bind (Exec.Throws.throw ⟨_, rfl⟩) fun _ => hslots)
        (Exec.Throws.bind (Exec.Throws.modify _) fun _ => hslots)

theorem setFlag_throws (name : String) (current : Engine Row → Bool)
    (assign : Bool → Engine Row → Engine Row) (cacheInitialized : Bool) (o : Option Bool) :
    Exec.Throws IsValueError (setFlag name current assign cacheInitialized o) := by
  cases o with
  | none => exact Exec.Throws.pure _
  | some v =>
    exact Exec.Throws.get_bind fun e => Exec.Throws.ite
      (Exec.Throws.ite (Exec.Throws.throw ⟨_, rfl⟩) (Exec.Throws.modify _)) (Exec.Throws.pure _)

theorem assignSome_throws {α : Type} (assign : α → Engine Row → Engine Row) (o : Option α) :
    Exec.Throws IsValueError (assignSome assign o) := by
  cases o with
  | none => exact Exec.Throws.pure _
  | some v => exact Exec.Throws.modify _

/-- **A reconfiguration raises nothing but a `ValueError`.** -/
theorem reconfigureWith_throws (changes : EngineChanges) :
    Exec.Throws IsValueError (reconfigureWith changes : M Row EngineConfig) := by
  refine Exec.Throws.bind
    (Exec.Throws.ofExcept fun _ h => validateEngineConfig_throws h) fun _ => ?_
  refine Exec.Throws.get_bind fun e => ?_
  refine Exec.Throws.bind (setFlag_throws _ _ _ _ _) fun _ => ?_
  refine Exec.Throws.bind (setFlag_throws _ _ _ _ _) fun _ => ?_
  refine Exec.Throws.bind (assignSome_throws _ _) fun _ => ?_
  refine Exec.Throws.bind (assignSome_throws _ _) fun _ => ?_
  refine Exec.Throws.bind ?_ fun _ => Exec.Throws.get_bind fun _ => Exec.Throws.pure _
  exact Exec.Throws.ite
    (Exec.Throws.bind (Exec.Throws.within (schedulerReconfigure_throws _ _ _)) fun _ =>
      assignSome_throws _ _) (Exec.Throws.pure _)

/-! ## When it is all or nothing -/

/-- A call that returns is in effect. -/
theorem inEffect_reconfigured (hpos : Positive changes) :
    InEffect e changes (e.reconfigured changes) := by
  have hconfig : (e.reconfigured changes).getConfig = e.getConfig.replace changes := by
    unfold reconfigured EngineConfig.replace
    cases changes.maxConcurrentRequests <;> rfl
  unfold reconfigured at hconfig ⊢
  cases hv : changes.maxConcurrentRequests with
  | none =>
    rw [hv] at hconfig
    exact ⟨hconfig, rfl, by rw [hv]; rfl, fun _ => rfl,
      fun newMax h => (by rw [hv] at h; cases h), rfl, rfl, rfl, rfl, rfl⟩
  | some v =>
    rw [hv] at hconfig
    have hv0 := hpos.1 v hv
    have hmax : (((e.assigned changes).scheduler.withMax v).maxConcurrentRequests : Int) = v := by
      unfold Scheduler.withMax
      split
      · next hsame => exact hsame.symm
      · exact Int.toNat_of_nonneg (Int.le_of_lt hv0)
    -- the queues do not depend on the number of slots
    have hsame : ∀ {β : Type} (f : Scheduler Nat → β),
        (∀ s n, f (Scheduler.resized s n) = f s) →
        f ((e.assigned changes).scheduler.withMax v) = f (e.assigned changes).scheduler := by
      intro β f hf
      unfold Scheduler.withMax
      split
      · rfl
      · exact hf _ _
    refine ⟨hconfig, ?_, ?_, fun h => (by rw [hv] at h; cases h), fun newMax h b => ?_, ?_, ?_, ?_,
      ?_, ?_⟩
    · exact hsame (fun s => s.maxTokensPerStep) fun _ _ => rfl
    · rw [hv]
      exact hmax
    · rw [hv] at h
      cases h
      exact Scheduler.mem_withMax_freeSlots hv0
    · exact hsame (fun s => s.waiting) fun _ _ => rfl
    · exact hsame (fun s => s.running) fun _ _ => rfl
    · exact hsame (fun s => s.completed) fun _ _ => rfl
    · exact hsame (fun s => s.failed) fun _ _ => rfl
    · exact hsame (fun s => s.requests) fun _ _ => rfl

/-- The settings before the scheduler refuses are the old ones if no other is named. -/
theorem untouched_assigned_iff : Untouched e (e.assigned changes) ↔ ¬NamesAnother e changes := by
  constructor
  · rintro ⟨hconfig, hscheduler⟩ hother
    rcases hother with h | h | h | h | h
    · exact h (congrArg EngineConfig.usePagedKvCache hconfig)
    · exact h (congrArg EngineConfig.usePrefixCache hconfig)
    · exact h (congrArg EngineConfig.prefillChunkSize hconfig)
    · exact h (congrArg EngineConfig.maxTokensPerStep hconfig)
    · exact h (congrArg Scheduler.maxTokensPerStep hscheduler)
  · intro h
    simp only [NamesAnother, not_or, not_not] at h
    obtain ⟨hpaged, hprefix, hchunk, hbudget, hscheduler⟩ := h
    refine ⟨?_, ?_⟩
    · simp only [getConfig, assigned, hpaged, hprefix, hchunk, hbudget]
    · simp only [assigned, hscheduler]

/-- The method returns, or the scheduler refuses, or nothing has been assigned yet. -/
theorem allOrNothing_cases (e : Engine Row) (changes : EngineChanges) :
    (Splits e changes ∧ ¬AllOrNothing e changes) ∨
      (¬Splits e changes ∧ AllOrNothing e changes) := by
  have hout := reconfigure_outcome e changes
  have hthrows := @reconfigureWith_throws Row changes e
  generalize hrun : (reconfigureWith changes).run e = result at hout hthrows
  cases hout with
  | refused err hnot =>
    refine Or.inr ⟨fun h => hnot ⟨h.1, h.2.1⟩, fun config e' h => ?_, fun msg e' h => ?_⟩
    · rw [hrun] at h
      cases h
    · rw [hrun] at h
      cases h
      exact ⟨rfl, rfl⟩
  | halfway err hpos hflags hslots =>
    obtain ⟨msg, rfl⟩ := hthrows err _ rfl
    by_cases hother : NamesAnother e changes
    · -- the budget, the chunk or a flag has been assigned by then
      refine Or.inl ⟨⟨hpos, hflags, hslots, hother⟩, fun h => ?_⟩
      exact untouched_assigned_iff.mp (h.raises msg _ hrun) hother
    · refine Or.inr ⟨fun h => hother h.2.2.2, fun config e' h => ?_, fun msg' e' h => ?_⟩
      · rw [hrun] at h
        cases h
      · rw [hrun] at h
        cases h
        exact untouched_assigned_iff.mpr hother
  | done hpos hflags hslots =>
    refine Or.inr ⟨fun h => h.2.2.1 hslots, fun config e' h => ?_, fun msg e' h => ?_⟩
    · rw [hrun] at h
      cases h
      exact ⟨rfl, inEffect_reconfigured hpos⟩
    · rw [hrun] at h
      cases h

/-- **`reconfigure` is all or nothing exactly when it does not split**, from every state. -/
theorem allOrNothing_iff (e : Engine Row) (changes : EngineChanges) :
    AllOrNothing e changes ↔ ¬Splits e changes := by
  rcases allOrNothing_cases e changes with ⟨hsplit, hnot⟩ | ⟨hsplit, hall⟩
  · exact iff_of_false hnot fun h => h hsplit
  · exact iff_of_true hall hsplit

/-- More slots and a smaller budget. -/
def grownTooLate : EngineChanges where
  maxTokensPerStep := some 1024
  maxConcurrentRequests := some 4

/-- The calls that make the engine's cache. -/
def servedOnce : List Op := [.addRequest "a" [1, 2] 2, .step]

/-- The call raises, and the engine and the scheduler have the new budget. -/
theorem grownTooLate_split :
    ∃ e, Engine.new (recallModel ⟨1, 8, 0, 2⟩ sumScores) 2 128 2048 true true = .ok e ∧
      ¬AllOrNothing (servedOnce.foldl
        (Engine.next (fun _ _ => 0) (recallModel ⟨1, 8, 0, 2⟩ sumScores)) e) grownTooLate := by
  refine ⟨_, rfl, ?_⟩
  rcases allOrNothing_cases _ grownTooLate with ⟨-, hnot⟩ | ⟨hsplit, -⟩
  · exact hnot
  · exact absurd (by decide +kernel) hsplit

end Engine

end Nifre
