import Nifre.Properties.CacheShape
import Nifre.Properties.DistinctIds

/-!
# Capacity

The number of slots is stored in the engine and in the scheduler, and once there is a cache it has
a number of slots of its own. The three agree in every run, also after a call that raises. The
number of slots grows only by a reconfiguration that asks for more before there is a cache.
-/

namespace Nifre

variable {Row Score : Type}

/-- The slot is free, or a running request holds it. -/
def Scheduler.Offers (s : Scheduler Nat) (b : Nat) : Prop :=
  b ∈ s.freeSlots ∨ ∃ r ∈ s.running.values, (s.requests r).batchIdx = some b

instance (s : Scheduler Nat) (b : Nat) : Decidable (s.Offers b) :=
  inferInstanceAs (Decidable (_ ∨ ∃ r ∈ s.running.values, _))

theorem Scheduler.Inv.offers_lt {s : Scheduler Nat} (h : Inv s) {b : Nat} (hb : s.Offers b) :
    b < s.maxConcurrentRequests := by
  rcases hb with hfree | ⟨r, hr, hslot⟩
  · exact h.free_lt hfree
  · exact h.running_slot_lt hr hslot

namespace Engine

open Scheduler (Inv)

/-- The number of slots that a call asks for. -/
def Op.slotsAsked : Op → Option Int
  | .reconfigure _ _ maxConcurrentRequests _ _ => maxConcurrentRequests
  | _ => none

/-- Engine, scheduler and cache agree. -/
structure Agrees (e : Engine Row) : Prop where
  scheduler : Inv e.scheduler
  slots : e.maxConcurrentRequests = e.scheduler.maxConcurrentRequests
  budget : e.maxTokensPerStep = e.scheduler.maxTokensPerStep
  cache : ∀ c, e.cache = some c → e.scheduler.maxConcurrentRequests ≤ c.batchSize

/-- They agree, on `n` slots. -/
structure AgreesOn (n : Nat) (e : Engine Row) : Prop extends Agrees e where
  number : e.scheduler.maxConcurrentRequests = n

variable {e : Engine Row} {n : Nat}

/-- The scheduler changed, in neither of the two settings. -/
theorem AgreesOn.withScheduler (h : AgreesOn n e) {s : Scheduler Nat} (hinv : Inv s)
    (hslots : s.maxConcurrentRequests = e.scheduler.maxConcurrentRequests)
    (hbudget : s.maxTokensPerStep = e.scheduler.maxTokensPerStep) :
    AgreesOn n { e with scheduler := s } where
  scheduler := hinv
  slots := h.slots.trans (congrArg _ hslots.symm)
  budget := h.budget.trans hbudget.symm
  cache := fun c hc => hslots ▸ h.cache c hc
  number := hslots.trans h.number

/-! ## A step -/

theorem AgreesOn.handled (h : AgreesOn n e) {r : Ref} (hr : r < e.scheduler.created)
    (hd : (e.scheduler.requests r).state = .decode) (tokenId : Nat) :
    AgreesOn n (handled e r tokenId) := by
  obtain ⟨s', hmark, hinv, hslots, hbudget⟩ := h.scheduler.decoded hr hd tokenId
  unfold Engine.handled
  rw [hmark]
  exact { h.withScheduler hinv hslots hbudget with }

variable [LinearOrder Score] {chain : Int → List Nat → Int} {model : InferenceModel Row Score}

omit [LinearOrder Score] in
/-- **What a step does keeps them in agreement**, and the cache is made with a slot for each. -/
theorem stepClosed_agreesOn (model : InferenceModel Row Score) (n : Nat) :
    StepClosed model (fun c c' => c'.batchSize = c.batchSize) (AgreesOn n) where
  made := fun e c h _ hmake => by
    refine { h with cache := fun c' hc' => ?_ }
    cases hc'
    rw [makeCache_size hmake, h.slots, Int.toNat_natCast]
  cache := fun e c c' h hc hsize => by
    refine { h with cache := fun c'' hc'' => ?_ }
    cases hc''
    rw [hsize]
    exact h.cache c hc
  forward := fun e requests _ h hf => h.withScheduler
    (h.scheduler.touch (fun r => (hf r).toSameStatus) e.scheduler.maxTokensPerStep) rfl rfl
  assign := fun e r waiting b freeSlots _ h hw hfree => h.withScheduler
    (h.scheduler.assignSlot hw hfree) (by rw [Scheduler.assignSlot_eq])
    (by rw [Scheduler.assignSlot_eq])
  startDecode := fun e r _ h hr hs _ => h.withScheduler (h.scheduler.startDecode hr hs) rfl rfl
  handle := fun e r tokenId _ h hr hd => h.handled hr hd tokenId

/-! ## A reconfiguration -/

variable {changes : EngineChanges}

omit [LinearOrder Score] in
theorem AgreesOn.assigned (h : AgreesOn n e) (changes : EngineChanges) :
    AgreesOn n (e.assigned changes) where
  scheduler := inv_assigned h.scheduler changes
  slots := h.slots
  budget := congrArg changes.maxTokensPerStep.getD h.budget
  cache := h.cache
  number := h.number

omit [LinearOrder Score] in
/-- The settings are all assigned, and the slots are as many as were asked for. -/
theorem AgreesOn.reconfigured (h : AgreesOn n e) (hslots : SlotsAllowed e changes) :
    ∃ n', AgreesOn n' (e.reconfigured changes) ∧
      (n < n' → e.cache = none ∧ changes.maxConcurrentRequests = some (n' : Int)) := by
  have hassigned := h.assigned changes
  unfold Engine.reconfigured
  cases hv : changes.maxConcurrentRequests with
  | none => exact ⟨n, hassigned, fun hlt => absurd hlt (Nat.lt_irrefl n)⟩
  | some v =>
    have haccept := hslots v hv
    obtain ⟨hinv, hmax⟩ := hassigned.scheduler.withMax haccept
    have hbudget : ((e.assigned changes).scheduler.withMax v).maxTokensPerStep
        = (e.assigned changes).scheduler.maxTokensPerStep := by
      unfold Scheduler.withMax
      split <;> rfl
    have hnumber := h.number
    -- with a cache the number of slots only shrinks
    have hgrow : e.cache.isSome = true → v ≤ n := fun hc => by
      rcases haccept.2 with hsame | ⟨hgrow, -, -⟩
      · omega
      · have := hgrow hc
        omega
    refine ⟨((e.assigned changes).scheduler.withMax v).maxConcurrentRequests, ⟨⟨hinv, hmax.symm,
      hassigned.budget.trans hbudget.symm, fun c hc => ?_⟩, rfl⟩, fun hlt => ⟨?_, by rw [hmax]⟩⟩
    · have hle := hgrow (by rw [show e.cache = some c from hc]; rfl)
      have hsize := h.cache c hc
      show ((e.assigned changes).scheduler.withMax v).maxConcurrentRequests ≤ c.batchSize
      omega
    · rw [← Option.not_isSome_iff_eq_none]
      intro hsome
      have hle := hgrow hsome
      omega

/-! ## Calls and runs -/

omit [LinearOrder Score] in
theorem callClosed_cached (chain : Int → List Nat → Int) (model : InferenceModel Row Score) :
    CallClosed chain model fun e => e.cache.isSome = true where
  step := ⟨fun _ _ => True, {
    made := fun _ _ _ _ _ => rfl
    cache := fun _ _ _ _ _ _ => rfl
    forward := fun _ _ _ h _ => h
    assign := fun _ _ _ _ _ _ h _ _ => h
    startDecode := fun _ _ _ h _ _ _ => h
    handle := fun e r tokenId _ h _ _ => by
      unfold Engine.handled
      split <;> exact h }, cacheSteps_any chain model⟩
  add := fun _ _ _ _ _ h => h
  cancel := fun _ _ _ _ h => h
  resize := fun _ _ h _ => h
  settings := fun _ _ h _ hc _ => hc ▸ h

/-- The engine agrees on `n` slots, with what holds in every run. -/
structure Sized (n : Nat) (e : Engine Row) : Prop where
  live : Scheduler.Live e.scheduler
  agrees : AgreesOn n e

/-- **One call**: they agree after it, on either exit, and there are more slots only if it asked
for them before there was a cache. -/
theorem Sized.next (hsize : model.KeepsSize) (h : Sized n e) {op : Op} (hid : NewId e op) :
    ∃ n', Sized n' (Engine.next chain model e op) ∧
      (n < n' → e.cache = none ∧ op.slotsAsked = some (n' : Int)) := by
  have hlive : Scheduler.Live (Engine.next chain model e op).scheduler :=
    next_live h.live op
  have hsame : AgreesOn n (Engine.next chain model e op) → ∃ n',
      Sized n' (Engine.next chain model e op) ∧
        (n < n' → e.cache = none ∧ op.slotsAsked = some (n' : Int)) :=
    fun hagrees => ⟨n, ⟨hlive, hagrees⟩, fun hlt => absurd hlt (Nat.lt_irrefl n)⟩
  cases op with
  | addRequest requestId promptTokenIds maxNewTokens =>
    refine hsame ?_
    rw [Engine.next, call, Exec.after_dropped, Exec.after_of_ok (addRequest_run e _ _ _)]
    exact h.agrees.withScheduler (h.agrees.scheduler.add ⟨rfl, rfl, rfl⟩ hid) rfl rfl
  | step =>
    refine hsame ?_
    rw [Engine.next, call, Exec.after_dropped]
    exact ((stepClosed_agreesOn model n).step hsize.cacheSteps e ⟨h.live, h.agrees, rfl⟩).inv
  | cancelRequest requestId status =>
    refine hsame ?_
    rw [Engine.next, call, Exec.after_dropped]
    refine cancelRequest_pieces (J := AgreesOn n) (fun e h => ?_) (fun b e c h hc => ?_) e h.agrees
    · obtain ⟨hinv, hslots, hbudget⟩ := h.scheduler.cancelled requestId status
      exact h.withScheduler hinv hslots hbudget
    · have hsteps : CacheSteps chain model fun c c' => c'.batchSize = c.batchSize :=
        hsize.cacheSteps
      exact (stepClosed_agreesOn model n).cache e c _ h hc (hsteps.resetSlot b c)
  | reconfigure prefillChunkSize maxTokensPerStep maxConcurrentRequests usePaged usePrefix =>
    rw [Engine.next, call, Exec.after_dropped] at hlive hsame ⊢
    have hout := reconfigure_outcome e
      ⟨prefillChunkSize, maxTokensPerStep, maxConcurrentRequests, usePaged, usePrefix⟩
    unfold reconfigureWith at hout
    unfold Exec.after at hlive hsame ⊢
    generalize hrun : (reconfigure prefillChunkSize maxTokensPerStep maxConcurrentRequests usePaged
      usePrefix : M Row EngineConfig).run e = result at hout hlive hsame ⊢
    cases hout with
    | refused err _ => exact hsame h.agrees
    | halfway err _ _ _ => exact hsame (h.agrees.assigned _)
    | done _ _ hslots =>
      obtain ⟨n', hagrees, hgrown⟩ := h.agrees.reconfigured hslots
      exact ⟨n', ⟨hlive, hagrees⟩, hgrown⟩
  | registerTokenCallback requestId => exact hsame { h.agrees with }
  | unregisterTokenCallback requestId => exact hsame { h.agrees with }

omit [LinearOrder Score] in
theorem new_sized {maxConcurrentRequests prefillChunkSize maxTokensPerStep : Int}
    {usePagedKvCache usePrefixCache : Bool}
    (h : new model maxConcurrentRequests prefillChunkSize maxTokensPerStep usePagedKvCache
      usePrefixCache = .ok e) : Sized e.scheduler.maxConcurrentRequests e := by
  have hlive := new_live h
  obtain ⟨s, hs, he⟩ := Exec.bind_eq_ok h
  cases he
  refine ⟨hlive, ⟨⟨Scheduler.new_inv hs, ?_, ?_, nofun⟩, rfl⟩⟩
  all_goals
    unfold Scheduler.new at hs
    split at hs
    · cases hs
    · split at hs
      · cases hs
      · cases hs
        simp only
        try omega

/-- **They agree after every run.** -/
theorem Sized.run (hsize : model.KeepsSize) {ops : List Op} (h : Sized n e)
    (hids : Exec.Along NewId (Engine.next chain model) e ops) :
    ∃ n', Sized n' (ops.foldl (Engine.next chain model) e) := by
  induction ops generalizing e n with
  | nil => exact ⟨n, h⟩
  | cons op ops ih =>
    obtain ⟨n', hnext, -⟩ := h.next hsize hids.1
    exact ih hnext hids.2

/-- One of the calls asked for a number of slots above `b`, before there was a cache. -/
def GrowsAbove (chain : Int → List Nat → Int) (model : InferenceModel Row Score) (b : Nat)
    (e : Engine Row) (ops : List Op) : Prop :=
  ∃ before op after v, ops = before ++ op :: after ∧ op.slotsAsked = some v ∧ (b : Int) < v ∧
    (before.foldl (Engine.next chain model) e).cache = none

/-- A slot that is not there yet comes with such a call. -/
theorem Sized.growsAbove (hsize : model.KeepsSize) {ops : List Op} (h : Sized n e)
    (hids : Exec.Along NewId (Engine.next chain model) e ops) {b : Nat} (hb : n ≤ b)
    (hlt : b < (ops.foldl (Engine.next chain model) e).scheduler.maxConcurrentRequests) :
    GrowsAbove chain model b e ops := by
  induction ops generalizing e n with
  | nil =>
    have := h.agrees.number
    simp only [List.foldl_nil] at hlt
    omega
  | cons op ops ih =>
    obtain ⟨n', hnext, hgrown⟩ := h.next hsize hids.1
    by_cases hmore : b < n'
    · obtain ⟨hnone, hasked⟩ := hgrown (Nat.lt_of_le_of_lt hb hmore)
      exact ⟨[], op, ops, n', rfl, hasked, Int.ofNat_lt.mpr hmore, hnone⟩
    · obtain ⟨before, op', after, v, rfl, hasked, hv, hnone⟩ :=
        ih hnext hids.2 (Nat.le_of_not_lt hmore) hlt
      exact ⟨op :: before, op', after, v, rfl, hasked, hv, hnone⟩

/-- A cache that was made stays. -/
theorem cache_none_of_run {ops : List Op} (h : Scheduler.Live e.scheduler)
    (hnone : (ops.foldl (Engine.next chain model) e).cache = none) : e.cache = none := by
  rw [← Option.not_isSome_iff_eq_none] at hnone ⊢
  exact fun hsome => hnone ((callClosed_cached chain model).run ⟨h, hsome⟩ ops).inv

/-- **Engine, scheduler and cache agree on capacity in every run.** A slot at or above the number
of slots, such as one that a decrease removed, is there again only after a call that asked for more
slots before there was a cache. -/
theorem capacity_agrees {model : InferenceModel Row Score} (hsize : model.KeepsSize)
    {maxConcurrentRequests prefillChunkSize maxTokensPerStep : Int}
    {usePagedKvCache usePrefixCache : Bool} {e₀ : Engine Row}
    (hnew : new model maxConcurrentRequests prefillChunkSize maxTokensPerStep usePagedKvCache
      usePrefixCache = .ok e₀) {ops later : List Op}
    (hids : Exec.Along NewId (Engine.next chain model) e₀ (ops ++ later)) :
    let e := ops.foldl (Engine.next chain model) e₀
    let e' := later.foldl (Engine.next chain model) e
    e.maxConcurrentRequests = e.scheduler.maxConcurrentRequests ∧
      e.maxTokensPerStep = e.scheduler.maxTokensPerStep ∧
      (∀ c, e.cache = some c → ∀ b, e.scheduler.Offers b → b < c.batchSize) ∧
      ∀ b : Nat, e.maxConcurrentRequests ≤ b → e'.scheduler.Offers b →
        e.cache = none ∧ GrowsAbove chain model b e later := by
  intro e e'
  obtain ⟨hbefore, hafter⟩ := Exec.along_append.mp hids
  obtain ⟨n, h⟩ := (new_sized hnew).run hsize hbefore
  obtain ⟨n', h'⟩ := h.run hsize hafter
  refine ⟨h.agrees.slots, h.agrees.budget, fun c hc b hb => ?_, fun b hb hoffers => ?_⟩
  · exact Nat.lt_of_lt_of_le (h.agrees.scheduler.offers_lt hb) (h.agrees.cache c hc)
  · rw [h.agrees.slots, h.agrees.number] at hb
    have hgrows := h.growsAbove hsize hafter (Int.ofNat_le.mp hb)
      (h'.agrees.scheduler.offers_lt hoffers)
    obtain ⟨before, -, -, -, -, -, -, hnone⟩ := id hgrows
    exact ⟨cache_none_of_run h.live hnone, hgrows⟩

/-- Two slots, one of them removed and added again before there is a cache. -/
def removedAndAdded : List Op :=
  [.reconfigure none none (some 1) none none, .reconfigure none none (some 2) none none]

/-- Two requests that run at once. -/
def twoRequests : List Op :=
  [.addRequest "a" [1, 2] 2, .addRequest "b" [3, 4] 2, .step]

/-- **A slot that a decrease removed is handed out again.** -/
theorem removedSlot_handedOut :
    ∃ e, new (recallModel ⟨1, 8, 0, 2⟩ sumScores) 2 4 8 true true = .ok e ∧
      let next := Engine.next PagedKVCache.sumChain (recallModel ⟨1, 8, 0, 2⟩ sumScores)
      Exec.Along NewId next e (removedAndAdded ++ twoRequests) ∧ e.scheduler.Offers 1 ∧
        ¬((removedAndAdded.take 1).foldl next e).scheduler.Offers 1 ∧
        ∃ r ∈ ((removedAndAdded ++ twoRequests).foldl next e).scheduler.running.values,
          (((removedAndAdded ++ twoRequests).foldl next e).scheduler.requests r).batchIdx
            = some 1 := by
  refine ⟨_, rfl, ?_⟩
  decide +kernel

theorem removedAndAdded_agrees :
    ∃ e, new (recallModel ⟨1, 8, 0, 2⟩ sumScores) 2 4 8 true true = .ok e ∧
      let next := Engine.next PagedKVCache.sumChain (recallModel ⟨1, 8, 0, 2⟩ sumScores)
      let e' := ((removedAndAdded.take 1 ++ twoRequests) ++ removedAndAdded.drop 1).foldl next e
      ¬e'.scheduler.Offers 1 := by
  obtain ⟨e, h⟩ : ∃ e, new (recallModel ⟨1, 8, 0, 2⟩ sumScores) 2 4 8 true true = .ok e := ⟨_, rfl⟩
  refine ⟨e, h, fun hoffers => ?_⟩
  have hids : Exec.Along NewId (Engine.next PagedKVCache.sumChain
      (recallModel ⟨1, 8, 0, 2⟩ sumScores)) e
      ((removedAndAdded.take 1 ++ twoRequests) ++ removedAndAdded.drop 1) := by
    cases h
    decide +kernel
  obtain ⟨-, -, -, hlater⟩ := capacity_agrees (recallModel_keepsSize _ _) h hids
  rw [List.foldl_append] at hoffers
  obtain ⟨hnone, -⟩ := hlater 1 (by cases h; decide +kernel) hoffers
  -- the cache exists when the second of the two reconfigurations comes
  revert hnone
  cases h
  exact fun hnone => absurd (congrArg Option.isSome hnone) (by decide +kernel)

end Engine

end Nifre
