import Nifre.Inference.Scheduler
import Mathlib.Data.Multiset.Range
import Mathlib.Data.Multiset.MapFold
import Mathlib.Algebra.Order.Group.Multiset
import Mathlib.Tactic.Abel

/-!
# The invariant of the scheduler

Every request object is in one queue, in the state of that queue, and the free slots and the
slots of the running requests are the slots there are (`Inv`). Every change of a request's queue
is one of a few moves, and every move keeps the invariant. The methods are sequences of moves.
-/

namespace Nifre

namespace Scheduler

variable {Tok : Type}

/-! ## Requests by queue -/

/-- A request in `waiting`. -/
structure Waits (q : InferenceRequest Tok) : Prop where
  state : q.state = .waiting
  batchIdx : q.batchIdx = none
  output : q.outputTokenIds = []

/-- A request in `running`. -/
structure Runs (q : InferenceRequest Tok) : Prop where
  state : (q.state = .prefill ∧ q.outputTokenIds = []) ∨
    (q.state = .decode ∧ (q.outputTokenIds = [] ∨ (q.numGenerated : Int) < q.maxNewTokens))
  batchIdx : q.batchIdx ≠ none

/-- A request in `completed` or `failed`. -/
structure Ended (q : InferenceRequest Tok) : Prop where
  state : q.state = .finished
  batchIdx : q.batchIdx = none

/-- A completed request produced all its tokens. -/
def Produced (q : InferenceRequest Tok) : Prop :=
  1 ≤ q.maxNewTokens → (q.numGenerated : Int) = q.maxNewTokens

theorem Runs.not_waits {q : InferenceRequest Tok} (h : Runs q) : ¬Waits q := by
  intro hw
  rcases h.state with ⟨hs, -⟩ | ⟨hs, -⟩ <;> rw [hw.state] at hs <;> cases hs

theorem Runs.not_ended {q : InferenceRequest Tok} (h : Runs q) : ¬Ended q := by
  intro he
  rcases h.state with ⟨hs, -⟩ | ⟨hs, -⟩ <;> rw [he.state] at hs <;> cases hs

theorem Waits.not_ended {q : InferenceRequest Tok} (h : Waits q) : ¬Ended q := by
  intro he
  have := h.state
  rw [he.state] at this
  cases this

/-! ## The invariant -/

/-- The references of all queues. -/
def queued (s : Scheduler Tok) : Multiset Ref :=
  ↑s.waiting + ↑s.running.values + ↑s.completed.values + ↑s.failed.values

/-- The free slots and those of the running requests. -/
def slots (s : Scheduler Tok) : Multiset (Option Nat) :=
  ↑(s.freeSlots.map some) + ↑(s.running.values.map fun r => (s.requests r).batchIdx)

structure Inv (s : Scheduler Tok) : Prop where
  queued : s.queued = Multiset.range s.created
  slots : s.slots = (Multiset.range s.maxConcurrentRequests).map some
  ids : ∀ r < s.created, ∀ r' < s.created,
    (s.requests r).requestId = (s.requests r').requestId → r = r'
  runningKey : ∀ id r, (id, r) ∈ s.running.entries → (s.requests r).requestId = id
  completedKey : ∀ id r, (id, r) ∈ s.completed.entries → (s.requests r).requestId = id
  failedKey : ∀ id r, (id, r) ∈ s.failed.entries → (s.requests r).requestId = id
  waiting : ∀ r ∈ s.waiting, Waits (s.requests r)
  running : ∀ r ∈ s.running.values, Runs (s.requests r)
  completed : ∀ r ∈ s.completed.values, Ended (s.requests r) ∧ Produced (s.requests r)
  failed : ∀ r ∈ s.failed.values, Ended (s.requests r)
  arrival : s.waiting.Pairwise (· < ·)

theorem new_inv {n m : Int} {s : Scheduler Tok} (h : new n m = .ok s) : Inv s := by
  unfold new at h
  split at h
  · cases h
  · split at h
    · cases h
    · cases h
      refine ⟨rfl, ?_, nofun, nofun, nofun, nofun, nofun, nofun, nofun, nofun, List.Pairwise.nil⟩
      simp [Scheduler.slots, OrderedDict.values, OrderedDict.empty, Multiset.range]

theorem mem_queued {s : Scheduler Tok} {r : Ref} : r ∈ s.queued ↔
    r ∈ s.waiting ∨ r ∈ s.running.values ∨ r ∈ s.completed.values ∨ r ∈ s.failed.values := by
  simp [Scheduler.queued]

theorem Inv.created_iff {s : Scheduler Tok} (h : Inv s) {r : Ref} : r < s.created ↔
    r ∈ s.waiting ∨ r ∈ s.running.values ∨ r ∈ s.completed.values ∨ r ∈ s.failed.values := by
  rw [← mem_queued, h.queued, Multiset.mem_range]

theorem Inv.running_lt {s : Scheduler Tok} (h : Inv s) {r : Ref} (hr : r ∈ s.running.values) :
    r < s.created := h.created_iff.mpr (Or.inr (Or.inl hr))

theorem Inv.waiting_lt {s : Scheduler Tok} (h : Inv s) {r : Ref} (hr : r ∈ s.waiting) :
    r < s.created := h.created_iff.mpr (Or.inl hr)

/-- A request whose state is neither `WAITING` nor `FINISHED` is running. -/
theorem Inv.mem_running {s : Scheduler Tok} (h : Inv s) {r : Ref} (hr : r < s.created)
    (hw : (s.requests r).state ≠ .waiting) (hf : (s.requests r).state ≠ .finished) :
    r ∈ s.running.values := by
  rcases h.created_iff.mp hr with hm | hm | hm | hm
  · exact absurd (h.waiting r hm).state hw
  · exact hm
  · exact absurd (h.completed r hm).1.state hf
  · exact absurd (h.failed r hm).state hf

/-- A finished request is completed or failed. -/
theorem Inv.mem_ended {s : Scheduler Tok} (h : Inv s) {r : Ref} (hr : r < s.created)
    (hf : (s.requests r).state = .finished) : r ∈ s.completed.values ∨ r ∈ s.failed.values := by
  rcases h.created_iff.mp hr with hm | hm | hm | hm
  · exact absurd ((h.waiting r hm).state.symm.trans hf) (by decide)
  · rcases (h.running r hm).state with ⟨hs, -⟩ | ⟨hs, -⟩ <;>
      exact absurd (hs.symm.trans hf) (by decide)
  · exact Or.inl hm
  · exact Or.inr hm

theorem Inv.running_entry {s : Scheduler Tok} (h : Inv s) {r : Ref} (hr : r ∈ s.running.values) :
    ((s.requests r).requestId, r) ∈ s.running.entries := by
  obtain ⟨id, hid⟩ := OrderedDict.mem_values_iff.mp hr
  rw [h.runningKey id r hid]
  exact hid

theorem Inv.nodup_queued {s : Scheduler Tok} (h : Inv s) : s.queued.Nodup := by
  rw [h.queued]
  exact Multiset.nodup_range _

theorem Inv.running_nodup {s : Scheduler Tok} (h : Inv s) : s.running.values.Nodup := by
  have hle : (↑s.running.values : Multiset Ref) ≤ s.queued := by
    rw [Scheduler.queued]
    exact (Multiset.le_add_left _ _).trans ((Multiset.le_add_right _ _).trans
      (Multiset.le_add_right _ _))
  exact Multiset.coe_nodup.mp (Multiset.nodup_of_le hle h.nodup_queued)

/-- The id of a request is a key of the queue that holds it, and of no other. -/
theorem Inv.notMem_keys {s : Scheduler Tok} (h : Inv s) {d : OrderedDict String Ref}
    (hkey : ∀ id r, (id, r) ∈ d.entries → (s.requests r).requestId = id)
    (hlt : ∀ r ∈ d.values, r < s.created) {r : Ref} (hr : r < s.created) (hnot : r ∉ d.values) :
    (s.requests r).requestId ∉ d.keys := by
  intro hc
  obtain ⟨r', hr'⟩ := OrderedDict.mem_keys_iff.mp hc
  have hmem : r' ∈ d.values := OrderedDict.mem_values_iff.mpr ⟨_, hr'⟩
  exact hnot (h.ids r hr r' (hlt r' hmem) (hkey _ _ hr').symm ▸ hmem)

/-! ## Changing a request in its queue -/

/-- What the queues do not look at. -/
structure SameStatus (q q' : InferenceRequest Tok) : Prop where
  requestId : q'.requestId = q.requestId
  state : q'.state = q.state
  batchIdx : q'.batchIdx = q.batchIdx
  output : q'.outputTokenIds = q.outputTokenIds
  maxNewTokens : q'.maxNewTokens = q.maxNewTokens

theorem SameStatus.refl (q : InferenceRequest Tok) : SameStatus q q := ⟨rfl, rfl, rfl, rfl, rfl⟩

theorem SameStatus.waits {q q' : InferenceRequest Tok} (h : SameStatus q q') (hq : Waits q) :
    Waits q' := ⟨h.state.trans hq.state, h.batchIdx.trans hq.batchIdx, h.output.trans hq.output⟩

theorem SameStatus.runs {q q' : InferenceRequest Tok} (h : SameStatus q q') (hq : Runs q) :
    Runs q' := by
  refine ⟨?_, by rw [h.batchIdx]; exact hq.batchIdx⟩
  unfold InferenceRequest.numGenerated
  rw [h.state, h.output, h.maxNewTokens]
  exact hq.state

theorem SameStatus.ended {q q' : InferenceRequest Tok} (h : SameStatus q q') (hq : Ended q) :
    Ended q' := ⟨h.state.trans hq.state, h.batchIdx.trans hq.batchIdx⟩

theorem SameStatus.produced {q q' : InferenceRequest Tok} (h : SameStatus q q') (hq : Produced q) :
    Produced q' := by
  unfold Produced InferenceRequest.numGenerated
  rw [h.output, h.maxNewTokens]
  exact hq

/-- **Move**: requests change in what the queues do not look at. -/
theorem Inv.touch {s : Scheduler Tok} (h : Inv s) {requests : Ref → InferenceRequest Tok}
    (hs : ∀ r, SameStatus (s.requests r) (requests r)) (budget : Int) :
    Inv { s with requests := requests, maxTokensPerStep := budget } where
  queued := h.queued
  slots := by
    rw [← h.slots, Scheduler.slots, Scheduler.slots]
    congr 2
    exact List.map_congr_left fun r _ => (hs r).batchIdx
  ids := by
    intro r hr r' hr' he
    refine h.ids r hr r' hr' ?_
    rw [← (hs r).requestId, ← (hs r').requestId]
    exact he
  runningKey := fun id r hm => (hs r).requestId.trans (h.runningKey id r hm)
  completedKey := fun id r hm => (hs r).requestId.trans (h.completedKey id r hm)
  failedKey := fun id r hm => (hs r).requestId.trans (h.failedKey id r hm)
  waiting := fun r hr => (hs r).waits (h.waiting r hr)
  running := fun r hr => (hs r).runs (h.running r hr)
  completed := fun r hr => ⟨(hs r).ended (h.completed r hr).1, (hs r).produced (h.completed r hr).2⟩
  failed := fun r hr => (hs r).ended (h.failed r hr)
  arrival := h.arrival

/-- Requests other than `r`, where `r` is in none of the queues looked at. -/
theorem update_of_mem {s : Scheduler Tok} {r r' : Ref} {l : List Ref} (hr : r ∉ l) (hr' : r' ∈ l)
    (q : InferenceRequest Tok) : Function.update s.requests r q r' = s.requests r' :=
  Function.update_of_ne (by rintro rfl; exact hr hr') _ _

/-- The running requests other than `r`. -/
theorem running_notMem {s : Scheduler Tok} (h : Inv s) {r : Ref} (hr : r ∈ s.running.values) :
    r ∉ s.waiting ∧ r ∉ s.completed.values ∧ r ∉ s.failed.values :=
  ⟨fun hc => (h.running r hr).not_waits (h.waiting r hc),
    fun hc => (h.running r hr).not_ended (h.completed r hc).1,
    fun hc => (h.running r hr).not_ended (h.failed r hc)⟩

theorem waiting_notMem {s : Scheduler Tok} (h : Inv s) {r : Ref} (hr : r ∈ s.waiting) :
    r ∉ s.running.values ∧ r ∉ s.completed.values ∧ r ∉ s.failed.values :=
  ⟨fun hc => (h.running r hc).not_waits (h.waiting r hr),
    fun hc => (h.waiting r hr).not_ended (h.completed r hc).1,
    fun hc => (h.waiting r hr).not_ended (h.failed r hc)⟩

/-- An update that keeps the id keeps the keys right. -/
theorem key_update {s : Scheduler Tok} {d : OrderedDict String Ref}
    (hkey : ∀ id r, (id, r) ∈ d.entries → (s.requests r).requestId = id) {r : Ref}
    {q : InferenceRequest Tok} (hid : q.requestId = (s.requests r).requestId) :
    ∀ id r', (id, r') ∈ d.entries → (Function.update s.requests r q r').requestId = id := by
  intro id r' hm
  by_cases he : r' = r
  · subst he
    rw [Function.update_self, hid]
    exact hkey id r' hm
  · rw [Function.update_of_ne he]
    exact hkey id r' hm

theorem ids_update {s : Scheduler Tok} (h : Inv s) {r : Ref} {q : InferenceRequest Tok}
    (hid : q.requestId = (s.requests r).requestId) :
    ∀ a < s.created, ∀ b < s.created, (Function.update s.requests r q a).requestId
      = (Function.update s.requests r q b).requestId → a = b := by
  have hsame : ∀ a, (Function.update s.requests r q a).requestId = (s.requests a).requestId := by
    intro a
    by_cases he : a = r
    · subst he
      rw [Function.update_self, hid]
    · rw [Function.update_of_ne he]
  intro a ha b hb
  rw [hsame, hsame]
  exact h.ids a ha b hb

/-- **Move**: a running request changes and goes on running in its slot. -/
theorem Inv.progress {s : Scheduler Tok} (h : Inv s) {r : Ref} (hr : r ∈ s.running.values)
    {q : InferenceRequest Tok} (hid : q.requestId = (s.requests r).requestId)
    (hb : q.batchIdx = (s.requests r).batchIdx) (hq : Runs q) :
    Inv { s with requests := Function.update s.requests r q } := by
  obtain ⟨hw, hc, hf⟩ := running_notMem h hr
  refine ⟨h.queued, ?_, ids_update h hid, key_update h.runningKey hid, key_update h.completedKey hid,
    key_update h.failedKey hid, ?_, ?_, ?_, ?_, h.arrival⟩
  · rw [← h.slots, Scheduler.slots, Scheduler.slots]
    congr 2
    refine List.map_congr_left fun r' _ => ?_
    by_cases he : r' = r
    · subst he
      simp only [Function.update_self, hb]
    · simp only [Function.update_of_ne he]
  · intro r' hr'
    simp only [update_of_mem hw hr']
    exact h.waiting r' hr'
  · intro r' hr'
    by_cases he : r' = r
    · subst he
      simp only [Function.update_self]
      exact hq
    · simp only [Function.update_of_ne he]
      exact h.running r' hr'
  · intro r' hr'
    simp only [update_of_mem hc hr']
    exact h.completed r' hr'
  · intro r' hr'
    simp only [update_of_mem hf hr']
    exact h.failed r' hr'

/-! ## Changing queues -/

/-- **Move**: a new request starts to wait. -/
theorem Inv.add {s : Scheduler Tok} (h : Inv s) {q : InferenceRequest Tok} (hq : Waits q)
    (hid : ∀ r < s.created, (s.requests r).requestId ≠ q.requestId) :
    Inv { s with
      requests := Function.update s.requests s.created q
      created := s.created + 1
      waiting := s.waiting ++ [s.created] } := by
  have hold : ∀ r < s.created, Function.update s.requests s.created q r = s.requests r :=
    fun r hr => Function.update_of_ne (Nat.ne_of_lt hr) _ _
  have hrun : ∀ r ∈ s.running.values, r < s.created := fun r hr => h.running_lt hr
  have hcomp : ∀ r ∈ s.completed.values, r < s.created := fun r hr =>
    h.created_iff.mpr (Or.inr (Or.inr (Or.inl hr)))
  have hfail : ∀ r ∈ s.failed.values, r < s.created := fun r hr =>
    h.created_iff.mpr (Or.inr (Or.inr (Or.inr hr)))
  have hval : ∀ {d : OrderedDict String Ref} {id r}, (id, r) ∈ d.entries → r ∈ d.values :=
    fun hm => OrderedDict.mem_values_iff.mpr ⟨_, hm⟩
  refine ⟨?_, ?_, ?_, ?_, ?_, ?_, ?_, ?_, ?_, ?_, ?_⟩
  · rw [Multiset.range_succ, ← h.queued, Scheduler.queued, Scheduler.queued, ← Multiset.coe_add]
    simp only [Multiset.coe_singleton, ← Multiset.singleton_add]
    abel
  · rw [← h.slots, Scheduler.slots, Scheduler.slots]
    congr 2
    exact List.map_congr_left fun r hr => by simp only [hold r (hrun r hr)]
  · intro a ha b hb
    rcases Nat.lt_succ_iff_lt_or_eq.mp ha with ha | rfl <;>
      rcases Nat.lt_succ_iff_lt_or_eq.mp hb with hb | rfl
    · simp only [hold a ha, hold b hb]
      exact h.ids a ha b hb
    · simp only [hold a ha, Function.update_self]
      exact fun he => absurd he (hid a ha)
    · simp only [hold b hb, Function.update_self]
      exact fun he => absurd he.symm (hid b hb)
    · exact fun _ => rfl
  · exact fun id r hm => by simp only [hold r (hrun r (hval hm))]; exact h.runningKey id r hm
  · exact fun id r hm => by simp only [hold r (hcomp r (hval hm))]; exact h.completedKey id r hm
  · exact fun id r hm => by simp only [hold r (hfail r (hval hm))]; exact h.failedKey id r hm
  · intro r hr
    rcases List.mem_append.mp hr with hr | hr
    · simp only [hold r (h.waiting_lt hr)]
      exact h.waiting r hr
    · simp only [List.mem_singleton.mp hr, Function.update_self]
      exact hq
  · exact fun r hr => by simp only [hold r (hrun r hr)]; exact h.running r hr
  · exact fun r hr => by simp only [hold r (hcomp r hr)]; exact h.completed r hr
  · exact fun r hr => by simp only [hold r (hfail r hr)]; exact h.failed r hr
  · refine List.pairwise_append.mpr ⟨h.arrival, List.pairwise_singleton _ _, ?_⟩
    intro a ha b hb
    rw [List.mem_singleton.mp hb]
    exact h.waiting_lt ha

/-- **Move**: the oldest waiting request gets the first free slot. -/
theorem Inv.assign {s : Scheduler Tok} (h : Inv s) {r : Ref} {waiting : List Ref} {b : Nat}
    {freeSlots : List Nat} (hw : s.waiting = r :: waiting) (hf : s.freeSlots = b :: freeSlots)
    {q : InferenceRequest Tok} (hid : q.requestId = (s.requests r).requestId)
    (hb : q.batchIdx = some b) (hq : Runs q) :
    Inv { s with
      waiting := waiting
      freeSlots := freeSlots
      requests := Function.update s.requests r q
      running := s.running.insert (s.requests r).requestId r } := by
  have hr : r ∈ s.waiting := by rw [hw]; exact List.mem_cons_self
  obtain ⟨hrun, hcomp, hfail⟩ := waiting_notMem h hr
  have hnew : (s.requests r).requestId ∉ s.running.keys :=
    h.notMem_keys h.runningKey (fun _ hm => h.running_lt hm) (h.waiting_lt hr) hrun
  have hvals := OrderedDict.values_insert_of_notMem hnew r
  have hmem : ∀ r', r' ∈ (s.running.insert (s.requests r).requestId r).values ↔
      r' = r ∨ r' ∈ s.running.values := fun r' => by
    rw [← Multiset.mem_coe, hvals, Multiset.mem_cons, Multiset.mem_coe]
  have hwait : r ∉ waiting := by
    have hp := h.arrival
    rw [hw] at hp
    exact fun hc => Nat.lt_irrefl r ((List.pairwise_cons.mp hp).1 r hc)
  refine ⟨?_, ?_, ids_update h hid, ?_, key_update h.completedKey hid, key_update h.failedKey hid,
    ?_, ?_, ?_, ?_, ?_⟩
  · rw [← h.queued, Scheduler.queued, Scheduler.queued, hvals, hw, ← Multiset.cons_coe]
    simp only [← Multiset.singleton_add]
    abel
  · have hmap : (↑((s.running.insert (s.requests r).requestId r).values.map fun r' =>
        (Function.update s.requests r q r').batchIdx) : Multiset (Option Nat))
        = some b ::ₘ ↑(s.running.values.map fun r' => (s.requests r').batchIdx) := by
      rw [← Multiset.map_coe, hvals, Multiset.map_cons, Function.update_self, hb, Multiset.map_coe]
      congr 2
      exact List.map_congr_left fun r' hr' => by rw [update_of_mem hrun hr']
    rw [← h.slots, Scheduler.slots, Scheduler.slots, hmap, hf, List.map_cons, ← Multiset.cons_coe]
    simp only [← Multiset.singleton_add]
    abel
  · intro id r' hm
    rcases OrderedDict.mem_insert.mp hm with ⟨rfl, rfl⟩ | ⟨-, hm⟩
    · simp only [Function.update_self, hid]
    · exact key_update h.runningKey hid id r' hm
  · intro r' hr'
    simp only [update_of_mem hwait hr']
    exact h.waiting r' (by rw [hw]; exact List.mem_cons_of_mem r hr')
  · intro r' hr'
    rcases (hmem r').mp hr' with rfl | hr'
    · simp only [Function.update_self]
      exact hq
    · simp only [update_of_mem hrun hr']
      exact h.running r' hr'
  · intro r' hr'
    simp only [update_of_mem hcomp hr']
    exact h.completed r' hr'
  · intro r' hr'
    simp only [update_of_mem hfail hr']
    exact h.failed r' hr'
  · have hp := h.arrival
    rw [hw] at hp
    exact (List.pairwise_cons.mp hp).2

/-- The references that stay when the request under a key leaves `running`. -/
theorem mem_erase_values {s : Scheduler Tok} (h : Inv s) {r : Ref} (hr : r ∈ s.running.values)
    {r' : Ref} : r' ∈ (s.running.erase (s.requests r).requestId).values ↔
      r' ∈ s.running.values ∧ r' ≠ r := by
  have hvals := OrderedDict.values_erase (h.running_entry hr)
  have hnd : (↑s.running.values : Multiset Ref).Nodup := Multiset.coe_nodup.mpr h.running_nodup
  rw [hvals, Multiset.nodup_cons] at hnd
  constructor
  · intro hm
    refine ⟨?_, ?_⟩
    · rw [← Multiset.mem_coe, hvals]
      exact Multiset.mem_cons_of_mem hm
    · rintro rfl
      exact hnd.1 hm
  · rintro ⟨hm, hne⟩
    rw [← Multiset.mem_coe, hvals, Multiset.mem_cons] at hm
    exact hm.resolve_left hne

/-- The slots when a running request gives its slot back. -/
theorem slots_leave {s : Scheduler Tok} (h : Inv s) {r : Ref} (hr : r ∈ s.running.values) {b : Nat}
    (hb : (s.requests r).batchIdx = some b) (q : InferenceRequest Tok) :
    (↑((s.freeSlots ++ [b]).map some) + ↑((s.running.erase (s.requests r).requestId).values.map
        fun r' => (Function.update s.requests r q r').batchIdx) : Multiset (Option Nat))
      = s.slots := by
  have hvals := OrderedDict.values_erase (h.running_entry hr)
  have hnot : r ∉ (s.running.erase (s.requests r).requestId).values := fun hc =>
    ((mem_erase_values h hr).mp hc).2 rfl
  have hmap : (↑(s.running.values.map fun r' => (s.requests r').batchIdx) : Multiset (Option Nat))
      = some b ::ₘ ↑((s.running.erase (s.requests r).requestId).values.map
        fun r' => (Function.update s.requests r q r').batchIdx) := by
    rw [← Multiset.map_coe, hvals, Multiset.map_cons, hb, Multiset.map_coe]
    congr 2
    exact List.map_congr_left fun r' hr' => by rw [update_of_mem hnot hr']
  rw [Scheduler.slots, hmap, List.map_append, ← Multiset.coe_add, List.map_singleton,
    Multiset.coe_singleton]
  simp only [← Multiset.singleton_add]
  abel

/-- A request that was in none of the queue's places is a new value under its id. -/
theorem values_insert_id {s : Scheduler Tok} (h : Inv s) {d : OrderedDict String Ref}
    (hkey : ∀ id r, (id, r) ∈ d.entries → (s.requests r).requestId = id)
    (hlt : ∀ r ∈ d.values, r < s.created) {r : Ref} (hr : r < s.created) (hnot : r ∉ d.values) :
    (↑(d.insert (s.requests r).requestId r).values : Multiset Ref) = r ::ₘ ↑d.values :=
  OrderedDict.values_insert_of_notMem (h.notMem_keys hkey hlt hr hnot) r

theorem key_insert {s : Scheduler Tok} {d : OrderedDict String Ref}
    (hkey : ∀ id r, (id, r) ∈ d.entries → (s.requests r).requestId = id) {r : Ref}
    {q : InferenceRequest Tok} (hid : q.requestId = (s.requests r).requestId) :
    ∀ id r', (id, r') ∈ (d.insert (s.requests r).requestId r).entries →
      (Function.update s.requests r q r').requestId = id := by
  intro id r' hm
  rcases OrderedDict.mem_insert.mp hm with ⟨rfl, rfl⟩ | ⟨-, hm⟩
  · rw [Function.update_self, hid]
  · exact key_update hkey hid id r' hm

theorem key_erase {d : OrderedDict String Ref} {k : String}
    {f : Ref → InferenceRequest Tok} (hkey : ∀ id r, (id, r) ∈ d.entries → (f r).requestId = id) :
    ∀ id r, (id, r) ∈ (d.erase k).entries → (f r).requestId = id :=
  fun id r hm => hkey id r (OrderedDict.mem_erase.mp hm).1

theorem Inv.completed_lt {s : Scheduler Tok} (h : Inv s) : ∀ r ∈ s.completed.values, r < s.created :=
  fun _ hr => h.created_iff.mpr (Or.inr (Or.inr (Or.inl hr)))

theorem Inv.failed_lt {s : Scheduler Tok} (h : Inv s) : ∀ r ∈ s.failed.values, r < s.created :=
  fun _ hr => h.created_iff.mpr (Or.inr (Or.inr (Or.inr hr)))

/-- **Move**: a running request completes and gives its slot back. -/
theorem Inv.complete {s : Scheduler Tok} (h : Inv s) {r : Ref} (hr : r ∈ s.running.values) {b : Nat}
    (hb : (s.requests r).batchIdx = some b) {q : InferenceRequest Tok}
    (hid : q.requestId = (s.requests r).requestId) (hq : Ended q) (hp : Produced q) :
    Inv { s with
      requests := Function.update s.requests r q
      running := s.running.erase (s.requests r).requestId
      completed := s.completed.insert (s.requests r).requestId r
      freeSlots := s.freeSlots ++ [b] } := by
  obtain ⟨hw, hc, hf⟩ := running_notMem h hr
  have hvals := OrderedDict.values_erase (h.running_entry hr)
  have hins := values_insert_id h h.completedKey h.completed_lt (h.running_lt hr) hc
  refine ⟨?_, (slots_leave h hr hb q).trans h.slots, ids_update h hid,
    key_erase (key_update h.runningKey hid), key_insert h.completedKey hid,
    key_update h.failedKey hid, ?_, ?_, ?_, ?_, h.arrival⟩
  · rw [← h.queued, Scheduler.queued, Scheduler.queued, hins, hvals]
    simp only [← Multiset.singleton_add]
    abel
  · intro r' hr'
    simp only [update_of_mem hw hr']
    exact h.waiting r' hr'
  · intro r' hr'
    obtain ⟨hm, hne⟩ := (mem_erase_values h hr).mp hr'
    simp only [Function.update_of_ne hne]
    exact h.running r' hm
  · intro r' hr'
    rw [← Multiset.mem_coe, hins, Multiset.mem_cons] at hr'
    rcases hr' with rfl | hr'
    · simp only [Function.update_self]
      exact ⟨hq, hp⟩
    · simp only [update_of_mem hc hr']
      exact h.completed r' hr'
  · intro r' hr'
    simp only [update_of_mem hf hr']
    exact h.failed r' hr'

/-- **Move**: a running request fails and gives its slot back. -/
theorem Inv.fail {s : Scheduler Tok} (h : Inv s) {r : Ref} (hr : r ∈ s.running.values) {b : Nat}
    (hb : (s.requests r).batchIdx = some b) {q : InferenceRequest Tok}
    (hid : q.requestId = (s.requests r).requestId) (hq : Ended q) :
    Inv { s with
      requests := Function.update s.requests r q
      running := s.running.erase (s.requests r).requestId
      failed := s.failed.insert (s.requests r).requestId r
      freeSlots := s.freeSlots ++ [b] } := by
  obtain ⟨hw, hc, hf⟩ := running_notMem h hr
  have hvals := OrderedDict.values_erase (h.running_entry hr)
  have hins := values_insert_id h h.failedKey h.failed_lt (h.running_lt hr) hf
  refine ⟨?_, (slots_leave h hr hb q).trans h.slots, ids_update h hid,
    key_erase (key_update h.runningKey hid), key_update h.completedKey hid,
    key_insert h.failedKey hid, ?_, ?_, ?_, ?_, h.arrival⟩
  · rw [← h.queued, Scheduler.queued, Scheduler.queued, hins, hvals]
    simp only [← Multiset.singleton_add]
    abel
  · intro r' hr'
    simp only [update_of_mem hw hr']
    exact h.waiting r' hr'
  · intro r' hr'
    obtain ⟨hm, hne⟩ := (mem_erase_values h hr).mp hr'
    simp only [Function.update_of_ne hne]
    exact h.running r' hm
  · intro r' hr'
    simp only [update_of_mem hc hr']
    exact h.completed r' hr'
  · intro r' hr'
    rw [← Multiset.mem_coe, hins, Multiset.mem_cons] at hr'
    rcases hr' with rfl | hr'
    · simp only [Function.update_self]
      exact hq
    · simp only [update_of_mem hf hr']
      exact h.failed r' hr'

/-- **Move**: a waiting request fails. -/
theorem Inv.drop {s : Scheduler Tok} (h : Inv s) {r : Ref} (hr : r ∈ s.waiting)
    {q : InferenceRequest Tok} (hid : q.requestId = (s.requests r).requestId) (hq : Ended q) :
    Inv { s with
      requests := Function.update s.requests r q
      waiting := s.waiting.erase r
      failed := s.failed.insert (s.requests r).requestId r } := by
  obtain ⟨hrun, hc, hf⟩ := waiting_notMem h hr
  have hins := values_insert_id h h.failedKey h.failed_lt (h.waiting_lt hr) hf
  have hperm : (↑s.waiting : Multiset Ref) = r ::ₘ ↑(s.waiting.erase r) :=
    Multiset.coe_eq_coe.mpr (List.perm_cons_erase hr)
  have hnd : s.waiting.Nodup := h.arrival.imp fun hlt => Nat.ne_of_lt hlt
  refine ⟨?_, ?_, ids_update h hid, key_update h.runningKey hid, key_update h.completedKey hid,
    key_insert h.failedKey hid, ?_, ?_, ?_, ?_, h.arrival.sublist (List.erase_sublist ..)⟩
  · rw [← h.queued, Scheduler.queued, Scheduler.queued, hins, hperm]
    simp only [← Multiset.singleton_add]
    abel
  · rw [← h.slots, Scheduler.slots, Scheduler.slots]
    congr 2
    exact List.map_congr_left fun r' hr' => by simp only [update_of_mem hrun hr']
  · intro r' hr'
    obtain ⟨hne, hm⟩ := (hnd.mem_erase_iff).mp hr'
    simp only [Function.update_of_ne hne]
    exact h.waiting r' hm
  · intro r' hr'
    simp only [update_of_mem hrun hr']
    exact h.running r' hr'
  · intro r' hr'
    simp only [update_of_mem hc hr']
    exact h.completed r' hr'
  · intro r' hr'
    rw [← Multiset.mem_coe, hins, Multiset.mem_cons] at hr'
    rcases hr' with rfl | hr'
    · simp only [Function.update_self]
      exact hq
    · simp only [update_of_mem hf hr']
      exact h.failed r' hr'

/-- **Move**: the number of slots changes with the free slots. -/
theorem Inv.resize {s : Scheduler Tok} (h : Inv s) {freeSlots : List Nat} {n : Nat}
    (hslots : (↑(freeSlots.map some) + ↑(s.running.values.map fun r => (s.requests r).batchIdx) :
      Multiset (Option Nat)) = (Multiset.range n).map some) :
    Inv { s with freeSlots := freeSlots, maxConcurrentRequests := n } :=
  { h with slots := hslots }

end Scheduler

end Nifre
