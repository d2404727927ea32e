import Nifre.Properties.SchedulerRuns
import Nifre.Properties.DistinctIds

/-!
# Admission order

The log of a run lists the requests in the order in which they got a slot. Requests wait in the
order of their references, so the log goes on in `waiting`, and the running requests always stand in
the order of the log.

* `Scheduler.run_inOrder` — in a run of the scheduler
* `Engine.run_inOrder` — in a run of the engine
-/

namespace Nifre

/-! ## One admission -/

namespace Scheduler

variable {Tok : Type} {s s' : Scheduler Tok} {log : List Ref}

/-- The log continues in `waiting`, and the running requests are some of it, in its order. -/
structure InOrder (log : List Ref) (s : Scheduler Tok) : Prop where
  sorted : (log ++ s.waiting).Pairwise (· < ·)
  created : ∀ r ∈ log, r < s.created
  running : s.running.values.Sublist log

theorem InOrder.nodup (h : InOrder log s) : log.Nodup :=
  (List.pairwise_append.mp h.sorted).1.imp Nat.ne_of_lt

/-- The running requests, read off the log. -/
theorem InOrder.running_eq (h : InOrder log s) :
    s.running.values = log.filter fun r => r ∈ s.running.values := by
  have hself : s.running.values.filter (fun r => r ∈ s.running.values) = s.running.values :=
    List.filter_eq_self.mpr fun r hr => by simpa using hr
  have hsub := h.running.filter fun r => r ∈ s.running.values
  rw [hself] at hsub
  -- both are without duplicates and have the same elements
  refine hsub.eq_of_length_le ?_
  refine (h.nodup.filter _).length_le_of_subset fun r hr => ?_
  simpa using (List.mem_filter.mp hr).2

/-- Requests leave the queues, and no other one moves. -/
theorem InOrder.mono (h : InOrder log s) (hw : s'.waiting.Sublist s.waiting)
    (hr : s'.running.values.Sublist s.running.values) (hc : s.created ≤ s'.created) :
    InOrder log s' where
  sorted := h.sorted.sublist ((List.Sublist.refl log).append hw)
  created := fun r hm => (h.created r hm).trans_le hc
  running := hr.trans h.running

theorem values_erase_sublist (d : OrderedDict String Ref) (id : String) :
    (d.erase id).values.Sublist d.values := List.filter_sublist.map _

/-- **The request that gets a slot** is the next one of the log. -/
theorem InOrder.assignSlot (h : InOrder log s) (hi : Inv s) {r : Ref} {waiting : List Ref} {b : Nat}
    {freeSlots : List Nat} (hw : s.waiting = r :: waiting) :
    InOrder (log ++ [r]) (s.assignSlot r waiting b freeSlots) := by
  have hr : r ∈ s.waiting := by rw [hw]; exact List.mem_cons_self
  have hkey : (s.requests r).requestId ∉ s.running.keys :=
    hi.notMem_keys hi.runningKey (fun _ => hi.running_lt) (hi.waiting_lt hr)
      (waiting_notMem hi hr).1
  rw [assignSlot_eq]
  refine ⟨?_, fun r' hm => ?_, ?_⟩
  · have hsorted := h.sorted
    rw [hw] at hsorted
    rw [List.append_assoc]
    exact hsorted
  · rcases List.mem_append.mp hm with hm | hm
    · exact h.created r' hm
    · rw [List.mem_singleton.mp hm]
      exact hi.waiting_lt hr
  · rw [OrderedDict.values, OrderedDict.insert_of_notMem hkey, List.map_append]
    exact h.running.append (List.Sublist.refl [r])

theorem InOrder.assignRounds {s : Scheduler Tok} {log : List Ref} (h : InOrder log s) :
    ∀ rounds, Inv s →
      InOrder (log ++ s.waiting.take (min rounds s.freeSlots.length)) (assignRounds rounds s)
  | 0, _ => by simpa [Scheduler.assignRounds] using h
  | rounds + 1, hi => by
    rw [Scheduler.assignRounds]
    split
    · next r waiting b freeSlots hw hf =>
      have hnext : InOrder (log ++ [r]) (s.assignSlot r waiting b freeSlots) := h.assignSlot hi hw
      have hrest := hnext.assignRounds rounds (hi.assignSlot hw hf)
      rw [List.append_assoc] at hrest
      rw [hw, hf]
      simp only [List.length_cons, Nat.succ_min_succ, List.take_succ_cons]
      simpa [assignSlot_eq] using hrest
    · next hnone =>
      have hnil : s.waiting.take (min (rounds + 1) s.freeSlots.length) = [] := by
        cases hw : s.waiting with
        | nil => exact List.take_nil
        | cons r waiting =>
          cases hf : s.freeSlots with
          | nil => rfl
          | cons b freeSlots => exact absurd hf (hnone r waiting b freeSlots hw)
      rw [hnil, List.append_nil]
      exact h

theorem InOrder.assignWaitingToSlots (h : InOrder log s) (hi : Inv s) :
    InOrder (log ++ s.waiting.take s.freeSlots.length) s.assignWaitingToSlots := by
  have hall := h.assignRounds s.waiting.length hi
  rwa [List.take_eq_take_iff.mpr (show min (min s.waiting.length s.freeSlots.length)
    s.waiting.length = min s.freeSlots.length s.waiting.length by omega)] at hall

/-- Assigning slots neither creates requests nor changes the settings. -/
theorem assignWaitingToSlots_settings (s : Scheduler Tok) :
    s.assignWaitingToSlots.created = s.created ∧
      s.assignWaitingToSlots.maxTokensPerStep = s.maxTokensPerStep ∧
      s.assignWaitingToSlots.maxConcurrentRequests = s.maxConcurrentRequests :=
  assignRounds_induct (I := fun s' => s'.created = s.created ∧
    s'.maxTokensPerStep = s.maxTokensPerStep ∧ s'.maxConcurrentRequests = s.maxConcurrentRequests)
    (fun s' r waiting b freeSlots h _ _ => by rw [assignSlot_eq]; exact h) _ ⟨rfl, rfl, rfl⟩

/-- A new request comes after all others. -/
theorem InOrder.add (h : InOrder log s) (hi : Inv s) (hw : s'.waiting = s.waiting ++ [s.created])
    (hr : s'.running = s.running) (hc : s'.created = s.created + 1) : InOrder log s' := by
  refine ⟨?_, fun r hm => ?_, hr ▸ h.running⟩
  · rw [hw, ← List.append_assoc]
    refine List.pairwise_append.mpr ⟨h.sorted, List.pairwise_singleton _ _, fun r hm r' hm' => ?_⟩
    rw [List.mem_singleton.mp hm']
    exact (List.mem_append.mp hm).elim (h.created r) hi.waiting_lt
  · rw [hc]
    exact Nat.lt_succ_of_lt (h.created r hm)

/-! ## Runs of the scheduler -/

/-- The requests that a call gives a slot to, in the order in which they get it. -/
def admittedBy (s : Scheduler Tok) : Op Tok → List Ref
  | .schedule => s.waiting.take s.freeSlots.length
  | _ => []

/-- The requests that got a slot in a run, first come first. -/
def admissions : Scheduler Tok → List (Op Tok) → List Ref
  | _, [] => []
  | s, op :: ops => admittedBy s op ++ admissions (s.next op) ops

theorem admissions_append (s : Scheduler Tok) (ops ops' : List (Op Tok)) :
    admissions s (ops ++ ops') = admissions s ops ++ admissions (ops.foldl next s) ops' := by
  induction ops generalizing s with
  | nil => rfl
  | cons op ops ih => rw [List.cons_append, admissions, admissions, ih, List.append_assoc]; rfl

theorem admittedBy_of_ne {op : Op Tok} (h : op ≠ .schedule) : admittedBy s op = [] := by
  cases op with
  | schedule => exact absurd rfl h
  | _ => rfl

/-- **One call** keeps the order, and lets the log grow by the requests it admits. -/
theorem next_inOrder (hi : Inv s) (h : InOrder log s) {op : Op Tok} (hl : s.Legal op) :
    InOrder (log ++ admittedBy s op) (s.next op) := by
  by_cases hop : op = .schedule
  · subst hop
    exact h.assignWaitingToSlots hi
  rw [admittedBy_of_ne hop, List.append_nil]
  have hsame := List.Sublist.refl s.running.values
  have hmoved := next_moved hi hl
  generalize s.next op = s' at hmoved
  cases hmoved with
  | raised => exact h
  | assigned => exact absurd rfl hop
  | added => exact h.add hi rfl rfl rfl
  | advanced => exact h.mono (List.Sublist.refl _) hsame le_rfl
  | started => exact h.mono (List.Sublist.refl _) hsame le_rfl
  | pushed => exact h.mono (List.Sublist.refl _) hsame le_rfl
  | completed => exact h.mono (List.Sublist.refl _) (values_erase_sublist _ _) le_rfl
  | dropped => exact h.mono List.erase_sublist hsame le_rfl
  | failed => exact h.mono (List.Sublist.refl _) (values_erase_sublist _ _) le_rfl
  | resized s' _ _ _ _ hs =>
    exact h.mono (hs.waiting ▸ List.Sublist.refl _) (hs.running ▸ hsame) hs.created.ge

/-- A new scheduler has admitted nobody. -/
theorem new_inOrder {n m : Int} (h : new n m = .ok s) : InOrder [] s := by
  unfold new at h
  split at h
  · cases h
  · split at h
    · cases h
    · cases h
      exact ⟨List.Pairwise.nil, fun _ hm => (List.not_mem_nil hm).elim, List.Sublist.refl _⟩

/-- **In every run the running requests stand in admission order.** -/
theorem run_inOrder {ops : List (Op Tok)} (hi : Inv s) (h : InOrder log s)
    (hl : Exec.Along Legal next s ops) :
    Inv (ops.foldl next s) ∧ InOrder (log ++ admissions s ops) (ops.foldl next s) := by
  induction ops generalizing s log with
  | nil =>
    rw [admissions, List.append_nil]
    exact ⟨hi, h⟩
  | cons op ops ih =>
    rw [admissions, ← List.append_assoc]
    exact ih (next_inv hi hl.1).1 (next_inOrder hi h hl.1) hl.2

end Scheduler

/-! ## Runs of the engine -/

namespace Engine

open Scheduler (Inv InOrder)

variable {Row Score : Type} {e e' : Engine Row} {log : List Ref}

/-- Some of the requests that waited are at the end of the log now, the others still wait. -/
structure Admitting (log : List Ref) (e e' : Engine Row) : Prop where
  inv : Inv e'.scheduler
  taken : ∃ taken, e.scheduler.waiting = taken ++ e'.scheduler.waiting ∧
    InOrder (log ++ taken) e'.scheduler

/-- No request is admitted. -/
theorem Admitting.mono (h : Admitting log e e') {s : Scheduler Nat} (hi : Inv s)
    (hw : s.waiting = e'.scheduler.waiting)
    (hr : s.running.values.Sublist e'.scheduler.running.values)
    (hc : s.created = e'.scheduler.created) : Admitting log e { e' with scheduler := s } := by
  obtain ⟨taken, he, hin⟩ := h.taken
  exact ⟨hi, taken, he.trans (by rw [hw]), hin.mono (hw ▸ List.Sublist.refl _) hr hc.ge⟩

theorem stepClosed_admitting (model : InferenceModel Row Score) (log : List Ref) (e : Engine Row) :
    StepClosed model (fun _ _ => True) (Admitting log e) where
  made := fun _ _ h _ _ => ⟨h.inv, h.taken⟩
  cache := fun _ _ _ h _ _ => ⟨h.inv, h.taken⟩
  forward := fun e' requests hl h hf => h.mono ((stepClosed_inv model).forward e' requests hl h.inv hf)
    rfl (List.Sublist.refl _) rfl
  assign := by
    intro e' r waiting b freeSlots hl h hw hf
    obtain ⟨taken, he, hin⟩ := h.taken
    refine ⟨h.inv.assignSlot hw hf, taken ++ [r], ?_, ?_⟩
    · rw [he, hw, Scheduler.assignSlot_eq, List.append_assoc]
      rfl
    · rw [← List.append_assoc]
      exact hin.assignSlot h.inv hw
  startDecode := fun e' r hl h hr hs hc => h.mono
    ((stepClosed_inv model).startDecode e' r hl h.inv hr hs hc) rfl (List.Sublist.refl _) rfl
  handle := by
    intro e' r tokenId hl h hr hd
    have hi := (stepClosed_inv model).handle e' r tokenId hl h.inv hr hd
    have ho := Scheduler.markDecodeDone_outcome e'.scheduler r tokenId
    unfold handled at hi ⊢
    generalize (Scheduler.markDecodeDone r tokenId).run e'.scheduler = result at ho hi
    have hsame := List.Sublist.refl e'.scheduler.running.values
    cases ho with
    | rejected => exact h.mono hi rfl hsame rfl
    | more => exact ⟨hi, (h.mono hi rfl hsame rfl).taken⟩
    | last => exact ⟨hi, (h.mono hi rfl (Scheduler.values_erase_sublist _ _) rfl).taken⟩
    | gone => exact h.mono hi rfl hsame rfl

variable [LinearOrder Score] (chain : Int → List Nat → Int) (model : InferenceModel Row Score)

/-- The requests that a call takes from the front of `waiting`. -/
def admittedBy (e : Engine Row) : Op → List Ref
  | .step => e.scheduler.waiting.take (e.scheduler.waiting.length
      - (Engine.next chain model e .step).scheduler.waiting.length)
  | _ => []

/-- The requests that got a slot in a run, first come first. -/
def admissions : Engine Row → List Op → List Ref
  | _, [] => []
  | e, op :: ops => admittedBy chain model e op ++ admissions (Engine.next chain model e op) ops

variable {chain model}

theorem step_inOrder (hlive : Scheduler.Live e.scheduler) (hi : Inv e.scheduler)
    (h : InOrder log e.scheduler) : InOrder (log ++ admittedBy chain model e .step)
      (Engine.next chain model e .step).scheduler := by
  have hstep := ((stepClosed_admitting model log e).step (cacheSteps_any chain model) e
    ⟨hlive, ⟨hi, [], rfl, by rwa [List.append_nil]⟩, rfl⟩).inv
  unfold admittedBy
  rw [Engine.next, call, Exec.after_dropped]
  obtain ⟨taken, he, hin⟩ := hstep.taken
  rw [he, List.length_append, Nat.add_sub_cancel, List.take_left]
  exact hin

theorem admittedBy_of_ne {op : Op} (h : op ≠ .step) : admittedBy chain model e op = [] := by
  cases op with
  | step => exact absurd rfl h
  | _ => rfl

/-- **One call** keeps the order, and lets the log grow by the requests it admits. -/
theorem next_inOrder (hlive : Scheduler.Live e.scheduler) (hi : Inv e.scheduler)
    (h : InOrder log e.scheduler) {op : Op} : InOrder (log ++ admittedBy chain model e op)
      (Engine.next chain model e op).scheduler := by
  by_cases hop : op = .step
  · subst hop
    exact step_inOrder hlive hi h
  rw [admittedBy_of_ne hop, List.append_nil]
  set J : Engine Row → Prop := fun e => InOrder log e.scheduler with hJ
  cases op with
  | step => exact absurd rfl hop
  | addRequest requestId promptTokenIds maxNewTokens =>
    rw [Engine.next, call, Exec.after_dropped, Exec.after_of_ok (addRequest_run e _ _ _)]
    exact h.add hi rfl rfl rfl
  | cancelRequest requestId status =>
    rw [Engine.next, call, Exec.after_dropped]
    refine cancelRequest_pieces (J := J) (fun e h => ?_) (fun _ _ _ h _ => h) e h
    have ho := Scheduler.cancelRequest_outcome e.scheduler requestId status
    unfold Exec.after
    generalize (Scheduler.cancelRequest requestId status).run e.scheduler = result at ho
    cases ho with
    | waiting => exact h.mono List.filter_sublist (List.Sublist.refl _) le_rfl
    | running =>
      exact h.mono (List.Sublist.refl _) (Scheduler.values_erase_sublist _ _) le_rfl
    | unknown => exact h
  | reconfigure prefillChunkSize maxTokensPerStep maxConcurrentRequests usePaged usePrefix =>
    rw [Engine.next, call, Exec.after_dropped]
    have hresize : ∀ e s, J e → Scheduler.OnlyResized e.scheduler s →
        J { e with scheduler := s } := fun e s h hs => h.mono (hs.waiting ▸ List.Sublist.refl _)
      (hs.running ▸ List.Sublist.refl _) hs.created.ge
    refine reconfigure_pieces (J := J) (fun _ _ h => h) (fun _ _ _ h => h) (fun _ _ _ h => h)
      (fun _ _ _ h => h) (fun _ e h => ?_) e h
    exact reconfigureScheduler_pieces (J := J) hresize (fun _ _ h => h) e h
  | registerTokenCallback requestId => exact h
  | unregisterTokenCallback requestId => exact h

/-- **In every run the running requests stand in admission order.** -/
theorem run_inOrder (hlive : Scheduler.Live e.scheduler) (hi : Inv e.scheduler)
    (h : InOrder log e.scheduler) {ops : List Op}
    (hids : Exec.Along NewId (Engine.next chain model) e ops) :
    Inv (ops.foldl (Engine.next chain model) e).scheduler ∧
      InOrder (log ++ admissions chain model e ops)
        (ops.foldl (Engine.next chain model) e).scheduler := by
  induction ops generalizing e log with
  | nil =>
    rw [admissions, List.append_nil]
    exact ⟨hi, h⟩
  | cons op ops ih =>
    rw [admissions, ← List.append_assoc]
    exact ih (next_live hlive op) (next_inv hlive hi hids.1) (next_inOrder hlive hi h) hids.2

end Engine

end Nifre
