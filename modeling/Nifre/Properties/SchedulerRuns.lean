import Nifre.Properties.SchedulerSteps

/-!
# Slot and lifecycle partition

In every state that calls of the scheduler's methods can reach, returning or raising, every
request is in exactly one queue and the slots are partitioned between the free list and the
running requests (`run_partitioned`). What has ended stays as it ended.
-/

namespace Nifre

namespace Scheduler

variable {Tok : Type}

/-- A call of a method, or an advance of a request's `prefill_offset` by the model runner. -/
inductive Op (Tok : Type) where
  | addRequest (requestId : String) (promptTokenIds : List Tok) (maxNewTokens : Int)
      (prefillChunkSize : Int)
  | schedule
  | advance (r : Ref) (n : Nat)
  | markPrefillDone (r : Ref)
  | markDecodeDone (r : Ref) (tokenId : Tok)
  | cancelRequest (requestId status : String)
  | reconfigure (maxTokensPerStep maxConcurrentRequests : Option Int) (cacheInitialized : Bool)

def call : Op Tok → M Tok Unit
  | .addRequest requestId promptTokenIds maxNewTokens prefillChunkSize => do
    let r ← create
      { requestId := requestId
        promptTokenIds := promptTokenIds
        maxNewTokens := maxNewTokens
        prefillChunkSize := prefillChunkSize }
    Scheduler.addRequest r
  | .schedule => do
    let _ ← Scheduler.schedule
  | .advance r n =>
    modify fun s => s.update r fun request =>
      { request with prefillOffset := request.prefillOffset + n }
  | .markPrefillDone r => Scheduler.markPrefillDone r
  | .markDecodeDone r tokenId => Scheduler.markDecodeDone r tokenId
  | .cancelRequest requestId status => do
    let _ ← Scheduler.cancelRequest requestId status
  | .reconfigure maxTokensPerStep maxConcurrentRequests cacheInitialized =>
    Scheduler.reconfigure maxTokensPerStep maxConcurrentRequests cacheInitialized

/-- The state after one call, on either exit. -/
def next (s : Scheduler Tok) (op : Op Tok) : Scheduler Tok := Exec.after (call op) s

/-- Added requests have ids of their own, and the other calls are about created requests. -/
def Legal (s : Scheduler Tok) : Op Tok → Prop
  | .addRequest requestId _ _ _ => ∀ r < s.created, (s.requests r).requestId ≠ requestId
  | .advance r _ => r < s.created
  | .markPrefillDone r => r < s.created
  | .markDecodeDone r _ => r < s.created
  | _ => True

instance (s : Scheduler Tok) (op : Op Tok) : Decidable (s.Legal op) :=
  match op with
  | .addRequest .. => inferInstanceAs (Decidable (∀ r < _, _))
  | .schedule => inferInstanceAs (Decidable True)
  | .advance _ _ => inferInstanceAs (Decidable (_ < _))
  | .markPrefillDone _ => inferInstanceAs (Decidable (_ < _))
  | .markDecodeDone _ _ => inferInstanceAs (Decidable (_ < _))
  | .cancelRequest .. => inferInstanceAs (Decidable True)
  | .reconfigure .. => inferInstanceAs (Decidable True)

/-! ## One call -/

/-- A request that ended stays among the ended ones, and keeps its output. -/
def EndedKept (s s' : Scheduler Tok) : Prop :=
  ∀ r, r ∈ s.completed.values ∨ r ∈ s.failed.values →
    (r ∈ s'.completed.values ∨ r ∈ s'.failed.values) ∧
      (s'.requests r).outputTokenIds = (s.requests r).outputTokenIds

theorem EndedKept.refl (s : Scheduler Tok) : EndedKept s s := fun _ hr => ⟨hr, rfl⟩

/-- The ended requests are kept when one that has not ended changes. -/
theorem endedKept_update {s s' : Scheduler Tok} {r : Ref} {q : InferenceRequest Tok}
    (hc : ∀ r' ∈ s.completed.values, r' ∈ s'.completed.values)
    (hf : ∀ r' ∈ s.failed.values, r' ∈ s'.failed.values)
    (hr : r ∉ s.completed.values ∧ r ∉ s.failed.values)
    (hreq : s'.requests = Function.update s.requests r q) : EndedKept s s' := by
  intro r' hr'
  have hne : r' ≠ r := by
    rintro rfl
    exact hr'.elim hr.1 hr.2
  exact ⟨hr'.imp (hc r') (hf r'), by rw [hreq, Function.update_of_ne hne]⟩

theorem mem_values_insert {d : OrderedDict String Ref} {id : String} (hid : id ∉ d.keys) {r : Ref} :
    ∀ r' ∈ d.values, r' ∈ (d.insert id r).values := by
  intro r' hr'
  rw [← Multiset.mem_coe, OrderedDict.values_insert_of_notMem hid]
  exact Multiset.mem_cons_of_mem hr'

theorem assign_endedKept {s : Scheduler Tok} (h : Inv s) : EndedKept s s.assignWaitingToSlots := by
  refine (assignRounds_induct (I := fun s' => Inv s' ∧ EndedKept s s') ?_ _
    ⟨h, EndedKept.refl s⟩).2
  intro s' r waiting b freeSlots ⟨hi, hk⟩ hw hf
  have hr : r ∈ s'.waiting := by rw [hw]; exact List.mem_cons_self
  obtain ⟨-, hc, hfl⟩ := waiting_notMem hi hr
  have hstep : EndedKept s' (s'.assignSlot r waiting b freeSlots) := by
    rw [assignSlot_eq]
    exact endedKept_update (fun _ => id) (fun _ => id) ⟨hc, hfl⟩ rfl
  refine ⟨hi.assignSlot hw hf, fun r' hr' => ?_⟩
  obtain ⟨hm, ho⟩ := hk r' hr'
  obtain ⟨hm', ho'⟩ := hstep r' hm
  exact ⟨hm', ho'.trans ho⟩

theorem complete_endedKept {s : Scheduler Tok} (h : Inv s) {r : Ref} (hr : r ∈ s.running.values)
    (b : Nat) (tokenId : Tok) : EndedKept s (s.completeWith r b tokenId) := by
  obtain ⟨-, hc, hf⟩ := running_notMem h hr
  exact endedKept_update
    (mem_values_insert (h.notMem_keys h.completedKey h.completed_lt (h.running_lt hr) hc))
    (fun _ => id) ⟨hc, hf⟩ rfl

/-- **What a legal call does**: it changes one request and its queue, assigns slots, or changes the
slots and the budget. -/
inductive Moved (s : Scheduler Tok) : Op Tok → Scheduler Tok → Prop
  | raised (op) : op ≠ .schedule → Moved s op s
  | added (requestId promptTokenIds maxNewTokens prefillChunkSize) :
    (∀ r < s.created, (s.requests r).requestId ≠ requestId) →
    Moved s (.addRequest requestId promptTokenIds maxNewTokens prefillChunkSize) { s with
      requests := Function.update s.requests s.created
        { requestId := requestId
          promptTokenIds := promptTokenIds
          maxNewTokens := maxNewTokens
          prefillChunkSize := prefillChunkSize }
      created := s.created + 1
      waiting := s.waiting ++ [s.created] }
  | assigned : Moved s .schedule s.assignWaitingToSlots
  | advanced (r n) : Moved s (.advance r n) { s with
      requests := Function.update s.requests r
        { s.requests r with prefillOffset := (s.requests r).prefillOffset + n } }
  | started (r) : r ∈ s.running.values → (s.requests r).state = .prefill →
    (s.requests r).prefillComplete = true → Moved s (.markPrefillDone r) { s with
      requests := Function.update s.requests r { s.requests r with state := .decode } }
  | pushed (r tokenId) : r ∈ s.running.values → (s.requests r).state = .decode →
    ¬(s.requests r).maxNewTokens ≤ ((s.requests r).numGenerated + 1 : Nat) →
    Moved s (.markDecodeDone r tokenId) { s with
      requests := Function.update s.requests r (pushToken (s.requests r) tokenId) }
  | completed (r b tokenId) : r ∈ s.running.values → (s.requests r).state = .decode →
    (s.requests r).batchIdx = some b →
    (s.requests r).maxNewTokens ≤ ((s.requests r).numGenerated + 1 : Nat) →
    Moved s (.markDecodeDone r tokenId) (s.completeWith r b tokenId)
  | dropped (r status) : r ∈ s.waiting →
    Moved s (.cancelRequest (s.requests r).requestId status) (s.dropWaiting r status)
  | failed (r b status) : r ∈ s.running.values → (s.requests r).batchIdx = some b →
    Moved s (.cancelRequest (s.requests r).requestId status) (s.failRunning r b status)
  | resized (s' maxTokensPerStep maxConcurrentRequests cacheInitialized) : Inv s' →
    SameQueues s s' →
    Moved s (.reconfigure maxTokensPerStep maxConcurrentRequests cacheInitialized) s'

theorem next_moved {s : Scheduler Tok} (h : Inv s) {op : Op Tok} (hl : s.Legal op) :
    Moved s op (s.next op) := by
  cases op with
  | addRequest requestId promptTokenIds maxNewTokens prefillChunkSize =>
    have hadd := Moved.added requestId promptTokenIds maxNewTokens prefillChunkSize hl
    convert hadd using 1
    rw [next, call, Exec.after_bind]
    show Exec.after (addRequest s.created) _ = _
    unfold addRequest
    rw [Exec.after, Exec.run_bind_ok (EStateM.run_get _),
      if_neg (not_not.mpr (by simp only [Function.update_self]))]
    rfl
  | schedule => exact .assigned
  | advance r n => exact .advanced r n
  | markPrefillDone r =>
    by_cases hc : (s.requests r).state = .prefill ∧ (s.requests r).prefillComplete = true
    · have hr : r ∈ s.running.values :=
        h.mem_running hl (by rw [hc.1]; decide) (by rw [hc.1]; decide)
      have hnext : s.next (.markPrefillDone r) = _ :=
        Exec.after_of_ok (markPrefillDone_run hc.1 hc.2)
      rw [hnext]
      exact .started r hr hc.1 hc.2
    · obtain ⟨e, he⟩ := markPrefillDone_error hc
      have hnext : s.next (.markPrefillDone r) = s := Exec.after_of_error he
      rw [hnext]
      exact .raised _ (by simp)
  | markDecodeDone r tokenId =>
    by_cases hd : (s.requests r).state = .decode
    · have hr : r ∈ s.running.values := h.mem_running hl (by rw [hd]; decide) (by rw [hd]; decide)
      obtain ⟨b, hb, hrun⟩ := markDecodeDone_run h hr hd tokenId
      have hnext : s.next (.markDecodeDone r tokenId) = _ := Exec.after_of_ok hrun
      rw [hnext]
      by_cases hlast : (s.requests r).maxNewTokens ≤ ((s.requests r).numGenerated + 1 : Nat)
      · rw [if_pos hlast]
        exact .completed r b tokenId hr hd hb hlast
      · rw [if_neg hlast]
        exact .pushed r tokenId hr hd hlast
    · obtain ⟨e, he⟩ := markDecodeDone_error hd tokenId
      have hnext : s.next (.markDecodeDone r tokenId) = s := Exec.after_of_error he
      rw [hnext]
      exact .raised _ (by simp)
  | cancelRequest requestId status =>
    have hafter : s.next (.cancelRequest requestId status)
        = Exec.after (Scheduler.cancelRequest requestId status) s :=
      Exec.after_dropped _ s
    rw [hafter]
    rcases cancelRequest_run h requestId status with ⟨r, hr, rfl, hrun⟩ |
      ⟨r, hr, b, rfl, hb, hrun⟩ | ⟨-, -, e, hrun⟩
    · rw [Exec.after_of_ok hrun]
      exact .dropped r status hr
    · rw [Exec.after_of_ok hrun]
      exact .failed r b status hr hb
    · rw [Exec.after_of_error hrun]
      exact .raised _ (by simp)
  | reconfigure maxTokensPerStep maxConcurrentRequests cacheInitialized =>
    rcases reconfigure_run h maxTokensPerStep maxConcurrentRequests cacheInitialized with
      ⟨e, s', hrun, hi, hs, -⟩ | ⟨s', hrun, hi, hs, -⟩
    · have hnext : s.next (.reconfigure maxTokensPerStep maxConcurrentRequests cacheInitialized)
          = s' := Exec.after_of_error hrun
      rw [hnext]
      exact .resized _ _ _ _ hi hs
    · have hnext : s.next (.reconfigure maxTokensPerStep maxConcurrentRequests cacheInitialized)
          = s' := Exec.after_of_ok hrun
      rw [hnext]
      exact .resized _ _ _ _ hi hs

/-- **Every legal call keeps the invariant, and what has ended.** -/
theorem next_inv {s : Scheduler Tok} (h : Inv s) {op : Op Tok} (hl : s.Legal op) :
    Inv (s.next op) ∧ EndedKept s (s.next op) := by
  have hmoved := next_moved h hl
  generalize s.next op = s' at hmoved
  cases hmoved with
  | raised => exact ⟨h, EndedKept.refl s⟩
  | added _ _ _ _ hid =>
    refine ⟨h.add ⟨rfl, rfl, rfl⟩ hid, fun r hr => ⟨hr, ?_⟩⟩
    have hlt : r < s.created := hr.elim (h.completed_lt r) (h.failed_lt r)
    simp only [Function.update_of_ne (Nat.ne_of_lt hlt)]
  | assigned => exact ⟨h.assignWaitingToSlots, assign_endedKept h⟩
  | advanced r n =>
    have hsame : ∀ r', SameStatus (s.requests r') (Function.update s.requests r
        { s.requests r with prefillOffset := (s.requests r).prefillOffset + n } r') := by
      intro r'
      by_cases he : r' = r
      · subst he
        rw [Function.update_self]
        exact ⟨rfl, rfl, rfl, rfl, rfl⟩
      · rw [Function.update_of_ne he]
        exact SameStatus.refl _
    exact ⟨h.touch hsame s.maxTokensPerStep, fun r' hr' => ⟨hr', (hsame r').output⟩⟩
  | started r hr hs _ =>
    obtain ⟨-, hcm, hf⟩ := running_notMem h hr
    refine ⟨h.progress (q := { s.requests r with state := .decode }) hr rfl rfl
      ⟨Or.inr ⟨rfl, Or.inl ?_⟩, (h.running r hr).batchIdx⟩,
      endedKept_update (fun _ => id) (fun _ => id) ⟨hcm, hf⟩ rfl⟩
    rcases (h.running r hr).state with ⟨-, ho⟩ | ⟨hd, -⟩
    · exact ho
    · rw [hs] at hd; cases hd
  | pushed r tokenId hr hd hmore =>
    obtain ⟨-, hcm, hf⟩ := running_notMem h hr
    exact ⟨h.pushToken hr hd tokenId hmore,
      endedKept_update (fun _ => id) (fun _ => id) ⟨hcm, hf⟩ rfl⟩
  | completed r b tokenId hr hd hb hlast =>
    exact ⟨h.completeWith hr hd hb tokenId hlast, complete_endedKept h hr b tokenId⟩
  | dropped r status hr =>
    obtain ⟨-, hc, hf⟩ := waiting_notMem h hr
    exact ⟨h.dropWaiting hr status, endedKept_update (fun _ => id)
      (mem_values_insert (h.notMem_keys h.failedKey h.failed_lt (h.waiting_lt hr) hf))
      ⟨hc, hf⟩ rfl⟩
  | failed r b status hr hb =>
    obtain ⟨-, hc, hf⟩ := running_notMem h hr
    exact ⟨h.failRunning hr hb status, endedKept_update (fun _ => id)
      (mem_values_insert (h.notMem_keys h.failedKey h.failed_lt (h.running_lt hr) hf))
      ⟨hc, hf⟩ rfl⟩
  | resized s' _ _ _ hi hs =>
    refine ⟨hi, fun r hr => ?_⟩
    rw [hs.completed, hs.failed, hs.requests]
    exact ⟨hr, rfl⟩

/-! ## Runs -/

/-- The slots and the requests are where they should be. -/
structure Partitioned (s : Scheduler Tok) : Prop where
  slots : (s.freeSlots.map some ++ s.running.values.map fun r => (s.requests r).batchIdx).Perm
    ((List.range s.maxConcurrentRequests).map some)
  queues : (s.waiting ++ s.running.values ++ s.completed.values ++ s.failed.values).Perm
    (List.range s.created)
  waiting : ∀ r ∈ s.waiting, (s.requests r).state = .waiting
  running : ∀ r ∈ s.running.values,
    (s.requests r).state = .prefill ∨ (s.requests r).state = .decode
  completed : ∀ r ∈ s.completed.values, (s.requests r).state = .finished
  failed : ∀ r ∈ s.failed.values, (s.requests r).state = .finished
  batchIdx : ∀ r < s.created, (s.requests r).batchIdx ≠ none ↔ r ∈ s.running.values
  arrival : s.waiting.Pairwise (· < ·)
  produced : ∀ r ∈ s.completed.values, 1 ≤ (s.requests r).maxNewTokens →
    ((s.requests r).numGenerated : Int) = (s.requests r).maxNewTokens

theorem Inv.partitioned {s : Scheduler Tok} (h : Inv s) : Partitioned s where
  slots := by
    refine Multiset.coe_eq_coe.mp ?_
    rw [← Multiset.coe_add, ← Multiset.map_coe some (List.range _)]
    exact h.slots
  queues := by
    refine Multiset.coe_eq_coe.mp ?_
    rw [← Multiset.coe_add, ← Multiset.coe_add, ← Multiset.coe_add]
    exact h.queued
  waiting := fun r hr => (h.waiting r hr).state
  running := fun r hr => (h.running r hr).state.imp And.left And.left
  completed := fun r hr => (h.completed r hr).1.state
  failed := fun r hr => (h.failed r hr).state
  batchIdx := by
    intro r hr
    refine ⟨fun hb => ?_, fun hm => (h.running r hm).batchIdx⟩
    rcases h.created_iff.mp hr with hm | hm | hm | hm
    · exact absurd (h.waiting r hm).batchIdx hb
    · exact hm
    · exact absurd (h.completed r hm).1.batchIdx hb
    · exact absurd (h.failed r hm).batchIdx hb
  arrival := h.arrival
  produced := fun r hr => (h.completed r hr).2

theorem EndedKept.trans {s s' s'' : Scheduler Tok} (h : EndedKept s s') (h' : EndedKept s' s'') :
    EndedKept s s'' := by
  intro r hr
  obtain ⟨hm, ho⟩ := h r hr
  obtain ⟨hm', ho'⟩ := h' r hm
  exact ⟨hm', ho'.trans ho⟩

/-- A legal run keeps the invariant, and what ended before it. -/
theorem run_inv {ops : List (Op Tok)} {s : Scheduler Tok} (h : Inv s)
    (hl : Exec.Along Legal next s ops) :
    Inv (ops.foldl next s) ∧ EndedKept s (ops.foldl next s) := by
  refine Exec.Along.foldl (J := fun s' => Inv s' ∧ EndedKept s s') ?_ ⟨h, EndedKept.refl s⟩ hl
  intro s' op ⟨hi, hk⟩ hop
  obtain ⟨hi', hk'⟩ := next_inv hi hop
  exact ⟨hi', hk.trans hk'⟩

/-- **Every run keeps the slots and the requests partitioned**, and a request that ended at some
point of it gets no token or slot later. -/
theorem run_partitioned {maxConcurrentRequests maxTokensPerStep : Int} {s : Scheduler Tok}
    (h : new maxConcurrentRequests maxTokensPerStep = .ok s) (before after : List (Op Tok))
    (hl : Exec.Along Legal next s (before ++ after)) :
    Partitioned ((before ++ after).foldl next s) ∧
      ∀ r, ((before.foldl next s).requests r).state = .finished →
        r < (before.foldl next s).created →
        (((before ++ after).foldl next s).requests r).state = .finished ∧
          (((before ++ after).foldl next s).requests r).batchIdx = none ∧
          (((before ++ after).foldl next s).requests r).outputTokenIds =
            ((before.foldl next s).requests r).outputTokenIds := by
  obtain ⟨hbefore, hafter⟩ := Exec.along_append.mp hl
  obtain ⟨hi, -⟩ := run_inv (new_inv h) hbefore
  obtain ⟨hi', hk⟩ := run_inv hi hafter
  rw [List.foldl_append]
  refine ⟨hi'.partitioned, fun r hfin hr => ?_⟩
  have hended : r ∈ (before.foldl next s).completed.values ∨
      r ∈ (before.foldl next s).failed.values := by
    rcases hi.created_iff.mp hr with hm | hm | hm
    · exact absurd ((hi.waiting r hm).state.symm.trans hfin) nofun
    · rcases (hi.running r hm).state with ⟨hs, -⟩ | ⟨hs, -⟩ <;> rw [hs] at hfin <;> cases hfin
    · exact hm
  obtain ⟨hm, ho⟩ := hk r hended
  have hE : Ended ((after.foldl next (before.foldl next s)).requests r) :=
    hm.elim (fun hc => (hi'.completed r hc).1) (hi'.failed r)
  exact ⟨hE.state, hE.batchIdx, ho⟩

/-- Two requests on one slot: the first completes, the second is cancelled. -/
theorem twoRequests_partitioned : ∃ s : Scheduler Nat, new 1 8 = .ok s ∧
    Partitioned ([.addRequest "a" [1, 2] 1 2, .addRequest "b" [3] 2 2, .schedule, .advance 0 2,
      .markPrefillDone 0, .markDecodeDone 0 7, .schedule, .cancelRequest "b" "timeout",
      .cancelRequest "c" "timeout", .reconfigure (some 4) (some 2) false].foldl next s) := by
  obtain ⟨s, h⟩ : ∃ s : Scheduler Nat, new 1 8 = .ok s := ⟨_, rfl⟩
  refine ⟨s, h, (run_partitioned h [.addRequest "a" [1, 2] 1 2, .addRequest "b" [3] 2 2, .schedule,
    .advance 0 2, .markPrefillDone 0, .markDecodeDone 0 7] [.schedule, .cancelRequest "b" "timeout",
    .cancelRequest "c" "timeout", .reconfigure (some 4) (some 2) false] ?_).1⟩
  cases h
  decide +kernel

end Scheduler

end Nifre
