import Nifre.Properties.EngineRuns
import Nifre.Properties.RunnerFrame

/-!
# What a step does, whatever the model does

An invariant that the scheduler's transitions keep is kept by a whole step, for any model and on
either exit.
-/

namespace Nifre

variable {Row Score : Type}

/-! ## The queues of a run -/

namespace Scheduler

/-- What holds of the queues in every run, even if two requests share an id. -/
structure Live (s : Scheduler Nat) : Prop where
  waiting : ∀ r ∈ s.waiting, r < s.created ∧ (s.requests r).state = .waiting
  waiting_nodup : s.waiting.Nodup
  running : ∀ r ∈ s.running.values, r < s.created ∧
    ((s.requests r).state = .prefill ∨ (s.requests r).state = .decode)
  runningKey : ∀ id r, (id, r) ∈ s.running.entries → (s.requests r).requestId = id
  unstarted : ∀ r, (s.requests r).Unstarted
  budget : 1 ≤ s.maxTokensPerStep

variable {s : Scheduler Nat}

theorem new_live {n m : Int} (h : new n m = .ok s) : Live s := by
  unfold new at h
  split at h
  · cases h
  · split at h
    · cases h
    · next hm =>
      cases h
      exact ⟨nofun, List.nodup_nil, nofun, nofun, fun _ _ => rfl, by simp only; omega⟩

theorem Live.forward (h : Live s) {requests : Ref → InferenceRequest Nat}
    (hf : ∀ r, Forwarded (s.requests r) (requests r)) : Live { s with requests := requests } where
  waiting := fun r hr => ⟨(h.waiting r hr).1, (hf r).state.trans (h.waiting r hr).2⟩
  waiting_nodup := h.waiting_nodup
  running := fun r hr => ⟨(h.running r hr).1, by
    simp only [(hf r).state]
    exact (h.running r hr).2⟩
  runningKey := fun id r hm => (hf r).requestId.trans (h.runningKey id r hm)
  unstarted := fun r => (hf r).unstarted (h.unstarted r)
  budget := h.budget

/-- What a transition of one request leaves of it. -/
structure SameProgress (q q' : InferenceRequest Nat) : Prop where
  requestId : q'.requestId = q.requestId
  prompt : q'.promptTokenIds = q.promptTokenIds
  chunk : q'.prefillChunkSize = q.prefillChunkSize
  prepared : q'.slotPrepared = q.slotPrepared
  offset : q'.prefillOffset = q.prefillOffset

/-- **A transition of one request**, which may leave or enter the queues. -/
theorem Live.change (h : Live s) {s' : Scheduler Nat} {r : Ref} {q : InferenceRequest Nat}
    (hreq : s'.requests = Function.update s.requests r q) (hq : SameProgress (s.requests r) q)
    (hcreated : s'.created = s.created) (hbudget : s'.maxTokensPerStep = s.maxTokensPerStep)
    (hwaiting : s'.waiting.Sublist s.waiting) (hr : r ∉ s'.waiting)
    (hrunning : ∀ id r', (id, r') ∈ s'.running.entries → (r' ≠ r ∧ (id, r') ∈ s.running.entries) ∨
      (r' = r ∧ r < s.created ∧ id = (s.requests r).requestId ∧
        (q.state = .prefill ∨ q.state = .decode))) : Live s' := by
  have hself : s'.requests r = q := by rw [hreq, Function.update_self]
  have hother : ∀ r', r' ≠ r → s'.requests r' = s.requests r' := fun r' hne => by
    rw [hreq, Function.update_of_ne hne]
  constructor
  · intro r' hr'
    have hne : r' ≠ r := fun he => hr (he ▸ hr')
    rw [hcreated, hother r' hne]
    exact h.waiting r' (hwaiting.subset hr')
  · exact h.waiting_nodup.sublist hwaiting
  · intro r' hr'
    obtain ⟨id, hm⟩ := OrderedDict.mem_values_iff.mp hr'
    rw [hcreated]
    rcases hrunning id r' hm with ⟨hne, hold⟩ | ⟨rfl, hlt, -, hstate⟩
    · rw [hother r' hne]
      exact h.running r' (OrderedDict.mem_values_iff.mpr ⟨id, hold⟩)
    · rw [hself]
      exact ⟨hlt, hstate⟩
  · intro id r' hm
    rcases hrunning id r' hm with ⟨hne, hold⟩ | ⟨rfl, -, hid, -⟩
    · rw [hother r' hne]
      exact h.runningKey id r' hold
    · rw [hself, hq.requestId, hid]
  · intro r'
    by_cases he : r' = r
    · subst he
      have hu := h.unstarted r'
      unfold InferenceRequest.Unstarted at hu ⊢
      rw [hself, hq.prepared, hq.offset]
      exact hu
    · rw [hother r' he]
      exact h.unstarted r'
  · rw [hbudget]
    exact h.budget

/-- A waiting request does not run. -/
theorem Live.waiting_notMem (h : Live s) {r : Ref} (hr : r ∈ s.waiting) :
    r ∉ s.running.values := by
  intro hrun
  rcases (h.running r hrun).2 with hs | hs <;> exact nomatch (h.waiting r hr).2.symm.trans hs

theorem Live.assignSlot (h : Live s) {r : Ref} {waiting : List Ref} {b : Nat}
    {freeSlots : List Nat} (hw : s.waiting = r :: waiting) :
    Live (s.assignSlot r waiting b freeSlots) := by
  have hr : r ∈ s.waiting := by rw [hw]; exact List.mem_cons_self
  have hnd := h.waiting_nodup
  rw [hw, List.nodup_cons] at hnd
  rw [assignSlot_eq]
  refine h.change (q := { s.requests r with batchIdx := some b, state := .prefill }) rfl
    ⟨rfl, rfl, rfl, rfl, rfl⟩ rfl rfl (by rw [hw]; exact List.sublist_cons_self r waiting) hnd.1 ?_
  intro id r' hm
  rcases OrderedDict.mem_insert.mp hm with ⟨hid, hrr⟩ | ⟨-, hold⟩
  · exact Or.inr ⟨hrr, (h.waiting r hr).1, hid, Or.inl rfl⟩
  · refine Or.inl ⟨?_, hold⟩
    rintro rfl
    exact h.waiting_notMem hr (OrderedDict.mem_values_iff.mpr ⟨id, hold⟩)

theorem Live.assignWaitingToSlots (h : Live s) : Live s.assignWaitingToSlots :=
  assignRounds_induct (fun _ _ _ _ _ hl hw _ => hl.assignSlot hw) _ h

/-- One running request changes its object and goes on. -/
theorem Live.update (h : Live s) {r : Ref} {q : InferenceRequest Nat}
    (hq : SameProgress (s.requests r) q) (hw : r ∉ s.waiting)
    (hrun : r ∈ s.running.values → q.state = .prefill ∨ q.state = .decode) :
    Live { s with requests := Function.update s.requests r q } := by
  refine h.change rfl hq rfl rfl (List.Sublist.refl _) hw fun id r' hm => ?_
  by_cases he : r' = r
  · subst he
    have hr := OrderedDict.mem_values_iff.mpr ⟨id, hm⟩
    exact Or.inr ⟨rfl, (h.running r' hr).1, (h.runningKey id r' hm).symm, hrun hr⟩
  · exact Or.inl ⟨he, hm⟩

theorem Live.notMem_waiting (h : Live s) {r : Ref} (hs : (s.requests r).state ≠ .waiting) :
    r ∉ s.waiting :=
  fun hr => hs (h.waiting r hr).2

/-- The scheduler after a request completed with its last token, and gave its slot back if it had
one. -/
def finishWith (s : Scheduler Nat) (r : Ref) (tokenId : Nat) : Scheduler Nat :=
  { s with
    requests := Function.update s.requests r
      { pushToken (s.requests r) tokenId with state := .finished, batchIdx := none }
    running := s.running.erase (s.requests r).requestId
    completed := s.completed.insert (s.requests r).requestId r
    freeSlots := s.freeSlots ++ (s.requests r).batchIdx.toList }

/-- `max_new_tokens` is reached with the next token. -/
def LastToken (q : InferenceRequest Nat) : Prop :=
  q.maxNewTokens ≤ (q.numGenerated + 1 : Nat)

instance (q : InferenceRequest Nat) : Decidable (LastToken q) :=
  inferInstanceAs (Decidable (q.maxNewTokens ≤ (q.numGenerated + 1 : Nat)))

/-- **The ways `mark_decode_done` ends**, from any state. -/
inductive DecodeOutcome (s : Scheduler Nat) (r : Ref) (tokenId : Nat) :
    EStateM.Result PyError (Scheduler Nat) Unit → Prop
  | rejected (e) : (s.requests r).state ≠ .decode → DecodeOutcome s r tokenId (.error e s)
  | more : (s.requests r).state = .decode → ¬LastToken (s.requests r) →
    DecodeOutcome s r tokenId (.ok () { s with
      requests := Function.update s.requests r (pushToken (s.requests r) tokenId) })
  | last : (s.requests r).state = .decode → LastToken (s.requests r) →
    (s.requests r).requestId ∈ s.running.keys →
    DecodeOutcome s r tokenId (.ok () (s.finishWith r tokenId))
  | gone (e) : (s.requests r).state = .decode → LastToken (s.requests r) →
    (s.requests r).requestId ∉ s.running.keys →
    DecodeOutcome s r tokenId (.error e { s with
      requests := Function.update s.requests r
        { pushToken (s.requests r) tokenId with state := .finished } })

theorem markDecodeDone_outcome (s : Scheduler Nat) (r : Ref) (tokenId : Nat) :
    DecodeOutcome s r tokenId ((markDecodeDone r tokenId).run s) := by
  by_cases hd : (s.requests r).state = .decode
  · set s₁ : Scheduler Nat := { s with
      requests := Function.update s.requests r (pushToken (s.requests r) tokenId) } with hs₁
    have hreq : s₁.requests r = pushToken (s.requests r) tokenId := by simp [hs₁]
    have hlen : (pushToken (s.requests r) tokenId).numGenerated
        = (s.requests r).numGenerated + 1 := by
      simp [pushToken, InferenceRequest.numGenerated]
    have hrun : (markDecodeDone r tokenId).run s
        = (if LastToken (s.requests r) then finishRequest r else pure ()).run s₁ := by
      unfold markDecodeDone
      rw [Exec.run_bind_ok (EStateM.run_get s), if_neg (not_not.mpr hd)]
      show (set s₁ >>= fun _ =>
        if (s₁.requests r).maxNewTokens ≤ ((s₁.requests r).numGenerated : Int)
        then finishRequest r else pure () : M Nat Unit).run s = _
      rw [Exec.run_bind_ok (EStateM.run_set s₁ s), hreq, hlen]
      rfl
    rw [hrun]
    by_cases hlast : LastToken (s.requests r)
    · rw [if_pos hlast]
      unfold finishRequest
      rw [Exec.run_bind_ok (EStateM.run_modify _ s₁), Exec.run_bind_ok (EStateM.run_get _)]
      have hid : ((s₁.update r fun request => { request with state := .finished }).requests
          r).requestId = (s.requests r).requestId := by simp [update, hreq, pushToken]
      have hrunning : (s₁.update r fun request => { request with state := .finished }).running
          = s.running := rfl
      simp only [hid, hrunning]
      by_cases hk : (s.requests r).requestId ∈ s.running.keys
      · rw [if_neg (by simp [OrderedDict.contains_iff.mpr hk])]
        have hout : DecodeOutcome s r tokenId _ := .last hd hlast hk
        convert hout using 1
        show EStateM.Result.ok _ _ = _
        cases hb : (s.requests r).batchIdx <;>
          simp [freeSlot, update, hs₁, pushToken, hb, finishWith]
      · have hc : s.running.contains (s.requests r).requestId = false := by
          simpa using fun hc => hk (OrderedDict.contains_iff.mp hc)
        rw [if_pos hc]
        have hout : DecodeOutcome s r tokenId _ :=
          .gone (.keyError (s.requests r).requestId) hd hlast hk
        convert hout using 1
        show EStateM.Result.error _ _ = _
        simp [update, hs₁]
    · rw [if_neg hlast]
      exact .more hd hlast
  · obtain ⟨e, he⟩ := markDecodeDone_error hd tokenId
    rw [he]
    exact .rejected e hd

/-- The running requests when the entry of one request's id is deleted. -/
theorem Live.erased (h : Live s) {r r' : Ref} {id : String}
    (hm : (id, r') ∈ (s.running.erase (s.requests r).requestId).entries) :
    r' ≠ r ∧ (id, r') ∈ s.running.entries := by
  obtain ⟨hold, hne⟩ := OrderedDict.mem_erase.mp hm
  refine ⟨?_, hold⟩
  rintro rfl
  exact hne (h.runningKey id r' hold).symm

/-- **A token for a request that decodes**, on either exit. -/
theorem Live.decodeOutcome (h : Live s) {r : Ref} {tokenId : Nat}
    {result : EStateM.Result PyError (Scheduler Nat) Unit}
    (ho : DecodeOutcome s r tokenId result) :
    Live (Exec.stateOf result) ∧ (Exec.stateOf result).created = s.created := by
  have hw : (s.requests r).state = .decode → r ∉ s.waiting :=
    fun hd => h.notMem_waiting (by simp [hd])
  cases ho with
  | rejected e _ => exact ⟨h, rfl⟩
  | more hd _ => exact ⟨h.update ⟨rfl, rfl, rfl, rfl, rfl⟩ (hw hd) fun _ => Or.inr hd, rfl⟩
  | last hd _ _ =>
    refine ⟨h.change (q := { pushToken (s.requests r) tokenId with
      state := .finished, batchIdx := none }) rfl ⟨rfl, rfl, rfl, rfl, rfl⟩ rfl rfl
      (List.Sublist.refl _) (hw hd) fun id r' hm => Or.inl (h.erased hm), rfl⟩
  | gone e hd _ hk =>
    -- without an entry for its id the request does not run
    refine ⟨h.update ⟨rfl, rfl, rfl, rfl, rfl⟩ (hw hd) fun hr => ?_, rfl⟩
    obtain ⟨id, hm⟩ := OrderedDict.mem_values_iff.mp hr
    have hkey := h.runningKey id r hm
    subst hkey
    exact absurd (OrderedDict.mem_keys_of_mem hm) hk

/-! ## Requests that come, and requests that are cancelled -/

theorem Live.add (h : Live s) {q : InferenceRequest Nat} (hs : q.state = .waiting)
    (hu : q.Unstarted) : Live (Engine.withRequest s q) := by
  have hold : ∀ r < s.created, (Engine.withRequest s q).requests r = s.requests r :=
    fun r hr => Engine.withRequest_old s q hr
  have hall : ∀ r, (Engine.withRequest s q).requests r = q ∨
      (Engine.withRequest s q).requests r = s.requests r := by
    intro r
    by_cases he : r = s.created
    · exact Or.inl (he ▸ Engine.withRequest_new s q)
    · exact Or.inr (Function.update_of_ne he _ _)
  constructor
  · intro r hr
    rcases List.mem_append.mp hr with hm | hm
    · obtain ⟨hlt, hw⟩ := h.waiting r hm
      exact ⟨Nat.lt_succ_of_lt hlt, (hold r hlt).symm ▸ hw⟩
    · rw [List.mem_singleton.mp hm, Engine.withRequest_new]
      exact ⟨Nat.lt_succ_self _, hs⟩
  · refine List.nodup_append.mpr ⟨h.waiting_nodup, List.nodup_singleton _, fun r hr r' hr' => ?_⟩
    rw [List.mem_singleton.mp hr']
    exact Nat.ne_of_lt (h.waiting r hr).1
  · intro r hr
    obtain ⟨hlt, hstate⟩ := h.running r hr
    exact ⟨Nat.lt_succ_of_lt hlt, by rw [hold r hlt]; exact hstate⟩
  · intro id r hm
    have hlt := (h.running r (OrderedDict.mem_values_iff.mpr ⟨id, hm⟩)).1
    rw [hold r hlt]
    exact h.runningKey id r hm
  · intro r
    rcases hall r with he | he <;> rw [he]
    · exact hu
    · exact h.unstarted r
  · exact h.budget

/-- The scheduler after `cancel_request` took request `r` out of the queues. -/
def cancelled (s : Scheduler Nat) (r : Ref) (requestId status : String) : Scheduler Nat :=
  { s with
    waiting := s.waiting.filter fun r' => ¬(s.requests r').requestId = requestId
    requests := Function.update s.requests r
      { s.requests r with state := .finished, status := status }
    failed := s.failed.insert requestId r }

/-- As `cancelled`, for a request that had an entry among the running ones. -/
def cancelledRunning (s : Scheduler Nat) (r : Ref) (requestId status : String) : Scheduler Nat :=
  { s with
    requests := Function.update s.requests r
      { s.requests r with state := .finished, status := status, batchIdx := none }
    running := s.running.erase requestId
    failed := s.failed.insert requestId r
    freeSlots := s.freeSlots ++ (s.requests r).batchIdx.toList }

/-- **The ways `cancel_request` ends**, from any state. -/
inductive CancelOutcome (s : Scheduler Nat) (requestId status : String) :
    EStateM.Result PyError (Scheduler Nat) Ref → Prop
  | waiting (r) : r ∈ s.waiting → (s.requests r).requestId = requestId →
    CancelOutcome s requestId status (.ok r (s.cancelled r requestId status))
  | running (r) : (∀ r' ∈ s.waiting, (s.requests r').requestId ≠ requestId) →
    (requestId, r) ∈ s.running.entries →
    CancelOutcome s requestId status (.ok r (s.cancelledRunning r requestId status))
  | unknown (e) : (∀ r' ∈ s.waiting, (s.requests r').requestId ≠ requestId) →
    requestId ∉ s.running.keys → CancelOutcome s requestId status (.error e s)

theorem cancelRequest_outcome (s : Scheduler Nat) (requestId status : String) :
    CancelOutcome s requestId status ((cancelRequest requestId status).run s) := by
  unfold cancelRequest
  rw [Exec.run_bind_ok (EStateM.run_get s)]
  simp only
  rcases hf : (s.waiting.filter fun r => (s.requests r).requestId = requestId).getLast? with - | r
  · have hnone : ∀ r ∈ s.waiting, (s.requests r).requestId ≠ requestId := by
      have := List.filter_eq_nil_iff.mp (List.getLast?_eq_none_iff.mp hf)
      exact fun r hr => by simpa using this r hr
    have hall : (s.waiting.filter fun r => ¬(s.requests r).requestId = requestId) = s.waiting :=
      List.filter_eq_self.mpr fun r hr => by simpa using hnone r hr
    simp only [hall]
    rcases hr : s.running.find? requestId with - | r
    · simp only
      rw [Exec.run_bind_ok (EStateM.run_set _ s)]
      exact .unknown _ hnone (OrderedDict.find?_eq_none_iff.mp hr)
    · have hout : CancelOutcome s requestId status _ :=
        .running r hnone (OrderedDict.find?_eq_some_iff.mp hr)
      simp only
      rw [Exec.run_bind_ok (EStateM.run_set _ s)]
      convert hout using 1
      show EStateM.Result.ok _ _ = _
      cases hb : (s.requests r).batchIdx <;> simp [freeSlot, update, cancelledRunning, hb]
  · have hmem := List.mem_filter.mp (List.mem_of_getLast? hf)
    have hout : CancelOutcome s requestId status _ := .waiting r hmem.1 (by simpa using hmem.2)
    simp only
    rw [Exec.run_bind_ok (EStateM.run_set _ s)]
    exact hout

theorem Live.cancelOutcome (h : Live s) {requestId status : String}
    {result : EStateM.Result PyError (Scheduler Nat) Ref}
    (ho : CancelOutcome s requestId status result) : Live (Exec.stateOf result) := by
  cases ho with
  | waiting r hr hid =>
    refine h.change (r := r) (q := { s.requests r with state := .finished, status := status }) rfl
      ⟨rfl, rfl, rfl, rfl, rfl⟩ rfl rfl List.filter_sublist (fun hm => ?_) fun id r' hm =>
        Or.inl ⟨?_, hm⟩
    · simpa [hid] using (List.mem_filter.mp hm).2
    · rintro rfl
      exact h.waiting_notMem hr (OrderedDict.mem_values_iff.mpr ⟨id, hm⟩)
  | running r _ hm =>
    have hid := h.runningKey _ _ hm
    have hrun := OrderedDict.mem_values_iff.mpr ⟨_, hm⟩
    have hw : r ∉ s.waiting := fun hr => h.waiting_notMem hr hrun
    refine h.change (r := r)
      (q := { s.requests r with state := .finished, status := status, batchIdx := none }) rfl
      ⟨rfl, rfl, rfl, rfl, rfl⟩ rfl rfl (List.Sublist.refl _) hw fun id r' hm' => Or.inl ?_
    exact h.erased (hid.symm ▸ hm')
  | unknown e _ _ => exact h

/-! ## Reconfigurations -/

/-- What `reconfigure` may change, on either exit: the slots and the budget. -/
structure OnlyResized (s s' : Scheduler Nat) : Prop extends SameQueues s s' where
  budget : s'.maxTokensPerStep = s.maxTokensPerStep ∨ 0 < s'.maxTokensPerStep

theorem OnlyResized.live {s' : Scheduler Nat} (hs : OnlyResized s s') (h : Live s) : Live s' where
  waiting := by rw [hs.waiting, hs.requests, hs.created]; exact h.waiting
  waiting_nodup := by rw [hs.waiting]; exact h.waiting_nodup
  running := by rw [hs.running, hs.requests, hs.created]; exact h.running
  runningKey := by rw [hs.running, hs.requests]; exact h.runningKey
  unstarted := by rw [hs.requests]; exact h.unstarted
  budget := by
    have := h.budget
    rcases hs.budget with he | hpos <;> omega

theorem reconfigure_onlyResized (maxTokensPerStep maxConcurrentRequests : Option Int)
    (cacheInitialized : Bool) : Exec.Keeps (OnlyResized s)
      (reconfigure maxTokensPerStep maxConcurrentRequests cacheInitialized) := by
  have hset : ∀ {s' : Scheduler Nat} (freeSlots : List Nat) (n : Nat), OnlyResized s s' →
      OnlyResized s { s' with freeSlots := freeSlots, maxConcurrentRequests := n } :=
    fun _ _ h => { h with }
  have hrest : ∀ o : Option Int, Exec.Keeps (OnlyResized s)
      (reconfigure none o cacheInitialized) := by
    rintro (- | v)
    · exact Exec.Keeps.pure ()
    · refine Exec.Keeps.ite (fun _ => Exec.Keeps.throw _) fun _ =>
        Exec.Keeps.get_bind fun s' hs' => ?_
      refine Exec.Keeps.ite (fun _ => Exec.Keeps.pure ()) (fun _ => Exec.Keeps.ite
        (fun _ => Exec.Keeps.throw _) fun _ => Exec.Keeps.ite (fun _ => Exec.Keeps.throw _)
        fun _ => ?_) s' hs'
      split
      · exact Exec.Keeps.throw _
      · exact fun _ _ => hset _ _ hs'
  cases maxTokensPerStep with
  | none => exact hrest maxConcurrentRequests
  | some v =>
    refine Exec.Keeps.ite (fun _ => Exec.Keeps.bind (Exec.Keeps.throw _) fun _ =>
      hrest maxConcurrentRequests) fun hv => Exec.Keeps.bind (Exec.Keeps.modify fun s' hs' =>
        { hs' with budget := Or.inr (by simp only; omega) }) fun _ => hrest maxConcurrentRequests

end Scheduler

/-! ## A step, piece by piece -/

namespace Engine

open Scheduler (Live)

variable {chain : Int → List Nat → Int}

/-- The engine after `mark_decode_done` and the token callback of the request. -/
def handled (e : Engine Row) (r : Ref) (tokenId : Nat) : Engine Row :=
  match (Scheduler.markDecodeDone r tokenId).run e.scheduler with
  | .ok _ s =>
    { e with
      scheduler := s
      emitted := if (e.scheduler.requests r).requestId ∈ e.tokenCallbacks then
        e.emitted ++ [((e.scheduler.requests r).requestId, tokenId)] else e.emitted }
  | .error _ s => { e with scheduler := s }

/-- An invariant that every piece of a step keeps, with a cache that changes as `K` says. -/
structure StepClosed (model : InferenceModel Row Score)
    (K : KVCacheType Row → KVCacheType Row → Prop) (I : Engine Row → Prop) : Prop where
  made : ∀ e c, I e → e.cache = none →
    makeCache model e.usePagedKvCache e.usePrefixCache e.maxConcurrentRequests.toNat = .ok c →
    I { e with cache := some c }
  cache : ∀ e c c', I e → e.cache = some c → K c c' → I { e with cache := some c' }
  forward : ∀ e requests, Live e.scheduler → I e →
    (∀ r, Forwarded (e.scheduler.requests r) (requests r)) →
    I { e with scheduler := { e.scheduler with requests := requests } }
  assign : ∀ e r waiting b freeSlots, Live e.scheduler → I e →
    e.scheduler.waiting = r :: waiting → e.scheduler.freeSlots = b :: freeSlots →
    I { e with scheduler := e.scheduler.assignSlot r waiting b freeSlots }
  startDecode : ∀ e r, Live e.scheduler → I e → r < e.scheduler.created →
    (e.scheduler.requests r).state = .prefill → (e.scheduler.requests r).prefillComplete = true →
    I { e with scheduler := e.scheduler.update r fun q => { q with state := .decode } }
  handle : ∀ e r tokenId, Live e.scheduler → I e → r < e.scheduler.created →
    (e.scheduler.requests r).state = .decode → I (handled e r tokenId)

/-- The invariant with what holds in every run, and the number of requests so far. -/
structure During (I : Engine Row → Prop) (k : Nat) (e : Engine Row) : Prop where
  live : Live e.scheduler
  inv : I e
  created : e.scheduler.created = k

variable {model : InferenceModel Row Score} {K : KVCacheType Row → KVCacheType Row → Prop}
  {I : Engine Row → Prop} {k : Nat}

theorem onCache_during (hI : StepClosed model K I) {α : Type} {m : KVCacheType.M Row α}
    (hm : ∀ c, K c (Exec.after m c)) : Exec.Keeps (During I k) (onCache m) := by
  refine Exec.Keeps.get_bind fun e he => ?_
  cases hc : e.cache with
  | none => exact he
  | some c =>
    simp only
    rw [Exec.after_within]
    exact ⟨he.live, hI.cache e c _ he.inv hc (hm c), he.created⟩

theorem ensureCache_during (hI : StepClosed model K I) :
    Exec.Keeps (During I k) (ensureCache model) := by
  refine Exec.Keeps.get_bind fun e he => ?_
  cases hc : e.cache with
  | some c => exact he
  | none =>
    simp only
    cases hmake : makeCache model e.usePagedKvCache e.usePrefixCache
        e.maxConcurrentRequests.toNat with
    | error err => exact he
    | ok c => exact ⟨he.live, hI.made e c he.inv hc hmake, he.created⟩

theorem schedule_during (hI : StepClosed model K I) {e : Engine Row} (he : During I k e) :
    During I k { e with scheduler := e.scheduler.assignWaitingToSlots } := by
  refine Scheduler.assignRounds_induct (I := fun s => During I k { e with scheduler := s })
    (fun s r waiting b freeSlots hs hw hf => ?_) _ he
  exact ⟨hs.live.assignSlot hw, hI.assign _ r waiting b freeSlots hs.live hs.inv hw hf,
    by rw [Scheduler.assignSlot_eq]; exact hs.created⟩

theorem releaseCacheSlot_during (hI : StepClosed model K I) (hK : CacheSteps chain model K)
    (batchIdx : Option Nat) (r : Ref) : Exec.Keeps (During I k) (releaseCacheSlot batchIdx r) := by
  refine Exec.Keeps.get_bind fun e he => Exec.Keeps.ite (fun _ => Exec.Keeps.pure ())
    (fun _ => ?_) e he
  split
  · exact onCache_during hI (hK.resetSlot _)
  · exact Exec.Keeps.pure ()

theorem registerComplete_during (hI : StepClosed model K I) (hK : CacheSteps chain model K)
    (r : Ref) : Exec.Keeps (During I k) (registerComplete chain r) :=
  Exec.Keeps.get_bind fun e he => Exec.Keeps.ite (fun _ => Exec.Keeps.ofExcept_bind fun b _ =>
    onCache_during hI (hK.registerPrefix b _)) (fun _ => Exec.Keeps.pure ()) e he

theorem emitToken_eq (requestId : String) (tokenId : Nat) (e : Engine Row) :
    (emitToken requestId tokenId).run e = .ok () { e with
      emitted := if requestId ∈ e.tokenCallbacks then e.emitted ++ [(requestId, tokenId)]
        else e.emitted } := by
  unfold emitToken
  rw [Exec.run_bind_ok (EStateM.run_get e)]
  by_cases h : requestId ∈ e.tokenCallbacks
  · rw [if_pos h, if_pos h]
    rfl
  · rw [if_neg h, if_neg h]
    rfl

/-- **A token for a request of the batch**, on either exit. -/
theorem acceptToken_during (hI : StepClosed model K I) (hK : CacheSteps chain model K)
    {e : Engine Row} (he : During I k e) {r : Ref} (hr : r < k) (tokenId : Nat)
    (batchIdx : Option Nat) :
    During I k (Exec.after (do
      onScheduler (Scheduler.markDecodeDone r tokenId)
      emitToken (e.scheduler.requests r).requestId tokenId
      releaseCacheSlot batchIdx r) e) := by
  by_cases hd : (e.scheduler.requests r).state = .decode
  · obtain ⟨hlive, hcreated⟩ := he.live.decodeOutcome
      (Scheduler.markDecodeDone_outcome e.scheduler r tokenId)
    have hhandled := hI.handle e r tokenId he.live he.inv (he.created ▸ hr) hd
    unfold handled at hhandled
    cases hrun : (Scheduler.markDecodeDone r tokenId).run e.scheduler with
    | error err s =>
      rw [hrun] at hlive hcreated hhandled
      rw [Exec.after_of_error (Exec.run_bind_error (onScheduler_error hrun))]
      exact ⟨hlive, hhandled, hcreated.trans he.created⟩
    | ok u s =>
      rw [hrun] at hlive hcreated hhandled
      rw [Exec.after_bind, onScheduler_run hrun]
      simp only
      rw [Exec.after_bind, emitToken_eq]
      exact releaseCacheSlot_during hI hK batchIdx r _ ⟨hlive, hhandled, hcreated.trans he.created⟩
  · obtain ⟨err, hmark⟩ := Scheduler.markDecodeDone_error hd tokenId
    rw [Exec.after_of_error (Exec.run_bind_error (onScheduler_error hmark))]
    exact he

theorem finishDecode_during (hI : StepClosed model K I) (hK : CacheSteps chain model K) {r : Ref}
    (hr : r < k) (tokenId : Nat) : Exec.Keeps (During I k) (finishDecode r tokenId) :=
  Exec.Keeps.get_bind fun _ he => acceptToken_during hI hK he hr tokenId _

theorem finishPrefill_during (hI : StepClosed model K I) (hK : CacheSteps chain model K) {r : Ref}
    (hr : r < k) (tokenId : Option Nat) :
    Exec.Keeps (During I k) (finishPrefill chain r tokenId) := by
  refine Exec.Keeps.bind (registerComplete_during hI hK r) fun _ => ?_
  cases tokenId with
  | none => exact Exec.Keeps.pure ()
  | some tokenId =>
    refine Exec.Keeps.get_bind fun e he => ?_
    simp only
    by_cases hs : (e.scheduler.requests r).state = .prefill ∧
        (e.scheduler.requests r).prefillComplete = true
    · rw [Exec.after_bind, onScheduler_run (Scheduler.markPrefillDone_run hs.1 hs.2)]
      have hw := he.live.notMem_waiting (r := r) (by simp [hs.1])
      have hstart : During I k { e with
          scheduler := e.scheduler.update r fun q => { q with state := .decode } } :=
        ⟨he.live.update ⟨rfl, rfl, rfl, rfl, rfl⟩ hw fun _ => Or.inr rfl,
          hI.startDecode e r he.live he.inv (he.created ▸ hr) hs.1 hs.2, he.created⟩
      have hid : ((e.scheduler.update r fun q => { q with state := .decode }).requests
          r).requestId = (e.scheduler.requests r).requestId := by simp [Scheduler.update]
      have haccept := acceptToken_during hI hK hstart hr tokenId (e.scheduler.requests r).batchIdx
      rw [hid] at haccept
      exact haccept
    · obtain ⟨err, herr⟩ := Scheduler.markPrefillDone_error hs
      rw [Exec.after_of_error (Exec.run_bind_error (onScheduler_error herr))]
      exact he

/-- A step changes neither the number of slots nor the budget of the scheduler. -/
theorem stepClosed_schedulerSettings (model : InferenceModel Row Score) (slots : Nat)
    (budget : Int) : StepClosed model (fun _ _ => True) fun e =>
      e.scheduler.maxConcurrentRequests = slots ∧ e.scheduler.maxTokensPerStep = budget where
  made := fun _ _ h _ _ => h
  cache := fun _ _ _ h _ _ => h
  forward := fun _ _ _ h _ => h
  assign := fun e r waiting b freeSlots _ h _ _ => by
    rw [Scheduler.assignSlot_eq]
    exact h
  startDecode := fun _ _ _ h _ _ _ => h
  handle := by
    intro e r tokenId _ h _ _
    have ho := Scheduler.markDecodeDone_outcome e.scheduler r tokenId
    unfold handled
    generalize (Scheduler.markDecodeDone r tokenId).run e.scheduler = result at ho
    cases ho <;> exact h

/-- Two computations of the model runner that do the same do the same in the engine. -/
theorem onRunner_congr {e : Engine Row} {α : Type} {m m' : ModelRunner.M Row α}
    (h : ∀ c, e.cache = some c →
      m.run ⟨e.scheduler.requests, c⟩ = m'.run ⟨e.scheduler.requests, c⟩) :
    (onRunner m).run e = (onRunner m').run e := by
  unfold onRunner
  rw [Exec.run_bind_ok (EStateM.run_get e), Exec.run_bind_ok (EStateM.run_get e)]
  cases hc : e.cache with
  | none => rfl
  | some c =>
    have hsame := h c hc
    simp only [Exec.within, EStateM.run] at hsame ⊢
    rw [hsame]

/-- What the model runner leaves, on either exit. -/
theorem onRunner_during (hI : StepClosed model K I) (hK : CacheSteps chain model K) {α : Type}
    {m : ModelRunner.M Row α} (hm : ∀ requests c, (∀ r, (requests r).Unstarted) →
      Exec.Keeps (ModelRunner.Forwards K requests c) m) : Exec.Keeps (During I k) (onRunner m) := by
  refine Exec.Keeps.get_bind fun e he => ?_
  cases hc : e.cache with
  | none => exact he
  | some c =>
    simp only
    rw [Exec.after_within]
    obtain ⟨hf, hcache⟩ := hm e.scheduler.requests c he.live.unstarted
      ⟨e.scheduler.requests, c⟩ (ModelRunner.forwards_refl hK ⟨e.scheduler.requests, c⟩)
    have hinv := hI.forward e _ he.live he.inv hf
    exact ⟨he.live.forward hf, hI.cache _ c _ hinv hc hcache, he.created⟩

variable [LinearOrder Score]

theorem runPrefill_during (hI : StepClosed model K I) (hK : CacheSteps chain model K)
    {rs : List Ref} (hrs : ∀ r ∈ rs, r < k) :
    Exec.Keeps (During I k) (runPrefill chain model rs) := by
  refine Exec.Keeps.bind (onRunner_during hI hK fun requests c hun => ?_) fun tokens =>
    Exec.Keeps.forM _ fun (r, token) hmem =>
      finishPrefill_during hI hK (hrs r (List.of_mem_zip hmem).1) token
  exact Exec.keeps_iff_triple.mpr ((ModelRunner.prefill_forwards hK hun).conseq (fun _ h => h)
    (fun _ _ h => h.1) fun _ h => h)

theorem runDecode_during (hI : StepClosed model K I) (hK : CacheSteps chain model K)
    {rs : List Ref} (hrs : ∀ r ∈ rs, r < k) : Exec.Keeps (During I k) (runDecode model rs) := by
  refine Exec.Keeps.bind (onRunner_during hI hK fun requests c _ => ?_) fun tokens =>
    Exec.Keeps.forM _ fun (r, token) hmem =>
      finishDecode_during hI hK (hrs r (List.of_mem_zip hmem).1) token
  exact Exec.keeps_iff_triple.mpr ((ModelRunner.decode_forwards hK).conseq (fun _ h => h)
    (fun _ _ h => h.1) fun _ h => h)

/-- **A step keeps the invariant**, on either exit. -/
theorem StepClosed.step (hI : StepClosed model K I) (hK : CacheSteps chain model K) :
    Exec.Keeps (During I k) (step chain model) := by
  refine Exec.Keeps.get_bind fun e he => Exec.Keeps.ite (fun _ => Exec.Keeps.pure false)
    (fun _ => ?_) e he
  refine Exec.Keeps.bind (ensureCache_during hI) fun _ e₁ h₁ => ?_
  obtain ⟨result, hsched, hprefill, hdecode⟩ := Scheduler.schedule_run e₁.scheduler
  rw [Exec.after_bind, onScheduler_run hsched]
  have h₂ := schedule_during hI h₁
  have hlt : ∀ r ∈ e₁.scheduler.assignWaitingToSlots.running.values, r < k :=
    fun r hr => h₂.created ▸ (h₂.live.running r hr).1
  have hfirst : Exec.Keeps (During I k) (prefillBatch chain model result.prefillRequests) :=
    Exec.Keeps.ite (fun _ => runPrefill_during hI hK fun r hr =>
      hlt r (List.mem_filter.mp (hprefill.subset hr)).1) fun _ => Exec.Keeps.pure ()
  have hsecond : Exec.Keeps (During I k) (decodeBatch model result.decodeRequests) :=
    Exec.Keeps.ite (fun _ => runDecode_during hI hK fun r hr =>
      hlt r (List.mem_filter.mp (hdecode.subset hr)).1) fun _ => Exec.Keeps.pure ()
  exact hfirst.bind (fun _ => hsecond.bind fun _ => Exec.Keeps.pure true) _ h₂

/-! ## Calls and runs -/

omit [LinearOrder Score] in
theorem new_live {maxConcurrentRequests prefillChunkSize maxTokensPerStep : Int}
    {usePagedKvCache usePrefixCache : Bool} {e : Engine Row}
    (h : new model maxConcurrentRequests prefillChunkSize maxTokensPerStep usePagedKvCache
      usePrefixCache = .ok e) : Live e.scheduler := by
  obtain ⟨s, hs, he⟩ := Exec.bind_eq_ok h
  cases he
  exact Scheduler.new_live hs

/-- The scheduler part of a cancellation, which is all that changes. -/
theorem cancelRequest_pieces {J : Engine Row → Prop} {requestId status : String}
    (hscheduler : ∀ e, J e → J { e with
      scheduler := Exec.after (Scheduler.cancelRequest requestId status) e.scheduler })
    (hcache : ∀ (b : Nat) e c, J e → e.cache = some c → J { e with
      cache := some (Exec.after (KVCacheType.resetSlot (b : Int)) c) }) :
    Exec.Keeps J (cancelRequest requestId status) := by
  refine Exec.Keeps.bind (Exec.Keeps.within hscheduler) fun r => Exec.Keeps.get_bind fun e he => ?_
  simp only
  split
  · next b c _ hc =>
    refine Exec.Keeps.bind (Exec.Keeps.get_bind fun e' he' => ?_) (fun _ => Exec.Keeps.pure r) e he
    split
    · exact he'
    · next c' hc' =>
      rw [Exec.after_within]
      exact hcache b e' c' he' hc'
  · exact he

/-- The reconfiguration of the scheduler keeps its queues. -/
theorem reconfigureScheduler_pieces {J : Engine Row → Prop}
    {maxTokensPerStep maxConcurrentRequests : Option Int} {cacheInitialized : Bool}
    (hscheduler : ∀ e s, J e → Scheduler.OnlyResized e.scheduler s → J { e with scheduler := s })
    (hmax : ∀ v e, J e → J { e with maxConcurrentRequests := v }) : Exec.Keeps J
      (reconfigureScheduler maxTokensPerStep maxConcurrentRequests cacheInitialized) :=
  Exec.Keeps.ite (fun _ => Exec.Keeps.bind (Exec.Keeps.within fun e he => hscheduler e _ he
    (Scheduler.reconfigure_onlyResized maxTokensPerStep maxConcurrentRequests _ e.scheduler
      ⟨⟨rfl, rfl, rfl, rfl, rfl, rfl⟩, Or.inl rfl⟩)) fun _ =>
        assignSome_keeps _ fun v _ => hmax v) fun _ => Exec.Keeps.pure ()

/-- An invariant that every call but `add_request` keeps, for any model. -/
structure OthersClosed (chain : Int → List Nat → Int) (model : InferenceModel Row Score)
    (I : Engine Row → Prop) : Prop where
  step : ∃ K, StepClosed model K I ∧ CacheSteps chain model K
  cancel : ∀ e requestId status, Live e.scheduler → I e → I { e with
    scheduler := Exec.after (Scheduler.cancelRequest requestId status) e.scheduler }
  resize : ∀ e s, I e → Scheduler.OnlyResized e.scheduler s → I { e with scheduler := s }
  settings : ∀ e e', I e → e'.scheduler = e.scheduler → e'.cache = e.cache →
    (1 ≤ e.prefillChunkSize → 1 ≤ e'.prefillChunkSize) → I e'

/-- An invariant that every call keeps, for any model and any ids. -/
structure CallClosed (chain : Int → List Nat → Int) (model : InferenceModel Row Score)
    (I : Engine Row → Prop) : Prop extends OthersClosed chain model I where
  add : ∀ e requestId promptTokenIds maxNewTokens, Live e.scheduler → I e →
    I { e with scheduler :=
      withRequest e.scheduler (e.newRequest requestId promptTokenIds maxNewTokens) }

/-- The invariant, with what holds in every run. -/
structure Always (I : Engine Row → Prop) (e : Engine Row) : Prop where
  live : Live e.scheduler
  inv : I e

/-- **A call keeps the invariant**, on either exit, if a request that it adds does. -/
theorem OthersClosed.next (hI : OthersClosed chain model I) {e : Engine Row} (h : Always I e)
    (op : Op) (hadd : ∀ requestId promptTokenIds maxNewTokens,
      op = .addRequest requestId promptTokenIds maxNewTokens → I { e with
        scheduler :=
          withRequest e.scheduler (e.newRequest requestId promptTokenIds maxNewTokens) }) :
    Always I (next chain model e op) := by
  obtain ⟨K, hstep, hK⟩ := hI.step
  have hset : ∀ {e e' : Engine Row}, Always I e → e'.scheduler = e.scheduler → e'.cache = e.cache →
      (1 ≤ e.prefillChunkSize → 1 ≤ e'.prefillChunkSize) → Always I e' :=
    fun h hs hc hchunk => ⟨hs ▸ h.live, hI.settings _ _ h.inv hs hc hchunk⟩
  cases op with
  | addRequest requestId promptTokenIds maxNewTokens =>
    rw [Engine.next, call, Exec.after_dropped, Exec.after_of_ok (addRequest_run e _ _ _)]
    exact ⟨h.live.add rfl fun _ => rfl, hadd _ _ _ rfl⟩
  | step =>
    rw [Engine.next, call, Exec.after_dropped]
    have := hstep.step hK e ⟨h.live, h.inv, rfl⟩
    exact ⟨this.live, this.inv⟩
  | cancelRequest requestId status =>
    rw [Engine.next, call, Exec.after_dropped]
    refine cancelRequest_pieces (J := Always I) (fun e h => ?_) (fun b e c h hc => ?_) e h
    · exact ⟨h.live.cancelOutcome (Scheduler.cancelRequest_outcome e.scheduler requestId status),
        hI.cancel e _ _ h.live h.inv⟩
    · exact ⟨h.live, hstep.cache e c _ h.inv hc (hK.resetSlot b c)⟩
  | reconfigure prefillChunkSize maxTokensPerStep maxConcurrentRequests usePaged usePrefix =>
    rw [Engine.next, call, Exec.after_dropped]
    refine reconfigure_pieces (J := Always I) (fun _ _ h => hset h rfl rfl id)
      (fun _ _ _ h => hset h rfl rfl id) (fun _ hv _ h => hset h rfl rfl fun _ => hv)
      (fun _ _ _ h => hset h rfl rfl id) (fun _ e h => ?_) e h
    exact reconfigureScheduler_pieces (fun e s h hs => ⟨hs.live h.live, hI.resize e s h.inv hs⟩)
      (fun _ _ h => hset h rfl rfl id) e h
  | registerTokenCallback requestId => exact hset h rfl rfl id
  | unregisterTokenCallback requestId => exact hset h rfl rfl id

/-- **Every call keeps the invariant**, on either exit. -/
theorem CallClosed.next (hI : CallClosed chain model I) {e : Engine Row} (h : Always I e)
    (op : Op) : Always I (next chain model e op) :=
  hI.toOthersClosed.next h op fun _ _ _ _ => hI.add e _ _ _ h.live h.inv

omit [LinearOrder Score] in
theorem callClosed_true (chain : Int → List Nat → Int) (model : InferenceModel Row Score) :
    CallClosed chain model fun _ => True where
  step := ⟨fun _ _ => True, ⟨fun _ _ _ _ _ => trivial, fun _ _ _ _ _ _ => trivial,
    fun _ _ _ _ _ => trivial, fun _ _ _ _ _ _ _ _ _ => trivial, fun _ _ _ _ _ _ _ => trivial,
    fun _ _ _ _ _ _ _ => trivial⟩, cacheSteps_any chain model⟩
  add := fun _ _ _ _ _ _ => trivial
  cancel := fun _ _ _ _ _ => trivial
  resize := fun _ _ _ _ => trivial
  settings := fun _ _ _ _ _ _ => trivial

/-- What holds of the queues in every run is kept by every call. -/
theorem next_live {e : Engine Row} (h : Live e.scheduler) (op : Op) :
    Live (Engine.next chain model e op).scheduler :=
  ((callClosed_true chain model).next ⟨h, trivial⟩ op).live

theorem CallClosed.run (hI : CallClosed chain model I) {e : Engine Row} (h : Always I e)
    (ops : List Op) : Always I (ops.foldl (Engine.next chain model) e) := by
  induction ops generalizing e with
  | nil => exact h
  | cons op ops ih => exact ih (hI.next h op)

end Engine

end Nifre
