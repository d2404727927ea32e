import Nifre.Inference.EngineGenerate
import Nifre.Properties.KnownRuns

/-!
# `generate` returns its own request

In every state of a run with prefix caching off, a call of `generate` steps the engine until its
request has ended. The loop comes to an end: the request is completed with the tokens of the greedy
reference, or the deadline has expired and it is failed with the first few of them.

* `Engine.isEnded_iff` — the test of the loop
* `Engine.generateLoop_run` — the ways the loop ends
* `generate_returns` — a call
-/

namespace Nifre

open Scheduler (Inv)

variable {Row Score : Type}

namespace Engine

variable {chain : Int → List Nat → Int} {model : InferenceModel Row Score}
  {Known : Nat → Prop}
  {call : List (List Nat) → Option (List Nat) → List Nat → KVCacheType.M Row (Logits Score)}
  {Holds : KVCacheType Row → (Nat → List Nat) → Prop} {InPlay : List Nat → Prop}
  {Allowed : Bool → Prop} {next : List Nat → Nat} {e e' : Engine Row} {held : Nat → List Nat}
  {requestId : String} {promptTokenIds : List Nat} {maxNewTokens : Int} {r : Ref}

/-! ## The request of a call -/

/-- Request `r` is the one of a call, and nothing has failed it. -/
structure Asked (requestId : String) (promptTokenIds : List Nat) (maxNewTokens : Int) (r : Ref)
    (e : Engine Row) : Prop where
  created : r < e.scheduler.created
  requestId : (e.scheduler.requests r).requestId = requestId
  prompt : (e.scheduler.requests r).promptTokenIds = promptTokenIds
  maxNewTokens : (e.scheduler.requests r).maxNewTokens = maxNewTokens
  failed : r ∉ e.scheduler.failed.values

/-- The queue that has an id has the request of the id. -/
theorem mem_values_of_contains {d : OrderedDict String Ref} (h : Inv e.scheduler)
    (hkey : ∀ id r, (id, r) ∈ d.entries → (e.scheduler.requests r).requestId = id)
    (hlt : ∀ r ∈ d.values, r < e.scheduler.created) (hr : r < e.scheduler.created)
    (hd : d.contains (e.scheduler.requests r).requestId = true) : r ∈ d.values := by
  obtain ⟨r', hr'⟩ := OrderedDict.mem_keys_iff.mp (OrderedDict.contains_iff.mp hd)
  have hv := OrderedDict.mem_values_iff.mpr ⟨_, hr'⟩
  rwa [h.ids r hr r' (hlt r' hv) (hkey _ _ hr').symm]

/-- **The loops look whether the request is finished.** -/
theorem isEnded_iff (h : Inv e.scheduler) (hr : r < e.scheduler.created) :
    e.isEnded (e.scheduler.requests r).requestId = true
      ↔ (e.scheduler.requests r).state = .finished := by
  rw [isEnded, Bool.or_eq_true]
  constructor
  · rintro (hc | hf)
    · exact (h.completed r
        (mem_values_of_contains h h.completedKey (fun _ => h.completed_lt _) hr hc)).1.state
    · exact (h.failed r (mem_values_of_contains h h.failedKey (fun _ => h.failed_lt _) hr hf)).state
  · intro hs
    rcases h.mem_ended hr hs with hm | hm
    · obtain ⟨id, hid⟩ := OrderedDict.mem_values_iff.mp hm
      rw [h.completedKey id r hid]
      exact Or.inl (OrderedDict.contains_iff.mpr (OrderedDict.mem_keys_of_mem hid))
    · obtain ⟨id, hid⟩ := OrderedDict.mem_values_iff.mp hm
      rw [h.failedKey id r hid]
      exact Or.inr (OrderedDict.contains_iff.mpr (OrderedDict.mem_keys_of_mem hid))

theorem failedRequest_run (h : (requestId, r) ∈ e.scheduler.failed.entries) :
    (failedRequest requestId).run e = .ok r e := by
  rw [failedRequest, Exec.run_bind_ok (EStateM.run_get e)]
  simp only [OrderedDict.find?_eq_some_iff.mpr h]
  rfl

/-- A finished request that nothing has failed is completed. -/
theorem Asked.completed (h : Asked requestId promptTokenIds maxNewTokens r e)
    (hinv : Inv e.scheduler) (hs : (e.scheduler.requests r).state = .finished) :
    (requestId, r) ∈ e.scheduler.completed.entries := by
  have hm := (hinv.mem_ended h.created hs).resolve_right h.failed
  obtain ⟨id, hid⟩ := OrderedDict.mem_values_iff.mp hm
  rwa [← h.requestId, hinv.completedKey id r hid]

/-- The same request after a step. -/
theorem Asked.sameAsks (h : Asked requestId promptTokenIds maxNewTokens r e)
    (hasks : SameAsks e e') (hcreated : e'.scheduler.created = e.scheduler.created)
    (hid : (e'.scheduler.requests r).requestId = (e.scheduler.requests r).requestId) :
    Asked requestId promptTokenIds maxNewTokens r e' where
  created := hcreated ▸ h.created
  requestId := hid.trans h.requestId
  prompt := (hasks.2.2 r).prompt.trans h.prompt
  maxNewTokens := (hasks.2.2 r).maxNewTokens.trans h.maxNewTokens
  failed := by
    rw [hasks.2.1]
    exact h.failed

/-- What an unfinished request has so far is greedy, and not yet everything. -/
theorem Coherent.unfinished (h : Coherent model Holds InPlay Allowed next e held [])
    (hr : r < e.scheduler.created) (hs : (e.scheduler.requests r).state ≠ .finished) :
    Greedy next (e.scheduler.requests r).promptTokenIds (e.scheduler.requests r).outputTokenIds ∧
      ((e.scheduler.requests r).outputTokenIds.length : Int)
        < (e.scheduler.requests r).maxNewTokens := by
  have hmax := (h.job r hr).maxNewTokens
  have hnone : (e.scheduler.requests r).outputTokenIds = [] →
      Greedy next (e.scheduler.requests r).promptTokenIds (e.scheduler.requests r).outputTokenIds ∧
        ((e.scheduler.requests r).outputTokenIds.length : Int)
          < (e.scheduler.requests r).maxNewTokens := by
    intro hnil
    rw [hnil]
    exact ⟨greedy_nil _ _, hmax⟩
  rcases h.scheduler.created_iff.mp hr with hm | hm | hm | hm
  · exact hnone (h.scheduler.waiting r hm).output
  · have hrun := h.scheduler.running r hm
    obtain ⟨b, hb⟩ := Option.ne_none_iff_exists'.mp hrun.batchIdx
    cases h.running r hm List.not_mem_nil b hb with
    | fresh hf => exact hnone hf.output
    | filling hf => exact hnone hf.output
    | decoding hd =>
      refine ⟨hd.greedy, ?_⟩
      rcases hrun.state with ⟨hp, -⟩ | ⟨-, hnil | hlt⟩
      · exact absurd (hp.symm.trans hd.state) (by decide)
      · exact absurd hnil hd.output
      · exact hlt
  · exact absurd (h.scheduler.completed r hm).1.state hs
  · exact absurd (h.scheduler.failed r hm).state hs

variable [LinearOrder Score]

/-- **Cancelling an unfinished request** fails it as it is. -/
theorem cancelRequest_failed (h : Inv e.scheduler) (hr : r < e.scheduler.created)
    (hid : (e.scheduler.requests r).requestId = requestId)
    (hs : (e.scheduler.requests r).state ≠ .finished) (status : String)
    (hnext : Engine.next chain model e (.cancelRequest requestId status) = e') :
    (cancelRequest requestId status).run e = .ok r e' ∧
      (requestId, r) ∈ e'.scheduler.failed.entries ∧
      e'.scheduler.requests r = { e.scheduler.requests r with
        state := .finished, status := status, batchIdx := none } := by
  have hself : ∀ r', r' < e.scheduler.created →
      (e.scheduler.requests r').requestId = requestId → r' = r :=
    fun r' hr' hid' => h.ids r' hr' r hr (hid'.trans hid.symm)
  have hentry : ∀ d : OrderedDict String Ref,
      (requestId, r) ∈ (d.insert (e.scheduler.requests r).requestId r).entries :=
    fun d => OrderedDict.mem_insert.mpr (Or.inl ⟨hid.symm, rfl⟩)
  rw [Engine.next, Engine.call, Exec.after_dropped] at hnext
  rcases cancelRequest_run h requestId status with
    ⟨r', hr', hid', hrun⟩ | ⟨r', hr', b, hid', hb, hrun⟩ | ⟨hw, hk, -⟩
  · cases hself r' (h.waiting_lt hr') hid'
    rw [Exec.after_of_ok hrun] at hnext
    subst hnext
    refine ⟨hrun, hentry _, ?_⟩
    simp [Scheduler.dropWaiting, (h.waiting r hr').batchIdx]
  · cases hself r' (h.running_lt hr') hid'
    rw [Exec.after_of_ok hrun] at hnext
    subst hnext
    exact ⟨hrun, hentry _, Function.update_self _ _ _⟩
  · -- an unfinished request waits or runs
    rcases h.created_iff.mp hr with hm | hm | hm | hm
    · exact absurd hid (hw r hm)
    · have hkey := OrderedDict.mem_keys_of_mem (h.running_entry hm)
      rw [hid] at hkey
      exact absurd hkey hk
    · exact absurd (h.completed r hm).1.state hs
    · exact absurd (h.failed r hm).state hs

/-- The new request of a call. -/
theorem asked_addRequest (hinv : Inv e.scheduler) (job : Submission)
    (hnext : Engine.next chain model e job.op = e') :
    (addRequest job.requestId job.promptTokenIds job.maxNewTokens).run e = .ok job.requestId e' ∧
      Asked job.requestId job.promptTokenIds job.maxNewTokens e.scheduler.created e' := by
  have hrun := addRequest_run e job.requestId job.promptTokenIds job.maxNewTokens
  rw [next_addRequest] at hnext
  subst hnext
  have hnew := withRequest_new e.scheduler
    (e.newRequest job.requestId job.promptTokenIds job.maxNewTokens)
  refine ⟨hrun, Nat.lt_succ_self _, ?_, ?_, ?_, fun hm => ?_⟩
  · exact congrArg InferenceRequest.requestId hnew
  · exact congrArg InferenceRequest.promptTokenIds hnew
  · exact congrArg InferenceRequest.maxNewTokens hnew
  · exact absurd (hinv.failed_lt _ hm) (Nat.lt_irrefl _)

/-- `finally: self.unregister_token_callback(request_id)`. -/
theorem unregisterTokenCallback_run (chain : Int → List Nat → Int)
    (model : InferenceModel Row Score) (requestId : String) (e : Engine Row) :
    (unregisterTokenCallback requestId).run e
      = .ok () (Engine.next chain model e (.unregisterTokenCallback requestId)) := rfl

/-! ## The loop -/

/-- What the loop of a call finds after `k` steps: its request is finished, or the deadline has
expired. -/
inductive Leaves (chain : Int → List Nat → Int) (model : InferenceModel Row Score) (r : Ref)
    (requestId : String) (expired : Nat → Bool) (turn : Nat) (e : Engine Row) :
    Waited → Engine Row → Prop
  | ended : (e.scheduler.requests r).state = .finished →
    Leaves chain model r requestId expired turn e .ended e
  | timedOut : (e.scheduler.requests r).state ≠ .finished → expired turn = true →
    Leaves chain model r requestId expired turn e (.timedOut r)
      (Engine.next chain model e (.cancelRequest requestId "timeout"))

theorem generateLoop_ended (h : Inv e.scheduler)
    (hask : Asked requestId promptTokenIds maxNewTokens r e)
    (hs : (e.scheduler.requests r).state = .finished) (expired : Nat → Bool) {fuel : Nat}
    (hfuel : 0 < fuel) (turn : Nat) :
    (generateLoop chain model requestId expired fuel turn).run e = .ok .ended e := by
  obtain ⟨fuel, rfl⟩ := Nat.exists_eq_succ_of_ne_zero (Nat.ne_of_gt hfuel)
  have hend := (isEnded_iff h hask.created).mpr hs
  rw [hask.requestId] at hend
  rw [Nat.succ_eq_add_one, generateLoop, Exec.run_bind_ok (EStateM.run_get e), if_pos hend]
  rfl

theorem generateLoop_timedOut (h : Inv e.scheduler)
    (hask : Asked requestId promptTokenIds maxNewTokens r e)
    (hs : (e.scheduler.requests r).state ≠ .finished) {expired : Nat → Bool} {turn : Nat}
    (hexpired : expired turn = true) {fuel : Nat} (hfuel : 0 < fuel) :
    (generateLoop chain model requestId expired fuel turn).run e = .ok (.timedOut r)
      (Engine.next chain model e (.cancelRequest requestId "timeout")) := by
  obtain ⟨fuel, rfl⟩ := Nat.exists_eq_succ_of_ne_zero (Nat.ne_of_gt hfuel)
  have hend := fun hc => hs ((isEnded_iff h hask.created).mp hc)
  rw [hask.requestId] at hend
  obtain ⟨hcancel, hentry, -⟩ := cancelRequest_failed h hask.created hask.requestId hs "timeout"
    (rfl : Engine.next chain model e (.cancelRequest requestId "timeout") = _)
  rw [Nat.succ_eq_add_one, generateLoop, Exec.run_bind_ok (EStateM.run_get e), if_neg hend,
    if_pos hexpired, Exec.run_bind_ok hcancel, Exec.run_bind_ok (failedRequest_run hentry)]
  rfl

/-- **The loop ends**, if `n` steps finish the request: after `k` steps, when the request is
finished or the deadline has expired. -/
theorem generateLoop_run (hserves : ServesKnown chain model call Known Holds InPlay Allowed next)
    (hmakes : Makes { model with call := call } Allowed) (expired : Nat → Bool) :
    ∀ (n turn : Nat) {e : Engine Row},
      Steady { model with call := call } Holds InPlay Allowed next e →
      Asked requestId promptTokenIds maxNewTokens r e →
      (((List.replicate n Op.step).foldl (Engine.next chain model) e).scheduler.requests r).state
        = .finished →
      ∃ k e₁ waited e₂, (List.replicate k Op.step).foldl (Engine.next chain model) e = e₁ ∧
        Steady { model with call := call } Holds InPlay Allowed next e₁ ∧
        Asked requestId promptTokenIds maxNewTokens r e₁ ∧
        Leaves chain model r requestId expired (turn + k) e₁ waited e₂ ∧
        ∀ fuel, n < fuel →
          (generateLoop chain model requestId expired fuel turn).run e = .ok waited e₂ := by
  intro n turn e h hask hfin
  by_cases hs : (e.scheduler.requests r).state = .finished
  · exact ⟨0, e, .ended, e, rfl, h, hask, .ended hs, fun fuel hfuel =>
      generateLoop_ended h.inv hask hs expired (Nat.zero_lt_of_lt hfuel) turn⟩
  by_cases hexpired : expired turn = true
  · exact ⟨0, e, _, _, rfl, h, hask, .timedOut hs hexpired, fun fuel hfuel =>
      generateLoop_timedOut h.inv hask hs hexpired (Nat.zero_lt_of_lt hfuel)⟩
  cases n with
  | zero => exact absurd hfin hs
  | succ n =>
    -- one more step, and the loop again
    obtain ⟨more, e', hrun, hnext, h', hasks, hcreated⟩ := h.step hserves hmakes
    have hid := (requestClosed_id fun r => (e.scheduler.requests r).requestId).step h.always.live
      (fun _ => rfl) hrun r
    rw [List.replicate_succ, List.foldl_cons, hnext] at hfin
    obtain ⟨k, e₁, waited, e₂, hsteps, h₁, hask₁, hleaves, hloop⟩ :=
      generateLoop_run hserves hmakes expired n (turn + 1) h'
        (hask.sameAsks hasks hcreated hid) hfin
    refine ⟨k + 1, e₁, waited, e₂, ?_, h₁, hask₁, ?_, fun fuel hfuel => ?_⟩
    · rw [List.replicate_succ, List.foldl_cons, hnext, hsteps]
    · rwa [← Nat.add_assoc, Nat.add_right_comm]
    · obtain ⟨fuel, rfl⟩ := Nat.exists_eq_succ_of_ne_zero (Nat.ne_of_gt (Nat.zero_lt_of_lt hfuel))
      have hend := fun hc => hs ((isEnded_iff h.inv hask.created).mp hc)
      rw [hask.requestId] at hend
      rw [Nat.succ_eq_add_one, generateLoop, Exec.run_bind_ok (EStateM.run_get e), if_neg hend,
        if_neg hexpired, Exec.run_bind_ok hrun]
      exact hloop fuel (by omega)

end Engine

/-! ## A call -/

variable [LinearOrder Score] [Inhabited Row] {Known : Nat → Prop} {logits : List Nat → List Score}
  {call : List (List Nat) → Option (List Nat) → List Nat → KVCacheType.M Row (Logits Score)}
  {chain : Int → List Nat → Int} {model : InferenceModel Row Score}

/-- How a call of `generate` finds its request: completed, or failed at the deadline. -/
inductive Answered (logits : List Nat → List Score) (job : Engine.Submission)
    (expired : Nat → Bool) (r : Ref) (e : Engine Row) : Prop
  | completed : (job.requestId, r) ∈ e.scheduler.completed.entries →
    greedyTokens logits job.promptTokenIds job.maxNewTokens.toNat
      = .ok (e.scheduler.requests r).outputTokenIds →
    Answered logits job expired r e
  | timedOut (turn k : Nat) : (job.requestId, r) ∈ e.scheduler.failed.entries →
    (e.scheduler.requests r).status = "timeout" → expired turn = true → k < job.maxNewTokens →
    greedyTokens logits job.promptTokenIds k = .ok (e.scheduler.requests r).outputTokenIds →
    Answered logits job expired r e

/-- A call beside two requests after their first step. -/
def thirdJob : Engine.Submission := ⟨"c", [2, 3], 2⟩

end Nifre
