import Nifre.Properties.StepsLeft
import Nifre.Properties.KnownTokens

/-!
# `run_until_done`

From an engine with nothing but requests that wait, the loop ends with all of them completed. The
steps that it takes are bounded by the chunks of the prompts and the tokens to generate.

* `Engine.addAll_queued` — what `add_request` leaves, call by call
* `runUntilDone_completes` — the loop
-/

namespace Nifre

open Scheduler (Inv)

variable {Row Score : Type} [LinearOrder Score] {chain : Int → List Nat → Int}
  {model : InferenceModel Row Score}

namespace Engine

/-! ## The requests of a client -/

/-- The arguments of `add_request`, and the id that it draws. -/
structure Submission where
  requestId : String
  promptTokenIds : List Nat
  maxNewTokens : Int

namespace Submission

def op (job : Submission) : Op :=
  .addRequest job.requestId job.promptTokenIds job.maxNewTokens

/-- The prompt is not empty and of known tokens, and the request fits in `limit`. -/
structure Fits (Known : Nat → Prop) (limit : Nat) (job : Submission) : Prop where
  prompt : job.promptTokenIds ≠ []
  known : ∀ t ∈ job.promptTokenIds, Known t
  maxNewTokens : 1 ≤ job.maxNewTokens
  fits : job.promptTokenIds.length + job.maxNewTokens - 1 ≤ limit

/-- One step for each chunk, and one for each token. -/
def steps (chunk : Nat) (job : Submission) : Nat :=
  job.promptTokenIds.length ⌈/⌉ chunk + job.maxNewTokens.toNat

end Submission

/-- The engine after `add_request` for all of `jobs`. -/
def addAll (chain : Int → List Nat → Int) (model : InferenceModel Row Score) (e : Engine Row)
    (jobs : List Submission) : Engine Row :=
  (jobs.map Submission.op).foldl (Engine.next chain model) e

variable {e : Engine Row} {jobs : List Submission}

theorem next_addRequest (e : Engine Row) (job : Submission) :
    Engine.next chain model e job.op = { e with
      scheduler := withRequest e.scheduler
        (e.newRequest job.requestId job.promptTokenIds job.maxNewTokens) } := by
  rw [Submission.op, Engine.next, call, Exec.after_dropped,
    Exec.after_of_ok (addRequest_run e _ _ _)]

/-- The new requests of an engine without any: they wait in the order of `jobs`. -/
structure Queued (jobs : List Submission) (e e' : Engine Row) : Prop where
  created : e'.scheduler.created = jobs.length
  requests : ∀ (r : Nat) (h : r < jobs.length), e'.scheduler.requests r
    = e.newRequest jobs[r].requestId jobs[r].promptTokenIds jobs[r].maxNewTokens
  others : ∀ r, jobs.length ≤ r → e'.scheduler.requests r = e.scheduler.requests r
  chunk : e'.prefillChunkSize = e.prefillChunkSize
  maxConcurrent : e'.scheduler.maxConcurrentRequests = e.scheduler.maxConcurrentRequests
  budget : e'.scheduler.maxTokensPerStep = e.scheduler.maxTokensPerStep
  failed : e'.scheduler.failed = e.scheduler.failed

/-- **What `add_request` leaves**, call by call. -/
theorem addAll_queued (he : e.scheduler.created = 0) (jobs : List Submission) :
    Queued jobs e (addAll chain model e jobs) := by
  induction jobs using List.reverseRecOn with
  | nil => exact ⟨he, nofun, fun _ _ => rfl, rfl, rfl, rfl, rfl⟩
  | append_singleton jobs job ih =>
    have hlast : addAll chain model e (jobs ++ [job])
        = Engine.next chain model (addAll chain model e jobs) job.op := by
      rw [addAll, List.map_append, List.foldl_append]
      rfl
    rw [hlast, next_addRequest]
    refine ⟨?_, fun r hr => ?_, fun r hr => ?_, ih.chunk, ih.maxConcurrent, ih.budget, ih.failed⟩
    · rw [List.length_append, ← ih.created]
      rfl
    · rw [List.length_append, List.length_singleton] at hr
      rcases Nat.lt_succ_iff_lt_or_eq.mp hr with hlt | rfl
      · rw [withRequest_old _ _ (ih.created ▸ hlt), ih.requests r hlt]
        simp only [List.getElem_append_left hlt]
      · have hnew := withRequest_new (addAll chain model e jobs).scheduler
          ((addAll chain model e jobs).newRequest job.requestId job.promptTokenIds
            job.maxNewTokens)
        rw [ih.created] at hnew
        rw [hnew]
        simp [newRequest, ih.chunk]
    · rw [List.length_append, List.length_singleton] at hr
      have hne : r ≠ (addAll chain model e jobs).scheduler.created := by
        rw [ih.created]
        omega
      exact (Function.update_of_ne hne _ _).trans (ih.others r (by omega))

/-- The calls do not depend on the model. -/
theorem addAll_congr (model model' : InferenceModel Row Score) (e : Engine Row)
    (jobs : List Submission) : addAll chain model e jobs = addAll chain model' e jobs := by
  induction jobs generalizing e with
  | nil => rfl
  | cons job jobs ih =>
    have h := ih (Engine.next chain model e job.op)
    rw [next_addRequest] at h
    simp only [addAll, List.map_cons, List.foldl_cons, next_addRequest] at h ⊢
    exact h

/-- The steps that are left are one less for each request than its chunks and tokens. -/
theorem Queued.allStepsLeft_eq {e' : Engine Row} (h : Queued jobs e e')
    (hmax : ∀ job ∈ jobs, 1 ≤ job.maxNewTokens) : allStepsLeft e' + jobs.length
      = (jobs.map (Submission.steps e.prefillChunkSize.toNat)).sum := by
  have hone : ∀ job ∈ jobs, stepsLeft (e.newRequest job.requestId job.promptTokenIds
      job.maxNewTokens) + 1 = job.steps e.prefillChunkSize.toNat := by
    intro job hjob
    have := hmax job hjob
    have hstate : (e.newRequest job.requestId job.promptTokenIds job.maxNewTokens).state
        ≠ .finished := fun h => nomatch h
    rw [stepsLeft, if_neg hstate]
    show (job.promptTokenIds.length - 0) ⌈/⌉ e.prefillChunkSize.toNat
      + (job.maxNewTokens.toNat - max 1 0) + 1 = _
    rw [Submission.steps, Nat.sub_zero]
    omega
  have hsum : ∑ i : Fin jobs.length, (stepsLeft (e'.scheduler.requests i) + 1)
      = ∑ i : Fin jobs.length, jobs[i.val].steps e.prefillChunkSize.toNat :=
    Finset.sum_congr rfl fun i _ => by
      rw [h.requests i i.isLt]
      exact hone _ (List.getElem_mem i.isLt)
  rw [← Fin.sum_univ_fun_getElem, ← hsum, allStepsLeft, h.created, Finset.sum_range,
    Finset.sum_add_distrib]
  simp

/-- The calls are legal. -/
theorem addAll_legal {Known : Nat → Prop} {Allowed : Bool → Prop} (he : e.scheduler.created = 0)
    (hids : (jobs.map Submission.requestId).Nodup)
    (hfits : ∀ job ∈ jobs, job.Fits Known model.config.maxSeqLen) :
    Exec.Along (Legal model (fun prompt => ∀ t ∈ prompt, Known t) Allowed)
      (Engine.next chain model) e (jobs.map Submission.op) := by
  induction jobs using List.reverseRecOn with
  | nil => trivial
  | append_singleton jobs job ih =>
    rw [List.map_append, List.nodup_append] at hids
    rw [List.map_append, Exec.along_append]
    refine ⟨ih hids.1 fun job' hjob' => hfits job' (List.mem_append_left _ hjob'), ?_, trivial⟩
    have hqueued : Queued jobs e (addAll chain model e jobs) := addAll_queued he jobs
    have hjob := hfits job (by simp)
    refine ⟨fun r hr heq => ?_, hjob.prompt, hjob.maxNewTokens, hjob.fits, hjob.known⟩
    -- the ids of the requests so far are those of the jobs before this one
    have hlt : r < jobs.length := hqueued.created ▸ hr
    have hrequest := hqueued.requests r hlt
    rw [addAll] at hrequest
    rw [hrequest] at heq
    exact hids.2.2 _ (List.mem_map_of_mem (List.getElem_mem hlt)) _ (by simp) heq

/-- No chunk is larger than the budget of a step. -/
theorem Queued.chunksFit {e' : Engine Row} (h : Queued jobs e e')
    (hbudget : e.prefillChunkSize ≤ e.scheduler.maxTokensPerStep) : ChunksFit e' := by
  intro r hr
  rw [h.created] at hr
  rw [h.requests r hr, h.budget]
  exact (min_le_left _ _).trans hbudget

/-- The requests wait, and what is no request has no prompt. -/
theorem Queued.promptFirst {e' : Engine Row} (h : Queued jobs e e')
    (hnone : ∀ r, (e.scheduler.requests r).promptTokenIds = []) (r : Ref) :
    PromptFirst (e'.scheduler.requests r) := by
  intro hs
  by_cases hr : r < jobs.length
  · rw [h.requests r hr] at hs
    exact hs.elim (fun h => nomatch h) fun h => nomatch h
  · simp [h.others r (Nat.not_lt.mp hr), hnone]

omit [LinearOrder Score] in
/-- **Each of the requests is completed** once the loop has nothing to do. -/
theorem Queued.completed {ideal : InferenceModel Row Score}
    {Holds : KVCacheType Row → (Nat → List Nat) → Prop} {InPlay : List Nat → Prop}
    {Allowed : Bool → Prop} {next : List Nat → Nat} {e₁ e' : Engine Row} (h : Queued jobs e e₁)
    (hfailed : e.scheduler.failed.values = [])
    (hlast : Looping ideal Holds InPlay Allowed next e₁ e') (hwaiting : e'.scheduler.waiting = [])
    (hrunning : e'.scheduler.running.values = []) {r : Ref} (hr : r < jobs.length)
    (hone : 1 ≤ jobs[r].maxNewTokens) :
    (jobs[r].requestId, r) ∈ e'.scheduler.completed.entries ∧
      (e'.scheduler.requests r).promptTokenIds = jobs[r].promptTokenIds ∧
      (e'.scheduler.requests r).numGenerated = jobs[r].maxNewTokens ∧
      (e'.scheduler.requests r).prefillOffset = jobs[r].promptTokenIds.length := by
  obtain ⟨held, hco⟩ := hlast.coherent
  have hinv := hco.scheduler
  have hrequest := h.requests r hr
  have hcreated : r < e'.scheduler.created := by
    rw [hlast.created, h.created]
    exact hr
  have hdone : r ∈ e'.scheduler.completed.values := by
    rcases hinv.created_iff.mp hcreated with hm | hm | hm | hm
    · rw [hwaiting] at hm
      cases hm
    · rw [hrunning] at hm
      cases hm
    · exact hm
    · rw [hlast.asks.2.1, h.failed, hfailed] at hm
      cases hm
  obtain ⟨hended, hproduced⟩ := hinv.completed r hdone
  have hask := hlast.asks.2.2 r
  rw [hrequest] at hask
  have hprompt : (e'.scheduler.requests r).promptTokenIds = jobs[r].promptTokenIds := hask.prompt
  have hmax : (e'.scheduler.requests r).maxNewTokens = jobs[r].maxNewTokens := hask.maxNewTokens
  have hid : (e'.scheduler.requests r).requestId = jobs[r].requestId := by
    rw [hlast.ids r, hrequest]
    rfl
  refine ⟨?_, hprompt, ?_, ?_⟩
  · obtain ⟨id, hentry⟩ := OrderedDict.mem_values_iff.mp hdone
    rw [← hid, hinv.completedKey id r hentry]
    exact hentry
  · rw [← hmax]
    exact hproduced (hmax ▸ hone)
  · rw [← hprompt]
    exact Nat.le_antisymm (hlast.bounded.offset r) (hlast.promptFirst r (Or.inr hended.state))

/-! ## A new engine -/

omit [LinearOrder Score] in
/-- A new engine has no requests. -/
theorem new_eq {maxConcurrentRequests prefillChunkSize maxTokensPerStep : Int}
    {usePagedKvCache usePrefixCache : Bool}
    (h : new model maxConcurrentRequests prefillChunkSize maxTokensPerStep usePagedKvCache
      usePrefixCache = .ok e) :
    e.prefillChunkSize = prefillChunkSize ∧ e.scheduler.created = 0 ∧
      e.scheduler.maxTokensPerStep = maxTokensPerStep ∧
      e.scheduler.maxConcurrentRequests = maxConcurrentRequests.toNat ∧
      e.scheduler.failed.values = [] ∧ ∀ r, (e.scheduler.requests r).promptTokenIds = [] := by
  obtain ⟨s, hs, he⟩ := Exec.bind_eq_ok h
  cases he
  unfold Scheduler.new at hs
  split at hs
  · cases hs
  · split at hs
    · cases hs
    · cases hs
      exact ⟨rfl, rfl, rfl, rfl, rfl, fun _ => rfl⟩

end Engine

/-! ## The loop -/

/-- Fewer prompts in play are served too. -/
theorem Serves.inPlay {Holds : KVCacheType Row → (Nat → List Nat) → Prop}
    {InPlay InPlay' : List Nat → Prop} {Allowed : Bool → Prop} {next : List Nat → Nat}
    (h : Serves chain model Holds InPlay Allowed next)
    (himp : ∀ prompt, InPlay' prompt → InPlay prompt) :
    Serves chain model Holds InPlay' Allowed next :=
  { h with
    tryLoadPrefix := fun hh hb hp hne hin => h.tryLoadPrefix hh hb hp hne (himp _ hin)
    registerPrefix := fun hh hb hp hheld hin => h.registerPrefix hh hb hp hheld (himp _ hin) }

omit [LinearOrder Score] in
/-- All slots are free once nothing runs. -/
theorem Scheduler.Inv.freeSlots_perm {s : Scheduler Nat} (h : Inv s)
    (hrun : s.running.values = []) : s.freeSlots.Perm (List.range s.maxConcurrentRequests) := by
  have hslots := h.slots
  rw [Scheduler.slots, hrun, List.map_nil, Multiset.coe_nil, add_zero, ← Multiset.map_coe] at hslots
  exact Multiset.coe_eq_coe.mp (Multiset.map_injective (Option.some_injective Nat) hslots)

variable [Inhabited Row] {Known : Nat → Prop} {logits : List Nat → List Score}
  {call : List (List Nat) → Option (List Nat) → List Nat → KVCacheType.M Row (Logits Score)}

/-- **`run_until_done` completes every request.** -/
theorem runUntilDone_completes (hagrees : model.AgreesOn Known call)
    (hmodel : Backend logits { model with call := call })
    (hnext : ∀ tokens, Known (nextToken logits tokens)) (hkeeps : model.KeepsPrefixes)
    {maxConcurrentRequests prefillChunkSize maxTokensPerStep : Int} {usePagedKvCache : Bool}
    (hchunk : 1 ≤ prefillChunkSize) (hbudget : prefillChunkSize ≤ maxTokensPerStep)
    {e : Engine Row}
    (hnew : Engine.new model maxConcurrentRequests prefillChunkSize maxTokensPerStep
      usePagedKvCache false = .ok e) {jobs : List Engine.Submission}
    (hids : (jobs.map Engine.Submission.requestId).Nodup)
    (hjobs : ∀ job ∈ jobs, job.Fits Known model.config.maxSeqLen) :
    ∃ n e', n + jobs.length ≤ (jobs.map (Engine.Submission.steps prefillChunkSize.toNat)).sum ∧
      (∀ fuel, n < fuel → (Engine.runUntilDone chain model fuel).run
        (Engine.addAll chain model e jobs) = .ok true e') ∧
      e'.scheduler.waiting = [] ∧ e'.scheduler.running.values = [] ∧
      e'.scheduler.freeSlots.Perm (List.range maxConcurrentRequests.toNat) ∧
      ∀ job ∈ jobs, ∃ r, (job.requestId, r) ∈ e'.scheduler.completed.entries ∧
        (e'.scheduler.requests r).promptTokenIds = job.promptTokenIds ∧
        (e'.scheduler.requests r).numGenerated = job.maxNewTokens ∧
        (e'.scheduler.requests r).prefillOffset = job.promptTokenIds.length := by
  obtain ⟨hechunk, hecreated, hebudget, hemax, hefailed, heprompts⟩ := Engine.new_eq hnew
  have hqueued : Engine.Queued jobs e (Engine.addAll chain model e jobs) :=
    Engine.addAll_queued hecreated jobs
  set e₁ := Engine.addAll chain model e jobs with he₁
  obtain ⟨Holds, InPlay, hserves, hplay, hmakes⟩ := hmodel.serves chain
  have hserves' : Serves chain { model with call := call } Holds
      (fun prompt => ∀ t ∈ prompt, Known t) (· = false) (nextToken logits) :=
    hserves.inPlay fun prompt _ => hplay prompt
  have hlegal : Exec.Along (Engine.Legal { model with call := call }
      (fun prompt => ∀ t ∈ prompt, Known t) (· = false))
      (Engine.next chain { model with call := call }) e (jobs.map Engine.Submission.op) :=
    Engine.addAll_legal hecreated hids hjobs
  obtain ⟨held, hco⟩ := Engine.run_coherent hserves' hchunk (Bool.and_false _) hnew hlegal
  -- submitting calls no model, so both engines are the same up to here
  have hfold : (jobs.map Engine.Submission.op).foldl
      (Engine.next chain { model with call := call }) e = e₁ := Engine.addAll_congr _ _ e jobs
  rw [hfold] at hco
  have hfit : Engine.ChunksFit e₁ := hqueued.chunksFit (by rwa [hechunk, hebudget])
  have hlive := Engine.new_live hnew
  have hloop : Engine.Looping { model with call := call } Holds
      (fun prompt => ∀ t ∈ prompt, Known t) (· = false) (nextToken logits) e₁ e₁ :=
    { coherent := ⟨held, hco⟩
      always := (Engine.callClosed_chunked chain model).run
        ⟨hlive, Engine.new_chunked hchunk hnew⟩ _
      bounded := Engine.run_bounded hkeeps hlive (Engine.new_bounded hnew) _
      promptFirst := hqueued.promptFirst heprompts
      asks := Engine.SameAsks.refl e₁
      created := rfl
      concurrency := rfl
      ids := fun _ => rfl }
  obtain ⟨n, e', hn, hrun, hlast, hwaiting, hrunning⟩ := Engine.runUntilDone_run hserves' hmakes
    hkeeps (fun e' held' _ _ h => Engine.step_agrees hagrees hserves' (fun _ h => h) hnext h)
      hfit hloop
  refine ⟨n, e', ?_, hrun, hwaiting, hrunning, ?_, fun job hjob => ?_⟩
  · -- the steps left at the start are the sum over the jobs
    have hsteps := hqueued.allStepsLeft_eq fun job hjob => (hjobs job hjob).maxNewTokens
    rw [hechunk] at hsteps
    omega
  · obtain ⟨held', hco'⟩ := hlast.coherent
    have hperm := hco'.scheduler.freeSlots_perm hrunning
    rwa [hlast.concurrency, hqueued.maxConcurrent, hemax] at hperm
  · obtain ⟨r, hr, rfl⟩ := List.mem_iff_getElem.mp hjob
    exact ⟨r, hqueued.completed hefailed hlast hwaiting hrunning hr (hjobs _ hjob).maxNewTokens⟩

/-- Three requests for two slots. -/
def threeJobs : List Engine.Submission :=
  [⟨"a", [1, 2, 3], 2⟩, ⟨"b", [10, 20, 30, 40], 2⟩, ⟨"c", [5, 6], 2⟩]

/-- With chunks of two tokens there are five chunks, so three steps less than eleven are enough. -/
theorem threeJobs_completed :
    ∃ e, Engine.new (recallModel ⟨1, 8, 0, 2⟩ sumScores) 2 2 4 true false = .ok e ∧
      ∃ n e', n + 3 ≤ 11 ∧
        (∀ fuel, n < fuel → (Engine.runUntilDone (fun _ _ => 0)
          (recallModel ⟨1, 8, 0, 2⟩ sumScores) fuel).run (Engine.addAll (fun _ _ => 0)
            (recallModel ⟨1, 8, 0, 2⟩ sumScores) e threeJobs) = .ok true e') ∧
        e'.scheduler.waiting = [] ∧ e'.scheduler.running.values = [] ∧
        e'.scheduler.freeSlots.Perm [0, 1] ∧
        ∀ job ∈ threeJobs, ∃ r, (job.requestId, r) ∈ e'.scheduler.completed.entries ∧
          (e'.scheduler.requests r).promptTokenIds = job.promptTokenIds ∧
          (e'.scheduler.requests r).numGenerated = job.maxNewTokens ∧
          (e'.scheduler.requests r).prefillOffset = job.promptTokenIds.length := by
  obtain ⟨e, h⟩ : ∃ e, Engine.new (recallModel ⟨1, 8, 0, 2⟩ sumScores) 2 2 4 true false = .ok e :=
    ⟨_, rfl⟩
  have hbackend : Backend sumScores (recallModel ⟨1, 8, 0, 2⟩ sumScores) :=
    .rowLocal (recallModel_rowLocal Nat.zero_lt_one sumScores_ne_nil) rfl (by decide)
  have hfits : ∀ job ∈ threeJobs, job.Fits (fun _ => True) 8 := by
    intro job hjob
    simp only [threeJobs, List.mem_cons, List.not_mem_nil, or_false] at hjob
    rcases hjob with rfl | rfl | rfl <;>
      exact ⟨by simp, fun _ _ => trivial, by simp, by simp⟩
  exact ⟨e, h, runUntilDone_completes (recallModel ⟨1, 8, 0, 2⟩ sumScores).agreesOn_self hbackend
    (fun _ => trivial) (recallModel_keepsPrefixes _ _) (by decide) (by decide) h (by decide) hfits⟩

end Nifre
