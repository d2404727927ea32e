import Nifre.Properties.StaticGenerate
import Nifre.Properties.KnownRuns

/-!
# Continuous and static batching agree on the GPT model

On prompts of known tokens a run of the engine is one of the model that knows every token. So its
completed requests have the tokens of greedy decoding without a cache, and these are the tokens that
`generate` returns for the same prompts.

* `GptModel.engine_greedy` — the requests that the engine completes
* `GptModel.generate_runUntilDone` — `run_until_done` and `generate`
-/

namespace Nifre

/-! ## The GPT model -/

namespace GptModel

variable {F X Score : Type} [Field F] [Add X] [LinearOrder Score] {numHeads headDim : Nat}
  {math : ExactMath F} {gpt : GptModel F X Score numHeads headDim} {padId : Nat}
  {emptyDense : Nat → Nat × Nat → Heads F numHeads headDim}
  {emptyPaged : Nat → Int × Nat → Heads F numHeads headDim} {chain : Int → List Nat → Int}

/-- The tokens that follow a sequence are greedy. -/
theorem greedy_continuation : ∀ (n : Nat) (tokens : List Nat),
    Greedy (nextToken (gpt.nextScores math)) tokens (gpt.continuation math n tokens)
  | 0, _ => greedy_nil _ _
  | n + 1, tokens => by
    intro k hk
    cases k with
    | zero => simp [continuation]
    | succ k =>
      have ih := greedy_continuation n (tokens ++ [nextToken (gpt.nextScores math) tokens]) k
        (by simpa [continuation] using hk)
      simp only [continuation, List.getElem_cons_succ, List.take_succ_cons]
      rw [ih, List.append_assoc, List.singleton_append]

/-- The plain greedy reference over the scores of the model is its continuation. -/
theorem greedyTokens_eq (hhead : ∀ x, (gpt.outHead x).length = gpt.cfg.vocabSize)
    (hvocab : 0 < gpt.cfg.vocabSize) (n : Nat) (tokens : List Nat) :
    greedyTokens (gpt.nextScores math) tokens n = .ok (gpt.continuation math n tokens) := by
  rw [(greedy_continuation n tokens).greedyTokens (sampleGreedy_nextScores hhead hvocab) n
      (Nat.le_of_eq (length_continuation n tokens).symm),
    List.take_of_length_le (Nat.le_of_eq (length_continuation n tokens))]

/-- What a completed request has, where the slots are in line with the requests. -/
theorem continuation_of_coherent (hhead : ∀ x, (gpt.outHead x).length = gpt.cfg.vocabSize)
    (hvocab : 0 < gpt.cfg.vocabSize) {model : InferenceModel (Heads F numHeads headDim) Score}
    (hlimit : model.config.maxSeqLen = gpt.cfg.contextLength)
    {Holds : KVCacheType (Heads F numHeads headDim) → (Nat → List Nat) → Prop}
    {InPlay : List Nat → Prop} {Allowed : Bool → Prop}
    (hplay : ∀ prompt, InPlay prompt → ∀ t ∈ prompt, t < gpt.cfg.vocabSize)
    {e : Engine (Heads F numHeads headDim)} {held : Nat → List Nat}
    (h : Engine.Coherent model Holds InPlay Allowed (nextToken (gpt.nextScores math)) e held [])
    {r : Ref} (hr : r ∈ e.scheduler.completed.values) :
    let request := e.scheduler.requests r
    request.promptTokenIds ≠ [] ∧ 1 ≤ request.maxNewTokens ∧
      gpt.Room (request.maxNewTokens.toNat - 1) request.promptTokenIds ∧
      request.outputTokenIds = gpt.continuation math request.maxNewTokens.toNat
        request.promptTokenIds := by
  have hjob := h.job r (h.scheduler.created_iff.mpr (Or.inr (Or.inr (Or.inl hr))))
  have hgreedy := h.greedyTokens (sampleGreedy_nextScores hhead hvocab) hr
  rw [greedyTokens_eq hhead hvocab] at hgreedy
  refine ⟨hjob.prompt, hjob.maxNewTokens, ⟨hplay _ hjob.inPlay, ?_⟩, (Except.ok.inj hgreedy).symm⟩
  have hfits := hjob.fits
  have := hjob.maxNewTokens
  rw [hlimit] at hfits
  omega

/-- A prompt with room for its continuation is decoded to it. -/
theorem greedyDecode_of_room (hhead : ∀ x, (gpt.outHead x).length = gpt.cfg.vocabSize)
    (hvocab : 0 < gpt.cfg.vocabSize) {prompt outputs : List Nat} {maxNewTokens : Int}
    (hprompt : prompt ≠ []) (hmax : 1 ≤ maxNewTokens)
    (hroom : gpt.Room (maxNewTokens.toNat - 1) prompt)
    (houtputs : outputs = gpt.continuation math maxNewTokens.toNat prompt) :
    gpt.greedyDecode math maxNewTokens.toNat prompt = .ok outputs := by
  obtain ⟨n, hn⟩ : ∃ n, maxNewTokens.toNat = n + 1 := ⟨maxNewTokens.toNat - 1, by omega⟩
  rw [hn] at hroom houtputs ⊢
  rw [Nat.add_sub_cancel] at hroom
  rw [greedyDecode_succ hhead hvocab hprompt, if_pos hroom, houtputs]

variable (hhead : ∀ x, (gpt.outHead x).length = gpt.cfg.vocabSize) (hlayers : gpt.trfBlocks ≠ [])
  (hpad : padId < gpt.cfg.vocabSize)
include hhead hlayers hpad

/-- **A run of the engine on prompts of the vocabulary**: each completed request has the
continuation of its prompt, and there was room for it. -/
theorem engine_continuation
    {maxConcurrentRequests prefillChunkSize maxTokensPerStep : Int} {usePagedKvCache : Bool}
    (hchunk : 1 ≤ prefillChunkSize) {e : Engine (Heads F numHeads headDim)}
    (hnew : Engine.new (gpt.inferenceModel math emptyDense emptyPaged padId) maxConcurrentRequests
      prefillChunkSize maxTokensPerStep usePagedKvCache false = .ok e) {ops : List Engine.Op}
    (hlegal : Exec.Along (Engine.Legal (gpt.inferenceModel math emptyDense emptyPaged padId)
        (fun prompt => ∀ t ∈ prompt, t < gpt.cfg.vocabSize) (· = false))
      (Engine.next chain (gpt.inferenceModel math emptyDense emptyPaged padId)) e ops)
    {e' : Engine (Heads F numHeads headDim)}
    (he' : ops.foldl (Engine.next chain (gpt.inferenceModel math emptyDense emptyPaged padId)) e
      = e') {r : Ref} (hr : r ∈ e'.scheduler.completed.values) :
    let request := e'.scheduler.requests r
    request.promptTokenIds ≠ [] ∧ 1 ≤ request.maxNewTokens ∧
      gpt.Room (request.maxNewTokens.toNat - 1) request.promptTokenIds ∧
      request.outputTokenIds = gpt.continuation math request.maxNewTokens.toNat
        request.promptTokenIds := by
  have hvocab : 0 < gpt.cfg.vocabSize := Nat.zero_lt_of_lt hpad
  have hscores : ∀ x, gpt.outHead x ≠ [] := fun x => by
    rw [← List.length_pos_iff, hhead]
    exact hvocab
  have hserves : Serves chain { gpt.inferenceModel math emptyDense emptyPaged padId with
      call := gpt.unboundedCall math } _ (fun prompt => ∀ t ∈ prompt, t < gpt.cfg.vocabSize)
      (· = false) (nextToken (gpt.nextScores math)) :=
    ((rowLocal hlayers hscores).serves rfl).inPlay fun _ _ => trivial
  obtain ⟨⟨held, hco⟩, -⟩ := Engine.run_known
    ⟨gpt.agreesOn hpad, hserves, fun _ h => h, nextToken_lt hhead hvocab⟩
    (Engine.new_known hchunk (Bool.and_false _) hnew fun _ => []) hlegal
  rw [he'] at hco
  exact continuation_of_coherent hhead hvocab rfl (fun _ h => h) hco hr

/-- **Continuous batching is greedy decoding without a cache**: after every legal run on prompts of
the vocabulary, with any arrivals, cancellations and settings but prefix caching, over either cache,
a completed request has the tokens of the plain forward on its own prompt. -/
theorem engine_greedy
    {maxConcurrentRequests prefillChunkSize maxTokensPerStep : Int} {usePagedKvCache : Bool}
    (hchunk : 1 ≤ prefillChunkSize) {e : Engine (Heads F numHeads headDim)}
    (hnew : Engine.new (gpt.inferenceModel math emptyDense emptyPaged padId) maxConcurrentRequests
      prefillChunkSize maxTokensPerStep usePagedKvCache false = .ok e) {ops : List Engine.Op}
    (hlegal : Exec.Along (Engine.Legal (gpt.inferenceModel math emptyDense emptyPaged padId)
        (fun prompt => ∀ t ∈ prompt, t < gpt.cfg.vocabSize) (· = false))
      (Engine.next chain (gpt.inferenceModel math emptyDense emptyPaged padId)) e ops) :
    let e' := ops.foldl
      (Engine.next chain (gpt.inferenceModel math emptyDense emptyPaged padId)) e
    ∀ r ∈ e'.scheduler.completed.values,
      gpt.greedyDecode math (e'.scheduler.requests r).maxNewTokens.toNat
          (e'.scheduler.requests r).promptTokenIds
        = .ok (e'.scheduler.requests r).outputTokenIds := by
  intro e' r hr
  obtain ⟨hprompt, hmax, hroom, houtput⟩ :=
    engine_continuation hhead hlayers hpad hchunk hnew hlegal (show _ = e' from rfl) hr
  exact greedyDecode_of_room hhead (Nat.zero_lt_of_lt hpad) hprompt hmax hroom houtput

/-- **`run_until_done` returns the tokens of `generate`**: where `generate` returns for a batch, the
engine completes one request for each of its prompts, and the outputs of these requests, in the
order of the batch, are the columns that `generate` has added. -/
theorem generate_runUntilDone [Inhabited (Heads F numHeads headDim)]
    (hblock : 0 < gpt.cfg.blockSize)
    {maxConcurrentRequests prefillChunkSize maxTokensPerStep : Int} {usePagedKvCache : Bool}
    (hchunk : 1 ≤ prefillChunkSize) (hbudget : prefillChunkSize ≤ maxTokensPerStep)
    {e : Engine (Heads F numHeads headDim)}
    (hnew : Engine.new (gpt.inferenceModel math emptyDense emptyPaged padId) maxConcurrentRequests
      prefillChunkSize maxTokensPerStep usePagedKvCache false = .ok e)
    {jobs : List Engine.Submission} {maxNewTokens : Int} (hmax : 1 ≤ maxNewTokens)
    (hjobs : ∀ job ∈ jobs, job.promptTokenIds ≠ [] ∧ job.maxNewTokens = maxNewTokens)
    (hids : (jobs.map Engine.Submission.requestId).Nodup) {tokenIds out : List (List Nat)}
    {inputLens : List Nat}
    (hbatch : batchTokenIds (jobs.map Engine.Submission.promptTokenIds) padId
      = .ok (tokenIds, inputLens))
    (hgenerate : gpt.generate math emptyDense tokenIds maxNewTokens (some inputLens) = .ok out) :
    ∃ n e', (∀ fuel, n < fuel → (Engine.runUntilDone chain
          (gpt.inferenceModel math emptyDense emptyPaged padId) fuel).run
        (Engine.addAll chain (gpt.inferenceModel math emptyDense emptyPaged padId) e jobs)
          = .ok true e') ∧
      ∃ rs : List Ref, List.Forall₂ (fun job r =>
          (job.requestId, r) ∈ e'.scheduler.completed.entries) jobs rs ∧
        out = catColumns tokenIds (rs.map fun r => (e'.scheduler.requests r).outputTokenIds) := by
  have hvocab : 0 < gpt.cfg.vocabSize := Nat.zero_lt_of_lt hpad
  have hscores : ∀ x, gpt.outHead x ≠ [] := fun x => by
    rw [← List.length_pos_iff, hhead]
    exact hvocab
  -- `generate` returned, so there was room for every prompt
  rw [generate_eq hhead hlayers hpad hbatch
    (List.forall_mem_map.mpr fun job hjob => (hjobs job hjob).1)] at hgenerate
  have hroom : ∀ job ∈ jobs, gpt.Room (maxNewTokens.toNat - 1) job.promptTokenIds := by
    by_contra hnot
    rw [if_neg fun h => hnot (List.forall_mem_map.mp h)] at hgenerate
    cases hgenerate
  rw [if_pos (List.forall_mem_map.mpr hroom)] at hgenerate
  have hfits : ∀ job ∈ jobs, job.Fits (· < gpt.cfg.vocabSize) gpt.cfg.contextLength := by
    intro job hjob
    have hcontext := (hroom job hjob).context
    obtain ⟨hprompt, hn⟩ := hjobs job hjob
    exact ⟨hprompt, (hroom job hjob).vocabulary, hn ▸ hmax, by rw [hn]; omega⟩
  obtain ⟨n, e', -, hloop, -, -, -, hdone⟩ := runUntilDone_completes (gpt.agreesOn hpad)
    (gpt.backend hlayers hscores hblock) (nextToken_lt hhead hvocab)
    (gpt.keepsPrefixes math emptyDense emptyPaged padId) hchunk hbudget hnew hids hfits
  refine ⟨n, e', hloop, ?_⟩
  -- the final state is that of a legal run
  obtain ⟨k, hk⟩ := Engine.exists_steps_of_runUntilDone (hloop (n + 1) (Nat.lt_succ_self n))
  have hlegal : Exec.Along (Engine.Legal (gpt.inferenceModel math emptyDense emptyPaged padId)
        (fun prompt => ∀ t ∈ prompt, t < gpt.cfg.vocabSize) (· = false))
      (Engine.next chain (gpt.inferenceModel math emptyDense emptyPaged padId)) e
      (jobs.map Engine.Submission.op ++ List.replicate k .step) :=
    Exec.along_append.mpr ⟨Engine.addAll_legal (Engine.new_eq hnew).2.1 hids hfits,
      Engine.along_steps k _⟩
  choose! ref hentry hprompt hcount _ using hdone
  refine ⟨jobs.map ref, List.forall₂_map_right_iff.mpr (List.forall₂_same.mpr hentry), ?_⟩
  have houtputs : jobs.map (fun job => (e'.scheduler.requests (ref job)).outputTokenIds)
      = jobs.map fun job => gpt.continuation math maxNewTokens.toNat job.promptTokenIds := by
    refine List.map_congr_left fun job hjob => ?_
    have hvalue : ref job ∈ e'.scheduler.completed.values :=
      OrderedDict.mem_values_iff.mpr ⟨_, hentry job hjob⟩
    obtain ⟨-, -, -, houtput⟩ := engine_continuation hhead hlayers hpad hchunk hnew hlegal
      (by rw [List.foldl_append]; exact hk.symm) hvalue
    -- a completed request has as many tokens as its job asked for
    have hlen : maxNewTokens.toNat = (e'.scheduler.requests (ref job)).maxNewTokens.toNat := by
      have hnum := (hcount job hjob).trans (hjobs job hjob).2
      rw [InferenceRequest.numGenerated, houtput, length_continuation] at hnum
      rw [← hnum, Int.toNat_natCast]
    rw [houtput, hprompt job hjob, hlen]
  rw [List.map_map] at hgenerate ⊢
  exact (Except.ok.inj hgenerate).symm.trans (congrArg (catColumns tokenIds) houtputs.symm)

end GptModel

/-- Two prompts of different lengths. -/
def smallJobs : List Engine.Submission := [⟨"a", [0, 1], 3⟩, ⟨"b", [1], 3⟩]

theorem smallJobs_fits : ∀ job ∈ smallJobs,
    job.Fits (· < smallHead.cfg.vocabSize) smallHead.cfg.contextLength := by
  intro job hjob
  simp only [smallJobs, List.mem_cons, List.not_mem_nil, or_false] at hjob
  rcases hjob with rfl | rfl
  all_goals exact ⟨List.cons_ne_nil _ _, by decide, by decide, by decide⟩

/-- The second request is cancelled after a step. -/
def smallRun : List Engine.Op :=
  smallJobs.map Engine.Submission.op ++ [.step, .cancelRequest "b" "timeout", .step, .step]

theorem smallRun_greedy : ∃ e, Engine.new (smallHead.inferenceModel realMath (fun _ _ _ _ => 0)
      (fun _ _ _ _ => 0) 2) 2 2 4 true false = .ok e ∧
    let e' := smallRun.foldl (Engine.next (fun _ _ => 0)
      (smallHead.inferenceModel realMath (fun _ _ _ _ => 0) (fun _ _ _ _ => 0) 2)) e
    ∀ r ∈ e'.scheduler.completed.values,
      smallHead.greedyDecode realMath (e'.scheduler.requests r).maxNewTokens.toNat
          (e'.scheduler.requests r).promptTokenIds
        = .ok (e'.scheduler.requests r).outputTokenIds := by
  obtain ⟨e, h⟩ : ∃ e, Engine.new (smallHead.inferenceModel realMath (fun _ _ _ _ => 0)
    (fun _ _ _ _ => 0) 2) 2 2 4 true false = .ok e := ⟨_, rfl⟩
  have hids : (smallJobs.map Engine.Submission.requestId).Nodup := by decide
  exact ⟨e, h, GptModel.engine_greedy (fun _ => rfl) (List.cons_ne_nil _ _) (by decide) (by decide)
    h (Exec.along_append.mpr ⟨Engine.addAll_legal (Engine.new_eq h).2.1 hids smallJobs_fits,
      trivial, trivial, trivial, trivial, trivial⟩)⟩

theorem smallJobs_generate : ∃ e out,
    Engine.new (smallHead.inferenceModel realMath (fun _ _ _ _ => 0) (fun _ _ _ _ => 0) 2) 2 2 4
      true false = .ok e ∧
    smallHead.generate realMath (fun _ _ _ _ => 0) [[0, 1], [2, 1]] 3 (some [2, 1]) = .ok out ∧
    ∃ n e', (∀ fuel, n < fuel → (Engine.runUntilDone (fun _ _ => 0)
          (smallHead.inferenceModel realMath (fun _ _ _ _ => 0) (fun _ _ _ _ => 0) 2) fuel).run
        (Engine.addAll (fun _ _ => 0) (smallHead.inferenceModel realMath (fun _ _ _ _ => 0)
          (fun _ _ _ _ => 0) 2) e smallJobs) = .ok true e') ∧
      ∃ rs : List Ref, List.Forall₂ (fun job r =>
          (job.requestId, r) ∈ e'.scheduler.completed.entries) smallJobs rs ∧
        out = catColumns [[0, 1], [2, 1]]
          (rs.map fun r => (e'.scheduler.requests r).outputTokenIds) := by
  obtain ⟨e, h⟩ : ∃ e, Engine.new (smallHead.inferenceModel realMath (fun _ _ _ _ => 0)
    (fun _ _ _ _ => 0) 2) 2 2 4 true false = .ok e := ⟨_, rfl⟩
  have hhead : ∀ x, (smallHead.outHead x).length = 3 := fun _ => rfl
  have hbatch : batchTokenIds (smallJobs.map Engine.Submission.promptTokenIds) 2
    = .ok ([[0, 1], [2, 1]], [2, 1]) := rfl
  have hroom : ∀ prompt ∈ smallJobs.map Engine.Submission.promptTokenIds,
    smallHead.Room 2 prompt := by decide
  have hout : smallHead.generate realMath (fun _ _ _ _ => 0) [[0, 1], [2, 1]] 3 (some [2, 1]) = _ :=
    (GptModel.generate_eq hhead (List.cons_ne_nil _ _) (by decide) hbatch (by decide) 3).trans
      (if_pos hroom)
  exact ⟨e, _, h, hout, GptModel.generate_runUntilDone hhead (List.cons_ne_nil _ _) (by decide)
    (by decide) (by decide) (by decide) h (by decide) (by decide) (by decide) hbatch hout⟩

end Nifre
