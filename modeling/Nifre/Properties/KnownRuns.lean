import Nifre.Inference.EngineWorker
import Nifre.Properties.RunUntilDone

/-!
# Runs on known tokens

A run on prompts of known tokens is one of the model that knows every token. So all that holds of
the runs that the engine serves holds of it.

* `Engine.run_known` — a run
* `Engine.Steady` — the states of such a run, in which steps return and the chunks fit
* `Engine.Steady.finishes` — enough steps finish every request
* `continuousBatching_transparent` — what a completed request has
* `requests_served` — every request that fits is completed, and one that does not ends this for all
-/

namespace Nifre

open Scheduler (Inv)

namespace Engine

variable {Row Score : Type} [LinearOrder Score] {chain : Int → List Nat → Int}
  {model : InferenceModel Row Score} {Known : Nat → Prop}
  {call : List (List Nat) → Option (List Nat) → List Nat → KVCacheType.M Row (Logits Score)}
  {Holds : KVCacheType Row → (Nat → List Nat) → Prop} {InPlay : List Nat → Prop}
  {Allowed : Bool → Prop} {next : List Nat → Nat} {e : Engine Row} {held : Nat → List Nat}

/-- On known tokens, the model does what one does that the engine serves. -/
structure ServesKnown (chain : Int → List Nat → Int) (model : InferenceModel Row Score)
    (call : List (List Nat) → Option (List Nat) → List Nat → KVCacheType.M Row (Logits Score))
    (Known : Nat → Prop) (Holds : KVCacheType Row → (Nat → List Nat) → Prop)
    (InPlay : List Nat → Prop) (Allowed : Bool → Prop) (next : List Nat → Nat) : Prop where
  agrees : model.AgreesOn Known call
  serves : Serves chain { model with call := call } Holds InPlay Allowed next
  known : ∀ prompt, InPlay prompt → ∀ t ∈ prompt, Known t
  sampled : ∀ tokens, Known (next tokens)

/-- A call does with the model what it does with the one that knows every token. -/
theorem next_agrees (hserves : ServesKnown chain model call Known Holds InPlay Allowed next)
    (h : Coherent { model with call := call } Holds InPlay Allowed next e held []) (op : Op) :
    Engine.next chain model e op = Engine.next chain { model with call := call } e op := by
  cases op with
  | step =>
    rw [Engine.next, Engine.next, Engine.call, Engine.call, Exec.after_dropped, Exec.after_dropped,
      Exec.after, Exec.after,
      step_agrees hserves.agrees hserves.serves hserves.known hserves.sampled h]
  | _ => rfl

/-- **A legal run of the model on known tokens** is one of the model that knows every token, and
keeps what the slots hold in line with the requests. -/
theorem run_known (hserves : ServesKnown chain model call Known Holds InPlay Allowed next)
    (h : Coherent { model with call := call } Holds InPlay Allowed next e held []) {ops : List Op}
    (hlegal : Exec.Along (Legal model InPlay Allowed) (Engine.next chain model) e ops) :
    (∃ held', Coherent { model with call := call } Holds InPlay Allowed next
      (ops.foldl (Engine.next chain model) e) held' []) ∧
    ops.foldl (Engine.next chain { model with call := call }) e
      = ops.foldl (Engine.next chain model) e ∧
    Exec.Along (Legal { model with call := call } InPlay Allowed)
      (Engine.next chain { model with call := call }) e ops := by
  induction ops generalizing e held with
  | nil =>
    rw [List.foldl_nil, List.foldl_nil]
    exact ⟨⟨held, h⟩, rfl, trivial⟩
  | cons op ops ih =>
    obtain ⟨hop, hrest⟩ := hlegal
    have hop' : Legal { model with call := call } InPlay Allowed e op := by
      cases op <;> exact hop
    have hsame := next_agrees hserves h op
    obtain ⟨held₁, h₁⟩ := next_coherent hserves.serves h hop'
    rw [← hsame] at h₁
    obtain ⟨hco, hfold, halong⟩ := ih h₁ hrest
    refine ⟨hco, ?_, hop', ?_⟩
    · rw [List.foldl_cons, List.foldl_cons, ← hsame]
      exact hfold
    · rw [← hsame]
      exact halong

omit [LinearOrder Score] in
/-- A new engine, before any run on known tokens. -/
theorem new_known {maxConcurrentRequests prefillChunkSize maxTokensPerStep : Int}
    {usePagedKvCache usePrefixCache : Bool} (hchunk : 1 ≤ prefillChunkSize)
    (hallowed : Allowed (model.supportsPrefixCache && usePrefixCache))
    (hnew : new model maxConcurrentRequests prefillChunkSize maxTokensPerStep usePagedKvCache
      usePrefixCache = .ok e) (held : Nat → List Nat) :
    Coherent { model with call := call } Holds InPlay Allowed next e held [] := by
  have hnew' : new { model with call := call } maxConcurrentRequests prefillChunkSize
    maxTokensPerStep usePagedKvCache usePrefixCache = .ok e := hnew
  exact new_coherent hchunk (by exact hallowed) hnew' held

omit [LinearOrder Score] in
/-- Steps are always legal. -/
theorem along_steps {next : Engine Row → Op → Engine Row} (n : Nat) (e : Engine Row) :
    Exec.Along (Legal model InPlay Allowed) next e (List.replicate n .step) := by
  induction n generalizing e with
  | zero => trivial
  | succ n ih => exact ⟨trivial, ih _⟩

/-- The state that the loop ends in is reached by steps. -/
theorem exists_steps_of_runUntilDone {fuel : Nat} {more : Bool} {e' : Engine Row}
    (h : (runUntilDone chain model fuel).run e = .ok more e') :
    ∃ n, e' = (List.replicate n Op.step).foldl (Engine.next chain model) e := by
  induction fuel generalizing e with
  | zero =>
    cases h
    exact ⟨0, rfl⟩
  | succ fuel ih =>
    rw [runUntilDone] at h
    obtain ⟨again, e₁, hstep, hrest⟩ := Exec.run_bind_eq_ok h
    have hnext : Engine.next chain model e .step = e₁ := by
      rw [Engine.next, Engine.call, Exec.after_dropped, Exec.after_of_ok hstep]
    cases again with
    | true =>
      obtain ⟨n, hn⟩ := ih hrest
      exact ⟨n + 1, by rw [List.replicate_succ, List.foldl_cons, hnext, hn]⟩
    | false =>
      cases hrest
      exact ⟨1, hnext.symm⟩

/-! ## Steady states -/

/-- A state of a legal run whose chunks fit in the budget of a step. -/
structure Steady (model : InferenceModel Row Score)
    (Holds : KVCacheType Row → (Nat → List Nat) → Prop) (InPlay : List Nat → Prop)
    (Allowed : Bool → Prop) (next : List Nat → Nat) (e : Engine Row) : Prop where
  coherent : ∃ held, Coherent model Holds InPlay Allowed next e held []
  always : Always Chunked e
  fits : ChunksFit e

omit [LinearOrder Score] in
theorem Steady.inv (h : Steady model Holds InPlay Allowed next e) : Inv e.scheduler := by
  obtain ⟨held, hco⟩ := h.coherent
  exact hco.scheduler

theorem ChunksFit.sameAsks {e' : Engine Row} (h : ChunksFit e) (hasks : SameAsks e e')
    (hcreated : e'.scheduler.created = e.scheduler.created) : ChunksFit e' := by
  intro r hr
  have hask := hasks.2.2 r
  unfold InferenceRequest.numPromptTokens
  rw [hask.chunk, hask.prompt, hasks.1]
  exact h r (hcreated ▸ hr)

/-- A legal run leads to a steady state, if the chunks fit there. -/
theorem run_steady (hserves : ServesKnown chain model call Known Holds InPlay Allowed next)
    {maxConcurrentRequests prefillChunkSize maxTokensPerStep : Int}
    {usePagedKvCache usePrefixCache : Bool} (hchunk : 1 ≤ prefillChunkSize)
    (hallowed : Allowed (model.supportsPrefixCache && usePrefixCache))
    (hnew : new model maxConcurrentRequests prefillChunkSize maxTokensPerStep usePagedKvCache
      usePrefixCache = .ok e) {ops : List Op}
    (hlegal : Exec.Along (Legal model InPlay Allowed) (Engine.next chain model) e ops)
    {e' : Engine Row} (he' : ops.foldl (Engine.next chain model) e = e') (hfit : ChunksFit e') :
    Steady { model with call := call } Holds InPlay Allowed next e' := by
  subst he'
  exact ⟨(run_known hserves (new_known hchunk hallowed hnew fun _ => []) hlegal).1,
    (callClosed_chunked chain model).run ⟨new_live hnew, new_chunked hchunk hnew⟩ ops, hfit⟩

/-- **A step in a steady state returns**, and leaves one. -/
theorem Steady.step (h : Steady { model with call := call } Holds InPlay Allowed next e)
    (hserves : ServesKnown chain model call Known Holds InPlay Allowed next)
    (hmakes : Makes { model with call := call } Allowed) :
    ∃ more e', (Engine.step chain model).run e = .ok more e' ∧
      Engine.next chain model e .step = e' ∧
      Steady { model with call := call } Holds InPlay Allowed next e' ∧
      SameAsks e e' ∧ e'.scheduler.created = e.scheduler.created := by
  obtain ⟨held, hco⟩ := h.coherent
  obtain ⟨more, e', held', hrun, hco'⟩ := step_returns hserves.serves hmakes hco
  rw [← step_agrees hserves.agrees hserves.serves hserves.known hserves.sampled hco] at hrun
  have hnext : Engine.next chain model e .step = e' := by
    rw [Engine.next, Engine.call, Exec.after_dropped, Exec.after_of_ok hrun]
  have halways := (callClosed_chunked chain model).next h.always .step
  rw [hnext] at halways
  obtain ⟨hasks, hcreated⟩ := step_sameAsks h.always.live hrun
  exact ⟨more, e', hrun, hnext, ⟨⟨held', hco'⟩, halways, h.fits.sameAsks hasks hcreated⟩, hasks,
    hcreated⟩

/-- **Enough steps from a steady state finish every request.** -/
theorem Steady.finishes (h : Steady { model with call := call } Holds InPlay Allowed next e)
    (hserves : ServesKnown chain model call Known Holds InPlay Allowed next)
    (hmakes : Makes { model with call := call } Allowed) :
    ∃ n, ∀ r < e.scheduler.created, (((List.replicate n Op.step).foldl (Engine.next chain model)
      e).scheduler.requests r).state = .finished := by
  obtain ⟨held, hco⟩ := h.coherent
  obtain ⟨n, ⟨held', hco'⟩, -, hcreated, hwaiting, hrunning⟩ :=
    exists_idle hserves.serves hmakes hco h.always h.fits
  rw [(run_known hserves hco (along_steps n e)).2.1] at hco' hcreated hwaiting hrunning
  refine ⟨n, fun r hr => ?_⟩
  rcases hco'.scheduler.created_iff.mp (hcreated.symm ▸ hr) with hm | hm | hm | hm
  · rw [hwaiting] at hm
    cases hm
  · rw [hrunning] at hm
    cases hm
  · exact (hco'.scheduler.completed r hm).1.state
  · exact (hco'.scheduler.failed r hm).state

end Engine

/-- The backends are served on known tokens. -/
theorem Backend.servesKnown {Row Score : Type} [LinearOrder Score] [Inhabited Row]
    {Known : Nat → Prop} {logits : List Nat → List Score} {model : InferenceModel Row Score}
    {call : List (List Nat) → Option (List Nat) → List Nat → KVCacheType.M Row (Logits Score)}
    (hmodel : Backend logits { model with call := call }) (hagrees : model.AgreesOn Known call)
    (hnext : ∀ tokens, Known (nextToken logits tokens)) (chain : Int → List Nat → Int) :
    ∃ Holds, Engine.ServesKnown chain model call Known Holds
        (fun prompt => ∀ t ∈ prompt, Known t) (· = false) (nextToken logits) ∧
      Engine.Makes { model with call := call } (· = false) := by
  obtain ⟨Holds, InPlay, hserves, hplay, hmakes⟩ := hmodel.serves chain
  exact ⟨Holds, ⟨hagrees, hserves.inPlay fun prompt _ => hplay prompt, fun _ h => h, hnext⟩, hmakes⟩

/-! ## Continuous batching -/

/-- **Continuous batching is transparent**: after every run of legal calls on known tokens with
prefix caching off, over either cache, a completed request has the tokens of the plain greedy
reference. -/
theorem continuousBatching_transparent {Row Score : Type} [LinearOrder Score]
    {Known : Nat → Prop} {logits : List Nat → List Score} {model : InferenceModel Row Score}
    {call : List (List Nat) → Option (List Nat) → List Nat → KVCacheType.M Row (Logits Score)}
    {Encodes : Nat → List Nat → List (Row × Row) → Prop} {chain : Int → List Nat → Int}
    (hagrees : model.AgreesOn Known call)
    (hmodel : RowLocal { model with call := call } Encodes logits)
    (hmake : model.makeKvCache = none) (hnext : ∀ tokens, Known (nextToken logits tokens))
    {maxConcurrentRequests prefillChunkSize maxTokensPerStep : Int} {usePagedKvCache : Bool}
    (hchunk : 1 ≤ prefillChunkSize) {e : Engine Row}
    (h : Engine.new model maxConcurrentRequests prefillChunkSize maxTokensPerStep usePagedKvCache
      false = .ok e) {ops : List Engine.Op}
    (hlegal : Exec.Along (Engine.Legal model (fun prompt => ∀ t ∈ prompt, Known t) (· = false))
      (Engine.next chain model) e ops) :
    ∀ r ∈ (ops.foldl (Engine.next chain model) e).scheduler.completed.values,
      let request := (ops.foldl (Engine.next chain model) e).scheduler.requests r
      greedyTokens logits request.promptTokenIds request.maxNewTokens.toNat
        = .ok request.outputTokenIds := by
  intro r hr
  have hserves : Serves chain { model with call := call } _ (fun prompt => ∀ t ∈ prompt, Known t)
      (· = false) (nextToken logits) := (hmodel.serves hmake).inPlay fun _ _ => trivial
  obtain ⟨⟨held, hco⟩, -⟩ := Engine.run_known ⟨hagrees, hserves, fun _ h => h, hnext⟩
    (Engine.new_known hchunk (Bool.and_false _) h fun _ => []) hlegal
  exact hco.greedyTokens (sampleGreedy_nextToken hmodel.vocabulary) hr

/-- Three requests on two slots, prefilled in chunks of two. One is cancelled while it generates,
and the last one takes its slot. -/
def threeRequests : List Engine.Op :=
  [.addRequest "a" [1, 2, 3] 3, .addRequest "b" [4] 3, .addRequest "c" [2, 2] 2, .step,
    .cancelRequest "b" "cancelled", .reconfigure (some 1) none none none (some false), .step, .step,
    .step, .step]

theorem threeRequests_transparent : ∃ e, Engine.new (recallModel ⟨2, 8, 0, 2⟩ sumScores) 2 2 8 true
    false = .ok e ∧
    let e' := threeRequests.foldl
      (Engine.next (fun _ _ => 0) (recallModel ⟨2, 8, 0, 2⟩ sumScores)) e
    e'.scheduler.completed.values = [2, 0] ∧
    ∀ r ∈ e'.scheduler.completed.values,
      greedyTokens sumScores (e'.scheduler.requests r).promptTokenIds
          (e'.scheduler.requests r).maxNewTokens.toNat
        = .ok (e'.scheduler.requests r).outputTokenIds := by
  obtain ⟨e, h⟩ : ∃ e, Engine.new (recallModel ⟨2, 8, 0, 2⟩ sumScores) 2 2 8 true false = .ok e :=
    ⟨_, rfl⟩
  refine ⟨e, h, ?_, continuousBatching_transparent
    (recallModel ⟨2, 8, 0, 2⟩ sumScores).agreesOn_self
    (recallModel_rowLocal Nat.zero_lt_two sumScores_ne_nil) rfl (fun _ => trivial) (by decide) h ?_⟩
  · cases h
    decide +kernel
  · cases h
    decide +kernel

/-! ## Every request that fits -/

section

variable {Row Score : Type} [LinearOrder Score] [Inhabited Row] {Known : Nat → Prop}
  {logits : List Nat → List Score} {model : InferenceModel Row Score}
  {call : List (List Nat) → Option (List Nat) → List Nat → KVCacheType.M Row (Logits Score)}
  {chain : Int → List Nat → Int}

/-- **Every request that fits is served**, with prefix caching off: in every state of a legal run on
known tokens a step returns, and if the chunks fit in the budget, enough steps complete every
request that has not failed before. -/
theorem requests_served (hagrees : model.AgreesOn Known call)
    (hmodel : Backend logits { model with call := call })
    (hnext : ∀ tokens, Known (nextToken logits tokens))
    {maxConcurrentRequests prefillChunkSize maxTokensPerStep : Int} {usePagedKvCache : Bool}
    (hchunk : 1 ≤ prefillChunkSize) {e : Engine Row}
    (hnew : Engine.new model maxConcurrentRequests prefillChunkSize maxTokensPerStep
      usePagedKvCache false = .ok e) {ops : List Engine.Op}
    (hlegal : Exec.Along (Engine.Legal model (fun prompt => ∀ t ∈ prompt, Known t) (· = false))
      (Engine.next chain model) e ops) :
    let e' := ops.foldl (Engine.next chain model) e
    (∃ more e'', (Engine.step chain model).run e' = .ok more e'') ∧
    (Engine.ChunksFit e' → ∃ n,
      let e'' := (ops ++ List.replicate n Engine.Op.step).foldl (Engine.next chain model) e
      e''.scheduler.hasWork = false ∧ e''.scheduler.failed = e'.scheduler.failed ∧
      ∀ r < e'.scheduler.created, r ∉ e'.scheduler.failed.values →
        r ∈ e''.scheduler.completed.values ∧
        greedyTokens logits (e'.scheduler.requests r).promptTokenIds
          (e'.scheduler.requests r).maxNewTokens.toNat
            = .ok (e''.scheduler.requests r).outputTokenIds) := by
  intro e'
  obtain ⟨Holds, hknown, hmakes⟩ := hmodel.servesKnown hagrees hnext chain
  obtain ⟨⟨held, hco⟩, -, -⟩ := Engine.run_known hknown
    (Engine.new_known hchunk (Bool.and_false _) hnew fun _ => []) hlegal
  have halways : Engine.Always Engine.Chunked e' := (Engine.callClosed_chunked chain model).run
    ⟨Engine.new_live hnew, Engine.new_chunked hchunk hnew⟩ ops
  refine ⟨?_, fun hfit => ?_⟩
  · obtain ⟨more, e'', -, hrun, -⟩ := Engine.step_returns hknown.serves hmakes hco
    refine ⟨more, e'', ?_⟩
    rw [Engine.step_agrees hknown.agrees hknown.serves hknown.known hknown.sampled hco]
    exact hrun
  · obtain ⟨n, ⟨held', hco'⟩, ⟨-, hfailed, hsame⟩, hcreated, hidle⟩ :=
      Engine.exists_idle hknown.serves hmakes hco halways hfit
    -- the steps of the model that knows every token are those of the model
    have hsteps := (Engine.run_known hknown hco (Engine.along_steps n _)).2.1
    rw [hsteps] at hco' hfailed hsame hcreated hidle
    refine ⟨n, ?_⟩
    rw [List.foldl_append]
    refine ⟨Engine.hasWork_eq_false_iff.mpr hidle, hfailed, fun r hr hnot => ?_⟩
    have hr' := hcreated.symm ▸ hr
    have hdone : r ∈ ((List.replicate n Engine.Op.step).foldl (Engine.next chain model)
        e').scheduler.completed.values := by
      rcases hco'.scheduler.created_iff.mp hr' with hm | hm | hm | hm
      · rw [hidle.1] at hm
        cases hm
      · rw [hidle.2] at hm
        cases hm
      · exact hm
      · rw [hfailed] at hm
        exact absurd hm hnot
    refine ⟨hdone, ?_⟩
    have hgreedy := hco'.greedyTokens (sampleGreedy_nextToken hmodel.vocabulary) hdone
    rwa [(hsame r).prompt, (hsame r).maxNewTokens] at hgreedy

end

/-- Two requests after their first step, the first with `n` tokens to generate. -/
def besideOther (n : Int) : List Engine.Op :=
  [.addRequest "a" [1, 2, 3, 4, 5, 6] n, .addRequest "b" [1] 8, .step]

/-- Three tokens fit. -/
theorem besideOther_served : ∃ e, Engine.new (recallModel ⟨1, 8, 0, 2⟩ sumScores) 2 8 16 true false
    = .ok e ∧
    let next := Engine.next (fun _ _ => 0) (recallModel ⟨1, 8, 0, 2⟩ sumScores)
    let e' := (besideOther 3).foldl next e
    (∃ more e'', (Engine.step (fun _ _ => 0) (recallModel ⟨1, 8, 0, 2⟩ sumScores)).run e'
      = .ok more e'') ∧
    ∃ n, let e'' := (besideOther 3 ++ List.replicate n Engine.Op.step).foldl next e
      e''.scheduler.hasWork = false ∧ e''.scheduler.failed = e'.scheduler.failed ∧
      ∀ r < e'.scheduler.created, r ∉ e'.scheduler.failed.values →
        r ∈ e''.scheduler.completed.values ∧
        greedyTokens sumScores (e'.scheduler.requests r).promptTokenIds
          (e'.scheduler.requests r).maxNewTokens.toNat
            = .ok (e''.scheduler.requests r).outputTokenIds := by
  obtain ⟨e, h⟩ : ∃ e, Engine.new (recallModel ⟨1, 8, 0, 2⟩ sumScores) 2 8 16 true false = .ok e :=
    ⟨_, rfl⟩
  have hlegal : Exec.Along (Engine.Legal (recallModel ⟨1, 8, 0, 2⟩ sumScores)
      (fun prompt => ∀ t ∈ prompt, True) (· = false))
      (Engine.next (fun _ _ => 0) (recallModel ⟨1, 8, 0, 2⟩ sumScores)) e (besideOther 3) := by
    cases h
    decide +kernel
  obtain ⟨hreturns, hserved⟩ := requests_served
    (recallModel ⟨1, 8, 0, 2⟩ sumScores).agreesOn_self
    (.rowLocal (recallModel_rowLocal Nat.zero_lt_one sumScores_ne_nil) rfl (by decide))
    (fun _ => trivial) (by decide) h hlegal
  refine ⟨e, h, hreturns, hserved ?_⟩
  cases h
  decide +kernel

/-- The same two requests as calls of `generate`, and four rounds of the worker. -/
def twoCallers : List EngineWorker.Action :=
  [.generate "a" [1, 2, 3, 4, 5, 6] 5 false, .generate "b" [1] 8 false, .loop, .loop, .loop, .loop,
    .loop, .loop, .loop, .loop]

/-- **Five tokens do not fit, and nobody is served any more**: the fourth step raises, and so does
the one after it. The worker's thread is gone, and both requests stay in `running`. -/
theorem besideOther_stuck : ∃ e, Engine.new (recallModel ⟨1, 8, 0, 2⟩ sumScores) 2 8 16 true false
    = .ok e ∧
    let chain := fun _ _ => 0
    let model := recallModel ⟨1, 8, 0, 2⟩ sumScores
    let e' := (besideOther 5 ++ List.replicate 2 Engine.Op.step).foldl (Engine.next chain model) e
    let e'' := Engine.next chain model e' .step
    let w := twoCallers.foldl (EngineWorker.next chain model) (EngineWorker.new e)
    Exec.value? (Engine.step chain model) e' = none ∧
      Exec.value? (Engine.step chain model) e'' = none ∧
      e''.scheduler.running.values = [0, 1] ∧ e''.scheduler.completed.values = [] ∧
      e''.scheduler.failed.values = [] ∧
      w.loop = .raised ∧ w.engine.scheduler.running.values = [0, 1] := by
  refine ⟨_, rfl, ?_⟩
  decide +kernel

end Nifre
