import Nifre.Properties.EngineRuns
import Nifre.Properties.Progress

/-!
# Known tokens

A model raises on a token that is not in its vocabulary. As long as the prompts are made of known
tokens, all that a step hands to the model is, and the model does what a forward pass that knows
every token would do.

* `ModelRunner.prefill_agrees`, `ModelRunner.decode_agrees` — one batch
* `Engine.step_agrees` — a step
-/

namespace Nifre

open Scheduler (Inv)

variable {Row Score : Type} {chain : Int → List Nat → Int}

/-- On known tokens, of which padding is one, the forward pass of the model is `call`. -/
structure InferenceModel.AgreesOn (model : InferenceModel Row Score) (Known : Nat → Prop)
    (call : List (List Nat) → Option (List Nat) → List Nat → KVCacheType.M Row (Logits Score)) :
    Prop where
  padToken : Known model.config.padTokenId
  call : ∀ tokenIds inputLens slots, (∀ row ∈ tokenIds, ∀ t ∈ row, Known t) →
    model.call tokenIds inputLens slots = call tokenIds inputLens slots

/-- A model that knows every token. -/
theorem InferenceModel.agreesOn_self (model : InferenceModel Row Score) :
    model.AgreesOn (fun _ => True) model.call :=
  ⟨trivial, fun _ _ _ _ => rfl⟩

variable {model : InferenceModel Row Score} {Known : Nat → Prop}
  {call : List (List Nat) → Option (List Nat) → List Nat → KVCacheType.M Row (Logits Score)}

/-! ## A batch -/

namespace ModelRunner

theorem mem_chunkTokens {q : InferenceRequest Nat} {t : Nat} (h : t ∈ chunkTokens q) :
    t ∈ q.promptTokenIds :=
  List.mem_of_mem_take (List.mem_of_mem_drop h)

theorem mem_batchTokenIds {tokenLists tokenIds : List (List Nat)} {padId : Nat}
    {inputLens : List Nat} (h : batchTokenIds tokenLists padId = .ok (tokenIds, inputLens))
    {row : List Nat} (hrow : row ∈ tokenIds) {t : Nat} (ht : t ∈ row) :
    t = padId ∨ ∃ tokens ∈ tokenLists, t ∈ tokens := by
  unfold batchTokenIds at h
  split at h
  · cases h
  · cases h
    obtain ⟨tokens, htokens, rfl⟩ := List.mem_map.mp hrow
    rcases List.mem_append.mp ht with ht | ht
    · exact Or.inl (List.mem_replicate.mp ht).2
    · exact Or.inr ⟨tokens, htokens, ht⟩

variable [LinearOrder Score]

theorem prefill_agrees (h : model.AgreesOn Known call) {rs : List Ref} {s : ModelRunner Row}
    (hs : ∀ r ∈ rs, ∀ t ∈ (s.requests r).promptTokenIds, Known t) :
    (prefill chain model rs).run s = (prefill chain { model with call := call } rs).run s := by
  have hprepared := (prepareAll_forwards (cacheSteps_any chain model) :
    Exec.Triple _ (forM rs (prepareSlot chain) : M Row PUnit) _ _) s
      (forwards_refl (cacheSteps_any chain model) s)
  unfold prefill
  cases hrun : (forM rs (prepareSlot chain) : M Row PUnit).run s with
  | error e t => rw [Exec.run_bind_error hrun, Exec.run_bind_error hrun]
  | ok u t =>
    rw [hrun] at hprepared
    rw [Exec.run_bind_ok hrun, Exec.run_bind_ok hrun, Exec.run_bind_ok (EStateM.run_get t),
      Exec.run_bind_ok (EStateM.run_get t)]
    refine congrArg (fun m => EStateM.run m t) (Exec.ofExcept_bind_congr fun batch hbatch => ?_)
    obtain ⟨tokenIds, inputLens⟩ := batch
    refine Exec.ofExcept_bind_congr fun slots _ => ?_
    rw [h.call tokenIds (some inputLens) slots fun row hrow t' ht => ?_]
    rcases mem_batchTokenIds hbatch hrow ht with rfl | ⟨tokens, htokens, ht⟩
    · exact h.padToken
    · obtain ⟨r, hr, rfl⟩ := List.mem_map.mp htokens
      refine hs r hr t' ?_
      rw [← (hprepared.1.forwarded r).prompt]
      exact mem_chunkTokens ht

theorem decode_agrees (h : model.AgreesOn Known call) {rs : List Ref} {s : ModelRunner Row}
    (hs : ∀ r ∈ rs, ∀ t ∈ (s.requests r).outputTokenIds, Known t) :
    (decode model rs).run s = (decode { model with call := call } rs).run s := by
  unfold decode
  rw [Exec.run_bind_ok (EStateM.run_get s), Exec.run_bind_ok (EStateM.run_get s)]
  refine congrArg (fun m => EStateM.run m s) (Exec.ofExcept_bind_congr fun tokens htokens => ?_)
  refine Exec.ofExcept_bind_congr fun slots _ => ?_
  rw [h.call tokens none slots fun row hrow t ht => ?_]
  obtain ⟨r, hr, hlast⟩ := Exec.mem_of_mapM_ok htokens row hrow
  unfold lastToken at hlast
  split at hlast
  · cases hlast
  · next t' ht' =>
    cases hlast
    rw [List.mem_singleton.mp ht]
    exact hs r hr t' (List.mem_of_getLast? ht')

end ModelRunner

/-! ## A step -/

namespace Engine

variable {Holds : KVCacheType Row → (Nat → List Nat) → Prop} {InPlay : List Nat → Prop}
  {Allowed : Bool → Prop} {next : List Nat → Nat} {e : Engine Row} {held : Nat → List Nat}

/-- The tokens of a request that decodes were sampled. -/
theorem Coherent.outputs_known (h : Coherent model Holds InPlay Allowed next e held [])
    (hnext : ∀ tokens, Known (next tokens)) {r : Ref} (hr : r ∈ e.scheduler.running.values)
    (hd : (e.scheduler.requests r).state = .decode) :
    ∀ t ∈ (e.scheduler.requests r).outputTokenIds, Known t := by
  intro t ht
  obtain ⟨b, hb⟩ := Option.ne_none_iff_exists'.mp (h.scheduler.running r hr).batchIdx
  cases h.running r hr List.not_mem_nil b hb with
  | fresh hf => exact absurd (hf.state.symm.trans hd) (by decide)
  | filling hf => exact absurd (hf.state.symm.trans hd) (by decide)
  | decoding hdec =>
    obtain ⟨i, hi, rfl⟩ := List.mem_iff_getElem.mp ht
    rw [hdec.greedy i hi]
    exact hnext _

variable [LinearOrder Score]

/-- **A step of the model is a step of the one that knows every token**, if the prompts in play are
made of known tokens. -/
theorem step_agrees (hagrees : model.AgreesOn Known call)
    (hserves : Serves chain { model with call := call } Holds InPlay Allowed next)
    (hplay : ∀ prompt, InPlay prompt → ∀ t ∈ prompt, Known t)
    (hnext : ∀ tokens, Known (next tokens))
    (h : Coherent { model with call := call } Holds InPlay Allowed next e held []) :
    (step chain model).run e = (step chain { model with call := call }).run e := by
  by_cases hwork : e.scheduler.hasWork = false
  · rw [step_noWork hwork, step_noWork hwork]
  have hensure : (ensureCache model).run e = (ensureCache { model with call := call }).run e := rfl
  unfold step
  rw [Exec.run_bind_ok (EStateM.run_get e), Exec.run_bind_ok (EStateM.run_get e), if_neg hwork,
    if_neg hwork]
  rcases ensureCache_run hserves h with ⟨err, hrun⟩ | ⟨c, held₁, hrun, h₁⟩
  · rw [Exec.run_bind_error hrun, Exec.run_bind_error (hensure.trans hrun)]
  obtain ⟨result, hsched, hprefill, hdecode⟩ := Scheduler.schedule_run e.scheduler
  have hsched₁ := onScheduler_run (e := { e with cache := some c }) hsched
  rw [Exec.run_bind_ok hrun, Exec.run_bind_ok (hensure.trans hrun), Exec.run_bind_ok hsched₁,
    Exec.run_bind_ok hsched₁]
  have h₂ := h₁.assignWaitingToSlots nofun
  obtain ⟨hp, hd⟩ := picked_running hsched
  obtain ⟨e₃, held₃, hrun₃, h₃, hd₃⟩ := prefillBatch_run hserves h₂
    (hprefill.nodup (h₂.scheduler.running_nodup.filter _)) hp hd
  -- the prompts of the prefill half are in play, and the tokens of the decode half were sampled
  have hsame : (prefillBatch chain model result.prefillRequests).run
      { e with cache := some c, scheduler := e.scheduler.assignWaitingToSlots } = .ok () e₃ := by
    rw [← hrun₃]
    unfold prefillBatch
    split
    · unfold runPrefill
      refine Exec.run_bind_congr (onRunner_congr fun c' _ => ?_) _
      refine ModelRunner.prefill_agrees hagrees fun r hr t ht => ?_
      exact hplay _ (h₂.job r (h₂.scheduler.running_lt (hp r hr).1)).inPlay t ht
    · rfl
  rw [Exec.run_bind_ok hrun₃, Exec.run_bind_ok hsame]
  refine Exec.run_bind_congr ?_ _
  unfold decodeBatch
  split
  · unfold runDecode
    refine Exec.run_bind_congr (onRunner_congr fun c' _ => ?_) _
    exact ModelRunner.decode_agrees hagrees fun r hr =>
      h₃.outputs_known hnext (hd₃ r hr).1 (hd₃ r hr).2
  · rfl

end Engine

end Nifre
