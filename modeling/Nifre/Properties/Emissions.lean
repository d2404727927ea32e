import Nifre.Inference.EngineWorker
import Nifre.Properties.DistinctIds

/-!
# What a step tells the token callbacks

With distinct ids, the calls of a callback during a step are the tokens that its request gets in
that step, in order. Whatever the model does, and on either exit.

* `Continued` — what a call leaves of a request that it does not cancel
* `step_emits` — every request is continued by a step
-/

namespace Nifre

variable {Row Score : Type}

namespace EngineWorker

@[simp] theorem heard_nil (requestId : String) : heard [] requestId = [] := rfl

theorem heard_append (calls calls' : List (String × Nat)) (requestId : String) :
    heard (calls ++ calls') requestId = heard calls requestId ++ heard calls' requestId := by
  simp [heard]

theorem heard_self (requestId : String) (tokenId : Nat) :
    heard [(requestId, tokenId)] requestId = [tokenId] := by
  simp [heard]

theorem heard_of_ne {requestId requestId' : String} (h : requestId ≠ requestId') (tokenId : Nat) :
    heard [(requestId, tokenId)] requestId' = [] := by
  simp [heard, h]

end EngineWorker

namespace Engine

open Scheduler (Inv Live)
open EngineWorker (heard heard_append heard_self heard_of_ne)

/-- What a call leaves of a request that it does not cancel: it gets the tokens that its callback
is called with, and none once it is finished. -/
structure Continued (callbacks : List String) (news : List (String × Nat))
    (q q' : InferenceRequest Nat) : Prop where
  requestId : q'.requestId = q.requestId
  maxNewTokens : q'.maxNewTokens = q.maxNewTokens
  status : q'.status = q.status
  output : ∃ tokens, q'.outputTokenIds = q.outputTokenIds ++ tokens ∧
    (q.requestId ∈ callbacks → tokens = heard news q.requestId)
  finished : q.state = .finished → q'.state = .finished ∧ q'.outputTokenIds = q.outputTokenIds

theorem Continued.refl (callbacks : List String) (q : InferenceRequest Nat) :
    Continued callbacks [] q q :=
  ⟨rfl, rfl, rfl, ⟨[], (List.append_nil _).symm, fun _ => rfl⟩, fun h => ⟨h, rfl⟩⟩

variable {callbacks : List String} {news : List (String × Nat)} {q q' q'' : InferenceRequest Nat}

/-- A change of the request that is not about its tokens. -/
theorem Continued.trans_same (h : Continued callbacks news q q')
    (hid : q''.requestId = q'.requestId) (hmax : q''.maxNewTokens = q'.maxNewTokens)
    (hstatus : q''.status = q'.status) (hout : q''.outputTokenIds = q'.outputTokenIds)
    (hstate : q'.state = .finished → q''.state = .finished) : Continued callbacks news q q'' where
  requestId := hid.trans h.requestId
  maxNewTokens := hmax.trans h.maxNewTokens
  status := hstatus.trans h.status
  output := by
    rw [hout]
    exact h.output
  finished := fun hs => ⟨hstate (h.finished hs).1, hout.trans (h.finished hs).2⟩

/-- The request that decodes gets a token, and its callback is called if it has one. -/
theorem Continued.push (h : Continued callbacks news q q') (hd : q'.state = .decode)
    {tokenId : Nat} (hid : q''.requestId = q'.requestId)
    (hmax : q''.maxNewTokens = q'.maxNewTokens) (hstatus : q''.status = q'.status)
    (hout : q''.outputTokenIds = q'.outputTokenIds ++ [tokenId]) :
    Continued callbacks
      (if q'.requestId ∈ callbacks then news ++ [(q'.requestId, tokenId)] else news) q q'' where
  requestId := hid.trans h.requestId
  maxNewTokens := hmax.trans h.maxNewTokens
  status := hstatus.trans h.status
  output := by
    obtain ⟨tokens, htokens, hheard⟩ := h.output
    refine ⟨tokens ++ [tokenId], by rw [hout, htokens, List.append_assoc], fun hmem => ?_⟩
    rw [h.requestId, if_pos hmem, heard_append, heard_self, hheard hmem]
  finished := fun hs => nomatch (h.finished hs).1.symm.trans hd

/-- A call of another callback. -/
theorem Continued.other (h : Continued callbacks news q q') {requestId : String}
    (hne : requestId ≠ q.requestId) (tokenId : Nat) :
    Continued callbacks
      (if requestId ∈ callbacks then news ++ [(requestId, tokenId)] else news) q q' where
  requestId := h.requestId
  maxNewTokens := h.maxNewTokens
  status := h.status
  output := by
    obtain ⟨tokens, htokens, hheard⟩ := h.output
    refine ⟨tokens, htokens, fun hmem => ?_⟩
    split
    · rw [heard_append, heard_of_ne hne, List.append_nil]
      exact hheard hmem
    · exact hheard hmem
  finished := h.finished

/-- **What happened since `e`**: no request was added or failed, and each got the tokens that its
callback was called with. -/
def Emits (e e' : Engine Row) : Prop :=
  Inv e'.scheduler ∧ e'.scheduler.created = e.scheduler.created ∧
    e'.tokenCallbacks = e.tokenCallbacks ∧ e'.scheduler.failed = e.scheduler.failed ∧
    ∃ news, e'.emitted = e.emitted ++ news ∧ ∀ r < e.scheduler.created,
      Continued e.tokenCallbacks news (e.scheduler.requests r) (e'.scheduler.requests r)

variable {e : Engine Row}

theorem Emits.refl (h : Inv e.scheduler) : Emits e e :=
  ⟨h, rfl, rfl, rfl, [], (List.append_nil _).symm, fun _ _ => Continued.refl _ _⟩

/-- One request object changed, in what is not about its tokens. -/
theorem Emits.update {e' : Engine Row} (h : Emits e e') {s : Scheduler Nat} (hinv : Inv s)
    {r : Ref} {q : InferenceRequest Nat}
    (hreq : s.requests = Function.update e'.scheduler.requests r q)
    (hcreated : s.created = e'.scheduler.created) (hfailed : s.failed = e'.scheduler.failed)
    (hid : q.requestId = (e'.scheduler.requests r).requestId)
    (hmax : q.maxNewTokens = (e'.scheduler.requests r).maxNewTokens)
    (hstatus : q.status = (e'.scheduler.requests r).status)
    (hout : q.outputTokenIds = (e'.scheduler.requests r).outputTokenIds)
    (hstate : (e'.scheduler.requests r).state ≠ .finished) :
    Emits e { e' with scheduler := s } := by
  obtain ⟨-, hc, hcb, hf, news, hnews, hall⟩ := h
  refine ⟨hinv, hcreated.trans hc, hcb, hfailed.trans hf, news, hnews, fun r' hr' => ?_⟩
  show Continued _ news _ (s.requests r')
  rw [hreq]
  by_cases he : r' = r
  · subst he
    rw [Function.update_self]
    exact (hall r' hr').trans_same hid hmax hstatus hout fun hs => absurd hs hstate
  · rw [Function.update_of_ne he]
    exact hall r' hr'

/-- A token for the request that decodes. -/
theorem Emits.push {e' : Engine Row} (h : Emits e e') {s : Scheduler Nat} (hinv : Inv s) {r : Ref}
    (hr : r < e'.scheduler.created) (hd : (e'.scheduler.requests r).state = .decode)
    {q : InferenceRequest Nat} {tokenId : Nat}
    (hreq : s.requests = Function.update e'.scheduler.requests r q)
    (hcreated : s.created = e'.scheduler.created) (hfailed : s.failed = e'.scheduler.failed)
    (hid : q.requestId = (e'.scheduler.requests r).requestId)
    (hmax : q.maxNewTokens = (e'.scheduler.requests r).maxNewTokens)
    (hstatus : q.status = (e'.scheduler.requests r).status)
    (hout : q.outputTokenIds = (e'.scheduler.requests r).outputTokenIds ++ [tokenId]) :
    Emits e { e' with
      scheduler := s
      emitted := if (e'.scheduler.requests r).requestId ∈ e'.tokenCallbacks then
        e'.emitted ++ [((e'.scheduler.requests r).requestId, tokenId)] else e'.emitted } := by
  obtain ⟨hinv', hc, hcb, hf, news, hnews, hall⟩ := h
  refine ⟨hinv, hcreated.trans hc, hcb, hfailed.trans hf,
    if (e'.scheduler.requests r).requestId ∈ e.tokenCallbacks then
      news ++ [((e'.scheduler.requests r).requestId, tokenId)] else news, ?_, fun r' hr' => ?_⟩
  · simp only [hcb, hnews]
    split <;> simp
  · show Continued _ _ _ (s.requests r')
    rw [hreq]
    by_cases he : r' = r
    · subst he
      rw [Function.update_self]
      exact (hall r' hr').push hd hid hmax hstatus hout
    · rw [Function.update_of_ne he]
      refine (hall r' hr').other (fun hsame => he ?_) tokenId
      exact (hinv'.ids r hr r' (hc ▸ hr') (hsame.trans (hall r' hr').requestId.symm)).symm

/-- **Every piece of a step keeps what happened since `e`.** -/
theorem stepClosed_emits (model : InferenceModel Row Score) (e : Engine Row) :
    StepClosed model (fun _ _ => True) (Emits e) where
  made := fun _ _ h _ _ => h
  cache := fun _ _ _ h _ _ => h
  forward := fun e' requests hlive h hf => by
    have hinv := (stepClosed_inv model).forward e' requests hlive h.1 hf
    obtain ⟨-, hc, hcb, hfailed, news, hnews, hall⟩ := h
    refine ⟨hinv, hc, hcb, hfailed, news, hnews, fun r hr => ?_⟩
    exact (hall r hr).trans_same (hf r).requestId (hf r).maxNewTokens (hf r).status (hf r).output
      fun hs => (hf r).state.trans hs
  assign := fun e' r waiting b freeSlots hlive h hw hfree => by
    have hinv := (stepClosed_inv model).assign e' r waiting b freeSlots hlive h.1 hw hfree
    have hr : r ∈ e'.scheduler.waiting := by rw [hw]; exact List.mem_cons_self
    refine h.update (q := { e'.scheduler.requests r with batchIdx := some b, state := .prefill })
      hinv ?_ ?_ ?_ rfl rfl rfl rfl (by simp [(hlive.waiting r hr).2])
    all_goals rw [Scheduler.assignSlot_eq]
  startDecode := fun e' r hlive h hr hs hcomplete =>
    h.update (q := { e'.scheduler.requests r with state := .decode })
      ((stepClosed_inv model).startDecode e' r hlive h.1 hr hs hcomplete) rfl rfl rfl rfl rfl rfl rfl
      (by simp [hs])
  handle := fun e' r tokenId hlive h hr hd => by
    have hinv := (stepClosed_inv model).handle e' r tokenId hlive h.1 hr hd
    have hout := Scheduler.markDecodeDone_outcome e'.scheduler r tokenId
    unfold handled at hinv ⊢
    generalize (Scheduler.markDecodeDone r tokenId).run e'.scheduler = result at hout hinv
    cases hout with
    | rejected err hne => exact absurd hd hne
    | more _ _ =>
      exact h.push (q := Scheduler.pushToken (e'.scheduler.requests r) tokenId) hinv hr hd rfl rfl rfl
        rfl rfl rfl rfl
    | last _ _ _ =>
      exact h.push (q := { Scheduler.pushToken (e'.scheduler.requests r) tokenId with
        state := .finished, batchIdx := none }) hinv hr hd rfl rfl rfl rfl rfl rfl rfl
    | gone err _ _ hk =>
      -- with distinct ids a request that decodes has its entry
      have hrun := h.1.mem_running hr (by simp [hd]) (by simp [hd])
      exact absurd (OrderedDict.mem_keys_of_mem (h.1.running_entry hrun)) hk

/-- **What a step tells the callbacks**, on either exit. -/
theorem step_emits [LinearOrder Score] (chain : Int → List Nat → Int)
    (model : InferenceModel Row Score) (hlive : Live e.scheduler) (hinv : Inv e.scheduler) :
    Emits e (Exec.after (step chain model) e) :=
  ((stepClosed_emits model e).step (cacheSteps_any chain model) e ⟨hlive, Emits.refl hinv, rfl⟩).inv

end Engine

end Nifre
