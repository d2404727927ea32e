import Nifre.Properties.Settings

/-!
# Every caller gets its own result

A caller knows its request by an id of eight hexadecimal digits, which the engine draws at random.
Requests are never forgotten, so an id that was drawn stays taken. Every caller gets its own request
back exactly as long as no id is drawn twice.
-/

namespace Nifre

variable {Row Score : Type}

namespace Engine

open Scheduler (Inv Live)

/-- The id drawn for a request, and the prompt that was submitted. -/
def Op.submission : Op → Option (String × List Nat)
  | .addRequest requestId promptTokenIds _ => some (requestId, promptTokenIds)
  | _ => none

/-- The requests that were submitted, in their order. -/
def submissions (ops : List Op) : List (String × List Nat) := ops.filterMap Op.submission

/-- A waiting, running, completed or failed request has the id. -/
def Held (e : Engine Row) (requestId : String) : Prop :=
  ∃ r ∈ e.scheduler.waiting ++ e.scheduler.running.values ++ e.scheduler.completed.values ++
    e.scheduler.failed.values, (e.scheduler.requests r).requestId = requestId

instance (e : Engine Row) (requestId : String) : Decidable (Held e requestId) :=
  inferInstanceAs (Decidable (∃ r ∈ _ ++ _ ++ _ ++ _, _))

/-- `add_request` does not return an id that is held. -/
def DrawsFree (e : Engine Row) : Op → Prop
  | .addRequest requestId _ _ => ¬Held e requestId
  | _ => True

/-- The request that `generate` returns for an id. -/
def HandsBack (e : Engine Row) (requestId : String) (r : Ref) : Prop :=
  e.scheduler.completed.find? requestId = some r ∨ e.scheduler.failed.find? requestId = some r

/-- What every caller relies on. -/
structure OwnResults (submitted : List (String × List Nat)) (e : Engine Row) : Prop where
  /-- It gets a request with the prompt that it submitted. -/
  prompt : ∀ requestId prompt, (requestId, prompt) ∈ submitted → ∀ r, HandsBack e requestId r →
    (e.scheduler.requests r).promptTokenIds = prompt
  /-- No running request is overwritten. -/
  running : ∀ r < e.scheduler.created, ((e.scheduler.requests r).state = .prefill ∨
    (e.scheduler.requests r).state = .decode) →
    e.scheduler.running.find? (e.scheduler.requests r).requestId = some r

/-! ## The requests submitted so far -/

/-- The id and the prompt of a request. -/
def submitted (s : Scheduler Nat) (r : Ref) : String × List Nat :=
  ((s.requests r).requestId, (s.requests r).promptTokenIds)

/-- The ids and the prompts of the requests, in their order. -/
def calls (e : Engine Row) : List (String × List Nat) :=
  (List.range e.scheduler.created).map (submitted e.scheduler)

/-- One request object changed, in what is neither its id nor its prompt. -/
theorem submitted_update {s s' : Scheduler Nat} {r : Ref} (q : InferenceRequest Nat)
    (hq : (q.requestId, q.promptTokenIds) = submitted s r)
    (hreq : s'.requests = Function.update s.requests r q) (r' : Ref) :
    submitted s' r' = submitted s r' := by
  by_cases he : r' = r
  · subst he
    rw [← hq, submitted, hreq, Function.update_self]
  · rw [submitted, hreq, Function.update_of_ne he]
    rfl

variable {e : Engine Row} {chain : Int → List Nat → Int} {model : InferenceModel Row Score}

theorem stepClosed_submitted (model : InferenceModel Row Score) (f : Ref → String × List Nat) :
    StepClosed model (fun _ _ => True) fun e => ∀ r, submitted e.scheduler r = f r where
  made := fun _ _ h _ _ => h
  cache := fun _ _ _ h _ _ => h
  forward := fun _ _ _ h hf r => (Prod.ext (hf r).requestId (hf r).prompt).trans (h r)
  assign := fun e r waiting b freeSlots _ h _ _ r' => by
    rw [Scheduler.assignSlot_eq]
    exact (submitted_update { e.scheduler.requests r with batchIdx := some b, state := .prefill }
      rfl rfl r').trans (h r')
  startDecode := fun e r _ h _ _ _ r' =>
    (submitted_update { e.scheduler.requests r with state := .decode } rfl rfl r').trans (h r')
  handle := fun e r tokenId _ h _ hd r' => by
    refine Eq.trans ?_ (h r')
    have hout := Scheduler.markDecodeDone_outcome e.scheduler r tokenId
    unfold handled
    generalize (Scheduler.markDecodeDone r tokenId).run e.scheduler = result at hout
    cases hout with
    | rejected err _ => rfl
    | more _ _ => exact submitted_update (Scheduler.pushToken _ tokenId) rfl rfl r'
    | last _ _ _ =>
      exact submitted_update
        { Scheduler.pushToken _ tokenId with state := .finished, batchIdx := none } rfl rfl r'
    | gone err _ _ _ =>
      exact submitted_update { Scheduler.pushToken _ tokenId with state := .finished } rfl rfl r'

/-- The engine has the same requests as `e`, with the same ids and prompts. -/
def SameCalls (e e' : Engine Row) : Prop :=
  e'.scheduler.created = e.scheduler.created ∧
    ∀ r, submitted e'.scheduler r = submitted e.scheduler r

theorem SameCalls.calls {e' : Engine Row} (h : SameCalls e e') : calls e' = calls e := by
  unfold Engine.calls
  rw [h.1]
  exact List.map_congr_left fun r _ => h.2 r

theorem cancelRequest_sameCalls (requestId status : String) :
    Exec.Keeps (SameCalls e) (cancelRequest requestId status) := by
  refine cancelRequest_pieces (fun e' h => ?_) (fun _ _ _ h _ => h)
  have hout := Scheduler.cancelRequest_outcome e'.scheduler requestId status
  unfold Exec.after
  generalize (Scheduler.cancelRequest requestId status).run e'.scheduler = result at hout
  cases hout with
  | waiting r _ _ =>
    exact ⟨h.1, fun r' => (submitted_update (r := r)
      { e'.scheduler.requests r with state := .finished, status := status } rfl rfl r').trans (h.2 r')⟩
  | running r _ _ =>
    exact ⟨h.1, fun r' => (submitted_update (r := r)
      { e'.scheduler.requests r with state := .finished, status := status, batchIdx := none }
      rfl rfl r').trans (h.2 r')⟩
  | unknown err _ _ => exact h

theorem reconfigureWith_sameCalls (changes : EngineChanges) :
    Exec.Keeps (SameCalls e) (reconfigureWith changes) := by
  refine reconfigureWith_keeps changes (fun _ h => h) fun e' h => ?_
  unfold reconfigured Scheduler.withMax
  split
  · exact h
  · split <;> exact h

variable [LinearOrder Score]

variable (chain model) in
/-- **One call**: the requests are those before it, and the one that it submits. -/
theorem next_calls (hlive : Live e.scheduler) (op : Op) :
    calls (Engine.next chain model e op) = calls e ++ op.submission.toList := by
  have hkept : op.submission = none → SameCalls e (Engine.next chain model e op) →
      calls (Engine.next chain model e op) = calls e ++ op.submission.toList := fun hnone hsame => by
    rw [hsame.calls, hnone, Option.toList_none, List.append_nil]
  cases op with
  | addRequest requestId promptTokenIds maxNewTokens =>
    rw [Engine.next, call, Exec.after_dropped, Exec.after_of_ok (addRequest_run e _ _ _)]
    unfold calls
    show (List.range (e.scheduler.created + 1)).map _ = _
    rw [List.range_succ, List.map_append]
    refine congrArg₂ (· ++ ·) (List.map_congr_left fun r hr => ?_) ?_
    · unfold submitted
      rw [withRequest_old e.scheduler _ (List.mem_range.mp hr)]
    · rw [List.map_singleton, submitted, withRequest_new]
      rfl
  | step =>
    refine hkept rfl ?_
    rw [Engine.next, call, Exec.after_dropped]
    have h := (stepClosed_submitted model (submitted e.scheduler)).step (cacheSteps_any chain model)
      e ⟨hlive, fun _ => rfl, rfl⟩
    exact ⟨h.created, h.inv⟩
  | cancelRequest requestId status =>
    refine hkept rfl ?_
    rw [Engine.next, call, Exec.after_dropped]
    exact cancelRequest_sameCalls requestId status e ⟨rfl, fun _ => rfl⟩
  | reconfigure prefillChunkSize maxTokensPerStep maxConcurrentRequests usePaged usePrefix =>
    refine hkept rfl ?_
    rw [Engine.next, call, Exec.after_dropped]
    exact reconfigureWith_sameCalls
      ⟨prefillChunkSize, maxTokensPerStep, maxConcurrentRequests, usePaged, usePrefix⟩ e
      ⟨rfl, fun _ => rfl⟩
  | registerTokenCallback requestId => exact hkept rfl ⟨rfl, fun _ => rfl⟩
  | unregisterTokenCallback requestId => exact hkept rfl ⟨rfl, fun _ => rfl⟩

variable (chain model) in
theorem run_calls (hlive : Live e.scheduler) (ops : List Op) :
    Live (ops.foldl (Engine.next chain model) e).scheduler ∧
      calls (ops.foldl (Engine.next chain model) e) = calls e ++ submissions ops := by
  induction ops generalizing e with
  | nil => exact ⟨hlive, (List.append_nil _).symm⟩
  | cons op ops ih =>
    obtain ⟨hlive', hcalls⟩ := ih (e := Engine.next chain model e op) (next_live hlive op)
    refine ⟨hlive', hcalls.trans ?_⟩
    rw [next_calls chain model hlive, List.append_assoc]
    unfold submissions
    cases hop : op.submission with
    | none => rw [List.filterMap_cons_none hop]; rfl
    | some call => rw [List.filterMap_cons_some hop]; rfl

/-! ## With distinct ids -/

omit [LinearOrder Score] in
theorem mem_calls {requestId : String} {prompt : List Nat} :
    (requestId, prompt) ∈ calls e ↔ ∃ r < e.scheduler.created,
      (e.scheduler.requests r).requestId = requestId ∧
        (e.scheduler.requests r).promptTokenIds = prompt := by
  simp [calls, submitted]

omit [LinearOrder Score] in
/-- Requests are never forgotten, so an id is held exactly if it was drawn. -/
theorem held_iff (h : Inv e.scheduler) {requestId : String} : Held e requestId ↔
    ∃ r < e.scheduler.created, (e.scheduler.requests r).requestId = requestId := by
  have hmem : ∀ r, r ∈ e.scheduler.waiting ++ e.scheduler.running.values ++
      e.scheduler.completed.values ++ e.scheduler.failed.values ↔ r < e.scheduler.created := by
    intro r
    rw [h.created_iff]
    simp only [List.mem_append, or_assoc]
  unfold Held
  simp only [hmem]

omit [LinearOrder Score] in
theorem drawsFree_iff (h : Inv e.scheduler) (op : Op) : DrawsFree e op ↔ NewId e op := by
  cases op with
  | addRequest requestId promptTokenIds maxNewTokens =>
    show ¬Held e requestId ↔ ∀ r < e.scheduler.created, (e.scheduler.requests r).requestId ≠ requestId
    rw [held_iff h]
    simp
  | _ => exact Iff.rfl

omit [LinearOrder Score] in
/-- **With distinct ids every caller gets its own request.** -/
theorem ownResults_of_inv (h : Inv e.scheduler) : OwnResults (calls e) e where
  prompt := by
    intro requestId prompt hcall r hr
    obtain ⟨r', hlt, hid, hprompt⟩ := mem_calls.mp hcall
    -- the entry has the id as its key, and one request has that id
    have hown : ∀ d : OrderedDict String Ref, (∀ id r, (id, r) ∈ d.entries →
        (e.scheduler.requests r).requestId = id) → (∀ r ∈ d.values, r < e.scheduler.created) →
        d.find? requestId = some r → r = r' := fun d hkey hlt' hfind => by
      have hm := OrderedDict.find?_eq_some_iff.mp hfind
      exact h.ids r (hlt' r (OrderedDict.mem_values_iff.mpr ⟨_, hm⟩)) r' hlt
        ((hkey _ _ hm).trans hid.symm)
    have he : r = r' := by
      rcases hr with hc | hf
      · exact hown _ h.completedKey (fun r hr => h.completed_lt r hr) hc
      · exact hown _ h.failedKey (fun r hr => h.failed_lt r hr) hf
    rw [he]
    exact hprompt
  running := by
    intro r hr hstate
    refine OrderedDict.find?_eq_some_iff.mpr (h.running_entry (h.mem_running hr ?_ ?_))
    · rcases hstate with hs | hs <;> simp [hs]
    · rcases hstate with hs | hs <;> simp [hs]

variable (chain model) in
/-- The ids are new along a run exactly if no id is drawn twice. -/
theorem newIds_iff (hlive : Live e.scheduler) (hnd : ((calls e).map Prod.fst).Nodup)
    (ops : List Op) : Exec.Along NewId (Engine.next chain model) e ops ↔
      ((calls e ++ submissions ops).map Prod.fst).Nodup := by
  induction ops generalizing e with
  | nil => simpa [Exec.Along, submissions] using hnd
  | cons op ops ih =>
    have hcalls := next_calls chain model hlive op
    have hlist : calls e ++ submissions (op :: ops)
        = calls (Engine.next chain model e op) ++ submissions ops := by
      rw [hcalls, List.append_assoc]
      unfold submissions
      cases hop : op.submission with
      | none => rw [List.filterMap_cons_none hop]; rfl
      | some call => rw [List.filterMap_cons_some hop]; rfl
    rw [hlist]
    have hnew : NewId e op ↔ ((calls (Engine.next chain model e op)).map Prod.fst).Nodup := by
      rw [hcalls, List.map_append]
      cases op with
      | addRequest requestId promptTokenIds maxNewTokens =>
        have hmem : requestId ∉ (calls e).map Prod.fst ↔
            NewId e (.addRequest requestId promptTokenIds maxNewTokens) := by
          simp [NewId, calls, submitted]
        rw [← hmem]
        simp only [Op.submission, Option.toList_some, List.map_singleton]
        rw [List.nodup_append_comm, List.singleton_append, List.nodup_cons]
        exact (and_iff_left hnd).symm
      | _ => simpa [NewId, Op.submission] using hnd
    show NewId e op ∧ _ ↔ _
    constructor
    · rintro ⟨hop, hrest⟩
      exact (ih (next_live hlive op) (hnew.mp hop)).mp hrest
    · intro h
      have hdistinct : ((calls (Engine.next chain model e op)).map Prod.fst).Nodup := by
        rw [List.map_append] at h
        exact (List.nodup_append.mp h).1
      exact ⟨hnew.mpr hdistinct, (ih (next_live hlive op) hdistinct).mpr h⟩

/-! ## Runs -/

/-- No id is taken when it is drawn, and in every state of the run every caller gets its own. -/
def EveryoneOwn (chain : Int → List Nat → Int) (model : InferenceModel Row Score) (e : Engine Row)
    (ops : List Op) : Prop :=
  Exec.Along DrawsFree (Engine.next chain model) e ops ∧
    ∀ before, before <+: ops → OwnResults (submissions before)
      (before.foldl (Engine.next chain model) e)

theorem run_inv (hlive : Live e.scheduler) (h : Inv e.scheduler) {ops : List Op}
    (hids : Exec.Along NewId (Engine.next chain model) e ops) :
    Inv (ops.foldl (Engine.next chain model) e).scheduler :=
  (Exec.Along.foldl (J := fun e => Live e.scheduler ∧ Inv e.scheduler)
    (fun _ op h hop => ⟨next_live h.1 op, next_inv h.1 h.2 hop⟩) ⟨hlive, h⟩ hids).2

/-- **Every caller gets its own result in every state of a run exactly as long as no id is drawn
twice.** -/
theorem everyoneOwn_iff {model : InferenceModel Row Score}
    {maxConcurrentRequests prefillChunkSize maxTokensPerStep : Int}
    {usePagedKvCache usePrefixCache : Bool} {e : Engine Row}
    (hnew : new model maxConcurrentRequests prefillChunkSize maxTokensPerStep usePagedKvCache
      usePrefixCache = .ok e) (ops : List Op) :
    EveryoneOwn chain model e ops ↔ ((submissions ops).map Prod.fst).Nodup := by
  have hlive := new_live hnew
  have hinv := new_inv hnew
  have hcalls : calls e = [] := by
    obtain ⟨s, hs, he⟩ := Exec.bind_eq_ok hnew
    cases he
    unfold Scheduler.new at hs
    split at hs
    · cases hs
    · split at hs
      · cases hs
      · cases hs
        rfl
  have hnewIds := newIds_iff chain model hlive (by simp [hcalls]) ops
  rw [hcalls, List.nil_append] at hnewIds
  rw [← hnewIds]
  -- along the run an id is new exactly if it is not held
  have hiff : Exec.Along DrawsFree (Engine.next chain model) e ops ↔
      Exec.Along NewId (Engine.next chain model) e ops :=
    Exec.Along.congr (J := fun e => Live e.scheduler ∧ Inv e.scheduler) (L := fun _ _ => True)
      (fun e op h _ => ⟨drawsFree_iff h.2 op, fun hop => ⟨next_live h.1 op, next_inv h.1 h.2 hop⟩⟩)
      ⟨hlive, hinv⟩ (Exec.along_of_forall fun _ _ => trivial)
  unfold EveryoneOwn
  rw [hiff]
  refine and_iff_left_of_imp fun hids before hbefore => ?_
  obtain ⟨after, rfl⟩ := hbefore
  have hrun := (run_calls chain model hlive before).2
  rw [hcalls, List.nil_append] at hrun
  rw [← hrun]
  exact ownResults_of_inv (run_inv hlive hinv (Exec.along_append.mp hids).1)

/-- The same eight digits are drawn for two callers, the second one after the first is served. -/
def drawnTwice : List Op :=
  [.addRequest "00000000" [1, 2] 1, .step, .addRequest "00000000" [3, 4] 1]

/-- **The second caller gets the request of the first one.** -/
theorem drawnTwice_notOwn :
    ∃ e, new (recallModel ⟨1, 8, 0, 2⟩ sumScores) 1 4 8 true true = .ok e ∧
      ¬EveryoneOwn PagedKVCache.sumChain (recallModel ⟨1, 8, 0, 2⟩ sumScores) e drawnTwice ∧
      let e' := drawnTwice.foldl
        (Engine.next PagedKVCache.sumChain (recallModel ⟨1, 8, 0, 2⟩ sumScores)) e
      ∃ r, HandsBack e' "00000000" r ∧ (e'.scheduler.requests r).promptTokenIds = [1, 2] := by
  refine ⟨_, rfl, ?_, 0, Or.inl (by decide +kernel), by decide +kernel⟩
  intro h
  have hown := (h.2 drawnTwice (List.prefix_refl _)).prompt "00000000" [3, 4] (by decide) 0
    (Or.inl (by decide +kernel))
  revert hown
  decide +kernel

theorem drawnOnce_own :
    ∃ e, new (recallModel ⟨1, 8, 0, 2⟩ sumScores) 1 4 8 true true = .ok e ∧
      EveryoneOwn PagedKVCache.sumChain (recallModel ⟨1, 8, 0, 2⟩ sumScores) e
        [.addRequest "00000000" [1, 2] 1, .step, .addRequest "00000001" [3, 4] 1, .step] := by
  obtain ⟨e, h⟩ : ∃ e, new (recallModel ⟨1, 8, 0, 2⟩ sumScores) 1 4 8 true true = .ok e := ⟨_, rfl⟩
  exact ⟨e, h, (everyoneOwn_iff h _).mpr (by decide)⟩

end Engine

end Nifre
