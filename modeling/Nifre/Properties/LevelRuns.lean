import Nifre.Properties.EngineLevels
import Nifre.Properties.HfCursors
import Nifre.Properties.GptCursors
import Nifre.Properties.ForwardRuns
import Nifre.Properties.Reversal

/-!
# The levels over a run

The calls between the steps leave the cursors of the running requests alone, so they are at their
levels in every run whose forward passes are harmless.
-/

namespace Nifre

open Scheduler (Inv Live)

namespace Engine

variable {Row Score : Type} {chain : Int → List Nat → Int} {model : InferenceModel Row Score}
  {e : Engine Row}

/-! ## The calls between the steps -/

/-- A request that comes is not prepared. -/
theorem Leveled.add (h : Leveled model (fun _ => 0) e) {q : InferenceRequest Nat}
    (hq : Scheduler.Waits q) (hid : ∀ r < e.scheduler.created,
      (e.scheduler.requests r).requestId ≠ q.requestId) (hunprepared : q.slotPrepared = false)
    (hoffset : q.prefillOffset = 0) :
    Leveled model (fun _ => 0) { e with scheduler := withRequest e.scheduler q } := by
  have hold : ∀ r ∈ e.scheduler.running.values,
      (withRequest e.scheduler q).requests r = e.scheduler.requests r :=
    fun r hr => withRequest_old e.scheduler q (h.inv.running_lt hr)
  have hnew := withRequest_new e.scheduler q
  have hother : ∀ r ≠ e.scheduler.created,
      (withRequest e.scheduler q).requests r = e.scheduler.requests r :=
    fun r hne => Function.update_of_ne hne _ _
  refine ⟨h.live.add hq.state fun _ => hoffset, h.inv.add hq hid, fun r => ?_, fun r hw => ?_,
    fun hnone r hr => ?_, fun c hc => ?_⟩
  · by_cases he : r = e.scheduler.created
    · subst he
      simp only [hnew, hoffset]
      exact Nat.zero_le _
    · simp only [hother r he]
      exact h.offset r
  · by_cases he : r = e.scheduler.created
    · subst he
      simp only [hnew]
      exact hunprepared
    · simp only [hother r he] at hw ⊢
      exact h.fresh r hw
  · simp only [hold r hr]
    exact h.uncached hnone r hr
  · obtain ⟨size, hmax, hnative, hlevels⟩ := h.cached c hc
    refine ⟨size, hmax, hnative, fun r hr b hb hp => ?_⟩
    simp only [hold r hr] at hb hp ⊢
    exact hlevels r hr b hb hp

/-- A request that ends leaves the cursors of the others alone. -/
theorem Leveled.ended (h : Leveled model (fun _ => 0) e) {r : Ref} {s : Scheduler Nat}
    (hlive : Live s) (hinv : Inv s)
    (hmax : s.maxConcurrentRequests = e.scheduler.maxConcurrentRequests)
    (hrunning : ∀ r' ∈ s.running.values, r' ∈ e.scheduler.running.values)
    (hother : ∀ r' ≠ r, s.requests r' = e.scheduler.requests r')
    (hself : Scheduler.SameProgress (e.scheduler.requests r) (s.requests r))
    (hended : (s.requests r).state = .finished) (hr : r ∉ s.running.values) :
    Leveled model (fun _ => 0) { e with scheduler := s } := by
  refine h.changed hlive hinv hmax hrunning hother ?_ (by rw [hended]; nofun) hself.prepared
    (fun _ _ => rfl) fun c _ hr' => absurd hr' hr
  rw [hself.offset, InferenceRequest.numPromptTokens, hself.prompt]
  exact h.offset r

/-- The number of slots changes, and does not grow once there is a cache. -/
theorem Leveled.resized (h : Leveled model (fun _ => 0) e) {e' : Engine Row}
    (hlive : Live e'.scheduler) (hinv : Inv e'.scheduler) (hcache : e'.cache = e.cache)
    (hrequests : e'.scheduler.requests = e.scheduler.requests)
    (hrunning : e'.scheduler.running = e.scheduler.running)
    (hmax : e.cache.isSome = true →
      e'.scheduler.maxConcurrentRequests ≤ e.scheduler.maxConcurrentRequests) :
    Leveled model (fun _ => 0) e' := by
  refine ⟨hlive, hinv, hrequests ▸ h.offset, hrequests ▸ h.fresh, ?_, fun c hc => ?_⟩
  · rw [hcache, hrequests, hrunning]
    exact h.uncached
  · rw [hcache] at hc
    obtain ⟨size, hsize, hnative, hlevels⟩ := h.cached c hc
    refine ⟨size, (hmax (by rw [hc]; rfl)).trans hsize, hnative, ?_⟩
    unfold AtLevels
    rw [hrequests, hrunning]
    exact hlevels

variable [LinearOrder Score]

theorem cancelRequest_leveled (h : Leveled model (fun _ => 0) e) (requestId status : String) :
    Leveled model (fun _ => 0) (Exec.after (cancelRequest requestId status) e) := by
  have hlive : Live (next (fun _ _ => 0) model e (.cancelRequest requestId status)).scheduler :=
    next_live h.live _
  rw [next, call, Exec.after_dropped] at hlive
  rcases cancelRequest_run h.inv requestId status with
    ⟨r, hr, -, hrun⟩ | ⟨r, hr, b, -, hb, hrun⟩ | ⟨-, -, err, hrun⟩
  · rw [Exec.after_of_ok hrun] at hlive ⊢
    have hself : (e.scheduler.dropWaiting r status).requests r
        = { e.scheduler.requests r with state := .finished, status := status } :=
      Function.update_self _ _ _
    refine h.ended (r := r) hlive (h.inv.dropWaiting hr status) rfl (fun r' hr' => hr')
      (fun r' hne => Function.update_of_ne hne _ _) ?_ ?_ (Scheduler.waiting_notMem h.inv hr).1
    · rw [hself]
      exact ⟨rfl, rfl, rfl, rfl, rfl⟩
    · rw [hself]
  · rw [Exec.after_of_ok hrun] at hlive ⊢
    have hself : (e.scheduler.failRunning r b status).requests r
        = { e.scheduler.requests r with
            state := .finished, status := status, batchIdx := none } :=
      Function.update_self _ _ _
    refine h.ended (r := r) hlive (h.inv.failRunning hr hb status) rfl
      (fun r' hr' => ((Scheduler.mem_erase_values h.inv hr).mp hr').1)
      (fun r' hne => Function.update_of_ne hne _ _) ?_ ?_
      fun hr' => ((Scheduler.mem_erase_values h.inv hr).mp hr').2 rfl
    · rw [hself]
      exact ⟨rfl, rfl, rfl, rfl, rfl⟩
    · rw [hself]
  · rw [Exec.after_of_error hrun]
    exact h

omit [LinearOrder Score] in
theorem reconfigure_leveled (h : Leveled model (fun _ => 0) e) (changes : EngineChanges) :
    Leveled model (fun _ => 0) (Exec.after (reconfigureWith changes) e) := by
  have hlive := reconfigureWith_live h.live changes
  have hout := reconfigure_outcome e changes
  unfold Exec.after at hlive ⊢
  generalize (reconfigureWith changes).run e = result at hout hlive ⊢
  cases hout with
  | refused err _ => exact h
  | halfway err _ _ _ =>
    exact h.resized hlive (inv_assigned h.inv changes) rfl rfl rfl fun _ => le_rfl
  | done _ _ hslots =>
    have hinv := inv_reconfigured h.inv hslots
    unfold reconfigured at hlive hinv ⊢
    cases hv : changes.maxConcurrentRequests with
    | none =>
      simp only [hv] at hlive hinv ⊢
      exact h.resized hlive hinv rfl rfl rfl fun _ => le_rfl
    | some v =>
      simp only [hv] at hlive hinv ⊢
      have hsame : ((e.assigned changes).scheduler.withMax v).requests = e.scheduler.requests ∧
          ((e.assigned changes).scheduler.withMax v).running = e.scheduler.running := by
        unfold Scheduler.withMax
        split <;> exact ⟨rfl, rfl⟩
      refine h.resized hlive hinv rfl hsame.1 hsame.2 fun hcached => ?_
      have hnumber := ((inv_assigned h.inv changes).withMax (hslots v hv)).2
      -- with a cache the number of slots only shrinks
      have hle : v ≤ e.scheduler.maxConcurrentRequests := by
        rcases (hslots v hv).2 with hsame | ⟨hgrow, -, -⟩
        · exact hsame.le
        · exact hgrow hcached
      show ((e.assigned changes).scheduler.withMax v).maxConcurrentRequests
        ≤ e.scheduler.maxConcurrentRequests
      omega

variable {Harmless Stops : Pass Row → Prop}

/-- The forward passes of a step are harmless, and a new request has an id of its own. -/
def HarmlessCall (chain : Int → List Nat → Int) (model : InferenceModel Row Score)
    (Harmless Stops : Pass Row → Prop) (e : Engine Row) : Op → Prop
  | .step => e.PassesHarmless chain model Harmless Stops
  | op => NewId e op

instance [DecidablePred Harmless] [DecidablePred Stops] (op : Op) :
    Decidable (HarmlessCall chain model Harmless Stops e op) :=
  match op with
  | .step => inferInstanceAs (Decidable (e.PassesHarmless chain model Harmless Stops))
  | .addRequest requestId prompt n =>
    inferInstanceAs (Decidable (NewId e (.addRequest requestId prompt n)))
  | .cancelRequest .. | .reconfigure .. | .registerTokenCallback _
  | .unregisterTokenCallback _ => inferInstanceAs (Decidable True)

/-- **Every call leaves the cursors at their levels**, on either exit, a step if its forward passes
are harmless. -/
theorem Leveled.next (hmodel : model.AllOrNone Harmless Stops) (h : Leveled model (fun _ => 0) e)
    (hslots : e.maxConcurrentRequests = e.scheduler.maxConcurrentRequests) {op : Op}
    (hop : HarmlessCall chain model Harmless Stops e op) :
    Leveled model (fun _ => 0) (Engine.next chain model e op) := by
  cases op with
  | addRequest requestId promptTokenIds maxNewTokens =>
    rw [Engine.next, call, Exec.after_dropped, Exec.after_of_ok (addRequest_run e _ _ _)]
    exact h.add ⟨rfl, rfl, rfl⟩ hop rfl rfl
  | step =>
    rw [Engine.next, call, Exec.after_dropped]
    exact step_leveled hmodel h hslots hop
  | cancelRequest requestId status =>
    rw [Engine.next, call, Exec.after_dropped]
    exact cancelRequest_leveled h requestId status
  | reconfigure prefillChunkSize maxTokensPerStep maxConcurrentRequests usePaged usePrefix =>
    rw [Engine.next, call, Exec.after_dropped]
    exact reconfigure_leveled h
      ⟨prefillChunkSize, maxTokensPerStep, maxConcurrentRequests, usePaged, usePrefix⟩
  | registerTokenCallback requestId => exact { h with }
  | unregisterTokenCallback requestId => exact { h with }

/-! ## Runs -/

omit [LinearOrder Score] in
theorem new_leveled {maxConcurrentRequests prefillChunkSize maxTokensPerStep : Int}
    {usePagedKvCache usePrefixCache : Bool}
    (h : new model maxConcurrentRequests prefillChunkSize maxTokensPerStep usePagedKvCache
      usePrefixCache = .ok e) : Leveled model (fun _ => 0) e := by
  have hlive := new_live h
  obtain ⟨s, hs, he⟩ := Exec.bind_eq_ok h
  cases he
  have hinv := Scheduler.new_inv hs
  unfold Scheduler.new at hs
  split at hs
  · cases hs
  · split at hs
    · cases hs
    · cases hs
      exact ⟨hlive, hinv, fun _ => le_rfl, fun _ _ => rfl, fun _ => nofun, nofun⟩

/-- How many tokens the cache has in the slot of a request. -/
def cachedLength (e : Engine Row) (r : Ref) : Option Nat := do
  let c ← e.cache
  let b ← (e.scheduler.requests r).batchIdx
  match (KVCacheType.length (b : Int)).run c with
  | .ok n _ => some n
  | .error _ _ => none

/-- The cache has as many tokens of every running request that is prepared as are processed. -/
def LengthsMatch (e : Engine Row) : Prop :=
  ∀ r ∈ e.scheduler.running.values, (e.scheduler.requests r).slotPrepared = true →
    (e.cachedLength r).map Nat.cast = some (e.scheduler.requests r).level

instance (e : Engine Row) : Decidable e.LengthsMatch :=
  inferInstanceAs (Decidable (∀ r ∈ e.scheduler.running.values,
    (e.scheduler.requests r).slotPrepared = true →
      (e.cachedLength r).map Nat.cast = some (e.scheduler.requests r).level))

omit [LinearOrder Score] in
theorem Leveled.lengthsMatch (h : Leveled model (fun _ => 0) e) : e.LengthsMatch := by
  intro r hr hp
  obtain ⟨b, hb⟩ := Option.ne_none_iff_exists'.mp (h.inv.running r hr).batchIdx
  cases hc : e.cache with
  | none => exact nomatch (h.uncached hc r hr).symm.trans hp
  | some c =>
    obtain ⟨size, hmax, hnative, hlevels⟩ := h.cached c hc
    have hlength := KVCacheType.length_run hnative
      (Nat.lt_of_lt_of_le (h.inv.running_slot_lt hr hb) hmax)
    have hcached : e.cachedLength r = some (c.cursor b) := by
      simp only [cachedLength, hc, hb, Option.bind_eq_bind, Option.bind_some, hlength]
    rw [hcached, Option.map_some, hlevels r hr b hb hp]
    exact congrArg some (Int.add_zero _)

/-- **In a run whose forward passes are harmless** the cache keeps up with the requests. -/
theorem run_lengthsMatch (hmodel : model.AllOrNone Harmless Stops)
    {maxConcurrentRequests prefillChunkSize maxTokensPerStep : Int}
    {usePagedKvCache usePrefixCache : Bool}
    (h : new model maxConcurrentRequests prefillChunkSize maxTokensPerStep usePagedKvCache
      usePrefixCache = .ok e) {ops : List Op}
    (hrun : Exec.Along (HarmlessCall chain model Harmless Stops) (Engine.next chain model) e ops) :
    (ops.foldl (Engine.next chain model) e).LengthsMatch := by
  have hall : Leveled model (fun _ => 0) (ops.foldl (Engine.next chain model) e) ∧
      Paired (ops.foldl (Engine.next chain model) e) :=
    Exec.Along.foldl (J := fun e => Leveled model (fun _ => 0) e ∧ Paired e)
      (fun _ op ⟨h, hp⟩ hop => ⟨h.next hmodel hp.slots hop, hp.next op⟩)
      ⟨new_leveled h, new_paired h⟩ hrun
  exact hall.1.lengthsMatch

end Engine

/-! ## The backends -/

section

open Engine

variable {Row F X Score : Type} [Inhabited Row] [Field F] [Add X] [LinearOrder Score]
  {numHeads headDim : Nat}

/-- **On every backend** the cache has as many tokens of every running request that is prepared as
are processed, after every call of a run whose forward passes are harmless, on either exit. -/
theorem harmlessRun_lengthsMatch {lm : HfCausalLM Row Score} {vocabSize : Nat}
    (hlm : lm.Counts vocabSize) {gpt : GptModel F X Score numHeads headDim}
    (hlayers : gpt.trfBlocks ≠ []) (hhead : ∀ x, gpt.outHead x ≠ [])
    (chain : Int → List Nat → Int) (math : ExactMath F)
    (emptyDense : Nat → Nat × Nat → Heads F numHeads headDim)
    (emptyPaged : Nat → Int × Nat → Heads F numHeads headDim) (padId : Nat)
    (maxConcurrentRequests prefillChunkSize maxTokensPerStep : Int)
    (usePagedKvCache usePrefixCache : Bool) (ops : List Op) :
    (∀ e, new lm.inferenceModel maxConcurrentRequests prefillChunkSize maxTokensPerStep
        usePagedKvCache usePrefixCache = .ok e →
      Exec.Along (HarmlessCall chain lm.inferenceModel lm.Harmless lm.Stops)
        (next chain lm.inferenceModel) e ops →
      (ops.foldl (next chain lm.inferenceModel) e).LengthsMatch) ∧
    let model := gpt.inferenceModel math emptyDense emptyPaged padId
    ∀ e, new model maxConcurrentRequests prefillChunkSize maxTokensPerStep usePagedKvCache
        usePrefixCache = .ok e →
      Exec.Along (HarmlessCall chain model (gpt.Harmless padId) (gpt.Stops padId))
        (next chain model) e ops →
      (ops.foldl (next chain model) e).LengthsMatch :=
  ⟨fun _ h hrun => run_lengthsMatch (HfCausalLM.allOrNone hlm) h hrun,
    fun _ h hrun => run_lengthsMatch
      (gpt.allOrNone emptyDense emptyPaged padId math hlayers hhead) h hrun⟩

end

/-! ## A prompt that is too long -/

theorem recallLM_counts {Score : Type} (config : ModelConfig) (hpos : 0 < config.numLayers)
    (prefixCacheMaxEntries : Nat) {logits : List Nat → List Score} {vocabSize : Nat}
    (hvocab : 0 < vocabSize) (hlogits : ∀ tokens, (logits tokens).length = vocabSize) :
    (recallLM config prefixCacheMaxEntries logits).Counts vocabSize where
  past := fun ids past out hout => by
    cases past with
    | none =>
      cases hout
      exact (pastKeyValuesLength_pastOf hpos _ ids).trans (Nat.zero_add _).symm
    | some past =>
      cases hout
      refine (pastKeyValuesLength_pastOf hpos _ _).trans (List.length_append.trans ?_)
      rcases past with _ | ⟨layer, layers⟩ <;> rfl
  logits := fun ids past out hout => by
    cases past <;> cases hout <;> exact length_chunkRows _ _ ids
  vocabulary := fun ids past out hout scores hscores => by
    have hrow : ∃ tokens, logits tokens = scores := by
      cases past <;> cases hout <;> obtain ⟨j, -, hj⟩ := List.mem_map.mp hscores <;> exact ⟨_, hj⟩
    obtain ⟨tokens, rfl⟩ := hrow
    exact hlogits tokens
  vocabSize_pos := hvocab

/-- A prompt that is too long comes first, and is cancelled once a step has raised. -/
def tooLongFirst : List Engine.Op :=
  [.addRequest "a" (List.replicate 9 1) 1, .addRequest "b" [1, 2] 2, .step,
    .cancelRequest "a" "error", .step]

theorem tooLongFirst_lengthsMatch :
    let hf := (recallLM ⟨1, 8, 0, 2⟩ 2 sumScores).inferenceModel
    let gpt := (smallGpt [smallBlock]).inferenceModel realMath (fun _ _ _ _ => 0)
      (fun _ _ _ _ => 0) 2
    ∃ e e', Engine.new hf 2 16 32 true true = .ok e ∧ Engine.new gpt 2 16 32 true true = .ok e' ∧
      let final := tooLongFirst.foldl (Engine.next PagedKVCache.sumChain hf) e
      let final' := tooLongFirst.foldl (Engine.next PagedKVCache.sumChain gpt) e'
      (final.scheduler.running.values = [1] ∧ final.cachedLength 1 = some 2 ∧
        final.LengthsMatch) ∧
      final'.scheduler.running.values = [1] ∧ final'.cachedLength 1 = some 2 ∧
        final'.LengthsMatch := by
  intro hf gpt
  obtain ⟨e, h⟩ : ∃ e, Engine.new hf 2 16 32 true true = .ok e := ⟨_, rfl⟩
  obtain ⟨e', h'⟩ : ∃ e', Engine.new gpt 2 16 32 true true = .ok e' := ⟨_, rfl⟩
  have hlayers : (smallGpt [smallBlock]).trfBlocks ≠ [] := List.cons_ne_nil _ _
  obtain ⟨hmatch, hmatch'⟩ := harmlessRun_lengthsMatch
    (recallLM_counts ⟨1, 8, 0, 2⟩ Nat.one_pos 2 (Nat.succ_pos 4) length_sumScores)
    hlayers (fun x => List.cons_ne_nil x [])
    PagedKVCache.sumChain realMath (fun _ _ _ _ => 0) (fun _ _ _ _ => 0) 2 2 16 32 true true
    tooLongFirst
  refine ⟨e, e', h, h', ⟨?_, ?_, hmatch e h ?_⟩, ?_, ?_, hmatch' e' h' ?_⟩
  all_goals
    cases h
    cases h'
    decide +kernel

/-- It comes second, and the prompt before it is in the cache when the step raises. -/
def tooLongSecond : List Engine.Op :=
  [.addRequest "a" [1, 2] 2, .addRequest "b" (List.replicate 9 1) 1, .step]

theorem tooLongSecond_ahead :
    let model := (recallLM ⟨1, 8, 0, 2⟩ 2 sumScores).inferenceModel
    ∃ e, Engine.new model 2 16 32 true true = .ok e ∧
      Exec.Along Engine.NewId (Engine.next PagedKVCache.sumChain model) e tooLongSecond ∧
      let final := tooLongSecond.foldl (Engine.next PagedKVCache.sumChain model) e
      (final.scheduler.requests 0).state = .prefill ∧
      (final.scheduler.requests 0).slotPrepared = true ∧
      (final.scheduler.requests 0).prefillOffset = 0 ∧ final.cachedLength 0 = some 2 ∧
      ¬final.LengthsMatch := by
  intro model
  obtain ⟨e, h⟩ : ∃ e, Engine.new model 2 16 32 true true = .ok e := ⟨_, rfl⟩
  refine ⟨e, h, ?_⟩
  cases h
  decide +kernel

end Nifre
