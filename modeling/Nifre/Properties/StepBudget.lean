import Nifre.Properties.HandedOver
import Nifre.Properties.Admissions
import Nifre.Properties.Picks
import Nifre.Properties.PrefillPass
import Nifre.Properties.Progress
import Mathlib.Algebra.BigOperators.Ring.Finset

/-!
# The token budget of a step

The scheduler charges a chunk before the model runner may find a cached prefix. The prefix only
makes the chunk shorter, so the real tokens that a step hands to the model stay within the budget.
A negative chunk size breaks this: it is charged below zero, and the slice up to a negative index
is long. `reconfigure` rejects such a chunk size, the constructor does not.

* `Scheduler.schedule_picks` — the decode rows, in admission order, and the charged budget
* `ModelRunner.slicedLens_sum_le` — the rows that a prefill cuts are within what was charged
* `Engine.step_withinBudget` — the whole step
* `Engine.negativeChunk_overBudget` — a step that hands over more
-/

namespace Nifre

open Scheduler (Inv InOrder Live)

variable {Row Score : Type} {chain : Int → List Nat → Int}

/-! ## What is cut -/

namespace ModelRunner

/-- The chunk that is sliced is no longer than the one that was charged. -/
theorem chunk_le_charged {q q' : InferenceRequest Nat} (h : Forwarded q q') (hu : q.Unstarted)
    (hoffset : q.prefillOffset ≤ q.numPromptTokens) (hchunk : 0 ≤ q.prefillChunkSize) :
    ((chunkTokens q').length : Int) ≤ Scheduler.prefillChunkTokens q := by
  have hle := h.offset hu
  unfold InferenceRequest.numPromptTokens at hoffset
  unfold chunkTokens pySlice Scheduler.prefillChunkTokens InferenceRequest.numPromptTokens
  simp only [h.prompt, h.chunk]
  rw [if_neg (by omega), List.length_drop, List.length_take]
  omega

theorem charged_nonneg {requests : Ref → InferenceRequest Nat} {rs : List Ref}
    (hs : ∀ r ∈ rs, (requests r).prefillOffset ≤ (requests r).numPromptTokens)
    (hchunk : ∀ r ∈ rs, 0 ≤ (requests r).prefillChunkSize) :
    0 ≤ (rs.map fun r => Scheduler.prefillChunkTokens (requests r)).sum := by
  refine List.sum_nonneg (List.forall_mem_map.mpr fun r hr => ?_)
  have := hs r hr
  have := hchunk r hr
  unfold Scheduler.prefillChunkTokens
  omega

/-- The rows are within what was charged. -/
theorem slicedLens_sum_le (model : InferenceModel Row Score) {s t : ModelRunner Row} {rs : List Ref}
    (hrun : (forM rs (prepareSlot chain) : M Row PUnit).run s = .ok ⟨⟩ t)
    (hs : ∀ r ∈ rs, (s.requests r).prefillOffset ≤ (s.requests r).numPromptTokens)
    (hun : ∀ r, (s.requests r).Unstarted) (hchunk : ∀ r ∈ rs, 0 ≤ (s.requests r).prefillChunkSize) :
    ((rs.map fun r => (chunkTokens (t.requests r)).length).sum : Int)
      ≤ (rs.map fun r => Scheduler.prefillChunkTokens (s.requests r)).sum := by
  have hK := cacheSteps_any chain model
  have hprepared := (prepareAll_forwards hK :
    Exec.Triple _ (forM rs (prepareSlot chain) : M Row PUnit) _ _) s (forwards_refl hK s)
  rw [hrun] at hprepared
  obtain ⟨hforwards, -⟩ := hprepared
  rw [Nat.cast_list_sum, List.map_map]
  refine List.sum_le_sum fun r hr => ?_
  exact chunk_le_charged (hforwards.forwarded r) (hun r) (hs r hr) (hchunk r hr)

end ModelRunner

/-! ## What is picked -/

namespace Scheduler

variable {s : Scheduler Nat} {log : List Ref}

/-- The requests of the log that decode. -/
def decodes (log : List Ref) (s : Scheduler Nat) : List Ref :=
  log.filter fun r => r ∈ s.running.values ∧ (s.requests r).state = .decode

/-- The requests that are admitted do not decode yet. -/
theorem InOrder.decodes_eq (h : InOrder log s) (hi : Inv s) (hlive : Live s) :
    s.assignWaitingToSlots.decoding s.assignWaitingToSlots.running.values = decodes log s := by
  have hi' := hi.assignWaitingToSlots
  rw [(h.assignWaitingToSlots hi).running_eq, decoding, decodes, List.filter_filter,
    List.filter_append]
  have hrun : ∀ r < s.created, ((s.assignWaitingToSlots.requests r).state = .decode ∧
      r ∈ s.assignWaitingToSlots.running.values ↔
        r ∈ s.running.values ∧ (s.requests r).state = .decode) := by
    intro r hr
    have hd := (hlive.assigned r).decode
    constructor
    · rintro ⟨hs, -⟩
      rw [hd] at hs
      exact ⟨hi.mem_running hr (by simp [hs]) (by simp [hs]), hs⟩
    · rintro ⟨-, hs⟩
      rw [← hd] at hs
      have hr' : r < s.assignWaitingToSlots.created := (assignWaitingToSlots_settings s).1 ▸ hr
      exact ⟨hs, hi'.mem_running hr' (by simp [hs]) (by simp [hs])⟩
  have hnone : (s.waiting.take s.freeSlots.length).filter (fun r =>
      decide ((s.assignWaitingToSlots.requests r).state = .decode) &&
        decide (r ∈ s.assignWaitingToSlots.running.values)) = [] := by
    refine List.filter_eq_nil_iff.mpr fun r hr => ?_
    have hw := List.mem_of_mem_take hr
    have hs := (hlive.assigned r).decode
    rw [(hlive.waiting r hw).2] at hs
    simp [hs]
  rw [hnone, List.append_nil]
  refine List.filter_congr fun r hr => ?_
  rw [← Bool.decide_and, decide_eq_decide]
  exact hrun r (h.created r hr)

/-- **What a call of `schedule` picks**: decoding requests first, and chunks for the rest of the
budget. -/
theorem schedule_picks (hlive : Live s) :
    ∃ result, schedule.run s = .ok result s.assignWaitingToSlots ∧
      result.decodeRequests = (s.assignWaitingToSlots.decoding
        s.assignWaitingToSlots.running.values).take s.maxTokensPerStep.toNat ∧
      (∀ r ∈ result.prefillRequests, r ∉ result.decodeRequests) ∧
      (result.prefillRequests.map fun r => prefillChunkTokens (s.requests r)).sum
        + result.decodeRequests.length ≤ s.maxTokensPerStep := by
  have hbudget := hlive.budget
  have hsettings : s.assignWaitingToSlots.maxTokensPerStep = s.maxTokensPerStep :=
    (assignWaitingToSlots_settings s).2.1
  obtain ⟨result, hrun, hprefill, hdecode⟩ := schedule_run s
  have hresult := (schedule_eq s).symm.trans hrun
  injection hresult with hresult
  refine ⟨result, hrun, ?_, fun r hr hr' => ?_, ?_⟩
  · rw [← hresult, pickDecode_eq (by omega), hsettings]
  · have hp := (List.mem_filter.mp (hprefill.subset hr)).2
    have hd := (List.mem_filter.mp (hdecode.subset hr')).2
    simp only [decide_eq_true_eq] at hp hd
    exact nomatch hp.symm.trans hd
  · have hcharged : (result.prefillRequests.map fun r => prefillChunkTokens (s.requests r))
        = result.prefillRequests.map fun r =>
          prefillChunkTokens (s.assignWaitingToSlots.requests r) :=
      List.map_congr_left fun r _ => (hlive.assigned r).prefillChunkTokens.symm
    rw [hcharged, ← hresult]
    have hleft := pickDecode_left (s := s.assignWaitingToSlots) (zero_le_one.trans hbudget)
      s.assignWaitingToSlots.running.values
    have hsum := pickPrefill_sum (s := s.assignWaitingToSlots) hleft.2
      s.assignWaitingToSlots.running.values
    simp only [hsettings]
    omega

end Scheduler

/-! ## The step -/

/-- What is left of an engine after `_ensure_cache` has returned. -/
theorem Engine.ensureCache_ok {model : InferenceModel Row Score} {e e₁ : Engine Row}
    (h : (Engine.ensureCache model).run e = .ok () e₁) :
    e₁.scheduler = e.scheduler ∧ ∃ c, e₁.cache = some c := by
  refine ⟨by rw [← Engine.ensureCache_scheduler model e, Exec.after_of_ok h], ?_⟩
  unfold Engine.ensureCache at h
  rw [Exec.run_bind_ok (EStateM.run_get e)] at h
  cases hcache : e.cache with
  | some c =>
    rw [hcache] at h
    cases h
    exact ⟨c, hcache⟩
  | none =>
    rw [hcache] at h
    simp only at h
    obtain ⟨c, e₂, -, hset⟩ := Exec.run_bind_eq_ok h
    cases hset
    exact ⟨c, rfl⟩

namespace Handing

open Exec (Triple)

variable [LinearOrder Score] {model : InferenceModel Row Score} {e : Engine Row}
  {before : List (Ref × List Nat)}

variable (chain model) in
/-- The prefill half of a step. -/
theorem prefillBatch_entered (rs : List Ref) (before : List (Ref × List Nat))
    (hs : ∀ r ∈ rs, (e.scheduler.requests r).prefillOffset
      ≤ (e.scheduler.requests r).numPromptTokens)
    (hun : ∀ r, (e.scheduler.requests r).Unstarted)
    (hchunk : ∀ r ∈ rs, 0 ≤ (e.scheduler.requests r).prefillChunkSize) :
    let limit := (rs.map fun r => Scheduler.prefillChunkTokens (e.scheduler.requests r)).sum
    Triple (fun s => s.state = e ∧ s.handed = before) (prefillBatch chain model rs)
      (fun _ s => Entered before rs limit s.handed)
      fun s => PartlyEntered before rs limit s.handed := by
  intro limit
  have hlimit : 0 ≤ limit := ModelRunner.charged_nonneg hs hchunk
  refine Triple.ite (fun _ => ?_) fun hnil => ?_
  · refine (onRunner_triple hlimit fun c _ => ?_).bind fun _ =>
      (quiet_keeps _).triple.conseq (fun _ h => h) (fun _ _ h => h) fun _ h => h.partly
    have hcut : ∀ t, (forM rs (ModelRunner.prepareSlot chain) : ModelRunner.M Row PUnit).run
        ⟨e.scheduler.requests, c⟩ = .ok ⟨⟩ t →
        ((rs.map fun r => (ModelRunner.chunkTokens (t.requests r)).length).sum : Int)
          ≤ (rs.map fun r => Scheduler.prefillChunkTokens (e.scheduler.requests r)).sum :=
      fun t ht => ModelRunner.slicedLens_sum_le (s := ⟨e.scheduler.requests, c⟩) model ht hs hun
        hchunk
    exact prefill_entered hlimit hcut
  · obtain rfl := not_not.mp hnil
    exact Triple.pure _ fun s hs => hs.2 ▸ Entered.refl _

/-- The decode half of a step. -/
theorem decodeBatch_entered (rs : List Ref) (before : List (Ref × List Nat)) :
    Triple (fun s => s.handed = before) (decodeBatch model rs : M (Engine Row) Unit)
      (fun _ s => Entered before rs rs.length s.handed)
      fun s => PartlyEntered before rs rs.length s.handed := by
  refine Triple.ite (fun _ => ?_) fun hnil => ?_
  · intro s hs
    refine ((onRunner_triple (e := s.state) (Int.natCast_nonneg _) fun c _ => ?_).bind fun _ =>
      (quiet_keeps _).triple.conseq (fun _ h => h) (fun _ _ h => h) fun _ h => h.partly) s ⟨rfl, hs⟩
    exact (decode_entered rs before).conseq (fun _ h => h.2) (fun _ _ h => h) fun _ h => h
  · obtain rfl := not_not.mp hnil
    exact Triple.pure _ fun s hs => hs ▸ Entered.refl _

omit [LinearOrder Score] in
/-- An engine without work picks nothing. -/
theorem schedule_idle {s : Scheduler Nat} (hidle : s.hasWork = false) {result : ScheduleResult}
    (hsched : Scheduler.schedule.run s = .ok result s.assignWaitingToSlots) :
    result.prefillRequests ++ result.decodeRequests = [] := by
  unfold Scheduler.hasWork at hidle
  simp only [List.isEmpty_iff, decide_eq_false_iff_not, not_not] at hidle
  have hvalues : s.assignWaitingToSlots.running.values = [] := by
    unfold Scheduler.assignWaitingToSlots
    rw [hidle.1, List.length_nil, Scheduler.assignRounds, OrderedDict.values, hidle.2]
    rfl
  obtain ⟨result', hrun, hprefill, hdecode⟩ := Scheduler.schedule_run s
  obtain rfl : result = result' := by
    rw [hsched] at hrun
    injection hrun
  rw [hvalues, List.filter_nil, List.sublist_nil] at hprefill hdecode
  rw [hprefill, hdecode, List.append_nil]

variable (chain model) in
/-- **A step** enters the chunks it has charged, then one token for each decode row. -/
theorem step_entered (hlive : Live e.scheduler) (hb : e.Bounded) (hchunk : e.ChunkedFrom 0)
    {result : ScheduleResult}
    (hsched : Scheduler.schedule.run e.scheduler = .ok result e.scheduler.assignWaitingToSlots) :
    let limit := (result.prefillRequests.map fun r =>
      Scheduler.prefillChunkTokens (e.scheduler.requests r)).sum + result.decodeRequests.length
    let rs := result.prefillRequests ++ result.decodeRequests
    Triple (· = ⟨e, []⟩) (step chain model) (fun _ s => Entered [] rs limit s.handed)
      fun s => PartlyEntered [] rs limit s.handed := by
  intro limit rs
  have hlimit : 0 ≤ limit := Int.add_nonneg
    (ModelRunner.charged_nonneg (fun r _ => hb.offset r) fun r _ => hchunk r)
    (Int.natCast_nonneg _)
  have hnone : ∀ s : Handing (Engine Row), s.handed = [] → PartlyEntered [] rs limit s.handed :=
    fun s hs => hs ▸ partlyEntered_refl hlimit
  refine Triple.get_bind ?_
  rintro _ rfl
  refine Triple.ite (fun hidle => ?_) fun _ => ?_
  · refine Triple.pure _ ?_
    rintro _ rfl
    exact ⟨[], rfl, (schedule_idle hidle hsched).symm, hlimit⟩
  refine ((quiet_triple _ e []).conseq (by rintro _ rfl; exact ⟨rfl, rfl⟩) (fun _ _ h => h)
    hnone).bind fun _ => ?_
  rintro ⟨e₁, _⟩ ⟨hensured, rfl⟩
  have hsched₁ : Scheduler.schedule.run e₁.scheduler
      = .ok result e.scheduler.assignWaitingToSlots := by
    rw [(Engine.ensureCache_ok hensured).1, hsched]
  refine ((quiet_triple _ e₁ []).conseq (fun _ h => h) (fun _ _ h => h) hnone).bind
    (fun result' => ?_) ⟨e₁, []⟩ ⟨rfl, rfl⟩
  rintro ⟨e₂, _⟩ ⟨hscheduled, rfl⟩
  rw [Engine.onScheduler_run hsched₁] at hscheduled
  cases hscheduled
  -- the requests are as they were, but for the slots they got
  have hassigned := fun r => hlive.assigned r
  have hcharged : (result.prefillRequests.map fun r =>
      Scheduler.prefillChunkTokens (e.scheduler.assignWaitingToSlots.requests r))
        = result.prefillRequests.map fun r =>
          Scheduler.prefillChunkTokens (e.scheduler.requests r) :=
    List.map_congr_left fun r _ => (hassigned r).prefillChunkTokens
  have hprefill := prefillBatch_entered chain model
    (e := { e₁ with scheduler := e.scheduler.assignWaitingToSlots }) result.prefillRequests []
    (fun r _ => by
      unfold InferenceRequest.numPromptTokens
      rw [(hassigned r).offset, (hassigned r).prompt]
      exact hb.offset r)
    hlive.assignWaitingToSlots.unstarted
    fun r _ => by rw [(hassigned r).chunk]; exact hchunk r
  simp only [hcharged] at hprefill
  refine (hprefill.conseq (fun _ h => h) (fun _ _ h => h) fun _ h => h.mono
    (List.prefix_append _ _) (Int.le_add_of_nonneg_right (Int.natCast_nonneg _))).bind
      (fun _ => ?_) _ ⟨rfl, rfl⟩
  intro s hs
  exact ((decodeBatch_entered result.decodeRequests s.handed).conseq (fun _ h => h)
    (fun _ _ h => hs.append h) fun _ h => hs.append_partly h).bind
      (fun _ => Triple.pure _ fun _ h => h) s rfl

end Handing

namespace Engine

variable [LinearOrder Score] {model : InferenceModel Row Score} {e : Engine Row}

omit [LinearOrder Score] in
theorem new_inOrder {maxConcurrentRequests prefillChunkSize maxTokensPerStep : Int}
    {usePagedKvCache usePrefixCache : Bool}
    (h : new model maxConcurrentRequests prefillChunkSize maxTokensPerStep usePagedKvCache
      usePrefixCache = .ok e) : InOrder [] e.scheduler := by
  obtain ⟨s, hs, he⟩ := Exec.bind_eq_ok h
  cases he
  exact Scheduler.new_inOrder hs

/-- A request is added only while the chunk size is not negative. -/
def AddsChunked (e : Engine Row) : Op → Prop
  | .addRequest _ _ _ => 0 ≤ e.prefillChunkSize
  | _ => True

instance (e : Engine Row) : (op : Op) → Decidable (AddsChunked e op)
  | .addRequest _ _ _ => inferInstanceAs (Decidable (0 ≤ e.prefillChunkSize))
  | .step | .cancelRequest _ _ | .reconfigure _ _ _ _ _ | .registerTokenCallback _
  | .unregisterTokenCallback _ => inferInstanceAs (Decidable True)

/-- **No chunk size becomes negative** in such a run. -/
theorem run_chunkedFrom {ops : List Op} (h : Always (ChunkedFrom 0) e)
    (hchunk : Exec.Along AddsChunked (Engine.next chain model) e ops) :
    Always (ChunkedFrom 0) (ops.foldl (Engine.next chain model) e) := by
  refine Exec.Along.foldl (J := Always (ChunkedFrom 0)) (fun e op h hop => ?_) h hchunk
  refine (othersClosed_chunkedFrom chain model 0).next h op ?_
  rintro requestId promptTokenIds maxNewTokens rfl
  exact h.inv.update rfl hop

variable (chain) in
/-- **The token budget of a step.** In every state that an engine reaches, the real tokens that a
step hands to the model are within `max_tokens_per_step`, whether it returns or raises: the chunks
that are sliced for some requests, then one token for each of the others that decode. The requests
that decode are the first ones of `running`, which stand in admission order if no id is drawn
twice. No request may be added while the chunk size is negative. -/
theorem step_withinBudget (hmodel : model.KeepsPrefixes)
    {maxConcurrentRequests prefillChunkSize maxTokensPerStep : Int}
    {usePagedKvCache usePrefixCache : Bool}
    (hnew : new model maxConcurrentRequests prefillChunkSize maxTokensPerStep usePagedKvCache
      usePrefixCache = .ok e) {ops : List Op}
    (hchunk : Exec.Along AddsChunked (Engine.next chain model) e ops) :
    let e' := ops.foldl (Engine.next chain model) e
    let log := admissions chain model e ops
    let s := Exec.after (Handing.step chain model) ⟨e', []⟩
    ∃ result s', Scheduler.schedule.run e'.scheduler = .ok result s' ∧
      result.decodeRequests = (s'.decoding s'.running.values).take e'.maxTokensPerStep.toNat ∧
      (Exec.Along NewId (Engine.next chain model) e ops →
        s'.decoding s'.running.values = Scheduler.decodes log e'.scheduler) ∧
      (∀ r ∈ result.prefillRequests, r ∉ result.decodeRequests) ∧
      s.state = Engine.next chain model e' .step ∧
      s.handed.map Prod.fst <+: result.prefillRequests ++ result.decodeRequests ∧
      (Exec.Returns (step chain model) e' →
        s.handed.map Prod.fst = result.prefillRequests ++ result.decodeRequests) ∧
      (Handing.tokens s.handed : Int) ≤ e'.maxTokensPerStep := by
  intro e' log s
  have hlive := new_live hnew
  have halways : Always (ChunkedFrom 0) e' :=
    run_chunkedFrom ⟨hlive, new_chunkedFrom (by decide) hnew⟩ hchunk
  have hbounded : Bounded e' := run_bounded hmodel hlive (new_bounded hnew) ops
  obtain ⟨result, hsched, hdecode, hdisjoint, hbudget⟩ := Scheduler.schedule_picks halways.live
  rw [← hbounded.budget] at hdecode hbudget
  have hentered := Handing.step_entered chain model halways.live hbounded halways.inv hsched
    ⟨e', []⟩ rfl
  have hshadow := Handing.step_shadows chain model ⟨e', []⟩
  have hstate : s.state = Engine.next chain model e' .step := Handing.step_state chain model _
  refine ⟨result, _, hsched, hdecode, fun hids => ?_, hdisjoint, hstate, ?_⟩
  · obtain ⟨hi, hlog⟩ := run_inOrder hlive (new_inv hnew) (new_inOrder hnew) hids
    rw [List.nil_append] at hlog
    exact hlog.decodes_eq hi halways.live
  · have hs : s = Exec.stateOf ((Handing.step chain model).run ⟨e', []⟩) := rfl
    cases hrun : (Handing.step chain model).run ⟨e', []⟩ with
    | ok more t =>
      rw [hrun] at hentered hs
      obtain ⟨rows, hrows, hrefs, hle⟩ := hentered
      obtain rfl : t.handed = rows := hrows.trans (List.nil_append rows)
      rw [hs]
      exact ⟨hrefs ▸ List.prefix_rfl, fun _ => hrefs, hle.trans hbudget⟩
    | error err t =>
      rw [hrun] at hentered hshadow hs
      obtain ⟨first, hfirst, rows, hrows, hrefs, hle⟩ := hentered
      obtain rfl : t.handed = rows := hrows.trans (List.nil_append rows)
      rw [hs]
      refine ⟨hrefs ▸ hfirst, ?_, hle.trans hbudget⟩
      rintro ⟨more, e'', hreturn⟩
      exact absurd (hshadow.trans hreturn) (by rintro ⟨⟩)

/-- The second prompt begins with a block of the first one, which is in the prefix cache by then. -/
def secondPrompt : List Op :=
  [.addRequest "a" [1, 2, 3] 2, .step, .addRequest "b" [1, 2, 4] 1]

/-- One request decodes, and the other one is charged three tokens, of which two are restored. -/
theorem secondPrompt_withinBudget :
    ∃ e, new (recallModel ⟨1, 8, 0, 2⟩ sumScores) 2 4 4 true true = .ok e ∧
      let model := recallModel ⟨1, 8, 0, 2⟩ sumScores
      let e' := secondPrompt.foldl (Engine.next PagedKVCache.sumChain model) e
      let s := Exec.after (Handing.step PagedKVCache.sumChain model) ⟨e', []⟩
      s.handed = [(1, [4]), (0, [1])] ∧
      ∃ result s', Scheduler.schedule.run e'.scheduler = .ok result s' ∧
        result.decodeRequests = (s'.decoding s'.running.values).take 4 ∧
        s'.decoding s'.running.values = Scheduler.decodes
          (admissions PagedKVCache.sumChain model e secondPrompt) e'.scheduler ∧
        (∀ r ∈ result.prefillRequests, r ∉ result.decodeRequests) ∧
        s.handed.map Prod.fst = result.prefillRequests ++ result.decodeRequests ∧
        (Handing.tokens s.handed : Int) ≤ 4 := by
  obtain ⟨e, h⟩ : ∃ e, new (recallModel ⟨1, 8, 0, 2⟩ sumScores) 2 4 4 true true = .ok e := ⟨_, rfl⟩
  refine ⟨e, h, ?_⟩
  obtain ⟨hids, hchunk, hmax, hreturn, hrows⟩ : Exec.Along NewId
        (Engine.next PagedKVCache.sumChain (recallModel ⟨1, 8, 0, 2⟩ sumScores)) e secondPrompt ∧
      Exec.Along AddsChunked
        (Engine.next PagedKVCache.sumChain (recallModel ⟨1, 8, 0, 2⟩ sumScores)) e secondPrompt ∧
      (secondPrompt.foldl (Engine.next PagedKVCache.sumChain
        (recallModel ⟨1, 8, 0, 2⟩ sumScores)) e).maxTokensPerStep = 4 ∧
      (Exec.value? (step PagedKVCache.sumChain (recallModel ⟨1, 8, 0, 2⟩ sumScores))
        (secondPrompt.foldl (Engine.next PagedKVCache.sumChain
          (recallModel ⟨1, 8, 0, 2⟩ sumScores)) e)).isSome ∧
      (Exec.after (Handing.step PagedKVCache.sumChain (recallModel ⟨1, 8, 0, 2⟩ sumScores))
        ⟨secondPrompt.foldl (Engine.next PagedKVCache.sumChain
          (recallModel ⟨1, 8, 0, 2⟩ sumScores)) e, []⟩).handed = [(1, [4]), (0, [1])] := by
    cases h
    decide +kernel
  obtain ⟨result, s', hsched, hdecode, horder, hdisjoint, -, -, hall, hsum⟩ :=
    step_withinBudget PagedKVCache.sumChain (recallModel_keepsPrefixes _ _) h hchunk
  rw [hmax] at hdecode hsum
  obtain ⟨more, hmore⟩ := Option.isSome_iff_exists.mp hreturn
  obtain ⟨t, ht⟩ := Exec.exists_of_value? hmore
  exact ⟨hrows, result, s', hsched, hdecode, horder hids, hdisjoint, hall ⟨more, t, ht⟩, hsum⟩

/-- **A chunk size of minus one.** The first step hands over all tokens of the prompt but the last
one, whatever the budget. -/
theorem negativeChunk_overBudget :
    ∃ e, new (recallModel ⟨1, 16, 0, 2⟩ sumScores) 2 (-1) 4 true true = .ok e ∧
      let model := recallModel ⟨1, 16, 0, 2⟩ sumScores
      let e' := Engine.next PagedKVCache.sumChain model e (.addRequest "a" (List.range 10) 2)
      let s := Exec.after (Handing.step PagedKVCache.sumChain model) ⟨e', []⟩
      e'.maxTokensPerStep = 4 ∧ s.state = Engine.next PagedKVCache.sumChain model e' .step ∧
        Handing.tokens s.handed = 9 := by
  obtain ⟨e, h⟩ : ∃ e, new (recallModel ⟨1, 16, 0, 2⟩ sumScores) 2 (-1) 4 true true = .ok e :=
    ⟨_, rfl⟩
  refine ⟨e, h, ?_⟩
  obtain ⟨hmax, htokens⟩ : (Engine.next PagedKVCache.sumChain (recallModel ⟨1, 16, 0, 2⟩ sumScores)
        e (.addRequest "a" (List.range 10) 2)).maxTokensPerStep = 4 ∧
      Handing.tokens (Exec.after (Handing.step PagedKVCache.sumChain
        (recallModel ⟨1, 16, 0, 2⟩ sumScores)) ⟨Engine.next PagedKVCache.sumChain
          (recallModel ⟨1, 16, 0, 2⟩ sumScores) e (.addRequest "a" (List.range 10) 2), []⟩).handed
        = 9 := by
    cases h
    decide +kernel
  exact ⟨hmax, Handing.step_state _ _ _, htokens⟩

end Engine

end Nifre
