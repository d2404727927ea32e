import Nifre.Properties.EngineFrame
import Nifre.Properties.ContinuousBatching

/-!
# Progress of a step

A chunk that does not fit in the budget of a step is deferred, so a step may pick nothing at all.

* `Scheduler.Servable` — some admitted request decodes, or has a next chunk within the budget
* `Scheduler.schedule_selects` — exactly then the scheduler picks a request
* `Engine.step_progress`, `Engine.step_idle` — a step forwards a token exactly then
-/

namespace Nifre

variable {Row Score : Type}

/-! ## What the scheduler picks -/

/-- The pick is not empty. -/
def ScheduleResult.Selects (result : ScheduleResult) : Prop :=
  result.prefillRequests ≠ [] ∨ result.decodeRequests ≠ []

instance (result : ScheduleResult) : Decidable result.Selects :=
  inferInstanceAs (Decidable (_ ∨ _))

namespace Scheduler

/-- The running requests, once the free slots are given to waiting ones in their order. -/
def admitted (s : Scheduler Nat) : OrderedDict String Ref :=
  (s.waiting.take s.freeSlots.length).foldl (fun d r => d.insert (s.requests r).requestId r)
    s.running

/-- An admitted request decodes, or has a next chunk within the budget of a step. -/
def Servable (s : Scheduler Nat) : Prop :=
  ∃ r ∈ s.admitted.values, (s.requests r).state = .decode ∨
    prefillChunkTokens (s.requests r) ≤ s.maxTokensPerStep

instance (s : Scheduler Nat) : Decidable (Servable s) :=
  inferInstanceAs (Decidable (∃ r ∈ s.admitted.values, _))

variable {s : Scheduler Nat}

theorem assignRounds_running : ∀ (rounds : Nat) (s : Scheduler Nat),
    (assignRounds rounds s).running = (s.waiting.take (min rounds s.freeSlots.length)).foldl
      (fun d r => d.insert (s.requests r).requestId r) s.running
  | 0, s => by simp [assignRounds]
  | rounds + 1, s => by
    rw [assignRounds]
    split
    · next r waiting b freeSlots hw hf =>
      have hids : ∀ r', ((s.assignSlot r waiting b freeSlots).requests r').requestId
          = (s.requests r').requestId := by
        intro r'
        rw [assignSlot_eq]
        by_cases he : r' = r
        · subst he
          simp
        · simp [he]
      rw [assignRounds_running rounds, hw, hf]
      simp only [hids, List.length_cons, Nat.succ_min_succ, List.take_succ_cons, List.foldl_cons]
      rw [assignSlot_eq]
    · next hnone =>
      cases hw : s.waiting with
      | nil => simp
      | cons r waiting =>
        cases hf : s.freeSlots with
        | nil => rfl
        | cons b freeSlots => exact absurd hf (hnone r waiting b freeSlots hw)

theorem assignWaitingToSlots_running (s : Scheduler Nat) :
    s.assignWaitingToSlots.running = s.admitted := by
  rw [assignWaitingToSlots, assignRounds_running, admitted]
  congr 1
  rw [List.take_eq_take_iff]
  omega

/-- What the assignment leaves of a request. -/
structure Assigned (q q' : InferenceRequest Nat) : Prop extends SameProgress q q' where
  output : q'.outputTokenIds = q.outputTokenIds
  decode : q'.state = .decode ↔ q.state = .decode

theorem Live.assigned (h : Live s) (r : Ref) :
    Assigned (s.requests r) (s.assignWaitingToSlots.requests r) := by
  set I : Scheduler Nat → Prop := fun s' => Live s' ∧ Assigned (s.requests r) (s'.requests r)
  have hstep : I s.assignWaitingToSlots := by
    refine assignRounds_induct (I := I) (fun s' r' waiting b freeSlots hs hw _ => ?_) _
      ⟨h, ⟨⟨rfl, rfl, rfl, rfl, rfl⟩, rfl, Iff.rfl⟩⟩
    refine ⟨hs.1.assignSlot hw, ?_⟩
    rw [assignSlot_eq]
    by_cases he : r = r'
    · subst he
      have hwait := (hs.1.waiting r (by rw [hw]; exact List.mem_cons_self)).2
      have hq := hs.2
      simp only [Function.update_self]
      refine ⟨⟨hq.requestId, hq.prompt, hq.chunk, hq.prepared, hq.offset⟩, hq.output, ?_⟩
      rw [← hq.decode, hwait]
      exact iff_of_false nofun nofun
    · simp only [Function.update_of_ne he]
      exact hs.2
  exact hstep.2

theorem Assigned.prefillChunkTokens {q q' : InferenceRequest Nat} (h : Assigned q q') :
    prefillChunkTokens q' = prefillChunkTokens q := by
  unfold Scheduler.prefillChunkTokens InferenceRequest.numPromptTokens
  rw [h.chunk, h.prompt, h.offset]

theorem assignWaitingToSlots_budget (s : Scheduler Nat) :
    s.assignWaitingToSlots.maxTokensPerStep = s.maxTokensPerStep :=
  assignRounds_induct (I := fun s' => s'.maxTokensPerStep = s.maxTokensPerStep)
    (fun s' r waiting b freeSlots hs _ _ => by rw [assignSlot_eq]; exact hs) _ rfl

/-- Decodes go first, and take one token of the budget each. -/
theorem pickDecode_eq_nil_iff {budget : Int} (hb : 1 ≤ budget) : ∀ {l : List Ref},
    (pickDecode s l budget).1 = [] ↔ ∀ r ∈ l, (s.requests r).state ≠ .decode
  | [] => by simp [pickDecode]
  | r :: l => by
    rw [pickDecode]
    by_cases hs : (s.requests r).state = .decode
    · rw [if_neg (not_not.mpr hs), if_neg (by omega)]
      simp [hs]
    · rw [if_pos hs, pickDecode_eq_nil_iff hb]
      simp [hs]

theorem pickDecode_budget {budget : Int} : ∀ {l : List Ref},
    (∀ r ∈ l, (s.requests r).state ≠ .decode) → (pickDecode s l budget).2 = budget
  | [], _ => rfl
  | r :: l, h => by
    rw [pickDecode, if_pos (h r List.mem_cons_self)]
    exact pickDecode_budget fun r' hr' => h r' (List.mem_cons_of_mem r hr')

/-- A chunk that does not fit is skipped, and the budget stays for the next one. -/
theorem pickPrefill_eq_nil_iff {budget : Int} : ∀ {l : List Ref}, pickPrefill s l budget = [] ↔
    ∀ r ∈ l, (s.requests r).state = .prefill → budget < prefillChunkTokens (s.requests r)
  | [] => by simp [pickPrefill]
  | r :: l => by
    rw [pickPrefill]
    by_cases hs : (s.requests r).state = .prefill
    · rw [if_neg (not_not.mpr hs)]
      simp only
      by_cases hfit : budget < prefillChunkTokens (s.requests r)
      · rw [if_pos hfit, pickPrefill_eq_nil_iff]
        simp [hfit]
      · rw [if_neg hfit]
        simp [hs, hfit]
    · rw [if_pos hs, pickPrefill_eq_nil_iff]
      simp [hs]

/-- **The scheduler picks a request** exactly if some admitted request can be served. -/
theorem schedule_selects (h : Live s) : ∃ result,
    schedule.run s = .ok result s.assignWaitingToSlots ∧
      (result.Selects ↔ Servable s) := by
  refine ⟨_, rfl, ?_⟩
  set s' := s.assignWaitingToSlots with hs'
  have hlive : Live s' := h.assignWaitingToSlots
  have hbudget : s'.maxTokensPerStep = s.maxTokensPerStep := assignWaitingToSlots_budget s
  have hservable : Servable s ↔ ∃ r ∈ s'.running.values, (s'.requests r).state = .decode ∨
      prefillChunkTokens (s'.requests r) ≤ s'.maxTokensPerStep := by
    unfold Servable
    rw [← assignWaitingToSlots_running, hbudget]
    refine exists_congr fun r => and_congr_right fun _ => ?_
    rw [(h.assigned r).decode, (h.assigned r).prefillChunkTokens]
  rw [hservable]
  unfold ScheduleResult.Selects
  simp only
  by_cases hdec : ∃ r ∈ s'.running.values, (s'.requests r).state = .decode
  · obtain ⟨r, hr, hd⟩ := hdec
    refine iff_of_true (Or.inr fun hnil => ?_) ⟨r, hr, Or.inl hd⟩
    exact (pickDecode_eq_nil_iff hlive.budget).mp hnil r hr hd
  · -- nothing decodes, so the whole budget is left for the chunks
    have hnone : ∀ r ∈ s'.running.values, (s'.requests r).state ≠ .decode :=
      fun r hr hd => hdec ⟨r, hr, hd⟩
    have hprefill : ∀ r ∈ s'.running.values, (s'.requests r).state = .prefill :=
      fun r hr => (hlive.running r hr).2.resolve_right (hnone r hr)
    rw [(pickDecode_eq_nil_iff hlive.budget).mpr hnone, pickDecode_budget hnone, Ne,
      pickPrefill_eq_nil_iff]
    constructor
    · rintro (hp | hd)
      · by_contra hnone
        exact hp fun r hr _ => Int.not_le.mp fun hfit => hnone ⟨r, hr, Or.inr hfit⟩
      · exact absurd rfl hd
    · rintro ⟨r, hr, hd | hfit⟩
      · exact absurd hd (hnone r hr)
      · exact Or.inl fun hall => absurd (hall r hr (hprefill r hr)) (by omega)

end Scheduler

/-! ## How far a request has come -/

/-- The prompt tokens that are processed, and the tokens that were generated. -/
def InferenceRequest.processed (q : InferenceRequest Nat) : Nat := q.prefillOffset + q.numGenerated

namespace Engine

open Scheduler (Live)

/-- Every request has a chunk size, and has come at least as far as `base` says. -/
def AtLeast (base : Ref → Nat) (e : Engine Row) : Prop :=
  ∀ r, 1 ≤ (e.scheduler.requests r).prefillChunkSize ∧ base r ≤ (e.scheduler.requests r).processed

/-- One more token for one request. -/
def bump (base : Ref → Nat) (r : Ref) : Ref → Nat := Function.update base r (base r + 1)

theorem atLeast_bump {base : Ref → Nat} {r : Ref} {e : Engine Row} :
    AtLeast (bump base r) e ↔ AtLeast base e ∧ base r < (e.scheduler.requests r).processed := by
  unfold bump
  constructor
  · intro h
    have hr := (h r).2
    rw [Function.update_self] at hr
    refine ⟨fun r' => ⟨(h r').1, ?_⟩, hr⟩
    by_cases he : r' = r
    · subst he
      exact Nat.le_of_succ_le hr
    · have := (h r').2
      rwa [Function.update_of_ne he] at this
  · rintro ⟨h, hr⟩ r'
    refine ⟨(h r').1, ?_⟩
    by_cases he : r' = r
    · subst he
      rw [Function.update_self]
      exact hr
    · rw [Function.update_of_ne he]
      exact (h r').2

variable {chain : Int → List Nat → Int} {model : InferenceModel Row Score} {base : Ref → Nat}
  {k : Nat} {e : Engine Row}

/-- A request changes, and does not fall behind. -/
theorem AtLeast.update (h : AtLeast base e) {r : Ref} {q : InferenceRequest Nat}
    {s : Scheduler Nat} (hreq : s.requests = Function.update e.scheduler.requests r q)
    (hchunk : q.prefillChunkSize = (e.scheduler.requests r).prefillChunkSize)
    (hq : (e.scheduler.requests r).processed ≤ q.processed) :
    AtLeast base { e with scheduler := s } := by
  intro r'
  obtain ⟨hpos, hbase⟩ := h r'
  simp only [hreq]
  by_cases he : r' = r
  · subst he
    rw [Function.update_self, hchunk]
    exact ⟨hpos, hbase.trans hq⟩
  · rw [Function.update_of_ne he]
    exact ⟨hpos, hbase⟩

theorem Forwarded.processed {q q' : InferenceRequest Nat} (h : Forwarded q q') (hu : q.Unstarted) :
    q.processed ≤ q'.processed := by
  have := h.offset hu
  unfold InferenceRequest.processed InferenceRequest.numGenerated
  rw [h.output]
  omega

theorem processed_congr {q q' : InferenceRequest Nat} (hoffset : q'.prefillOffset = q.prefillOffset)
    (houtput : q'.outputTokenIds = q.outputTokenIds) : q'.processed = q.processed := by
  unfold InferenceRequest.processed InferenceRequest.numGenerated
  rw [hoffset, houtput]

theorem processed_push {q q' : InferenceRequest Nat} {tokenId : Nat}
    (hoffset : q'.prefillOffset = q.prefillOffset)
    (houtput : q'.outputTokenIds = q.outputTokenIds ++ [tokenId]) :
    q'.processed = q.processed + 1 := by
  unfold InferenceRequest.processed InferenceRequest.numGenerated
  rw [hoffset, houtput, List.length_append, List.length_singleton, Nat.add_assoc]

/-- The request object that `mark_decode_done` leaves when it returns. -/
theorem markDecodeDone_requests {s s' : Scheduler Nat} {r : Ref} {tokenId : Nat}
    (ho : Scheduler.DecodeOutcome s r tokenId (.ok () s')) : ∃ q,
    s'.requests = Function.update s.requests r q ∧
      q.prefillChunkSize = (s.requests r).prefillChunkSize ∧
      q.processed = (s.requests r).processed + 1 := by
  cases ho with
  | more => exact ⟨_, rfl, rfl, processed_push rfl rfl⟩
  | last => exact ⟨_, rfl, rfl, processed_push rfl rfl⟩

/-- No step takes a token back. -/
theorem stepClosed_atLeast (model : InferenceModel Row Score) (base : Ref → Nat) :
    StepClosed model (fun _ _ => True) (AtLeast base) where
  made := fun _ _ h _ _ => h
  cache := fun _ _ _ h _ _ => h
  forward := fun _ _ hl h hf r => ⟨by simp only [(hf r).chunk]; exact (h r).1,
    (h r).2.trans (Forwarded.processed (hf r) (hl.unstarted r))⟩
  assign := by
    intro e r waiting b freeSlots _ h _ _
    rw [Scheduler.assignSlot_eq]
    exact h.update rfl rfl (Nat.le_of_eq (processed_congr rfl rfl).symm)
  startDecode := fun _ _ _ h _ _ _ => h.update rfl rfl (Nat.le_refl _)
  handle := by
    intro e r tokenId _ h _ hd
    have ho := Scheduler.markDecodeDone_outcome e.scheduler r tokenId
    unfold handled
    cases hrun : (Scheduler.markDecodeDone r tokenId).run e.scheduler with
    | ok u s =>
      rw [hrun] at ho
      obtain ⟨q, hreq, hchunk, hq⟩ := markDecodeDone_requests ho
      exact h.update (s := s) hreq hchunk (by omega)
    | error err s =>
      rw [hrun] at ho
      cases ho with
      | rejected _ hne => exact absurd hd hne
      | gone =>
        refine h.update rfl rfl ?_
        simp [InferenceRequest.processed, InferenceRequest.numGenerated, Scheduler.pushToken]

/-! ## Chunk sizes -/

/-- No request has a smaller chunk size than `n`. -/
def ChunkedFrom (n : Int) (e : Engine Row) : Prop :=
  ∀ r, n ≤ (e.scheduler.requests r).prefillChunkSize

/-- The engine's chunk size is positive, and so are those of the requests. -/
def Chunked (e : Engine Row) : Prop := 1 ≤ e.prefillChunkSize ∧ ChunkedFrom 1 e

/-- A new engine's requests have the default chunk size. -/
theorem new_chunkedFrom {maxConcurrentRequests prefillChunkSize maxTokensPerStep : Int}
    {usePagedKvCache usePrefixCache : Bool} {n : Int} (hn : n ≤ 128)
    (h : new model maxConcurrentRequests prefillChunkSize maxTokensPerStep usePagedKvCache
      usePrefixCache = .ok e) : ChunkedFrom n e := by
  obtain ⟨s, hs, he⟩ := Exec.bind_eq_ok h
  cases he
  intro r
  unfold Scheduler.new at hs
  split at hs
  · cases hs
  · split at hs
    · cases hs
    · cases hs
      exact hn

theorem new_chunked {maxConcurrentRequests prefillChunkSize maxTokensPerStep : Int}
    {usePagedKvCache usePrefixCache : Bool} (hchunk : 1 ≤ prefillChunkSize)
    (h : new model maxConcurrentRequests prefillChunkSize maxTokensPerStep usePagedKvCache
      usePrefixCache = .ok e) : Chunked e := by
  refine ⟨?_, new_chunkedFrom (by decide) h⟩
  obtain ⟨s, -, he⟩ := Exec.bind_eq_ok h
  cases he
  exact hchunk

/-- One request changes, and its chunk size is large enough after it. -/
theorem ChunkedFrom.update {n : Int} (h : ChunkedFrom n e) {r : Ref} {q : InferenceRequest Nat}
    {s : Scheduler Nat} (hreq : s.requests = Function.update e.scheduler.requests r q)
    (hq : n ≤ q.prefillChunkSize) : ChunkedFrom n { e with scheduler := s } := by
  intro r'
  simp only [hreq]
  by_cases he : r' = r
  · subst he
    rw [Function.update_self]
    exact hq
  · rw [Function.update_of_ne he]
    exact h r'

theorem stepClosed_chunkedFrom (model : InferenceModel Row Score) (n : Int) :
    StepClosed model (fun _ _ => True) (ChunkedFrom n) where
  made := fun _ _ h _ _ => h
  cache := fun _ _ _ h _ _ => h
  forward := fun _ _ _ h hf r => by simp only [(hf r).chunk]; exact h r
  assign := by
    intro e r waiting b freeSlots _ h _ _
    rw [Scheduler.assignSlot_eq]
    exact h.update rfl (h r)
  startDecode := fun _ r _ h _ _ _ => h.update rfl (h r)
  handle := by
    intro e r tokenId _ h _ _
    have ho := Scheduler.markDecodeDone_outcome e.scheduler r tokenId
    unfold handled
    cases hrun : (Scheduler.markDecodeDone r tokenId).run e.scheduler with
    | ok u s =>
      rw [hrun] at ho
      obtain ⟨q, hreq, hq, -⟩ := markDecodeDone_requests ho
      exact h.update (s := s) hreq (hq ▸ h r)
    | error err s =>
      rw [hrun] at ho
      cases ho with
      | rejected => exact h
      | gone => exact h.update rfl (h r)

/-- **No call changes the chunk size of a request** that was added before. -/
theorem othersClosed_chunkedFrom (chain : Int → List Nat → Int) (model : InferenceModel Row Score)
    (n : Int) : OthersClosed chain model (ChunkedFrom n) where
  step := ⟨_, stepClosed_chunkedFrom model n, cacheSteps_any chain model⟩
  cancel := by
    intro e requestId status _ h
    have ho := Scheduler.cancelRequest_outcome e.scheduler requestId status
    unfold Exec.after
    cases hrun : (Scheduler.cancelRequest requestId status).run e.scheduler with
    | ok r s =>
      rw [hrun] at ho
      cases ho with
      | waiting r => exact h.update rfl (h r)
      | running r => exact h.update rfl (h r)
    | error err s =>
      rw [hrun] at ho
      cases ho
      exact h
  resize := fun e s h hs r => by simp only [hs.requests]; exact h r
  settings := fun e e' h hs _ _ r => by rw [hs]; exact h r

theorem stepClosed_chunked (model : InferenceModel Row Score) :
    StepClosed model (fun _ _ => True) Chunked where
  made := fun _ _ h _ _ => h
  cache := fun _ _ _ h _ _ => h
  forward := fun e requests hl h hf =>
    ⟨h.1, (stepClosed_chunkedFrom model 1).forward e requests hl h.2 hf⟩
  assign := fun e r waiting b freeSlots hl h hw hb =>
    ⟨h.1, (stepClosed_chunkedFrom model 1).assign e r waiting b freeSlots hl h.2 hw hb⟩
  startDecode := fun e r hl h hr hs hc =>
    ⟨h.1, (stepClosed_chunkedFrom model 1).startDecode e r hl h.2 hr hs hc⟩
  handle := fun e r tokenId hl h hr hd =>
    ⟨by unfold handled; split <;> exact h.1,
      (stepClosed_chunkedFrom model 1).handle e r tokenId hl h.2 hr hd⟩

/-- **Every call keeps the chunk sizes positive.** -/
theorem callClosed_chunked (chain : Int → List Nat → Int) (model : InferenceModel Row Score) :
    CallClosed chain model Chunked where
  step := ⟨_, stepClosed_chunked model, cacheSteps_any chain model⟩
  add := fun _ _ _ _ _ h => ⟨h.1, h.2.update rfl h.1⟩
  cancel := fun e requestId status hl h =>
    ⟨h.1, (othersClosed_chunkedFrom chain model 1).cancel e requestId status hl h.2⟩
  resize := fun e s h hs => ⟨h.1, (othersClosed_chunkedFrom chain model 1).resize e s h.2 hs⟩
  settings := fun e e' h hs hc hchunk =>
    ⟨hchunk h.1, (othersClosed_chunkedFrom chain model 1).settings e e' h.2 hs hc hchunk⟩

/-! ## A step that picks a request -/

/-- All that `_ensure_cache` touches is the cache. -/
theorem ensureCache_after (model : InferenceModel Row Score) (e : Engine Row) :
    ∃ cache, Exec.after (ensureCache model) e = { e with cache := cache } := by
  have hkeeps : Exec.Keeps (fun e' => ∃ cache, e' = { e with cache := cache })
      (ensureCache model) := by
    refine Exec.Keeps.get_bind fun e' he' => ?_
    cases hc : e'.cache with
    | some c => exact he'
    | none =>
      obtain ⟨cache, rfl⟩ := he'
      simp only
      cases makeCache model e.usePagedKvCache e.usePrefixCache e.maxConcurrentRequests.toNat with
      | ok c => exact ⟨some c, rfl⟩
      | error err => exact ⟨cache, rfl⟩
  exact hkeeps e ⟨e.cache, rfl⟩

/-- A sampled token counts, if it is accepted. -/
theorem markDecodeDone_progress (r : Ref) (tokenId : Nat) :
    Exec.Triple (During (AtLeast base) k)
      (onScheduler (Scheduler.markDecodeDone r tokenId) : M Row Unit)
      (fun _ => During (AtLeast (bump base r)) k) fun _ => True := by
  intro e he
  have ho := Scheduler.markDecodeDone_outcome e.scheduler r tokenId
  obtain ⟨hlive, hcreated⟩ := he.live.decodeOutcome ho
  cases hrun : (Scheduler.markDecodeDone r tokenId).run e.scheduler with
  | error err s => rw [onScheduler_error hrun]; trivial
  | ok u s =>
    rw [onScheduler_run hrun]
    rw [hrun] at ho hlive hcreated
    obtain ⟨q, hreq, hchunk, hq⟩ := markDecodeDone_requests ho
    have hr := (he.inv r).2
    refine ⟨hlive, atLeast_bump.mpr ⟨he.inv.update (s := s) hreq hchunk (by omega), ?_⟩,
      hcreated.trans he.created⟩
    show base r < (s.requests r).processed
    rw [hreq, Function.update_self]
    omega

/-- What comes after an accepted token takes nothing back. -/
theorem acceptToken_progress (hK : CacheSteps chain model fun _ _ => True) (requestId : String)
    (r : Ref) (tokenId : Nat) (batchIdx : Option Nat) : Exec.Triple (During (AtLeast base) k) (do
        onScheduler (Scheduler.markDecodeDone r tokenId)
        emitToken requestId tokenId
        releaseCacheSlot batchIdx r : M Row Unit)
      (fun _ => During (AtLeast (bump base r)) k) fun _ => True := by
  refine (markDecodeDone_progress r tokenId).bind fun _ => ?_
  have hemit : Exec.Keeps (During (AtLeast (bump base r)) k)
      (emitToken requestId tokenId : M Row Unit) := by
    intro e he
    rw [Exec.after_of_ok (emitToken_eq requestId tokenId e)]
    exact ⟨he.live, he.inv, he.created⟩
  have hrelease := releaseCacheSlot_during (stepClosed_atLeast model (bump base r)) hK (k := k)
    batchIdx r
  exact (hemit.bind fun _ => hrelease).triple.conseq (fun _ h => h) (fun _ _ h => h)
    fun _ _ => trivial

theorem finishDecode_progress (hK : CacheSteps chain model fun _ _ => True) (r : Ref)
    (tokenId : Nat) :
    Exec.Triple (During (AtLeast base) k) (finishDecode r tokenId : M Row Unit)
      (fun _ => During (AtLeast (bump base r)) k) fun _ => True :=
  .get_bind fun _ he => (acceptToken_progress hK _ r tokenId _).conseq (fun _ h => h ▸ he)
    (fun _ _ h => h) fun _ h => h

theorem finishPrefill_progress (hK : CacheSteps chain model fun _ _ => True) {r : Ref} (hr : r < k)
    (tokenId : Nat) :
    Exec.Triple (During (AtLeast base) k) (finishPrefill chain r (some tokenId) : M Row Unit)
      (fun _ => During (AtLeast (bump base r)) k) fun _ => True := by
  have hI := stepClosed_atLeast model base
  refine Exec.Triple.bind ((registerComplete_during hI hK r).triple.conseq
    (fun _ h => h) (fun _ _ h => h) fun _ _ => trivial) fun _ => .get_bind fun e he => ?_
  refine Exec.Triple.bind (R := fun _ => During (AtLeast base) k) (fun e' he' => ?_) fun _ =>
    acceptToken_progress hK _ r tokenId _
  subst he'
  by_cases hs : (e'.scheduler.requests r).state = .prefill ∧
      (e'.scheduler.requests r).prefillComplete = true
  · rw [onScheduler_run (Scheduler.markPrefillDone_run hs.1 hs.2)]
    have hw := he.live.notMem_waiting (r := r) (by simp [hs.1])
    exact ⟨he.live.update ⟨rfl, rfl, rfl, rfl, rfl⟩ hw fun _ => Or.inr rfl,
      hI.startDecode e' r he.live he.inv (he.created ▸ hr) hs.1 hs.2, he.created⟩
  · obtain ⟨err, herr⟩ := Scheduler.markPrefillDone_error hs
    rw [onScheduler_error herr]
    trivial

/-- What a forward pass established of the requests and the cache holds in the engine. -/
theorem onRunner_triple {α : Type} {P : Engine Row → Prop} {m : ModelRunner.M Row α}
    {Q : α → Engine Row → Prop} (h : ∀ e c, P e → e.cache = some c →
      Exec.Triple (· = ⟨e.scheduler.requests, c⟩) m (fun a s => Q a (withRunner s e))
        fun _ => True) : Exec.Triple P (onRunner m) Q fun _ => True := by
  refine .get_bind fun e he => ?_
  cases hc : e.cache with
  | none => exact .throw _ fun _ _ => trivial
  | some c =>
    refine .within fun e' he' => ?_
    subst he'
    exact h e' c he hc

variable [LinearOrder Score]

theorem exists_mem_zip {α β : Type} {l : List α} {l' : List β} (h : l'.length = l.length) {a : α}
    (ha : a ∈ l) : ∃ b, (a, b) ∈ l.zip l' := by
  have hfst : (l.zip l').map Prod.fst = l := List.map_fst_zip h.ge
  rw [← hfst] at ha
  obtain ⟨p, hp, rfl⟩ := List.mem_map.mp ha
  exact ⟨p.2, hp⟩

/-- **A prefill** lets every request of its batch come further. -/
theorem runPrefill_progress {r : Ref} {rs : List Ref} (hmem : r ∈ rs) (hr : ∀ r' ∈ rs, r' < k) :
    Exec.Triple (During (AtLeast base) k) (runPrefill chain model rs)
      (fun _ => During (AtLeast (bump base r)) k) fun _ => True := by
  have hI := stepClosed_atLeast model base
  have hJ := stepClosed_atLeast model (bump base r)
  have hK := cacheSteps_any chain model
  refine Exec.Triple.bind (R := fun tokens e => During (AtLeast base) k e ∧
    ∃ token, (r, token) ∈ rs.zip tokens ∧ (token = none → During (AtLeast (bump base r)) k e))
    (onRunner_triple fun e c he hc => ?_) fun tokens => ?_
  · refine (ModelRunner.prefill_forwards hK he.live.unstarted (c := c)).conseq
      (fun s hs => hs ▸ ModelRunner.forwards_refl hK ⟨_, c⟩)
      (fun tokens s ⟨hf, hlen, hcame⟩ => ?_) fun _ _ => trivial
    have hd : During (AtLeast base) k (withRunner s e) :=
      ⟨he.live.forward hf.forwarded, hI.forward e _ he.live he.inv hf.forwarded, he.created⟩
    obtain ⟨token, htoken⟩ := exists_mem_zip hlen hmem
    refine ⟨hd, token, htoken, fun hnone => ⟨hd.live, atLeast_bump.mpr ⟨hd.inv, ?_⟩, hd.created⟩⟩
    rcases (hcame (r, token) htoken (he.inv r).1).1 with hlt | hsome
    · have hout := (hf.forwarded r).output
      have := (he.inv r).2
      show base r < (s.requests r).processed
      unfold InferenceRequest.processed InferenceRequest.numGenerated at *
      rw [hout]
      simp only at hlt
      omega
    · rw [hnone] at hsome
      cases hsome
  · rintro e ⟨he, token, htoken, hnone⟩
    have hkeep : ∀ {base : Ref → Nat}, ∀ p ∈ rs.zip tokens,
        Exec.Keeps (During (AtLeast base) k) (finishPrefill chain p.1 p.2) := fun p hp =>
      finishPrefill_during (stepClosed_atLeast model _) hK (hr p.1 (List.of_mem_zip hp).1) p.2
    cases token with
    | none =>
      exact (Exec.Keeps.forM _ hkeep).triple.conseq (fun _ h => h) (fun _ _ h => h)
        (fun _ _ => trivial) e (hnone rfl)
    | some tokenId =>
      exact Exec.Triple.forM_mem hkeep hkeep htoken
        (finishPrefill_progress hK (hr r hmem) tokenId) e he

/-- **A decode** gives every request of its batch a token. -/
theorem runDecode_progress {r : Ref} {rs : List Ref} (hmem : r ∈ rs) (hr : ∀ r' ∈ rs, r' < k) :
    Exec.Triple (During (AtLeast base) k) (runDecode model rs)
      (fun _ => During (AtLeast (bump base r)) k) fun _ => True := by
  have hI := stepClosed_atLeast model base
  have hK := cacheSteps_any (fun _ _ => 0) model
  refine Exec.Triple.bind (R := fun tokens e => During (AtLeast base) k e ∧
    ∃ token, (r, token) ∈ rs.zip tokens) (onRunner_triple fun e c he hc => ?_) fun tokens => ?_
  · refine (ModelRunner.decode_forwards hK (c := c)).conseq
      (fun s hs => hs ▸ ModelRunner.forwards_refl hK ⟨_, c⟩)
      (fun tokens s ⟨hf, hlen⟩ => ⟨⟨he.live.forward hf.forwarded,
        hI.forward e _ he.live he.inv hf.forwarded, he.created⟩, exists_mem_zip hlen hmem⟩)
      fun _ _ => trivial
  · rintro e ⟨he, token, htoken⟩
    have hkeep : ∀ {base : Ref → Nat}, ∀ p ∈ rs.zip tokens,
        Exec.Keeps (During (AtLeast base) k) (finishDecode p.1 p.2) := fun p hp =>
      finishDecode_during (stepClosed_atLeast model _) hK (hr p.1 (List.of_mem_zip hp).1) p.2
    exact Exec.Triple.forM_mem hkeep hkeep htoken (finishDecode_progress hK r token) e he

/-- **The parts of a step that returned**, where there was work. -/
theorem step_eq_ok {e' : Engine Row} {more : Bool} (hwork : ¬e.scheduler.hasWork = false)
    (hrun : (step chain model).run e = .ok more e') : ∃ cache result e₁,
      more = true ∧
      Scheduler.schedule.run e.scheduler = .ok result e.scheduler.assignWaitingToSlots ∧
      (prefillBatch chain model result.prefillRequests).run
        { e with cache := cache, scheduler := e.scheduler.assignWaitingToSlots } = .ok () e₁ ∧
      (decodeBatch model result.decodeRequests).run e₁ = .ok () e' := by
  unfold step at hrun
  rw [Exec.run_bind_ok (EStateM.run_get e), if_neg hwork] at hrun
  obtain ⟨_, e₀, hensure, hrun⟩ := Exec.run_bind_eq_ok hrun
  obtain ⟨cache, hcache⟩ := ensureCache_after model e
  rw [Exec.after_of_ok hensure] at hcache
  subst hcache
  obtain ⟨result, hsched, -⟩ := Scheduler.schedule_run e.scheduler
  rw [Exec.run_bind_ok (onScheduler_run (e := { e with cache := cache }) hsched)] at hrun
  obtain ⟨_, e₁, hprefill, hrun⟩ := Exec.run_bind_eq_ok hrun
  obtain ⟨_, e₂, hdecode, hrun⟩ := Exec.run_bind_eq_ok hrun
  cases hrun
  exact ⟨cache, result, e₁, rfl, hsched, hprefill, hdecode⟩

/-- The requests that the scheduler picks are running by then. -/
theorem picked_running {s s' : Scheduler Nat} {result : ScheduleResult}
    (h : Scheduler.schedule.run s = .ok result s') :
    (∀ r ∈ result.prefillRequests, r ∈ s.assignWaitingToSlots.running.values ∧
      (s.assignWaitingToSlots.requests r).state = .prefill) ∧
    ∀ r ∈ result.decodeRequests, r ∈ s.assignWaitingToSlots.running.values ∧
      (s.assignWaitingToSlots.requests r).state = .decode := by
  obtain ⟨result', hsched, hprefill, hdecode⟩ := Scheduler.schedule_run s
  cases h.symm.trans hsched
  refine ⟨fun r hr => ?_, fun r hr => ?_⟩
  · simpa using hprefill.subset hr
  · simpa using hdecode.subset hr

/-- **A step that returns** lets every request that was picked come further, and takes no token
back. -/
theorem step_serves (h : Always Chunked e) (hwork : ¬e.scheduler.hasWork = false)
    {e' : Engine Row} {more : Bool} (hrun : (step chain model).run e = .ok more e') :
    ∃ result, Scheduler.schedule.run e.scheduler = .ok result e.scheduler.assignWaitingToSlots ∧
      ∀ r, r ∈ result.prefillRequests ∨ r ∈ result.decodeRequests →
        r ∈ e.scheduler.assignWaitingToSlots.running.values ∧
          AtLeast (bump (fun r => (e.scheduler.requests r).processed) r) e' := by
  set base : Ref → Nat := fun r => (e.scheduler.requests r).processed with hbase
  have hK := cacheSteps_any chain model
  obtain ⟨cache, result, e₁, -, hsched, hfirst, hsecond⟩ := step_eq_ok hwork hrun
  have h₀ : During (AtLeast base) e.scheduler.created { e with
      cache := cache, scheduler := e.scheduler.assignWaitingToSlots } :=
    schedule_during (e := { e with cache := cache }) (stepClosed_atLeast model base)
      ⟨h.live, fun r => ⟨h.inv.2 r, Nat.le_refl _⟩, rfl⟩
  obtain ⟨hprefill, hdecode⟩ := picked_running hsched
  have hlt : ∀ r ∈ e.scheduler.assignWaitingToSlots.running.values, r < e.scheduler.created :=
    fun r hr => h₀.created ▸ (h₀.live.running r hr).1
  have hprefill' : ∀ r ∈ result.prefillRequests, r < e.scheduler.created :=
    fun r hr => hlt r (hprefill r hr).1
  have hdecode' : ∀ r ∈ result.decodeRequests, r < e.scheduler.created :=
    fun r hr => hlt r (hdecode r hr).1
  refine ⟨result, hsched, fun r hr => ?_⟩
  unfold prefillBatch at hfirst
  unfold decodeBatch at hsecond
  have hsecond' : ∀ {base : Ref → Nat}, During (AtLeast base) e.scheduler.created e₁ →
      During (AtLeast base) e.scheduler.created e' := fun {base} h₁ =>
    (Exec.Keeps.ite (fun _ => runDecode_during (stepClosed_atLeast model base) hK hdecode')
      fun _ => Exec.Keeps.pure ()).triple.of_ok h₁ hsecond
  rcases hr with hr | hr
  · refine ⟨(hprefill r hr).1, ?_⟩
    rw [if_pos (List.ne_nil_of_mem hr)] at hfirst
    exact (hsecond' ((runPrefill_progress hr hprefill').of_ok h₀ hfirst)).inv
  · refine ⟨(hdecode r hr).1, ?_⟩
    have h₁ := (Exec.Keeps.ite (fun _ => runPrefill_during (stepClosed_atLeast model base) hK
      hprefill') fun _ => Exec.Keeps.pure ()).triple.of_ok h₀ hfirst
    rw [if_pos (List.ne_nil_of_mem hr)] at hsecond
    exact ((runDecode_progress hr hdecode').of_ok h₁ hsecond).inv

theorem hasWork_of_servable (hs : e.scheduler.Servable) : ¬e.scheduler.hasWork = false := by
  obtain ⟨r, hr, -⟩ := hs
  intro hnone
  obtain ⟨hw, hrunning⟩ : e.scheduler.waiting = [] ∧ e.scheduler.running.entries = [] := by
    simpa [Scheduler.hasWork] using hnone
  rw [Scheduler.admitted, hw, List.take_nil, List.foldl_nil, OrderedDict.values, hrunning] at hr
  cases hr

/-- **A step that returns from a servable state** lets some request that runs by then come further,
and takes no token back. -/
theorem step_progress_running (h : Always Chunked e) (hs : e.scheduler.Servable) {e' : Engine Row}
    {more : Bool} (hrun : (step chain model).run e = .ok more e') :
    ∃ r ∈ e.scheduler.assignWaitingToSlots.running.values,
      AtLeast (bump (fun r => (e.scheduler.requests r).processed) r) e' := by
  obtain ⟨result, hsched, hserved⟩ := step_serves h (hasWork_of_servable hs) hrun
  obtain ⟨result', hsched', hselects⟩ := Scheduler.schedule_selects h.live
  cases hsched.symm.trans hsched'
  rcases hselects.mpr hs with hne | hne
  · obtain ⟨r, hr⟩ := List.exists_mem_of_ne_nil _ hne
    exact ⟨r, hserved r (Or.inl hr)⟩
  · obtain ⟨r, hr⟩ := List.exists_mem_of_ne_nil _ hne
    exact ⟨r, hserved r (Or.inr hr)⟩

theorem step_progress (h : Always Chunked e) (hs : e.scheduler.Servable) {e' : Engine Row}
    {more : Bool} (hrun : (step chain model).run e = .ok more e') :
    ∃ r, AtLeast (bump (fun r => (e.scheduler.requests r).processed) r) e' := by
  obtain ⟨r, -, hr⟩ := step_progress_running h hs hrun
  exact ⟨r, hr⟩

/-- **A step from a state where nothing can be served** only gives out the free slots. -/
theorem step_idle (h : Live e.scheduler) (hs : ¬e.scheduler.Servable) {e' : Engine Row}
    (hrun : (step chain model).run e = .ok true e') :
    e'.scheduler = e.scheduler.assignWaitingToSlots ∧ e'.emitted = e.emitted := by
  unfold step at hrun
  rw [Exec.run_bind_ok (EStateM.run_get e)] at hrun
  by_cases hwork : e.scheduler.hasWork = false
  · rw [if_pos hwork] at hrun
    cases hrun
  rw [if_neg hwork] at hrun
  obtain ⟨u, e₁, hensure, hrun⟩ := Exec.run_bind_eq_ok hrun
  obtain ⟨cache, hcache⟩ := ensureCache_after model e
  rw [Exec.after_of_ok hensure] at hcache
  subst hcache
  obtain ⟨result, hsched, hselects⟩ := Scheduler.schedule_selects h
  rw [Exec.run_bind_ok (onScheduler_run (e := { e with cache := cache }) hsched)] at hrun
  have hnone := mt hselects.mp hs
  rw [ScheduleResult.Selects, not_or, not_not, not_not] at hnone
  rw [hnone.1, hnone.2] at hrun
  cases hrun
  exact ⟨rfl, rfl⟩

/-- **Where a step makes progress**: in every state of a run the scheduler picks a request exactly
if one can be served, and a step that returns `True` lets a request come further exactly then. -/
theorem schedule_progress {maxConcurrentRequests prefillChunkSize maxTokensPerStep : Int}
    {usePagedKvCache usePrefixCache : Bool} {e : Engine Row} (hchunk : 1 ≤ prefillChunkSize)
    (hnew : new model maxConcurrentRequests prefillChunkSize maxTokensPerStep usePagedKvCache
      usePrefixCache = .ok e) (ops : List Op) :
    let e' := ops.foldl (Engine.next chain model) e
    (∃ result s, Scheduler.schedule.run e'.scheduler = .ok result s ∧
      (result.Selects ↔ e'.scheduler.Servable)) ∧
    ∀ e'', (step chain model).run e' = .ok true e'' →
      (e'.scheduler.Servable ↔
        ∃ r, (e'.scheduler.requests r).processed < (e''.scheduler.requests r).processed) ∧
      ∀ r, (e'.scheduler.requests r).processed ≤ (e''.scheduler.requests r).processed := by
  intro e'
  have halways : Always Chunked e' := (callClosed_chunked chain model).run
    ⟨new_live hnew, new_chunked hchunk hnew⟩ ops
  obtain ⟨result, hsched, hselects⟩ := Scheduler.schedule_selects halways.live
  refine ⟨⟨result, _, hsched, hselects⟩, fun e'' hrun => ?_⟩
  by_cases hs : e'.scheduler.Servable
  · obtain ⟨r, hr⟩ := step_progress halways hs hrun
    obtain ⟨hall, hlt⟩ := atLeast_bump.mp hr
    exact ⟨iff_of_true hs ⟨r, hlt⟩, fun r => (hall r).2⟩
  · have hsame : ∀ r, (e''.scheduler.requests r).processed
        = (e'.scheduler.requests r).processed := by
      intro r
      rw [(step_idle halways.live hs hrun).1]
      exact processed_congr (halways.live.assigned r).offset (halways.live.assigned r).output
    refine ⟨iff_of_false hs ?_, fun r => Nat.le_of_eq (hsame r).symm⟩
    rintro ⟨r, hlt⟩
    exact absurd (hsame r) (Nat.ne_of_gt hlt)

/-- A chunk of four tokens, and then a budget of two. -/
def deferredChunk : List Op :=
  [.addRequest "a" [1, 2, 3, 4] 1, .reconfigure none (some 2) none none none]

/-- **The chunk is deferred at every step**: there is work, and nothing is picked. -/
theorem deferredChunk_stuck :
    ∃ e, new (recallModel ⟨1, 8, 0, 2⟩ sumScores) 1 4 8 true true = .ok e ∧
      let e' := deferredChunk.foldl
        (Engine.next (fun _ _ => 0) (recallModel ⟨1, 8, 0, 2⟩ sumScores)) e
      let e'' := Exec.after (step (fun _ _ => 0) (recallModel ⟨1, 8, 0, 2⟩ sumScores)) e'
      e'.scheduler.hasWork = true ∧
      Exec.value? Scheduler.schedule e'.scheduler = some ⟨[], []⟩ ∧
      Exec.value? (step (fun _ _ => 0) (recallModel ⟨1, 8, 0, 2⟩ sumScores)) e' = some true ∧
      (e''.scheduler.requests 0).processed = (e'.scheduler.requests 0).processed ∧
      e''.scheduler.hasWork = true ∧
      Exec.value? Scheduler.schedule e''.scheduler = some ⟨[], []⟩ := by
  refine ⟨_, rfl, ?_⟩
  decide +kernel

/-- With the budget back at four the chunk is picked, and the prompt is processed. -/
theorem deferredChunk_progress :
    ∃ e, new (recallModel ⟨1, 8, 0, 2⟩ sumScores) 1 4 8 true true = .ok e ∧
      let ops := deferredChunk ++ [.reconfigure none (some 4) none none none]
      let e' := ops.foldl (Engine.next (fun _ _ => 0) (recallModel ⟨1, 8, 0, 2⟩ sumScores)) e
      ∃ e'', (step (fun _ _ => 0) (recallModel ⟨1, 8, 0, 2⟩ sumScores)).run e' = .ok true e'' ∧
        ∃ r, (e'.scheduler.requests r).processed < (e''.scheduler.requests r).processed := by
  obtain ⟨e, h⟩ : ∃ e, new (recallModel ⟨1, 8, 0, 2⟩ sumScores) 1 4 8 true true = .ok e := ⟨_, rfl⟩
  refine ⟨e, h, ?_⟩
  intro ops e'
  have hserved : Exec.value? (step (fun _ _ => 0) (recallModel ⟨1, 8, 0, 2⟩ sumScores)) e'
      = some true ∧ e'.scheduler.Servable := by
    cases h
    decide +kernel
  obtain ⟨e'', hrun⟩ := Exec.exists_of_value? hserved.1
  exact ⟨e'', hrun, ((schedule_progress (by decide) h ops).2 e'' hrun).1.mp hserved.2⟩

end Engine

end Nifre
