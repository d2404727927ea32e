import Nifre.Properties.HfServing
import Nifre.Properties.Progress

/-!
# Every request that fits is served

As long as every request fits in `max_seq_len`, a step returns in every state of a run, and enough
steps complete all requests.

* `Engine.step_returns` — a step raises nothing
* `Engine.exists_idle` — enough steps leave no work
* `Backend.serves` — the backends, for which both hold
-/

namespace Nifre

open Scheduler (Inv Live)

variable {Row Score : Type}

/-! ## What assigning slots leaves -/

namespace Scheduler

variable {s : Scheduler Nat}

/-- The loop ends when nobody waits or no slot is free. -/
theorem assignRounds_exhausts : ∀ (rounds : Nat) (s : Scheduler Nat),
    min s.waiting.length s.freeSlots.length ≤ rounds →
      (assignRounds rounds s).waiting = [] ∨ (assignRounds rounds s).freeSlots = []
  | 0, s, h => by
    rcases Nat.le_zero.mp h |> Nat.min_eq_zero_iff.mp with hw | hf
    · exact Or.inl (List.length_eq_zero_iff.mp hw)
    · exact Or.inr (List.length_eq_zero_iff.mp hf)
  | rounds + 1, s, h => by
    rw [assignRounds]
    split
    · next r waiting b freeSlots hw hf =>
      refine assignRounds_exhausts rounds _ ?_
      rw [assignSlot_eq]
      rw [hw, hf] at h
      simpa using h
    · next hnone =>
      cases hw : s.waiting with
      | nil => exact Or.inl rfl
      | cons r waiting =>
        cases hf : s.freeSlots with
        | nil => exact Or.inr rfl
        | cons b freeSlots => exact absurd hf (hnone r waiting b freeSlots hw)

/-- Assigning slots leaves the requests that have ended. -/
theorem assignWaitingToSlots_ended (s : Scheduler Nat) :
    s.assignWaitingToSlots.completed = s.completed ∧ s.assignWaitingToSlots.failed = s.failed ∧
      s.assignWaitingToSlots.created = s.created :=
  assignRounds_induct (I := fun s' => s'.completed = s.completed ∧ s'.failed = s.failed ∧
    s'.created = s.created) (fun s' r waiting b freeSlots h _ _ => by rw [assignSlot_eq]; exact h) _
    ⟨rfl, rfl, rfl⟩

/-- **If nothing runs once the slots are assigned, there was no work.** -/
theorem Inv.idle (h : Inv s) (hpos : 0 < s.maxConcurrentRequests)
    (hmax : s.assignWaitingToSlots.maxConcurrentRequests = s.maxConcurrentRequests)
    (hrun : s.assignWaitingToSlots.running.values = []) :
    s.waiting = [] ∧ s.running.values = [] := by
  have hinv := h.assignWaitingToSlots
  obtain ⟨hc, hf, hcreated⟩ := assignWaitingToSlots_ended s
  -- all slots are free, so nobody waits any more
  have hfree : s.assignWaitingToSlots.freeSlots ≠ [] := by
    intro hnil
    have hcard := congrArg Multiset.card hinv.slots
    rw [Scheduler.slots, hnil, hrun, hmax] at hcard
    simp at hcard
    omega
  have hwait : s.assignWaitingToSlots.waiting = [] :=
    (assignRounds_exhausts s.waiting.length s (Nat.min_le_left _ _)).resolve_right hfree
  have hended : ∀ r < s.created, r ∈ s.completed.values ∨ r ∈ s.failed.values := by
    intro r hr
    have hm := hinv.created_iff.mp (hcreated ▸ hr)
    rw [hwait, hrun, hc, hf] at hm
    simpa using hm
  constructor
  · refine List.eq_nil_iff_forall_not_mem.mpr fun r hr => ?_
    obtain ⟨-, hnc, hnf⟩ := waiting_notMem h hr
    exact (hended r (h.waiting_lt hr)).elim hnc hnf
  · refine List.eq_nil_iff_forall_not_mem.mpr fun r hr => ?_
    obtain ⟨-, hnc, hnf⟩ := running_notMem h hr
    exact (hended r (h.running_lt hr)).elim hnc hnf

end Scheduler

namespace Engine

variable [LinearOrder Score] {chain : Int → List Nat → Int} {model : InferenceModel Row Score}
  {Holds : KVCacheType Row → (Nat → List Nat) → Prop} {InPlay : List Nat → Prop}
  {Allowed : Bool → Prop} {next : List Nat → Nat} {e e' : Engine Row} {held held' : Nat → List Nat}

/-! ## A step that returns -/

/-- A cache can be made for the allowed values of `use_prefix_cache`. -/
def Makes (model : InferenceModel Row Score) (Allowed : Bool → Prop) : Prop :=
  ∀ usePagedKvCache usePrefixCache n, Allowed usePrefixCache → 0 < n → 0 < model.config.maxSeqLen →
    ∃ c, makeCache model usePagedKvCache usePrefixCache n = .ok c

omit [LinearOrder Score] in
/-- A request that fits leaves room for a token. -/
theorem Coherent.maxSeqLen_pos (h : Coherent model Holds InPlay Allowed next e held []) {r : Ref}
    (hr : r < e.scheduler.created) : 0 < model.config.maxSeqLen := by
  obtain ⟨hprompt, hmax, hfits, -, -⟩ := h.job r hr
  have hlen := List.length_pos_iff.mpr hprompt
  omega

theorem hasWork_eq_false_iff {s : Scheduler Nat} :
    s.hasWork = false ↔ s.waiting = [] ∧ s.running.values = [] := by
  simp [Scheduler.hasWork, OrderedDict.values]

/-- **A step raises nothing** when the requests fit and a cache can be made. -/
theorem step_returns (hserves : Serves chain model Holds InPlay Allowed next)
    (hmakes : Makes model Allowed) (h : Coherent model Holds InPlay Allowed next e held []) :
    ∃ more e' held', (step chain model).run e = .ok more e' ∧
      Coherent model Holds InPlay Allowed next e' held' [] := by
  by_cases hwork : e.scheduler.hasWork = false
  · exact ⟨false, e, held, step_noWork hwork, h⟩
  obtain ⟨r, hr⟩ : ∃ r, r < e.scheduler.created := by
    by_contra hnone
    refine hwork (hasWork_eq_false_iff.mpr ⟨?_, ?_⟩)
    · exact List.eq_nil_iff_forall_not_mem.mpr fun r hr => hnone ⟨r, h.scheduler.waiting_lt hr⟩
    · exact List.eq_nil_iff_forall_not_mem.mpr fun r hr => hnone ⟨r, h.scheduler.running_lt hr⟩
  rcases ensureCache_run hserves h with ⟨err, herr⟩ | ⟨c, held₁, hensure, h₁⟩
  · exfalso
    unfold ensureCache at herr
    rw [Exec.run_bind_ok (EStateM.run_get e)] at herr
    cases hc : e.cache with
    | some c =>
      rw [hc] at herr
      cases herr
    | none =>
      have hpos : 0 < e.maxConcurrentRequests.toNat := by
        rw [h.concurrency, Int.toNat_natCast]
        exact h.positive
      obtain ⟨c, hmake⟩ := hmakes e.usePagedKvCache e.usePrefixCache _ h.allowed hpos
        (h.maxSeqLen_pos hr)
      simp only [hc, hmake] at herr
      cases herr
  · exact step_ensured hserves hwork hensure h₁

/-! ## What a step leaves of the requests -/

/-- What a request asks for stays, and a finished request stays finished. -/
structure SameAsk (q q' : InferenceRequest Nat) : Prop where
  prompt : q'.promptTokenIds = q.promptTokenIds
  maxNewTokens : q'.maxNewTokens = q.maxNewTokens
  chunk : q'.prefillChunkSize = q.prefillChunkSize
  finished : q.state = .finished → q'.state = .finished

theorem SameAsk.trans_same {q q' q'' : InferenceRequest Nat} (h : SameAsk q q')
    (hprompt : q''.promptTokenIds = q'.promptTokenIds) (hmax : q''.maxNewTokens = q'.maxNewTokens)
    (hchunk : q''.prefillChunkSize = q'.prefillChunkSize)
    (hstate : q'.state = .finished → q''.state = .finished) : SameAsk q q'' :=
  ⟨hprompt.trans h.prompt, hmax.trans h.maxNewTokens, hchunk.trans h.chunk,
    fun hs => hstate (h.finished hs)⟩

/-- The budget, the failed requests, and what the requests ask for are those of `e`. -/
def SameAsks (e e' : Engine Row) : Prop :=
  e'.scheduler.maxTokensPerStep = e.scheduler.maxTokensPerStep ∧
    e'.scheduler.failed = e.scheduler.failed ∧
    ∀ r, SameAsk (e.scheduler.requests r) (e'.scheduler.requests r)

omit [LinearOrder Score] in
theorem SameAsks.refl (e : Engine Row) : SameAsks e e :=
  ⟨rfl, rfl, fun _ => ⟨rfl, rfl, rfl, id⟩⟩

omit [LinearOrder Score] in
/-- One request object changed, in what it does not ask for. -/
theorem SameAsks.update (h : SameAsks e e') {s : Scheduler Nat} {r : Ref} {q : InferenceRequest Nat}
    (hbudget : s.maxTokensPerStep = e'.scheduler.maxTokensPerStep)
    (hfailed : s.failed = e'.scheduler.failed)
    (hreq : s.requests = Function.update e'.scheduler.requests r q)
    (hprompt : q.promptTokenIds = (e'.scheduler.requests r).promptTokenIds)
    (hmax : q.maxNewTokens = (e'.scheduler.requests r).maxNewTokens)
    (hchunk : q.prefillChunkSize = (e'.scheduler.requests r).prefillChunkSize)
    (hstate : (e'.scheduler.requests r).state = .finished → q.state = .finished) :
    SameAsks e { e' with scheduler := s } := by
  refine ⟨hbudget.trans h.1, hfailed.trans h.2.1, fun r' => ?_⟩
  show SameAsk _ (s.requests r')
  rw [hreq]
  by_cases he : r' = r
  · subst he
    rw [Function.update_self]
    exact (h.2.2 r').trans_same hprompt hmax hchunk hstate
  · rw [Function.update_of_ne he]
    exact h.2.2 r'

omit [LinearOrder Score] in
theorem stepClosed_sameAsks (model : InferenceModel Row Score) (e : Engine Row) :
    StepClosed model (fun _ _ => True) (SameAsks e) where
  made := fun _ _ h _ _ => h
  cache := fun _ _ _ h _ _ => h
  forward := fun _ _ _ h hf => ⟨h.1, h.2.1, fun r => (h.2.2 r).trans_same (hf r).prompt
    (hf r).maxNewTokens (hf r).chunk fun hs => (hf r).state.trans hs⟩
  assign := by
    intro e' r waiting b freeSlots hl h hw _
    have hwait := (hl.waiting r (by rw [hw]; exact List.mem_cons_self)).2
    rw [Scheduler.assignSlot_eq]
    exact h.update rfl rfl rfl rfl rfl rfl fun hs => nomatch hwait.symm.trans hs
  startDecode := fun _ _ _ h _ hs _ =>
    h.update rfl rfl rfl rfl rfl rfl fun hf => nomatch hs.symm.trans hf
  handle := by
    intro e' r tokenId _ h _ hd
    have ho := Scheduler.markDecodeDone_outcome e'.scheduler r tokenId
    have hstate : ∀ {q : InferenceRequest Nat},
        (e'.scheduler.requests r).state = .finished → q.state = .finished :=
      fun hs => absurd (hd.symm.trans hs) (by decide)
    unfold handled
    generalize (Scheduler.markDecodeDone r tokenId).run e'.scheduler = result at ho
    cases ho with
    | rejected _ hne => exact absurd hd hne
    | more => exact h.update rfl rfl rfl rfl rfl rfl hstate
    | last => exact h.update rfl rfl rfl rfl rfl rfl hstate
    | gone => exact h.update rfl rfl rfl rfl rfl rfl hstate

theorem step_sameAsks (h : Live e.scheduler) {more : Bool}
    (hrun : (step chain model).run e = .ok more e') :
    SameAsks e e' ∧ e'.scheduler.created = e.scheduler.created := by
  have hduring := (stepClosed_sameAsks model e).step (cacheSteps_any chain model) e
    ⟨h, SameAsks.refl e, rfl⟩
  rw [Exec.after_of_ok hrun] at hduring
  exact ⟨hduring.inv, hduring.created⟩

/-! ## The tokens that remain -/

/-- The tokens that a request has still to process or to generate. -/
def remaining (q : InferenceRequest Nat) : Nat :=
  if q.state = .finished then 0
  else q.promptTokenIds.length + q.maxNewTokens.toNat - q.processed

/-- The tokens that remain for all requests. -/
def allRemaining (e : Engine Row) : Nat :=
  ∑ r ∈ Finset.range e.scheduler.created, remaining (e.scheduler.requests r)

omit [LinearOrder Score] in
/-- A request that is not finished has something left to do. -/
theorem Coherent.processed_lt (h : Coherent model Holds InPlay Allowed next e held []) {r : Ref}
    (hr : r < e.scheduler.created) (hs : (e.scheduler.requests r).state ≠ .finished) :
    (e.scheduler.requests r).processed
      < (e.scheduler.requests r).promptTokenIds.length
        + (e.scheduler.requests r).maxNewTokens.toNat := by
  have hjob := h.job r hr
  have hlen := List.length_pos_iff.mpr hjob.prompt
  have hmax := hjob.maxNewTokens
  unfold InferenceRequest.processed InferenceRequest.numGenerated
  rcases h.scheduler.created_iff.mp hr with hm | hm | hm | hm
  · rw [(h.waiting r hm).2, (h.scheduler.waiting r hm).output, List.length_nil]
    omega
  · have hrun := h.scheduler.running r hm
    obtain ⟨b, hb⟩ := Option.ne_none_iff_exists'.mp hrun.batchIdx
    cases h.running r hm List.not_mem_nil b hb with
    | fresh hf =>
      rw [hf.offset, hf.output, List.length_nil]
      omega
    | filling hf =>
      have hoffset := hf.offset
      rw [hf.output, List.length_nil]
      omega
    | decoding hd =>
      have hmore : ((e.scheduler.requests r).numGenerated : Int)
          < (e.scheduler.requests r).maxNewTokens := by
        rcases hrun.state with ⟨hp, -⟩ | ⟨-, hnil | hlt⟩
        · exact absurd (hp.symm.trans hd.state) (by decide)
        · exact absurd hnil hd.output
        · exact hlt
      unfold InferenceRequest.numGenerated at hmore
      rw [hd.offset]
      omega
  · exact absurd (h.scheduler.completed r hm).1.state hs
  · exact absurd (h.scheduler.failed r hm).state hs

/-- What remains of a request that came no less far. -/
theorem remaining_le {q q' : InferenceRequest Nat} (h : SameAsk q q')
    (hle : q.processed ≤ q'.processed) : remaining q' ≤ remaining q := by
  unfold remaining
  by_cases hs' : q'.state = .finished
  · rw [if_pos hs']
    exact Nat.zero_le _
  · have hs : q.state ≠ .finished := fun hs => hs' (h.finished hs)
    rw [if_neg hs', if_neg hs, h.prompt, h.maxNewTokens]
    omega

/-- What remains of a request that came further. -/
theorem remaining_lt {q q' : InferenceRequest Nat} (h : SameAsk q q') (hs : q.state ≠ .finished)
    (hlt : q.processed < q.promptTokenIds.length + q.maxNewTokens.toNat)
    (hmore : q.processed < q'.processed) : remaining q' < remaining q := by
  unfold remaining
  rw [if_neg hs, h.prompt, h.maxNewTokens]
  split <;> omega

/-- **A step that serves a request lowers what remains.** -/
theorem allRemaining_lt (h : Coherent model Holds InPlay Allowed next e held [])
    (halways : Always Chunked e) (hs : e.scheduler.Servable) {more : Bool}
    (hrun : (step chain model).run e = .ok more e') : allRemaining e' < allRemaining e := by
  obtain ⟨⟨-, -, hasks⟩, hcreated⟩ := step_sameAsks halways.live hrun
  obtain ⟨r₀, hr₀, hprogress⟩ := step_progress_running halways hs hrun
  obtain ⟨hall, hmore⟩ := atLeast_bump.mp hprogress
  obtain ⟨hc, hf, hcreated₀⟩ := Scheduler.assignWaitingToSlots_ended e.scheduler
  have hlt₀ : r₀ < e.scheduler.created :=
    hcreated₀ ▸ h.scheduler.assignWaitingToSlots.running_lt hr₀
  have hlive₀ : (e.scheduler.requests r₀).state ≠ .finished := by
    intro hfin
    obtain ⟨-, hnc, hnf⟩ := Scheduler.running_notMem h.scheduler.assignWaitingToSlots hr₀
    rw [hc] at hnc
    rw [hf] at hnf
    exact (h.scheduler.mem_ended hlt₀ hfin).elim hnc hnf
  unfold allRemaining
  rw [hcreated]
  refine Finset.sum_lt_sum (fun r _ => remaining_le (hasks r) (hall r).2)
    ⟨r₀, Finset.mem_range.mpr hlt₀, ?_⟩
  exact remaining_lt (hasks r₀) hlive₀ (h.processed_lt hlt₀ hlive₀) hmore

/-! ## Enough steps -/

/-- The first chunk of every request is within the budget of a step. -/
def ChunksFit (e : Engine Row) : Prop :=
  ∀ r < e.scheduler.created, min (e.scheduler.requests r).prefillChunkSize
    (e.scheduler.requests r).numPromptTokens ≤ e.scheduler.maxTokensPerStep

instance (e : Engine Row) : Decidable (ChunksFit e) := inferInstanceAs (Decidable (∀ _ < _, _))

omit [LinearOrder Score] in
/-- **A state where nothing can be served has no work**, if the chunks fit. -/
theorem Coherent.idle (h : Coherent model Holds InPlay Allowed next e held [])
    (hfit : ChunksFit e) (hs : ¬e.scheduler.Servable) :
    e.scheduler.waiting = [] ∧ e.scheduler.running.values = [] := by
  refine h.scheduler.idle h.positive ?_ ?_
  · exact Scheduler.assignRounds_induct
      (I := fun s => s.maxConcurrentRequests = e.scheduler.maxConcurrentRequests)
      (fun s r waiting b freeSlots hi _ _ => by rw [Scheduler.assignSlot_eq]; exact hi) _ rfl
  · refine List.eq_nil_iff_forall_not_mem.mpr fun r hr => hs ?_
    have hlt := (Scheduler.assignWaitingToSlots_ended e.scheduler).2.2 ▸
      h.scheduler.assignWaitingToSlots.running_lt hr
    rw [Scheduler.assignWaitingToSlots_running] at hr
    refine ⟨r, hr, Or.inr ((min_le_min_left _ ?_).trans (hfit r hlt))⟩
    omega

/-- **Enough steps leave no work.** -/
theorem exists_idle (hserves : Serves chain model Holds InPlay Allowed next)
    (hmakes : Makes model Allowed) (h : Coherent model Holds InPlay Allowed next e held [])
    (halways : Always Chunked e) (hfit : ChunksFit e) :
    ∃ n, let e' := (List.replicate n Op.step).foldl (Engine.next chain model) e
      (∃ held', Coherent model Holds InPlay Allowed next e' held' []) ∧ SameAsks e e' ∧
        e'.scheduler.created = e.scheduler.created ∧
        e'.scheduler.waiting = [] ∧ e'.scheduler.running.values = [] := by
  set J : Engine Row → Prop := fun e' =>
    (∃ held', Coherent model Holds InPlay Allowed next e' held' []) ∧ Always Chunked e' ∧
      SameAsks e e' ∧ e'.scheduler.created = e.scheduler.created with hJ
  have hstep : ∀ e', J e' → (e'.scheduler.waiting = [] ∧ e'.scheduler.running.values = []) ∨
      (J (Engine.next chain model e' .step) ∧
        allRemaining (Engine.next chain model e' .step) < allRemaining e') := by
    rintro e' ⟨⟨held', h'⟩, halways', hasks, hcreated⟩
    by_cases hs : e'.scheduler.Servable
    · obtain ⟨more, e'', held'', hrun, h''⟩ := step_returns hserves hmakes h'
      have hnext : Engine.next chain model e' .step = e'' := by
        rw [Engine.next, call, Exec.after_dropped, Exec.after_of_ok hrun]
      have halways'' := (callClosed_chunked chain model).next halways' .step
      obtain ⟨⟨hbudget, hfailed, hsame⟩, hcreated'⟩ := step_sameAsks halways'.live hrun
      rw [hnext] at halways'' ⊢
      refine Or.inr ⟨⟨⟨held'', h''⟩, halways'', ⟨hbudget.trans hasks.1, hfailed.trans hasks.2.1,
        fun r => ?_⟩, hcreated'.trans hcreated⟩, allRemaining_lt h' halways' hs hrun⟩
      exact (hasks.2.2 r).trans_same (hsame r).prompt (hsame r).maxNewTokens (hsame r).chunk
        (hsame r).finished
    · refine Or.inl (h'.idle (fun r hr => ?_) hs)
      have hask := hasks.2.2 r
      unfold InferenceRequest.numPromptTokens
      rw [hask.chunk, hask.prompt, hasks.1]
      exact hfit r (hcreated ▸ hr)
  obtain ⟨n, ⟨hco, -, hasks, hcreated⟩, hidle⟩ :=
    Exec.exists_replicate_of_measure allRemaining hstep
      (⟨⟨held, h⟩, halways, SameAsks.refl e, rfl⟩ : J e)
  exact ⟨n, hco, hasks, hcreated, hidle⟩

end Engine

/-! ## Backends -/

variable [LinearOrder Score] [Inhabited Row]

/-- The models that are served with prefix caching off: one with a dense or paged cache, whose
blocks have a positive size, or a causal Hugging Face model. -/
inductive Backend (logits : List Nat → List Score) : InferenceModel Row Score → Prop
  | rowLocal {model : InferenceModel Row Score}
    {Encodes : Nat → List Nat → List (Row × Row) → Prop} :
    RowLocal model Encodes logits → model.makeKvCache = none → 0 < model.config.blockSize →
    Backend logits model
  | hf {lm : HfCausalLM Row Score} {row : Nat → List Nat → Row × Row} {vocabSize : Nat} :
    lm.Causal row logits vocabSize → Backend logits lm.inferenceModel

variable {logits : List Nat → List Score} {model : InferenceModel Row Score}
  {chain : Int → List Nat → Int}

omit [LinearOrder Score] in
theorem Backend.vocabulary (h : Backend logits model) (tokens : List Nat) : logits tokens ≠ [] := by
  cases h with
  | rowLocal hmodel => exact hmodel.vocabulary tokens
  | hf hcausal => exact hcausal.vocabulary_ne_nil tokens

omit [LinearOrder Score] [Inhabited Row] in
/-- A dense or paged cache can be made with blocks of a positive size. -/
theorem exists_makeCache (hmake : model.makeKvCache = none) (hbs : 0 < model.config.blockSize)
    (usePagedKvCache : Bool) {n : Nat} (hn : 0 < n) (hmax : 0 < model.config.maxSeqLen) :
    ∃ c, Engine.makeCache model usePagedKvCache false n = .ok c := by
  unfold Engine.makeCache
  rw [hmake]
  cases usePagedKvCache with
  | false => exact ⟨_, rfl⟩
  | true =>
    have hblocks : ¬((PagedKVCache.blocksPerSlot model.config.maxSeqLen model.config.blockSize * n
        : Nat) : Int) ≤ 0 := by
      have hpos : 0 < PagedKVCache.blocksPerSlot model.config.maxSeqLen model.config.blockSize :=
        Nat.not_le.mp fun hle => Nat.not_le.mpr hmax
          (by simpa using (BlockTable.blocksNeeded_le_iff hbs).mp hle)
      have := Nat.mul_pos hpos hn
      omega
    simp only [if_true]
    unfold PagedKVCache.initBatch BlockAllocator.new
    simp only [if_neg (Nat.ne_of_gt hbs), if_neg hblocks]
    exact ⟨_, rfl⟩

/-- **The engine serves every backend**, and can make its cache. -/
theorem Backend.serves (h : Backend logits model) (chain : Int → List Nat → Int) : ∃ Holds InPlay,
    Serves chain model Holds InPlay (· = false) (nextToken logits) ∧ (∀ prompt, InPlay prompt) ∧
      Engine.Makes model (· = false) := by
  cases h with
  | @rowLocal _ Encodes hmodel hmake hbs =>
    refine ⟨_, _, hmodel.serves hmake, fun _ => trivial, ?_⟩
    rintro usePaged usePrefix n rfl hn hmax
    exact exists_makeCache hmake hbs usePaged hn hmax
  | @hf lm row vocabSize hcausal =>
    have hallowed : (fun v : Bool => v = true → False) = (· = false) := by
      funext v
      cases v <;> simp
    have hserves : Serves chain lm.inferenceModel (lm.Holds row chain ∅ False)
        (fun prompt => False → Digest.fullBlocks lm.config.blockSize prompt ∈ (∅ : Set _))
        (fun v => v = true → False) (nextToken logits) :=
      hcausal.serves False.elim False.elim False.elim
    rw [hallowed] at hserves
    refine ⟨_, _, hserves, fun _ => False.elim, ?_⟩
    rintro usePaged usePrefix n - hn hmax
    exact ⟨_, rfl⟩

end Nifre
