import Nifre.Properties.AllServed
import Nifre.Properties.Offsets
import Mathlib.Algebra.Order.Floor.Div

/-!
# How many steps are left

A request needs one step for each chunk that is left of its prompt, the last of which generates the
first token, and one step for each further token. A step that finds work lowers the sum of these by
one at least.

* `Engine.step_chunkDone` — a chunk that is picked is processed as a whole
* `Engine.allStepsLeft_lt` — the sum is lowered
* `Engine.runUntilDone_run` — so the loop ends
-/

namespace Nifre

variable {Row Score : Type}

namespace Engine

open Scheduler (Live)

variable {chain : Int → List Nat → Int} {model : InferenceModel Row Score} {e e' : Engine Row}

/-! ## What holds of every single request -/

/-- A property of a request that no piece of a step breaks. -/
structure RequestClosed (P : Ref → InferenceRequest Nat → Prop) : Prop where
  forward : ∀ {r q q'}, P r q → Forwarded q q' → q.Unstarted → P r q'
  assign : ∀ {r q} (b : Nat), P r q → q.state = .waiting →
    P r { q with batchIdx := some b, state := .prefill }
  startDecode : ∀ {r q}, P r q → q.prefillComplete = true → P r { q with state := .decode }
  push : ∀ {r q} (tokenId : Nat), P r q → q.state = .decode → P r (Scheduler.pushToken q tokenId)
  finish : ∀ {r q} (tokenId : Nat) (b : Option Nat), P r q → q.state = .decode →
    P r { Scheduler.pushToken q tokenId with state := .finished, batchIdx := b }

/-- What a step keeps of every request. -/
theorem RequestClosed.stepClosed {P : Ref → InferenceRequest Nat → Prop} (hP : RequestClosed P)
    (model : InferenceModel Row Score) :
    StepClosed model (fun _ _ => True) fun e => ∀ r, P r (e.scheduler.requests r) := by
  have hupdate : ∀ {requests requests' : Ref → InferenceRequest Nat} {r : Ref}
      {q : InferenceRequest Nat}, (∀ r, P r (requests r)) →
      requests' = Function.update requests r q → P r q → ∀ r, P r (requests' r) := by
    rintro requests requests' r q h rfl hq r'
    by_cases he : r' = r
    · subst he
      rwa [Function.update_self]
    · rw [Function.update_of_ne he]
      exact h r'
  refine ⟨fun _ _ h _ _ => h, fun _ _ _ h _ _ => h, fun e requests hl h hf r => ?_, ?_, ?_, ?_⟩
  · exact hP.forward (h r) (hf r) (hl.unstarted r)
  · intro e r waiting b freeSlots hl h hw _
    rw [Scheduler.assignSlot_eq]
    exact hupdate h rfl (hP.assign b (h r) (hl.waiting r (by rw [hw]; exact List.mem_cons_self)).2)
  · exact fun e r _ h _ _ hc => hupdate h rfl (hP.startDecode (h r) hc)
  · intro e r tokenId _ h _ hd
    have ho := Scheduler.markDecodeDone_outcome e.scheduler r tokenId
    unfold handled
    generalize (Scheduler.markDecodeDone r tokenId).run e.scheduler = result at ho
    cases ho with
    | rejected _ hne => exact absurd hd hne
    | more => exact hupdate h rfl (hP.push tokenId (h r) hd)
    | last => exact hupdate h rfl (hP.finish tokenId none (h r) hd)
    | gone => exact hupdate h rfl (hP.finish tokenId (e.scheduler.requests r).batchIdx (h r) hd)

variable [LinearOrder Score]

theorem RequestClosed.step {P : Ref → InferenceRequest Nat → Prop} (hP : RequestClosed P)
    (hl : Live e.scheduler) (h : ∀ r, P r (e.scheduler.requests r)) {more : Bool}
    (hrun : (step chain model).run e = .ok more e') : ∀ r, P r (e'.scheduler.requests r) := by
  have hduring := (hP.stepClosed model).step (cacheSteps_any chain model) e ⟨hl, h, rfl⟩
  rw [Exec.after_of_ok hrun] at hduring
  exact hduring.inv

omit [LinearOrder Score] in
/-- No token of the prompt is processed twice. -/
theorem requestClosed_offset (base : Ref → Nat) :
    RequestClosed fun r q => base r ≤ q.prefillOffset where
  forward := fun h hf hu => h.trans (hf.offset hu)
  assign := fun _ h _ => h
  startDecode := fun h _ => h
  push := fun _ h _ => h
  finish := fun _ _ h _ => h

omit [LinearOrder Score] in
/-- No generated token is taken back. -/
theorem requestClosed_generated (base : Ref → Nat) :
    RequestClosed fun r q => base r ≤ q.numGenerated where
  forward := fun h hf _ => by
    unfold InferenceRequest.numGenerated at h ⊢
    rwa [hf.output]
  assign := fun _ h _ => h
  startDecode := fun h _ => h
  push := fun _ h _ => h.trans (by simp [InferenceRequest.numGenerated, Scheduler.pushToken])
  finish := fun _ _ h _ => h.trans (by simp [InferenceRequest.numGenerated, Scheduler.pushToken])

omit [LinearOrder Score] in
theorem requestClosed_id (id : Ref → String) : RequestClosed fun r q => q.requestId = id r where
  forward := fun h hf _ => hf.requestId.trans h
  assign := fun _ h _ => h
  startDecode := fun h _ => h
  push := fun _ h _ => h
  finish := fun _ _ h _ => h

/-- A request that generates has its whole prompt processed. -/
def PromptFirst (q : InferenceRequest Nat) : Prop :=
  q.state = .decode ∨ q.state = .finished → q.promptTokenIds.length ≤ q.prefillOffset

omit [LinearOrder Score] in
theorem requestClosed_promptFirst : RequestClosed fun _ => PromptFirst where
  forward := fun h hf hu hs => by
    rw [hf.state] at hs
    rw [hf.prompt]
    exact (h hs).trans (hf.offset hu)
  assign := fun _ _ _ hs => by simp at hs
  startDecode := fun _ hc _ => InferenceRequest.prefillComplete_iff.mp hc
  push := fun _ h hd _ => h (Or.inl hd)
  finish := fun _ _ h hd _ => h (Or.inl hd)

/-! ## A chunk -/

/-- **A prefill processes a whole chunk** of every request of its batch. -/
theorem runPrefill_chunkDone {r : Ref} {rs : List Ref} {k : Nat} (hl : Live e.scheduler)
    (hcreated : e.scheduler.created = k) (hchunk : 1 ≤ (e.scheduler.requests r).prefillChunkSize)
    (hmem : r ∈ rs) (hr : ∀ r' ∈ rs, r' < k) :
    Exec.Triple (· = e) (runPrefill chain model rs)
      (fun _ => During (fun e' => ∀ r', r' = r → ModelRunner.ChunkDone (e.scheduler.requests r)
        (e'.scheduler.requests r')) k) fun _ => True := by
  have hP : RequestClosed fun r' q => r' = r → ModelRunner.ChunkDone (e.scheduler.requests r) q :=
    { forward := fun h hf hu he => (h he).trans (hf.offset hu)
      assign := fun _ h _ => h
      startDecode := fun h _ => h
      push := fun _ h _ => h
      finish := fun _ _ h _ => h }
  have hK := cacheSteps_any chain model
  refine Exec.Triple.bind (onRunner_triple fun e₁ c he₁ hc => ?_) fun tokens =>
    (Exec.Keeps.forM _ fun p hp => finishPrefill_during (hP.stepClosed model) hK
      (hr p.1 (List.of_mem_zip hp).1) p.2).triple.conseq (fun _ h => h) (fun _ _ h => h)
      fun _ _ => trivial
  subst he₁
  refine (ModelRunner.prefill_forwards hK hl.unstarted (c := c)).conseq
    (fun s hs => hs ▸ ModelRunner.forwards_refl hK ⟨_, c⟩)
    (fun tokens s ⟨hf, hlen, hcame⟩ => ?_) fun _ _ => trivial
  obtain ⟨token, htoken⟩ := exists_mem_zip hlen hmem
  refine ⟨hl.forward hf.forwarded, ?_, hcreated⟩
  rintro r' rfl
  exact (hcame (r', token) htoken hchunk).2

/-- **A step processes a whole chunk** of every request that it picks to prefill. -/
theorem step_chunkDone (h : Always Chunked e) (hwork : ¬e.scheduler.hasWork = false) {more : Bool}
    (hrun : (step chain model).run e = .ok more e') {result : ScheduleResult}
    {s' : Scheduler Nat} (hsched : Scheduler.schedule.run e.scheduler = .ok result s') {r : Ref}
    (hr : r ∈ result.prefillRequests) :
    ModelRunner.ChunkDone (e.scheduler.requests r) (e'.scheduler.requests r) := by
  obtain ⟨cache, result', e₁, -, hsched', hfirst, hsecond⟩ := step_eq_ok hwork hrun
  cases hsched.symm.trans hsched'
  obtain ⟨hprefill, hdecode⟩ := picked_running hsched'
  have hlive := h.live.assignWaitingToSlots
  have hcreated := (Scheduler.assignWaitingToSlots_ended e.scheduler).2.2
  have hassigned := h.live.assigned r
  unfold prefillBatch at hfirst
  unfold decodeBatch at hsecond
  rw [if_pos (List.ne_nil_of_mem hr)] at hfirst
  have h₁ := (runPrefill_chunkDone
    (e := { e with cache := cache, scheduler := e.scheduler.assignWaitingToSlots }) hlive hcreated
    (by rw [hassigned.chunk]; exact h.inv.2 r) hr fun r' hr' =>
      hcreated ▸ (hlive.running r' (hprefill r' hr').1).1).of_ok rfl hfirst
  have hbase : ∀ q : InferenceRequest Nat, ModelRunner.ChunkDone
      (e.scheduler.assignWaitingToSlots.requests r) q →
        ModelRunner.ChunkDone (e.scheduler.requests r) q := by
    intro q hq
    unfold ModelRunner.ChunkDone at hq ⊢
    rwa [hassigned.prompt, hassigned.offset, hassigned.chunk] at hq
  -- the decode half takes nothing back
  have h₂ := (Exec.Keeps.ite (fun _ => runDecode_during
    ((requestClosed_offset fun r => (e₁.scheduler.requests r).prefillOffset).stepClosed model)
    (cacheSteps_any chain model) fun r' hr' => hcreated ▸ (hlive.running r' (hdecode r' hr').1).1)
      fun _ => Exec.Keeps.pure ()).triple.of_ok ⟨h₁.live, fun r => le_rfl, h₁.created⟩ hsecond
  exact hbase _ ((h₁.inv r rfl).trans (h₂.inv r))

/-! ## The steps that are left -/

/-- The chunks that are left of the prompt, and the tokens to generate but for the first one, which
comes with the last chunk. -/
def stepsLeft (q : InferenceRequest Nat) : Nat :=
  if q.state = .finished then 0
  else (q.promptTokenIds.length - q.prefillOffset) ⌈/⌉ q.prefillChunkSize.toNat
    + (q.maxNewTokens.toNat - max 1 q.numGenerated)

def allStepsLeft (e : Engine Row) : Nat :=
  ∑ r ∈ Finset.range e.scheduler.created, stepsLeft (e.scheduler.requests r)

omit [LinearOrder Score] in
theorem ceilDiv_mono {chunk : Nat} (hc : 0 < chunk) {m n : Nat} (h : m ≤ n) :
    m ⌈/⌉ chunk ≤ n ⌈/⌉ chunk := by
  rw [ceilDiv_le_iff_le_mul hc]
  exact h.trans ((ceilDiv_le_iff_le_mul hc).mp le_rfl)

omit [LinearOrder Score] in
/-- A chunk less is left. -/
theorem ceilDiv_lt {chunk : Nat} (hc : 0 < chunk) {m n : Nat} (hn : 0 < n) (h : m ≤ n - chunk) :
    m ⌈/⌉ chunk < n ⌈/⌉ chunk := by
  have hle : n ≤ chunk * (n ⌈/⌉ chunk) := (ceilDiv_le_iff_le_mul hc).mp le_rfl
  obtain ⟨k, hk⟩ : ∃ k, n ⌈/⌉ chunk = k + 1 := by
    refine Nat.exists_eq_succ_of_ne_zero fun hzero => ?_
    rw [hzero] at hle
    omega
  rw [hk, Nat.mul_succ] at hle
  rw [hk, Nat.lt_succ_iff, ceilDiv_le_iff_le_mul hc]
  omega

/-- What a step leaves of a request, whether it is picked or not. -/
structure NotBehind (q q' : InferenceRequest Nat) : Prop extends SameAsk q q' where
  offset : q.prefillOffset ≤ q'.prefillOffset
  generated : q.numGenerated ≤ q'.numGenerated

theorem step_notBehind (h : Live e.scheduler) {more : Bool}
    (hrun : (step chain model).run e = .ok more e') (r : Ref) :
    NotBehind (e.scheduler.requests r) (e'.scheduler.requests r) where
  toSameAsk := (step_sameAsks h hrun).1.2.2 r
  offset := (requestClosed_offset fun r => (e.scheduler.requests r).prefillOffset).step h
    (fun _ => le_rfl) hrun r
  generated := (requestClosed_generated fun r => (e.scheduler.requests r).numGenerated).step h
    (fun _ => le_rfl) hrun r

omit [LinearOrder Score] in
theorem NotBehind.stepsLeft_le {q q' : InferenceRequest Nat} (h : NotBehind q q')
    (hchunk : 1 ≤ q.prefillChunkSize) : stepsLeft q' ≤ stepsLeft q := by
  unfold stepsLeft
  by_cases hs' : q'.state = .finished
  · rw [if_pos hs']
    exact Nat.zero_le _
  · have hs : q.state ≠ .finished := fun hs => hs' (h.finished hs)
    have hoffset := h.offset
    have hgenerated := h.generated
    rw [if_neg hs', if_neg hs, h.prompt, h.chunk, h.maxNewTokens]
    refine Nat.add_le_add (ceilDiv_mono (by omega) (by omega)) ?_
    omega

omit [LinearOrder Score] in
/-- A request that was prefilling, and came a chunk further. -/
theorem NotBehind.stepsLeft_lt_of_chunk {q q' : InferenceRequest Nat} (h : NotBehind q q')
    (hchunk : 1 ≤ q.prefillChunkSize) (hs : q.state ≠ .finished)
    (hmore : q.prefillOffset < q.promptTokenIds.length) (hdone : ModelRunner.ChunkDone q q') :
    stepsLeft q' < stepsLeft q := by
  have hgenerated := h.generated
  unfold ModelRunner.ChunkDone at hdone
  have hlt : (q'.promptTokenIds.length - q'.prefillOffset) ⌈/⌉ q.prefillChunkSize.toNat
      < (q.promptTokenIds.length - q.prefillOffset) ⌈/⌉ q.prefillChunkSize.toNat := by
    rw [h.prompt]
    exact ceilDiv_lt (by omega) (by omega) (by omega)
  unfold stepsLeft
  rw [if_neg hs, h.chunk, h.maxNewTokens]
  split <;> omega

omit [LinearOrder Score] in
/-- A request that was generating, and got one more token. -/
theorem NotBehind.stepsLeft_lt_of_token {q q' : InferenceRequest Nat} (h : NotBehind q q')
    (hchunk : 1 ≤ q.prefillChunkSize) (hs : q.state ≠ .finished) (hone : 1 ≤ q.numGenerated)
    (hless : (q.numGenerated : Int) < q.maxNewTokens) (hmore : q.numGenerated < q'.numGenerated) :
    stepsLeft q' < stepsLeft q := by
  have hoffset := h.offset
  have hle : (q'.promptTokenIds.length - q'.prefillOffset) ⌈/⌉ q.prefillChunkSize.toNat
      ≤ (q.promptTokenIds.length - q.prefillOffset) ⌈/⌉ q.prefillChunkSize.toNat := by
    rw [h.prompt]
    exact ceilDiv_mono (by omega) (by omega)
  unfold stepsLeft
  rw [if_neg hs, h.chunk, h.maxNewTokens]
  split <;> omega

/-! ## A step lowers the sum -/

variable {ideal : InferenceModel Row Score} {Holds : KVCacheType Row → (Nat → List Nat) → Prop}
  {InPlay : List Nat → Prop} {Allowed : Bool → Prop} {next : List Nat → Nat}
  {held : Nat → List Nat}

omit [LinearOrder Score] in
/-- The requests that get or have a slot are not finished. -/
theorem Coherent.admitted_unfinished (h : Coherent ideal Holds InPlay Allowed next e held [])
    {r : Ref} (hr : r ∈ e.scheduler.assignWaitingToSlots.running.values) :
    r < e.scheduler.created ∧ (e.scheduler.requests r).state ≠ .finished := by
  obtain ⟨hc, hf, hcreated⟩ := Scheduler.assignWaitingToSlots_ended e.scheduler
  have hlt : r < e.scheduler.created := hcreated ▸ h.scheduler.assignWaitingToSlots.running_lt hr
  refine ⟨hlt, fun hfin => ?_⟩
  obtain ⟨-, hnc, hnf⟩ := Scheduler.running_notMem h.scheduler.assignWaitingToSlots hr
  rw [hc] at hnc
  rw [hf] at hnf
  exact (h.scheduler.mem_ended hlt hfin).elim hnc hnf

omit [LinearOrder Score] in
/-- A request that does not decode yet has some of its prompt left. -/
theorem Coherent.offset_lt (h : Coherent ideal Holds InPlay Allowed next e held []) {r : Ref}
    (hr : r < e.scheduler.created) (hs : (e.scheduler.requests r).state ≠ .finished)
    (hd : (e.scheduler.requests r).state ≠ .decode) : (e.scheduler.requests r).prefillOffset
      < (e.scheduler.requests r).promptTokenIds.length := by
  have hlen := List.length_pos_iff.mpr (h.job r hr).prompt
  rcases h.scheduler.created_iff.mp hr with hm | hm | hm | hm
  · rw [(h.waiting r hm).2]
    exact hlen
  · obtain ⟨b, hb⟩ := Option.ne_none_iff_exists'.mp (h.scheduler.running r hm).batchIdx
    cases h.running r hm List.not_mem_nil b hb with
    | fresh hf =>
      rw [hf.offset]
      exact hlen
    | filling hf => exact hf.offset
    | decoding hdec => exact absurd hdec.state hd
  · exact absurd (h.scheduler.completed r hm).1.state hs
  · exact absurd (h.scheduler.failed r hm).state hs

omit [LinearOrder Score] in
/-- A request that decodes has its whole prompt, one token at least, and not yet all of them. -/
theorem Coherent.decoding (h : Coherent ideal Holds InPlay Allowed next e held []) {r : Ref}
    (hr : r < e.scheduler.created) (hd : (e.scheduler.requests r).state = .decode) :
    (e.scheduler.requests r).prefillOffset = (e.scheduler.requests r).promptTokenIds.length ∧
      1 ≤ (e.scheduler.requests r).numGenerated ∧
      ((e.scheduler.requests r).numGenerated : Int) < (e.scheduler.requests r).maxNewTokens := by
  have hm := h.scheduler.mem_running hr (by simp [hd]) (by simp [hd])
  have hrun := h.scheduler.running r hm
  obtain ⟨b, hb⟩ := Option.ne_none_iff_exists'.mp hrun.batchIdx
  cases h.running r hm List.not_mem_nil b hb with
  | fresh hf => exact absurd (hf.state.symm.trans hd) (by decide)
  | filling hf => exact absurd (hf.state.symm.trans hd) (by decide)
  | decoding hdec =>
    refine ⟨hdec.offset, List.length_pos_iff.mpr hdec.output, ?_⟩
    rcases hrun.state with ⟨hp, -⟩ | ⟨-, hnil | hlt⟩
    · exact absurd (hp.symm.trans hd) (by decide)
    · exact absurd hnil hdec.output
    · exact hlt

/-- **A step that finds work to do lowers the steps that are left.** -/
theorem allStepsLeft_lt (h : Coherent ideal Holds InPlay Allowed next e held [])
    (halways : Always Chunked e) (hb : Bounded e') (hs : e.scheduler.Servable) {more : Bool}
    (hrun : (step chain model).run e = .ok more e') : allStepsLeft e' < allStepsLeft e := by
  have hbehind := fun r => step_notBehind halways.live hrun r
  have hwork := hasWork_of_servable hs
  obtain ⟨result, hsched, hserved⟩ := step_serves halways hwork hrun
  obtain ⟨result', hsched', hselects⟩ := Scheduler.schedule_selects halways.live
  cases hsched.symm.trans hsched'
  obtain ⟨hprefill, hdecode⟩ := picked_running hsched
  obtain ⟨r, hr, hlt⟩ : ∃ r < e.scheduler.created,
      stepsLeft (e'.scheduler.requests r) < stepsLeft (e.scheduler.requests r) := by
    rcases hselects.mpr hs with hne | hne
    · obtain ⟨r, hr⟩ := List.exists_mem_of_ne_nil _ hne
      obtain ⟨hrunning, hstate⟩ := hprefill r hr
      obtain ⟨hlt, hunfinished⟩ := h.admitted_unfinished hrunning
      have hnot : (e.scheduler.requests r).state ≠ .decode := fun hd =>
        absurd (hstate.symm.trans ((halways.live.assigned r).decode.mpr hd)) (by decide)
      exact ⟨r, hlt, (hbehind r).stepsLeft_lt_of_chunk (halways.inv.2 r) hunfinished
        (h.offset_lt hlt hunfinished hnot) (step_chunkDone halways hwork hrun hsched hr)⟩
    · obtain ⟨r, hr⟩ := List.exists_mem_of_ne_nil _ hne
      obtain ⟨hrunning, hstate⟩ := hdecode r hr
      obtain ⟨hlt, hunfinished⟩ := h.admitted_unfinished hrunning
      obtain ⟨hoffset, hone, hless⟩ :=
        h.decoding hlt ((halways.live.assigned r).decode.mp hstate)
      refine ⟨r, hlt, (hbehind r).stepsLeft_lt_of_token (halways.inv.2 r) hunfinished hone hless ?_⟩
      have hmore := (atLeast_bump.mp (hserved r (Or.inr hr)).2).2
      have hle := hb.offset r
      unfold InferenceRequest.numPromptTokens at hle
      rw [(hbehind r).prompt] at hle
      unfold InferenceRequest.processed at hmore
      omega
  unfold allStepsLeft
  rw [(step_sameAsks halways.live hrun).2]
  exact Finset.sum_lt_sum (fun r _ => (hbehind r).stepsLeft_le (halways.inv.2 r))
    ⟨r, Finset.mem_range.mpr hr, hlt⟩

/-! ## The loop -/

theorem runUntilDone_succ_more {fuel : Nat} (hrun : (step chain model).run e = .ok true e') :
    (runUntilDone chain model (fuel + 1)).run e = (runUntilDone chain model fuel).run e' := by
  rw [runUntilDone, Exec.run_bind_ok hrun]
  rfl

theorem runUntilDone_noWork {fuel : Nat} (hwork : e.scheduler.hasWork = false) :
    (runUntilDone chain model (fuel + 1)).run e = .ok true e := by
  rw [runUntilDone, Exec.run_bind_ok (step_noWork hwork)]
  rfl

/-- What the loop keeps, from the state `e` it starts in. -/
structure Looping (ideal : InferenceModel Row Score)
    (Holds : KVCacheType Row → (Nat → List Nat) → Prop) (InPlay : List Nat → Prop)
    (Allowed : Bool → Prop) (next : List Nat → Nat) (e e' : Engine Row) : Prop where
  coherent : ∃ held, Coherent ideal Holds InPlay Allowed next e' held []
  always : Always Chunked e'
  bounded : Bounded e'
  promptFirst : ∀ r, PromptFirst (e'.scheduler.requests r)
  asks : SameAsks e e'
  created : e'.scheduler.created = e.scheduler.created
  concurrency : e'.scheduler.maxConcurrentRequests = e.scheduler.maxConcurrentRequests
  ids : ∀ r, (e'.scheduler.requests r).requestId = (e.scheduler.requests r).requestId

/-- **`run_until_done` ends** after as many steps as are left, if every step does what it would with
a model that is served. -/
theorem runUntilDone_run (hserves : Serves chain ideal Holds InPlay Allowed next)
    (hmakes : Makes ideal Allowed) (hkeeps : model.KeepsPrefixes)
    (hsame : ∀ e' held, SameAsks e e' → e'.scheduler.created = e.scheduler.created →
      Coherent ideal Holds InPlay Allowed next e' held [] →
        (step chain model).run e' = (step chain ideal).run e')
    (hfit : ChunksFit e) {e₁ : Engine Row}
    (h : Looping ideal Holds InPlay Allowed next e e₁) :
    ∃ n e₂, n ≤ allStepsLeft e₁ ∧
      (∀ fuel, n < fuel → (runUntilDone chain model fuel).run e₁ = .ok true e₂) ∧
      Looping ideal Holds InPlay Allowed next e e₂ ∧
      e₂.scheduler.waiting = [] ∧ e₂.scheduler.running.values = [] := by
  induction hm : allStepsLeft e₁ using Nat.strongRecOn generalizing e₁ with
  | ind m ih =>
    obtain ⟨held, hco⟩ := h.coherent
    by_cases hwork : e₁.scheduler.hasWork = false
    · obtain ⟨hwaiting, hrunning⟩ := hasWork_eq_false_iff.mp hwork
      refine ⟨0, e₁, Nat.zero_le _, fun fuel hfuel => ?_, h, hwaiting, hrunning⟩
      obtain ⟨fuel, rfl⟩ := Nat.exists_eq_add_of_lt hfuel
      exact runUntilDone_noWork hwork
    have hfit₁ : ChunksFit e₁ := fun r hr => by
      have hask := h.asks.2.2 r
      unfold InferenceRequest.numPromptTokens
      rw [hask.chunk, hask.prompt, h.asks.1]
      exact hfit r (h.created ▸ hr)
    have hs : e₁.scheduler.Servable := by
      by_contra hnot
      exact hwork (hasWork_eq_false_iff.mpr (hco.idle hfit₁ hnot))
    obtain ⟨more, e₂, held₂, hrun, hco₂⟩ := step_returns hserves hmakes hco
    rw [← hsame e₁ held h.asks h.created hco] at hrun
    obtain ⟨-, -, -, rfl, -⟩ := step_eq_ok hwork hrun
    have hafter : Engine.next chain model e₁ .step = e₂ := by
      rw [Engine.next, call, Exec.after_dropped, Exec.after_of_ok hrun]
    obtain ⟨hasks₂, hcreated₂⟩ := step_sameAsks h.always.live hrun
    have h₂ : Looping ideal Holds InPlay Allowed next e e₂ :=
      { coherent := ⟨held₂, hco₂⟩
        always := hafter ▸ (callClosed_chunked chain model).next h.always .step
        bounded := hafter ▸ next_bounded hkeeps h.always.live h.bounded .step
        promptFirst := requestClosed_promptFirst.step h.always.live h.promptFirst hrun
        asks := ⟨hasks₂.1.trans h.asks.1, hasks₂.2.1.trans h.asks.2.1, fun r =>
          (h.asks.2.2 r).trans_same (hasks₂.2.2 r).prompt (hasks₂.2.2 r).maxNewTokens
            (hasks₂.2.2 r).chunk (hasks₂.2.2 r).finished⟩
        created := hcreated₂.trans h.created
        concurrency := by
          have hduring := (stepClosed_schedulerSettings model _ _).step
            (cacheSteps_any chain model) e₁ ⟨h.always.live, ⟨h.concurrency, rfl⟩, rfl⟩
          rw [Exec.after_of_ok hrun] at hduring
          exact hduring.inv.1
        ids := (requestClosed_id _).step h.always.live h.ids hrun }
    -- every step leaves fewer to do
    have hlt := allStepsLeft_lt hco h.always h₂.bounded hs hrun
    obtain ⟨n, e₃, hn, hloop, h₃, hidle⟩ := ih _ (hm ▸ hlt) h₂ rfl
    refine ⟨n + 1, e₃, by omega, fun fuel hfuel => ?_, h₃, hidle⟩
    obtain ⟨fuel, rfl⟩ := Nat.exists_eq_succ_of_ne_zero (Nat.ne_of_gt (Nat.lt_of_le_of_lt
      (Nat.zero_le _) hfuel))
    rw [Nat.succ_eq_add_one, runUntilDone_succ_more hrun]
    exact hloop fuel (by omega)

end Engine

end Nifre
