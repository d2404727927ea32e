import Nifre.Properties.ClearSlots
import Nifre.Properties.ContinuousBatching

/-!
# Free slots and cancelled requests

A slot leaves the running requests in three ways. When a request finishes, in a prefill or in a
decode, the engine resets the slot. When a running request is cancelled it reads the slot after the
scheduler has cleared it, and resets nothing. So the free slots are clear in every state of a run
exactly as long as every cancellation of a running request finds its slot clear already.
-/

namespace Nifre

open Digest
open Scheduler (Inv)

variable {Row Score : Type} {chain : Int → List Nat → Int} {P : Set (List (List Nat))}
  {blockSize n : Nat} {busy : Set Nat}

/-! ## Forward passes -/

namespace ModelRunner

/-- A request whose slot is busy and whose prompt is in play. -/
structure Seated (P : Set (List (List Nat))) (blockSize : Nat) (busy : Set Nat)
    (q : InferenceRequest Nat) : Prop where
  slot : ∀ b, q.batchIdx = some b → b ∈ busy
  prompt : fullBlocks blockSize q.promptTokenIds ∈ P

theorem Seated.sameJob {q q' : InferenceRequest Nat} (h : Seated P blockSize busy q)
    (hq : SameJob q q') : Seated P blockSize busy q' where
  slot := fun b hb => h.slot b (hq.batchIdx ▸ hb)
  prompt := hq.prompt ▸ h.prompt

/-- The request objects keep their jobs, and the slots outside `busy` are clear. -/
structure Tidy (chain : Int → List Nat → Int) (P : Set (List (List Nat))) (blockSize n : Nat)
    (busy : Set Nat) (requests : Ref → InferenceRequest Nat) (s : ModelRunner Row) : Prop where
  job : ∀ r, SameJob (requests r) (s.requests r)
  cache : s.cache.Clear chain P blockSize n busy

variable {requests : Ref → InferenceRequest Nat}

theorem onCache_tidy {α : Type} {m : KVCacheType.M Row α}
    (h : Exec.Keeps (KVCacheType.Clear chain P blockSize n busy) m) :
    Exec.Keeps (Tidy chain P blockSize n busy requests) (onCache m) :=
  Exec.Keeps.within fun s hs => ⟨hs.job, h s.cache hs.cache⟩

theorem update_tidy (r : Ref) {f : InferenceRequest Nat → InferenceRequest Nat}
    (hf : ∀ q, SameJob q (f q)) : Exec.Keeps (Tidy chain P blockSize n busy requests)
      (modify fun s => s.update r f : M Row PUnit) := by
  refine Exec.Keeps.modify fun s hs => ⟨fun r' => ?_, hs.cache⟩
  by_cases he : r' = r
  · subst he
    simp only [update, Function.update_self]
    exact (hs.job r').trans (hf _)
  · simp only [update, Function.update_of_ne he]
    exact hs.job r'

theorem batchIdx_eq_ok {q : InferenceRequest Nat} {b : Nat} (h : batchIdx q = .ok b) :
    q.batchIdx = some b := by
  unfold batchIdx at h
  split at h
  · cases h
  · next hb =>
    cases h
    exact hb

theorem prepareSlot_tidy (hash : CollisionFree chain PrefixCache.rootHash P) {r : Ref}
    (hr : Seated P blockSize busy (requests r)) :
    Exec.Keeps (Tidy chain P blockSize n busy requests) (prepareSlot chain r : M Row Unit) := by
  refine Exec.Keeps.get_bind fun s hs => ?_
  have hseat := hr.sameJob (hs.job r)
  refine Exec.Keeps.ite (fun _ => Exec.Keeps.ofExcept_bind fun b hb => ?_)
    (fun _ => Exec.Keeps.pure ()) s hs
  have hbusy := hseat.slot b (batchIdx_eq_ok hb)
  have hload : Exec.Keeps (Tidy chain P blockSize n busy requests)
      (loadPrefix chain b (s.requests r).promptTokenIds : M Row Nat) :=
    Exec.Keeps.get_bind fun s' hs' => Exec.Keeps.ite
      (fun _ => onCache_tidy (KVCacheType.tryLoadPrefix_clear hash hbusy hseat.prompt))
      (fun _ => Exec.Keeps.pure 0) s' hs'
  have hprepared : Exec.Keeps (Tidy chain P blockSize n busy requests)
      (modify fun s => s.update r fun request => { request with slotPrepared := true } :
        M Row PUnit) :=
    update_tidy r fun q => ⟨⟨rfl, rfl, rfl, rfl, rfl⟩, rfl, rfl, rfl⟩
  refine Exec.Keeps.bind hload fun loaded => Exec.Keeps.ite (fun _ => ?_) fun _ => Exec.Keeps.ite
    (fun _ => ?_) fun _ => hprepared
  · exact Exec.Keeps.bind (update_tidy r fun q => ⟨⟨rfl, rfl, rfl, rfl, rfl⟩, rfl, rfl, rfl⟩)
      fun _ => hprepared
  · exact Exec.Keeps.bind (onCache_tidy (KVCacheType.resetSlot_clear hash hbusy)) fun _ => hprepared

/-- The slots of a batch are busy. -/
theorem call_tidy [LinearOrder Score] {model : InferenceModel Row Score}
    (hmodel : ∀ tokenIds inputLens slots,
      KVCacheType.OnlyAppends slots (model.call tokenIds inputLens slots))
    (hash : CollisionFree chain PrefixCache.rootHash P) {rs : List Ref}
    (hrs : ∀ r ∈ rs, Seated P blockSize busy (requests r)) {s : ModelRunner Row}
    (hs : Tidy chain P blockSize n busy requests s) (tokenIds : List (List Nat))
    (inputLens : Option (List Nat)) {slots : List Nat}
    (hslots : rs.mapM (fun r => batchIdx (s.requests r)) = .ok slots) :
    Exec.Keeps (Tidy chain P blockSize n busy requests)
      (onCache (model.call tokenIds inputLens slots)) := by
  refine onCache_tidy ((hmodel tokenIds inputLens slots).clear hash fun b hb => ?_)
  obtain ⟨r, hr, he⟩ := Exec.mem_of_mapM_ok hslots b hb
  exact ((hrs r hr).sameJob (hs.job r)).slot b (batchIdx_eq_ok he)

theorem advanceRows_tidy [LinearOrder Score] (logits : Logits Score) :
    ∀ (i : Nat) (rs : List Ref) (inputLens : List Nat),
      Exec.Keeps (Tidy chain P blockSize n busy requests)
        (advanceRows logits i rs inputLens : M Row _)
  | _, [], _ => Exec.Keeps.pure _
  | _, _ :: _, [] => Exec.Keeps.pure _
  | i, r :: rs, chunkLen :: inputLens => by
    rw [advanceRows]
    refine Exec.Keeps.bind (update_tidy r fun q => ⟨⟨rfl, rfl, rfl, rfl, rfl⟩, rfl, rfl, rfl⟩)
      fun _ => ?_
    refine Exec.Keeps.bind (Exec.Keeps.get_bind fun s hs => ?_) fun _ =>
      (advanceRows_tidy logits (i + 1) rs inputLens).bind fun _ => Exec.Keeps.pure _
    exact Exec.Keeps.ite (fun _ => (Exec.Keeps.ofExcept _).bind fun _ => Exec.Keeps.pure _)
      (fun _ => Exec.Keeps.pure _) s hs

variable [LinearOrder Score] {model : InferenceModel Row Score}
  (hmodel : ∀ tokenIds inputLens slots,
    KVCacheType.OnlyAppends slots (model.call tokenIds inputLens slots))
  (hash : CollisionFree chain PrefixCache.rootHash P) {rs : List Ref}
  (hrs : ∀ r ∈ rs, Seated P blockSize busy (requests r))

include hmodel hash hrs

/-- **A prefill leaves the slots outside `busy` clear**, on either exit. -/
theorem prefill_tidy : Exec.Keeps (Tidy chain P blockSize n busy requests)
    (prefill chain model rs) := by
  refine (Exec.Keeps.forM rs fun r hr => prepareSlot_tidy hash (hrs r hr)).bind fun _ =>
    Exec.Keeps.get_bind fun s hs => ?_
  refine Exec.Keeps.ofExcept_bind (fun batch _ => Exec.Keeps.ofExcept_bind fun slots hslots =>
    (call_tidy hmodel hash hrs hs _ _ hslots).bind fun logits => ?_) s hs
  exact advanceRows_tidy logits 0 rs _

/-- **A decode leaves the slots outside `busy` clear**, on either exit. -/
theorem decode_tidy : Exec.Keeps (Tidy chain P blockSize n busy requests) (decode model rs) := by
  refine Exec.Keeps.get_bind fun s hs => ?_
  exact Exec.Keeps.ofExcept_bind (fun tokens _ => Exec.Keeps.ofExcept_bind fun slots hslots =>
    (call_tidy hmodel hash hrs hs _ _ hslots).bind fun logits => Exec.Keeps.ofExcept _) s hs

end ModelRunner

/-! ## The slots without a running request -/

namespace Engine

/-- The slots of the running requests. -/
def busySlots (s : Scheduler Nat) : Set Nat :=
  {b | ∃ r ∈ s.running.values, (s.requests r).batchIdx = some b}

/-- The queues are in order, and the slots without a running request hold nothing. -/
structure Tidy (chain : Int → List Nat → Int) (P : Set (List (List Nat))) (blockSize : Nat)
    (e : Engine Row) : Prop where
  scheduler : Inv e.scheduler
  concurrency : e.maxConcurrentRequests = e.scheduler.maxConcurrentRequests
  prompts : ∀ r < e.scheduler.created,
    fullBlocks blockSize (e.scheduler.requests r).promptTokenIds ∈ P
  cache : ∀ c, e.cache = some c →
    c.Clear chain P blockSize e.scheduler.maxConcurrentRequests (busySlots e.scheduler)

/-- As `Tidy`, with the number of the requests there are. -/
def KnowsTidy (chain : Int → List Nat → Int) (P : Set (List (List Nat))) (blockSize k : Nat)
    (e : Engine Row) : Prop :=
  Tidy chain P blockSize e ∧ e.scheduler.created = k

/-- Only a running request has a slot. -/
theorem Tidy.running_of_slot {e : Engine Row} (h : Tidy chain P blockSize e) {r : Ref}
    (hr : r < e.scheduler.created) {b : Nat} (hb : (e.scheduler.requests r).batchIdx = some b) :
    r ∈ e.scheduler.running.values := by
  rcases h.scheduler.created_iff.mp hr with hw | hrun | hc | hf
  · cases hb.symm.trans (h.scheduler.waiting r hw).batchIdx
  · exact hrun
  · cases hb.symm.trans (h.scheduler.completed r hc).1.batchIdx
  · cases hb.symm.trans (h.scheduler.failed r hf).batchIdx

theorem Tidy.running_of_decode {e : Engine Row} (h : Tidy chain P blockSize e) {r : Ref}
    (hr : r < e.scheduler.created) (hd : (e.scheduler.requests r).state = .decode) :
    r ∈ e.scheduler.running.values := by
  rcases h.scheduler.created_iff.mp hr with hw | hrun | hc | hf
  · cases hd.symm.trans (h.scheduler.waiting r hw).state
  · exact hrun
  · cases hd.symm.trans (h.scheduler.completed r hc).1.state
  · cases hd.symm.trans (h.scheduler.failed r hf).state

theorem Tidy.seated {e : Engine Row} (h : Tidy chain P blockSize e) {r : Ref}
    (hr : r < e.scheduler.created) :
    ModelRunner.Seated P blockSize (busySlots e.scheduler) (e.scheduler.requests r) where
  slot := fun _ hb => ⟨r, h.running_of_slot hr hb, hb⟩
  prompt := h.prompts r hr

/-- The scheduler changed, and no slot lost its running request. -/
theorem Tidy.withScheduler {e : Engine Row} (h : Tidy chain P blockSize e) {s : Scheduler Nat}
    (hinv : Inv s) (hmax : s.maxConcurrentRequests = e.scheduler.maxConcurrentRequests)
    (hprompts : ∀ r < s.created, fullBlocks blockSize (s.requests r).promptTokenIds ∈ P)
    (hbusy : busySlots e.scheduler ⊆ busySlots s) :
    Tidy chain P blockSize { e with scheduler := s } where
  scheduler := hinv
  concurrency := hmax ▸ h.concurrency
  prompts := hprompts
  cache := fun c hc => hmax ▸ (h.cache c hc).mono hbusy (Nat.le_refl _)

/-- The prompts stay in play when a request changes in what is not its prompt. -/
theorem Tidy.prompts_update {e : Engine Row} (h : Tidy chain P blockSize e) {r : Ref}
    {q : InferenceRequest Nat}
    (hprompt : q.promptTokenIds = (e.scheduler.requests r).promptTokenIds) :
    ∀ r' < e.scheduler.created,
      fullBlocks blockSize (Function.update e.scheduler.requests r q r').promptTokenIds ∈ P := by
  intro r' hr'
  by_cases he : r' = r
  · subst he
    rw [Function.update_self, hprompt]
    exact h.prompts r' hr'
  · rw [Function.update_of_ne he]
    exact h.prompts r' hr'

/-- One request changed, in what is not its slot or its prompt. -/
theorem Tidy.update {e : Engine Row} (h : Tidy chain P blockSize e) {r : Ref}
    {q : InferenceRequest Nat}
    (hinv : Inv { e.scheduler with requests := Function.update e.scheduler.requests r q })
    (hslot : q.batchIdx = (e.scheduler.requests r).batchIdx)
    (hprompt : q.promptTokenIds = (e.scheduler.requests r).promptTokenIds) :
    Tidy chain P blockSize { e with
      scheduler := { e.scheduler with
        requests := Function.update e.scheduler.requests r q } } := by
  refine h.withScheduler hinv rfl (h.prompts_update hprompt) ?_
  rintro b ⟨r', hr', hb⟩
  refine ⟨r', hr', ?_⟩
  by_cases he : r' = r
  · subst he
    simp only [Function.update_self]
    exact hslot.trans hb
  · simp only [Function.update_of_ne he]
    exact hb

/-! ## Handling a token -/

variable {e : Engine Row} {k : Nat}

theorem Tidy.withCache (h : Tidy chain P blockSize e) {c : KVCacheType Row}
    (hc : c.Clear chain P blockSize e.scheduler.maxConcurrentRequests (busySlots e.scheduler)) :
    Tidy chain P blockSize { e with cache := some c } where
  __ := h
  cache := fun c' hc' => by
    cases hc'
    exact hc

theorem onCache_after {α : Type} {m : KVCacheType.M Row α} {c : KVCacheType Row}
    (hc : e.cache = some c) :
    Exec.after (onCache m) e = { e with cache := some (Exec.after m c) } := by
  unfold onCache
  rw [Exec.after_bind, EStateM.run_get]
  simp only [hc]
  exact Exec.after_within _ _ m e

theorem onCache_after_none {α : Type} {m : KVCacheType.M Row α} (hc : e.cache = none) :
    Exec.after (onCache m) e = e := by
  unfold onCache
  rw [Exec.after_bind, EStateM.run_get]
  simp only [hc]
  rfl

/-- Work on the cache that keeps the slots outside the busy ones clear. -/
theorem onCache_tidy {α : Type} {m : KVCacheType.M Row α} (h : Tidy chain P blockSize e)
    (hm : Exec.Keeps (KVCacheType.Clear chain P blockSize e.scheduler.maxConcurrentRequests
      (busySlots e.scheduler)) m) :
    Tidy chain P blockSize (Exec.after (onCache m) e) ∧
      (Exec.after (onCache m) e).scheduler = e.scheduler := by
  cases hc : e.cache with
  | none =>
    rw [onCache_after_none hc]
    exact ⟨h, rfl⟩
  | some c =>
    rw [onCache_after hc]
    exact ⟨h.withCache (hm c (h.cache c hc)), rfl⟩

theorem releaseCacheSlot_after {r : Ref} (hr : (e.scheduler.requests r).state = .finished) {b : Nat}
    {c : KVCacheType Row} (hc : e.cache = some c) :
    Exec.after (releaseCacheSlot (some b) r) e
      = { e with cache := some (Exec.after (KVCacheType.resetSlot (b : Int)) c) } := by
  unfold releaseCacheSlot
  rw [Exec.after_bind, EStateM.run_get]
  simp only [if_neg (not_not.mpr hr), hc]
  exact onCache_after hc

theorem releaseCacheSlot_after_none {r : Ref} (hc : e.cache = none) (batchIdx : Option Nat) :
    Exec.after (releaseCacheSlot batchIdx r) e = e := by
  unfold releaseCacheSlot
  rw [Exec.after_bind, EStateM.run_get]
  simp only [hc]
  split
  · rfl
  · cases batchIdx <;> rfl

/-- The slots that stay busy when a request leaves slot `b`. -/
theorem Tidy.busy_leave (h : Tidy chain P blockSize e) {r : Ref}
    (hr : r ∈ e.scheduler.running.values) {b : Nat}
    (hb : (e.scheduler.requests r).batchIdx = some b) {s : Scheduler Nat}
    (hrun : s.running = e.scheduler.running.erase (e.scheduler.requests r).requestId)
    (hreq : ∀ r', r' ≠ r → s.requests r' = e.scheduler.requests r') :
    busySlots e.scheduler \ {b} ⊆ busySlots s := by
  rintro i ⟨⟨r', hr', hi⟩, hne⟩
  have hrr : r' ≠ r := by
    rintro rfl
    exact hne (Option.some.inj (hi.symm.trans hb))
  refine ⟨r', ?_, by rw [hreq r' hrr]; exact hi⟩
  rw [hrun]
  exact (Scheduler.mem_erase_values h.scheduler hr).mpr ⟨hr', hrr⟩

/-- **A request finishes and its slot is reset.** -/
theorem Tidy.finish (hash : CollisionFree chain PrefixCache.rootHash P)
    (h : Tidy chain P blockSize e) {r : Ref} (hr : r ∈ e.scheduler.running.values) {b token : Nat}
    (hb : (e.scheduler.requests r).batchIdx = some b)
    (hinv : Inv (e.scheduler.completeWith r b token)) (emitted : List (String × Nat)) :
    KnowsTidy chain P blockSize e.scheduler.created (Exec.after (releaseCacheSlot (some b) r)
      { e with scheduler := e.scheduler.completeWith r b token, emitted := emitted }) := by
  have hother : ∀ r', r' ≠ r →
      (e.scheduler.completeWith r b token).requests r' = e.scheduler.requests r' :=
    fun r' hne => Function.update_of_ne hne _ _
  have hself : (e.scheduler.completeWith r b token).requests r
      = { Scheduler.pushToken (e.scheduler.requests r) token with
          state := .finished, batchIdx := none } := Function.update_self _ _ _
  have hprompts : ∀ r' < e.scheduler.created,
      fullBlocks blockSize ((e.scheduler.completeWith r b token).requests r').promptTokenIds ∈ P :=
    h.prompts_update rfl
  set e' : Engine Row :=
    { e with scheduler := e.scheduler.completeWith r b token, emitted := emitted } with he'
  have hcache : e'.cache = e.cache := rfl
  cases hc : e.cache with
  | none =>
    rw [releaseCacheSlot_after_none (hcache.trans hc)]
    exact ⟨⟨hinv, h.concurrency, hprompts, fun c hc' => by cases hc.symm.trans hc'⟩, rfl⟩
  | some c =>
    have hstate : (e'.scheduler.requests r).state = .finished := by rw [hself]
    rw [releaseCacheSlot_after hstate (hcache.trans hc)]
    refine ⟨⟨hinv, h.concurrency, hprompts, fun c' hc' => ?_⟩, rfl⟩
    cases hc'
    exact ((h.cache c hc).release hash (h.scheduler.running_slot_lt hr hb)).mono
      (h.busy_leave hr hb rfl hother) (Nat.le_refl _)

variable [LinearOrder Score]

/-- **A token for a request of the batch**, on either exit. -/
theorem acceptToken_tidy (hash : CollisionFree chain PrefixCache.rootHash P)
    (h : Tidy chain P blockSize e) {r : Ref} (hr : r < e.scheduler.created) (token : Nat)
    (requestId : String) {batchIdx : Option Nat}
    (hb : (e.scheduler.requests r).batchIdx = batchIdx) :
    KnowsTidy chain P blockSize e.scheduler.created (Exec.after (do
        onScheduler (Scheduler.markDecodeDone r token)
        emitToken requestId token
        releaseCacheSlot batchIdx r) e) := by
  by_cases hd : (e.scheduler.requests r).state = .decode
  · have hrun := h.running_of_decode hr hd
    obtain ⟨b, hb', hmark⟩ := Scheduler.markDecodeDone_run h.scheduler hrun hd token
    cases hb.symm.trans hb'
    rw [Exec.after_bind, onScheduler_run hmark]
    simp only
    split
    · next hlast =>
      obtain ⟨emitted, hemit⟩ := emitToken_run requestId token
        { e with scheduler := e.scheduler.completeWith r b token }
      rw [Exec.after_bind, hemit]
      exact h.finish hash hrun hb' (h.scheduler.completeWith hrun hd hb' token hlast) emitted
    · next hmore =>
      set s' : Scheduler Nat := { e.scheduler with
        requests := Function.update e.scheduler.requests r
          (Scheduler.pushToken (e.scheduler.requests r) token) } with hs'
      obtain ⟨emitted, hemit⟩ := emitToken_run requestId token { e with scheduler := s' }
      have hstate : (s'.requests r).state ≠ .finished := by
        simp [hs', Scheduler.pushToken, hd]
      rw [Exec.after_bind, hemit]
      simp only
      rw [Exec.after_of_ok (releaseCacheSlot_running
        (e := { e with scheduler := s', emitted := emitted }) hstate _)]
      exact ⟨{ h.update (h.scheduler.pushToken hrun hd token hmore) rfl rfl with }, rfl⟩
  · obtain ⟨err, hmark⟩ := Scheduler.markDecodeDone_error hd token
    rw [Exec.after_of_error (Exec.run_bind_error (onScheduler_error hmark))]
    exact ⟨h, rfl⟩

omit [LinearOrder Score] in
theorem registerComplete_tidy (hash : CollisionFree chain PrefixCache.rootHash P)
    (h : Tidy chain P blockSize e) {r : Ref} (hr : r < e.scheduler.created) :
    Tidy chain P blockSize (Exec.after (registerComplete chain r) e) ∧
      (Exec.after (registerComplete chain r) e).scheduler = e.scheduler := by
  set I : Engine Row → Prop := fun e' => Tidy chain P blockSize e' ∧ e'.scheduler = e.scheduler
    with hI
  suffices hkeeps : Exec.Keeps I (registerComplete chain r) from hkeeps e ⟨h, rfl⟩
  refine Exec.Keeps.get_bind fun e₁ h₁ => Exec.Keeps.ite (fun _ =>
    Exec.Keeps.ofExcept_bind fun b hb => fun e₂ h₂ => ?_) (fun _ => Exec.Keeps.pure ()) e₁ h₁
  obtain ⟨htidy, hsame⟩ := h₁
  have hseat := h.seated hr
  rw [hsame] at hb ⊢
  have hkeep := onCache_tidy h₂.1 (m := KVCacheType.registerPrefix chain (b : Int)
    (e.scheduler.requests r).promptTokenIds) (by
      rw [h₂.2]
      exact KVCacheType.registerPrefix_clear hash (hseat.slot b (ModelRunner.batchIdx_eq_ok hb))
        hseat.prompt)
  exact ⟨hkeep.1, hkeep.2.trans h₂.2⟩

theorem finishDecode_tidy (hash : CollisionFree chain PrefixCache.rootHash P) {r : Ref}
    (hr : r < k) (token : Nat) :
    Exec.Keeps (KnowsTidy chain P blockSize k) (finishDecode r token : M Row Unit) := by
  refine Exec.Keeps.get_bind fun e h => ?_
  obtain ⟨htidy, rfl⟩ := h
  exact acceptToken_tidy hash htidy hr token _ rfl

theorem finishPrefill_tidy (hash : CollisionFree chain PrefixCache.rootHash P) {r : Ref}
    (hr : r < k) (token : Option Nat) :
    Exec.Keeps (KnowsTidy chain P blockSize k) (finishPrefill chain r token : M Row Unit) := by
  refine Exec.Keeps.bind (fun e h => ?_) fun _ => ?_
  · obtain ⟨htidy, hk⟩ := h
    obtain ⟨htidy', hsame⟩ := registerComplete_tidy hash htidy (hk ▸ hr)
    exact ⟨htidy', by rw [hsame, hk]⟩
  cases token with
  | none => exact Exec.Keeps.pure ()
  | some token =>
    refine Exec.Keeps.get_bind fun e h => ?_
    obtain ⟨htidy, rfl⟩ := h
    by_cases hmark : (e.scheduler.requests r).state = .prefill ∧
        (e.scheduler.requests r).prefillComplete = true
    · have hrun : r ∈ e.scheduler.running.values := by
        rcases htidy.scheduler.created_iff.mp hr with hw | hrun | hc | hf
        · cases hmark.1.symm.trans (htidy.scheduler.waiting r hw).state
        · exact hrun
        · cases hmark.1.symm.trans (htidy.scheduler.completed r hc).1.state
        · cases hmark.1.symm.trans (htidy.scheduler.failed r hf).state
      have hout : (e.scheduler.requests r).outputTokenIds = [] := by
        rcases (htidy.scheduler.running r hrun).state with ⟨-, ho⟩ | ⟨hd, -⟩
        · exact ho
        · cases hmark.1.symm.trans hd
      have hinv := htidy.scheduler.progress hrun
        (q := { e.scheduler.requests r with state := .decode }) rfl rfl
        ⟨Or.inr ⟨rfl, Or.inl hout⟩, (htidy.scheduler.running r hrun).batchIdx⟩
      simp only
      rw [Exec.after_bind, onScheduler_run (Scheduler.markPrefillDone_run hmark.1 hmark.2)]
      refine acceptToken_tidy hash (htidy.update hinv rfl rfl) hr token _ ?_
      simp
    · obtain ⟨err, herr⟩ := Scheduler.markPrefillDone_error hmark
      simp only
      rw [Exec.after_of_error (Exec.run_bind_error (onScheduler_error herr))]
      exact ⟨htidy, rfl⟩

/-! ## step -/

omit [LinearOrder Score] in
theorem onRunner_tidy {α : Type} {m : ModelRunner.M Row α}
    (hm : ∀ e : Engine Row, KnowsTidy chain P blockSize k e →
      Exec.Keeps (ModelRunner.Tidy chain P blockSize e.scheduler.maxConcurrentRequests
        (busySlots e.scheduler) e.scheduler.requests) m) :
    Exec.Keeps (KnowsTidy chain P blockSize k) (onRunner m) := by
  intro e h
  unfold onRunner
  rw [Exec.after_bind, EStateM.run_get]
  cases hc : e.cache with
  | none =>
    simp only [hc]
    exact h
  | some c =>
    simp only [hc]
    rw [Exec.after_within]
    obtain ⟨hjob, hcache⟩ := hm e h ⟨e.scheduler.requests, c⟩
      ⟨fun r => SameJob.refl _, h.1.cache c hc⟩
    set s := Exec.after m ⟨e.scheduler.requests, c⟩ with hs
    refine ⟨⟨h.1.scheduler.touch (fun r => (hjob r).toSameStatus) e.scheduler.maxTokensPerStep,
      h.1.concurrency, fun r hr => ?_, fun c' hc' => ?_⟩, h.2⟩
    · show fullBlocks blockSize (s.requests r).promptTokenIds ∈ P
      rw [(hjob r).prompt]
      exact h.1.prompts r hr
    · cases hc'
      refine hcache.mono ?_ (Nat.le_refl _)
      rintro b ⟨r, hr, hb⟩
      exact ⟨r, hr, (hjob r).batchIdx.trans hb⟩

section

variable {model : InferenceModel Row Score}
  (hmodel : ∀ tokenIds inputLens slots,
    KVCacheType.OnlyAppends slots (model.call tokenIds inputLens slots))
  (hash : CollisionFree chain PrefixCache.rootHash P) {rs : List Ref} (hrs : ∀ r ∈ rs, r < k)

include hmodel hash hrs

theorem runPrefill_tidy :
    Exec.Keeps (KnowsTidy chain P blockSize k) (runPrefill chain model rs) := by
  refine Exec.Keeps.bind (onRunner_tidy fun e h => ModelRunner.prefill_tidy hmodel hash
    fun r hr => h.1.seated (h.2 ▸ hrs r hr)) fun tokens => Exec.Keeps.forM _ fun (r, token) hmem => ?_
  exact finishPrefill_tidy hash (hrs r (List.of_mem_zip hmem).1) token

theorem runDecode_tidy : Exec.Keeps (KnowsTidy chain P blockSize k) (runDecode model rs) := by
  refine Exec.Keeps.bind (onRunner_tidy fun e h => ModelRunner.decode_tidy hmodel hash
    fun r hr => h.1.seated (h.2 ▸ hrs r hr)) fun tokens => Exec.Keeps.forM _ fun (r, token) hmem => ?_
  exact finishDecode_tidy hash (hrs r (List.of_mem_zip hmem).1) token

end

variable {model : InferenceModel Row Score}

omit [LinearOrder Score] in
/-- A cache that is made has nothing in any slot. -/
theorem makeCache_clear {usePaged usePrefix : Bool} {batchSize : Nat} {c : KVCacheType Row}
    (h : makeCache model usePaged usePrefix batchSize = .ok c) (busy : Set Nat) :
    c.Clear chain P model.config.blockSize batchSize busy := by
  rintro p rfl
  unfold makeCache at h
  split at h
  · cases h
  · split at h
    · generalize hinit : (PagedKVCache.initBatch _ _ _ _ : Except PyError (PagedKVCache Nat _)) =
        result at h
      cases result with
      | error err => cases h
      | ok c =>
        cases h
        obtain ⟨-, hsize, -, -, hbs, -, ht, hp, -, -⟩ := PagedKVCache.initBatch_spec hinit
        exact ⟨PagedKVCache.initBatch_sound hinit chain P, hbs, Nat.le_of_eq hsize.symm,
          fun b _ => ⟨ht b, hp b⟩⟩
    · cases h

omit [LinearOrder Score] in
theorem ensureCache_tidy : Exec.Keeps (KnowsTidy chain P model.config.blockSize k)
    (ensureCache model) := by
  intro e h
  unfold ensureCache
  rw [Exec.after_bind, EStateM.run_get]
  cases hc : e.cache with
  | some c =>
    simp only [hc]
    exact h
  | none =>
    have hmax : e.maxConcurrentRequests.toNat = e.scheduler.maxConcurrentRequests := by
      rw [h.1.concurrency, Int.toNat_natCast]
    simp only [hc, hmax]
    cases hmake : makeCache model e.usePagedKvCache e.usePrefixCache
        e.scheduler.maxConcurrentRequests with
    | error err => exact h
    | ok c => exact ⟨h.1.withCache (makeCache_clear hmake _), h.2⟩

omit [LinearOrder Score] in
theorem assignWaitingToSlots_tidy (h : KnowsTidy chain P blockSize k e) :
    KnowsTidy chain P blockSize k { e with scheduler := e.scheduler.assignWaitingToSlots } := by
  refine Scheduler.assignRounds_induct
    (I := fun s => KnowsTidy chain P blockSize k { e with scheduler := s }) ?_ _ h
  intro s r waiting b freeSlots hs hw hf
  have hr : r ∈ s.waiting := by rw [hw]; exact List.mem_cons_self
  have hrun := (Scheduler.waiting_notMem hs.1.scheduler hr).1
  have hinv : Inv s := hs.1.scheduler
  have hkey := hinv.notMem_keys hinv.runningKey (fun _ hm => hinv.running_lt hm)
    (hinv.waiting_lt hr) hrun
  refine ⟨hs.1.withScheduler (hinv.assignSlot hw hf) (by rw [Scheduler.assignSlot_eq])
    (fun r' hr' => ?_) ?_, ?_⟩
  · rw [Scheduler.assignSlot_eq] at hr' ⊢
    by_cases he : r' = r
    · subst he
      simp only [Function.update_self]
      exact hs.1.prompts r' hr'
    · simp only [Function.update_of_ne he]
      exact hs.1.prompts r' hr'
  · rintro i ⟨r', hr', hi⟩
    have he : r' ≠ r := by
      rintro rfl
      exact hrun hr'
    refine ⟨r', ?_, ?_⟩
    · rw [Scheduler.assignSlot_eq, ← Multiset.mem_coe, OrderedDict.values_insert_of_notMem hkey]
      exact Multiset.mem_cons_of_mem hr'
    · rw [Scheduler.assignSlot_eq]
      simp only [Function.update_of_ne he]
      exact hi
  · rw [Scheduler.assignSlot_eq]
    exact hs.2

/-- **A step keeps the slots without a running request clear**, on either exit. -/
theorem step_tidy (hmodel : ∀ tokenIds inputLens slots,
      KVCacheType.OnlyAppends slots (model.call tokenIds inputLens slots))
    (hash : CollisionFree chain PrefixCache.rootHash P) :
    Exec.Keeps (KnowsTidy chain P model.config.blockSize k) (step chain model) := by
  refine Exec.Keeps.get_bind fun e h => Exec.Keeps.ite (fun _ => Exec.Keeps.pure false)
    (fun _ => ?_) e h
  refine Exec.Keeps.bind ensureCache_tidy fun _ e₁ h₁ => ?_
  obtain ⟨result, hsched, hprefill, hdecode⟩ := Scheduler.schedule_run e₁.scheduler
  rw [Exec.after_bind, onScheduler_run hsched]
  have h₂ := assignWaitingToSlots_tidy h₁
  have hlt : ∀ r ∈ e₁.scheduler.assignWaitingToSlots.running.values, r < k := fun r hr =>
    h₂.2 ▸ h₂.1.scheduler.running_lt hr
  have hfirst : Exec.Keeps (KnowsTidy chain P model.config.blockSize k)
      (prefillBatch chain model result.prefillRequests) :=
    Exec.Keeps.ite (fun _ => runPrefill_tidy hmodel hash fun r hr =>
      hlt r (List.mem_filter.mp (hprefill.subset hr)).1) fun _ => Exec.Keeps.pure ()
  have hsecond : Exec.Keeps (KnowsTidy chain P model.config.blockSize k)
      (decodeBatch model result.decodeRequests) :=
    Exec.Keeps.ite (fun _ => runDecode_tidy hmodel hash fun r hr =>
      hlt r (List.mem_filter.mp (hdecode.subset hr)).1) fun _ => Exec.Keeps.pure ()
  exact hfirst.bind (fun _ => hsecond.bind fun _ => Exec.Keeps.pure true) _ h₂

/-! ## Runs -/

/-- Every slot that is free holds nothing, a cached prefix can be loaded into it, and the blocks
of the tables belong to running requests. -/
structure Clean (chain : Int → List Nat → Int) (e : Engine Row) (p : PagedKVCache Nat Row) :
    Prop where
  free : ∀ b ∈ e.scheduler.freeSlots, p.tables b = [] ∧ p.pos b = 0
  imports : ∀ b ∈ e.scheduler.freeSlots, ∀ tokenIds,
    Exec.Returns (PagedKVCache.tryLoadPrefix chain (b : Int) tokenIds) p
  owned : ∀ b < p.batchSize, ∀ blk ∈ p.tables b,
    ∃ r ∈ e.scheduler.running.values, (e.scheduler.requests r).batchIdx = some b

/-- With a paged cache, the free slots are clean. -/
def FreeSlotsClean (chain : Int → List Nat → Int) (e : Engine Row) : Prop :=
  ∀ p, e.cache = some (.paged p) → Clean chain e p

omit [LinearOrder Score] in
/-- A free slot is not the slot of a running request. -/
theorem free_not_busy {s : Scheduler Nat} (h : Inv s) {b : Nat} (hb : b ∈ s.freeSlots) :
    b ∉ busySlots s := by
  rintro ⟨r, hr, hi⟩
  have hnd : s.slots.Nodup := by
    rw [h.slots]
    exact (Multiset.nodup_range _).map (Option.some_injective Nat)
  unfold Scheduler.slots at hnd
  exact Multiset.disjoint_left.mp (Multiset.nodup_add.mp hnd).2.2
    (Multiset.mem_coe.mpr (List.mem_map.mpr ⟨b, hb, rfl⟩))
    (Multiset.mem_coe.mpr (List.mem_map.mpr ⟨r, hr, hi⟩))

omit [LinearOrder Score] in
theorem Tidy.clean (h : Tidy chain P blockSize e) : FreeSlotsClean chain e := by
  intro p hp
  have hclear := h.cache _ hp p rfl
  refine ⟨fun b hb => hclear.clear b (free_not_busy h.scheduler hb), fun b hb tokenIds => ?_,
    fun b _ blk hblk => ?_⟩
  · exact hclear.tryLoadPrefix_returns (h.scheduler.free_lt hb)
      (hclear.clear b (free_not_busy h.scheduler hb)).1 tokenIds
  · by_contra hnone
    rw [(hclear.clear b hnone).1] at hblk
    cases hblk

/-- A cancelled request that runs on a paged cache has nothing in its slot. -/
def CancelsClear (e : Engine Row) : Op → Prop
  | .cancelRequest requestId _ => ∀ p, e.cache = some (.paged p) →
    ∀ r ∈ e.scheduler.running.values, (e.scheduler.requests r).requestId = requestId →
      ∀ b, (e.scheduler.requests r).batchIdx = some b → p.tables b = [] ∧ p.pos b = 0
  | _ => True

/-- A new request has an id of its own, as `uuid4` gives it. -/
def NewId (e : Engine Row) : Op → Prop
  | .addRequest requestId _ _ =>
    ∀ r < e.scheduler.created, (e.scheduler.requests r).requestId ≠ requestId
  | _ => True

instance (e : Engine Row) (op : Op) : Decidable (NewId e op) :=
  match op with
  | .addRequest requestId _ _ => inferInstanceAs (Decidable (∀ r < e.scheduler.created,
      (e.scheduler.requests r).requestId ≠ requestId))
  | .step | .cancelRequest .. | .reconfigure .. | .registerTokenCallback _
  | .unregisterTokenCallback _ => inferInstanceAs (Decidable True)

omit [LinearOrder Score] in
/-- **A cancellation leaves the free slots clean exactly where it finds the slot clear.** -/
theorem cancelRequest_clean_iff (h : Tidy chain P blockSize e) (requestId status : String) :
    (FreeSlotsClean chain (Exec.after (cancelRequest requestId status) e) ↔
      CancelsClear e (.cancelRequest requestId status)) ∧
    (CancelsClear e (.cancelRequest requestId status) →
      Tidy chain P blockSize (Exec.after (cancelRequest requestId status) e)) := by
  suffices htidy : CancelsClear e (.cancelRequest requestId status) →
      Tidy chain P blockSize (Exec.after (cancelRequest requestId status) e) by
    refine ⟨⟨fun hclean => ?_, fun hc => (htidy hc).clean⟩, htidy⟩
    intro p hp r hr hid b hb
    rcases cancelRequest_run h.scheduler requestId status with
      ⟨r', hr', hid', hrun⟩ | ⟨r', hr', b', hid', hb', hrun⟩ | ⟨-, hk, -⟩
    · -- a waiting request has that id, so no running one has it
      have he := h.scheduler.ids r (h.scheduler.running_lt hr) r' (h.scheduler.waiting_lt hr')
        (hid.trans hid'.symm)
      exact absurd (he ▸ hr') (Scheduler.running_notMem h.scheduler hr).1
    · have he := h.scheduler.ids r (h.scheduler.running_lt hr) r' (h.scheduler.running_lt hr')
        (hid.trans hid'.symm)
      subst he
      cases hb.symm.trans hb'
      rw [Exec.after_of_ok hrun] at hclean
      exact (hclean p hp).free b (List.mem_append.mpr (Or.inr (List.mem_singleton.mpr rfl)))
    · exact absurd (OrderedDict.mem_keys_of_mem (hid ▸ h.scheduler.running_entry hr)) hk
  intro hc
  rcases cancelRequest_run h.scheduler requestId status with
    ⟨r, hr, -, hrun⟩ | ⟨r, hr, b, hid, hb, hrun⟩ | ⟨-, -, err, hrun⟩
  · rw [Exec.after_of_ok hrun]
    have hnr := (Scheduler.waiting_notMem h.scheduler hr).1
    refine h.withScheduler (h.scheduler.dropWaiting hr status) rfl
      (h.prompts_update rfl) ?_
    rintro b ⟨r', hr', hb⟩
    have he : r' ≠ r := by
      rintro rfl
      exact hnr hr'
    exact ⟨r', hr',
      (congrArg InferenceRequest.batchIdx (Function.update_of_ne he _ _)).trans hb⟩
  · rw [Exec.after_of_ok hrun]
    have hbusy := h.busy_leave hr hb (s := e.scheduler.failRunning r b status) rfl
      fun r' hne => Function.update_of_ne hne _ _
    refine ⟨h.scheduler.failRunning hr hb status, h.concurrency, h.prompts_update rfl, ?_⟩
    intro c hcache p hp
    subst hp
    have hclear := h.cache _ hcache p rfl
    refine ⟨hclear.sound, hclear.blockSize, hclear.room, fun i hi => ?_⟩
    by_cases he : i = b
    · subst he
      -- the slot it leaves is free now, and must be clear already
      exact hc p hcache r hr hid i hb
    · exact hclear.clear i fun hm => hi (hbusy ⟨hm, he⟩)
  · rw [Exec.after_of_error hrun]
    exact h

/-- **One call**: the free slots are clean after it exactly where `CancelsClear` holds before. -/
theorem next_clean_iff (hmodel : ∀ tokenIds inputLens slots,
      KVCacheType.OnlyAppends slots (model.call tokenIds inputLens slots))
    (hash : CollisionFree chain PrefixCache.rootHash P)
    (h : Tidy chain P model.config.blockSize e) {op : Op} (hid : NewId e op)
    (hplay : ∀ requestId promptTokenIds maxNewTokens,
      op = .addRequest requestId promptTokenIds maxNewTokens →
      fullBlocks model.config.blockSize promptTokenIds ∈ P) :
    (FreeSlotsClean chain (Engine.next chain model e op) ↔ CancelsClear e op) ∧
      (CancelsClear e op → Tidy chain P model.config.blockSize (Engine.next chain model e op)) := by
  have hkept : (∀ requestId status, op ≠ .cancelRequest requestId status) →
      Tidy chain P model.config.blockSize (Engine.next chain model e op) →
      (FreeSlotsClean chain (Engine.next chain model e op) ↔ CancelsClear e op) ∧
        (CancelsClear e op →
          Tidy chain P model.config.blockSize (Engine.next chain model e op)) := by
    intro hop htidy
    refine ⟨iff_of_true htidy.clean ?_, fun _ => htidy⟩
    cases op with
    | cancelRequest requestId status => exact absurd rfl (hop requestId status)
    | _ => trivial
  cases op with
  | addRequest requestId promptTokenIds maxNewTokens =>
    refine hkept (fun _ _ h => by cases h) ?_
    rw [Engine.next, call, Exec.after_dropped, Exec.after_of_ok (addRequest_run e _ _ _)]
    set q := e.newRequest requestId promptTokenIds maxNewTokens
    refine h.withScheduler (h.scheduler.add (q := q) ⟨rfl, rfl, rfl⟩ hid) rfl (fun r hr => ?_) ?_
    · rcases Nat.lt_succ_iff_lt_or_eq.mp hr with hlt | rfl
      · rw [withRequest_old e.scheduler q hlt]
        exact h.prompts r hlt
      · rw [withRequest_new]
        exact hplay _ _ _ rfl
    · rintro b ⟨r, hr, hb⟩
      refine ⟨r, hr, ?_⟩
      rw [withRequest_old e.scheduler q (h.scheduler.running_lt hr)]
      exact hb
  | step =>
    refine hkept (fun _ _ h => by cases h) ?_
    rw [Engine.next, call, Exec.after_dropped]
    exact (step_tidy hmodel hash e ⟨h, rfl⟩).1
  | cancelRequest requestId status =>
    rw [Engine.next, call, Exec.after_dropped]
    exact cancelRequest_clean_iff h requestId status
  | reconfigure prefillChunkSize maxTokensPerStep maxConcurrentRequests usePaged usePrefix =>
    refine hkept (fun _ _ h => by cases h) ?_
    rw [Engine.next, call, Exec.after_dropped]
    refine reconfigure_keeps (J := Tidy chain P model.config.blockSize)
      (fun _ h => ⟨h.scheduler, h.concurrency⟩) (fun _ _ h => { h with })
      (fun _ _ _ h => { h with }) (fun _ _ _ h => { h with }) (fun _ _ h => { h with })
      (fun e s n h hs => ?_) e h
    refine ⟨hs.inv, hs.concurrency, fun r hr => ?_, fun c hc => ?_⟩
    · simp only [hs.queues.requests]
      exact h.prompts r (hs.queues.created ▸ hr)
    · have hsome : e.cache.isSome = true := by rw [show e.cache = some c from hc]; rfl
      refine (h.cache c hc).mono ?_ (hs.fewer hsome)
      rintro b ⟨r, hr, hb⟩
      exact ⟨r, by rw [hs.queues.running]; exact hr, by rw [hs.queues.requests]; exact hb⟩
  | registerTokenCallback requestId => exact hkept (fun _ _ h => by cases h) { h with }
  | unregisterTokenCallback requestId => exact hkept (fun _ _ h => by cases h) { h with }

omit [LinearOrder Score] in
theorem new_tidy {maxConcurrentRequests prefillChunkSize maxTokensPerStep : Int}
    {usePagedKvCache usePrefixCache : Bool}
    (h : new model maxConcurrentRequests prefillChunkSize maxTokensPerStep usePagedKvCache
      usePrefixCache = .ok e) : Tidy chain P blockSize e := by
  unfold new at h
  cases hs : (Scheduler.new maxConcurrentRequests maxTokensPerStep :
      Except PyError (Scheduler Nat)) with
  | error err => rw [hs] at h; cases h
  | ok s =>
    rw [hs] at h
    cases h
    have hinv := Scheduler.new_inv hs
    unfold Scheduler.new at hs
    split at hs
    · cases hs
    · split at hs
      · cases hs
      · cases hs
        exact ⟨hinv, by simp only; omega, nofun, nofun⟩

/-- **The free slots are clean in every state of a run exactly as long as every cancellation of a
running request finds its slot clear.** -/
theorem freeSlotsClean_iff {model : InferenceModel Row Score}
    (hmodel : ∀ tokenIds inputLens slots,
      KVCacheType.OnlyAppends slots (model.call tokenIds inputLens slots))
    {maxConcurrentRequests prefillChunkSize maxTokensPerStep : Int}
    {usePagedKvCache usePrefixCache : Bool} {e : Engine Row}
    (hnew : new model maxConcurrentRequests prefillChunkSize maxTokensPerStep usePagedKvCache
      usePrefixCache = .ok e) {ops : List Op}
    (hash : CollisionFree chain PrefixCache.rootHash (promptChains model.config.blockSize ops))
    (hids : Exec.Along NewId (Engine.next chain model) e ops) :
    Exec.Along (fun e op => FreeSlotsClean chain (Engine.next chain model e op))
        (Engine.next chain model) e ops ↔
      Exec.Along CancelsClear (Engine.next chain model) e ops := by
  refine Exec.Along.congr (J := Tidy chain (promptChains model.config.blockSize ops)
      model.config.blockSize) (fun e op h hop => next_clean_iff hmodel hash h hop.1 hop.2)
    (new_tidy hnew) (hids.and_mem fun op hop requestId promptTokenIds maxNewTokens he => ?_)
  exact List.mem_map_of_mem (mem_prompts (he ▸ hop))

/-! ## A cancelled request -/

omit [LinearOrder Score] in
theorem recallModel_onlyAppends (config : ModelConfig) (logits : List Nat → List Score)
    (tokenIds : List (List Nat)) (inputLens : Option (List Nat)) (slots : List Nat) :
    KVCacheType.OnlyAppends slots ((recallModel config logits).call tokenIds inputLens slots) := by
  refine .bind (.mapM slots fun b _ => .of_reads (KVCacheType.get_reads _ _)) fun stored => ?_
  refine .bind (.forM _ fun l _ => .forM _ fun b hb => ?_) fun _ => .of_reads fun _ => rfl
  exact KVCacheType.onlyAppends_append hb _ _ _

/-- The block table of a slot of a paged cache. -/
def slotTable (e : Engine Row) (b : Nat) : List Int :=
  match e.cache with
  | some (.paged p) => p.tables b
  | _ => []

omit [LinearOrder Score] in
theorem FreeSlotsClean.slotTable_eq (h : FreeSlotsClean chain e) {b : Nat}
    (hb : b ∈ e.scheduler.freeSlots) : slotTable e b = [] := by
  unfold slotTable
  split
  · next p hp => exact ((h p hp).free b hb).1
  · rfl

/-- The only slot: one request waits and is cancelled while another one is served there. -/
def waitingCancelled : List Op :=
  [.addRequest "a" [1, 2, 3, 4] 2, .addRequest "b" [1, 2, 3, 4, 5] 1, .step,
    .cancelRequest "b" "timeout", .step, .addRequest "c" [1, 2, 3, 4, 5] 1, .step]

/-- The only slot: a request is cancelled there after its prompt was registered, and the next one
starts with the same blocks. -/
def runningCancelled : List Op :=
  [.addRequest "a" [1, 2, 3, 4] 2, .step, .cancelRequest "a" "timeout",
    .addRequest "b" [1, 2, 3, 4, 5] 1, .step]

/-- **The slot of the cancelled request is free and still has its blocks.** -/
theorem runningCancelled_notClean :
    ∃ e, new (recallModel ⟨1, 8, 0, 2⟩ sumScores) 1 4 8 true true = .ok e ∧
      ¬Exec.Along (fun e op => FreeSlotsClean PagedKVCache.sumChain
          (Engine.next PagedKVCache.sumChain (recallModel ⟨1, 8, 0, 2⟩ sumScores) e op))
        (Engine.next PagedKVCache.sumChain (recallModel ⟨1, 8, 0, 2⟩ sumScores)) e
        runningCancelled := by
  refine ⟨_, rfl, fun h => ?_⟩
  obtain ⟨-, -, hcancel, -⟩ := h
  have htable := hcancel.slotTable_eq (b := 0) (by decide +kernel)
  revert htable
  decide +kernel

theorem waitingCancelled_clean :
    ∃ e, new (recallModel ⟨1, 8, 0, 2⟩ sumScores) 1 4 8 true true = .ok e ∧
      Exec.Along (fun e op => FreeSlotsClean PagedKVCache.sumChain
          (Engine.next PagedKVCache.sumChain (recallModel ⟨1, 8, 0, 2⟩ sumScores) e op))
        (Engine.next PagedKVCache.sumChain (recallModel ⟨1, 8, 0, 2⟩ sumScores)) e
        waitingCancelled := by
  obtain ⟨e, h⟩ : ∃ e, new (recallModel ⟨1, 8, 0, 2⟩ sumScores) 1 4 8 true true = .ok e := ⟨_, rfl⟩
  have hash : CollisionFree PagedKVCache.sumChain PrefixCache.rootHash
      (promptChains 2 waitingCancelled) :=
    collisionFree_of_inits (fun _ hc => hc) (by decide)
  refine ⟨e, h, (freeSlotsClean_iff (recallModel_onlyAppends _ _) h hash ?_).mpr ?_⟩
  · cases h
    decide +kernel
  · cases h
    refine ⟨trivial, trivial, trivial, fun p _ r hr hid => ?_, trivial, trivial, trivial, trivial⟩
    -- the request that runs is the other one
    refine absurd hid ?_
    revert r
    decide +kernel

end Engine

end Nifre
