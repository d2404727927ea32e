import Nifre.Properties.Serving

/-!
# Requests and slots of the engine

`Coherent` relates what the slots of the cache hold to how far the running requests are. The parts
of a step keep it: `schedule`, a forward pass, and the handling of each token.
-/

namespace Nifre

open Scheduler (Inv)

/-- A slot has one running request. -/
theorem Scheduler.Inv.apart {s : Scheduler Nat} (h : Inv s) {r r' : Ref} (hr : r ∈ s.running.values)
    (hr' : r' ∈ s.running.values) (he : (s.requests r).batchIdx = (s.requests r').batchIdx) :
    r = r' := by
  have hnd : s.slots.Nodup := by
    rw [h.slots]
    exact (Multiset.nodup_range _).map (Option.some_injective Nat)
  have hrun : (s.running.values.map fun r => (s.requests r).batchIdx).Nodup :=
    Multiset.coe_nodup.mp (Multiset.nodup_of_le (Multiset.le_add_left _ _) hnd)
  exact List.inj_on_of_nodup_map hrun hr hr' he

namespace Engine

variable {Row Score : Type} {chain : Int → List Nat → Int}
  {model : InferenceModel Row Score} {Holds : KVCacheType Row → (Nat → List Nat) → Prop}
  {InPlay : List Nat → Prop} {Allowed : Bool → Prop} {next : List Nat → Nat}

/-! ## The invariant -/

/-- The running requests outside `batch` are between two steps, with their tokens in their slots,
and the completed ones were served right. -/
structure Coherent (model : InferenceModel Row Score)
    (Holds : KVCacheType Row → (Nat → List Nat) → Prop) (InPlay : List Nat → Prop)
    (Allowed : Bool → Prop) (next : List Nat → Nat) (e : Engine Row) (held : Nat → List Nat)
    (batch : List Ref) : Prop where
  scheduler : Inv e.scheduler
  concurrency : e.maxConcurrentRequests = e.scheduler.maxConcurrentRequests
  positive : 0 < e.scheduler.maxConcurrentRequests
  chunk : 1 ≤ e.prefillChunkSize
  allowed : Allowed e.usePrefixCache
  cache : ∀ c, e.cache = some c →
    e.scheduler.maxConcurrentRequests ≤ c.batchSize ∧ Holds c held
  noCache : e.cache = none → e.scheduler.running.values = []
  job : ∀ r < e.scheduler.created, Job model.config.maxSeqLen InPlay (e.scheduler.requests r)
  waiting : ∀ r ∈ e.scheduler.waiting, (e.scheduler.requests r).slotPrepared = false ∧
    (e.scheduler.requests r).prefillOffset = 0
  running : ∀ r ∈ e.scheduler.running.values, r ∉ batch → ∀ b,
    (e.scheduler.requests r).batchIdx = some b → Phase next (e.scheduler.requests r) (held b)
  completed : ∀ r ∈ e.scheduler.completed.values,
    Greedy next (e.scheduler.requests r).promptTokenIds (e.scheduler.requests r).outputTokenIds

variable {e : Engine Row} {held : Nat → List Nat} {batch : List Ref}

/-- While a request runs there is a cache, and it has the request's slot. -/
theorem Coherent.running_cache (h : Coherent model Holds InPlay Allowed next e held batch) {r : Ref}
    (hr : r ∈ e.scheduler.running.values) : ∃ c, e.cache = some c ∧ Holds c held ∧
      ∀ b, (e.scheduler.requests r).batchIdx = some b → b < c.batchSize := by
  cases hc : e.cache with
  | none =>
    rw [h.noCache hc] at hr
    cases hr
  | some c =>
    obtain ⟨hle, hh⟩ := h.cache c hc
    exact ⟨c, rfl, hh, fun b hb =>
      Nat.lt_of_lt_of_le (h.scheduler.running_slot_lt hr hb) hle⟩

/-- A batch may be taken from the running requests. -/
theorem Coherent.mono (h : Coherent model Holds InPlay Allowed next e held batch) {batch' : List Ref}
    (hsub : ∀ r ∈ batch, r ∈ batch') : Coherent model Holds InPlay Allowed next e held batch' :=
  { h with running := fun r hr hn b hb => h.running r hr (fun hm => hn (hsub r hm)) b hb }

/-- A request of the batch that is between two steps again leaves it. -/
theorem Coherent.settle {r : Ref} (h : Coherent model Holds InPlay Allowed next e held (r :: batch))
    (hphase : ∀ b, (e.scheduler.requests r).batchIdx = some b →
      Phase next (e.scheduler.requests r) (held b)) :
    Coherent model Holds InPlay Allowed next e held batch where
  __ := h
  running := by
    intro r' hr' hn b hb
    by_cases he : r' = r
    · subst he
      exact hphase b hb
    · exact h.running r' hr' (by simp [he, hn]) b hb

/-- A request of the batch that runs no longer leaves it. -/
theorem Coherent.leave {r : Ref} (h : Coherent model Holds InPlay Allowed next e held (r :: batch))
    (hr : r ∉ e.scheduler.running.values) :
    Coherent model Holds InPlay Allowed next e held batch where
  __ := h
  running := by
    intro r' hr' hn b hb
    have he : r' ≠ r := by
      rintro rfl
      exact hr hr'
    exact h.running r' hr' (by simp [he, hn]) b hb

/-- The cache changed, but not what the slots hold. -/
theorem Coherent.withCache (h : Coherent model Holds InPlay Allowed next e held batch)
    {c c' : KVCacheType Row} (hc : e.cache = some c) (hsize : c'.batchSize = c.batchSize)
    (hh : Holds c' held) :
    Coherent model Holds InPlay Allowed next { e with cache := some c' } held batch where
  __ := h
  cache := by
    intro c'' hc''
    cases hc''
    exact ⟨hsize ▸ (h.cache c hc).1, hh⟩
  noCache := nofun

/-- A slot without a running request is cleared. -/
theorem Coherent.cleared (h : Coherent model Holds InPlay Allowed next e held batch)
    {c c' : KVCacheType Row} (hc : e.cache = some c) (hsize : c'.batchSize = c.batchSize) {b : Nat}
    (hb : ∀ r ∈ e.scheduler.running.values, (e.scheduler.requests r).batchIdx ≠ some b)
    (hh : Holds c' (Function.update held b [])) :
    Coherent model Holds InPlay Allowed next { e with cache := some c' }
      (Function.update held b []) batch where
  __ := h
  cache := by
    intro c'' hc''
    cases hc''
    exact ⟨hsize ▸ (h.cache c hc).1, hh⟩
  noCache := nofun
  running := by
    intro r hr hn i hi
    have hne : i ≠ b := fun he => hb r hr (he ▸ hi)
    rw [Function.update_of_ne hne]
    exact h.running r hr hn i hi

/-- A request of the batch changes in its state and output, and stays in its slot. -/
theorem Coherent.progress {r : Ref} (h : Coherent model Holds InPlay Allowed next e held batch)
    (hr : r ∈ e.scheduler.running.values) (hbatch : r ∈ batch) {q : InferenceRequest Nat}
    (hinv : Inv { e.scheduler with requests := Function.update e.scheduler.requests r q })
    (hjob : Job model.config.maxSeqLen InPlay q) :
    Coherent model Holds InPlay Allowed next
      { e with scheduler :=
        { e.scheduler with requests := Function.update e.scheduler.requests r q } } held batch := by
  obtain ⟨hw, hc, -⟩ := Scheduler.running_notMem h.scheduler hr
  refine { h with
    scheduler := hinv
    job := ?_
    waiting := ?_
    running := ?_
    completed := ?_ }
  · intro r' hr'
    by_cases he : r' = r
    · subst he
      simp only [Function.update_self]
      exact hjob
    · simp only [Function.update_of_ne he]
      exact h.job r' hr'
  · intro r' hr'
    have hreq := Scheduler.update_of_mem (s := e.scheduler) hw hr' q
    simp only [hreq]
    exact h.waiting r' hr'
  · intro r' hr' hn b hb
    have he : r' ≠ r := by
      rintro rfl
      exact hn hbatch
    simp only [Function.update_of_ne he] at hb ⊢
    exact h.running r' hr' hn b hb
  · intro r' hr'
    have hreq := Scheduler.update_of_mem (s := e.scheduler) hc hr' q
    simp only [hreq]
    exact h.completed r' hr'

/-- A request of the batch completes, and nothing clears its slot yet. -/
theorem Coherent.completeWith {r : Ref} (h : Coherent model Holds InPlay Allowed next e held batch)
    (hr : r ∈ e.scheduler.running.values) (hbatch : r ∈ batch) {b token : Nat}
    (hinv : Inv (e.scheduler.completeWith r b token))
    (hgreedy : Greedy next (e.scheduler.requests r).promptTokenIds
      ((e.scheduler.requests r).outputTokenIds ++ [token])) :
    Coherent model Holds InPlay Allowed next
      { e with scheduler := e.scheduler.completeWith r b token } held batch := by
  obtain ⟨hw, hc, -⟩ := Scheduler.running_notMem h.scheduler hr
  have hother : ∀ r', r' ≠ r →
      (e.scheduler.completeWith r b token).requests r' = e.scheduler.requests r' :=
    fun r' hne => Function.update_of_ne hne _ _
  have hself : (e.scheduler.completeWith r b token).requests r
      = { Scheduler.pushToken (e.scheduler.requests r) token with
          state := .finished, batchIdx := none } := Function.update_self _ _ _
  obtain ⟨c, hcache, -, -⟩ := h.running_cache hr
  refine { h with
    scheduler := hinv
    noCache := ?_
    job := ?_
    waiting := ?_
    running := ?_
    completed := ?_ }
  · intro hnone
    exact absurd (hcache.symm.trans hnone) nofun
  · intro r' hr'
    by_cases he : r' = r
    · subst he
      have hjob := h.job r' hr'
      rw [hself]
      exact ⟨hjob.prompt, hjob.maxNewTokens, hjob.fits, hjob.chunk, hjob.inPlay⟩
    · rw [hother r' he]
      exact h.job r' hr'
  · intro r' hr'
    have he : r' ≠ r := by
      rintro rfl
      exact hw hr'
    rw [hother r' he]
    exact h.waiting r' hr'
  · intro r' hr' hn i hi
    obtain ⟨hm, he⟩ := (Scheduler.mem_erase_values h.scheduler hr).mp hr'
    rw [hother r' he] at hi ⊢
    exact h.running r' hm hn i hi
  · intro r' hr'
    by_cases he : r' = r
    · subst he
      rw [hself]
      exact hgreedy
    · obtain ⟨id, hid⟩ := OrderedDict.mem_values_iff.mp hr'
      rw [hother r' he]
      refine h.completed r' (OrderedDict.mem_values_iff.mpr ⟨id, ?_⟩)
      exact (OrderedDict.mem_insert.mp hid).elim (fun hsame => absurd hsame.2 he) And.right

/-! ## Calls on the parts of the engine -/

theorem onScheduler_run {α : Type} {m : Scheduler.M Nat α} {a : α} {s : Scheduler Nat}
    (h : m.run e.scheduler = .ok a s) :
    (onScheduler m).run e = .ok a { e with scheduler := s } := Exec.run_within_ok h

theorem onScheduler_error {α : Type} {m : Scheduler.M Nat α} {err : PyError} {s : Scheduler Nat}
    (h : m.run e.scheduler = .error err s) :
    (onScheduler m).run e = .error err { e with scheduler := s } := Exec.run_within_error h

theorem onCache_run {α : Type} {m : KVCacheType.M Row α} {a : α} {c c' : KVCacheType Row}
    (hc : e.cache = some c) (h : m.run c = .ok a c') :
    (onCache m).run e = .ok a { e with cache := some c' } := by
  rw [onCache, Exec.run_bind_ok (EStateM.run_get e)]
  simp only [hc]
  exact Exec.run_within_ok h

/-! ## Handling a token -/

variable [LinearOrder Score]

/-- What handling request `r` in slot `b` leaves of the other requests and slots. -/
structure Others (r : Ref) (b : Nat) (e e' : Engine Row) (held held' : Nat → List Nat) : Prop where
  running : ∀ r' ∈ e.scheduler.running.values, r' ≠ r → r' ∈ e'.scheduler.running.values
  requests : ∀ r', r' ≠ r → e'.scheduler.requests r' = e.scheduler.requests r'
  held : ∀ i, i ≠ b → held' i = held i

/-- A request that decodes and has everything in its slot. -/
structure Awaiting (next : List Nat → Nat) (q : InferenceRequest Nat) (held : List Nat) : Prop where
  prepared : q.slotPrepared = true
  offset : q.prefillOffset = q.promptTokenIds.length
  state : q.state = .decode
  held : held = q.promptTokenIds ++ q.outputTokenIds
  greedy : Greedy next q.promptTokenIds q.outputTokenIds

theorem emitToken_run (requestId : String) (tokenId : Nat) (e : Engine Row) :
    ∃ emitted, (emitToken requestId tokenId).run e = .ok () { e with emitted := emitted } := by
  unfold emitToken
  rw [Exec.run_bind_ok (EStateM.run_get e)]
  split
  · exact ⟨_, rfl⟩
  · exact ⟨e.emitted, rfl⟩

theorem releaseCacheSlot_running {r : Ref} (hr : (e.scheduler.requests r).state ≠ .finished)
    (batchIdx : Option Nat) : (releaseCacheSlot batchIdx r).run e = .ok () e := by
  rw [releaseCacheSlot, Exec.run_bind_ok (EStateM.run_get e)]
  simp only [if_pos hr]
  rfl

theorem releaseCacheSlot_finished {r : Ref} (hr : (e.scheduler.requests r).state = .finished)
    {b : Nat} {c c' : KVCacheType Row} (hc : e.cache = some c)
    (h : (KVCacheType.resetSlot (b : Int)).run c = .ok () c') :
    (releaseCacheSlot (some b) r).run e = .ok () { e with cache := some c' } := by
  rw [releaseCacheSlot, Exec.run_bind_ok (EStateM.run_get e)]
  simp only [if_neg (not_not.mpr hr)]
  rw [hc]
  exact onCache_run hc h

/-- **A token for a request of the batch**: it goes on decoding, or completes and its slot is
cleared. -/
theorem acceptToken_run (hserves : Serves chain model Holds InPlay Allowed next) {r : Ref} {b : Nat}
    (h : Coherent model Holds InPlay Allowed next e held (r :: batch))
    (hr : r ∈ e.scheduler.running.values) (hb : (e.scheduler.requests r).batchIdx = some b)
    (hq : Awaiting next (e.scheduler.requests r) (held b)) (requestId : String) :
    ∃ e' held', (do
        onScheduler (Scheduler.markDecodeDone r
          (next ((e.scheduler.requests r).promptTokenIds ++ (e.scheduler.requests r).outputTokenIds)))
        emitToken requestId
          (next ((e.scheduler.requests r).promptTokenIds ++ (e.scheduler.requests r).outputTokenIds))
        releaseCacheSlot (some b) r).run e = .ok () e' ∧
      Coherent model Holds InPlay Allowed next e' held' batch ∧ Others r b e e' held held' := by
  set token := next ((e.scheduler.requests r).promptTokenIds ++ (e.scheduler.requests r).outputTokenIds)
    with htoken
  obtain ⟨b', hb', hrun⟩ := Scheduler.markDecodeDone_run h.scheduler hr hq.state token
  rw [hb] at hb'
  cases hb'
  obtain ⟨c, hc, hh, hlt⟩ := h.running_cache hr
  have hjob := h.job r (h.scheduler.running_lt hr)
  have hgreedy : Greedy next (e.scheduler.requests r).promptTokenIds
      ((e.scheduler.requests r).outputTokenIds ++ [token]) := hq.greedy.push
  by_cases hlast : (e.scheduler.requests r).maxNewTokens
      ≤ ((e.scheduler.requests r).numGenerated + 1 : Nat)
  · rw [if_pos hlast] at hrun
    set s' := e.scheduler.completeWith r b token with hs'
    have hinv : Inv s' := h.scheduler.completeWith hr hq.state hb token hlast
    have hrequest : (s'.requests r).state = .finished := by simp [hs', Scheduler.completeWith]
    have hgone : r ∉ s'.running.values := fun hm =>
      ((Scheduler.mem_erase_values h.scheduler hr).mp hm).2 rfl
    have hother : ∀ r', r' ≠ r → s'.requests r' = e.scheduler.requests r' :=
      fun r' hne => Function.update_of_ne hne _ _
    -- no other request runs in the slot
    have hslot : ∀ r' ∈ s'.running.values, (s'.requests r').batchIdx ≠ some b := by
      intro r' hr' he
      obtain ⟨hm, hne⟩ := (Scheduler.mem_erase_values h.scheduler hr).mp hr'
      rw [hother r' hne] at he
      exact hne (h.scheduler.apart hm hr (he.trans hb.symm))
    obtain ⟨emitted, hemit⟩ := emitToken_run requestId token { e with scheduler := s' }
    obtain ⟨c', hreset, hsize, hh'⟩ := hserves.resetSlot hh (hlt b hb)
    have hleft := (h.completeWith hr List.mem_cons_self hinv hgreedy).leave hgone
    have hco := hleft.cleared hc hsize hslot hh'
    refine ⟨{ e with scheduler := s', emitted := emitted, cache := some c' }, _, ?_,
      { hco with }, ?_⟩
    · rw [Exec.run_bind_ok (onScheduler_run hrun), Exec.run_bind_ok hemit]
      exact releaseCacheSlot_finished (e := { e with scheduler := s', emitted := emitted })
        hrequest hc hreset
    · exact ⟨fun r' hr' hne => (Scheduler.mem_erase_values h.scheduler hr).mpr ⟨hr', hne⟩, hother,
        fun i hi => Function.update_of_ne hi _ _⟩
  · rw [if_neg hlast] at hrun
    set s' : Scheduler Nat := { e.scheduler with
      requests := Function.update e.scheduler.requests r
        (Scheduler.pushToken (e.scheduler.requests r) token) } with hs'
    obtain ⟨emitted, hemit⟩ := emitToken_run requestId token { e with scheduler := s' }
    have hrequest : s'.requests r = Scheduler.pushToken (e.scheduler.requests r) token := by
      simp [hs']
    refine ⟨{ e with scheduler := s', emitted := emitted }, held, ?_, ?_, ?_⟩
    · have hstate : (s'.requests r).state ≠ .finished := by
        rw [hrequest]
        show (e.scheduler.requests r).state ≠ .finished
        rw [hq.state]
        decide
      rw [Exec.run_bind_ok (onScheduler_run hrun), Exec.run_bind_ok hemit]
      exact releaseCacheSlot_running (e := { e with scheduler := s', emitted := emitted }) hstate _
    · have hp : Coherent model Holds InPlay Allowed next { e with scheduler := s' } held
          (r :: batch) :=
        h.progress hr List.mem_cons_self (h.scheduler.pushToken hr hq.state token hlast)
          ⟨hjob.prompt, hjob.maxNewTokens, hjob.fits, hjob.chunk, hjob.inPlay⟩
      have hset := hp.settle fun i hi => by
        have hib : i = b := by
          rw [hrequest] at hi
          exact Option.some.inj (hi.symm.trans hb)
        subst hib
        refine .decoding ?_
        rw [hrequest]
        refine ⟨hq.prepared, hq.offset, hq.state, by simp [Scheduler.pushToken], ?_, hgreedy⟩
        rw [hq.held]
        simp [Scheduler.pushToken]
      exact { hset with }
    · exact ⟨fun r' hr' _ => hr', fun r' hne => Function.update_of_ne hne _ _, fun _ _ => rfl⟩

/-! ## Prefill -/

theorem registerComplete_run (hserves : Serves chain model Holds InPlay Allowed next) {r : Ref}
    {b : Nat} (h : Coherent model Holds InPlay Allowed next e held batch)
    (hr : r ∈ e.scheduler.running.values) (hb : (e.scheduler.requests r).batchIdx = some b)
    {token : Option Nat} (hadv : Advanced next (e.scheduler.requests r) (held b) token) :
    ∃ c, (registerComplete chain r).run e = .ok () { e with cache := some c } ∧
      Coherent model Holds InPlay Allowed next { e with cache := some c } held batch := by
  obtain ⟨c, hc, hh, hlt⟩ := h.running_cache hr
  unfold registerComplete
  rw [Exec.run_bind_ok (EStateM.run_get e)]
  by_cases hreg : (e.scheduler.requests r).prefillComplete = true ∧
      (e.cache.any fun c => c.hasPrefix) = true
  · have hprefix : c.hasPrefix = true := by simpa [hc] using hreg.2
    have hheld : held b = (e.scheduler.requests r).promptTokenIds := by
      cases hadv with
      | more hfill => exact absurd hfill.offset (Nat.not_lt.mpr (of_decide_eq_true hreg.1))
      | filled hfilled => exact hfilled.held
    obtain ⟨c', hrun, hsize, hh'⟩ := hserves.registerPrefix hh (hlt b hb) hprefix hheld
      (h.job r (h.scheduler.running_lt hr)).inPlay
    refine ⟨c', ?_, h.withCache hc hsize hh'⟩
    simp only [if_pos hreg, ModelRunner.batchIdx_ok hb, Exec.ofExcept_ok, pure_bind]
    exact onCache_run hc hrun
  · refine ⟨c, ?_, h.withCache hc rfl hh⟩
    simp only [if_neg hreg]
    rw [← hc]
    rfl

/-- **The loop of `_run_prefill`, for one request.** -/
theorem finishPrefill_run (hserves : Serves chain model Holds InPlay Allowed next) {r : Ref}
    {b : Nat} (h : Coherent model Holds InPlay Allowed next e held (r :: batch))
    (hr : r ∈ e.scheduler.running.values) (hb : (e.scheduler.requests r).batchIdx = some b)
    {token : Option Nat} (hadv : Advanced next (e.scheduler.requests r) (held b) token) :
    ∃ e' held', (finishPrefill chain r token).run e = .ok () e' ∧
      Coherent model Holds InPlay Allowed next e' held' batch ∧ Others r b e e' held held' := by
  obtain ⟨c, hrun, h₁⟩ := registerComplete_run hserves h hr hb hadv
  unfold finishPrefill
  rw [Exec.run_bind_ok hrun]
  cases hadv with
  | more hfill =>
    refine ⟨_, held, rfl, h₁.settle fun i hi => ?_, fun r' hr' _ => hr', fun _ _ => rfl,
      fun _ _ => rfl⟩
    cases hb.symm.trans hi
    exact .filling hfill
  | filled hfilled =>
    have hdone : (e.scheduler.requests r).prefillComplete = true :=
      decide_eq_true (Nat.le_of_eq hfilled.offset.symm)
    have hjob := h.job r (h.scheduler.running_lt hr)
    set q : InferenceRequest Nat := { e.scheduler.requests r with state := .decode } with hq
    set s' : Scheduler Nat := { e.scheduler with
      requests := Function.update e.scheduler.requests r q } with hs'
    have hmark : (Scheduler.markPrefillDone r).run e.scheduler = .ok () s' :=
      Scheduler.markPrefillDone_run hfilled.state hdone
    have hinv : Inv s' := h.scheduler.progress hr rfl rfl
      ⟨Or.inr ⟨rfl, Or.inl hfilled.output⟩, (h.scheduler.running r hr).batchIdx⟩
    have h₂ := h₁.progress hr List.mem_cons_self hinv
      ⟨hjob.prompt, hjob.maxNewTokens, hjob.fits, hjob.chunk, hjob.inPlay⟩
    have hreq : s'.requests r = q := Function.update_self _ _ _
    have hout : (s'.requests r).promptTokenIds ++ (s'.requests r).outputTokenIds
        = (e.scheduler.requests r).promptTokenIds := by
      rw [hreq]
      show (e.scheduler.requests r).promptTokenIds ++ (e.scheduler.requests r).outputTokenIds = _
      rw [hfilled.output, List.append_nil]
    -- the prompt is in the slot, and the first token is to come
    have hawait : Awaiting next (s'.requests r) (held b) := by
      refine ⟨?_, ?_, ?_, ?_, ?_⟩
      · rw [hreq]; exact hfilled.prepared
      · rw [hreq]; exact hfilled.offset
      · rw [hreq]
      · rw [hout, hfilled.held]
      · rw [hreq]
        show Greedy next _ (e.scheduler.requests r).outputTokenIds
        rw [hfilled.output]
        exact greedy_nil _ _
    obtain ⟨e', held', haccept, hco, hothers⟩ := acceptToken_run hserves h₂ hr
      (by rw [hreq]; exact hb) hawait (e.scheduler.requests r).requestId
    rw [hout] at haccept
    refine ⟨e', held', ?_, hco, hothers.running, fun r' hne => ?_, hothers.held⟩
    · simp only
      rw [Exec.run_bind_ok (EStateM.run_get _)]
      simp only
      rw [Exec.run_bind_ok (onScheduler_run (e := { e with cache := some c }) hmark), hb]
      exact haccept
    · rw [hothers.requests r' hne]
      exact Function.update_of_ne hne _ _

omit [LinearOrder Score] in
/-- The requests of a list that wait for their tokens to be handled, one after the other. -/
theorem finishAll_run {α : Type} {P : InferenceRequest Nat → List Nat → α → Prop}
    {finish : Ref → α → M Row Unit}
    (hfinish : ∀ {e : Engine Row} {held : Nat → List Nat} {r : Ref} {batch : List Ref} {b : Nat}
      {token : α}, Coherent model Holds InPlay Allowed next e held (r :: batch) →
      r ∈ e.scheduler.running.values → (e.scheduler.requests r).batchIdx = some b →
      P (e.scheduler.requests r) (held b) token →
      ∃ e' held', (finish r token).run e = .ok () e' ∧
        Coherent model Holds InPlay Allowed next e' held' batch ∧ Others r b e e' held held')
    (tokens : Ref → α) : ∀ (rs : List Ref) {e : Engine Row} {held : Nat → List Nat},
      Coherent model Holds InPlay Allowed next e held rs → rs.Nodup →
      (∀ r ∈ rs, r ∈ e.scheduler.running.values) →
      (∀ r ∈ rs, ∀ b, (e.scheduler.requests r).batchIdx = some b →
        P (e.scheduler.requests r) (held b) (tokens r)) →
      ∃ e' held', (forM (rs.map fun r => (r, tokens r)) fun (r, token) => finish r token).run e
          = .ok () e' ∧
        Coherent model Holds InPlay Allowed next e' held' [] ∧
        ∀ r ∈ e.scheduler.running.values, r ∉ rs →
          r ∈ e'.scheduler.running.values ∧ e'.scheduler.requests r = e.scheduler.requests r
  | [], e, held, h, _, _, _ => ⟨e, held, rfl, h, fun _ hr _ => ⟨hr, rfl⟩⟩
  | r :: rs, e, held, h, hnd, hrun, hp => by
    obtain ⟨hr, hnd⟩ := List.nodup_cons.mp hnd
    have hmem := hrun r List.mem_cons_self
    obtain ⟨b, hb⟩ := Option.ne_none_iff_exists'.mp (h.scheduler.running r hmem).batchIdx
    obtain ⟨e₁, held₁, hfin, h₁, ho⟩ := hfinish h hmem hb (hp r List.mem_cons_self b hb)
    have hne : ∀ r' ∈ rs, r' ≠ r := fun r' hr' he => hr (he ▸ hr')
    obtain ⟨e₂, held₂, hrest, h₂, hkeep⟩ := finishAll_run hfinish tokens rs h₁ hnd
      (fun r' hr' => ho.running r' (hrun r' (List.mem_cons_of_mem r hr')) (hne r' hr'))
      (by
        intro r' hr' b' hb'
        rw [ho.requests r' (hne r' hr')] at hb' ⊢
        -- another running request is in another slot
        have hbb : b' ≠ b := by
          rintro rfl
          exact hne r' hr' (h.scheduler.apart (hrun r' (List.mem_cons_of_mem r hr')) hmem
            (hb'.trans hb.symm))
        rw [ho.held b' hbb]
        exact hp r' (List.mem_cons_of_mem r hr') b' hb')
    refine ⟨e₂, held₂, ?_, h₂, fun r' hr' hn => ?_⟩
    · rw [List.map_cons, List.forM_cons, Exec.run_bind_ok hfin, hrest]
    · rw [List.mem_cons, not_or] at hn
      obtain ⟨hm, hreq⟩ := hkeep r' (ho.running r' hr' hn.1) hn.2
      exact ⟨hm, hreq.trans (ho.requests r' hn.1)⟩

omit [LinearOrder Score] in
/-- A forward pass over running requests: they are a batch now. -/
theorem Coherent.forward (h : Coherent model Holds InPlay Allowed next e held [])
    {c : KVCacheType Row} (hc : e.cache = some c) {rs : List Ref}
    (hrs : ∀ r ∈ rs, r ∈ e.scheduler.running.values) {s : ModelRunner Row} {held' : Nat → List Nat}
    (ht : ModelRunner.Touches rs ⟨e.scheduler.requests, c⟩ s held held') (hh : Holds s.cache held') :
    Coherent model Holds InPlay Allowed next (withRunner s e) held' rs where
  scheduler := h.scheduler.touch (fun r => (ht.job r).toSameStatus) e.scheduler.maxTokensPerStep
  concurrency := h.concurrency
  positive := h.positive
  chunk := h.chunk
  allowed := h.allowed
  cache := by
    intro c' hc'
    cases hc'
    exact ⟨ht.batchSize ▸ (h.cache c hc).1, hh⟩
  noCache := nofun
  job := fun r hr => (ht.job r).job (h.job r hr)
  waiting := by
    intro r hr
    have hn : r ∉ rs := fun hm => (Scheduler.running_notMem h.scheduler (hrs r hm)).1 hr
    show (s.requests r).slotPrepared = false ∧ (s.requests r).prefillOffset = 0
    rw [ht.others r hn]
    exact h.waiting r hr
  running := by
    intro r hr hn b hb
    have hreq : s.requests r = e.scheduler.requests r := ht.others r hn
    show Phase next (s.requests r) (held' b)
    have hb' : (e.scheduler.requests r).batchIdx = some b := hreq ▸ hb
    rw [hreq, ht.slots b fun r' hr' he => hn
      (h.scheduler.apart hr (hrs r' hr') (hb'.trans he.symm) ▸ hr')]
    exact h.running r hr (List.not_mem_nil) b hb'
  completed := by
    intro r hr
    have hn : r ∉ rs := fun hm => (Scheduler.running_notMem h.scheduler (hrs r hm)).2.1 hr
    show Greedy next (s.requests r).promptTokenIds (s.requests r).outputTokenIds
    rw [ht.others r hn]
    exact h.completed r hr

theorem onRunner_run {α : Type} {m : ModelRunner.M Row α} {a : α} {c : KVCacheType Row}
    {s : ModelRunner Row} (hc : e.cache = some c)
    (h : m.run ⟨e.scheduler.requests, c⟩ = .ok a s) :
    (onRunner m).run e = .ok a (withRunner s e) := by
  rw [onRunner, Exec.run_bind_ok (EStateM.run_get e)]
  simp only [hc]
  exact Exec.run_within_ok h

omit [LinearOrder Score] in
/-- Running requests make a batch. -/
theorem Coherent.inBatch (h : Coherent model Holds InPlay Allowed next e held [])
    {c : KVCacheType Row} (hc : e.cache = some c) {rs : List Ref} (hnd : rs.Nodup)
    (hrs : ∀ r ∈ rs, r ∈ e.scheduler.running.values) :
    ModelRunner.InBatch model.config.maxSeqLen InPlay rs ⟨e.scheduler.requests, c⟩ where
  nodup := hnd
  slot := by
    intro r hr
    obtain ⟨b, hb⟩ := Option.ne_none_iff_exists'.mp (h.scheduler.running r (hrs r hr)).batchIdx
    exact ⟨b, hb, Nat.lt_of_lt_of_le (h.scheduler.running_slot_lt (hrs r hr) hb) (h.cache c hc).1⟩
  apart := fun r hr r' hr' he => h.scheduler.apart (hrs r hr) (hrs r' hr') he
  job := fun r hr => h.job r (h.scheduler.running_lt (hrs r hr))

/-- **`_run_prefill`** of running requests that prefill. -/
theorem runPrefill_run (hserves : Serves chain model Holds InPlay Allowed next)
    (h : Coherent model Holds InPlay Allowed next e held []) {rs : List Ref} (hne : rs ≠ [])
    (hnd : rs.Nodup) (hrs : ∀ r ∈ rs, r ∈ e.scheduler.running.values)
    (hstate : ∀ r ∈ rs, (e.scheduler.requests r).state = .prefill) :
    ∃ e' held', (runPrefill chain model rs).run e = .ok () e' ∧
      Coherent model Holds InPlay Allowed next e' held' [] ∧
      ∀ r ∈ e.scheduler.running.values, r ∉ rs →
        r ∈ e'.scheduler.running.values ∧ e'.scheduler.requests r = e.scheduler.requests r := by
  obtain ⟨r₀, hr₀⟩ := List.exists_mem_of_ne_nil rs hne
  obtain ⟨c, hc, hh, -⟩ := h.running_cache (hrs r₀ hr₀)
  obtain ⟨tokens, s, held₁, hrun, hh₁, ht, hadv⟩ := ModelRunner.prefill_run hserves hne
    (s := ⟨e.scheduler.requests, c⟩) hh (h.inBatch hc hnd hrs) (by
      intro r hr b hb
      cases h.running r (hrs r hr) (List.not_mem_nil) b hb with
      | fresh hf => exact Or.inl hf
      | filling hf => exact Or.inr hf
      | decoding hd => exact absurd (hd.state.symm.trans (hstate r hr)) nofun)
  have h₁ := h.forward hc hrs ht hh₁
  obtain ⟨e₂, held₂, hfin, h₂, hkeep⟩ := finishAll_run
    (P := fun q held token => Advanced next q held token)
    (fun hco hr hb hp => finishPrefill_run hserves hco hr hb hp) tokens rs h₁
    hnd hrs hadv
  refine ⟨e₂, held₂, ?_, h₂, fun r hr hn => ?_⟩
  · rw [runPrefill, Exec.run_bind_ok (onRunner_run hc hrun), ← List.map_prod_left_eq_zip]
    exact hfin
  · obtain ⟨hm, hreq⟩ := hkeep r hr hn
    exact ⟨hm, hreq.trans (ht.others r hn)⟩

/-! ## Decode -/

/-- The sampled token of a decoding request is handled. -/
theorem finishDecode_run (hserves : Serves chain model Holds InPlay Allowed next)
    {r : Ref} {batch : List Ref} (h : Coherent model Holds InPlay Allowed next e held (r :: batch))
    (hr : r ∈ e.scheduler.running.values) {b : Nat}
    (hb : (e.scheduler.requests r).batchIdx = some b) {token : Nat}
    (hp : Awaiting next (e.scheduler.requests r) (held b) ∧
      token = next ((e.scheduler.requests r).promptTokenIds ++
        (e.scheduler.requests r).outputTokenIds)) :
    ∃ e' held', (finishDecode r token).run e = .ok () e' ∧
      Coherent model Holds InPlay Allowed next e' held' batch ∧ Others r b e e' held held' := by
  obtain ⟨e', held', haccept, hco', ho⟩ := acceptToken_run hserves h hr hb hp.1
    (e.scheduler.requests r).requestId
  refine ⟨e', held', ?_, hco', ho⟩
  rw [finishDecode, Exec.run_bind_ok (EStateM.run_get e)]
  simp only
  rw [hp.2, hb]
  exact haccept

/-- **`_run_decode`** of running requests that decode. -/
theorem runDecode_run (hserves : Serves chain model Holds InPlay Allowed next)
    (h : Coherent model Holds InPlay Allowed next e held []) {rs : List Ref} (hne : rs ≠ [])
    (hnd : rs.Nodup) (hrs : ∀ r ∈ rs, r ∈ e.scheduler.running.values)
    (hstate : ∀ r ∈ rs, (e.scheduler.requests r).state = .decode) :
    ∃ e' held', (runDecode model rs).run e = .ok () e' ∧
      Coherent model Holds InPlay Allowed next e' held' [] := by
  obtain ⟨r₀, hr₀⟩ := List.exists_mem_of_ne_nil rs hne
  obtain ⟨c, hc, hh, -⟩ := h.running_cache (hrs r₀ hr₀)
  have hdec : ∀ r ∈ rs, ∀ b, (e.scheduler.requests r).batchIdx = some b →
      Decoding next (e.scheduler.requests r) (held b) := by
    intro r hr b hb
    cases h.running r (hrs r hr) (List.not_mem_nil) b hb with
    | fresh hf => exact absurd (hf.state.symm.trans (hstate r hr)) nofun
    | filling hf => exact absurd (hf.state.symm.trans (hstate r hr)) nofun
    | decoding hd => exact hd
  have hroom : ∀ r ∈ rs, ((e.scheduler.requests r).numGenerated : Int)
      < (e.scheduler.requests r).maxNewTokens := by
    intro r hr
    obtain ⟨b, hb⟩ := Option.ne_none_iff_exists'.mp (h.scheduler.running r (hrs r hr)).batchIdx
    rcases (h.scheduler.running r (hrs r hr)).state with ⟨hs, -⟩ | ⟨-, hout | hlt⟩
    · exact absurd (hs.symm.trans (hstate r hr)) nofun
    · exact absurd hout (hdec r hr b hb).output
    · exact hlt
  obtain ⟨c', held₁, hrun, hh₁, ht, hheld⟩ := ModelRunner.decode_run hserves hne
    (s := ⟨e.scheduler.requests, c⟩) hh (h.inBatch hc hnd hrs) hdec hroom
  have h₁ := h.forward hc hrs ht hh₁
  obtain ⟨e₂, held₂, hfin, h₂, -⟩ := finishAll_run
    (P := fun q held token => Awaiting next q held ∧
      token = next (q.promptTokenIds ++ q.outputTokenIds))
    (fun hco hr hb hp => finishDecode_run hserves hco hr hb hp)
    (fun r => next ((e.scheduler.requests r).promptTokenIds ++ (e.scheduler.requests r).outputTokenIds))
    rs h₁ hnd hrs (by
      intro r hr b hb
      have hd := hdec r hr b hb
      exact ⟨⟨hd.prepared, hd.offset, hd.state, hheld r hr b hb, hd.greedy⟩, rfl⟩)
  refine ⟨e₂, held₂, ?_, h₂⟩
  rw [runDecode, Exec.run_bind_ok (onRunner_run hc hrun), ← List.map_prod_left_eq_zip]
  exact hfin

end Engine

end Nifre
