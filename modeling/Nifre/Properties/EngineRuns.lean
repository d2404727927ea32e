import Nifre.Properties.EngineSteps

/-!
# Runs of the engine

Every call that the engine's clients make keeps `Coherent`, so whatever the order of arrivals,
steps, cancellations and reconfigurations, a completed request has the output that plain greedy
generation gives it (`Coherent.greedyTokens`).
-/

namespace Nifre

open Scheduler (Inv)

namespace Engine

variable {Row Score : Type} {chain : Int → List Nat → Int} {model : InferenceModel Row Score}
  {Holds : KVCacheType Row → (Nat → List Nat) → Prop} {InPlay : List Nat → Prop}
  {Allowed : Bool → Prop} {next : List Nat → Nat} {e : Engine Row} {held : Nat → List Nat}

/-! ## schedule -/

/-- A waiting request takes a slot. -/
theorem Coherent.assignSlot (h : Coherent model Holds InPlay Allowed next e held [])
    (hcache : e.cache ≠ none) {r : Ref} {waiting : List Ref} {b : Nat} {freeSlots : List Nat}
    (hw : e.scheduler.waiting = r :: waiting) (hf : e.scheduler.freeSlots = b :: freeSlots) :
    Coherent model Holds InPlay Allowed next
      { e with scheduler := e.scheduler.assignSlot r waiting b freeSlots } held [] := by
  have hr : r ∈ e.scheduler.waiting := by rw [hw]; exact List.mem_cons_self
  obtain ⟨hrun, hc, -⟩ := Scheduler.waiting_notMem h.scheduler hr
  have hinv := h.scheduler.assignSlot hw hf
  rw [Scheduler.assignSlot_eq] at hinv ⊢
  have hkey := h.scheduler.notMem_keys h.scheduler.runningKey
    (fun _ hm => h.scheduler.running_lt hm) (h.scheduler.waiting_lt hr) hrun
  refine { h with
    scheduler := hinv
    noCache := fun hnone => absurd hnone hcache
    job := ?_
    waiting := ?_
    running := ?_
    completed := ?_ }
  · intro r' hr'
    by_cases he : r' = r
    · subst he
      have hjob := h.job r' hr'
      simp only [Function.update_self]
      exact ⟨hjob.prompt, hjob.maxNewTokens, hjob.fits, hjob.chunk, hjob.inPlay⟩
    · simp only [Function.update_of_ne he]
      exact h.job r' hr'
  · intro r' hr'
    have hnd := h.scheduler.waiting_nodup
    rw [hw] at hnd
    have he : r' ≠ r := fun he => (List.nodup_cons.mp hnd).1 (he ▸ hr')
    simp only [Function.update_of_ne he]
    exact h.waiting r' (by rw [hw]; exact List.mem_cons_of_mem r hr')
  · intro r' hr' _ i hi
    by_cases he : r' = r
    · subst he
      -- the request that gets the slot has not started
      obtain ⟨hprep, hoff⟩ := h.waiting r' hr
      simp only [Function.update_self]
      exact .fresh ⟨hprep, hoff, rfl, (h.scheduler.waiting r' hr).output⟩
    · have hm : r' ∈ e.scheduler.running.values := by
        rw [← Multiset.mem_coe, OrderedDict.values_insert_of_notMem hkey, Multiset.mem_cons] at hr'
        exact hr'.resolve_left he
      simp only [Function.update_of_ne he] at hi ⊢
      exact h.running r' hm List.not_mem_nil i hi
  · intro r' hr'
    have he : r' ≠ r := by
      rintro rfl
      exact hc hr'
    simp only [Function.update_of_ne he]
    exact h.completed r' hr'

theorem Coherent.assignWaitingToSlots (h : Coherent model Holds InPlay Allowed next e held [])
    (hcache : e.cache ≠ none) : Coherent model Holds InPlay Allowed next
      { e with scheduler := e.scheduler.assignWaitingToSlots } held [] :=
  Scheduler.assignRounds_induct
    (I := fun s => Coherent model Holds InPlay Allowed next { e with scheduler := s } held [])
    (fun _ _ _ _ _ hi hw hf => hi.assignSlot hcache hw hf) _ h

/-! ## add_request -/

/-- The request object that `add_request` makes. -/
def newRequest (e : Engine Row) (requestId : String) (promptTokenIds : List Nat)
    (maxNewTokens : Int) : InferenceRequest Nat where
  requestId := requestId
  promptTokenIds := promptTokenIds
  maxNewTokens := maxNewTokens
  prefillChunkSize := e.prefillChunkSize

/-- The scheduler with one more request object, which waits. -/
def withRequest (s : Scheduler Nat) (q : InferenceRequest Nat) : Scheduler Nat :=
  { s with
    requests := Function.update s.requests s.created q
    created := s.created + 1
    waiting := s.waiting ++ [s.created] }

theorem withRequest_new (s : Scheduler Nat) (q : InferenceRequest Nat) :
    (withRequest s q).requests s.created = q := Function.update_self _ _ _

theorem withRequest_old (s : Scheduler Nat) (q : InferenceRequest Nat) {r : Ref}
    (hr : r < s.created) : (withRequest s q).requests r = s.requests r :=
  Function.update_of_ne (Nat.ne_of_lt hr) _ _

theorem addRequest_run (e : Engine Row) (requestId : String) (promptTokenIds : List Nat)
    (maxNewTokens : Int) : (addRequest requestId promptTokenIds maxNewTokens).run e
      = .ok requestId { e with
        scheduler := withRequest e.scheduler
          (e.newRequest requestId promptTokenIds maxNewTokens) } := by
  set q : InferenceRequest Nat :=
    { requestId := requestId
      promptTokenIds := promptTokenIds
      maxNewTokens := maxNewTokens
      prefillChunkSize := e.prefillChunkSize } with hq
  set s : Scheduler Nat := { e.scheduler with
    requests := Function.update e.scheduler.requests e.scheduler.created q
    created := e.scheduler.created + 1 } with hs
  have hadd := Scheduler.addRequest_run (s := s) (r := e.scheduler.created) (by simp [hs, hq])
  rw [addRequest, Exec.run_bind_ok (EStateM.run_get e),
    Exec.run_bind_ok (onScheduler_run (Scheduler.create_run q)),
    Exec.run_bind_ok (onScheduler_run (e := { e with scheduler := s }) hadd)]
  rfl

/-- A job that comes in, with the engine's chunk size. -/
theorem addRequest_coherent (h : Coherent model Holds InPlay Allowed next e held [])
    {requestId : String} {promptTokenIds : List Nat} {maxNewTokens : Int}
    (hid : ∀ r < e.scheduler.created, (e.scheduler.requests r).requestId ≠ requestId)
    (hprompt : promptTokenIds ≠ []) (hmax : 1 ≤ maxNewTokens)
    (hfits : promptTokenIds.length + maxNewTokens - 1 ≤ model.config.maxSeqLen)
    (hplay : InPlay promptTokenIds) :
    Coherent model Holds InPlay Allowed next { e with
      scheduler := withRequest e.scheduler
        (e.newRequest requestId promptTokenIds maxNewTokens) } held [] := by
  set q := e.newRequest requestId promptTokenIds maxNewTokens with hq
  have hnew := withRequest_new e.scheduler q
  have hold := fun r hr => withRequest_old e.scheduler q (r := r) hr
  refine { h with
    scheduler := h.scheduler.add (q := q) ⟨rfl, rfl, rfl⟩ hid
    job := ?_
    waiting := ?_
    running := ?_
    completed := ?_ }
  · intro r hr
    rcases Nat.lt_succ_iff_lt_or_eq.mp hr with hlt | rfl
    · simp only [hold r hlt]
      exact h.job r hlt
    · simp only [hnew]
      exact ⟨hprompt, hmax, hfits, h.chunk, hplay⟩
  · intro r hr
    rcases List.mem_append.mp hr with hm | hm
    · simp only [hold r (h.scheduler.waiting_lt hm)]
      exact h.waiting r hm
    · rw [List.mem_singleton.mp hm]
      simp only [hnew]
      exact ⟨rfl, rfl⟩
  · intro r hr hn b hb
    have hlt := h.scheduler.running_lt hr
    simp only [hold r hlt] at hb ⊢
    exact h.running r hr hn b hb
  · intro r hr
    simp only [hold r (h.scheduler.completed_lt r hr)]
    exact h.completed r hr

/-! ## cancel -/

/-- One request that is not completed becomes one that failed. -/
theorem Coherent.ended (h : Coherent model Holds InPlay Allowed next e held []) {r : Ref}
    {q : InferenceRequest Nat} {s : Scheduler Nat} (hinv : Inv s)
    (hmax : s.maxConcurrentRequests = e.scheduler.maxConcurrentRequests)
    (hcreated : s.created = e.scheduler.created)
    (hreq : s.requests = Function.update e.scheduler.requests r q)
    (hjob : r < e.scheduler.created → Job model.config.maxSeqLen InPlay q)
    (hw : ∀ r' ∈ s.waiting, r' ∈ e.scheduler.waiting ∧ r' ≠ r)
    (hrun : ∀ r' ∈ s.running.values, r' ∈ e.scheduler.running.values ∧ r' ≠ r)
    (hc : s.completed = e.scheduler.completed) (hr : r ∉ e.scheduler.completed.values) :
    Coherent model Holds InPlay Allowed next { e with scheduler := s } held [] where
  scheduler := hinv
  concurrency := by rw [hmax]; exact h.concurrency
  positive := by rw [hmax]; exact h.positive
  chunk := h.chunk
  allowed := h.allowed
  cache := by
    intro c hcache
    rw [hmax]
    exact h.cache c hcache
  noCache := by
    intro hcache
    refine List.eq_nil_iff_forall_not_mem.mpr fun r' hr' => ?_
    have hm := (hrun r' hr').1
    rw [h.noCache hcache] at hm
    cases hm
  job := by
    intro r' hr'
    have hlt : r' < e.scheduler.created := hcreated ▸ hr'
    simp only [hreq]
    by_cases he : r' = r
    · subst he
      rw [Function.update_self]
      exact hjob hlt
    · rw [Function.update_of_ne he]
      exact h.job r' hlt
  waiting := by
    intro r' hr'
    obtain ⟨hm, he⟩ := hw r' hr'
    simp only [hreq, Function.update_of_ne he]
    exact h.waiting r' hm
  running := by
    intro r' hr' hn b hb
    obtain ⟨hm, he⟩ := hrun r' hr'
    simp only [hreq, Function.update_of_ne he] at hb ⊢
    exact h.running r' hm hn b hb
  completed := by
    intro r' hr'
    have hm : r' ∈ e.scheduler.completed.values := hc ▸ hr'
    have he : r' ≠ r := by
      rintro rfl
      exact hr hm
    simp only [hreq, Function.update_of_ne he]
    exact h.completed r' hm

/-- **The ways `_cancel_request` ends.** The slot of a running request is given back as it is. -/
theorem cancelRequest_run (h : Inv e.scheduler) (requestId status : String) :
    (∃ r ∈ e.scheduler.waiting, (e.scheduler.requests r).requestId = requestId ∧
      (cancelRequest requestId status).run e
        = .ok r { e with scheduler := e.scheduler.dropWaiting r status }) ∨
    (∃ r ∈ e.scheduler.running.values, ∃ b, (e.scheduler.requests r).requestId = requestId ∧
      (e.scheduler.requests r).batchIdx = some b ∧ (cancelRequest requestId status).run e
        = .ok r { e with scheduler := e.scheduler.failRunning r b status }) ∨
    ((∀ r ∈ e.scheduler.waiting, (e.scheduler.requests r).requestId ≠ requestId) ∧
      requestId ∉ e.scheduler.running.keys ∧
      ∃ err, (cancelRequest requestId status).run e = .error err e) := by
  rcases Scheduler.cancelRequest_run h requestId status with
    ⟨r, hr, hid, hrun⟩ | ⟨r, hr, b, hid, hb, hrun⟩ | ⟨hw, hk, err, hrun⟩
  · have hnone : ((e.scheduler.dropWaiting r status).requests r).batchIdx = none := by
      simp [Scheduler.dropWaiting, (h.waiting r hr).batchIdx]
    refine Or.inl ⟨r, hr, hid, ?_⟩
    rw [cancelRequest, Exec.run_bind_ok (onScheduler_run hrun),
      Exec.run_bind_ok (EStateM.run_get _)]
    simp only [hnone]
    rfl
  · have hnone : ((e.scheduler.failRunning r b status).requests r).batchIdx = none := by
      simp [Scheduler.failRunning]
    refine Or.inr (Or.inl ⟨r, hr, b, hid, hb, ?_⟩)
    rw [cancelRequest, Exec.run_bind_ok (onScheduler_run hrun),
      Exec.run_bind_ok (EStateM.run_get _)]
    simp only [hnone]
    rfl
  · refine Or.inr (Or.inr ⟨hw, hk, err, ?_⟩)
    rw [cancelRequest]
    exact Exec.run_bind_error (Exec.run_within_error hrun)

theorem cancelRequest_coherent (h : Coherent model Holds InPlay Allowed next e held [])
    (requestId status : String) :
    Coherent model Holds InPlay Allowed next
      (Exec.after (cancelRequest requestId status) e) held [] := by
  rcases cancelRequest_run h.scheduler requestId status with
    ⟨r, hr, -, hrun⟩ | ⟨r, hr, b, -, hb, hrun⟩ | ⟨-, -, err, hrun⟩
  · obtain ⟨hnr, hnc, -⟩ := Scheduler.waiting_notMem h.scheduler hr
    rw [Exec.after_of_ok hrun]
    have hjob := h.job r (h.scheduler.waiting_lt hr)
    refine h.ended (h.scheduler.dropWaiting hr status) rfl rfl rfl
      (fun _ => ⟨hjob.prompt, hjob.maxNewTokens, hjob.fits, hjob.chunk, hjob.inPlay⟩) ?_ ?_ rfl hnc
    · intro r' hr'
      have hm := (h.scheduler.waiting_nodup.mem_erase_iff).mp hr'
      exact ⟨hm.2, hm.1⟩
    · exact fun r' hr' => ⟨hr', fun he => hnr (he ▸ hr')⟩
  · obtain ⟨hnw, hnc, -⟩ := Scheduler.running_notMem h.scheduler hr
    rw [Exec.after_of_ok hrun]
    have hjob := h.job r (h.scheduler.running_lt hr)
    refine h.ended (h.scheduler.failRunning hr hb status) rfl rfl rfl
      (fun _ => ⟨hjob.prompt, hjob.maxNewTokens, hjob.fits, hjob.chunk, hjob.inPlay⟩) ?_ ?_ rfl hnc
    · exact fun r' hr' => ⟨hr', fun he => hnw (he ▸ hr')⟩
    · exact fun r' hr' => (Scheduler.mem_erase_values h.scheduler hr).mp hr'
  · rw [Exec.after_of_error hrun]
    exact h

/-! ## reconfigure -/

/-- What a reconfiguration does to the scheduler: the requests stay, and slots are only lost once
there is a cache. -/
structure Resized (e : Engine Row) (s : Scheduler Nat) (n : Int) : Prop where
  inv : Inv s
  queues : Scheduler.SameQueues e.scheduler s
  concurrency : n = s.maxConcurrentRequests
  positive : 0 < e.scheduler.maxConcurrentRequests → 0 < s.maxConcurrentRequests
  fewer : e.cache.isSome = true → s.maxConcurrentRequests ≤ e.scheduler.maxConcurrentRequests

/-- The part of a reconfiguration that the scheduler takes part in. -/
theorem reconfigureScheduler_after (hinv : Inv e.scheduler)
    (hmax : e.maxConcurrentRequests = e.scheduler.maxConcurrentRequests)
    (maxTokensPerStep maxConcurrentRequests : Option Int) :
    ∃ s n, Exec.after (reconfigureScheduler maxTokensPerStep maxConcurrentRequests e.cache.isSome) e
        = { e with scheduler := s, maxConcurrentRequests := n } ∧ Resized e s n := by
  unfold reconfigureScheduler
  by_cases hgiven : maxTokensPerStep.isSome = true ∨ maxConcurrentRequests.isSome = true
  · rw [if_pos hgiven]
    rcases Scheduler.reconfigure_run hinv maxTokensPerStep maxConcurrentRequests e.cache.isSome with
      ⟨err, s, hrun, hs, hq, hsame⟩ | ⟨s, hrun, hs, hq, hnone, hsome, hle⟩
    · refine ⟨s, e.maxConcurrentRequests,
        Exec.after_of_error (Exec.run_bind_error (onScheduler_error hrun)), hs, hq, by rw [hmax, hsame],
        fun hpos => hsame ▸ hpos, fun _ => Nat.le_of_eq hsame⟩
    · rw [Exec.after_bind, onScheduler_run hrun]
      cases maxConcurrentRequests with
      | none =>
        have hsame := hnone rfl
        exact ⟨s, e.maxConcurrentRequests, rfl, hs, hq, by rw [hmax, hsame],
          fun hpos => hsame ▸ hpos, hle⟩
      | some v =>
        obtain ⟨hv, hpos⟩ := hsome v rfl
        exact ⟨s, v, rfl, hs, hq, hv, fun _ => hpos, hle⟩
  · rw [if_neg hgiven]
    exact ⟨e.scheduler, e.maxConcurrentRequests, rfl, hinv, ⟨rfl, rfl, rfl, rfl, rfl, rfl⟩, hmax, id,
      fun _ => Nat.le_refl _⟩

/-- The scheduler's part of a reconfiguration leaves the cache alone. -/
theorem reconfigureScheduler_cache (maxTokensPerStep maxConcurrentRequests : Option Int)
    (cacheInitialized : Bool) (e : Engine Row) :
    (Exec.after (reconfigureScheduler maxTokensPerStep maxConcurrentRequests cacheInitialized)
      e).cache.isSome = e.cache.isSome := by
  set I : Engine Row → Prop := fun e' => e'.cache.isSome = e.cache.isSome with hI
  have hkeeps : Exec.Keeps I (reconfigureScheduler maxTokensPerStep maxConcurrentRequests
      cacheInitialized) := by
    refine Exec.Keeps.ite (fun _ => Exec.Keeps.bind (Exec.Keeps.within fun _ h => h) fun _ => ?_)
      fun _ => Exec.Keeps.pure ()
    cases maxConcurrentRequests with
    | none => exact Exec.Keeps.pure ()
    | some v => exact Exec.Keeps.modify fun _ h => h
  exact hkeeps e rfl

theorem setFlag_keeps {I : Engine Row → Prop} (name : String) (current : Engine Row → Bool)
    {assign : Bool → Engine Row → Engine Row} (cacheInitialized : Bool) (o : Option Bool)
    (hassign : ∀ v, o = some v → ∀ e, I e → I (assign v e)) :
    Exec.Keeps I (setFlag name current assign cacheInitialized o) := by
  cases o with
  | none => exact Exec.Keeps.pure ()
  | some v =>
    refine Exec.Keeps.get_bind fun e he => ?_
    refine Exec.Keeps.ite (fun _ => Exec.Keeps.ite (fun _ => Exec.Keeps.throw _) fun _ =>
      Exec.Keeps.modify (hassign v rfl)) (fun _ => Exec.Keeps.pure ()) e he

theorem assignSome_keeps {α : Type} {I : Engine Row → Prop} {assign : α → Engine Row → Engine Row}
    (o : Option α) (hassign : ∀ v, o = some v → ∀ e, I e → I (assign v e)) :
    Exec.Keeps I (assignSome assign o) := by
  cases o with
  | none => exact Exec.Keeps.pure ()
  | some v => exact Exec.Keeps.modify (hassign v rfl)

theorem checkPositive_eq_ok_iff {name : String} {o : Option Int} :
    checkPositive name o = .ok () ↔ ∀ v, o = some v → 0 < v := by
  cases o with
  | none => exact iff_of_true rfl nofun
  | some v =>
    by_cases hv : v ≤ 0
    · rw [checkPositive, if_pos hv]
      exact iff_of_false nofun fun h => absurd (h v rfl) (by omega)
    · rw [checkPositive, if_neg hv]
      exact iff_of_true rfl fun w hw => by cases hw; omega

/-- **What validation promises**: every setting that is given is positive. -/
theorem validateEngineConfig_eq_ok_iff {maxConcurrentRequests prefillChunkSize maxTokensPerStep :
    Option Int} : validateEngineConfig maxConcurrentRequests prefillChunkSize maxTokensPerStep
      = .ok () ↔ (∀ v, maxConcurrentRequests = some v → 0 < v) ∧
        (∀ v, prefillChunkSize = some v → 0 < v) ∧ ∀ v, maxTokensPerStep = some v → 0 < v := by
  unfold validateEngineConfig
  rw [← checkPositive_eq_ok_iff (o := maxConcurrentRequests),
    ← checkPositive_eq_ok_iff (o := prefillChunkSize),
    ← checkPositive_eq_ok_iff (o := maxTokensPerStep)]
  cases checkPositive "max_concurrent_requests" maxConcurrentRequests with
  | error e => exact iff_of_false nofun fun h => nomatch h.1
  | ok _ =>
    cases checkPositive "prefill_chunk_size" prefillChunkSize with
    | error e => exact iff_of_false nofun fun h => nomatch h.2.1
    | ok _ => exact ⟨fun h => ⟨rfl, rfl, h⟩, fun h => h.2.2⟩

/-- **A reconfiguration**, whether it returns or raises in the middle: an invariant that each of
its assignments keeps. -/
theorem reconfigure_pieces {J : Engine Row → Prop}
    {prefillChunkSize maxTokensPerStep maxConcurrentRequests : Option Int}
    {usePagedKvCache usePrefixCache : Option Bool}
    (hpaged : ∀ v e, J e → J { e with usePagedKvCache := v })
    (hcaching : ∀ v, usePrefixCache = some v → ∀ e, J e → J { e with usePrefixCache := v })
    (hchunk : ∀ v, 1 ≤ v → ∀ e, J e → J { e with prefillChunkSize := v })
    (hbudget : ∀ v, 1 ≤ v → ∀ e, J e → J { e with maxTokensPerStep := v })
    (hscheduler : (∀ v, maxTokensPerStep = some v → 0 < v) → ∀ e, J e → J (Exec.after
      (reconfigureScheduler maxTokensPerStep maxConcurrentRequests e.cache.isSome) e)) :
    Exec.Keeps J (reconfigure prefillChunkSize maxTokensPerStep maxConcurrentRequests
      usePagedKvCache usePrefixCache) := by
  intro e h
  unfold reconfigure
  cases hvalid : validateEngineConfig maxConcurrentRequests prefillChunkSize maxTokensPerStep with
  | error err => exact h
  | ok u =>
    obtain ⟨-, hpos, hpos'⟩ := validateEngineConfig_eq_ok_iff.mp hvalid
    set I : Engine Row → Prop := fun e' => J e' ∧ e.cache.isSome = e'.cache.isSome
    have hkeeps : ∀ {rest : M Row EngineConfig}, Exec.Keeps I rest → J (Exec.after rest e) :=
      fun hrest => (hrest e ⟨h, rfl⟩).1
    refine hkeeps (Exec.Keeps.get_bind fun e' he' => ?_)
    refine Exec.Keeps.bind (I := I) (setFlag_keeps _ _ _ _ ?_) (fun _ =>
      Exec.Keeps.bind (setFlag_keeps _ _ _ _ ?_) fun _ =>
      Exec.Keeps.bind (assignSome_keeps _ ?_) fun _ =>
      Exec.Keeps.bind (assignSome_keeps _ ?_) fun _ =>
      Exec.Keeps.bind ?_ fun _ =>
      Exec.Keeps.bind Exec.Keeps.get fun e₂ => Exec.Keeps.pure e₂.getConfig) e' he'
    · exact fun v _ e₁ h₁ => ⟨hpaged v e₁ h₁.1, h₁.2⟩
    · exact fun v hv e₁ h₁ => ⟨hcaching v hv e₁ h₁.1, h₁.2⟩
    · exact fun v hv e₁ h₁ => ⟨hchunk v (hpos v hv) e₁ h₁.1, h₁.2⟩
    · exact fun v hv e₁ h₁ => ⟨hbudget v (hpos' v hv) e₁ h₁.1, h₁.2⟩
    · intro e₁ h₁
      have hafter := hscheduler hpos' e₁ h₁.1
      rw [← h₁.2, he'.2] at hafter
      exact ⟨hafter, h₁.2.trans (reconfigureScheduler_cache _ _ _ e₁).symm⟩

/-- As `reconfigure_pieces`, with what the scheduler's part leaves. -/
theorem reconfigure_keeps {J : Engine Row → Prop}
    {prefillChunkSize maxTokensPerStep maxConcurrentRequests : Option Int}
    {usePagedKvCache usePrefixCache : Option Bool}
    (hinv : ∀ e, J e → Inv e.scheduler ∧
      e.maxConcurrentRequests = e.scheduler.maxConcurrentRequests)
    (hpaged : ∀ v e, J e → J { e with usePagedKvCache := v })
    (hcaching : ∀ v, usePrefixCache = some v → ∀ e, J e → J { e with usePrefixCache := v })
    (hchunk : ∀ v, 1 ≤ v → ∀ e, J e → J { e with prefillChunkSize := v })
    (hbudget : ∀ v e, J e → J { e with maxTokensPerStep := v })
    (hscheduler : ∀ e s n, J e → Resized e s n →
      J { e with scheduler := s, maxConcurrentRequests := n }) :
    Exec.Keeps J (reconfigure prefillChunkSize maxTokensPerStep maxConcurrentRequests
      usePagedKvCache usePrefixCache) := by
  refine reconfigure_pieces hpaged hcaching hchunk (fun v _ => hbudget v) fun _ e he => ?_
  obtain ⟨hs, hmax⟩ := hinv e he
  obtain ⟨s, n, hafter, hresized⟩ := reconfigureScheduler_after hs hmax maxTokensPerStep
    maxConcurrentRequests
  rw [hafter]
  exact hscheduler e s n he hresized

theorem Coherent.resized (h : Coherent model Holds InPlay Allowed next e held [])
    {s : Scheduler Nat} {n : Int} (hs : Resized e s n) :
    Coherent model Holds InPlay Allowed next { e with scheduler := s, maxConcurrentRequests := n }
      held [] := by
  refine { h with
    scheduler := hs.inv
    concurrency := hs.concurrency
    positive := hs.positive h.positive
    cache := ?_
    noCache := ?_
    job := ?_
    waiting := ?_
    running := ?_
    completed := ?_ }
  · intro c hc
    obtain ⟨hsize, hh⟩ := h.cache c hc
    have hsome : e.cache.isSome = true := by rw [show e.cache = some c from hc]; rfl
    exact ⟨(hs.fewer hsome).trans hsize, hh⟩
  · intro hc
    simp only [hs.queues.running]
    exact h.noCache hc
  · intro r hr
    simp only [hs.queues.requests]
    exact h.job r (hs.queues.created ▸ hr)
  · intro r hr
    simp only [hs.queues.requests]
    exact h.waiting r (hs.queues.waiting ▸ hr)
  · intro r hr hn b hb
    simp only [hs.queues.requests] at hb ⊢
    exact h.running r (hs.queues.running ▸ hr) hn b hb
  · intro r hr
    simp only [hs.queues.requests]
    exact h.completed r (hs.queues.completed ▸ hr)

theorem reconfigure_coherent (h : Coherent model Holds InPlay Allowed next e held [])
    (prefillChunkSize maxTokensPerStep maxConcurrentRequests : Option Int)
    (usePagedKvCache : Option Bool) {usePrefixCache : Option Bool}
    (hallowed : ∀ v, usePrefixCache = some v → Allowed v) :
    Coherent model Holds InPlay Allowed next (Exec.after (reconfigure prefillChunkSize
      maxTokensPerStep maxConcurrentRequests usePagedKvCache usePrefixCache) e) held [] :=
  reconfigure_keeps (J := fun e => Coherent model Holds InPlay Allowed next e held [])
    (fun _ h => ⟨h.scheduler, h.concurrency⟩) (fun _ _ h => { h with })
    (fun v hv _ h => { h with allowed := hallowed v hv }) (fun _ hv _ h => { h with chunk := hv })
    (fun _ _ h => { h with }) (fun _ _ _ h hs => h.resized hs) e h

/-! ## step -/

variable [LinearOrder Score]

/-- The cache is made on the first step, if it can be made at all. -/
theorem ensureCache_run (hserves : Serves chain model Holds InPlay Allowed next)
    (h : Coherent model Holds InPlay Allowed next e held []) :
    (∃ err, (ensureCache model).run e = .error err e) ∨
    ∃ c held', (ensureCache model).run e = .ok () { e with cache := some c } ∧
      Coherent model Holds InPlay Allowed next { e with cache := some c } held' [] := by
  unfold ensureCache
  rw [Exec.run_bind_ok (EStateM.run_get e)]
  cases hc : e.cache with
  | some c =>
    have hself : { e with cache := some c } = e := by rw [← hc]
    refine Or.inr ⟨c, held, ?_, h.withCache hc rfl (h.cache c hc).2⟩
    rw [hself]
    rfl
  | none =>
    have hmax : e.maxConcurrentRequests.toNat = e.scheduler.maxConcurrentRequests := by
      rw [h.concurrency, Int.toNat_natCast]
    have hrun := h.noCache hc
    simp only [hmax]
    cases hmake : makeCache model e.usePagedKvCache e.usePrefixCache
        e.scheduler.maxConcurrentRequests with
    | error err => exact Or.inl ⟨err, rfl⟩
    | ok c =>
      obtain ⟨hsize, hh⟩ := hserves.makeCache h.allowed hmake
      refine Or.inr ⟨c, fun _ => [], rfl, { h with cache := ?_, noCache := nofun, running := ?_ }⟩
      · intro c' hc'
        cases hc'
        exact ⟨Nat.le_of_eq hsize.symm, hh⟩
      · intro r hr
        have hr' : r ∈ e.scheduler.running.values := hr
        rw [hrun] at hr'
        cases hr'

theorem step_noWork (h : e.scheduler.hasWork = false) :
    (step chain model).run e = .ok false e := by
  unfold step
  rw [Exec.run_bind_ok (EStateM.run_get e), if_pos h]
  rfl

/-- **The prefill half of a step** leaves the requests that decode alone. -/
theorem prefillBatch_run (hserves : Serves chain model Holds InPlay Allowed next)
    (h : Coherent model Holds InPlay Allowed next e held []) {rs ds : List Ref} (hnd : rs.Nodup)
    (hp : ∀ r ∈ rs, r ∈ e.scheduler.running.values ∧ (e.scheduler.requests r).state = .prefill)
    (hd : ∀ r ∈ ds, r ∈ e.scheduler.running.values ∧ (e.scheduler.requests r).state = .decode) :
    ∃ e' held', (prefillBatch chain model rs).run e = .ok () e' ∧
      Coherent model Holds InPlay Allowed next e' held' [] ∧
      ∀ r ∈ ds, r ∈ e'.scheduler.running.values ∧ (e'.scheduler.requests r).state = .decode := by
  unfold prefillBatch
  by_cases hne : rs ≠ []
  · rw [if_pos hne]
    obtain ⟨e', held', hrun, h', hkeep⟩ := runPrefill_run hserves h hne hnd
      (fun r hr => (hp r hr).1) (fun r hr => (hp r hr).2)
    refine ⟨e', held', hrun, h', fun r hr => ?_⟩
    obtain ⟨hm, hstate⟩ := hd r hr
    have hn : r ∉ rs := fun hc => absurd ((hp r hc).2.symm.trans hstate) nofun
    obtain ⟨hm', hreq⟩ := hkeep r hm hn
    exact ⟨hm', by rw [hreq]; exact hstate⟩
  · rw [if_neg hne]
    exact ⟨e, held, rfl, h, hd⟩

/-- **A step that has a cache returns**, and keeps what the slots hold in line with the requests. -/
theorem step_ensured (hserves : Serves chain model Holds InPlay Allowed next)
    (hwork : ¬e.scheduler.hasWork = false) {c : KVCacheType Row}
    (hensure : (ensureCache model).run e = .ok () { e with cache := some c })
    (h₁ : Coherent model Holds InPlay Allowed next { e with cache := some c } held []) :
    ∃ more e' held', (step chain model).run e = .ok more e' ∧
      Coherent model Holds InPlay Allowed next e' held' [] := by
  unfold step
  rw [Exec.run_bind_ok (EStateM.run_get e), if_neg hwork]
  rw [Exec.run_bind_ok hensure]
  obtain ⟨result, hsched, hprefill, hdecode⟩ := Scheduler.schedule_run e.scheduler
  rw [Exec.run_bind_ok (onScheduler_run (e := { e with cache := some c }) hsched)]
  have h₂ := h₁.assignWaitingToSlots nofun
  have hnd := h₂.scheduler.running_nodup
  obtain ⟨e₃, held₃, hrun₃, h₃, hd₃⟩ := prefillBatch_run hserves h₂ (hprefill.nodup (hnd.filter _))
    (fun r hr => by simpa using List.mem_filter.mp (hprefill.subset hr))
    (fun r hr => by simpa using List.mem_filter.mp (hdecode.subset hr))
  have hsecond : ∃ e' held', (decodeBatch model result.decodeRequests).run e₃ = .ok () e' ∧
      Coherent model Holds InPlay Allowed next e' held' [] := by
    unfold decodeBatch
    by_cases hne : result.decodeRequests ≠ []
    · rw [if_pos hne]
      exact runDecode_run hserves h₃ hne (hdecode.nodup (hnd.filter _))
        (fun r hr => (hd₃ r hr).1) (fun r hr => (hd₃ r hr).2)
    · rw [if_neg hne]
      exact ⟨_, held₃, rfl, h₃⟩
  obtain ⟨e₄, held₄, hrun₄, h₄⟩ := hsecond
  refine ⟨true, e₄, held₄, ?_, h₄⟩
  rw [Exec.run_bind_ok hrun₃, Exec.run_bind_ok hrun₄]
  rfl

/-- **A step keeps what the slots hold in line with the requests**, and returns unless no cache
can be made. -/
theorem step_run (hserves : Serves chain model Holds InPlay Allowed next)
    (h : Coherent model Holds InPlay Allowed next e held []) :
    (∃ err, (step chain model).run e = .error err e) ∨
    ∃ more e' held', (step chain model).run e = .ok more e' ∧
      Coherent model Holds InPlay Allowed next e' held' [] := by
  by_cases hwork : e.scheduler.hasWork = false
  · exact Or.inr ⟨false, e, held, step_noWork hwork, h⟩
  · rcases ensureCache_run hserves h with ⟨err, hensure⟩ | ⟨c, held₁, hensure, h₁⟩
    · refine Or.inl ⟨err, ?_⟩
      unfold step
      rw [Exec.run_bind_ok (EStateM.run_get e), if_neg hwork]
      exact Exec.run_bind_error hensure
    · exact Or.inr (step_ensured hserves hwork hensure h₁)

/-! ## Runs -/

/-- Requests have ids of their own, a prompt in play, something to generate, and fit. -/
def Legal (model : InferenceModel Row Score) (InPlay : List Nat → Prop) (Allowed : Bool → Prop)
    (e : Engine Row) : Op → Prop
  | .addRequest requestId promptTokenIds maxNewTokens =>
    (∀ r < e.scheduler.created, (e.scheduler.requests r).requestId ≠ requestId) ∧
      promptTokenIds ≠ [] ∧ 1 ≤ maxNewTokens ∧
      promptTokenIds.length + maxNewTokens - 1 ≤ model.config.maxSeqLen ∧ InPlay promptTokenIds
  | .reconfigure _ _ _ _ usePrefixCache => ∀ v, usePrefixCache = some v → Allowed v
  | _ => True

omit [LinearOrder Score] in
theorem forall_eq_some_iff {Allowed : Bool → Prop} {o : Option Bool} :
    (∀ v, o = some v → Allowed v) ↔ ∀ v ∈ o.toList, Allowed v := by
  simp

instance {InPlay : List Nat → Prop} {Allowed : Bool → Prop} [DecidablePred InPlay]
    [DecidablePred Allowed] (op : Op) : Decidable (Legal model InPlay Allowed e op) :=
  match op with
  | .addRequest .. => inferInstanceAs (Decidable (_ ∧ _))
  | .reconfigure .. => decidable_of_iff' _ forall_eq_some_iff
  | .step | .cancelRequest .. | .registerTokenCallback _ | .unregisterTokenCallback _ =>
    inferInstanceAs (Decidable True)

/-- **Every legal call keeps what the slots hold in line with the requests.** -/
theorem next_coherent (hserves : Serves chain model Holds InPlay Allowed next)
    (h : Coherent model Holds InPlay Allowed next e held []) {op : Op}
    (hop : Legal model InPlay Allowed e op) :
    ∃ held', Coherent model Holds InPlay Allowed next (Engine.next chain model e op) held' [] := by
  cases op with
  | addRequest requestId promptTokenIds maxNewTokens =>
    obtain ⟨hid, hprompt, hmax, hfits, hplay⟩ := hop
    refine ⟨held, ?_⟩
    rw [Engine.next, call, Exec.after_dropped, Exec.after_of_ok (addRequest_run e _ _ _)]
    exact addRequest_coherent h hid hprompt hmax hfits hplay
  | step =>
    rw [Engine.next, call, Exec.after_dropped]
    rcases step_run hserves h with ⟨err, hrun⟩ | ⟨more, e', held', hrun, h'⟩
    · exact ⟨held, by rw [Exec.after_of_error hrun]; exact h⟩
    · exact ⟨held', by rw [Exec.after_of_ok hrun]; exact h'⟩
  | cancelRequest requestId status =>
    refine ⟨held, ?_⟩
    rw [Engine.next, call, Exec.after_dropped]
    exact cancelRequest_coherent h requestId status
  | reconfigure prefillChunkSize maxTokensPerStep maxConcurrentRequests usePaged usePrefix =>
    refine ⟨held, ?_⟩
    rw [Engine.next, call, Exec.after_dropped]
    exact reconfigure_coherent h _ _ _ _ hop
  | registerTokenCallback requestId => exact ⟨held, { h with }⟩
  | unregisterTokenCallback requestId => exact ⟨held, { h with }⟩

omit [LinearOrder Score] in
theorem new_coherent {maxConcurrentRequests prefillChunkSize maxTokensPerStep : Int}
    {usePagedKvCache usePrefixCache : Bool} (hchunk : 1 ≤ prefillChunkSize)
    (hallowed : Allowed (model.supportsPrefixCache && usePrefixCache))
    (h : new model maxConcurrentRequests prefillChunkSize maxTokensPerStep usePagedKvCache
      usePrefixCache = .ok e) (held : Nat → List Nat) :
    Coherent model Holds InPlay Allowed next e held [] := by
  unfold new at h
  cases hs : (Scheduler.new maxConcurrentRequests maxTokensPerStep :
      Except PyError (Scheduler Nat)) with
  | error err => rw [hs] at h; cases h
  | ok s =>
    rw [hs] at h
    cases h
    have hinv := Scheduler.new_inv hs
    unfold Scheduler.new at hs
    split at hs
    · cases hs
    · next hpos =>
      split at hs
      · cases hs
      · cases hs
        exact
          { scheduler := hinv
            concurrency := by simp only; omega
            positive := by simp only; omega
            chunk := hchunk
            allowed := hallowed
            cache := nofun
            noCache := fun _ => rfl
            job := nofun
            waiting := nofun
            running := nofun
            completed := nofun }

/-- **Every legal run keeps what the slots hold in line with the requests.** -/
theorem run_coherent (hserves : Serves chain model Holds InPlay Allowed next)
    {maxConcurrentRequests prefillChunkSize maxTokensPerStep : Int}
    {usePagedKvCache usePrefixCache : Bool} (hchunk : 1 ≤ prefillChunkSize)
    (hallowed : Allowed (model.supportsPrefixCache && usePrefixCache))
    (h : new model maxConcurrentRequests prefillChunkSize maxTokensPerStep usePagedKvCache
      usePrefixCache = .ok e) {ops : List Op}
    (hlegal : Exec.Along (Legal model InPlay Allowed) (Engine.next chain model) e ops) :
    ∃ held, Coherent model Holds InPlay Allowed next (ops.foldl (Engine.next chain model) e) held
      [] :=
  Exec.Along.foldl (J := fun e => ∃ held, Coherent model Holds InPlay Allowed next e held [])
    (fun _ _ ⟨_, h⟩ hop => next_coherent hserves h hop)
    ⟨fun _ => [], new_coherent hchunk hallowed h _⟩ hlegal

/-- **A completed request has the tokens of the plain greedy reference**, as many as it asked
for. -/
theorem Coherent.greedyTokens (h : Coherent model Holds InPlay Allowed next e held []) {logits : List Nat → List Score}
    (hnext : ∀ tokens, sampleGreedy (logits tokens) = .ok (next tokens)) {r : Ref}
    (hr : r ∈ e.scheduler.completed.values) :
    Nifre.greedyTokens logits (e.scheduler.requests r).promptTokenIds
        (e.scheduler.requests r).maxNewTokens.toNat
      = .ok (e.scheduler.requests r).outputTokenIds := by
  have hlt := h.scheduler.created_iff.mpr (Or.inr (Or.inr (Or.inl hr)))
  have hjob := h.job r hlt
  have hlen : (e.scheduler.requests r).maxNewTokens.toNat
      = (e.scheduler.requests r).outputTokenIds.length := by
    have := (h.scheduler.completed r hr).2 hjob.maxNewTokens
    unfold InferenceRequest.numGenerated at this
    omega
  rw [hlen, (h.completed r hr).greedyTokens hnext _ (Nat.le_refl _), List.take_length]

end Engine

/-! ## Prompts of a run -/

/-- The prompts of a run. -/
def prompts (ops : List Engine.Op) : List (List Nat) :=
  ops.filterMap fun
    | .addRequest _ promptTokenIds _ => some promptTokenIds
    | _ => none

theorem mem_prompts {ops : List Engine.Op} {requestId : String} {promptTokenIds : List Nat}
    {maxNewTokens : Int} (h : .addRequest requestId promptTokenIds maxNewTokens ∈ ops) :
    promptTokenIds ∈ prompts ops :=
  List.mem_filterMap.mpr ⟨_, h, rfl⟩

/-- The block chains of the prompts of a run. -/
def promptChains (blockSize : Nat) (ops : List Engine.Op) : Set (List (List Nat)) :=
  {c | c ∈ (prompts ops).map (Digest.fullBlocks blockSize)}

namespace Engine

variable {Row Score : Type} {model : InferenceModel Row Score}

/-- A legal run, with more said of its prompts and less of the values of the flag. -/
theorem legal_inPlay {InPlay : List Nat → Prop} {Allowed Allowed' : Bool → Prop} {e : Engine Row}
    {ops : List Op} {next : Engine Row → Op → Engine Row}
    (h : Exec.Along (Legal model (fun _ => True) Allowed) next e ops)
    (hplay : ∀ prompt ∈ prompts ops, InPlay prompt) (hallowed : ∀ v, Allowed v → Allowed' v) :
    Exec.Along (Legal model InPlay Allowed') next e ops := by
  have hmem : ∀ op ∈ ops, ∀ requestId promptTokenIds maxNewTokens,
      op = .addRequest requestId promptTokenIds maxNewTokens → InPlay promptTokenIds := by
    rintro op hop requestId promptTokenIds maxNewTokens rfl
    exact hplay _ (mem_prompts hop)
  refine (h.and_mem hmem).of_invariant (J := fun _ => True) (fun e op _ hop => ⟨?_, trivial⟩) trivial
  obtain ⟨hlegal, hin⟩ := hop
  cases op with
  | addRequest requestId promptTokenIds maxNewTokens =>
    obtain ⟨hid, hne, hmax, hfits, -⟩ := hlegal
    exact ⟨hid, hne, hmax, hfits, hin _ _ _ rfl⟩
  | reconfigure _ _ _ _ usePrefix => exact fun v hv => hallowed v (hlegal v hv)
  | _ => trivial

end Engine

end Nifre
