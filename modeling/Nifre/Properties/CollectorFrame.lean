import Nifre.Properties.DistinctIds
import Nifre.Properties.Metering

/-!
# What a step records

An invariant of the engine and what its collector has recorded is kept by a whole step, for any
model and on either exit, if every piece of the step keeps it. A piece is a transition of the
scheduler, a change of the cache, or a token with the hooks that report it.

* `PiecesClosed` — what every piece keeps; it may depend on the batch that was reported last
* `PiecesClosed.step` — a step keeps it
-/

namespace Nifre

theorem Scheduler.OnlyResized.trans {s s' s'' : Scheduler Nat} (h : s.OnlyResized s')
    (h' : s'.OnlyResized s'') : s.OnlyResized s'' where
  requests := h'.requests.trans h.requests
  created := h'.created.trans h.created
  waiting := h'.waiting.trans h.waiting
  running := h'.running.trans h.running
  completed := h'.completed.trans h.completed
  failed := h'.failed.trans h.failed
  budget := by
    rcases h'.budget with hsame | hpos
    · rw [hsame]
      exact h.budget
    · exact Or.inr hpos

namespace Metered

open Engine (handled)
open Scheduler (Live)

variable {F Row Score : Type} [Field F]

/-! ## The pieces -/

/-- The hook of a request that may have finished. -/
def finishedHook (r : Ref) (objects : Ref → InferenceRequest Nat)
    (c : MetricsCollector F) : MetricsCollector F :=
  if (objects r).state = .finished then c.onRequestFinished r (objects r) else c

/-- The hooks of a decoded token. -/
def decodedHook (r : Ref) (objects : Ref → InferenceRequest Nat)
    (c : MetricsCollector F) : MetricsCollector F :=
  finishedHook r objects (c.onDecodeToken r (objects r))

/-- The hooks of a prefill batch. -/
def prefilledHook (passes : PassTimes F) (rs : List Ref) (tokensProcessed : Int)
    (objects : Ref → InferenceRequest Nat) (c : MetricsCollector F) : MetricsCollector F :=
  (c.onPrefixCacheHits rs objects).onPrefillBatch passes.prefillSec rs objects tokensProcessed

/-- After `mark_decode_done` and the token callback: the token is reported unless it was refused. -/
def accepted (hooks : (Ref → InferenceRequest Nat) → MetricsCollector F → MetricsCollector F)
    (s : Metered F Row) (r : Ref) (tokenId : Nat) : Metered F Row :=
  match (Scheduler.markDecodeDone r tokenId).run s.engine.scheduler with
  | .ok _ s' => ⟨handled s.engine r tokenId, hooks s'.requests s.metrics⟩
  | .error _ _ => { s with engine := handled s.engine r tokenId }

/-- An invariant that every piece of a metered step keeps: `I rs` once the batch `rs` of a prefill
is reported. -/
structure PiecesClosed (passes : PassTimes F) (I : List Ref → Metered F Row → Prop) : Prop where
  cache : ∀ rs s c, I rs s → I rs { s with engine := { s.engine with cache := c } }
  forward : ∀ s requests, Live s.engine.scheduler → I [] s →
    (∀ r, Forwarded (s.engine.scheduler.requests r) (requests r)) →
    I [] { s with engine := { s.engine with
      scheduler := { s.engine.scheduler with requests := requests } } }
  assign : ∀ s r waiting b freeSlots, Live s.engine.scheduler → I [] s →
    s.engine.scheduler.waiting = r :: waiting → s.engine.scheduler.freeSlots = b :: freeSlots →
    I [] { s with engine := { s.engine with
      scheduler := s.engine.scheduler.assignSlot r waiting b freeSlots } }
  prefilled : ∀ s rs tokensProcessed, Live s.engine.scheduler → I [] s →
    (∀ r ∈ rs, r < s.engine.scheduler.created) →
    (∀ r ∈ rs, (s.engine.scheduler.requests r).state = .prefill) →
    I rs { s with
      metrics := prefilledHook passes rs tokensProcessed s.engine.scheduler.requests s.metrics }
  reported : ∀ rs s, I rs s → I [] s
  startDecode : ∀ rs s r, Live s.engine.scheduler → I rs s → r ∈ rs →
    r < s.engine.scheduler.created → (s.engine.scheduler.requests r).state = .prefill →
    (s.engine.scheduler.requests r).prefillComplete = true →
    I rs { s with engine := { s.engine with
      scheduler := s.engine.scheduler.update r fun q => { q with state := .decode } } }
  firstToken : ∀ rs s r tokenId, Live s.engine.scheduler → I rs s →
    r < s.engine.scheduler.created → (s.engine.scheduler.requests r).state = .decode →
    I rs (accepted (finishedHook r) s r tokenId)
  decoded : ∀ s, I [] s →
    I [] { s with metrics := s.metrics.onDecodeBatch passes.decodeSec }
  nextToken : ∀ s r tokenId, Live s.engine.scheduler → I [] s →
    r < s.engine.scheduler.created → (s.engine.scheduler.requests r).state = .decode →
    I [] (accepted (decodedHook r) s r tokenId)

/-- The invariant with what holds in every run, and the number of requests so far. -/
structure During (I : Metered F Row → Prop) (k : Nat) (s : Metered F Row) : Prop where
  live : Live s.engine.scheduler
  inv : I s
  created : s.engine.scheduler.created = k

variable {chain : Int → List Nat → Int} {model : InferenceModel Row Score} {passes : PassTimes F}
  {I : List Ref → Metered F Row → Prop} {rs : List Ref} {k : Nat}

/-! ## Work that is not reported -/

omit [Field F] in
theorem onEngine_run {α : Type} {m : Engine.M Row α} {s : Metered F Row} {e : Engine Row} {a : α}
    (h : m.run s.engine = .ok a e) : (onEngine m).run s = .ok a { s with engine := e } :=
  Exec.run_within_ok h

omit [Field F] in
theorem onEngine_error {α : Type} {m : Engine.M Row α} {s : Metered F Row} {e : Engine Row}
    {err : PyError} (h : m.run s.engine = .error err e) :
    (onEngine m).run s = .error err { s with engine := e } :=
  Exec.run_within_error h

theorem onCache_during (hI : PiecesClosed passes I) {α : Type} (m : KVCacheType.M Row α) :
    Exec.Keeps (During (I rs) k) (onEngine (Engine.onCache m)) := by
  refine Exec.Keeps.within fun s h => ?_
  unfold Engine.onCache
  rw [Exec.after_bind, EStateM.run_get]
  simp only
  split
  · exact h
  · rw [Exec.after_within]
    exact ⟨h.live, hI.cache rs s _ h.inv, h.created⟩

omit [Field F] in
/-- A method of the engine that reads it and then goes on. -/
theorem onEngine_get_bind {α : Type} {J : Metered F Row → Prop} {f : Engine Row → Engine.M Row α}
    (h : ∀ s, J s → J { s with engine := Exec.after (f s.engine) s.engine }) :
    Exec.Keeps J (onEngine (MonadState.get >>= f)) :=
  Exec.Keeps.within fun s hs => h s hs

omit [Field F] in
theorem Keeps.onEngine_apply {α : Type} {J : Metered F Row → Prop} {m : Engine.M Row α}
    (h : Exec.Keeps J (onEngine m)) {s : Metered F Row} (hs : J s) :
    J { s with engine := Exec.after m s.engine } := by
  have := h s hs
  unfold onEngine at this
  rwa [Exec.after_within] at this

theorem releaseCacheSlot_during (hI : PiecesClosed passes I) (batchIdx : Option Nat) (r : Ref) :
    Exec.Keeps (During (I rs) k) (onEngine (Engine.releaseCacheSlot batchIdx r)) := by
  refine onEngine_get_bind fun s h => ?_
  split
  · exact h
  · split
    · exact Keeps.onEngine_apply (onCache_during hI _) h
    · exact h

theorem registerComplete_during (hI : PiecesClosed passes I) (r : Ref) :
    Exec.Keeps (During (I rs) k) (onEngine (Engine.registerComplete chain r)) := by
  refine onEngine_get_bind fun s h => ?_
  simp only
  split
  · cases ModelRunner.batchIdx (s.engine.scheduler.requests r) with
    | error err => exact h
    | ok b => exact Keeps.onEngine_apply (onCache_during hI _) h
  · exact h

theorem ensureCache_during [LinearOrder Score] (hI : PiecesClosed passes I) :
    Exec.Keeps (During (I rs) k) (onEngine (Engine.ensureCache model)) := by
  refine onEngine_get_bind fun s h => ?_
  split
  · exact h
  · cases Engine.makeCache model s.engine.usePagedKvCache s.engine.usePrefixCache
        s.engine.maxConcurrentRequests.toNat with
    | error err => exact h
    | ok c => exact ⟨h.live, hI.cache rs s _ h.inv, h.created⟩

theorem schedule_during (hI : PiecesClosed passes I) {s : Metered F Row}
    (h : During (I []) k s) : During (I []) k { s with engine := { s.engine with
      scheduler := s.engine.scheduler.assignWaitingToSlots } } := by
  refine Scheduler.assignRounds_induct (I := fun sch => During (I []) k
    { s with engine := { s.engine with scheduler := sch } })
    (fun sch r waiting b freeSlots hs hw hf => ?_) _ h
  exact ⟨hs.live.assignSlot hw, hI.assign _ r waiting b freeSlots hs.live hs.inv hw hf,
    by rw [Scheduler.assignSlot_eq]; exact hs.created⟩

/-- The model runner, on either exit. -/
theorem onRunner_during (hI : PiecesClosed passes I) {α : Type} {m : ModelRunner.M Row α}
    (hm : ∀ requests c, (∀ r, (requests r).Unstarted) →
      Exec.Keeps (ModelRunner.Forwards (fun _ _ => True) requests c) m) {s : Metered F Row}
    (h : During (I []) k s) : During (I []) k (Exec.after (onEngine (Engine.onRunner m)) s) ∧
      ∀ r, Forwarded (s.engine.scheduler.requests r)
        ((Exec.after (onEngine (Engine.onRunner m)) s).engine.scheduler.requests r) := by
  have hafter : Exec.after (onEngine (Engine.onRunner m)) s
      = { s with engine := Exec.after (Engine.onRunner m) s.engine } := Exec.after_within _ _ _ s
  rw [hafter]
  unfold Engine.onRunner
  rw [Exec.after_bind, EStateM.run_get]
  simp only
  split
  · exact ⟨h, fun r => .refl _⟩
  · next c hc =>
    rw [Exec.after_within]
    obtain ⟨hf, -⟩ := hm s.engine.scheduler.requests c h.live.unstarted
      ⟨s.engine.scheduler.requests, c⟩ ⟨fun r => .refl _, trivial⟩
    have hinv := hI.forward s _ h.live h.inv hf
    exact ⟨⟨h.live.forward hf, hI.cache [] _ _ hinv, h.created⟩, hf⟩

/-! ## Tokens -/

/-- **A token for a request of the batch**, with its hooks, on either exit. -/
theorem acceptToken_during (hI : PiecesClosed passes I) {s : Metered F Row}
    (h : During (I rs) k s) {r : Ref} {tokenId : Nat} (batchIdx : Option Nat)
    {hooks : (Ref → InferenceRequest Nat) → MetricsCollector F → MetricsCollector F}
    (haccept : (s.engine.scheduler.requests r).state = .decode →
      I rs (accepted hooks s r tokenId)) :
    During (I rs) k (Exec.after (do
      onEngine (Engine.onScheduler (Scheduler.markDecodeDone r tokenId))
      onEngine (Engine.emitToken (s.engine.scheduler.requests r).requestId tokenId)
      hook hooks
      onEngine (Engine.releaseCacheSlot batchIdx r)) s) := by
  by_cases hd : (s.engine.scheduler.requests r).state = .decode
  · obtain ⟨hlive, hcreated⟩ := h.live.decodeOutcome
      (Scheduler.markDecodeDone_outcome s.engine.scheduler r tokenId)
    have haccepted := haccept hd
    unfold accepted handled at haccepted
    cases hrun : (Scheduler.markDecodeDone r tokenId).run s.engine.scheduler with
    | error err sch =>
      simp only [hrun] at hlive hcreated haccepted
      rw [Exec.after_of_error
        (Exec.run_bind_error (onEngine_error (Engine.onScheduler_error hrun)))]
      exact ⟨hlive, haccepted, hcreated.trans h.created⟩
    | ok u sch =>
      simp only [hrun] at hlive hcreated haccepted
      rw [Exec.after_bind, onEngine_run (Engine.onScheduler_run hrun)]
      simp only
      rw [Exec.after_bind, onEngine_run (Engine.emitToken_eq _ tokenId _)]
      simp only
      rw [Exec.after_bind, hook, EStateM.run_modify]
      exact releaseCacheSlot_during hI batchIdx r _ ⟨hlive, haccepted, hcreated.trans h.created⟩
  · obtain ⟨err, hmark⟩ := Scheduler.markDecodeDone_error hd tokenId
    rw [Exec.after_of_error
      (Exec.run_bind_error (onEngine_error (Engine.onScheduler_error hmark)))]
    exact h

variable (chain) in
theorem finishPrefill_during (hI : PiecesClosed passes I) {r : Ref} (hr : r ∈ rs) (hlt : r < k)
    (tokenId : Option Nat) :
    Exec.Keeps (During (I rs) k) (finishPrefill chain r tokenId) := by
  refine Exec.Keeps.bind (registerComplete_during hI r) fun _ => ?_
  cases tokenId with
  | none => exact Exec.Keeps.pure ()
  | some tokenId =>
    refine Exec.Keeps.get_bind fun s h => ?_
    simp only
    by_cases hs : (s.engine.scheduler.requests r).state = .prefill ∧
        (s.engine.scheduler.requests r).prefillComplete = true
    · rw [Exec.after_bind,
        onEngine_run (Engine.onScheduler_run (Scheduler.markPrefillDone_run hs.1 hs.2))]
      have hw := h.live.notMem_waiting (r := r) (by simp [hs.1])
      have hstart : During (I rs) k { s with engine := { s.engine with
          scheduler := s.engine.scheduler.update r fun q => { q with state := .decode } } } :=
        ⟨h.live.update ⟨rfl, rfl, rfl, rfl, rfl⟩ hw fun _ => Or.inr rfl,
          hI.startDecode rs s r h.live h.inv hr (h.created ▸ hlt) hs.1 hs.2, h.created⟩
      have hid : ((s.engine.scheduler.update r fun q => { q with state := .decode }).requests
          r).requestId = (s.engine.scheduler.requests r).requestId := by simp [Scheduler.update]
      have haccept := acceptToken_during hI hstart (s.engine.scheduler.requests r).batchIdx
        (hI.firstToken rs _ r tokenId hstart.live hstart.inv (hstart.created ▸ hlt))
      simp only [hid] at haccept
      exact haccept
    · obtain ⟨err, herr⟩ := Scheduler.markPrefillDone_error hs
      rw [Exec.after_of_error
        (Exec.run_bind_error (onEngine_error (Engine.onScheduler_error herr)))]
      exact h

theorem finishDecode_during (hI : PiecesClosed passes I) {r : Ref} (hlt : r < k) (tokenId : Nat) :
    Exec.Keeps (During (I []) k) (finishDecode r tokenId) :=
  Exec.Keeps.get_bind fun s h => acceptToken_during hI h (s.engine.scheduler.requests r).batchIdx
    (hI.nextToken s r tokenId h.live h.inv (h.created ▸ hlt))

/-! ## The two halves of a step -/

variable [LinearOrder Score]

theorem prefillBatch_during (hI : PiecesClosed passes I) (hrs : ∀ r ∈ rs, r < k) {s : Metered F Row}
    (h : During (I []) k s) (hstate : ∀ r ∈ rs, (s.engine.scheduler.requests r).state = .prefill) :
    During (I []) k (Exec.after (prefillBatch chain model passes rs) s) := by
  unfold prefillBatch
  split
  · obtain ⟨hrunner, hforwarded⟩ := onRunner_during (m := ModelRunner.prefill chain model rs) hI
      (fun requests c hun => Exec.keeps_iff_triple.mpr
        ((ModelRunner.prefill_forwards (cacheSteps_any chain model) hun).conseq (fun _ h => h)
          (fun _ _ h => h.1) fun _ h => h)) h
    unfold runPrefill
    rw [Exec.after_bind, EStateM.run_get]
    simp only
    rw [Exec.after_bind]
    cases hrun : (onEngine (Engine.onRunner (ModelRunner.prefill chain model rs))).run s with
    | error err s₁ =>
      rw [Exec.after_of_error hrun] at hrunner
      exact hrunner
    | ok tokens s₁ =>
      rw [Exec.after_of_ok hrun] at hrunner hforwarded
      -- the batch is reported before its tokens are
      have hreported : During (I rs) k { s₁ with
          metrics := prefilledHook passes rs (prefillTokensThisStep s.engine.scheduler.requests rs)
            s₁.engine.scheduler.requests s₁.metrics } :=
        ⟨hrunner.live, hI.prefilled s₁ rs _ hrunner.live hrunner.inv
          (fun r hr => hrunner.created ▸ hrs r hr)
          (fun r hr => (hforwarded r).state.trans (hstate r hr)), hrunner.created⟩
      have hloop := Exec.Keeps.forM (rs.zip tokens) (fun p hp =>
        finishPrefill_during chain hI (List.of_mem_zip hp).1
          (hrs p.1 (List.of_mem_zip hp).1) p.2) _ hreported
      simp only
      rw [Exec.after_bind, hook, EStateM.run_modify]
      simp only
      rw [Exec.after_bind, hook, EStateM.run_modify]
      exact ⟨hloop.live, hI.reported rs _ hloop.inv, hloop.created⟩
  · exact h

theorem decodeBatch_during (hI : PiecesClosed passes I) (hrs : ∀ r ∈ rs, r < k) :
    Exec.Keeps (During (I []) k) (decodeBatch model passes rs) := by
  refine Exec.Keeps.ite (fun _ => ?_) fun _ => Exec.Keeps.pure ()
  refine Exec.Keeps.bind (fun s h => (onRunner_during hI (fun requests c _ => ?_) h).1)
    fun tokens => ?_
  · exact Exec.keeps_iff_triple.mpr
      ((ModelRunner.decode_forwards (cacheSteps_any (fun _ _ => 0) model)).conseq (fun _ h => h)
        (fun _ _ h => h.1) fun _ h => h)
  · exact Exec.Keeps.bind (Exec.Keeps.modify fun s h =>
      ⟨h.live, hI.decoded s h.inv, h.created⟩) fun _ => Exec.Keeps.forM _ fun p hp =>
        finishDecode_during hI (hrs p.1 (List.of_mem_zip hp).1) p.2

/-- **A step keeps the invariant**, on either exit. -/
theorem PiecesClosed.step (hI : PiecesClosed passes I) :
    Exec.Keeps (During (I []) k) (step chain model passes) := by
  refine Exec.Keeps.get_bind fun s h => Exec.Keeps.ite (fun _ => Exec.Keeps.pure false)
    (fun _ => ?_) s h
  refine Exec.Keeps.bind (ensureCache_during hI) fun _ s₁ h₁ => ?_
  obtain ⟨result, hsched, hprefill, hdecode⟩ := Scheduler.schedule_run s₁.engine.scheduler
  rw [Exec.after_bind, onEngine_run (Engine.onScheduler_run hsched)]
  have h₂ := schedule_during hI h₁
  have hlt : ∀ r ∈ s₁.engine.scheduler.assignWaitingToSlots.running.values, r < k :=
    fun r hr => h₂.created ▸ (h₂.live.running r hr).1
  refine Exec.Keeps.bind_at (prefillBatch_during hI (fun r hr => ?_) h₂ fun r hr => ?_) fun _ =>
    Exec.Keeps.bind (decodeBatch_during hI fun r hr => ?_) fun _ => Exec.Keeps.pure true
  · exact hlt r (List.mem_filter.mp (hprefill.subset hr)).1
  · exact of_decide_eq_true (List.mem_filter.mp (hprefill.subset hr)).2
  · exact hlt r (List.mem_filter.mp (hdecode.subset hr)).1

/-! ## The other calls -/

omit [LinearOrder Score] [Field F] in
/-- `add_request` and its hooks. -/
theorem after_addRequest (s : Metered F Row) (requestId : String) (promptTokenIds : List Nat)
    (maxNewTokens : Int) :
    Exec.after (addRequest requestId promptTokenIds maxNewTokens) s
      = ⟨{ s.engine with
            scheduler := Engine.withRequest s.engine.scheduler
              (s.engine.newRequest requestId promptTokenIds maxNewTokens) },
          (s.metrics.onCreate s.engine.scheduler.created).onRequestEnqueued⟩ := by
  unfold addRequest
  rw [Exec.after_bind, EStateM.run_get]
  simp only
  rw [Exec.after_bind, onEngine_run (Engine.addRequest_run s.engine _ _ _)]
  rfl

omit [LinearOrder Score] in
/-- A timeout that cancelled request `r`, which is left with that status. -/
theorem after_timeOut {s : Metered F Row} {requestId : String} {r : Ref} {e : Engine Row}
    (h : (Engine.cancelRequest requestId "timeout").run s.engine = .ok r e)
    (hstatus : (e.scheduler.requests r).status = "timeout") :
    Exec.after (timeOut requestId) s
      = ⟨e, s.metrics.onRequestFailed r (e.scheduler.requests r) "timeout"⟩ := by
  have hsame : e.scheduler.update r (fun request => { request with status := "timeout" })
      = e.scheduler := by
    unfold Scheduler.update
    rw [← hstatus, Function.update_eq_self]
  have hwrite : (Engine.onScheduler (modify fun s =>
      s.update r fun request => { request with status := "timeout" })).run e = .ok ⟨⟩ e := by
    rw [Engine.onScheduler_run (EStateM.run_modify _ _), hsame]
  unfold timeOut onRequestFailed
  rw [Exec.after_bind, onEngine_run h]
  simp only
  rw [Exec.after_bind, onEngine_run hwrite]
  rfl

omit [LinearOrder Score] in
/-- A timeout whose request is not there. -/
theorem after_timeOut_error {s : Metered F Row} {requestId : String} {err : PyError}
    {e : Engine Row} (h : (Engine.cancelRequest requestId "timeout").run s.engine = .error err e) :
    Exec.after (timeOut requestId) s = { s with engine := e } :=
  Exec.after_of_error (Exec.run_bind_error (onEngine_error h))

/-- A call that only changes settings or callbacks. -/
def isSetting : Engine.Op → Bool
  | .reconfigure .. => true
  | .registerTokenCallback _ => true
  | .unregisterTokenCallback _ => true
  | _ => false

theorem after_setting {op : Engine.Op} (hop : isSetting op = true) (s : Metered F Row) :
    Exec.after (call chain model passes op) s
      = { s with engine := Engine.next chain model s.engine op } := by
  cases op with
  | addRequest | step | cancelRequest => cases hop
  | reconfigure => exact Exec.after_within _ _ _ s
  | registerTokenCallback => rfl
  | unregisterTokenCallback => rfl

/-- **Settings** are changed while the queues stay. -/
theorem next_setting {op : Engine.Op} (hop : isSetting op = true) (e : Engine Row) :
    Scheduler.OnlyResized e.scheduler (Engine.next chain model e op).scheduler := by
  set J : Engine Row → Prop := fun e' => Scheduler.OnlyResized e.scheduler e'.scheduler with hJ
  have hrefl : J e := ⟨⟨rfl, rfl, rfl, rfl, rfl, rfl⟩, Or.inl rfl⟩
  cases op with
  | addRequest | step | cancelRequest => cases hop
  | reconfigure prefillChunkSize maxTokensPerStep maxConcurrentRequests usePaged usePrefix =>
    rw [Engine.next, Engine.call, Exec.after_dropped]
    refine Engine.reconfigure_pieces (J := J) (fun _ _ h => h) (fun _ _ _ h => h)
      (fun _ _ _ h => h) (fun _ _ _ h => h) (fun _ e' h => ?_) e hrefl
    exact Engine.reconfigureScheduler_pieces (fun _ _ h hs => h.trans hs) (fun _ _ h => h) e' h
  | registerTokenCallback requestId => exact hrefl
  | unregisterTokenCallback requestId => exact hrefl

/-- The call of the engine that an act is. -/
def Act.op : Act → Engine.Op
  | .call op => op
  | .timeOut requestId => .cancelRequest requestId "timeout"

/-- **A timeout**: the request is cancelled and reported, or it was not there. -/
theorem after_timeOut_cases {s : Metered F Row} (h : Scheduler.Inv s.engine.scheduler)
    (requestId : String) :
    (∃ r ∈ s.engine.scheduler.waiting, Exec.after (timeOut requestId) s
      = ⟨{ s.engine with scheduler := s.engine.scheduler.dropWaiting r "timeout" },
          s.metrics.onRequestFailed r
            ((s.engine.scheduler.dropWaiting r "timeout").requests r) "timeout"⟩) ∨
    (∃ r ∈ s.engine.scheduler.running.values, ∃ b,
      (s.engine.scheduler.requests r).batchIdx = some b ∧ Exec.after (timeOut requestId) s
        = ⟨{ s.engine with scheduler := s.engine.scheduler.failRunning r b "timeout" },
            s.metrics.onRequestFailed r
              ((s.engine.scheduler.failRunning r b "timeout").requests r) "timeout"⟩) ∨
    Exec.after (timeOut requestId) s = s := by
  rcases Engine.cancelRequest_run h requestId "timeout" with
    ⟨r, hr, -, hrun⟩ | ⟨r, hr, b, -, hb, hrun⟩ | ⟨-, -, err, hrun⟩
  · exact Or.inl ⟨r, hr, after_timeOut hrun (by simp [Scheduler.dropWaiting])⟩
  · exact Or.inr (Or.inl ⟨r, hr, b, hb, after_timeOut hrun (by simp [Scheduler.failRunning])⟩)
  · exact Or.inr (Or.inr (after_timeOut_error hrun))

/-- **The engine does what it does without a collector**, timeouts included. -/
theorem nextAct_engine {s : Metered F Row} (h : Scheduler.Inv s.engine.scheduler)
    (a : PassTimes F × Act) :
    (nextAct chain model s a).engine = Engine.next chain model s.engine a.2.op := by
  obtain ⟨passes, a⟩ := a
  cases a with
  | call op => exact next_engine chain model s (passes, op)
  | timeOut requestId =>
    rw [nextAct, act, Act.op, Engine.next, Engine.call, Exec.after_dropped]
    rcases Engine.cancelRequest_run h requestId "timeout" with
      ⟨r, -, -, hrun⟩ | ⟨r, -, b, -, -, hrun⟩ | ⟨-, -, err, hrun⟩
    · rw [after_timeOut hrun (by simp [Scheduler.dropWaiting]), Exec.after_of_ok hrun]
    · rw [after_timeOut hrun (by simp [Scheduler.failRunning]), Exec.after_of_ok hrun]
    · rw [after_timeOut_error hrun, Exec.after_of_error hrun]

end Metered

end Nifre
