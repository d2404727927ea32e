import Nifre.Properties.CollectorFrame
import Nifre.Properties.LatencySummaries
import Nifre.Properties.ReuseRatio

/-!
# The collector loses no request

* `Totals` — what the store counts of requests and tokens, and what there is to count
* `Ledger` — the two agree; every piece of a step, every call and every timeout keeps this
* `requests_accounted` — in every run: submitted = waiting + running + finished
-/

namespace Nifre

open Scheduler (Inv)

/-! ## Totals -/

/-- The counters of requests and of their tokens. -/
structure Totals where
  enqueued : Nat
  completed : Nat
  errors : Nat
  timeouts : Nat
  inputTokens : Nat
  outputTokens : Nat
  deriving DecidableEq, Repr

def MetricsStore.totals {F : Type} (s : MetricsStore F) : Totals where
  enqueued := s.totalEnqueued
  completed := s.totalCompleted
  errors := s.totalErrors
  timeouts := s.totalTimeouts
  inputTokens := s.totalInputTokens
  outputTokens := s.totalOutputTokens

namespace Totals

/-- One more request. -/
def enqueue (t : Totals) : Totals := { t with enqueued := t.enqueued + 1 }

/-- One more request has ended, with its tokens. -/
def finish (t : Totals) (inputTokens outputTokens : Nat) : Totals :=
  { t with
    completed := t.completed + 1
    inputTokens := t.inputTokens + inputTokens
    outputTokens := t.outputTokens + outputTokens }

def timeOut (t : Totals) (inputTokens outputTokens : Nat) : Totals :=
  { t with
    timeouts := t.timeouts + 1
    inputTokens := t.inputTokens + inputTokens
    outputTokens := t.outputTokens + outputTokens }

end Totals

namespace Scheduler

variable {s s' : Scheduler Nat} {r : Ref}

/-- The requests that have ended. -/
def ended (s : Scheduler Nat) : List Ref := s.completed.values ++ s.failed.values

/-- Over the requests that have ended. -/
def endedSum (s : Scheduler Nat) (f : InferenceRequest Nat → Nat) : Nat :=
  (s.ended.map fun r => f (s.requests r)).sum

/-- What there is to count in the queues. -/
def totals (s : Scheduler Nat) : Totals where
  enqueued := s.created
  completed := s.completed.size
  errors := 0
  timeouts := s.failed.size
  inputTokens := s.endedSum (·.numPromptTokens)
  outputTokens := s.endedSum (·.numGenerated)

theorem ended_iff : r ∈ s.ended ↔ r ∈ s.completed.values ∨ r ∈ s.failed.values := List.mem_append

theorem Inv.running_notMem_ended (h : Inv s) (hr : r ∈ s.running.values) : r ∉ s.ended := by
  obtain ⟨-, hc, hf⟩ := running_notMem h hr
  simp [ended_iff, hc, hf]

theorem Inv.waiting_notMem_ended (h : Inv s) (hr : r ∈ s.waiting) : r ∉ s.ended := by
  obtain ⟨-, hc, hf⟩ := waiting_notMem h hr
  simp [ended_iff, hc, hf]

/-- **Nothing to count changed**: the same requests have ended, with the same tokens. -/
theorem totals_congr (hcreated : s'.created = s.created) (hcompleted : s'.completed = s.completed)
    (hfailed : s'.failed = s.failed) (hsame : ∀ r ∈ s.ended,
      (s'.requests r).promptTokenIds = (s.requests r).promptTokenIds ∧
        (s'.requests r).outputTokenIds = (s.requests r).outputTokenIds) :
    s'.totals = s.totals := by
  have hended : s'.ended = s.ended := by rw [ended, ended, hcompleted, hfailed]
  have hprompt : s'.endedSum (·.numPromptTokens) = s.endedSum (·.numPromptTokens) := by
    unfold endedSum
    rw [hended]
    exact congrArg List.sum (List.map_congr_left fun r hr => congrArg List.length (hsame r hr).1)
  have hout : s'.endedSum (·.numGenerated) = s.endedSum (·.numGenerated) := by
    unfold endedSum
    rw [hended]
    exact congrArg List.sum (List.map_congr_left fun r hr => congrArg List.length (hsame r hr).2)
  simp only [totals, hcreated, hcompleted, hfailed, hprompt, hout]

/-- A request that has not ended changes. -/
theorem totals_update (hcreated : s'.created = s.created) (hcompleted : s'.completed = s.completed)
    (hfailed : s'.failed = s.failed) {q : InferenceRequest Nat}
    (hreq : s'.requests = Function.update s.requests r q) (hr : r ∉ s.ended) :
    s'.totals = s.totals := by
  refine totals_congr hcreated hcompleted hfailed fun r' hr' => ?_
  have hne : r' ≠ r := fun he => hr (he ▸ hr')
  simp [hreq, Function.update_of_ne hne]

/-- A request more has ended. -/
theorem endedSum_enter {q : InferenceRequest Nat} (hended : s'.ended.Perm (r :: s.ended))
    (hreq : s'.requests = Function.update s.requests r q) (hr : r ∉ s.ended)
    (f : InferenceRequest Nat → Nat) : s'.endedSum f = s.endedSum f + f q := by
  have hsame : ∀ r' ∈ s.ended, f (s'.requests r') = f (s.requests r') := fun r' hr' => by
    have hne : r' ≠ r := fun he => hr (he ▸ hr')
    rw [hreq, Function.update_of_ne hne]
  calc s'.endedSum f = ((r :: s.ended).map fun r' => f (s'.requests r')).sum :=
        (hended.map _).sum_eq
    _ = f (s'.requests r) + (s.ended.map fun r' => f (s'.requests r')).sum := by simp
    _ = s.endedSum f + f q := by
        rw [List.map_congr_left hsame, hreq, Function.update_self, Nat.add_comm]
        rfl

theorem Inv.insert_completed (h : Inv s) (hr : r < s.created) (hnot : r ∉ s.ended) :
    (s.completed.insert (s.requests r).requestId r).values.Perm (r :: s.completed.values) ∧
      (s.completed.insert (s.requests r).requestId r).size = s.completed.size + 1 := by
  have hc : r ∉ s.completed.values := fun hm => hnot (ended_iff.mpr (Or.inl hm))
  exact ⟨Multiset.coe_eq_coe.mp (values_insert_id h h.completedKey h.completed_lt hr hc),
    OrderedDict.size_insert_of_notMem (h.notMem_keys h.completedKey h.completed_lt hr hc) r⟩

theorem Inv.insert_failed (h : Inv s) (hr : r < s.created) (hnot : r ∉ s.ended) :
    (s.failed.insert (s.requests r).requestId r).values.Perm (r :: s.failed.values) ∧
      (s.failed.insert (s.requests r).requestId r).size = s.failed.size + 1 := by
  have hf : r ∉ s.failed.values := fun hm => hnot (ended_iff.mpr (Or.inr hm))
  exact ⟨Multiset.coe_eq_coe.mp (values_insert_id h h.failedKey h.failed_lt hr hf),
    OrderedDict.size_insert_of_notMem (h.notMem_keys h.failedKey h.failed_lt hr hf) r⟩

/-- **A request completes.** -/
theorem Inv.totals_completed (h : Inv s) (hr : r < s.created) (hnot : r ∉ s.ended)
    {q : InferenceRequest Nat} (hcreated : s'.created = s.created)
    (hcompleted : s'.completed = s.completed.insert (s.requests r).requestId r)
    (hfailed : s'.failed = s.failed) (hreq : s'.requests = Function.update s.requests r q) :
    s'.totals = s.totals.finish q.numPromptTokens q.numGenerated := by
  obtain ⟨hperm, hsize⟩ := h.insert_completed hr hnot
  have hended : s'.ended.Perm (r :: s.ended) := by
    rw [ended, hcompleted, hfailed]
    exact hperm.append_right _
  simp only [totals, Totals.finish, endedSum_enter hended hreq hnot, hcreated, hcompleted, hfailed,
    hsize]

/-- **A request fails.** -/
theorem Inv.totals_failed (h : Inv s) (hr : r < s.created) (hnot : r ∉ s.ended)
    {q : InferenceRequest Nat} (hcreated : s'.created = s.created)
    (hcompleted : s'.completed = s.completed)
    (hfailed : s'.failed = s.failed.insert (s.requests r).requestId r)
    (hreq : s'.requests = Function.update s.requests r q) :
    s'.totals = s.totals.timeOut q.numPromptTokens q.numGenerated := by
  obtain ⟨hperm, hsize⟩ := h.insert_failed hr hnot
  have hended : s'.ended.Perm (r :: s.ended) := by
    rw [ended, hcompleted, hfailed]
    exact (hperm.append_left _).trans List.perm_middle
  simp only [totals, Totals.timeOut, endedSum_enter hended hreq hnot, hcreated, hcompleted, hfailed,
    hsize]

/-- Every request is waiting, running, completed or failed. -/
theorem Inv.created_eq (h : Inv s) : s.created
    = s.waiting.length + s.running.size + s.completed.size + s.failed.size := by
  have hcard := congrArg Multiset.card h.queued
  simpa [Scheduler.queued, OrderedDict.values, OrderedDict.size, Nat.add_assoc] using hcard.symm

end Scheduler

/-! ## What the hooks count -/

namespace MetricsCollector

variable {F : Type} [Field F]

/-- What the collector has counted. -/
def totals (c : MetricsCollector F) : Totals := c.store.totals

omit [Field F] in
@[simp] theorem totals_stamp (c : MetricsCollector F) (r : Ref)
    (f : RequestTimes F → RequestTimes F) : (c.stamp r f).totals = c.totals := rfl

omit [Field F] in
theorem totals_onPrefixCacheHits (requests : List Ref) (objects : Ref → InferenceRequest Nat)
    (c : MetricsCollector F) : (c.onPrefixCacheHits requests objects).totals = c.totals := by
  unfold onPrefixCacheHits
  induction requests generalizing c with
  | nil => rfl
  | cons r requests ih =>
    rw [List.foldl_cons, ih]
    split <;> rfl

theorem totals_onPrefillBatch (durationSec : F) (requests : List Ref)
    (objects : Ref → InferenceRequest Nat) (tokensProcessed : Int) (c : MetricsCollector F) :
    (c.onPrefillBatch durationSec requests objects tokensProcessed).totals = c.totals := by
  have hstamps : ∀ c' : MetricsCollector F, (requests.foldl (fun c' r =>
      c'.stamp r (stampPrefill c.now durationSec (objects r))) c').totals = c'.totals := by
    intro c'
    induction requests generalizing c' with
    | nil => rfl
    | cons r requests ih => exact ih _
  exact hstamps _

theorem totals_onDecodeToken (r : Ref) (request : InferenceRequest Nat)
    (c : MetricsCollector F) : (c.onDecodeToken r request).totals = c.totals := by
  simp only [onDecodeToken, tick]
  split
  · rfl
  · split <;> rfl

theorem totals_onRequestFinished (r : Ref) {request : InferenceRequest Nat}
    (hstatus : request.status = "ok") (c : MetricsCollector F) :
    (c.onRequestFinished r request).totals
      = c.totals.finish request.numPromptTokens request.numGenerated := by
  simp only [onRequestFinished, hstatus, totals, MetricsStore.totals,
    MetricsStore.recordCompletion, MetricsStore.countStatus]
  rfl

theorem totals_onRequestFailed (r : Ref) (request : InferenceRequest Nat)
    (c : MetricsCollector F) : (c.onRequestFailed r request "timeout").totals
      = c.totals.timeOut request.numPromptTokens request.numGenerated := rfl

end MetricsCollector

/-! ## The ledger -/

namespace Metered

variable {F Row Score : Type} [Field F] {passes : PassTimes F} {s : Metered F Row}

/-- What was counted is what there is to count, and only failed requests have another status than
`ok`. -/
structure Ledger (s : Metered F Row) : Prop where
  inv : Inv s.engine.scheduler
  status : ∀ r, r ∉ s.engine.scheduler.failed.values →
    (s.engine.scheduler.requests r).status = "ok"
  totals : s.metrics.totals = s.engine.scheduler.totals

omit [Field F] in
/-- A running request changes, and nothing is reported. -/
theorem Ledger.progress (h : Ledger s) {r : Ref} {sch : Scheduler Nat} {q : InferenceRequest Nat}
    (hinv : Inv sch) (hcreated : sch.created = s.engine.scheduler.created)
    (hcompleted : sch.completed = s.engine.scheduler.completed)
    (hfailed : sch.failed = s.engine.scheduler.failed)
    (hreq : sch.requests = Function.update s.engine.scheduler.requests r q)
    (hr : r ∉ s.engine.scheduler.ended) (hq : q.status = (s.engine.scheduler.requests r).status)
    {e : Engine Row} (he : e.scheduler = sch) {c : MetricsCollector F}
    (hc : c.totals = s.metrics.totals) : Ledger ⟨e, c⟩ := by
  subst he
  refine ⟨hinv, fun r' hr' => ?_, ?_⟩
  · rw [hfailed] at hr'
    rw [hreq]
    by_cases hne : r' = r
    · subst hne
      rw [Function.update_self, hq]
      exact h.status r' hr'
    · rw [Function.update_of_ne hne]
      exact h.status r' hr'
  · exact hc.trans (h.totals.trans
      (Scheduler.totals_update hcreated hcompleted hfailed hreq hr).symm)

omit [Field F] in
/-- **A token of a batch** with its hooks: if it was the last one, the request is reported. -/
theorem Ledger.accepted (h : Ledger s) {r : Ref} {tokenId : Nat}
    (hlt : r < s.engine.scheduler.created)
    (hd : (s.engine.scheduler.requests r).state = .decode)
    {hooks : (Ref → InferenceRequest Nat) → MetricsCollector F → MetricsCollector F}
    (hmore : ∀ objects c, (objects r).state ≠ .finished → (hooks objects c).totals = c.totals)
    (hlast : ∀ objects c, (objects r).state = .finished → (objects r).status = "ok" →
      (hooks objects c).totals
        = c.totals.finish (objects r).numPromptTokens (objects r).numGenerated) :
    Ledger (accepted hooks s r tokenId) := by
  have hrun := h.inv.mem_running hlt (by simp [hd]) (by simp [hd])
  have hnot := h.inv.running_notMem_ended hrun
  have hok : (s.engine.scheduler.requests r).status = "ok" :=
    h.status r fun hf => hnot (Scheduler.ended_iff.mpr (Or.inr hf))
  obtain ⟨b, hb, hmark⟩ := Scheduler.markDecodeDone_run h.inv hrun hd tokenId
  unfold Metered.accepted Engine.handled
  by_cases hfull : (s.engine.scheduler.requests r).maxNewTokens
      ≤ ((s.engine.scheduler.requests r).numGenerated + 1 : Nat)
  · rw [if_pos hfull] at hmark
    simp only [hmark]
    set q : InferenceRequest Nat :=
      { Scheduler.pushToken (s.engine.scheduler.requests r) tokenId with
        state := .finished, batchIdx := none } with hq
    have hself : (s.engine.scheduler.completeWith r b tokenId).requests r = q :=
      Function.update_self ..
    refine ⟨h.inv.completeWith hrun hd hb tokenId hfull, fun r' hr' => ?_, ?_⟩
    · by_cases hne : r' = r
      · subst hne
        rw [hself]
        exact hok
      · have hother : (s.engine.scheduler.completeWith r b tokenId).requests r'
            = s.engine.scheduler.requests r' := Function.update_of_ne hne ..
        rw [hother]
        exact h.status r' hr'
    · have hfinish := hlast (s.engine.scheduler.completeWith r b tokenId).requests s.metrics
        (by rw [hself]) (by rw [hself]; exact hok)
      have hcompleted : (s.engine.scheduler.completeWith r b tokenId).totals
          = s.engine.scheduler.totals.finish q.numPromptTokens q.numGenerated :=
        h.inv.totals_completed hlt hnot rfl rfl rfl rfl
      rw [hself, h.totals] at hfinish
      exact hfinish.trans hcompleted.symm
  · rw [if_neg hfull] at hmark
    simp only [hmark]
    refine h.progress (h.inv.pushToken hrun hd tokenId hfull) rfl rfl rfl rfl hnot rfl rfl ?_
    refine hmore _ _ ?_
    rw [Function.update_self]
    show (s.engine.scheduler.requests r).state ≠ .finished
    simp [hd]

theorem finishedHook_more {r : Ref} {objects : Ref → InferenceRequest Nat}
    {c : MetricsCollector F} (h : (objects r).state ≠ .finished) :
    (finishedHook r objects c).totals = c.totals := by
  rw [finishedHook, if_neg h]

theorem finishedHook_last {r : Ref} {objects : Ref → InferenceRequest Nat}
    {c : MetricsCollector F} (h : (objects r).state = .finished) (hok : (objects r).status = "ok") :
    (finishedHook r objects c).totals
      = c.totals.finish (objects r).numPromptTokens (objects r).numGenerated := by
  rw [finishedHook, if_pos h, MetricsCollector.totals_onRequestFinished r hok]

/-- **Every piece of a step keeps the ledger.** -/
theorem piecesClosed_ledger (passes : PassTimes F) :
    PiecesClosed passes fun _ (s : Metered F Row) => Ledger s where
  cache := fun _ _ _ h => ⟨h.inv, h.status, h.totals⟩
  forward := fun s requests _ h hf => by
    refine ⟨h.inv.touch (fun r => (hf r).toSameStatus) s.engine.scheduler.maxTokensPerStep,
      fun r hr => (hf r).status.trans (h.status r hr), h.totals.trans ?_⟩
    have hsame : ({ s.engine.scheduler with requests := requests } : Scheduler Nat).totals
        = s.engine.scheduler.totals :=
      Scheduler.totals_congr rfl rfl rfl fun r _ => ⟨(hf r).prompt, (hf r).output⟩
    exact hsame.symm
  assign := fun s r waiting b freeSlots _ h hw hf => by
    have hr : r ∈ s.engine.scheduler.waiting := by
      rw [hw]
      exact List.mem_cons_self
    have hinv := h.inv.assignSlot hw hf
    rw [Scheduler.assignSlot_eq] at hinv ⊢
    exact h.progress hinv rfl rfl rfl rfl (h.inv.waiting_notMem_ended hr) rfl rfl rfl
  prefilled := fun s rs tokensProcessed _ h _ _ => by
    refine ⟨h.inv, h.status, Eq.trans ?_ h.totals⟩
    show (prefilledHook passes rs tokensProcessed s.engine.scheduler.requests s.metrics).totals = _
    rw [prefilledHook, MetricsCollector.totals_onPrefillBatch,
      MetricsCollector.totals_onPrefixCacheHits]
  reported := fun _ _ h => h
  startDecode := fun _ s r _ h _ hlt hs _ => by
    have hrun := h.inv.mem_running hlt (by simp [hs]) (by simp [hs])
    exact h.progress (h.inv.startDecode hlt hs) rfl rfl rfl rfl (h.inv.running_notMem_ended hrun)
      rfl rfl rfl
  firstToken := fun _ s r tokenId _ h hlt hd =>
    h.accepted hlt hd (fun _ _ => finishedHook_more) fun _ _ => finishedHook_last
  decoded := fun s h => ⟨h.inv, h.status, h.totals⟩
  nextToken := fun s r tokenId _ h hlt hd => by
    refine h.accepted hlt hd (fun objects c hs => ?_) fun objects c hs hok => ?_
    · rw [decodedHook, finishedHook_more hs, MetricsCollector.totals_onDecodeToken]
    · rw [decodedHook, finishedHook_last hs hok, MetricsCollector.totals_onDecodeToken]

/-! ## Calls and timeouts -/

omit [Field F] in
/-- A request is submitted. -/
theorem Ledger.submitted (h : Ledger s) {requestId : String} {promptTokenIds : List Nat}
    {maxNewTokens : Int}
    (hid : Engine.NewId s.engine (.addRequest requestId promptTokenIds maxNewTokens)) :
    Ledger (Exec.after (addRequest requestId promptTokenIds maxNewTokens) s) := by
  rw [after_addRequest]
  set q := s.engine.newRequest requestId promptTokenIds maxNewTokens with hq
  have hnot : s.engine.scheduler.created ∉ s.engine.scheduler.ended := fun hm =>
    (h.inv.created_iff.mpr (Or.inr (Or.inr (Scheduler.ended_iff.mp hm)))).false
  refine ⟨h.inv.add ⟨rfl, rfl, rfl⟩ hid, fun r hr => ?_, ?_⟩
  · by_cases hne : r = s.engine.scheduler.created
    · subst hne
      exact congrArg InferenceRequest.status (Engine.withRequest_new s.engine.scheduler q)
    · have hold : (Engine.withRequest s.engine.scheduler q).requests r
          = s.engine.scheduler.requests r := Function.update_of_ne hne ..
      exact (congrArg InferenceRequest.status hold).trans (h.status r hr)
  · have hold : ({ Engine.withRequest s.engine.scheduler q with
        created := s.engine.scheduler.created } : Scheduler Nat).totals
          = s.engine.scheduler.totals :=
      Scheduler.totals_update rfl rfl rfl (rfl : _ = Function.update s.engine.scheduler.requests
        s.engine.scheduler.created q) hnot
    exact congrArg Totals.enqueue (h.totals.trans hold.symm)

/-- A request is cancelled and reported. -/
theorem Ledger.timedOut (h : Ledger s) {r : Ref} {sch : Scheduler Nat}
    (hlt : r < s.engine.scheduler.created) (hnot : r ∉ s.engine.scheduler.ended)
    (hinv : Inv sch) (hcreated : sch.created = s.engine.scheduler.created)
    (hcompleted : sch.completed = s.engine.scheduler.completed)
    (hfailed : sch.failed = s.engine.scheduler.failed.insert
      (s.engine.scheduler.requests r).requestId r) {q : InferenceRequest Nat}
    (hreq : sch.requests = Function.update s.engine.scheduler.requests r q) {e : Engine Row}
    (he : e.scheduler = sch) :
    Ledger ⟨e, s.metrics.onRequestFailed r (sch.requests r) "timeout"⟩ := by
  subst he
  have hself : e.scheduler.requests r = q := by rw [hreq, Function.update_self]
  refine ⟨hinv, fun r' hr' => ?_, ?_⟩
  · rw [hfailed, (h.inv.insert_failed hlt hnot).1.mem_iff, List.mem_cons, not_or] at hr'
    rw [hreq, Function.update_of_ne hr'.1]
    exact h.status r' hr'.2
  · rw [hself, MetricsCollector.totals_onRequestFailed, h.totals]
    exact (h.inv.totals_failed hlt hnot hcreated hcompleted hfailed hreq).symm

/-- What is asked of an act: a new request has an id of its own, and a cancellation is reported. -/
def Reported (s : Metered F Row) (a : PassTimes F × Act) : Prop :=
  match a.2 with
  | .call op => Engine.NewId s.engine op ∧ op.isCancel = false
  | .timeOut _ => True

instance (s : Metered F Row) (a : PassTimes F × Act) : Decidable (Reported s a) :=
  match a with
  | (_, .call _) => inferInstanceAs (Decidable (_ ∧ _))
  | (_, .timeOut _) => inferInstanceAs (Decidable True)

variable [LinearOrder Score] {chain : Int → List Nat → Int} {model : InferenceModel Row Score}

omit [Field F] in
/-- Only the slots and the settings change. -/
theorem Ledger.resized (h : Ledger s) {e : Engine Row} (hinv : Inv e.scheduler)
    (hs : Scheduler.OnlyResized s.engine.scheduler e.scheduler) :
    Ledger { s with engine := e } := by
  refine ⟨hinv, fun r hr => ?_, h.totals.trans ?_⟩
  · rw [hs.failed] at hr
    rw [hs.requests]
    exact h.status r hr
  · exact (Scheduler.totals_congr hs.created hs.completed hs.failed fun r _ => by
      rw [hs.requests]
      exact ⟨rfl, rfl⟩).symm

/-- **One act keeps the ledger**, on either exit. -/
theorem Ledger.nextAct (h : Ledger s) (hlive : Scheduler.Live s.engine.scheduler)
    {a : PassTimes F × Act} (ha : Reported s a) : Ledger (nextAct chain model s a) := by
  obtain ⟨passes, a⟩ := a
  cases a with
  | timeOut requestId =>
    rw [Metered.nextAct, act]
    rcases after_timeOut_cases h.inv requestId with
      ⟨r, hr, hafter⟩ | ⟨r, hr, b, hb, hafter⟩ | hafter
    · rw [hafter]
      exact h.timedOut (h.inv.waiting_lt hr) (h.inv.waiting_notMem_ended hr)
        (h.inv.dropWaiting hr _) rfl rfl rfl rfl rfl
    · rw [hafter]
      exact h.timedOut (h.inv.running_lt hr) (h.inv.running_notMem_ended hr)
        (h.inv.failRunning hr hb _) rfl rfl rfl rfl rfl
    · rw [hafter]
      exact h
  | call op =>
    obtain ⟨hid, hcancel⟩ := ha
    have hinv : Inv (Engine.next chain model s.engine op).scheduler :=
      Engine.next_inv hlive h.inv hid
    have hsetting : isSetting op = true → Ledger (Exec.after (call chain model passes op) s) :=
      fun hop => by
        rw [after_setting hop]
        exact h.resized hinv (next_setting hop s.engine)
    cases op with
    | cancelRequest => cases hcancel
    | addRequest requestId promptTokenIds maxNewTokens =>
      rw [Metered.nextAct, act, call, Exec.after_dropped]
      exact h.submitted hid
    | step =>
      rw [Metered.nextAct, act, call, Exec.after_dropped]
      exact ((piecesClosed_ledger passes).step s ⟨hlive, h, rfl⟩).inv
    | reconfigure => exact hsetting rfl
    | registerTokenCallback => exact hsetting rfl
    | unregisterTokenCallback => exact hsetting rfl

/-! ## Runs -/

/-- The queues of every run are in order, and the ledger is kept. -/
theorem Ledger.run (h : Ledger s) (hlive : Scheduler.Live s.engine.scheduler)
    {acts : List (PassTimes F × Act)}
    (hacts : Exec.Along Reported (Metered.nextAct chain model) s acts) :
    Ledger (acts.foldl (Metered.nextAct chain model) s) :=
  (Exec.Along.foldl (J := fun s => Ledger s ∧ Scheduler.Live s.engine.scheduler)
    (fun s a h ha => ⟨h.1.nextAct h.2 ha, by
      rw [nextAct_engine h.1.inv]
      exact Engine.next_live h.2 _⟩) ⟨h, hlive⟩ hacts).1

omit [Field F] in
theorem attached_ledger {e : Engine Row} {maxConcurrentRequests prefillChunkSize
      maxTokensPerStep : Int} {usePagedKvCache usePrefixCache : Bool}
    (hnew : Engine.new model maxConcurrentRequests prefillChunkSize maxTokensPerStep
      usePagedKvCache usePrefixCache = .ok e) (windowSec : F) (times : Ref → RequestTimes F)
    (clock : Nat → F) : Ledger (attached e windowSec times clock) := by
  have hinv := Engine.new_inv hnew
  obtain ⟨sch, hs, he⟩ := Exec.bind_eq_ok hnew
  cases he
  unfold Scheduler.new at hs
  split at hs
  · cases hs
  split at hs
  · cases hs
  cases hs
  exact ⟨hinv, fun _ _ => rfl, rfl⟩

/-- **Every request is accounted for.** After any run, whatever the model did and whichever calls
raised, the store has counted each request that was submitted once, each one that ended once, as
completed or as timed out, with its tokens, and the snapshot adds up. -/
theorem requests_accounted [LinearOrder F] [IsStrictOrderedRing F] [FloorRing F]
    (chain : Int → List Nat → Int) {e : Engine Row}
    {maxConcurrentRequests prefillChunkSize maxTokensPerStep : Int}
    {usePagedKvCache usePrefixCache : Bool}
    (hnew : Engine.new model maxConcurrentRequests prefillChunkSize maxTokensPerStep
      usePagedKvCache usePrefixCache = .ok e) (windowSec : F) (times : Ref → RequestTimes F)
    (clock : Nat → F) (acts : List (PassTimes F × Act))
    (hacts : Exec.Along Reported (Metered.nextAct chain model) (attached e windowSec times clock)
      acts) :
    let s := acts.foldl (Metered.nextAct chain model) (attached e windowSec times clock)
    let queues := s.engine.scheduler
    s.metrics.store.totals = queues.totals ∧
      s.metrics.store.totalEnqueued
        = queues.waiting.length + queues.running.size + s.metrics.store.finishedTotal ∧
      ∀ now, (s.snapshot now).queuedRequests + (s.snapshot now).activeRequests
            + (s.snapshot now).completedRequests + s.metrics.store.totalTimeouts
          = s.metrics.store.totalEnqueued ∧
        (s.snapshot now).errorRate = 0 ∧ (s.snapshot now).timeoutRate
          = roundTo 4 (MetricsStore.ratio queues.failed.size queues.ended.length) := by
  intro s queues
  have hledger : Ledger s :=
    (attached_ledger hnew windowSec times clock).run (Engine.new_live hnew) hacts
  have htotals : s.metrics.store.totals = queues.totals := hledger.totals
  have henqueued : s.metrics.store.totalEnqueued = queues.created :=
    congrArg Totals.enqueued htotals
  have hcompleted : s.metrics.store.totalCompleted = queues.completed.size :=
    congrArg Totals.completed htotals
  have herrors : s.metrics.store.totalErrors = 0 := congrArg Totals.errors htotals
  have htimeouts : s.metrics.store.totalTimeouts = queues.failed.size :=
    congrArg Totals.timeouts htotals
  have hfinished : s.metrics.store.finishedTotal = queues.completed.size + queues.failed.size := by
    rw [MetricsStore.finishedTotal, hcompleted, herrors, htimeouts, Nat.add_zero]
  have hparts : queues.created = queues.waiting.length + queues.running.size
      + queues.completed.size + queues.failed.size := hledger.inv.created_eq
  refine ⟨htotals, by omega, fun now => ⟨?_, ?_, ?_⟩⟩
  · show (queues.waiting.length : Int) + (queues.running.size : Int)
        + (s.metrics.store.totalCompleted : Int) + (s.metrics.store.totalTimeouts : Int)
      = (s.metrics.store.totalEnqueued : Int)
    omega
  · show roundTo 4 (MetricsStore.ratio s.metrics.store.totalErrors
      s.metrics.store.finishedTotal) = 0
    rw [herrors]
    simp [MetricsStore.ratio, roundTo_zero]
  · show roundTo 4 (MetricsStore.ratio s.metrics.store.totalTimeouts s.metrics.store.finishedTotal)
      = roundTo 4 (MetricsStore.ratio queues.failed.size queues.ended.length)
    rw [hfinished, htimeouts]
    simp [Scheduler.ended, OrderedDict.values, OrderedDict.size]

/-- One request completes, one is timed out while it decodes, and one still waits. -/
def oneOfEach : List (PassTimes Rat × Act) :=
  [(⟨0, 0⟩, .call (.addRequest "a" [1, 2] 1)), (⟨1, 1⟩, .call .step),
    (⟨0, 0⟩, .call (.addRequest "b" [3] 5)), (⟨1, 1⟩, .call .step),
    (⟨0, 0⟩, .call (.addRequest "c" [4] 2)), (⟨0, 0⟩, .timeOut "b"),
    (⟨0, 0⟩, .timeOut "unknown")]

theorem oneOfEach_accounted :
    ∃ e, Engine.new (recallModel ⟨1, 8, 0, 2⟩ sumScores) 1 2 2048 true false = .ok e ∧
      let s := oneOfEach.foldl
        (Metered.nextAct PagedKVCache.sumChain (recallModel ⟨1, 8, 0, 2⟩ sumScores))
        (attached e 60 (fun _ => ⟨0, none, none, none, none⟩) everySecond)
      s.metrics.store.totals = s.engine.scheduler.totals ∧
        s.metrics.store.totals = ⟨3, 1, 0, 1, 3, 2⟩ := by
  obtain ⟨e, hnew⟩ : ∃ e, Engine.new (recallModel ⟨1, 8, 0, 2⟩ sumScores) 1 2 2048 true false
      = .ok e := ⟨_, rfl⟩
  refine ⟨e, hnew, ?_⟩
  have hall := requests_accounted PagedKVCache.sumChain hnew (60 : Rat)
    (fun _ => ⟨0, none, none, none, none⟩) everySecond oneOfEach ?_
  · refine ⟨hall.1, ?_⟩
    cases hnew
    decide +kernel
  · cases hnew
    decide +kernel

end Metered

end Nifre
