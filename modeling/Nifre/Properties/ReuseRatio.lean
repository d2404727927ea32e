import Nifre.Properties.TokensCounted
import Mathlib.Algebra.Field.Rat
import Mathlib.Data.Rat.Floor

/-!
# The prefix reuse ratio

The counters of prompt tokens over a run. They say what the model was given and what was restored
exactly if every hit leaves one whole chunk of its prompt, and then the reuse ratio is right.
-/

namespace Nifre

open Scheduler (Live)
open ModelRunner (started chunked chunkTokens)
open InferenceRequest (GoesOn SameBooks)

variable {F Row Score : Type} [LinearOrder Score]

/-! ## What is handed to the model -/

namespace Engine

variable (chain : Int → List Nat → Int) (model : InferenceModel Row Score)

/-- The real prompt tokens that the next step hands to the model. -/
def forwardedTokens (e : Engine Row) : Nat :=
  if e.scheduler.hasWork = false then 0
  else
    match ((do ensureCache model; onScheduler Scheduler.schedule) : M Row _).run e with
    | .ok result e' => match e'.cache with
      | some c =>
        (ModelRunner.forwardedLens chain result.prefillRequests ⟨e'.scheduler.requests, c⟩).sum
      | none => 0
    | .error _ _ => 0

def Op.isCancel : Op → Bool
  | .cancelRequest .. => true
  | _ => false

/-- The real prompt tokens that a call hands to the model. -/
def forwardedBy (e : Engine Row) : Op → Nat
  | .step => e.forwardedTokens chain model
  | _ => 0

/-- The real prompt tokens that a run hands to the model. -/
def forwardedAlong : Engine Row → List Op → Nat
  | _, [] => 0
  | e, op :: ops => e.forwardedBy chain model op + forwardedAlong (next chain model e op) ops

end Engine

namespace Metered

variable {chain : Int → List Nat → Int} {model : InferenceModel Row Score} {passes : PassTimes F}
  {s s' : Metered F Row}

/-! ## One step -/

section

variable {rs : List Ref} {c : KVCacheType Row} {objects : Ref → InferenceRequest Nat}
  {loaded : Ref → Nat}

/-- The decode half does not touch what the prefill half did. -/
theorem PrefillDone.decode [Field F] {s'' : Metered F Row}
    (h : PrefillDone chain rs s s' c objects loaded) {ds : List Ref}
    (hrun : (decodeBatch model passes ds).run s' = .ok () s'') :
    PrefillDone chain rs s s'' c objects loaded where
  inside := h.inside
  outside := h.outside
  forwarded := h.forwarded
  settled := by
    have hsettled := decodeBatch_settled passes model ds s' h.settled
    rwa [Exec.after_of_ok hrun] at hsettled
  prefilled := fun r hr hcomplete => by
    have hkept := keeps_prefilled (fun _ _ => decodeBatch_settled passes model ds) r s'
      (h.prefilled r hr hcomplete)
    rwa [Exec.after_of_ok hrun] at hkept

theorem PrefillDone.goesOn (h : PrefillDone chain rs s s' c objects loaded) {r : Ref}
    (hr : r ∈ rs) : GoesOn (chunked (started (loaded r) (s.engine.scheduler.requests r)))
      (s'.engine.scheduler.requests r) :=
  h.inside r hr ▸ h.settled.2 r

theorem PrefillDone.goesOn_outside (h : PrefillDone chain rs s s' c objects loaded) {r : Ref}
    (hr : r ∉ rs) : GoesOn (s.engine.scheduler.requests r) (s'.engine.scheduler.requests r) :=
  h.outside r hr ▸ h.settled.2 r

variable (hm : ∀ r, (s.engine.scheduler.requests r).Metered)
  (hstate : ∀ r ∈ rs, (s.engine.scheduler.requests r).state = .prefill)

include hm hstate

theorem PrefillDone.metered (h : PrefillDone chain rs s s' c objects loaded) (r : Ref) :
    (s'.engine.scheduler.requests r).Metered := by
  by_cases hr : r ∈ rs
  · refine ((hm r).advances (hstate r hr) (loaded r)).metered (hm r) (hstate r hr) (h.goesOn hr)
      fun hcomplete => h.prefilled r hr ?_
    rwa [h.inside r hr]
  · exact (hm r).goesOn (h.goesOn_outside hr)

variable {k : Nat} (hnd : rs.Nodup) (hlt : ∀ r ∈ rs, r < k)

include hnd hlt

theorem PrefillDone.forwarded_sum (h : PrefillDone chain rs s s' c objects loaded) :
    ∑ r ∈ Finset.range k, (s'.engine.scheduler.requests r).forwarded
      = ∑ r ∈ Finset.range k, (s.engine.scheduler.requests r).forwarded
        + (ModelRunner.forwardedLens chain rs ⟨s.engine.scheduler.requests, c⟩).sum := by
  rw [h.forwarded]
  refine sum_batch hnd hlt (fun r hr => ?_) fun r hr => ?_
  · rw [(h.goesOn hr).toSameBooks.forwarded]
    exact ((hm r).advances (hstate r hr) (loaded r)).forwarded
  · exact (h.goesOn_outside hr).toSameBooks.forwarded

theorem PrefillDone.counted_sum (h : PrefillDone chain rs s s' c objects loaded) :
    ∑ r ∈ Finset.range k, ((s'.engine.scheduler.requests r).counted : Int)
      = ∑ r ∈ Finset.range k, ((s.engine.scheduler.requests r).counted : Int)
        + prefillTokensThisStep s.engine.scheduler.requests rs := by
  refine sum_batch hnd hlt (fun r hr => ?_) fun r hr => ?_
  · rw [(h.goesOn hr).toSameBooks.counted]
    exact ((hm r).advances (hstate r hr) (loaded r)).counted
  · rw [(h.goesOn_outside hr).toSameBooks.counted]

theorem PrefillDone.reported_sum (h : PrefillDone chain rs s s' c objects loaded) :
    ∑ r ∈ Finset.range k, (s'.engine.scheduler.requests r).reported
      = ∑ r ∈ Finset.range k, (s.engine.scheduler.requests r).reported
        + (rs.map fun r => (objects r).prefixCacheHitTokens).sum := by
  refine sum_batch hnd hlt (fun r hr => ?_) fun r hr => ?_
  · rw [(h.goesOn hr).toSameBooks.reported, h.inside r hr]
    exact ((hm r).advances (hstate r hr) (loaded r)).reported
  · exact (h.goesOn_outside hr).toSameBooks.reported

end

variable [Field F]

/-- The counters are those of the books. -/
structure Booked (s : Metered F Row) : Prop where
  always : Engine.Always Engine.Chunked s.engine
  metered : ∀ r, (s.engine.scheduler.requests r).Metered
  complete : ∀ r, Engine.PromptFirst (s.engine.scheduler.requests r)
  prefill : s.metrics.counters.1 = s.engine.scheduler.total (·.counted)
  saved : s.metrics.counters.2 = s.engine.scheduler.total (·.reported)

/-- **A step that returned keeps the books**, and adds the tokens it hands over. -/
theorem Booked.step (h : Booked s) {more : Bool}
    (hrun : (step chain model passes).run s = .ok more s') : Booked s' ∧
      s'.engine.scheduler.total (·.forwarded) = s.engine.scheduler.total (·.forwarded)
        + s.engine.forwardedTokens chain model := by
  have hengine : (Engine.step chain model).run s.engine = .ok more s'.engine := by
    rw [← step_mirrors chain model passes s, hrun]
    rfl
  have halways : Engine.Always Engine.Chunked s'.engine := by
    have hnext := (Engine.callClosed_chunked chain model).next h.always .step
    rwa [Engine.next, Engine.call, Exec.after_dropped, Exec.after_of_ok hengine] at hnext
  have hcreated : s'.engine.scheduler.created = s.engine.scheduler.created := by
    have hduring := (Engine.requestClosed_promptFirst.stepClosed model).step
      (cacheSteps_any chain model) s.engine ⟨h.always.live, h.complete, rfl⟩
    rw [Exec.after_of_ok hengine] at hduring
    exact hduring.created
  have hcomplete := Engine.requestClosed_promptFirst.step h.always.live h.complete hengine
  unfold Metered.step at hrun
  rw [Exec.run_bind_ok (EStateM.run_get s)] at hrun
  unfold Engine.forwardedTokens
  by_cases hwork : s.engine.scheduler.hasWork = false
  · rw [if_pos hwork] at hrun ⊢
    cases hrun
    exact ⟨h, rfl⟩
  rw [if_neg hwork] at hrun ⊢
  obtain ⟨u, s₁, hcache, hrun⟩ := Exec.run_bind_eq_ok hrun
  obtain ⟨e₁, hensure, rfl⟩ := onEngine_eq_ok hcache
  obtain ⟨hscheduler, c, hc⟩ := Engine.ensureCache_ok hensure
  obtain ⟨result, s₂, hsched, hrun⟩ := Exec.run_bind_eq_ok hrun
  obtain ⟨e₂, hschedule, rfl⟩ := onEngine_eq_ok hsched
  obtain ⟨_, hpicks, hprefill, -⟩ := Scheduler.schedule_run e₁.scheduler
  cases (Engine.onScheduler_run (e := e₁) hpicks).symm.trans hschedule
  rw [Exec.run_bind_ok hensure, hschedule]
  simp only [hc]
  obtain ⟨v, s₃, hbatch, hrun⟩ := Exec.run_bind_eq_ok hrun
  obtain ⟨w, s₄, hdecode, hrun⟩ := Exec.run_bind_eq_ok hrun
  cases hrun
  -- the requests have got their slots, and the books are as before
  obtain ⟨hsame, hassigned⟩ := h.always.live.assigned_metered h.metered
  have hlive := h.always.live.assignWaitingToSlots
  rw [← hscheduler] at hsame hassigned hlive
  have hnd : result.prefillRequests.Nodup := hprefill.nodup (hlive.running_nodup.filter _)
  have hmem : ∀ r ∈ result.prefillRequests,
      r ∈ e₁.scheduler.assignWaitingToSlots.running.values ∧
        (e₁.scheduler.assignWaitingToSlots.requests r).state = .prefill :=
    fun r hr => by simpa using List.mem_filter.mp (hprefill.subset hr)
  obtain ⟨objects, loaded, hdone⟩ := prefillBatch_done hnd hc hbatch
  have hall := hdone.decode hdecode
  have hlt : ∀ r ∈ result.prefillRequests, r < s.engine.scheduler.created := fun r hr => by
    rw [← hscheduler, ← hsame]
    exact (hlive.running r (hmem r hr).1).1
  have hm := fun r => (hassigned r).1
  have hstate := fun r hr => (hmem r hr).2
  have hbooks : ∀ f : InferenceRequest Nat → Nat,
      (∀ {q q'}, SameBooks q q' → f q' = f q) →
      ∑ r ∈ Finset.range s.engine.scheduler.created,
        f (e₁.scheduler.assignWaitingToSlots.requests r) = s.engine.scheduler.total f :=
    fun f hf => Finset.sum_congr rfl fun r _ => by rw [hf (hassigned r).2, hscheduler]
  refine ⟨⟨halways, hall.metered hm hstate, hcomplete, ?_, ?_⟩, ?_⟩
  · rw [hall.settled.1]
    simp only [Scheduler.total, hcreated]
    rw [Nat.cast_sum, hall.counted_sum hm hstate hnd hlt, ← Nat.cast_sum,
      hbooks _ SameBooks.counted, ← h.prefill]
  · rw [hall.settled.1]
    simp only [Scheduler.total, hcreated]
    rw [hall.reported_sum hm hstate hnd hlt, hbooks _ SameBooks.reported, ← h.saved]
  · simp only [Scheduler.total, hcreated]
    rw [hall.forwarded_sum hm hstate hnd hlt, hbooks _ SameBooks.forwarded]
    rfl

/-! ## The other calls -/

/-- What is asked of a call: it is no cancellation, and it returns. -/
def Undisturbed (chain : Int → List Nat → Int) (model : InferenceModel Row Score)
    (s : Metered F Row) (op : PassTimes F × Engine.Op) : Prop :=
  op.2.isCancel = false ∧ Exec.Returns (call chain model op.1 op.2) s

instance (chain : Int → List Nat → Int) (model : InferenceModel Row Score) (s : Metered F Row)
    (op : PassTimes F × Engine.Op) : Decidable (Undisturbed chain model s op) :=
  inferInstanceAs (Decidable (_ ∧ _))

/-- The books of a new request are empty. -/
theorem newRequest_books {e : Engine Row} (hchunk : 1 ≤ e.prefillChunkSize) (requestId : String)
    (promptTokenIds : List Nat) (maxNewTokens : Int) :
    (e.newRequest requestId promptTokenIds maxNewTokens).Metered ∧
      (e.newRequest requestId promptTokenIds maxNewTokens).forwarded = 0 ∧
      (e.newRequest requestId promptTokenIds maxNewTokens).counted = 0 ∧
      (e.newRequest requestId promptTokenIds maxNewTokens).reported = 0 :=
  ⟨⟨hchunk, fun _ => rfl, fun _ => ⟨rfl, rfl⟩, le_rfl, Nat.zero_le _, fun hs => by cases hs⟩,
    rfl, rfl, Nat.zero_mul _⟩

theorem total_withRequest (sch : Scheduler Nat) (q : InferenceRequest Nat)
    (f : InferenceRequest Nat → Nat) :
    (Engine.withRequest sch q).total f = sch.total f + f q := by
  have hold : ∀ r ∈ Finset.range sch.created,
      f ((Engine.withRequest sch q).requests r) = f (sch.requests r) := fun r hr => by
    rw [Engine.withRequest_old sch q (Finset.mem_range.mp hr)]
  calc (Engine.withRequest sch q).total f
      = ∑ r ∈ Finset.range sch.created, f ((Engine.withRequest sch q).requests r)
        + f ((Engine.withRequest sch q).requests sch.created) := Finset.sum_range_succ _ _
    _ = sch.total f + f q := by
        rw [Engine.withRequest_new, Finset.sum_congr rfl hold]
        rfl

omit [Field F] in
/-- **A submission** opens the books of a request. -/
theorem Booked.addRequest (h : Booked s) (halways : Engine.Always Engine.Chunked s'.engine)
    (requestId : String) (promptTokenIds : List Nat) (maxNewTokens : Int) {id : String}
    (hrun : (addRequest requestId promptTokenIds maxNewTokens).run s = .ok id s') :
    Booked s' ∧ s'.engine.scheduler.total (·.forwarded)
      = s.engine.scheduler.total (·.forwarded) := by
  unfold Metered.addRequest at hrun
  rw [Exec.run_bind_ok (EStateM.run_get s)] at hrun
  obtain ⟨id', s₁, hadd, hrun⟩ := Exec.run_bind_eq_ok hrun
  obtain ⟨e₁, hengine, rfl⟩ := onEngine_eq_ok hadd
  cases (Engine.addRequest_run s.engine _ _ _).symm.trans hengine
  cases hrun
  obtain ⟨hmetered, hforwarded, hcounted, hreported⟩ := newRequest_books h.always.inv.1 requestId
    promptTokenIds maxNewTokens
  set q := s.engine.newRequest requestId promptTokenIds maxNewTokens with hq
  have hnew : ∀ {P : InferenceRequest Nat → Prop}, P q →
      (∀ r, P (s.engine.scheduler.requests r)) →
      ∀ r, P ((Engine.withRequest s.engine.scheduler q).requests r) := by
    intro P hP hall r
    by_cases he : r = s.engine.scheduler.created
    · rw [he, Engine.withRequest_new]
      exact hP
    · have hold : (Engine.withRequest s.engine.scheduler q).requests r
          = s.engine.scheduler.requests r := Function.update_of_ne he _ _
      rw [hold]
      exact hall r
  have htotal : ∀ {f : InferenceRequest Nat → Nat}, f q = 0 →
      (Engine.withRequest s.engine.scheduler q).total f = s.engine.scheduler.total f :=
    fun hf => by rw [total_withRequest, hf, Nat.add_zero]
  refine ⟨⟨halways, hnew hmetered h.metered, hnew ?_ h.complete, ?_, ?_⟩, htotal hforwarded⟩
  · rintro (hs | hs) <;> cases hs
  · exact h.prefill.trans (congrArg Nat.cast (htotal hcounted).symm)
  · exact h.saved.trans (htotal hreported).symm

omit [Field F] in
/-- A call that leaves the requests and the counters alone. -/
theorem Booked.same (h : Booked s) (halways : Engine.Always Engine.Chunked s'.engine)
    (hrequests : s'.engine.scheduler.requests = s.engine.scheduler.requests)
    (hcreated : s'.engine.scheduler.created = s.engine.scheduler.created)
    (hmetrics : s'.metrics = s.metrics) : Booked s' ∧
      s'.engine.scheduler.total (·.forwarded) = s.engine.scheduler.total (·.forwarded) := by
  have hsame : ∀ f, s'.engine.scheduler.total f = s.engine.scheduler.total f := fun f => by
    unfold Scheduler.total
    rw [hrequests, hcreated]
  refine ⟨⟨halways, ?_, ?_, ?_, ?_⟩, hsame _⟩
  · rw [hrequests]
    exact h.metered
  · rw [hrequests]
    exact h.complete
  · rw [hmetrics, hsame]
    exact h.prefill
  · rw [hmetrics, hsame]
    exact h.saved

/-- **A call keeps the books.** -/
theorem Booked.next (h : Booked s) {op : PassTimes F × Engine.Op}
    (hop : Undisturbed chain model s op) :
    Booked (next chain model s op) ∧
      (next chain model s op).engine.scheduler.total (·.forwarded)
        = s.engine.scheduler.total (·.forwarded) + s.engine.forwardedBy chain model op.2 := by
  obtain ⟨hcancel, _, s', hrun⟩ := hop
  obtain ⟨passes, op⟩ := op
  have halways : Engine.Always Engine.Chunked (Metered.next chain model s (passes, op)).engine := by
    rw [next_engine]
    exact (Engine.callClosed_chunked chain model).next h.always op
  rw [Metered.next, Exec.after_of_ok hrun] at halways ⊢
  simp only at hrun halways ⊢
  cases op with
  | addRequest requestId promptTokenIds maxNewTokens =>
    obtain ⟨id, s₁, hadd, hrest⟩ := Exec.run_bind_eq_ok hrun
    cases hrest
    exact h.addRequest halways requestId promptTokenIds maxNewTokens hadd
  | step =>
    obtain ⟨more, s₁, hstep, hrest⟩ := Exec.run_bind_eq_ok hrun
    cases hrest
    exact h.step hstep
  | cancelRequest requestId status => cases hcancel
  | reconfigure prefillChunkSize maxTokensPerStep maxConcurrentRequests usePaged usePrefix =>
    obtain ⟨e', hengine, rfl⟩ := onEngine_eq_ok hrun
    obtain ⟨config, e₁, hconfig, hrest⟩ := Exec.run_bind_eq_ok hengine
    cases hrest
    set J : Engine Row → Prop := fun e => e.scheduler.requests = s.engine.scheduler.requests ∧
      e.scheduler.created = s.engine.scheduler.created with hJ
    have hkept : Exec.Keeps J (Engine.reconfigure prefillChunkSize maxTokensPerStep
        maxConcurrentRequests usePaged usePrefix) :=
      Engine.reconfigure_pieces (fun _ _ h => h) (fun _ _ _ h => h) (fun _ _ _ h => h)
        (fun _ _ _ h => h) fun _ e h => Engine.reconfigureScheduler_pieces
          (fun e' s' h hs => ⟨hs.requests.trans h.1, hs.created.trans h.2⟩) (fun _ _ h => h) e h
    have hsame := hkept s.engine ⟨rfl, rfl⟩
    rw [Exec.after_of_ok hconfig] at hsame
    exact h.same halways hsame.1 hsame.2 rfl
  | registerTokenCallback requestId =>
    cases hrun
    exact h.same halways rfl rfl rfl
  | unregisterTokenCallback requestId =>
    cases hrun
    exact h.same halways rfl rfl rfl

/-- **A run keeps the books.** -/
theorem Booked.run (h : Booked s) {ops : List (PassTimes F × Engine.Op)}
    (hops : Exec.Along (Undisturbed chain model) (Metered.next chain model) s ops) :
    Booked (ops.foldl (Metered.next chain model) s) ∧
      (ops.foldl (Metered.next chain model) s).engine.scheduler.total (·.forwarded)
        = s.engine.scheduler.total (·.forwarded)
          + s.engine.forwardedAlong chain model (ops.map Prod.snd) := by
  induction ops generalizing s with
  | nil => exact ⟨h, rfl⟩
  | cons op ops ih =>
    obtain ⟨hnext, htotal⟩ := h.next hops.1
    obtain ⟨hfinal, hsum⟩ := ih hnext hops.2
    refine ⟨hfinal, hsum.trans ?_⟩
    rw [htotal, next_engine, Nat.add_assoc]
    rfl

end Metered

/-! ## When all prompts are processed -/

namespace InferenceRequest

variable {q : InferenceRequest Nat}

theorem Metered.le_reported : q.prefixCacheHitTokens ≤ q.reported :=
  Nat.le_mul_of_pos_right _ (lt_max_of_lt_left Nat.one_pos)

/-- **The books of a request are right** exactly if nothing was restored for it, or all of its
prompt but one chunk. -/
theorem Metered.right_iff (h : q.Metered) (hfull : q.numPromptTokens ≤ q.prefillOffset) :
    q.counted = q.forwarded ∧ q.reported = q.prefixCacheHitTokens ∧
        q.prefillOffset = q.numPromptTokens ↔
      q.prefixCacheHitTokens = 0 ∨
        (q.prefixCacheHitTokens : Int) + q.prefillChunkSize = q.numPromptTokens := by
  have hc := h.chunk
  have hhit := h.hit
  have hbound := h.bound
  obtain ⟨c, hchunk⟩ : ∃ c : Nat, q.prefillChunkSize = c :=
    ⟨_, (Int.toNat_of_nonneg (by omega)).symm⟩
  have hpos : 0 < c := by omega
  unfold counted reported overcount forwarded
  rw [hchunk, Int.toNat_natCast]
  by_cases hnone : q.prefixCacheHitTokens = 0
  · rw [if_pos hnone, hnone, Nat.zero_mul]
    omega
  rw [if_neg hnone, Nat.mul_eq_left hnone]
  constructor
  · rintro ⟨hover, honce, hlen⟩
    have hrest : q.prefillOffset - q.prefixCacheHitTokens ≤ c * 1 :=
      (ceilDiv_le_iff_le_mul hpos).mp ((le_max_right _ _).trans_eq honce)
    omega
  · intro hsum
    have hrest : (q.prefillOffset - q.prefixCacheHitTokens) ⌈/⌉ c ≤ 1 :=
      (ceilDiv_le_iff_le_mul hpos).mpr (by omega)
    exact ⟨by omega, max_eq_left hrest, by omega⟩

end InferenceRequest

namespace Scheduler

variable {s : Scheduler Nat}

/-- Where nothing is less, the totals are the same only if all is the same. -/
theorem total_eq_iff {f g : InferenceRequest Nat → Nat}
    (hle : ∀ r < s.created, f (s.requests r) ≤ g (s.requests r)) :
    s.total g = s.total f ↔ ∀ r < s.created, g (s.requests r) = f (s.requests r) := by
  unfold total
  rw [eq_comm, Finset.sum_eq_sum_iff_of_le fun r hr => hle r (Finset.mem_range.mp hr)]
  exact ⟨fun h r hr => (h r (Finset.mem_range.mpr hr)).symm,
    fun h r hr => (h r (Finset.mem_range.mp hr)).symm⟩

/-- **All books are right** exactly if those of every request are. -/
theorem totals_right_iff (hm : ∀ r, (s.requests r).Metered)
    (hfull : ∀ r < s.created, (s.requests r).numPromptTokens ≤ (s.requests r).prefillOffset) :
    s.total (·.counted) = s.total (·.forwarded) ∧
        s.total (·.reported) = s.total (·.prefixCacheHitTokens) ∧
        s.total (·.forwarded) + s.total (·.prefixCacheHitTokens) = s.total (·.numPromptTokens) ↔
      ∀ r < s.created, (s.requests r).prefixCacheHitTokens = 0 ∨
        ((s.requests r).prefixCacheHitTokens : Int) + (s.requests r).prefillChunkSize
          = (s.requests r).numPromptTokens := by
  have hoffset : s.total (·.forwarded) + s.total (·.prefixCacheHitTokens)
      = s.total (·.prefillOffset) := by
    unfold total
    rw [← Finset.sum_add_distrib]
    exact Finset.sum_congr rfl fun r _ => Nat.sub_add_cancel (hm r).hit
  rw [hoffset, total_eq_iff fun r _ => Nat.le_add_right _ _,
    total_eq_iff fun r _ => InferenceRequest.Metered.le_reported, total_eq_iff hfull,
    ← forall₂_and, ← forall₂_and]
  exact forall₂_congr fun r hr => (hm r).right_iff (hfull r hr)

end Scheduler

namespace MetricsStore

variable [Field F] [LinearOrder F] [IsStrictOrderedRing F] [FloorRing F]

/-- Where the two counters add up to all prompt tokens, the reuse ratio is that of what was saved
to all. -/
theorem reuseRatio_eq {store : MetricsStore F} {hits prompts : Nat}
    (hsaved : store.prefixCacheTokensSaved = hits)
    (hsum : store.totalPrefillTokens + store.prefixCacheTokensSaved = prompts) (now : F)
    (activeRequests queuedRequests : Int) :
    (store.snapshot now activeRequests queuedRequests).prefixCacheReuseRatio
        = roundTo 4 (ratio hits prompts) ∧
      (workloadSnapshotFromMetrics
          (store.snapshot now activeRequests queuedRequests).metrics).prefixCacheHitRate
        = ratio hits prompts := by
  have hall : (store.prefixCacheTokensSaved : Int) + store.totalPrefillTokens = prompts := by
    rw [add_comm, hsum]
  have hcast : (store.prefixCacheTokensSaved : F) + store.totalPrefillTokens = prompts := by
    exact_mod_cast congrArg (Int.cast : Int → F) hall
  constructor
  · show (if 0 < (store.prefixCacheTokensSaved : Int) + store.totalPrefillTokens then
      roundTo 4 (ratio store.prefixCacheTokensSaved
        (store.prefixCacheTokensSaved + store.totalPrefillTokens)) else 0) = _
    rw [hall, hsaved]
    by_cases hnone : prompts = 0
    · subst hnone
      simp [ratio, roundTo]
    · rw [if_pos (Int.natCast_pos.mpr (Nat.pos_of_ne_zero hnone))]
  · show (if 0 < (store.prefixCacheTokensSaved : F) + store.totalPrefillTokens then
      (store.prefixCacheTokensSaved : F) / (store.prefixCacheTokensSaved + store.totalPrefillTokens)
      else 0) = _
    rw [hcast, hsaved]
    unfold ratio
    by_cases hnone : prompts = 0
    · subst hnone
      simp
    · rw [if_pos (Nat.cast_pos.mpr (Nat.pos_of_ne_zero hnone)), if_neg (by exact_mod_cast hnone)]
      simp

end MetricsStore

namespace Metered

variable [Field F] {model : InferenceModel Row Score} {e : Engine Row}

/-- A new engine with a new collector. -/
def attached (e : Engine Row) (windowSec : F) (times : Ref → RequestTimes F) (clock : Nat → F) :
    Metered F Row :=
  ⟨e, ⟨MetricsStore.new windowSec, times, clock⟩⟩

omit [Field F] [LinearOrder Score] in
theorem attached_booked {maxConcurrentRequests prefillChunkSize maxTokensPerStep : Int}
    {usePagedKvCache usePrefixCache : Bool} (hchunk : 1 ≤ prefillChunkSize)
    (hnew : Engine.new model maxConcurrentRequests prefillChunkSize maxTokensPerStep
      usePagedKvCache usePrefixCache = .ok e) (windowSec : F) (times : Ref → RequestTimes F)
    (clock : Nat → F) :
    Booked (attached e windowSec times clock) ∧ e.scheduler.total (·.forwarded) = 0 := by
  have hchunked := Engine.new_chunked hchunk hnew
  have hlive := Engine.new_live hnew
  obtain ⟨sch, hs, he⟩ := Exec.bind_eq_ok hnew
  cases he
  unfold Scheduler.new at hs
  split at hs
  · cases hs
  split at hs
  · cases hs
  cases hs
  refine ⟨⟨⟨hlive, hchunked⟩, fun r => ?_, fun r hs => ?_, rfl, rfl⟩, rfl⟩
  · exact ⟨hchunked.2 r, fun _ => rfl, fun _ => ⟨rfl, rfl⟩, le_rfl, Nat.zero_le _,
      fun hs => by cases hs⟩
  · rcases hs with hs | hs <;> cases hs

/-- **The prompt tokens are counted once** exactly if every prefix that was restored left one whole
chunk of its prompt. Otherwise the first chunk after it is counted too long, or the prefix is
reported again with every further chunk. -/
theorem promptTokens_once_iff [LinearOrder F] [IsStrictOrderedRing F] [FloorRing F]
    (chain : Int → List Nat → Int) {maxConcurrentRequests prefillChunkSize maxTokensPerStep : Int}
    {usePagedKvCache usePrefixCache : Bool} (hchunk : 1 ≤ prefillChunkSize)
    (hnew : Engine.new model maxConcurrentRequests prefillChunkSize maxTokensPerStep
      usePagedKvCache usePrefixCache = .ok e) (windowSec : F) (times : Ref → RequestTimes F)
    (clock : Nat → F) (ops : List (PassTimes F × Engine.Op))
    (hops : Exec.Along (Undisturbed chain model) (Metered.next chain model)
      (attached e windowSec times clock) ops)
    (hdone : ∀ r < (ops.foldl (Metered.next chain model)
        (attached e windowSec times clock)).engine.scheduler.created,
      ((ops.foldl (Metered.next chain model)
        (attached e windowSec times clock)).engine.scheduler.requests r).Prefilled) :
    let s := ops.foldl (Metered.next chain model) (attached e windowSec times clock)
    let store := s.metrics.store
    let restored := s.engine.scheduler.total (·.prefixCacheHitTokens)
    let prompts := s.engine.scheduler.total (·.numPromptTokens)
    (store.totalPrefillTokens = e.forwardedAlong chain model (ops.map Prod.snd) ∧
        store.prefixCacheTokensSaved = restored ∧
        store.totalPrefillTokens + store.prefixCacheTokensSaved = prompts ∧
        ∀ now activeRequests queuedRequests,
          (store.snapshot now activeRequests queuedRequests).prefixCacheReuseRatio
              = roundTo 4 (MetricsStore.ratio restored prompts) ∧
            (workloadSnapshotFromMetrics
                (store.snapshot now activeRequests queuedRequests).metrics).prefixCacheHitRate
              = MetricsStore.ratio restored prompts) ↔
      ∀ r < s.engine.scheduler.created,
        (s.engine.scheduler.requests r).prefixCacheHitTokens = 0 ∨
          ((s.engine.scheduler.requests r).prefixCacheHitTokens : Int)
              + (s.engine.scheduler.requests r).prefillChunkSize
            = (s.engine.scheduler.requests r).numPromptTokens := by
  intro s store restored prompts
  obtain ⟨hbooked, hnone⟩ := attached_booked hchunk hnew windowSec times clock
  obtain ⟨hfinal, hforwarded⟩ := hbooked.run hops
  have hsent : s.engine.scheduler.total (·.forwarded)
      = e.forwardedAlong chain model (ops.map Prod.snd) := by
    rw [hforwarded]
    exact (congrArg (· + _) hnone).trans (Nat.zero_add _)
  -- the condition on each request, as one on the three sums
  rw [← Scheduler.totals_right_iff hfinal.metered fun r hr => hfinal.complete r (hdone r hr)]
  have hprefill : store.totalPrefillTokens = (s.engine.scheduler.total (·.counted) : Nat) :=
    hfinal.prefill
  have hsaved : store.prefixCacheTokensSaved = s.engine.scheduler.total (·.reported) :=
    hfinal.saved
  constructor
  · rintro ⟨htotal, hhits, hsum, -⟩
    rw [hprefill, ← hsent] at htotal
    have hcounted := Nat.cast_injective htotal
    refine ⟨hcounted, hsaved.symm.trans hhits, ?_⟩
    rw [hprefill, hhits, hcounted] at hsum
    exact_mod_cast hsum
  · rintro ⟨hcounted, hreported, hsum⟩
    have hhits : store.prefixCacheTokensSaved = restored := hsaved.trans hreported
    have hall : store.totalPrefillTokens + store.prefixCacheTokensSaved = prompts := by
      rw [hprefill, hhits, hcounted]
      exact_mod_cast hsum
    exact ⟨by rw [hprefill, hcounted, hsent], hhits, hall,
      fun now active queued => MetricsStore.reuseRatio_eq hhits hall now active queued⟩

/-- A clock that is read once a second. -/
def everySecond (n : Nat) : Rat := n

/-- The second prompt begins with the first one, and one chunk follows. -/
def wholeChunkLeft : List (PassTimes Rat × Engine.Op) :=
  [(⟨0, 0⟩, .addRequest "a" [1, 2] 1), (⟨1, 1⟩, .step),
    (⟨0, 0⟩, .addRequest "b" [1, 2, 3, 4] 1), (⟨1, 1⟩, .step)]

/-- What was restored and one chunk make up the second prompt. -/
theorem wholeChunkLeft_once :
    ∃ e, Engine.new (recallModel ⟨1, 8, 0, 2⟩ sumScores) 2 2 2048 true true = .ok e ∧
      let model := recallModel ⟨1, 8, 0, 2⟩ sumScores
      let s := wholeChunkLeft.foldl (Metered.next PagedKVCache.sumChain model)
        (attached e 60 (fun _ => ⟨0, none, none, none, none⟩) everySecond)
      s.metrics.store.totalPrefillTokens
          = e.forwardedAlong PagedKVCache.sumChain model (wholeChunkLeft.map Prod.snd) ∧
        s.metrics.store.prefixCacheTokensSaved
          = s.engine.scheduler.total (·.prefixCacheHitTokens) ∧
        s.metrics.store.totalPrefillTokens + s.metrics.store.prefixCacheTokensSaved
          = s.engine.scheduler.total (·.numPromptTokens) := by
  obtain ⟨e, hnew⟩ : ∃ e, Engine.new (recallModel ⟨1, 8, 0, 2⟩ sumScores) 2 2 2048 true true
      = .ok e := ⟨_, rfl⟩
  refine ⟨e, hnew, ?_⟩
  have honce := (promptTokens_once_iff PagedKVCache.sumChain (by decide) hnew (60 : Rat)
    (fun _ => ⟨0, none, none, none, none⟩) everySecond wholeChunkLeft ?_ ?_).mpr ?_
  · exact ⟨honce.1, honce.2.1, honce.2.2.1⟩
  · cases hnew
    decide +kernel
  · cases hnew
    decide +kernel
  · cases hnew
    decide +kernel

/-- The second prompt of the run is processed too. -/
def shortRest : List (PassTimes Rat × Engine.Op) :=
  [(⟨0, 0⟩, .addRequest "a" [1, 2, 3] 2), (⟨1, 1⟩, .step),
    (⟨0, 0⟩, .addRequest "b" [1, 2, 4] 1), (⟨1, 1⟩, .step)]

/-- **A hit is counted as prefilled too** where less than a chunk is left of the prompt. -/
theorem shortRest_twice :
    ∃ e, Engine.new (recallModel ⟨1, 8, 0, 2⟩ sumScores) 2 4 2048 true true = .ok e ∧
      let model := recallModel ⟨1, 8, 0, 2⟩ sumScores
      let s₀ := attached e 60 (fun _ => ⟨0, none, none, none, none⟩) everySecond
      let s := shortRest.foldl (Metered.next PagedKVCache.sumChain model) s₀
      Exec.Along (Undisturbed PagedKVCache.sumChain model)
          (Metered.next PagedKVCache.sumChain model) s₀ shortRest ∧
        (∀ r < s.engine.scheduler.created, (s.engine.scheduler.requests r).Prefilled) ∧
        e.forwardedAlong PagedKVCache.sumChain model (shortRest.map Prod.snd) = 4 ∧
        s.metrics.store.totalPrefillTokens = 6 ∧ s.metrics.store.prefixCacheTokensSaved = 2 ∧
        s.engine.scheduler.total (·.numPromptTokens) = 6 := by
  obtain ⟨e, hnew⟩ : ∃ e, Engine.new (recallModel ⟨1, 8, 0, 2⟩ sumScores) 2 4 2048 true true
      = .ok e := ⟨_, rfl⟩
  refine ⟨e, hnew, ?_⟩
  cases hnew
  decide +kernel

end Metered

end Nifre
