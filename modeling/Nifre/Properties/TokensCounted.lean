import Nifre.Properties.Metering
import Nifre.Properties.StepBudget
import Nifre.Properties.StepsLeft

/-!
# Prompt tokens in the metrics

The tokens of a step are counted before the model runner looks for a cached prefix, so the first
chunk after a hit may be counted longer than it is. A hit is reported again with every chunk of the
request. The metrics are right exactly if what a hit leaves of a prompt is one whole chunk.
-/

namespace Nifre

open Scheduler (Live)
open ModelRunner (started chunked chunkTokens)

/-! ## One request -/

namespace InferenceRequest

/-- The prompt tokens that were handed to the model. -/
def forwarded (q : InferenceRequest Nat) : Nat := q.prefillOffset - q.prefixCacheHitTokens

/-- By how many tokens the first chunk after a hit is counted too long. -/
def overcount (q : InferenceRequest Nat) : Nat :=
  if q.prefixCacheHitTokens = 0 then 0
  else min q.prefillChunkSize.toNat q.numPromptTokens
    - min q.prefillChunkSize.toNat (q.numPromptTokens - q.prefixCacheHitTokens)

/-- The prompt tokens that were counted. -/
def counted (q : InferenceRequest Nat) : Nat := q.forwarded + q.overcount

/-- The tokens that were reported as saved: the hit, with every chunk. -/
def reported (q : InferenceRequest Nat) : Nat :=
  q.prefixCacheHitTokens * max 1 (q.forwarded ⌈/⌉ q.prefillChunkSize.toNat)

/-- What holds of a request between the calls. -/
structure Metered (q : InferenceRequest Nat) : Prop where
  chunk : 1 ≤ q.prefillChunkSize
  waiting : q.state = .waiting → q.slotPrepared = false
  fresh : q.slotPrepared = false → q.prefillOffset = 0 ∧ q.prefixCacheHitTokens = 0
  hit : q.prefixCacheHitTokens ≤ q.prefillOffset
  bound : q.prefillOffset ≤ max q.numPromptTokens q.prefixCacheHitTokens
  /-- A request that prefills on has come a number of whole chunks since the hit. -/
  whole : q.state = .prefill → q.slotPrepared = true → q.prefillOffset < q.numPromptTokens ∧
    ∃ k, q.forwarded = (k + 1) * q.prefillChunkSize.toNat

variable {q : InferenceRequest Nat}

theorem length_chunkTokens (hchunk : 1 ≤ q.prefillChunkSize) : (chunkTokens q).length
    = min q.prefillChunkSize.toNat (q.numPromptTokens - q.prefillOffset) := by
  unfold chunkTokens pySlice numPromptTokens
  simp only
  rw [if_neg (by omega), List.length_drop, List.length_take]
  omega

theorem ceilDiv_add_mul {n c k : Nat} (hc : 0 < c) (hn : 0 < n) (hle : n ≤ c) :
    (k * c + n) ⌈/⌉ c = k + 1 := by
  refine Nat.le_antisymm ((ceilDiv_le_iff_le_mul hc).mpr ?_) ?_
  · rw [Nat.mul_add, Nat.mul_comm c k]
    omega
  · by_contra hlt
    have hle' : (k * c + n) ⌈/⌉ c ≤ k := by omega
    have := (ceilDiv_le_iff_le_mul hc).mp hle'
    rw [Nat.mul_comm c k] at this
    omega

theorem mul_ceilDiv {c k : Nat} (hc : 0 < c) : (k + 1) * c ⌈/⌉ c = k + 1 := by
  rw [Nat.succ_mul]
  exact ceilDiv_add_mul hc hc le_rfl

/-- A request whose slot was not prepared yet starts with what was restored. -/
theorem started_of_fresh (h : q.Metered) (hfresh : q.slotPrepared = false) (loaded : Nat) :
    started loaded q = { q with
      prefillOffset := loaded, prefixCacheHitTokens := loaded, slotPrepared := true } := by
  obtain ⟨hoffset, hhit⟩ := h.fresh hfresh
  rw [started, if_neg (by simp [hfresh]), hoffset, hhit]
  have hsame : (if 0 < loaded then loaded else 0) = loaded := by
    split <;> omega
  rw [hsame]

/-- What a pass adds to the books of a request. -/
structure Advances (q : InferenceRequest Nat) (loaded : Nat) : Prop where
  forwarded : (chunked (started loaded q)).forwarded
    = q.forwarded + (chunkTokens (started loaded q)).length
  counted : ((chunked (started loaded q)).counted : Int) = q.counted + Metered.chunkCount q
  reported : (chunked (started loaded q)).reported
    = q.reported + (chunked (started loaded q)).prefixCacheHitTokens
  hit : (chunked (started loaded q)).prefixCacheHitTokens
    ≤ (chunked (started loaded q)).prefillOffset
  bound : (chunked (started loaded q)).prefillOffset
    ≤ max q.numPromptTokens (chunked (started loaded q)).prefixCacheHitTokens
  whole : (chunked (started loaded q)).prefillOffset < q.numPromptTokens →
    ∃ k, (chunked (started loaded q)).forwarded = (k + 1) * q.prefillChunkSize.toNat

/-- The first pass. -/
theorem Metered.advances_fresh (h : q.Metered) (hfresh : q.slotPrepared = false) (loaded : Nat) :
    Advances q loaded := by
  have hc := h.chunk
  obtain ⟨hoffset, hhit⟩ := h.fresh hfresh
  have hstarted := started_of_fresh h hfresh loaded
  have hlen : (chunkTokens (started loaded q)).length
      = min q.prefillChunkSize.toNat (q.numPromptTokens - loaded) := by
    rw [hstarted]
    exact length_chunkTokens hc
  have hafter : chunked (started loaded q) = { q with
      prefillOffset := loaded + min q.prefillChunkSize.toNat (q.numPromptTokens - loaded)
      prefixCacheHitTokens := loaded
      slotPrepared := true } := by
    unfold chunked ModelRunner.advanced
    rw [hlen, hstarted]
  have hnone : q.forwarded = 0 := by
    unfold InferenceRequest.forwarded
    omega
  have hforwarded : (chunked (started loaded q)).forwarded
      = min q.prefillChunkSize.toNat (q.numPromptTokens - loaded) := by
    rw [hafter]
    exact Nat.add_sub_cancel_left _ _
  refine ⟨by rw [hforwarded, hnone, hlen, Nat.zero_add], ?_, ?_, ?_, ?_, fun hmore => ⟨0, ?_⟩⟩
  · have hcount : Metered.chunkCount q
        = (min q.prefillChunkSize.toNat q.numPromptTokens : Nat) := by
      simp only [Metered.chunkCount, hoffset]
      omega
    unfold InferenceRequest.counted
    rw [hforwarded, hnone, hcount, hafter]
    unfold overcount
    simp only [hhit, if_true, InferenceRequest.numPromptTokens]
    split
    · next hzero =>
      rw [hzero]
      omega
    · omega
  · unfold InferenceRequest.reported
    rw [hforwarded, hhit, hafter]
    simp only [Nat.zero_mul, Nat.zero_add]
    -- what is forwarded is one chunk at most, so the hit is reported once
    have hone : max 1 (min q.prefillChunkSize.toNat (q.numPromptTokens - loaded)
        ⌈/⌉ q.prefillChunkSize.toNat) = 1 := by
      refine max_eq_left ((ceilDiv_le_iff_le_mul (by omega)).mpr ?_)
      rw [Nat.mul_one]
      exact min_le_left _ _
    rw [hone, Nat.mul_one]
  · rw [hafter]
    exact Nat.le_add_right _ _
  · rw [hafter]
    simp only
    omega
  · rw [hafter] at hmore
    simp only at hmore
    rw [hforwarded]
    omega

/-- A later pass. -/
theorem Metered.advances_prepared (h : q.Metered) (hstate : q.state = .prefill)
    (hprepared : q.slotPrepared = true) (loaded : Nat) : Advances q loaded := by
  have hc := h.chunk
  have hhit := h.hit
  obtain ⟨hmore, k, hk⟩ := h.whole hstate hprepared
  have hstarted : started loaded q = q := if_pos hprepared
  have hlen := length_chunkTokens (q := q) hc
  have hafter : chunked (started loaded q) = { q with
      prefillOffset := q.prefillOffset
        + min q.prefillChunkSize.toNat (q.numPromptTokens - q.prefillOffset) } := by
    unfold chunked ModelRunner.advanced
    rw [hstarted, hlen]
  set len := min q.prefillChunkSize.toNat (q.numPromptTokens - q.prefillOffset) with hlenDef
  have hforwarded : (chunked (started loaded q)).forwarded = q.forwarded + len := by
    rw [hafter]
    unfold InferenceRequest.forwarded
    simp only
    omega
  refine ⟨by rw [hforwarded, hstarted, hlen], ?_, ?_, ?_, ?_, fun hless => ⟨k + 1, ?_⟩⟩
  · have hcount : Metered.chunkCount q = (len : Nat) := by
      simp only [Metered.chunkCount]
      omega
    have hover : (chunked (started loaded q)).overcount = q.overcount := by
      rw [hafter]
      rfl
    unfold InferenceRequest.counted
    rw [hforwarded, hover, hcount]
    omega
  · have hpos : 0 < q.prefillChunkSize.toNat := by omega
    have hrows : ((k + 1) * q.prefillChunkSize.toNat + len) ⌈/⌉ q.prefillChunkSize.toNat = k + 2 :=
      ceilDiv_add_mul hpos (by omega) (min_le_left _ _)
    unfold InferenceRequest.reported
    rw [hforwarded, hk, hafter]
    simp only
    rw [hrows, mul_ceilDiv hpos, max_eq_right (by omega), max_eq_right (by omega),
      Nat.mul_succ]
  · rw [hafter]
    exact hhit.trans (Nat.le_add_right _ _)
  · rw [hafter]
    simp only
    omega
  · rw [hafter] at hless
    simp only at hless
    rw [hforwarded, hk, Nat.succ_mul (k + 1)]
    omega

theorem Metered.advances (h : q.Metered) (hstate : q.state = .prefill) (loaded : Nat) :
    Advances q loaded := by
  cases hprepared : q.slotPrepared with
  | false => exact h.advances_fresh hprepared loaded
  | true => exact h.advances_prepared hstate hprepared loaded

/-- What the books say of a request stays. -/
structure SameBooks (q q' : InferenceRequest Nat) : Prop
    extends Scheduler.SameProgress q q' where
  hit : q'.prefixCacheHitTokens = q.prefixCacheHitTokens

variable {q' q'' : InferenceRequest Nat}

theorem SameBooks.forwarded (h : SameBooks q q') : q'.forwarded = q.forwarded := by
  unfold InferenceRequest.forwarded
  rw [h.offset, h.hit]

theorem SameBooks.counted (h : SameBooks q q') : q'.counted = q.counted := by
  unfold InferenceRequest.counted overcount numPromptTokens
  rw [h.forwarded, h.hit, h.chunk, h.prompt]

theorem SameBooks.reported (h : SameBooks q q') : q'.reported = q.reported := by
  unfold InferenceRequest.reported
  rw [h.forwarded, h.hit, h.chunk]

/-- A request that goes on to decode, or ends, or stays. -/
structure GoesOn (q q' : InferenceRequest Nat) : Prop extends SameBooks q q' where
  state : q'.state = q.state ∨ q'.state = .decode ∨ q'.state = .finished

theorem GoesOn.refl (q : InferenceRequest Nat) : GoesOn q q :=
  ⟨⟨⟨rfl, rfl, rfl, rfl, rfl⟩, rfl⟩, Or.inl rfl⟩

theorem GoesOn.trans (h : GoesOn q q') (h' : GoesOn q' q'') : GoesOn q q'' where
  requestId := h'.requestId.trans h.requestId
  prompt := h'.prompt.trans h.prompt
  chunk := h'.chunk.trans h.chunk
  prepared := h'.prepared.trans h.prepared
  offset := h'.offset.trans h.offset
  hit := h'.hit.trans h.hit
  state := by
    rcases h'.state with he | he
    · rw [he]
      exact h.state
    · exact Or.inr he

/-- The request does not prefill any more. -/
def Prefilled (q : InferenceRequest Nat) : Prop := q.state = .decode ∨ q.state = .finished

instance (q : InferenceRequest Nat) : Decidable q.Prefilled := inferInstanceAs (Decidable (_ ∨ _))

theorem GoesOn.prefilled (h : GoesOn q q') (hq : q.Prefilled) : q'.Prefilled := by
  rcases h.state with he | he
  · unfold Prefilled
    rw [he]
    exact hq
  · exact he

theorem Metered.goesOn (h : q.Metered) (hg : GoesOn q q') : q'.Metered := by
  have hback : ∀ s, s ≠ .decode → s ≠ .finished → q'.state = s → q.state = s := by
    intro s hd hf hs
    rcases hg.state with he | he | he
    · exact he.symm.trans hs
    · exact absurd (hs.symm.trans he) hd
    · exact absurd (hs.symm.trans he) hf
  refine ⟨hg.chunk ▸ h.chunk, fun hs => ?_, fun hp => ?_, ?_, ?_, fun hs hp => ?_⟩
  · rw [hg.prepared]
    exact h.waiting (hback _ (by decide) (by decide) hs)
  · rw [hg.offset, hg.hit]
    exact h.fresh (hg.prepared.symm.trans hp)
  · rw [hg.offset, hg.hit]
    exact h.hit
  · unfold numPromptTokens
    rw [hg.offset, hg.hit, hg.prompt]
    exact h.bound
  · unfold numPromptTokens
    rw [hg.offset, hg.prompt, hg.toSameBooks.forwarded, hg.chunk]
    exact h.whole (hback _ (by decide) (by decide) hs) (hg.prepared.symm.trans hp)

/-- A pass does not touch the rest of a request. -/
theorem exists_chunked_started (q : InferenceRequest Nat) (loaded : Nat) :
    ∃ offset hit, chunked (started loaded q) = { q with
      prefillOffset := offset, prefixCacheHitTokens := hit, slotPrepared := true } := by
  unfold chunked ModelRunner.advanced started
  split
  · next hp => exact ⟨_, q.prefixCacheHitTokens, by rw [← hp]⟩
  · exact ⟨_, _, rfl⟩

/-- After a pass a request stands as it should, if there is more to come or it has gone on. -/
theorem Advances.metered {loaded : Nat} (ha : Advances q loaded) (h : q.Metered)
    (hstate : q.state = .prefill) (hg : GoesOn (chunked (started loaded q)) q')
    (hdone : (chunked (started loaded q)).prefillComplete = true → q'.Prefilled) : q'.Metered := by
  obtain ⟨offset, hit, he⟩ := exists_chunked_started q loaded
  have hchunk : (chunked (started loaded q)).prefillChunkSize = q.prefillChunkSize := by rw [he]
  have hprompt : (chunked (started loaded q)).numPromptTokens = q.numPromptTokens := by
    rw [he]
    rfl
  have hprepared : (chunked (started loaded q)).slotPrepared = true := by rw [he]
  have hbefore : (chunked (started loaded q)).state = .prefill := by rw [he, hstate]
  by_cases hmore : (chunked (started loaded q)).prefillOffset < q.numPromptTokens
  · refine Metered.goesOn ⟨hchunk ▸ h.chunk, fun hs => ?_, fun hp => ?_, ha.hit, ?_,
      fun _ _ => ⟨by rwa [hprompt], ?_⟩⟩ hg
    · exact absurd (hbefore.symm.trans hs) (by decide)
    · exact absurd (hprepared.symm.trans hp) (by decide)
    · rw [hprompt]
      exact ha.bound
    · rw [hchunk]
      exact ha.whole hmore
  · have hprefilled := hdone (prefillComplete_iff.mpr (hprompt.trans_le (Nat.le_of_not_lt hmore)))
    have hprompt' : q'.numPromptTokens = q.numPromptTokens :=
      (congrArg List.length hg.prompt).trans hprompt
    refine ⟨(hg.chunk.trans hchunk) ▸ h.chunk, fun hs => ?_, fun hp => ?_, ?_, ?_, fun hs _ => ?_⟩
    · rcases hprefilled with hd | hd <;> exact absurd (hd.symm.trans hs) (by decide)
    · exact absurd ((hg.prepared.trans hprepared).symm.trans hp) (by decide)
    · rw [hg.offset, hg.hit]
      exact ha.hit
    · rw [hg.offset, hg.hit, hprompt']
      exact ha.bound
    · rcases hprefilled with hd | hd <;> exact absurd (hd.symm.trans hs) (by decide)

end InferenceRequest

open InferenceRequest (GoesOn SameBooks)

/-! ## The rest of a step -/

namespace Scheduler

variable {base : Ref → InferenceRequest Nat}

/-- Every request goes on from what it was. -/
def GoOn (base : Ref → InferenceRequest Nat) (s : Scheduler Nat) : Prop :=
  ∀ r, GoesOn (base r) (s.requests r)

theorem GoOn.update {s s' : Scheduler Nat} (h : GoOn base s) {r : Ref} {q : InferenceRequest Nat}
    (hreq : s'.requests = Function.update s.requests r q) (hq : GoesOn (s.requests r) q) :
    GoOn base s' := by
  intro r'
  rw [hreq]
  by_cases he : r' = r
  · subst he
    rw [Function.update_self]
    exact (h r').trans hq
  · rw [Function.update_of_ne he]
    exact h r'

theorem markPrefillDone_goOn (r : Ref) : Exec.Keeps (GoOn base) (markPrefillDone r) := by
  intro s h
  by_cases hs : (s.requests r).state = .prefill ∧ (s.requests r).prefillComplete = true
  · rw [Exec.after_of_ok (markPrefillDone_run hs.1 hs.2)]
    exact h.update rfl ⟨⟨⟨rfl, rfl, rfl, rfl, rfl⟩, rfl⟩, Or.inr (Or.inl rfl)⟩
  · obtain ⟨err, herr⟩ := markPrefillDone_error hs
    rw [Exec.after_of_error herr]
    exact h

theorem markDecodeDone_goOn (r : Ref) (tokenId : Nat) :
    Exec.Keeps (GoOn base) (markDecodeDone r tokenId) := by
  intro s h
  have hout := markDecodeDone_outcome s r tokenId
  unfold Exec.after
  generalize (markDecodeDone r tokenId).run s = result at hout
  cases hout with
  | rejected _ _ => exact h
  | more _ _ => exact h.update rfl ⟨⟨⟨rfl, rfl, rfl, rfl, rfl⟩, rfl⟩, Or.inl rfl⟩
  | last _ _ _ => exact h.update rfl ⟨⟨⟨rfl, rfl, rfl, rfl, rfl⟩, rfl⟩, Or.inr (Or.inr rfl)⟩
  | gone _ _ _ _ => exact h.update rfl ⟨⟨⟨rfl, rfl, rfl, rfl, rfl⟩, rfl⟩, Or.inr (Or.inr rfl)⟩

end Scheduler

variable {Row Score : Type}

namespace Engine

variable {base : Ref → InferenceRequest Nat}

def GoOn (base : Ref → InferenceRequest Nat) (e : Engine Row) : Prop :=
  Scheduler.GoOn base e.scheduler

theorem onScheduler_goOn {α : Type} {m : Scheduler.M Nat α}
    (hm : Exec.Keeps (Scheduler.GoOn base) m) :
    Exec.Keeps (GoOn base) (onScheduler m : M Row α) :=
  Exec.Keeps.within fun e h => hm e.scheduler h

theorem onCache_goOn {α : Type} (m : KVCacheType.M Row α) :
    Exec.Keeps (GoOn base) (onCache m : M Row α) := by
  refine Exec.Keeps.get_bind fun e h => ?_
  split
  · exact h
  · rw [Exec.after_within]
    exact h

theorem registerComplete_goOn (chain : Int → List Nat → Int) (r : Ref) :
    Exec.Keeps (GoOn base) (registerComplete chain r : M Row Unit) :=
  Exec.Keeps.get_bind fun e h => Exec.Keeps.ite (fun _ => Exec.Keeps.ofExcept_bind fun _ _ =>
    onCache_goOn _) (fun _ => Exec.Keeps.pure _) e h

theorem emitToken_goOn (requestId : String) (tokenId : Nat) :
    Exec.Keeps (GoOn base) (emitToken requestId tokenId : M Row Unit) := by
  intro e h
  rw [Exec.after_of_ok (emitToken_eq requestId tokenId e)]
  exact h

theorem releaseCacheSlot_goOn (batchIdx : Option Nat) (r : Ref) :
    Exec.Keeps (GoOn base) (releaseCacheSlot batchIdx r : M Row Unit) := by
  refine Exec.Keeps.get_bind fun e h => Exec.Keeps.ite (fun _ => Exec.Keeps.pure _)
    (fun _ => ?_) e h
  split
  · exact onCache_goOn _
  · exact Exec.Keeps.pure _

/-- A decode leaves the request objects alone. -/
theorem onRunner_decode_goOn [LinearOrder Score] (model : InferenceModel Row Score)
    (rs : List Ref) : Exec.Keeps (GoOn base) (onRunner (ModelRunner.decode model rs)) := by
  refine Exec.Keeps.get_bind fun e h => ?_
  split
  · exact h
  · next c _ =>
    rw [Exec.after_within]
    set J : ModelRunner Row → Prop := fun s => s.requests = e.scheduler.requests with hJ
    have hdecode : Exec.Keeps J (ModelRunner.decode model rs) :=
      Exec.Keeps.get_bind fun s hs => Exec.Keeps.ofExcept_bind (fun _ _ =>
        Exec.Keeps.ofExcept_bind fun _ _ => Exec.Keeps.bind
          (Exec.Keeps.within fun _ hs => hs) fun _ => Exec.Keeps.ofExcept _) s hs
    intro r
    show GoesOn (base r) ((Exec.after (ModelRunner.decode model rs)
      ⟨e.scheduler.requests, c⟩).requests r)
    have hsame : J _ := hdecode ⟨e.scheduler.requests, c⟩ rfl
    rw [hJ] at hsame
    rw [hsame]
    exact h r

end Engine

namespace Metered

variable {F : Type} [Field F] {chain : Int → List Nat → Int} {passes : PassTimes F}
  {base : Ref → InferenceRequest Nat} {t : Int × Nat}

/-- The two counters stay, and every request goes on from what it was. -/
def Settled (t : Int × Nat) (base : Ref → InferenceRequest Nat) (s : Metered F Row) : Prop :=
  s.metrics.counters = t ∧ Engine.GoOn base s.engine

omit [Field F] in
theorem onEngine_settled {α : Type} {m : Engine.M Row α}
    (hm : Exec.Keeps (Engine.GoOn base) m) :
    Exec.Keeps (Settled t base) (onEngine m : M F Row α) :=
  Exec.Keeps.within fun s h => ⟨h.1, hm s.engine h.2⟩

omit [Field F] in
theorem hook_settled
    {f : (Ref → InferenceRequest Nat) → MetricsCollector F → MetricsCollector F}
    (hf : ∀ objects c, (f objects c).counters = c.counters) :
    Exec.Keeps (Settled t base) (hook f : M F Row Unit) :=
  Exec.Keeps.modify fun _ h => ⟨(hf _ _).trans h.1, h.2⟩

theorem hookFinished_settled (r : Ref) :
    Exec.Keeps (Settled t base) (hookFinished r : M F Row Unit) := by
  refine hook_settled fun objects c => ?_
  split
  · exact MetricsCollector.counters_onRequestFinished _ _ _
  · rfl

/-- A token for a request that decodes, in a prefill. -/
theorem acceptToken_settled (requestId : String) (batchIdx : Option Nat) (r : Ref)
    (tokenId : Nat) : Exec.Keeps (Settled t base) (do
      onEngine (Engine.onScheduler (Scheduler.markDecodeDone r tokenId))
      onEngine (Engine.emitToken requestId tokenId)
      hookFinished r
      onEngine (Engine.releaseCacheSlot batchIdx r) : M F Row Unit) :=
  (onEngine_settled (Engine.onScheduler_goOn (Scheduler.markDecodeDone_goOn r tokenId))).bind
    fun _ => (onEngine_settled (Engine.emitToken_goOn _ _)).bind fun _ =>
      (hookFinished_settled _).bind fun _ => onEngine_settled (Engine.releaseCacheSlot_goOn _ _)

theorem finishPrefill_settled (r : Ref) (tokenId : Option Nat) :
    Exec.Keeps (Settled t base) (finishPrefill chain r tokenId : M F Row Unit) := by
  refine (onEngine_settled (Engine.registerComplete_goOn chain r)).bind fun _ => ?_
  cases tokenId with
  | none => exact Exec.Keeps.pure _
  | some tokenId =>
    exact Exec.Keeps.get_bind fun _ h =>
      ((onEngine_settled (Engine.onScheduler_goOn (Scheduler.markPrefillDone_goOn r))).bind
        fun _ => acceptToken_settled _ _ r tokenId) _ h

theorem finishDecode_settled (r : Ref) (tokenId : Nat) :
    Exec.Keeps (Settled t base) (finishDecode r tokenId : M F Row Unit) :=
  Exec.Keeps.get_bind fun s h =>
    ((onEngine_settled (Engine.onScheduler_goOn (Scheduler.markDecodeDone_goOn r tokenId))).bind
      fun _ => (onEngine_settled (Engine.emitToken_goOn _ _)).bind fun _ =>
        (hook_settled fun _ _ => MetricsCollector.counters_onDecodeToken _ _ _).bind fun _ =>
          (hookFinished_settled _).bind fun _ =>
            onEngine_settled (Engine.releaseCacheSlot_goOn _ _)) s h

omit [Field F] in
/-- What goes on does not go back to prefilling. -/
theorem keeps_prefilled {α : Type} {m : M F Row α} (hm : ∀ t base, Exec.Keeps (Settled t base) m)
    (r : Ref) : Exec.Keeps (fun s : Metered F Row =>
      (s.engine.scheduler.requests r).Prefilled) m := fun s hs =>
  ((hm s.metrics.counters s.engine.scheduler.requests s ⟨rfl, fun _ => .refl _⟩).2 r).prefilled hs

/-- **A request with a token does not prefill any more.** -/
theorem finishPrefill_prefilled (r : Ref) (tokenId : Nat) :
    Exec.Triple (fun _ => True) (finishPrefill chain r (some tokenId) : M F Row Unit)
      (fun _ s => (s.engine.scheduler.requests r).Prefilled) fun _ => True := by
  refine Exec.Triple.bind (R := fun _ _ => True) (fun s _ => ?_) fun _ => .get_bind fun s _ => ?_
  · split <;> trivial
  · refine Exec.Triple.bind (R := fun _ s => (s.engine.scheduler.requests r).Prefilled)
      (fun s _ => ?_) fun _ => (keeps_prefilled (fun _ _ =>
        acceptToken_settled _ _ r tokenId) r).triple.conseq (fun _ h => h) (fun _ _ h => h)
          fun _ _ => trivial
    by_cases hs : (s.engine.scheduler.requests r).state = .prefill ∧
        (s.engine.scheduler.requests r).prefillComplete = true
    · have hrun : (onEngine (Engine.onScheduler (Scheduler.markPrefillDone r)) : M F Row Unit).run s
          = .ok () _ := Exec.run_within_ok (Engine.onScheduler_run
            (Scheduler.markPrefillDone_run hs.1 hs.2))
      rw [hrun]
      exact Or.inl (by simp [Scheduler.update])
    · obtain ⟨err, herr⟩ := Scheduler.markPrefillDone_error hs
      have hrun : (onEngine (Engine.onScheduler (Scheduler.markPrefillDone r)) : M F Row Unit).run s
          = .error err _ := Exec.run_within_error (Engine.onScheduler_error herr)
      rw [hrun]
      trivial

/-! ## The two halves of a step -/

variable [LinearOrder Score] {model : InferenceModel Row Score} {s s' : Metered F Row}

omit [Field F] in
theorem onEngine_eq_ok {α : Type} {m : Engine.M Row α} {a : α}
    (h : (onEngine m : M F Row α).run s = .ok a s') :
    ∃ e', m.run s.engine = .ok a e' ∧ s' = { s with engine := e' } := by
  cases hm : m.run s.engine with
  | ok a' e' =>
    have hrun : (onEngine m : M F Row α).run s = .ok a' { s with engine := e' } :=
      Exec.run_within_ok hm
    rw [hrun] at h
    cases h
    exact ⟨e', rfl, rfl⟩
  | error err e' =>
    have hrun : (onEngine m : M F Row α).run s = .error err { s with engine := e' } :=
      Exec.run_within_error hm
    rw [hrun] at h
    cases h

theorem onRunner_eq_ok {α : Type} {m : ModelRunner.M Row α} {e e' : Engine Row} {a : α}
    (h : (Engine.onRunner m).run e = .ok a e') : ∃ c t, e.cache = some c ∧
      m.run ⟨e.scheduler.requests, c⟩ = .ok a t ∧ e' = Engine.withRunner t e := by
  unfold Engine.onRunner at h
  rw [Exec.run_bind_ok (EStateM.run_get e)] at h
  cases hc : e.cache with
  | none =>
    rw [hc] at h
    cases h
  | some c =>
    rw [hc] at h
    cases hm : m.run ⟨e.scheduler.requests, c⟩ with
    | ok a' t =>
      have hrun := Exec.run_within_ok (g := fun e : Engine Row =>
        (⟨e.scheduler.requests, c⟩ : ModelRunner Row)) (p := Engine.withRunner) hm
      cases hrun.symm.trans h
      exact ⟨c, t, rfl, hm, rfl⟩
    | error err t =>
      have hrun := Exec.run_within_error (g := fun e : Engine Row =>
        (⟨e.scheduler.requests, c⟩ : ModelRunner Row)) (p := Engine.withRunner) hm
      cases hrun.symm.trans h

/-- What the prefill half of a step that returned did: the objects are those of the requests after
the forward pass. -/
structure PrefillDone (chain : Int → List Nat → Int) (rs : List Ref) (s s' : Metered F Row)
    (c : KVCacheType Row) (objects : Ref → InferenceRequest Nat) (loaded : Ref → Nat) : Prop where
  inside : ∀ r ∈ rs, objects r = chunked (started (loaded r) (s.engine.scheduler.requests r))
  outside : ∀ r ∉ rs, objects r = s.engine.scheduler.requests r
  forwarded : ModelRunner.forwardedLens chain rs ⟨s.engine.scheduler.requests, c⟩
    = rs.map fun r => (chunkTokens (started (loaded r) (s.engine.scheduler.requests r))).length
  settled : Settled (s.metrics.counters.1 + prefillTokensThisStep s.engine.scheduler.requests rs,
    s.metrics.counters.2 + (rs.map fun r => (objects r).prefixCacheHitTokens).sum) objects s'
  prefilled : ∀ r ∈ rs, (objects r).prefillComplete = true →
    (s'.engine.scheduler.requests r).Prefilled

theorem runPrefill_done {rs : List Ref} (hnd : rs.Nodup) {c : KVCacheType Row}
    (hc : s.engine.cache = some c) (h : (runPrefill chain model passes rs).run s = .ok () s') :
    ∃ objects loaded, PrefillDone chain rs s s' c objects loaded := by
  unfold runPrefill at h
  rw [Exec.run_bind_ok (EStateM.run_get s)] at h
  obtain ⟨tokens, s₁, hrunner, h⟩ := Exec.run_bind_eq_ok h
  obtain ⟨e₁, hengine, rfl⟩ := onEngine_eq_ok hrunner
  obtain ⟨c', t, hc', hpass, rfl⟩ := onRunner_eq_ok hengine
  cases hc.symm.trans hc'
  obtain ⟨loaded, hpassed⟩ := ModelRunner.prefill_ok hnd hpass
  unfold hook at h
  rw [Exec.run_bind_ok (EStateM.run_modify _ _), Exec.run_bind_ok (EStateM.run_modify _ _)] at h
  simp only at h
  set s₂ : Metered F Row := { engine := Engine.withRunner t s.engine, metrics := _ } with hs₂
  have hsettled : Settled s₂.metrics.counters t.requests s' := by
    have hkeeps : ∀ p ∈ rs.zip tokens, Exec.Keeps (Settled s₂.metrics.counters t.requests)
        (finishPrefill chain p.1 p.2 : M F Row Unit) :=
      fun p _ => finishPrefill_settled p.1 p.2
    have hloop := Exec.Keeps.forM (rs.zip tokens) hkeeps s₂ ⟨rfl, fun _ => .refl _⟩
    rwa [Exec.after_of_ok h] at hloop
  have hcounters : s₂.metrics.counters
      = (s.metrics.counters.1 + prefillTokensThisStep s.engine.scheduler.requests rs,
        s.metrics.counters.2 + (rs.map fun r => (t.requests r).prefixCacheHitTokens).sum) := by
    rw [hs₂, MetricsCollector.counters_onPrefillBatch, MetricsCollector.counters_onPrefixCacheHits]
    rfl
  refine ⟨t.requests, loaded, hpassed.inside, hpassed.outside, hpassed.forwarded,
    hcounters ▸ hsettled, fun r hr hcomplete => ?_⟩
  obtain ⟨token, htoken⟩ := Engine.exists_mem_zip hpassed.length hr
  have hsome := hpassed.tokens (r, token) htoken
  rw [hcomplete] at hsome
  obtain ⟨tokenId, rfl⟩ := Option.isSome_iff_exists.mp hsome
  exact (Exec.Triple.forM_mem (I := fun _ => True) (fun _ _ _ _ => trivial) (fun p _ =>
    keeps_prefilled (fun _ _ => finishPrefill_settled p.1 p.2) r) htoken
    (finishPrefill_prefilled r tokenId)).of_ok trivial h

/-- **The prefill half of a step**, also if there is nothing to prefill. -/
theorem prefillBatch_done {rs : List Ref} (hnd : rs.Nodup) {c : KVCacheType Row}
    (hc : s.engine.cache = some c) (h : (prefillBatch chain model passes rs).run s = .ok () s') :
    ∃ objects loaded, PrefillDone chain rs s s' c objects loaded := by
  unfold prefillBatch at h
  by_cases hrs : rs ≠ []
  · rw [if_pos hrs] at h
    exact runPrefill_done hnd hc h
  · rw [not_not] at hrs
    subst hrs
    cases h
    refine ⟨s.engine.scheduler.requests, fun _ => 0, nofun, fun _ _ => rfl, rfl,
      ⟨?_, fun _ => .refl _⟩, nofun⟩
    exact Prod.ext (Int.add_zero _).symm rfl

variable (model passes) in
theorem decodeBatch_settled {base : Ref → InferenceRequest Nat} {t : Int × Nat} (rs : List Ref) :
    Exec.Keeps (Settled t base) (decodeBatch model passes rs : M F Row Unit) := by
  refine Exec.Keeps.ite (fun _ => ?_) fun _ => Exec.Keeps.pure _
  refine (onEngine_settled (Engine.onRunner_decode_goOn model rs)).bind fun tokenIds => ?_
  refine Exec.Keeps.bind (hook_settled fun _ _ => rfl) fun _ => ?_
  exact Exec.Keeps.forM _ fun p _ => finishDecode_settled p.1 p.2

end Metered

/-! ## A step -/

/-- A sum over the requests, of which those of a batch change. -/
theorem sum_batch {A : Type} [AddCommMonoid A] {f g d : Ref → A} {rs : List Ref} {k : Nat}
    (hnd : rs.Nodup) (hlt : ∀ r ∈ rs, r < k) (hin : ∀ r ∈ rs, g r = f r + d r)
    (hout : ∀ r ∉ rs, g r = f r) :
    ∑ r ∈ Finset.range k, g r = ∑ r ∈ Finset.range k, f r + (rs.map d).sum := by
  have hsplit : ∀ r ∈ Finset.range k, g r = f r + if r ∈ rs.toFinset then d r else 0 := by
    intro r _
    by_cases hr : r ∈ rs
    · rw [if_pos (List.mem_toFinset.mpr hr), hin r hr]
    · rw [if_neg (mt List.mem_toFinset.mp hr), hout r hr, add_zero]
  have hsub : Finset.range k ∩ rs.toFinset = rs.toFinset :=
    Finset.inter_eq_right.mpr fun r hr =>
      Finset.mem_range.mpr (hlt r (List.mem_toFinset.mp hr))
  rw [Finset.sum_congr rfl hsplit, Finset.sum_add_distrib, Finset.sum_ite_mem, hsub,
    List.sum_toFinset d hnd]

namespace Scheduler

/-- Over all requests so far. -/
def total (f : InferenceRequest Nat → Nat) (s : Scheduler Nat) : Nat :=
  ∑ r ∈ Finset.range s.created, f (s.requests r)

/-- The requests that get a slot begin to prefill; the books stay. -/
theorem Live.assigned_metered {s : Scheduler Nat} (h : Live s)
    (hm : ∀ r, (s.requests r).Metered) :
    s.assignWaitingToSlots.created = s.created ∧
      ∀ r, (s.assignWaitingToSlots.requests r).Metered ∧
        SameBooks (s.requests r) (s.assignWaitingToSlots.requests r) := by
  set I : Scheduler Nat → Prop := fun s' => Live s' ∧ s'.created = s.created ∧
    ∀ r, (s'.requests r).Metered ∧ SameBooks (s.requests r) (s'.requests r) with hI
  have hall : I s.assignWaitingToSlots := by
    refine assignRounds_induct (I := I) (fun s' r waiting b freeSlots hs hw _ => ?_) _
      ⟨h, rfl, fun r => ⟨hm r, (GoesOn.refl _).toSameBooks⟩⟩
    refine ⟨hs.1.assignSlot hw, ?_, fun r' => ?_⟩ <;> rw [assignSlot_eq]
    · exact hs.2.1
    by_cases he : r' = r
    · subst he
      have hwait := (hs.1.waiting r' (by rw [hw]; exact List.mem_cons_self)).2
      obtain ⟨hm', hsame⟩ := hs.2.2 r'
      have hfresh := hm'.waiting hwait
      simp only [Function.update_self]
      refine ⟨⟨hm'.chunk, fun hs => (by cases hs), hm'.fresh, hm'.hit, hm'.bound, fun _ hp => ?_⟩,
        ⟨⟨hsame.requestId, hsame.prompt, hsame.chunk, hsame.prepared, hsame.offset⟩, hsame.hit⟩⟩
      rw [hfresh] at hp
      cases hp
    · simp only [Function.update_of_ne he]
      exact hs.2.2 r'
  exact hall.2

end Scheduler

end Nifre
