import Nifre.Properties.PrefixHit
import Nifre.Properties.CacheShape
import Nifre.Properties.DistinctIds
import Nifre.Properties.Progress
import Nifre.Properties.GptAppends

/-!
# No request is past its prompt

A prefix hit restores no more tokens than the prompt has, and a forward pass adds no more than are
left, so in every state of a run the offset of a request is within its prompt. The budgets of the
engine and of its scheduler are the same.

* `ModelRunner.prefill_bounded` — a prefill, on either exit
* `Engine.run_bounded` — every run
-/

namespace Nifre

variable {Row Score : Type} {chain : Int → List Nat → Int}

/-! ## The models -/

/-- The prefix cache of a Hugging Face cache. -/
def KVCacheType.hfPrefixes : KVCacheType Row → Option (BlockPrefixCache Nat Row)
  | .hf c => c.prefixCache
  | _ => none

/-- A model's forward pass leaves the prefix cache alone, and a cache it makes has nothing in it. -/
structure InferenceModel.KeepsPrefixes (model : InferenceModel Row Score) : Prop where
  call : ∀ tokenIds inputLens slots c,
    (Exec.after (model.call tokenIds inputLens slots) c).hfPrefixes = c.hfPrefixes
  made : ∀ make, model.makeKvCache = some make → ∀ enable p,
    (make enable).prefixCache = some p → p.entries.entries = []

namespace KVCacheType

variable {c c' : KVCacheType Row}

theorem short_iff : c.Short ↔ ∀ p, c.hfPrefixes = some p → p.Short := by
  constructor
  · intro h p hp
    cases c with
    | hf c => exact h c p rfl hp
    | dense _ => cases hp
    | paged _ => cases hp
  · rintro h c p rfl hp
    exact h p hp

theorem Short.congr (h : c.Short) (hsame : c'.hfPrefixes = c.hfPrefixes) : c'.Short := by
  rw [short_iff] at h ⊢
  rwa [hsame]

theorem resetSlot_short (batchIdx : Int) : Exec.Keeps Short (resetSlot batchIdx : M Row Unit) :=
  @call_short Row (fun _ _ => 0) (.resetSlot batchIdx)

theorem registerPrefix_short (batchIdx : Int) (tokenIds : List Nat) :
    Exec.Keeps Short (registerPrefix chain batchIdx tokenIds : M Row Unit) :=
  call_short (.registerPrefix batchIdx tokenIds)

theorem tryLoadPrefix_short (batchIdx : Int) (tokenIds : List Nat) :
    Exec.Keeps Short (tryLoadPrefix chain batchIdx tokenIds : M Row Nat) := by
  intro c hc
  have h : Short (Exec.after (call chain (.tryLoadPrefix batchIdx tokenIds)) c) :=
    call_short (.tryLoadPrefix batchIdx tokenIds) c hc
  rwa [call, Exec.after_dropped] at h

/-- **A prefix hit is within the prompt.** -/
theorem tryLoadPrefix_le {slot : Int} {prompt : List Nat} {n : Nat} (hshort : c.Short)
    (h : (tryLoadPrefix chain slot prompt).run c = .ok n c') : n ≤ prompt.length := by
  cases c with
  | dense c => cases h
  | paged c =>
    obtain ⟨c', hrun, rfl⟩ := embed_eq_ok h
    rcases PagedKVCache.tryLoadPrefix_ok hrun with ⟨-, rfl, -⟩ | ⟨p, -, rfl, -⟩
    · exact Nat.zero_le _
    · have hle := ChainedMap.matched_length_le chain p.entries
        (Digest.fullBlocks p.blockSize prompt) PrefixCache.rootHash
      rw [Digest.length_fullBlocks] at hle
      exact (Nat.mul_le_mul_right p.blockSize hle).trans (Nat.div_mul_le_self _ _)
  | hf c =>
    obtain ⟨c', hrun, rfl⟩ := embed_eq_ok h
    rcases hf_tryLoadPrefix_lt hrun fun p hp => hshort c p rfl hp with rfl | hlt
    · exact Nat.zero_le _
    · exact hlt.le

end KVCacheType

theorem KVCacheType.append_hfPrefixes (batchIdx layerId : Int) (key value : List Row)
    (c : KVCacheType Row) :
    (Exec.after (append batchIdx layerId key value) c).hfPrefixes = c.hfPrefixes := by
  cases c with
  | dense c =>
    show (Exec.stateOf (Exec.embed dense _)).hfPrefixes = _
    rw [Exec.stateOf_embed]
    rfl
  | paged c =>
    show (Exec.stateOf (Exec.embed paged _)).hfPrefixes = _
    rw [Exec.stateOf_embed]
    rfl
  | hf c => rfl

theorem recallModel_keepsPrefixes (config : ModelConfig) (logits : List Nat → List Score) :
    (recallModel config logits).KeepsPrefixes where
  call := by
    intro tokenIds inputLens slots c
    set I : KVCacheType Nat → Prop := fun c' => c'.hfPrefixes = c.hfPrefixes with hI
    have hget : ∀ b : Nat, Exec.Keeps I (KVCacheType.get (b : Int) 0) := fun b c' h => by
      rw [KVCacheType.get_reads]
      exact h
    have hround : ∀ new, Exec.Keeps I (KVCacheType.appendRound config.numLayers new slots) :=
      fun _ => Exec.Keeps.forM _ fun _ _ => Exec.Keeps.forM _ fun _ _ c' h =>
        (KVCacheType.append_hfPrefixes _ _ _ _ c').trans h
    exact Exec.Keeps.bind (Exec.Keeps.mapM slots fun b _ => hget b)
      (fun _ => Exec.Keeps.bind (hround _) fun _ => Exec.Keeps.pure _) c rfl
  made := fun _ h => by cases h

/-- What a Hugging Face cache has in its prefix cache. -/
def HFKVCache.HasPrefixes (o : Option (BlockPrefixCache Nat Row)) (c : HFKVCache Nat Row) : Prop :=
  c.prefixCache = o

theorem HFKVCache.slotOf_hasPrefixes (batchIdx : Int) (o : Option (BlockPrefixCache Nat Row)) :
    Exec.Keeps (HasPrefixes o) (slotOf batchIdx) := by
  refine Exec.Keeps.get_bind fun c h => ?_
  split <;> exact h

theorem HFKVCache.getPast_hasPrefixes (batchIdx : Int) (o : Option (BlockPrefixCache Nat Row)) :
    Exec.Keeps (HasPrefixes o) (getPast batchIdx) :=
  (slotOf_hasPrefixes batchIdx o).bind fun _ => Exec.Keeps.get_bind fun _ h => h

theorem HFKVCache.setPast_hasPrefixes (batchIdx : Int) (past : Option (Past Row))
    (o : Option (BlockPrefixCache Nat Row)) :
    Exec.Keeps (HasPrefixes o) (setPast batchIdx past) := by
  have hstore : ∀ b, Exec.Keeps (HasPrefixes o)
      (modify fun c => c.store b past (pastKeyValuesLength past) : M Nat Row Unit) :=
    fun _ => Exec.Keeps.modify fun _ h => h
  exact Exec.Keeps.get_bind fun c h => Exec.Keeps.ite (fun _ => Exec.Keeps.throw _)
    (fun _ => (slotOf_hasPrefixes batchIdx o).bind hstore) c h

theorem HfCausalLM.keepsPrefixes [Inhabited Row] (lm : HfCausalLM Row Score) :
    lm.inferenceModel.KeepsPrefixes where
  call := by
    intro tokenIds inputLens slots c
    cases c with
    | dense c => rfl
    | paged c => rfl
    | hf c =>
      show (Exec.stateOf (Exec.embed KVCacheType.hf _)).hfPrefixes = c.prefixCache
      rw [Exec.stateOf_embed]
      have hrow : ∀ ids slot len, Exec.Keeps (HFKVCache.HasPrefixes c.prefixCache)
          (lm.forwardRow ids slot len) := fun _ slot _ =>
        (HFKVCache.getPast_hasPrefixes (slot : Int) _).bind fun past =>
          (outputs_keeps (fun _ _ h => h) _ past).bind fun _ =>
            (HFKVCache.setPast_hasPrefixes (slot : Int) _ _).bind fun _ => Exec.Keeps.pure _
      exact Exec.Keeps.bind (Exec.Keeps.mapM _ fun _ _ => hrow _ _ _)
        (fun _ => Exec.Keeps.ofExcept _) c rfl
  made := by
    intro make hmake enable p hp
    cases hmake
    cases enable with
    | false => cases hp
    | true =>
      cases hp
      rfl

theorem GptModel.keepsPrefixes {F X : Type} [Field F] [Add X] {numHeads headDim : Nat}
    (gpt : GptModel F X Score numHeads headDim) (math : ExactMath F)
    (emptyDense : Nat → Nat × Nat → Heads F numHeads headDim)
    (emptyPaged : Nat → Int × Nat → Heads F numHeads headDim) (padTokenId : Nat) :
    (gpt.inferenceModel math emptyDense emptyPaged padTokenId).KeepsPrefixes where
  call := fun tokenIds inputLens slots c =>
    (gpt.onlyAppends math emptyDense emptyPaged padTokenId tokenIds inputLens slots).keeps
      (fun b layerId key value c' h =>
        (KVCacheType.append_hfPrefixes b layerId key value c').trans h) c rfl
  made := fun _ h => by cases h

/-! ## A forward pass -/

namespace ModelRunner

/-- Every request's offset is within its prompt, and a lookup in the prefix cache is too. -/
structure Bounded (s : ModelRunner Row) : Prop where
  offset : ∀ r, (s.requests r).prefillOffset ≤ (s.requests r).numPromptTokens
  short : s.cache.Short

variable {model : InferenceModel Row Score}

theorem onCache_bounded {α : Type} {m : KVCacheType.M Row α}
    (hm : Exec.Keeps KVCacheType.Short m) : Exec.Keeps Bounded (onCache m) :=
  Exec.Keeps.within fun s hs => ⟨hs.offset, hm s.cache hs.short⟩

/-- One request changes, and its offset is within its prompt. -/
theorem Bounded.update {s : ModelRunner Row} (h : Bounded s) {r : Ref}
    {f : InferenceRequest Nat → InferenceRequest Nat}
    (hf : (f (s.requests r)).prefillOffset ≤ (f (s.requests r)).numPromptTokens) :
    Bounded (s.update r f) := by
  refine ⟨fun r' => ?_, h.short⟩
  by_cases he : r' = r
  · subst he
    simpa [ModelRunner.update] using hf
  · simpa [ModelRunner.update, he] using h.offset r'

/-- What a load leaves, and how much it restores. -/
theorem loadPrefix_bounded (b : Nat) (tokenIds : List Nat)
    (requests : Ref → InferenceRequest Nat) :
    Exec.Triple (fun s => s.requests = requests ∧ s.cache.Short)
      (loadPrefix chain b tokenIds : M Row Nat)
      (fun n s => n ≤ tokenIds.length ∧ s.requests = requests ∧ s.cache.Short)
      (fun s => s.requests = requests ∧ s.cache.Short) := by
  refine .get_bind fun s hs => .ite (fun _ => ?_) fun _ => .pure 0 fun t ht => ?_
  · refine .within fun t ht c hc => ?_
    subst ht hc
    have hshort : Exec.Keeps KVCacheType.Short
        (KVCacheType.tryLoadPrefix chain (b : Int) tokenIds : KVCacheType.M Row Nat) :=
      KVCacheType.tryLoadPrefix_short (b : Int) tokenIds
    have hkeep := hshort.triple t.cache hs.2
    cases hrun : (KVCacheType.tryLoadPrefix chain (b : Int) tokenIds).run t.cache with
    | ok n c =>
      rw [hrun] at hkeep
      exact ⟨KVCacheType.tryLoadPrefix_le hs.2 hrun, hs.1, hkeep⟩
    | error e c =>
      rw [hrun] at hkeep
      exact ⟨hs.1, hkeep⟩
  · subst ht
    exact ⟨Nat.zero_le _, hs⟩

/-- **A slot is prepared** with a prefix that is within the prompt, if any. -/
theorem prepareSlot_bounded (r : Ref) : Exec.Keeps Bounded (prepareSlot chain r : M Row PUnit) := by
  refine Exec.keeps_iff_triple.mpr (.get_bind fun s hs => .ite (fun _ => ?_) fun _ =>
    .pure _ fun t ht => ht ▸ hs)
  refine .ofExcept_bind (fun b _ => ?_) fun t ht => ht ▸ hs
  set J : ModelRunner Row → Prop := fun t => t.requests = s.requests ∧ t.cache.Short with hJ
  have hback : ∀ t, J t → Bounded t :=
    fun t ht => ⟨fun r' => by rw [ht.1]; exact hs.offset r', ht.2⟩
  have hprepared : ∀ t, J t →
      Bounded (t.update r fun request => { request with slotPrepared := true }) := fun t ht =>
    (hback t ht).update ((hback t ht).offset r)
  refine Exec.Triple.bind (R := fun n t => n ≤ (s.requests r).promptTokenIds.length ∧ J t)
    ((loadPrefix_bounded b _ s.requests).conseq (by rintro t rfl; exact ⟨rfl, hs.short⟩)
      (fun _ _ h => h) hback) fun loaded => .ite (fun _ => ?_) fun _ => .ite (fun _ => ?_)
      fun _ => .modify fun t ht => hprepared t ht.2
  · rintro t ⟨hle, ht⟩
    refine ((hback t ht).update (f := fun q => { q with
      prefillOffset := loaded, prefixCacheHitTokens := loaded }) ?_).update ?_
    · rw [ht.1]
      exact hle
    · simp only [ModelRunner.update, Function.update_self, ht.1]
      exact hle
  · have hreset : Exec.Keeps J (onCache (KVCacheType.resetSlot (b : Int))) :=
      Exec.Keeps.within fun t ht => ⟨ht.1, KVCacheType.resetSlot_short _ _ ht.2⟩
    exact Exec.Triple.bind (R := fun _ => J) (hreset.triple.conseq (fun _ h => h.2)
      (fun _ _ h => h) hback) fun _ => .modify hprepared

/-- A chunk ends within the prompt. -/
theorem offset_add_chunk_le {q : InferenceRequest Nat}
    (h : q.prefillOffset ≤ q.numPromptTokens) :
    q.prefillOffset + (chunkTokens q).length ≤ q.numPromptTokens := by
  unfold InferenceRequest.numPromptTokens at h ⊢
  unfold chunkTokens pySlice
  rw [List.length_drop, List.length_take]
  omega

/-- A batch whose rows end within their prompts. -/
def RowsFit (s : ModelRunner Row) (rows : List (Ref × Nat)) : Prop :=
  ∀ p ∈ rows, (s.requests p.1).prefillOffset + p.2 ≤ (s.requests p.1).numPromptTokens

theorem advanceRows_bounded [LinearOrder Score] (logits : Logits Score) (i : Nat) {rs : List Ref}
    {lens : List Nat} (hnd : rs.Nodup) :
    Exec.Triple (fun s => Bounded s ∧ RowsFit s (rs.zip lens))
      (advanceRows logits i rs lens : M Row _) (fun _ => Bounded) Bounded := by
  induction rs generalizing i lens with
  | nil =>
    cases lens with
    | nil => exact .pure _ fun _ hs => hs.1
    | cons n lens => exact .pure _ fun _ hs => hs.1
  | cons r rs ih =>
    rcases lens with - | ⟨n, lens⟩
    · exact .pure _ fun _ hs => hs.1
    obtain ⟨hr, hnd'⟩ := List.nodup_cons.mp hnd
    set J : ModelRunner Row → Prop := fun s => Bounded s ∧ RowsFit s (rs.zip lens) with hJ
    rw [advanceRows]
    refine Exec.Triple.bind (R := fun _ => J) (.modify fun s hs => ?_) fun _ =>
      Exec.Triple.bind (R := fun _ => J) ?_ fun token =>
        (ih (i + 1) hnd').bind fun tokens => .pure _ fun _ ht => ht
    · obtain ⟨hbounded, hfit⟩ := hs
      refine ⟨hbounded.update (hfit (r, n) List.mem_cons_self), fun p hp => ?_⟩
      -- the other rows are about other requests
      have hne : p.1 ≠ r := fun he => hr (he ▸ (List.of_mem_zip hp).1)
      simpa [ModelRunner.update, hne] using hfit p (List.mem_cons_of_mem _ hp)
    · have hsample : Exec.Keeps J (sampleComplete logits i r) :=
        Exec.Keeps.get_bind fun s hs => Exec.Keeps.ite (fun _ => Exec.Keeps.bind
          (Exec.Keeps.ofExcept _) fun _ => Exec.Keeps.pure _) (fun _ => Exec.Keeps.pure _) s hs
      exact hsample.triple.conseq (fun _ h => h) (fun _ _ h => h) fun _ h => h.1

variable [LinearOrder Score]

/-- **A prefill leaves every offset within its prompt**, on either exit. -/
theorem prefill_bounded (hmodel : model.KeepsPrefixes) {rs : List Ref} (hnd : rs.Nodup) :
    Exec.Keeps Bounded (prefill chain model rs : M Row _) := by
  have hprepare : Exec.Keeps Bounded (forM rs (prepareSlot chain) : M Row PUnit) :=
    Exec.Keeps.forM rs fun r _ => prepareSlot_bounded r
  refine Exec.keeps_iff_triple.mpr (hprepare.triple.bind fun _ => .get_bind fun s hs => ?_)
  have hback : ∀ t, t = s → Bounded t := fun t ht => ht ▸ hs
  refine .ofExcept_bind (fun (tokenIds, inputLens) hbatch =>
    .ofExcept_bind (fun slots _ => ?_) hback) hback
  have hlens : inputLens = rs.map fun r => (chunkTokens (s.requests r)).length := by
    rw [batchTokenIds_lens hbatch, List.map_map]
    rfl
  set J : ModelRunner Row → Prop := fun t => t.requests = s.requests ∧ t.cache.Short with hJ
  have hbounded : ∀ t, J t → Bounded t :=
    fun t ht => ⟨fun r' => by rw [ht.1]; exact hs.offset r', ht.2⟩
  have hcall : Exec.Keeps J (onCache (model.call tokenIds (some inputLens) slots)) :=
    Exec.Keeps.within fun t ht => ⟨ht.1, ht.2.congr (hmodel.call _ _ _ _)⟩
  refine Exec.Triple.bind (R := fun _ => J) (hcall.triple.conseq
    (by rintro t rfl; exact ⟨rfl, hs.short⟩) (fun _ _ h => h) hbounded) fun logits =>
    (advanceRows_bounded logits 0 hnd).conseq (fun t ht => ⟨hbounded t ht, ?_⟩)
      (fun _ _ h => h) fun _ h => h
  have hzip : rs.zip inputLens = rs.map fun r => (r, (chunkTokens (s.requests r)).length) := by
    rw [hlens]
    simpa using List.zip_map' (f := id) (l := rs)
      (g := fun r => (chunkTokens (s.requests r)).length)
  rw [hzip]
  refine List.forall_mem_map.mpr fun r _ => ?_
  simp only [ht.1]
  exact offset_add_chunk_le (hs.offset r)

theorem decode_bounded (hmodel : model.KeepsPrefixes) (rs : List Ref) :
    Exec.Keeps Bounded (decode model rs : M Row _) :=
  Exec.Keeps.get_bind fun _ hs => Exec.Keeps.ofExcept_bind (fun _ _ => Exec.Keeps.ofExcept_bind
    (fun _ _ => (onCache_bounded fun _ hc => hc.congr (hmodel.call _ _ _ _)).bind fun _ =>
      Exec.Keeps.ofExcept _)) _ hs

end ModelRunner

/-! ## The scheduler's transitions -/

namespace Scheduler

variable {s s' : Scheduler Nat}

theorem Live.running_nodup (h : Live s) : s.running.values.Nodup :=
  OrderedDict.nodup_values_of_key h.runningKey

/-- No request comes further, and the budget stays. -/
structure SameOffsets (s s' : Scheduler Nat) : Prop where
  offset : ∀ r, (s'.requests r).prefillOffset = (s.requests r).prefillOffset
  prompt : ∀ r, (s'.requests r).promptTokenIds = (s.requests r).promptTokenIds
  budget : s'.maxTokensPerStep = s.maxTokensPerStep

theorem SameOffsets.refl (s : Scheduler Nat) : SameOffsets s s := ⟨fun _ => rfl, fun _ => rfl, rfl⟩

theorem SameOffsets.trans {s'' : Scheduler Nat} (h : SameOffsets s s') (h' : SameOffsets s' s'') :
    SameOffsets s s'' :=
  ⟨fun r => (h'.offset r).trans (h.offset r), fun r => (h'.prompt r).trans (h.prompt r),
    h'.budget.trans h.budget⟩

/-- One request changed, in neither. -/
theorem sameOffsets_update {r : Ref} {q : InferenceRequest Nat}
    (hreq : s'.requests = Function.update s.requests r q) (hq : SameProgress (s.requests r) q)
    (hbudget : s'.maxTokensPerStep = s.maxTokensPerStep) : SameOffsets s s' := by
  refine ⟨fun r' => ?_, fun r' => ?_, hbudget⟩ <;> rw [hreq] <;> by_cases he : r' = r
  · subst he
    rw [Function.update_self, hq.offset]
  · rw [Function.update_of_ne he]
  · subst he
    rw [Function.update_self, hq.prompt]
  · rw [Function.update_of_ne he]

theorem assignWaitingToSlots_sameOffsets (s : Scheduler Nat) :
    SameOffsets s s.assignWaitingToSlots := by
  refine assignRounds_induct (I := SameOffsets s) (fun s' r waiting b freeSlots h _ _ => ?_) _
    (.refl s)
  refine h.trans ?_
  rw [assignSlot_eq]
  exact sameOffsets_update rfl (by exact ⟨rfl, rfl, rfl, rfl, rfl⟩) rfl

theorem markPrefillDone_sameOffsets (r : Ref) (s : Scheduler Nat) :
    SameOffsets s (Exec.after (markPrefillDone r) s) := by
  by_cases hc : (s.requests r).state = .prefill ∧ (s.requests r).prefillComplete = true
  · rw [Exec.after_of_ok (markPrefillDone_run hc.1 hc.2)]
    exact sameOffsets_update rfl (by exact ⟨rfl, rfl, rfl, rfl, rfl⟩) rfl
  · obtain ⟨e, he⟩ := markPrefillDone_error hc
    rw [Exec.after_of_error he]
    exact .refl s

theorem markDecodeDone_sameOffsets (r : Ref) (tokenId : Nat) (s : Scheduler Nat) :
    SameOffsets s (Exec.after (markDecodeDone r tokenId) s) := by
  have ho := markDecodeDone_outcome s r tokenId
  unfold Exec.after
  generalize (markDecodeDone r tokenId).run s = result at ho
  cases ho with
  | rejected => exact .refl s
  | more => exact sameOffsets_update rfl (by exact ⟨rfl, rfl, rfl, rfl, rfl⟩) rfl
  | last => exact sameOffsets_update rfl (by exact ⟨rfl, rfl, rfl, rfl, rfl⟩) rfl
  | gone => exact sameOffsets_update rfl (by exact ⟨rfl, rfl, rfl, rfl, rfl⟩) rfl

theorem cancelRequest_sameOffsets (requestId status : String) (s : Scheduler Nat) :
    SameOffsets s (Exec.after (cancelRequest requestId status) s) := by
  have ho := cancelRequest_outcome s requestId status
  unfold Exec.after
  generalize (cancelRequest requestId status).run s = result at ho
  cases ho with
  | waiting => exact sameOffsets_update rfl (by exact ⟨rfl, rfl, rfl, rfl, rfl⟩) rfl
  | running => exact sameOffsets_update rfl (by exact ⟨rfl, rfl, rfl, rfl, rfl⟩) rfl
  | unknown => exact .refl s

theorem withMax_sameOffsets (newMax : Int) (s : Scheduler Nat) :
    SameOffsets s (s.withMax newMax) := by
  unfold withMax
  split
  · exact .refl s
  · exact ⟨fun _ => rfl, fun _ => rfl, rfl⟩

end Scheduler

/-! ## The engine -/

namespace Engine

open Scheduler (Live SameOffsets)

variable {model : InferenceModel Row Score} {e : Engine Row}

/-- Offsets are within the prompts, and the scheduler has the engine's budget. -/
structure Bounded (e : Engine Row) : Prop where
  offset : ∀ r, (e.scheduler.requests r).prefillOffset ≤ (e.scheduler.requests r).numPromptTokens
  short : ∀ c, e.cache = some c → c.Short
  budget : e.maxTokensPerStep = e.scheduler.maxTokensPerStep

theorem Bounded.withScheduler (h : Bounded e) {s : Scheduler Nat}
    (hs : SameOffsets e.scheduler s) : Bounded { e with scheduler := s } where
  offset := fun r => by
    unfold InferenceRequest.numPromptTokens
    simp only [hs.offset, hs.prompt]
    exact h.offset r
  short := h.short
  budget := h.budget.trans hs.budget.symm

theorem onScheduler_bounded {α : Type} {m : Scheduler.M Nat α}
    (hm : ∀ s, SameOffsets s (Exec.after m s)) : Exec.Keeps Bounded (onScheduler m : M Row α) :=
  Exec.Keeps.within fun e he => he.withScheduler (hm e.scheduler)

theorem onCache_bounded {α : Type} {m : KVCacheType.M Row α}
    (hm : Exec.Keeps KVCacheType.Short m) : Exec.Keeps Bounded (onCache m) := by
  refine Exec.Keeps.get_bind fun e he => ?_
  cases hc : e.cache with
  | none => exact he
  | some c =>
    simp only
    rw [Exec.after_within]
    refine ⟨he.offset, fun c' hc' => ?_, he.budget⟩
    cases hc'
    exact hm c (he.short c hc)

theorem onRunner_bounded {α : Type} {m : ModelRunner.M Row α}
    (hm : Exec.Keeps ModelRunner.Bounded m) : Exec.Keeps Bounded (onRunner m) := by
  refine Exec.Keeps.get_bind fun e he => ?_
  cases hc : e.cache with
  | none => exact he
  | some c =>
    simp only
    rw [Exec.after_within]
    obtain ⟨hoffset, hshort⟩ := hm ⟨e.scheduler.requests, c⟩ ⟨he.offset, he.short c hc⟩
    refine ⟨hoffset, fun c' hc' => ?_, he.budget⟩
    cases hc'
    exact hshort

/-- A cache that is made has no entries yet. -/
theorem makeCache_short (hmodel : model.KeepsPrefixes) {usePaged usePrefix : Bool} {n : Nat}
    {c : KVCacheType Row} (h : makeCache model usePaged usePrefix n = .ok c) : c.Short := by
  rw [KVCacheType.short_iff]
  intro p hp
  unfold makeCache at h
  cases hmake : model.makeKvCache with
  | some make =>
    rw [hmake] at h
    cases h
    have hempty := hmodel.made make hmake usePrefix p hp
    intro key block hmem
    rw [hempty] at hmem
    cases hmem
  | none =>
    rw [hmake] at h
    simp only at h
    cases usePaged with
    | false =>
      cases h
      cases hp
    | true =>
      rw [if_pos rfl] at h
      generalize (PagedKVCache.initBatch _ _ _ n : Except PyError (PagedKVCache Nat Row))
        = made at h
      cases made with
      | error err => cases h
      | ok c =>
        cases h
        cases hp

theorem ensureCache_bounded (hmodel : model.KeepsPrefixes) :
    Exec.Keeps Bounded (ensureCache model) := by
  refine Exec.Keeps.get_bind fun e he => ?_
  cases hc : e.cache with
  | some c => exact he
  | none =>
    simp only
    cases hmake : makeCache model e.usePagedKvCache e.usePrefixCache
        e.maxConcurrentRequests.toNat with
    | error err => exact he
    | ok c =>
      refine ⟨he.offset, fun c' hc' => ?_, he.budget⟩
      cases hc'
      exact makeCache_short hmodel hmake

theorem emitToken_bounded (requestId : String) (tokenId : Nat) :
    Exec.Keeps Bounded (emitToken requestId tokenId : M Row Unit) := by
  intro e he
  rw [Exec.after_of_ok (emitToken_eq requestId tokenId e)]
  exact { he with }

theorem releaseCacheSlot_bounded (batchIdx : Option Nat) (r : Ref) :
    Exec.Keeps Bounded (releaseCacheSlot batchIdx r : M Row Unit) := by
  refine Exec.Keeps.get_bind fun e he => Exec.Keeps.ite (fun _ => Exec.Keeps.pure ())
    (fun _ => ?_) e he
  split
  · exact onCache_bounded (KVCacheType.resetSlot_short _)
  · exact Exec.Keeps.pure ()

theorem registerComplete_bounded (r : Ref) :
    Exec.Keeps Bounded (registerComplete chain r : M Row Unit) :=
  Exec.Keeps.get_bind fun e he => Exec.Keeps.ite (fun _ => Exec.Keeps.ofExcept_bind fun _ _ =>
    onCache_bounded (KVCacheType.registerPrefix_short _ _)) (fun _ => Exec.Keeps.pure ()) e he

theorem finishDecode_bounded (r : Ref) (tokenId : Nat) :
    Exec.Keeps Bounded (finishDecode r tokenId : M Row Unit) :=
  Exec.Keeps.get_bind fun _ he => ((onScheduler_bounded
    (Scheduler.markDecodeDone_sameOffsets r tokenId)).bind fun _ => (emitToken_bounded _ _).bind
      fun _ => releaseCacheSlot_bounded _ _) _ he

theorem finishPrefill_bounded (r : Ref) (tokenId : Option Nat) :
    Exec.Keeps Bounded (finishPrefill chain r tokenId : M Row Unit) := by
  refine (registerComplete_bounded r).bind fun _ => ?_
  cases tokenId with
  | none => exact Exec.Keeps.pure ()
  | some tokenId =>
    exact Exec.Keeps.get_bind fun _ he => ((onScheduler_bounded
      (Scheduler.markPrefillDone_sameOffsets r)).bind fun _ => (onScheduler_bounded
        (Scheduler.markDecodeDone_sameOffsets r tokenId)).bind fun _ =>
          (emitToken_bounded _ _).bind fun _ => releaseCacheSlot_bounded _ _) _ he

variable [LinearOrder Score]

theorem prefillBatch_bounded (hmodel : model.KeepsPrefixes) {rs : List Ref} (hnd : rs.Nodup) :
    Exec.Keeps Bounded (prefillBatch chain model rs) :=
  Exec.Keeps.ite (fun _ => (onRunner_bounded (ModelRunner.prefill_bounded hmodel hnd)).bind fun _ =>
    Exec.Keeps.forM _ fun p _ => finishPrefill_bounded p.1 p.2) fun _ => Exec.Keeps.pure ()

theorem decodeBatch_bounded (hmodel : model.KeepsPrefixes) (rs : List Ref) :
    Exec.Keeps Bounded (decodeBatch model rs) :=
  Exec.Keeps.ite (fun _ => (onRunner_bounded (ModelRunner.decode_bounded hmodel rs)).bind fun _ =>
    Exec.Keeps.forM _ fun p _ => finishDecode_bounded p.1 p.2) fun _ => Exec.Keeps.pure ()

omit [LinearOrder Score] in
theorem ensureCache_scheduler (model : InferenceModel Row Score) (e : Engine Row) :
    (Exec.after (ensureCache model) e).scheduler = e.scheduler := by
  obtain ⟨cache, hcache⟩ := ensureCache_after model e
  rw [hcache]

/-- **A step keeps every offset within its prompt**, on either exit. -/
theorem step_bounded (hmodel : model.KeepsPrefixes) (hl : Live e.scheduler) (h : Bounded e) :
    Bounded (Exec.after (step chain model) e) := by
  unfold step
  rw [Exec.after, Exec.run_bind_ok (EStateM.run_get e)]
  by_cases hwork : e.scheduler.hasWork = false
  · rw [if_pos hwork]
    exact h
  rw [if_neg hwork]
  have hensure := ensureCache_bounded hmodel e h
  have hsame := ensureCache_scheduler model e
  unfold Exec.after at hensure hsame
  cases hrun : (ensureCache model).run e with
  | error err e₁ =>
    rw [Exec.run_bind_error hrun]
    rw [hrun] at hensure
    exact hensure
  | ok u e₁ =>
    rw [Exec.run_bind_ok hrun]
    rw [hrun] at hensure hsame
    obtain ⟨result, hsched, hprefill, -⟩ := Scheduler.schedule_run e₁.scheduler
    rw [Exec.run_bind_ok (onScheduler_run hsched)]
    have hnd : result.prefillRequests.Nodup := by
      have hl₁ : Live e₁.scheduler := hsame.symm ▸ hl
      exact (hl₁.assignWaitingToSlots.running_nodup.filter _).sublist hprefill
    exact ((prefillBatch_bounded hmodel hnd).bind fun _ => (decodeBatch_bounded hmodel _).bind
      fun _ => Exec.Keeps.pure true) _
        (Bounded.withScheduler hensure (Scheduler.assignWaitingToSlots_sameOffsets _))

/-! ## Calls and runs -/

theorem next_bounded (hmodel : model.KeepsPrefixes) (hl : Live e.scheduler) (h : Bounded e)
    (op : Op) : Bounded (Engine.next chain model e op) := by
  cases op with
  | addRequest requestId promptTokenIds maxNewTokens =>
    rw [Engine.next, call, Exec.after_dropped, Exec.after_of_ok (addRequest_run e _ _ _)]
    refine ⟨fun r => ?_, h.short, h.budget⟩
    by_cases he : r = e.scheduler.created
    · subst he
      simp only [withRequest_new]
      exact Nat.zero_le _
    · simp only [withRequest, Function.update_of_ne he]
      exact h.offset r
  | step =>
    rw [Engine.next, call, Exec.after_dropped]
    exact step_bounded hmodel hl h
  | cancelRequest requestId status =>
    rw [Engine.next, call, Exec.after_dropped]
    refine cancelRequest_pieces (J := Bounded) (fun e he => he.withScheduler
      (Scheduler.cancelRequest_sameOffsets requestId status e.scheduler))
        (fun b e c he hc => ?_) e h
    refine ⟨he.offset, fun c' hc' => ?_, he.budget⟩
    cases hc'
    exact KVCacheType.resetSlot_short (b : Int) c (he.short c hc)
  | reconfigure prefillChunkSize maxTokensPerStep maxConcurrentRequests usePaged usePrefix =>
    rw [Engine.next, call, Exec.after_dropped]
    have hout := reconfigure_outcome e
      ⟨prefillChunkSize, maxTokensPerStep, maxConcurrentRequests, usePaged, usePrefix⟩
    unfold reconfigureWith at hout
    unfold Exec.after
    generalize (reconfigure prefillChunkSize maxTokensPerStep maxConcurrentRequests usePaged
      usePrefix : M Row EngineConfig).run e = result at hout
    have hassigned : ∀ changes, Bounded (e.assigned changes) := fun changes =>
      ⟨h.offset, h.short, congrArg changes.maxTokensPerStep.getD h.budget⟩
    cases hout with
    | refused err _ => exact h
    | halfway err _ _ _ => exact hassigned _
    | done _ _ _ =>
      unfold reconfigured
      split
      · exact hassigned _
      · exact { (hassigned _).withScheduler (Scheduler.withMax_sameOffsets _ _) with }
  | registerTokenCallback requestId => exact { h with }
  | unregisterTokenCallback requestId => exact { h with }

omit [LinearOrder Score] in
theorem new_bounded {maxConcurrentRequests prefillChunkSize maxTokensPerStep : Int}
    {usePagedKvCache usePrefixCache : Bool}
    (h : new model maxConcurrentRequests prefillChunkSize maxTokensPerStep usePagedKvCache
      usePrefixCache = .ok e) : Bounded e := by
  obtain ⟨s, hs, he⟩ := Exec.bind_eq_ok h
  cases he
  unfold Scheduler.new at hs
  split at hs
  · cases hs
  · split at hs
    · cases hs
    · cases hs
      exact ⟨fun _ => Nat.zero_le _, nofun, rfl⟩

/-- **In every run the offsets are within the prompts.** -/
theorem run_bounded (hmodel : model.KeepsPrefixes) (hl : Live e.scheduler) (h : Bounded e)
    (ops : List Op) : Bounded (ops.foldl (Engine.next chain model) e) := by
  induction ops generalizing e with
  | nil => exact h
  | cons op ops ih => exact ih (next_live hl op) (next_bounded hmodel hl h op)

end Engine

end Nifre
