import Nifre.Properties.RunnerFrame
import Nifre.Properties.ContinuousBatching
import Nifre.Properties.ClearSlots
import Nifre.Inference.HfAuto

/-!
# The number of slots of a cache

No method of a cache changes it, on either exit and from any state.
-/

namespace Nifre

variable {Row Score : Type} {chain : Int → List Nat → Int}

/-! ## The three caches -/

namespace KVCache

variable {n : Nat}

theorem slotOf_size (batchIdx : Int) :
    Exec.Keeps (fun c : KVCache Row => c.batchSize = n) (slotOf batchIdx) := by
  refine Exec.Keeps.get_bind fun c h => ?_
  split <;> exact h

theorem layerOf_size (layerId : Int) :
    Exec.Keeps (fun c : KVCache Row => c.batchSize = n) (layerOf layerId) := by
  refine Exec.Keeps.get_bind fun c h => ?_
  split <;> exact h

theorem resetSlot_size (batchIdx : Int) :
    Exec.Keeps (fun c : KVCache Row => c.batchSize = n) (resetSlot batchIdx) :=
  Exec.Keeps.bind (slotOf_size batchIdx) fun _ => Exec.Keeps.modify fun _ h => h

theorem append_size (batchIdx layerId : Int) (key value : List Row) :
    Exec.Keeps (fun c : KVCache Row => c.batchSize = n) (append batchIdx layerId key value) := by
  refine Exec.Keeps.bind (slotOf_size batchIdx) fun b => Exec.Keeps.get_bind fun c h => ?_
  refine Exec.Keeps.ite (fun _ => Exec.Keeps.throw _)
    (fun _ => Exec.Keeps.bind (layerOf_size layerId) fun l => ?_) c h
  have hlast : Exec.Keeps (fun c : KVCache Row => c.batchSize = n)
      (if layerId = (c.numLayers : Int) - 1 then
        modify fun c => { c with pos := Function.update c.pos b (c.pos b + key.length) }
      else pure () : M Row Unit) :=
    Exec.Keeps.ite (fun _ => Exec.Keeps.modify fun _ h => h) fun _ => Exec.Keeps.pure ()
  cases assign (c.k l) b (c.pos b) key.length key with
  | error e => exact Exec.Keeps.throw e
  | ok k =>
    refine Exec.Keeps.bind (Exec.Keeps.modify fun _ h => h) fun _ => ?_
    cases assign (c.v l) b (c.pos b) key.length value with
    | error e => exact Exec.Keeps.throw e
    | ok v => exact Exec.Keeps.bind (Exec.Keeps.modify fun _ h => h) fun _ => hlast

end KVCache

namespace PagedKVCache

variable {n : Nat}

theorem slotOf_size (batchIdx : Int) :
    Exec.Keeps (fun c : PagedKVCache Nat Row => c.batchSize = n) (slotOf batchIdx) := by
  refine Exec.Keeps.get_bind fun c h => ?_
  split <;> exact h

theorem onTable_size {α : Type} (b : Nat) (m : BlockTable.M α) :
    Exec.Keeps (fun c : PagedKVCache Nat Row => c.batchSize = n) (onTable b m) :=
  Exec.Keeps.within fun _ h => h

theorem resetSlot_size (batchIdx : Int) :
    Exec.Keeps (fun c : PagedKVCache Nat Row => c.batchSize = n) (resetSlot batchIdx) :=
  Exec.Keeps.bind (slotOf_size batchIdx) fun b => Exec.Keeps.bind (onTable_size b _) fun _ =>
    Exec.Keeps.modify fun _ h => h

theorem append_size (batchIdx layerId : Int) (key value : List Row) :
    Exec.Keeps (fun c : PagedKVCache Nat Row => c.batchSize = n)
      (append batchIdx layerId key value) := by
  have hrows : ∀ (b p : Nat), Exec.Keeps (fun c : PagedKVCache Nat Row => c.batchSize = n)
      (writeRows b layerId p key value) := by
    intro b p c hc
    obtain ⟨k, v, hrun | ⟨err, -, hrun⟩⟩ := writeRows_frame b layerId key value p c
    · rw [Exec.after_of_ok hrun]
      exact hc
    · rw [Exec.after_of_error hrun]
      exact hc
  refine Exec.Keeps.bind (slotOf_size batchIdx) fun b => Exec.Keeps.get_bind fun c h => ?_
  refine Exec.Keeps.ite (fun _ => Exec.Keeps.throw _) (fun _ => Exec.Keeps.bind (onTable_size b _)
    fun _ => Exec.Keeps.bind (hrows b _) fun _ => ?_) c h
  exact Exec.Keeps.ite (fun _ => Exec.Keeps.modify fun _ h => h) fun _ => Exec.Keeps.pure _

theorem tryLoadPrefix_size (batchIdx : Int) (tokenIds : List Nat) :
    Exec.Keeps (fun c : PagedKVCache Nat Row => c.batchSize = n)
      (tryLoadPrefix chain batchIdx tokenIds) := by
  refine Exec.Keeps.get_bind fun c h => ?_
  split
  · exact h
  · next p _ =>
    have hload : Exec.Keeps (fun c : PagedKVCache Nat Row => c.batchSize = n)
        (if (p.lookup chain tokenIds).1.1 = 0 then pure 0
        else do
          let b ← slotOf batchIdx
          onTable b (BlockTable.importBlocks (p.lookup chain tokenIds).1.2)
          modify fun c => { c with pos := Function.update c.pos b (p.lookup chain tokenIds).1.1 }
          pure (p.lookup chain tokenIds).1.1 : M Nat Row Nat) :=
      Exec.Keeps.ite (fun _ => Exec.Keeps.pure 0) fun _ =>
        Exec.Keeps.bind (slotOf_size batchIdx) fun b => Exec.Keeps.bind (onTable_size b _) fun _ =>
          Exec.Keeps.bind (Exec.Keeps.modify fun _ h => h) fun _ => Exec.Keeps.pure _
    exact hload _ h

theorem registerPrefix_size (batchIdx : Int) (tokenIds : List Nat) :
    Exec.Keeps (fun c : PagedKVCache Nat Row => c.batchSize = n)
      (registerPrefix chain batchIdx tokenIds) := by
  refine Exec.Keeps.get_bind fun c h => ?_
  split
  · exact h
  · next p _ =>
    have hinsert : ∀ blocks, Exec.Keeps (fun c : PagedKVCache Nat Row => c.batchSize = n)
        (onPrefixCache p (PrefixCache.insert chain tokenIds blocks)) :=
      fun _ => Exec.Keeps.within fun _ h => h
    exact Exec.Keeps.bind (slotOf_size batchIdx)
      (fun b => Exec.Keeps.get_bind fun c' h' => hinsert (c'.tables b) c' h') c h

end PagedKVCache

namespace HFKVCache

variable {n : Nat}

theorem slotOf_size (batchIdx : Int) :
    Exec.Keeps (fun c : HFKVCache Nat Row => c.batchSize = n) (slotOf batchIdx) := by
  refine Exec.Keeps.get_bind fun c h => ?_
  split <;> exact h

theorem resetSlot_size (batchIdx : Int) :
    Exec.Keeps (fun c : HFKVCache Nat Row => c.batchSize = n) (resetSlot batchIdx) :=
  Exec.Keeps.bind (slotOf_size batchIdx) fun _ => Exec.Keeps.modify fun _ h => h

theorem getPast_size (batchIdx : Int) :
    Exec.Keeps (fun c : HFKVCache Nat Row => c.batchSize = n) (getPast batchIdx) :=
  Exec.Keeps.bind (slotOf_size batchIdx) fun _ => Exec.Keeps.get_bind fun _ h => h

theorem setPast_size (batchIdx : Int) (past : Option (Past Row)) :
    Exec.Keeps (fun c : HFKVCache Nat Row => c.batchSize = n) (setPast batchIdx past) := by
  refine Exec.Keeps.get_bind fun c h => ?_
  have hstore : ∀ b, Exec.Keeps (fun c : HFKVCache Nat Row => c.batchSize = n)
      (modify fun c => c.store b past (pastKeyValuesLength past) : M Nat Row Unit) :=
    fun _ => Exec.Keeps.modify fun _ h => h
  exact Exec.Keeps.ite (fun _ => Exec.Keeps.throw _)
    (fun _ => Exec.Keeps.bind (slotOf_size batchIdx) hstore) c h

theorem tryLoadPrefix_size (batchIdx : Int) (tokenIds : List Nat) :
    Exec.Keeps (fun c : HFKVCache Nat Row => c.batchSize = n)
      (tryLoadPrefix chain batchIdx tokenIds) := by
  refine Exec.Keeps.get_bind fun c h => ?_
  split
  · exact h
  · next p _ =>
    have hlookup : Exec.Keeps (fun c : HFKVCache Nat Row => c.batchSize = n)
        (onPrefixCache p (BlockPrefixCache.lookup chain tokenIds)) :=
      Exec.Keeps.within fun _ h => h
    refine Exec.Keeps.bind hlookup (fun past => ?_) c h
    split
    · exact Exec.Keeps.pure 0
    · exact Exec.Keeps.throw _
    · exact Exec.Keeps.bind (slotOf_size batchIdx) fun b =>
        Exec.Keeps.bind (Exec.Keeps.modify fun _ h => h) fun _ => Exec.Keeps.pure _

theorem registerPrefix_size (batchIdx : Int) (tokenIds : List Nat) :
    Exec.Keeps (fun c : HFKVCache Nat Row => c.batchSize = n)
      (registerPrefix chain batchIdx tokenIds) := by
  refine Exec.Keeps.get_bind fun c h => ?_
  split
  · exact h
  · refine Exec.Keeps.bind (slotOf_size batchIdx) (fun b => ?_) c h
    split
    · exact Exec.Keeps.pure ()
    · exact Exec.Keeps.within fun _ h => h

end HFKVCache

/-! ## The cache a model is handed -/

namespace KVCacheType

theorem append_size (n : Nat) (batchIdx layerId : Int) (key value : List Row) :
    Exec.Keeps (fun c => batchSize c = n) (append batchIdx layerId key value) := by
  intro c h
  cases c with
  | dense c =>
    show (Exec.stateOf (Exec.embed dense _)).batchSize = n
    rw [Exec.stateOf_embed]
    exact KVCache.append_size batchIdx layerId key value c h
  | paged c =>
    show (Exec.stateOf (Exec.embed paged _)).batchSize = n
    rw [Exec.stateOf_embed]
    exact PagedKVCache.append_size batchIdx layerId key value c h
  | hf c => exact h

theorem resetSlot_size (n : Nat) (batchIdx : Int) :
    Exec.Keeps (fun c => batchSize c = n) (resetSlot batchIdx : M Row Unit) := by
  intro c h
  cases c with
  | dense c =>
    show (Exec.stateOf (Exec.embed dense _)).batchSize = n
    rw [Exec.stateOf_embed]
    exact KVCache.resetSlot_size batchIdx c h
  | paged c =>
    show (Exec.stateOf (Exec.embed paged _)).batchSize = n
    rw [Exec.stateOf_embed]
    exact PagedKVCache.resetSlot_size batchIdx c h
  | hf c =>
    show (Exec.stateOf (Exec.embed hf _)).batchSize = n
    rw [Exec.stateOf_embed]
    exact HFKVCache.resetSlot_size batchIdx c h

theorem tryLoadPrefix_size (n : Nat) (batchIdx : Int) (tokenIds : List Nat) :
    Exec.Keeps (fun c => batchSize c = n) (tryLoadPrefix chain batchIdx tokenIds : M Row Nat) := by
  intro c h
  cases c with
  | dense c => exact h
  | paged c =>
    show (Exec.stateOf (Exec.embed paged _)).batchSize = n
    rw [Exec.stateOf_embed]
    exact PagedKVCache.tryLoadPrefix_size batchIdx tokenIds c h
  | hf c =>
    show (Exec.stateOf (Exec.embed hf _)).batchSize = n
    rw [Exec.stateOf_embed]
    exact HFKVCache.tryLoadPrefix_size batchIdx tokenIds c h

theorem registerPrefix_size (n : Nat) (batchIdx : Int) (tokenIds : List Nat) :
    Exec.Keeps (fun c => batchSize c = n) (registerPrefix chain batchIdx tokenIds : M Row Unit) := by
  intro c h
  cases c with
  | dense c => exact h
  | paged c =>
    show (Exec.stateOf (Exec.embed paged _)).batchSize = n
    rw [Exec.stateOf_embed]
    exact PagedKVCache.registerPrefix_size batchIdx tokenIds c h
  | hf c =>
    show (Exec.stateOf (Exec.embed hf _)).batchSize = n
    rw [Exec.stateOf_embed]
    exact HFKVCache.registerPrefix_size batchIdx tokenIds c h

end KVCacheType

/-- A model uses the cache it is handed and does not replace it by another. -/
def InferenceModel.KeepsSize (model : InferenceModel Row Score) : Prop :=
  ∀ tokenIds inputLens slots (c : KVCacheType Row),
    (Exec.after (model.call tokenIds inputLens slots) c).batchSize = c.batchSize

/-- A step keeps the number of slots. -/
theorem InferenceModel.KeepsSize.cacheSteps {model : InferenceModel Row Score}
    (h : model.KeepsSize) : CacheSteps chain model fun c c' => c'.batchSize = c.batchSize where
  refl := fun _ => rfl
  trans := fun h h' => h'.trans h
  call := h
  resetSlot := fun b c => KVCacheType.resetSlot_size c.batchSize (b : Int) c rfl
  tryLoadPrefix := fun b prompt c => KVCacheType.tryLoadPrefix_size c.batchSize (b : Int) prompt c rfl
  registerPrefix := fun b prompt c =>
    KVCacheType.registerPrefix_size c.batchSize (b : Int) prompt c rfl

theorem recallModel_keepsSize (config : ModelConfig) (logits : List Nat → List Score) :
    (recallModel config logits).KeepsSize := by
  intro tokenIds inputLens slots c
  have hget : ∀ b : Nat, Exec.Keeps (fun c' : KVCacheType Nat => c'.batchSize = c.batchSize)
      (KVCacheType.get (b : Int) 0) := fun b c' h => by
    rw [KVCacheType.get_reads]
    exact h
  have hround : ∀ new, Exec.Keeps (fun c' : KVCacheType Nat => c'.batchSize = c.batchSize)
      (KVCacheType.appendRound config.numLayers new slots) := fun _ =>
    Exec.Keeps.forM _ fun _ _ => Exec.Keeps.forM _ fun _ _ => KVCacheType.append_size _ _ _ _ _
  exact Exec.Keeps.bind (Exec.Keeps.mapM slots fun b _ => hget b)
    (fun _ => Exec.Keeps.bind (hround _) fun _ => Exec.Keeps.pure _) c rfl

/-- The model sees the past of one slot, and nothing else of the cache. -/
theorem HfCausalLM.outputs_keeps {lm : HfCausalLM Row Score} {J : HFKVCache Nat Row → Prop}
    {slot : Nat} (h : ∀ c past, J c →
      J { c with past := Function.update c.past slot (some past) }) (ids : List Nat) :
    ∀ past, Exec.Keeps J (lm.outputs ids slot past)
  | none => Exec.Keeps.ofExcept _
  | some _ => Exec.Keeps.within fun c hc => h c _ hc

theorem HfCausalLM.keepsSize [Inhabited Row] (lm : HfCausalLM Row Score) :
    lm.inferenceModel.KeepsSize := by
  intro tokenIds inputLens slots c
  cases c with
  | dense c => rfl
  | paged c => rfl
  | hf c =>
    show (Exec.stateOf (Exec.embed KVCacheType.hf _)).batchSize = c.batchSize
    rw [Exec.stateOf_embed]
    have hrow : ∀ ids slot len, Exec.Keeps (fun c' : HFKVCache Nat Row => c'.batchSize = c.batchSize)
        (lm.forwardRow ids slot len) := fun _ slot _ =>
      (HFKVCache.getPast_size (slot : Int)).bind fun past =>
        (outputs_keeps (fun _ _ h => h) _ past).bind fun _ =>
          (HFKVCache.setPast_size (slot : Int) _).bind fun _ => Exec.Keeps.pure _
    exact Exec.Keeps.bind (Exec.Keeps.mapM _ fun _ _ => hrow _ _ _)
      (fun _ => Exec.Keeps.ofExcept _) c rfl

/-- A cache that is made has a slot for every request that may run. -/
theorem Engine.makeCache_size {model : InferenceModel Row Score} {usePaged usePrefix : Bool}
    {n : Nat} {c : KVCacheType Row} (h : makeCache model usePaged usePrefix n = .ok c) :
    c.batchSize = n := by
  unfold makeCache at h
  cases hmake : model.makeKvCache with
  | some make =>
    rw [hmake] at h
    cases h
    rfl
  | none =>
    rw [hmake] at h
    cases usePaged with
    | false =>
      cases h
      rfl
    | true =>
      simp only [if_true] at h
      generalize hinit : (PagedKVCache.initBatch _ _ _ _ : Except PyError (PagedKVCache Nat _)) =
        result at h
      cases result with
      | error err => cases h
      | ok c =>
        cases h
        exact (PagedKVCache.initBatch_spec hinit).2.1

end Nifre
