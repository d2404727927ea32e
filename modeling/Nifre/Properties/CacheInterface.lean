import Nifre.Inference.ModelInterface
import Nifre.Properties.PagedRefinesDense

/-!
# What a cache stores, dense or paged

The dense cache stores a `KVStore`, so does the paged one as long as its prefix cache is empty, and
so does the cache a model is handed. A forward pass appends one round to the slots of its batch, layer by layer.
-/

namespace Nifre

namespace KVCacheType

variable {Row : Type}

/-- The cache stores `s` and has the sizes of the configuration. -/
def Stores (config : ModelConfig) (s : KVStore Row) : KVCacheType Row → Prop
  | dense c => c.Stores s ∧ c.numLayers = config.numLayers ∧ c.maxSeqLen = config.maxSeqLen
  | paged c => c.Stores s ∧ c.numLayers = config.numLayers ∧ c.maxSeqLen = config.maxSeqLen
  | hf _ => False

section

variable {config : ModelConfig} {s : KVStore Row} {c : KVCacheType Row} {b l : Nat}

theorem append_stores (h : c.Stores config s) (hb : b < c.batchSize) {kvs : List (Row × Row)}
    (hcan : s.CanAppend config.numLayers config.maxSeqLen b l kvs.length) :
    ∃ c', (append (b : Int) (l : Int) (kvs.map Prod.fst) (kvs.map Prod.snd)).run c = .ok () c' ∧
      c'.Stores config (s.append config.numLayers b l kvs) ∧ c'.batchSize = c.batchSize := by
  cases c with
  | dense c =>
    obtain ⟨hs, hl, hm⟩ := h
    rw [← hl, ← hm] at hcan
    obtain ⟨c', hrun, hs', hshape⟩ := KVCache.append_stores hs hb hcan
    refine ⟨dense c', congrArg (Exec.embed dense) hrun,
      ⟨by rw [← hl]; exact hs', hshape.numLayers.trans hl, hshape.maxSeqLen.trans hm⟩,
      hshape.batchSize⟩
  | paged c =>
    obtain ⟨hs, hl, hm⟩ := h
    rw [← hl, ← hm] at hcan
    obtain ⟨c', hrun, hs', hshape⟩ := PagedKVCache.append_stores hs hb hcan
    refine ⟨paged c', congrArg (Exec.embed paged) hrun,
      ⟨by rw [← hl]; exact hs', hshape.numLayers.trans hl, hshape.maxSeqLen.trans hm⟩,
      hshape.batchSize⟩
  | hf c => exact h.elim

theorem resetSlot_stores (h : c.Stores config s) (hb : b < c.batchSize) :
    ∃ c', (resetSlot (b : Int)).run c = .ok () c' ∧ c'.Stores config (s.reset b) ∧
      c'.batchSize = c.batchSize := by
  cases c with
  | dense c =>
    obtain ⟨hs, hl, hm⟩ := h
    obtain ⟨c', hrun, hs', hshape⟩ := KVCache.resetSlot_stores hs hb
    exact ⟨dense c', congrArg (Exec.embed dense) hrun,
      ⟨hs', hshape.numLayers.trans hl, hshape.maxSeqLen.trans hm⟩, hshape.batchSize⟩
  | paged c =>
    obtain ⟨hs, hl, hm⟩ := h
    obtain ⟨c', hrun, hs', hshape⟩ := PagedKVCache.resetSlot_stores hs hb
    exact ⟨paged c', congrArg (Exec.embed paged) hrun,
      ⟨hs', hshape.numLayers.trans hl, hshape.maxSeqLen.trans hm⟩, hshape.batchSize⟩
  | hf c => exact h.elim

theorem get_stores (h : c.Stores config s) (hb : b < c.batchSize) (hl : l < config.numLayers) :
    (get (b : Int) (l : Int)).run c
      = .ok ((s.get b l).map Prod.fst, (s.get b l).map Prod.snd) c := by
  cases c with
  | dense c =>
    exact congrArg (Exec.embed dense) (KVCache.get_stores h.1 hb (by rw [h.2.1]; exact hl))
  | paged c =>
    exact congrArg (Exec.embed paged) (PagedKVCache.get_stores h.1 hb (by rw [h.2.1]; exact hl))
  | hf c => exact h.elim

theorem length_stores (h : c.Stores config s) (hb : b < c.batchSize) :
    (length (b : Int)).run c = .ok (s.len b) c := by
  cases c with
  | dense c => exact congrArg (Exec.embed dense) (KVCache.length_stores h.1 hb)
  | paged c => exact congrArg (Exec.embed paged) (PagedKVCache.length_stores h.1 hb)
  | hf c => exact h.elim

end

/-! ## Without prefix caching -/

/-- A paged cache has no prefix cache. -/
def PrefixOff (c : KVCacheType Row) : Prop := ∀ p, c = .paged p → p.prefixCache = none

theorem paged_append_keeps (x : Option (PrefixCache Nat)) (batchIdx layerId : Int)
    (key value : List Row) : Exec.Keeps (fun c : PagedKVCache Nat Row => c.prefixCache = x)
      (PagedKVCache.append batchIdx layerId key value) := by
  have hrows : ∀ (b : Nat) (keys values : List Row) (p : Nat),
      Exec.Keeps (fun c : PagedKVCache Nat Row => c.prefixCache = x)
        (PagedKVCache.writeRows b layerId p keys values) := by
    intro b keys values p c hc
    obtain ⟨k, v, hrun | ⟨err, -, hrun⟩⟩ := PagedKVCache.writeRows_frame b layerId keys values p c
    · rw [Exec.after_of_ok hrun]
      exact hc
    · rw [Exec.after_of_error hrun]
      exact hc
  refine Exec.Keeps.bind (Exec.Keeps.get_bind fun c hc => by split <;> exact hc) fun b =>
    Exec.Keeps.get_bind fun c hc => Exec.Keeps.ite (fun _ => Exec.Keeps.throw _)
      (fun _ => Exec.Keeps.bind (Exec.Keeps.within fun _ h => h) fun _ =>
        Exec.Keeps.bind (hrows b key value _) fun _ => ?_) c hc
  exact Exec.Keeps.ite (fun _ => Exec.Keeps.modify fun _ h => h) fun _ => Exec.Keeps.pure _

theorem append_prefixOff (batchIdx layerId : Int) (key value : List Row) :
    Exec.Keeps PrefixOff (append batchIdx layerId key value) := by
  intro c hc p hp
  cases c with
  | dense d => cases (Exec.stateOf_embed dense _).symm.trans hp
  | paged q =>
    cases (Exec.stateOf_embed paged _).symm.trans hp
    exact paged_append_keeps none batchIdx layerId key value q (hc q rfl)
  | hf d => cases hp

theorem resetSlot_prefixOff (batchIdx : Int) :
    Exec.Keeps PrefixOff (resetSlot batchIdx : M Row Unit) := by
  intro c hc p hp
  cases c with
  | dense d => cases (Exec.stateOf_embed dense _).symm.trans hp
  | paged q =>
    cases (Exec.stateOf_embed paged _).symm.trans hp
    have hkeeps : Exec.Keeps (fun c : PagedKVCache Nat Row => c.prefixCache = none)
        (PagedKVCache.resetSlot batchIdx) :=
      Exec.Keeps.bind (Exec.Keeps.get_bind fun c hc => by split <;> exact hc) fun b =>
        Exec.Keeps.bind (Exec.Keeps.within fun _ h => h) fun _ => Exec.Keeps.modify fun _ h => h
    exact hkeeps q (hc q rfl)
  | hf d => cases (Exec.stateOf_embed hf _).symm.trans hp

/-! ## Rounds -/

/-- One layer of a round: each slot of the batch gets its new rows. -/
def appendLayer (new : Nat → Nat → List (Row × Row)) (slots : List Nat) (l : Nat) : M Row Unit :=
  forM slots fun b : Nat =>
    append (b : Int) (l : Int) ((new b l).map Prod.fst) ((new b l).map Prod.snd)

/-- One round: the layers one after the other. -/
def appendRound (numLayers : Nat) (new : Nat → Nat → List (Row × Row)) (slots : List Nat) :
    M Row Unit :=
  forM (List.range numLayers) (appendLayer new slots)

theorem appendRound_prefixOff (numLayers : Nat) (new : Nat → Nat → List (Row × Row))
    (slots : List Nat) : Exec.Keeps PrefixOff (appendRound numLayers new slots) :=
  Exec.Keeps.forM _ fun _ _ => Exec.Keeps.forM _ fun _ _ => append_prefixOff _ _ _ _

section

variable {config : ModelConfig} {s : KVStore Row} {new : Nat → Nat → List (Row × Row)}
  {n : Nat → Nat}

/-- The slots of a batch can take the round. -/
structure Takes (config : ModelConfig) (s : KVStore Row) (new : Nat → Nat → List (Row × Row))
    (n : Nat → Nat) (slots : List Nat) : Prop where
  nodup : slots.Nodup
  count : ∀ b ∈ slots, ∀ l < config.numLayers, (new b l).length = n b
  whole : ∀ b ∈ slots, ∀ l < config.numLayers, (s.rows b l).length = s.len b
  fits : ∀ b ∈ slots, s.len b + n b ≤ config.maxSeqLen

theorem Takes.tail {b : Nat} {slots : List Nat} (h : Takes config s new n (b :: slots)) :
    Takes config s new n slots where
  nodup := (List.nodup_cons.mp h.nodup).2
  count := fun i hi => h.count i (List.mem_cons_of_mem b hi)
  whole := fun i hi => h.whole i (List.mem_cons_of_mem b hi)
  fits := fun i hi => h.fits i (List.mem_cons_of_mem b hi)

/-- **One slot's part of a layer.** -/
theorem append_withRound {c : KVCacheType Row} {done : Nat → Nat} {b l : Nat} {slots : List Nat}
    (h : c.Stores config (s.withRound config.numLayers new n done)) (hb : b < c.batchSize)
    (hl : l < config.numLayers) (htakes : Takes config s new n slots) (hmem : b ∈ slots)
    (hdone : done b = l) :
    ∃ c', (append (b : Int) (l : Int) ((new b l).map Prod.fst) ((new b l).map Prod.snd)).run c
        = .ok () c' ∧
      c'.Stores config (s.withRound config.numLayers new n (Function.update done b (l + 1))) ∧
      c'.batchSize = c.batchSize := by
  have hcan := KVStore.canAppend_withRound hdone hl (htakes.count b hmem) (htakes.whole b hmem)
    (htakes.fits b hmem)
  rw [← htakes.count b hmem l hl] at hcan
  obtain ⟨c', hrun, hs, hsize⟩ := append_stores h hb hcan
  rw [KVStore.append_withRound hdone hl (htakes.count b hmem l hl)] at hs
  exact ⟨c', hrun, hs, hsize⟩

theorem appendLayer_run {l : Nat} (hl : l < config.numLayers) : ∀ {slots : List Nat}
    {c : KVCacheType Row} {done : Nat → Nat}, Takes config s new n slots →
    c.Stores config (s.withRound config.numLayers new n done) → (∀ b ∈ slots, b < c.batchSize) →
    (∀ b ∈ slots, done b = l) →
    ∃ c', (appendLayer new slots l).run c = .ok () c' ∧
      c'.Stores config (s.withRound config.numLayers new n
        fun b => if b ∈ slots then l + 1 else done b) ∧ c'.batchSize = c.batchSize
  | [], c, done, _, h, _, _ => ⟨c, rfl, by simpa using h, rfl⟩
  | b :: slots, c, done, htakes, h, hlt, hdone => by
    obtain ⟨c₁, hrun₁, h₁, hsize₁⟩ := append_withRound h (hlt b List.mem_cons_self) hl htakes
      List.mem_cons_self (hdone b List.mem_cons_self)
    have hb := (List.nodup_cons.mp htakes.nodup).1
    obtain ⟨c₂, hrun₂, h₂, hsize₂⟩ := appendLayer_run hl htakes.tail h₁
      (fun i hi => hsize₁ ▸ hlt i (List.mem_cons_of_mem b hi))
      fun i hi => by
        have hib : i ≠ b := fun he => hb (he ▸ hi)
        rw [Function.update_of_ne hib]
        exact hdone i (List.mem_cons_of_mem b hi)
    refine ⟨c₂, ?_, ?_, hsize₂.trans hsize₁⟩
    · rw [appendLayer, List.forM_cons, Exec.run_bind_ok hrun₁]
      exact hrun₂
    · convert h₂ using 2
      funext i
      by_cases hib : i = b
      · subst hib
        simp [hb]
      · simp [hib]

/-- **A round goes through**, and every slot of the batch has its new rows. -/
theorem appendRound_run (hpos : 0 < config.numLayers) {slots : List Nat} {c : KVCacheType Row}
    (htakes : Takes config s new n slots) (h : c.Stores config s)
    (hlt : ∀ b ∈ slots, b < c.batchSize) :
    ∃ c', (appendRound config.numLayers new slots).run c = .ok () c' ∧
      c'.Stores config (s.withRound config.numLayers new n
        fun b => if b ∈ slots then config.numLayers else 0) ∧ c'.batchSize = c.batchSize := by
  have hsteps : ∀ k ≤ config.numLayers, ∃ c',
      (forM (List.range k) (appendLayer new slots)).run c = .ok () c' ∧
      c'.Stores config (s.withRound config.numLayers new n
        fun b => if b ∈ slots then k else 0) ∧ c'.batchSize = c.batchSize := by
    intro k
    induction k with
    | zero =>
      refine fun _ => ⟨c, rfl, ?_, rfl⟩
      simpa [KVStore.withRound_zero hpos] using h
    | succ k ih =>
      intro hk
      obtain ⟨c₁, hrun₁, h₁, hsize₁⟩ := ih (Nat.le_of_succ_le hk)
      obtain ⟨c₂, hrun₂, h₂, hsize₂⟩ := appendLayer_run hk htakes h₁
        (fun b hb => hsize₁ ▸ hlt b hb) fun b hb => if_pos hb
      refine ⟨c₂, ?_, ?_, hsize₂.trans hsize₁⟩
      · rw [List.range_succ, List.forM_append, Exec.run_bind_ok hrun₁, List.forM_cons,
          Exec.run_bind_ok hrun₂]
        rfl
      · convert h₂ using 2
        funext b
        by_cases hb : b ∈ slots <;> simp [hb]
  exact hsteps _ (Nat.le_refl _)

end

end KVCacheType

end Nifre
