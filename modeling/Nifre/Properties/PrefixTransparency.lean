import Nifre.Properties.AnsweredRuns
import Nifre.Properties.GptBatching
import Nifre.Properties.SharedCache

/-!
# Prefix caching is transparent

With prefix caching on, requests restore the rows of earlier prompts, entries are evicted, blocks
are shared and used again, and the pool may run out. In every run whose steps return, a request of
the GPT model still gets the tokens of greedy decoding without a cache, unless a prompt was
restored as a whole.

* `GptModel.answers` — the GPT model over any cache of the engine
* `GptModel.prefixCaching_greedy` — runs of the engine
-/

namespace Nifre

open Digest (CollisionFree fullBlocks)

/-! ## A dense cache stays one -/

namespace KVCacheType

variable {Row : Type}

/-- The cache is a dense one. -/
def IsDense (c : KVCacheType Row) : Prop := ∃ d, c = .dense d

theorem append_isDense (batchIdx layerId : Int) (key value : List Row) :
    Exec.Keeps IsDense (append batchIdx layerId key value) := by
  rintro c ⟨d, rfl⟩
  exact ⟨_, Exec.stateOf_embed dense _⟩

theorem appendRound_isDense (numLayers : Nat) (new : Nat → Nat → List (Row × Row))
    (slots : List Nat) : Exec.Keeps IsDense (appendRound numLayers new slots) :=
  Exec.Keeps.forM _ fun _ _ => Exec.Keeps.forM _ fun _ _ => append_isDense _ _ _ _

end KVCacheType

section

variable {Row Score : Type} {model : InferenceModel Row Score}
  {Encodes : Nat → List Nat → List (Row × Row) → Prop} {logits : List Nat → List Score}

/-- A forward pass over a dense cache leaves a dense cache. -/
theorem call_isDense (hmodel : RowLocal model Encodes logits) {c c' : KVCacheType Row}
    {held : Nat → List Nat} {rows : List (Nat × List Nat)} {tokenIds : List (List Nat)}
    {inputLens : Option (List Nat)} {out : Logits Score}
    (hc : HoldsTokens model.config Encodes c held) (hdense : c.IsDense)
    (hfits : FitsIn c.batchSize model.config.maxSeqLen held rows)
    (hbatch : BatchOf model.config.padTokenId rows tokenIds inputLens)
    (hrun : (model.call tokenIds inputLens (rows.map Prod.fst)).run c = .ok out c') :
    c'.IsDense := by
  obtain ⟨-, s, hs, henc⟩ := hc
  obtain ⟨out', new, -, hround, -⟩ := hmodel.call hs henc hfits hbatch
  rw [hround] at hrun
  obtain ⟨u, c₁, hround', hpure⟩ := Exec.run_bind_eq_ok hrun
  cases hpure
  have hafter := KVCacheType.appendRound_isDense model.config.numLayers new (rows.map Prod.fst) c
    hdense
  rwa [Exec.after_of_ok hround'] at hafter

end

/-! ## The GPT model -/

namespace GptModel

variable {F X Score : Type} [Field F] [Add X] {numHeads headDim : Nat} {math : ExactMath F}
  {gpt : GptModel F X Score numHeads headDim} {padId : Nat}
  {emptyDense : Nat → Nat × Nat → Heads F numHeads headDim}
  {emptyPaged : Nat → Int × Nat → Heads F numHeads headDim} {chain : Int → List Nat → Int}
  {P : Set (List (List Nat))}

/-- A forward pass that returned has looked every token up. -/
theorem lt_of_forwardWithCache {tokenIds : List (List Nat)} {inputLens : Option (List Nat)}
    {slots : List Nat} {c c' : KVCacheType (Heads F numHeads headDim)} {out : Logits Score}
    (h : (gpt.forwardWithCache math tokenIds inputLens slots).run c = .ok out c') :
    ∀ row ∈ tokenIds, ∀ t ∈ row, t < gpt.cfg.vocabSize := by
  rw [GptModel.forwardWithCache] at h
  obtain ⟨positions, c₁, -, h⟩ := Exec.run_bind_eq_ok h
  obtain ⟨x, c₂, hembed, -⟩ := Exec.run_bind_eq_ok h
  obtain ⟨tokens, htokens, -⟩ := Exec.bind_eq_ok (Exec.ofExcept_eq_ok hembed).1
  exact lt_of_embedding htokens

variable (gpt math chain P padId) in
/-- What tokens the slots of a cache hold, with the chains in play. -/
def SharedHolds : KVCacheType (Heads F numHeads headDim) → (Nat → List Nat) → Prop
  | .dense d, held => HoldsTokens
      (gpt.inferenceModel math (fun _ _ _ _ => 0) (fun _ _ _ _ => 0) padId).config
      (fun l tokens rows => rows = gpt.kvRows math l tokens) (.dense d) held
  | .paged p, held => p.numLayers = gpt.trfBlocks.length ∧ p.blockSize = gpt.cfg.blockSize ∧
      PagedKVCache.Inv chain (gpt.rowOf math) P ⟨p, PagedKVCache.holding held⟩
  | .hf _, _ => False

variable {c c' : KVCacheType (Heads F numHeads headDim)} {held : Nat → List Nat} {b : Nat}

theorem makeCache_sharedHolds (hnil : [] ∈ P) {usePagedKvCache usePrefixCache : Bool} {n : Nat}
    (h : Engine.makeCache (gpt.inferenceModel math emptyDense emptyPaged padId) usePagedKvCache
      usePrefixCache n = .ok c) :
    c.batchSize = n ∧ gpt.SharedHolds math padId chain P c fun _ => [] := by
  obtain ⟨hsize, hs, -⟩ := makeCache_stores rfl h
  refine ⟨hsize, ?_⟩
  unfold Engine.makeCache at h
  cases usePagedKvCache with
  | false =>
    cases h
    exact ⟨fun _ hp => absurd hp (by simp), _, hs, fun _ _ l _ => ⟨rfl, rfl, (kvRows_nil l).symm⟩⟩
  | true =>
    obtain ⟨p, hinit, rfl⟩ : ∃ p, PagedKVCache.initBatch ⟨gpt.trfBlocks.length,
        gpt.cfg.contextLength, gpt.cfg.blockSize, usePrefixCache, 1024⟩ emptyPaged emptyPaged n
          = .ok p ∧ c = .paged p := by
      obtain ⟨p, hinit, hp⟩ := Exec.bind_eq_ok ((bind_pure_comp _ _).trans h)
      cases hp
      exact ⟨p, hinit, rfl⟩
    obtain ⟨-, -, hl, -, hbs, -⟩ := PagedKVCache.initBatch_spec hinit
    exact ⟨hl, hbs, (PagedKVCache.initBatch_inv hinit P).holding_nil hnil⟩

theorem resetSlot_sharedHolds (hash : CollisionFree chain PrefixCache.rootHash P) (hnil : [] ∈ P)
    (hc : gpt.SharedHolds math padId chain P c held) (hb : b < c.batchSize)
    (hrun : (KVCacheType.resetSlot (b : Int)).run c = .ok () c') :
    c'.batchSize = c.batchSize ∧
      gpt.SharedHolds math padId chain P c' (Function.update held b []) := by
  cases c with
  | dense d =>
    obtain ⟨hoff, s, hs, henc⟩ := hc
    obtain ⟨c₁, hrun₁, hs', hsize⟩ := KVCacheType.resetSlot_stores hs hb
    cases hrun.symm.trans hrun₁
    obtain ⟨d', -, rfl⟩ := KVCacheType.embed_eq_ok hrun
    refine ⟨hsize, fun _ hp => absurd hp (by simp), _, hs', fun i hi l hl => ?_⟩
    by_cases hib : i = b
    · subst hib
      simp only [KVStore.reset, Function.update_self]
      exact ⟨rfl, rfl, (kvRows_nil l).symm⟩
    · simp only [KVStore.reset, Function.update_of_ne hib]
      exact henc i (hsize ▸ hi) l hl
  | paged p =>
    obtain ⟨hl, hbs, hinv⟩ := hc
    obtain ⟨p', hreset, hshape, hinv'⟩ := PagedKVCache.resetSlot_holding hash hnil hinv hb
    obtain ⟨p₁, hreset₁, rfl⟩ := KVCacheType.embed_eq_ok hrun
    cases hreset.symm.trans hreset₁
    exact ⟨hshape.batchSize, hshape.numLayers.trans hl, hshape.blockSize.trans hbs, hinv'⟩
  | hf c => exact hc.elim

theorem tryLoadPrefix_sharedHolds (hash : CollisionFree chain PrefixCache.rootHash P)
    (hnil : [] ∈ P) (hlayers : gpt.trfBlocks ≠ [])
    (hc : gpt.SharedHolds math padId chain P c held) (hb : b < c.batchSize) {prompt : List Nat}
    (hP : fullBlocks gpt.cfg.blockSize prompt ∈ P) {n : Nat}
    (hrun : (KVCacheType.tryLoadPrefix chain (b : Int) prompt).run c = .ok n c') :
    c'.batchSize = c.batchSize ∧ gpt.SharedHolds math padId chain P c'
      (if n = 0 then held else Function.update held b (prompt.take n)) := by
  cases c with
  | dense d => cases hrun
  | paged p =>
    obtain ⟨hl, hbs, hinv⟩ := hc
    obtain ⟨p', hload, rfl⟩ := KVCacheType.embed_eq_ok hrun
    obtain ⟨hshape, hinv'⟩ := PagedKVCache.tryLoadPrefix_holding hash hnil hinv hb
      (by rw [hl]; exact List.length_pos_iff.mpr hlayers) (by rw [hbs]; exact hP) hload
    exact ⟨hshape.batchSize, hshape.numLayers.trans hl, hshape.blockSize.trans hbs, hinv'⟩
  | hf c => exact hc.elim

theorem registerPrefix_sharedHolds (hash : CollisionFree chain PrefixCache.rootHash P)
    (hnil : [] ∈ P) (hc : gpt.SharedHolds math padId chain P c held) (hb : b < c.batchSize)
    (hP : fullBlocks gpt.cfg.blockSize (held b) ∈ P)
    (hrun : (KVCacheType.registerPrefix chain (b : Int) (held b)).run c = .ok () c') :
    c'.batchSize = c.batchSize ∧ gpt.SharedHolds math padId chain P c' held := by
  cases c with
  | dense d => cases hrun
  | paged p =>
    obtain ⟨hl, hbs, hinv⟩ := hc
    obtain ⟨p', hregister, rfl⟩ := KVCacheType.embed_eq_ok hrun
    obtain ⟨hshape, hinv'⟩ := PagedKVCache.registerPrefix_holding hash hnil hinv hb
      (by rw [hbs]; exact hP) hregister
    exact ⟨hshape.batchSize, hshape.numLayers.trans hl, hshape.blockSize.trans hbs, hinv'⟩
  | hf c => exact hc.elim

/-- **A forward pass that returns** stores the new tokens, and its last scores follow them. -/
theorem call_sharedHolds (hlayers : gpt.trfBlocks ≠ []) (hscores : ∀ x, gpt.outHead x ≠ [])
    (hash : CollisionFree chain PrefixCache.rootHash P)
    (hc : gpt.SharedHolds math padId chain P c held) {rows : List (Nat × List Nat)}
    {tokenIds : List (List Nat)} {inputLens : Option (List Nat)} {out : Logits Score}
    (hfits : FitsIn c.batchSize gpt.cfg.contextLength held rows)
    (hbatch : BatchOf padId rows tokenIds inputLens)
    (hrun : (gpt.forwardWithCache math tokenIds inputLens (rows.map Prod.fst)).run c
      = .ok out c') :
    c'.batchSize = c.batchSize ∧ gpt.SharedHolds math padId chain P c' (feed held rows) ∧
      ∀ (i : Nat) (h : i < rows.length),
        lastLogits out i = some (gpt.nextScores math (held rows[i].1 ++ rows[i].2)) := by
  cases c with
  | dense d =>
    -- the tokens are in the vocabulary, so a larger one makes no difference
    rw [← gpt.unboundedCall_eq (lt_of_forwardWithCache hrun)] at hrun
    have hlocal : RowLocal
        { gpt.inferenceModel math (fun _ _ _ _ => 0) (fun _ _ _ _ => 0) padId with
          call := gpt.unboundedCall math }
        (fun l tokens rows => rows = gpt.kvRows math l tokens) (gpt.nextScores math) :=
      rowLocal hlayers hscores
    obtain ⟨out₁, c₁, hrun₁, hsize, hc', hlast⟩ := call_holdsTokens hlocal hc hfits hbatch
    cases hrun.symm.trans hrun₁
    obtain ⟨d', rfl⟩ := call_isDense hlocal hc ⟨d, rfl⟩ hfits hbatch hrun
    exact ⟨hsize, hc', hlast⟩
  | paged p =>
    obtain ⟨hl, hbs, hinv⟩ := hc
    obtain ⟨p', width, rfl, hshape, hinv', hout⟩ := forwardWithCache_shared hash
      (List.length_pos_iff.mpr hlayers) hbatch hinv hl hfits hrun
    exact ⟨hshape.batchSize, ⟨hshape.numLayers.trans hl, hshape.blockSize.trans hbs, hinv'⟩,
      fun i hi => lastLogits_of_padded hout hfits.tokens hi⟩
  | hf c => exact hc.elim

variable [LinearOrder Score]

/-- **Over any cache of the engine**, shared blocks included, the calls of the GPT model that return
store the tokens they were given and sample each row from its own. -/
theorem answers (hhead : ∀ x, (gpt.outHead x).length = gpt.cfg.vocabSize)
    (hlayers : gpt.trfBlocks ≠ []) (hvocab : 0 < gpt.cfg.vocabSize)
    (hash : CollisionFree chain PrefixCache.rootHash P) (hnil : [] ∈ P) :
    Answers chain (gpt.inferenceModel math emptyDense emptyPaged padId)
      (gpt.SharedHolds math padId chain P)
      (fun prompt => fullBlocks gpt.cfg.blockSize prompt ∈ P) (fun _ => True)
      (nextToken (gpt.nextScores math)) where
  makeCache := fun _ h => makeCache_sharedHolds hnil h
  resetSlot := fun hc hb hrun => resetSlot_sharedHolds hash hnil hc hb hrun
  tryLoadPrefix := fun hc hb hP hrun => tryLoadPrefix_sharedHolds hash hnil hlayers hc hb hP hrun
  registerPrefix := fun hc hb hP hrun => registerPrefix_sharedHolds hash hnil hc hb hP hrun
  call := by
    intro c c' held rows tokenIds inputLens logits hc hfits hbatch hrun
    have hscores : ∀ x, gpt.outHead x ≠ [] := fun x => by
      rw [← List.length_pos_iff, hhead]
      exact hvocab
    obtain ⟨hsize, hc', hlast⟩ := call_sharedHolds hlayers hscores hash hc hfits hbatch hrun
    refine ⟨hsize, hc', fun i hi => ?_⟩
    rw [ModelRunner.sampleRow_of_lastLogits (hlast i hi), sampleGreedy_nextScores hhead hvocab]

/-- **Prefix caching is transparent**: after every run of legal calls on prompts of the vocabulary,
with any settings and any cache, in which the steps return and restore no prompt as a whole, each
completed request has the tokens of the plain forward on its own prompt. -/
theorem prefixCaching_greedy (hhead : ∀ x, (gpt.outHead x).length = gpt.cfg.vocabSize)
    (hlayers : gpt.trfBlocks ≠ []) (hvocab : 0 < gpt.cfg.vocabSize)
    {maxConcurrentRequests prefillChunkSize maxTokensPerStep : Int}
    {usePagedKvCache usePrefixCache : Bool} (hchunk : 1 ≤ prefillChunkSize)
    {e : Engine (Heads F numHeads headDim)}
    (hnew : Engine.new (gpt.inferenceModel math emptyDense emptyPaged padId) maxConcurrentRequests
      prefillChunkSize maxTokensPerStep usePagedKvCache usePrefixCache = .ok e)
    {ops : List Engine.Op} (hash : CollisionFree chain PrefixCache.rootHash
      (promptChains gpt.cfg.blockSize ops))
    (hlegal : Exec.Along (Engine.Legal (gpt.inferenceModel math emptyDense emptyPaged padId)
        (fun prompt => ∀ t ∈ prompt, t < gpt.cfg.vocabSize) fun _ => True)
      (Engine.next chain (gpt.inferenceModel math emptyDense emptyPaged padId)) e ops)
    (hsteps : Exec.Along
      (Engine.StepAnswered chain (gpt.inferenceModel math emptyDense emptyPaged padId))
      (Engine.next chain (gpt.inferenceModel math emptyDense emptyPaged padId)) e ops) :
    let e' := ops.foldl
      (Engine.next chain (gpt.inferenceModel math emptyDense emptyPaged padId)) e
    ∀ r ∈ e'.scheduler.completed.values,
      gpt.greedyDecode math (e'.scheduler.requests r).maxNewTokens.toNat
          (e'.scheduler.requests r).promptTokenIds
        = .ok (e'.scheduler.requests r).outputTokenIds := by
  intro e' r hr
  have hblocks : ∀ prompt ∈ prompts ops, fullBlocks gpt.cfg.blockSize prompt
      ∈ insert [] (promptChains gpt.cfg.blockSize ops) := fun prompt hprompt =>
    Or.inr (List.mem_map.mpr ⟨prompt, hprompt, rfl⟩)
  obtain ⟨held, hco⟩ := Engine.run_answers
    ((answers hhead hlayers hvocab hash.insert_nil (Set.mem_insert _ _)).inPlay fun _ h => h.2)
    hchunk trivial hnew ((Engine.legal_and hlegal hblocks).and hsteps)
  obtain ⟨hprompt, hmax, hroom, houtput⟩ :=
    continuation_of_coherent hhead hvocab rfl (fun _ h => h.1) hco hr
  exact greedyDecode_of_room hhead hvocab hprompt hmax hroom houtput

end GptModel

/-! ## A run with a restored prompt -/

/-- A block whose queries are zero, so that a token gets the mean of the values before it. -/
def meanBlock : TransformerBlock ℚ ℕ 1 1 where
  att := ⟨fun _ _ _ => 0, fun x _ _ => x, fun x _ _ => x,
    fun context => (context (Fin.last 0) (Fin.last 0)).num.toNat⟩
  ff := fun x => x
  norm1 := fun x => x
  norm2 := fun x => x

/-- A model with a vocabulary of three tokens. -/
def meanGpt : GptModel ℚ ℕ ℕ 1 1 where
  cfg := { vocabSize := 3, contextLength := 8, blockSize := 2 }
  tokenEmbedding := fun t => t
  positionEmbedding := fun p => p
  trfBlocks := [meanBlock]
  finalNorm := fun x => x
  outHead := fun x => [x % 3, (x + 1) % 3, (x + 2) % 3]

/-- The exponential function at zero and the square root of one, which is all that is computed. -/
def unitMath : ExactMath ℚ := ⟨fun _ => 1, fun _ => 1⟩

/-- The second prompt begins with a block of the first one. -/
def commonBlock : List Engine.Op :=
  [.addRequest "a" [0, 1, 2] 2, .step, .addRequest "b" [0, 1, 1] 2, .step, .step]

theorem commonBlock_greedy : ∃ e, Engine.new (meanGpt.inferenceModel unitMath (fun _ _ _ _ => 0)
      (fun _ _ _ _ => 0) 2) 2 4 8 true true = .ok e ∧
    let e' := commonBlock.foldl (Engine.next PagedKVCache.sumChain
      (meanGpt.inferenceModel unitMath (fun _ _ _ _ => 0) (fun _ _ _ _ => 0) 2)) e
    (e'.scheduler.requests 1).prefixCacheHitTokens = 2 ∧ 1 ∈ e'.scheduler.completed.values ∧
    ∀ r ∈ e'.scheduler.completed.values,
      meanGpt.greedyDecode unitMath (e'.scheduler.requests r).maxNewTokens.toNat
          (e'.scheduler.requests r).promptTokenIds
        = .ok (e'.scheduler.requests r).outputTokenIds := by
  obtain ⟨e, h⟩ : ∃ e, Engine.new (meanGpt.inferenceModel unitMath (fun _ _ _ _ => 0)
    (fun _ _ _ _ => 0) 2) 2 4 8 true true = .ok e := ⟨_, rfl⟩
  refine ⟨e, h, ?_, ?_, GptModel.prefixCaching_greedy (fun _ => rfl) (List.cons_ne_nil _ _)
    (by decide) (by decide) h (Digest.collisionFree_of_inits (fun _ hp => hp) (by decide)) ?_ ?_⟩
  all_goals
    cases h
    decide +kernel

end Nifre
