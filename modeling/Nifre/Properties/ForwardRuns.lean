import Nifre.Properties.CachedForward
import Mathlib.Analysis.Complex.Exponential
import Mathlib.Analysis.Real.Sqrt

/-!
# Chunked and batched forwards

Sequences are fed to the slots of a new cache in batches, a chunk of some of them at a time. The
logits of a slot's tokens over the whole run, and the rows that its slot holds in the end, are
those of one forward without a cache.
-/

namespace Nifre

/-! ## Batches of chunks -/

/-- A batch of chunks and their slots: left-padded with their lengths, or one token each. -/
inductive ChunkBatch where
  | padded (chunks : List (Nat × List Nat))
  | single (tokens : List (Nat × Nat))

namespace ChunkBatch

def rows : ChunkBatch → List (Nat × List Nat)
  | padded chunks => chunks
  | single tokens => tokens.map fun row => (row.1, [row.2])

/-- The forward of a batch. -/
def call {Row Score : Type} (model : InferenceModel Row Score) :
    ChunkBatch → KVCacheType.M Row (Logits Score)
  | padded chunks => do
    let (tokenIds, inputLens) ←
      Exec.ofExcept (batchTokenIds (chunks.map Prod.snd) model.config.padTokenId)
    model.call tokenIds (some inputLens) (chunks.map Prod.fst)
  | single tokens => model.call (tokens.map fun row => [row.2]) none (tokens.map Prod.fst)

/-- What the slots have been fed after a batch. -/
def next (held : Nat → List Nat) (batch : ChunkBatch) : Nat → List Nat := feed held batch.rows

/-- The logits at the tokens of slot `b` in a batch. -/
def slotLogits {Score : Type} (b : Nat) (rows : List (Nat × List Nat)) (out : Logits Score) :
    List (List Score) :=
  (rows.zip out).flatMap fun row => if row.1.1 = b then lastSlice row.1.2.length row.2 else []

/-- The logits at the tokens of slot `b` over a run. -/
def runLogits {Score : Type} (b : Nat) (batches : List ChunkBatch) (outs : List (Logits Score)) :
    List (List Score) :=
  (batches.zip outs).flatMap fun row => slotLogits b row.1.rows row.2

end ChunkBatch

variable {F X Score : Type} [Field F] [Add X] {numHeads headDim : Nat}

/-- A batch of chunks in slots of their own, with tokens of the vocabulary that fit. -/
def GptModel.LegalBatch (gpt : GptModel F X Score numHeads headDim) (batchSize : Nat)
    (held : Nat → List Nat) (batch : ChunkBatch) : Prop :=
  FitsIn batchSize gpt.cfg.contextLength held batch.rows ∧
    ∀ row ∈ batch.rows, ∀ t ∈ row.2, t < gpt.cfg.vocabSize

instance {batchSize limit : Nat} {held : Nat → List Nat} {rows : List (Nat × List Nat)} :
    Decidable (FitsIn batchSize limit held rows) :=
  decidable_of_iff (rows ≠ [] ∧ (rows.map Prod.fst).Nodup ∧ (∀ row ∈ rows, row.1 < batchSize) ∧
      (∀ row ∈ rows, row.2 ≠ []) ∧ ∀ row ∈ rows, (held row.1).length + row.2.length ≤ limit)
    ⟨fun ⟨h1, h2, h3, h4, h5⟩ => ⟨h1, h2, h3, h4, h5⟩,
      fun ⟨h1, h2, h3, h4, h5⟩ => ⟨h1, h2, h3, h4, h5⟩⟩

instance (gpt : GptModel F X Score numHeads headDim) (batchSize : Nat) (held : Nat → List Nat)
    (batch : ChunkBatch) : Decidable (gpt.LegalBatch batchSize held batch) :=
  inferInstanceAs (Decidable (_ ∧ _))

/-! ## The logits of a slot -/

section

variable {width : Nat} {held : Nat → List Nat} {f : List Nat → List (List Score)}

omit [Field F] [Add X] in
theorem slotLogits_of_notMem {b : Nat} {rows : List (Nat × List Nat)} {out : Logits Score}
    (h : b ∉ rows.map Prod.fst) : ChunkBatch.slotLogits b rows out = [] := by
  refine List.flatMap_eq_nil_iff.mpr fun row hrow => if_neg fun he => h ?_
  exact List.mem_map.mpr ⟨row.1, (List.of_mem_zip hrow).1, he⟩

/-- The logits of a slot in a batch are those at its new tokens. -/
theorem slotLogits_of_mem (hf : Prefixwise f) {rows : List (Nat × List Nat)} {out : Logits Score}
    (h : PaddedBatch width rows (fun row => fresh f (held row.1) row.2) out)
    (hnodup : (rows.map Prod.fst).Nodup) (htokens : ∀ row ∈ rows, row.2 ≠ [])
    {row : Nat × List Nat} (hrow : row ∈ rows) :
    ChunkBatch.slotLogits row.1 rows out = fresh f (held row.1) row.2 := by
  induction h with
  | nil => cases hrow
  | @cons r o rows out ho _ ih =>
    rw [List.map_cons, List.nodup_cons] at hnodup
    have hne : fresh f (held r.1) r.2 ≠ [] := by
      rw [← List.length_pos_iff, hf.length_fresh]
      exact List.length_pos_iff.mpr (htokens r List.mem_cons_self)
    have hsplit : ∀ b, ChunkBatch.slotLogits b (r :: rows) (o :: out)
        = (if r.1 = b then lastSlice r.2.length o else []) ++ ChunkBatch.slotLogits b rows out :=
      fun _ => rfl
    rw [hsplit]
    rcases List.mem_cons.mp hrow with rfl | hrow
    · have hslice := ho.lastSlice hne
      rw [hf.length_fresh] at hslice
      rw [if_pos rfl, slotLogits_of_notMem hnodup.1, List.append_nil, hslice]
    · have hother : r.1 ≠ row.1 := by
        intro he
        exact hnodup.1 (he ▸ List.mem_map.mpr ⟨row, hrow, rfl⟩)
      rw [if_neg hother, List.nil_append]
      exact ih hnodup.2 (fun row hrow => htokens row (List.mem_cons_of_mem _ hrow)) hrow

/-- **A batch extends what was computed for a slot** by the logits of its new tokens. -/
theorem slotLogits_extends (hf : Prefixwise f) {rows : List (Nat × List Nat)} {out : Logits Score}
    (h : PaddedBatch width rows (fun row => fresh f (held row.1) row.2) out)
    (hnodup : (rows.map Prod.fst).Nodup) (htokens : ∀ row ∈ rows, row.2 ≠ []) (b : Nat) :
    f (feed held rows b) = f (held b) ++ ChunkBatch.slotLogits b rows out := by
  by_cases hb : b ∈ rows.map Prod.fst
  · obtain ⟨row, hrow, rfl⟩ := List.mem_map.mp hb
    rw [feed_of_mem hnodup hrow, hf.append, slotLogits_of_mem hf h hnodup htokens hrow]
  · rw [feed_of_notMem hb, slotLogits_of_notMem hb, List.append_nil]

end

/-! ## Runs -/

section

variable {math : ExactMath F} {gpt : GptModel F X Score numHeads headDim}
  {emptyDense : Nat → Nat × Nat → Heads F numHeads headDim}
  {emptyPaged : Nat → Int × Nat → Heads F numHeads headDim} {padId : Nat}

/-- What a slot holds: the rows of its tokens, and the tokens are such that the plain forward takes
them. -/
structure Cached (math : ExactMath F) (gpt : GptModel F X Score numHeads headDim)
    (config : ModelConfig) (c : KVCacheType (Heads F numHeads headDim)) (held : Nat → List Nat) :
    Prop where
  stored : ∃ s, c.Stores config s ∧
    Encoded config (fun l tokens rows => rows = gpt.kvRows math l tokens) c.batchSize held s
  legible : ∀ b < c.batchSize, gpt.Legible (held b)

/-- The reply of a legal batch. -/
theorem call_cached (hlayers : gpt.trfBlocks ≠ []) (hpad : padId < gpt.cfg.vocabSize)
    {c : KVCacheType (Heads F numHeads headDim)} {held : Nat → List Nat}
    (hc : Cached math gpt (gpt.inferenceModel math emptyDense emptyPaged padId).config c held)
    {batch : ChunkBatch} (hlegal : gpt.LegalBatch c.batchSize held batch) :
    ∃ out c' width, (batch.call (gpt.inferenceModel math emptyDense emptyPaged padId)).run c
        = .ok out c' ∧ c'.batchSize = c.batchSize ∧
      Cached math gpt (gpt.inferenceModel math emptyDense emptyPaged padId).config c'
        (batch.next held) ∧
      PaddedBatch width batch.rows
        (fun row => fresh (gpt.rowLogits math) (held row.1) row.2) out := by
  obtain ⟨hfits, hvocab⟩ := hlegal
  obtain ⟨⟨s, hs, henc⟩, hlegible⟩ := hc
  have hpos := List.length_pos_iff.mpr hlayers
  -- the rows of the new tokens of a slot, read off what it holds after the batch
  obtain ⟨new, hnew⟩ : ∃ new : Nat → Nat →
      List (Heads F numHeads headDim × Heads F numHeads headDim),
      ∀ row ∈ batch.rows, ∀ l, new row.1 l = fresh (gpt.kvRows math l) (held row.1) row.2 := by
    refine ⟨fun b l => (gpt.kvRows math l (feed held batch.rows b)).drop (held b).length, ?_⟩
    intro row hrow l
    show (gpt.kvRows math l (feed held batch.rows row.1)).drop _ = _
    rw [feed_of_mem hfits.nodup hrow, fresh]
  have hfeeds : Feeds math gpt held s new batch.rows :=
    { nodup := hfits.nodup
      tokens := hfits.tokens
      len := fun row hrow => (henc row.1 (hfits.slot_lt row hrow) 0 hpos).1
      stored := fun row hrow l hl => (henc row.1 (hfits.slot_lt row hrow) l hl).2.2
      new_eq := fun row hrow l _ => hnew row hrow l
      fits := hfits.fits }
  have hround : ∀ row ∈ batch.rows, ∀ l < gpt.trfBlocks.length,
      (new row.1 l).length = row.2.length ∧
        s.rows row.1 l ++ new row.1 l = gpt.kvRows math l (held row.1 ++ row.2) := by
    intro row hrow l hl
    have hprefix := gpt.prefixwise_kvRows math hl
    rw [hnew row hrow l, hprefix.length_fresh,
      (henc row.1 (hfits.slot_lt row hrow) l hl).2.2, ← hprefix.append]
    exact ⟨rfl, rfl⟩
  obtain ⟨c', hround, hsize, hstored⟩ := henc.appendRound hs hfits rfl hround
  have hforward : ∀ {tokenIds : List (List Nat)} {inputLens : Option (List Nat)},
      BatchOf padId batch.rows tokenIds inputLens →
      (∀ tokens ∈ tokenIds, ∀ t ∈ tokens, t < gpt.cfg.vocabSize) →
      ∃ out width, (gpt.forwardWithCache math tokenIds inputLens (batch.rows.map Prod.fst)).run c
          = .ok out c' ∧ PaddedBatch width batch.rows
        (fun row => fresh (gpt.rowLogits math) (held row.1) row.2) out := by
    intro tokenIds inputLens hbatch hids
    obtain ⟨out, c₂, width, hrun, hround₂, hout⟩ := forwardWithCache_run
      (show (gpt.inferenceModel math emptyDense emptyPaged padId).config.numLayers = _ from rfl)
      rfl hpos hfits.ne_nil hbatch hfeeds hids hs hfits.slot_lt
    rw [hround] at hround₂
    cases hround₂
    exact ⟨out, width, hrun, hout⟩
  have hnext : Cached math gpt (gpt.inferenceModel math emptyDense emptyPaged padId).config c'
      (batch.next held) := by
    refine ⟨hstored, fun b hb => ?_⟩
    rw [hsize] at hb
    by_cases hmem : b ∈ batch.rows.map Prod.fst
    · obtain ⟨row, hrow, rfl⟩ := List.mem_map.mp hmem
      show gpt.Legible (feed held batch.rows row.1)
      rw [feed_of_mem hfits.nodup hrow]
      refine ⟨fun t ht => ?_, by rw [List.length_append]; exact hfits.fits row hrow⟩
      rcases List.mem_append.mp ht with ht | ht
      · exact (hlegible row.1 hb).vocabulary t ht
      · exact hvocab row hrow t ht
    · show gpt.Legible (feed held batch.rows b)
      rw [feed_of_notMem hmem]
      exact hlegible b hb
  cases batch with
  | padded chunks =>
    cases hb : batchTokenIds (chunks.map Prod.snd) padId with
    | error err =>
      obtain ⟨row, rest, rfl⟩ := List.exists_cons_of_ne_nil hfits.ne_nil
      cases hb
    | ok batch =>
      obtain ⟨tokenIds, inputLens⟩ := batch
      have hbatch : BatchOf padId chunks tokenIds (some inputLens) := .padded hb
      obtain ⟨out, width, hrun, hout⟩ := hforward hbatch fun tokens htokens t ht => by
        obtain ⟨width, hids, -⟩ := hbatch.shape hfits.ne_nil
        rw [hids] at htokens
        obtain ⟨row, hrow, rfl⟩ := List.mem_map.mp htokens
        rcases List.mem_append.mp ht with ht | ht
        · rw [(List.mem_replicate.mp ht).2]
          exact hpad
        · exact hvocab row hrow t ht
      refine ⟨out, c', width, ?_, hsize, hnext, hout⟩
      show (Exec.ofExcept (batchTokenIds (chunks.map Prod.snd) padId) >>= _).run c = _
      rw [hb, Exec.ofExcept_ok, pure_bind]
      exact hrun
  | single tokens =>
    obtain ⟨out, width, hrun, hout⟩ := hforward (.single tokens) fun row hrow t ht => by
      obtain ⟨info, hinfo, rfl⟩ := List.mem_map.mp hrow
      exact hvocab (info.1, [info.2]) (List.mem_map.mpr ⟨info, hinfo, rfl⟩) t ht
    refine ⟨out, c', width, ?_, hsize, hnext, hout⟩
    have hslots : (ChunkBatch.single tokens).rows.map Prod.fst = tokens.map Prod.fst := by
      rw [ChunkBatch.rows, List.map_map]
      rfl
    rw [hslots] at hrun
    exact hrun

/-- **A run of legal batches** computes for each slot what was left to compute. -/
theorem replies_cached (hlayers : gpt.trfBlocks ≠ []) (hpad : padId < gpt.cfg.vocabSize)
    {batches : List ChunkBatch} : ∀ {c : KVCacheType (Heads F numHeads headDim)}
    {held : Nat → List Nat},
    Cached math gpt (gpt.inferenceModel math emptyDense emptyPaged padId).config c held →
    Exec.Along (gpt.LegalBatch c.batchSize) ChunkBatch.next held batches →
    ∃ outs c', (Exec.replies
          (ChunkBatch.call (gpt.inferenceModel math emptyDense emptyPaged padId)) batches).run c
        = .ok outs c' ∧ c'.batchSize = c.batchSize ∧
      Cached math gpt (gpt.inferenceModel math emptyDense emptyPaged padId).config c'
        (batches.foldl ChunkBatch.next held) ∧
      ∀ b, gpt.rowLogits math (batches.foldl ChunkBatch.next held b)
        = gpt.rowLogits math (held b) ++ ChunkBatch.runLogits b batches outs := by
  induction batches with
  | nil => exact fun hc _ => ⟨[], _, rfl, rfl, hc, fun _ => (List.append_nil _).symm⟩
  | cons batch batches ih =>
    intro c held hc hlegal
    obtain ⟨out, c₁, width, hrun₁, hsize₁, hc₁, hout⟩ := call_cached hlayers hpad hc hlegal.1
    obtain ⟨outs, c₂, hrun₂, hsize₂, hc₂, hlogits⟩ := ih hc₁ (by rw [hsize₁]; exact hlegal.2)
    refine ⟨out :: outs, c₂, Exec.replies_cons_ok hrun₁ hrun₂, hsize₂.trans hsize₁, hc₂, ?_⟩
    intro b
    have hfits := hlegal.1.1
    rw [List.foldl_cons, hlogits b, ChunkBatch.next,
      slotLogits_extends (gpt.prefixwise_rowLogits math) hout hfits.nodup hfits.tokens,
      List.append_assoc]
    rfl

/-- A new cache holds no tokens. -/
theorem makeCache_cached {usePagedKvCache usePrefixCache : Bool} {batchSize : Nat}
    {c : KVCacheType (Heads F numHeads headDim)}
    (h : Engine.makeCache (gpt.inferenceModel math emptyDense emptyPaged padId) usePagedKvCache
      usePrefixCache batchSize = .ok c) : c.batchSize = batchSize ∧
    Cached math gpt (gpt.inferenceModel math emptyDense emptyPaged padId).config c
      fun _ => [] := by
  obtain ⟨hsize, hs, -⟩ := makeCache_stores rfl h
  refine ⟨hsize, ⟨_, hs, fun b _ l hl => ⟨rfl, rfl, ?_⟩⟩, fun _ _ => ⟨by simp, Nat.zero_le _⟩⟩
  exact (List.length_eq_zero_iff.mp ((gpt.prefixwise_kvRows math hl).length [])).symm

/-- **Chunked and batched forwards over a new cache compute the plain forward**: for each slot, the
logits of the run are those of its whole sequence, and so are the keys and values stored for it. -/
theorem chunkedForward_plain (hlayers : gpt.trfBlocks ≠ []) (hpad : padId < gpt.cfg.vocabSize)
    {usePagedKvCache usePrefixCache : Bool} {batchSize : Nat}
    {c : KVCacheType (Heads F numHeads headDim)}
    (hmake : Engine.makeCache (gpt.inferenceModel math emptyDense emptyPaged padId)
      usePagedKvCache usePrefixCache batchSize = .ok c) {batches : List ChunkBatch}
    (hlegal : Exec.Along (gpt.LegalBatch batchSize) ChunkBatch.next (fun _ => []) batches) :
    ∃ outs c', (Exec.replies
          (ChunkBatch.call (gpt.inferenceModel math emptyDense emptyPaged padId)) batches).run c
        = .ok outs c' ∧
      let sequence := batches.foldl ChunkBatch.next fun _ => []
      ∀ b < batchSize,
        gpt.forward math [sequence b] = .ok [ChunkBatch.runLogits b batches outs] ∧
        ∀ l < gpt.trfBlocks.length, ∃ keys values,
          gpt.forwardKeysValues math l [sequence b] = .ok ([keys], [values]) ∧
          (KVCacheType.get (b : Int) (l : Int)).run c' = .ok (keys, values) c' := by
  obtain ⟨hsize, hc⟩ := makeCache_cached hmake
  obtain ⟨outs, c', hrun, hsize', hc', hlogits⟩ := replies_cached hlayers hpad hc (by
    rw [hsize]
    exact hlegal)
  refine ⟨outs, c', hrun, fun b hb => ?_⟩
  rw [← hsize, ← hsize'] at hb
  have hlegible := hc'.legible b hb
  have hnil : gpt.rowLogits math [] = [] :=
    List.length_eq_zero_iff.mp ((gpt.prefixwise_rowLogits math).length [])
  refine ⟨?_, fun l hl => ?_⟩
  · rw [gpt.forward_singleton math hlegible, hlogits b, hnil, List.nil_append]
  · obtain ⟨s, hs, henc⟩ := hc'.stored
    obtain ⟨hlen, hrows, heq⟩ := henc b hb l hl
    refine ⟨_, _, gpt.forwardKeysValues_singleton math hl hlegible, ?_⟩
    rw [KVCacheType.get_stores hs hb hl, KVStore.get, hlen, ← hrows, List.take_length, heq]

end

/-! ## On the real numbers -/

noncomputable def realMath : ExactMath ℝ := ⟨Real.exp, Real.sqrt⟩

/-- A model with one head of one dimension and simple functions, over a vocabulary of three. -/
def smallGpt (blocks : List (TransformerBlock ℝ ℕ 1 1)) : GptModel ℝ ℕ ℕ 1 1 where
  cfg := { vocabSize := 3, contextLength := 8, blockSize := 2 }
  tokenEmbedding := fun t => t
  positionEmbedding := fun p => p
  trfBlocks := blocks
  finalNorm := fun x => x
  outHead := fun x => [x]

/-- A block whose queries, keys and values are the states. -/
noncomputable def smallBlock : TransformerBlock ℝ ℕ 1 1 where
  att := ⟨fun x _ _ => x, fun x _ _ => x, fun x _ _ => x, fun context => ⌊context 0 0⌋₊⟩
  ff := fun x => x
  norm1 := fun x => x
  norm2 := fun x => x

/-- Two prompts of different lengths in chunks, with a decode between them. -/
def smallBatches : List ChunkBatch :=
  [.padded [(1, [0, 1]), (0, [2])], .single [(0, 1)], .padded [(0, [1, 1, 1]), (1, [2])]]

theorem smallBatches_plain : ∃ c : KVCacheType (Heads ℝ 1 1),
    Engine.makeCache ((smallGpt [smallBlock]).inferenceModel realMath (fun _ _ _ _ => 0)
      (fun _ _ _ _ => 0) 2) true true 2 = .ok c ∧
    ∃ outs c', (Exec.replies (ChunkBatch.call ((smallGpt [smallBlock]).inferenceModel realMath
          (fun _ _ _ _ => 0) (fun _ _ _ _ => 0) 2)) smallBatches).run c = .ok outs c' ∧
      let sequence := smallBatches.foldl ChunkBatch.next fun _ => []
      ∀ b < 2,
        (smallGpt [smallBlock]).forward realMath [sequence b]
          = .ok [ChunkBatch.runLogits b smallBatches outs] ∧
        ∀ l < 1, ∃ keys values,
          (smallGpt [smallBlock]).forwardKeysValues realMath l [sequence b]
            = .ok ([keys], [values]) ∧
          (KVCacheType.get (b : Int) (l : Int)).run c' = .ok (keys, values) c' := by
  obtain ⟨c, h⟩ : ∃ c : KVCacheType (Heads ℝ 1 1),
      Engine.makeCache ((smallGpt [smallBlock]).inferenceModel realMath (fun _ _ _ _ => 0)
        (fun _ _ _ _ => 0) 2) true true 2 = .ok c := ⟨_, rfl⟩
  exact ⟨c, h, chunkedForward_plain (List.cons_ne_nil _ _) (by decide) h (by decide)⟩

/-- Without layers nothing moves the positions on, so the second chunk starts at position `0`
again. And a padding token outside the vocabulary fails where there is padding. -/
theorem noLayers_restart :
    (∃ (c : KVCacheType (Heads ℝ 1 1)) (outs : List (Logits ℕ)) (c' : KVCacheType (Heads ℝ 1 1)),
      Engine.makeCache ((smallGpt []).inferenceModel realMath (fun _ _ _ _ => 0)
        (fun _ _ _ _ => 0) 2) false false 1 = .ok c ∧
      Exec.Along ((smallGpt []).LegalBatch 1) ChunkBatch.next (fun _ => [])
        [.padded [(0, [1])], .padded [(0, [1])]] ∧
      (Exec.replies (ChunkBatch.call ((smallGpt []).inferenceModel realMath (fun _ _ _ _ => 0)
        (fun _ _ _ _ => 0) 2)) [.padded [(0, [1])], .padded [(0, [1])]]).run c = .ok outs c' ∧
      (smallGpt []).forward realMath [[1, 1]]
        ≠ .ok [ChunkBatch.runLogits 0 [.padded [(0, [1])], .padded [(0, [1])]] outs]) ∧
    ∃ c : KVCacheType (Heads ℝ 1 1),
      Engine.makeCache ((smallGpt [smallBlock]).inferenceModel realMath (fun _ _ _ _ => 0)
        (fun _ _ _ _ => 0)) false false 2 = .ok c ∧
      (smallGpt [smallBlock]).LegalBatch 2 (fun _ => []) (.padded [(0, [1]), (1, [1, 2])]) ∧
      (ChunkBatch.call ((smallGpt [smallBlock]).inferenceModel realMath (fun _ _ _ _ => 0)
        (fun _ _ _ _ => 0)) (.padded [(0, [1]), (1, [1, 2])])).run c
          = .error (.indexError "index out of range in self") c := by
  refine ⟨⟨_, [[[[1]]], [[[1]]]], _, rfl, by decide, rfl, ?_⟩, _, rfl, by decide, rfl⟩
  rw [(smallGpt []).forward_singleton realMath ⟨by decide, by decide⟩]
  decide

end Nifre
