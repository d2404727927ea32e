import Nifre.Inference.Attention

/-!
# The GPT model

The learned functions are parameters: the embeddings of tokens and positions, and for each token
its projections, norms and feed-forward. `X` is the type of a token's hidden state. The two
forwards of the source, with `kv_cache=None` and with a cache, are two definitions.
-/

namespace Nifre

/-- What a configuration says besides the number of layers, heads and dimensions. -/
structure GptConfig where
  vocabSize : Nat
  contextLength : Nat
  blockSize : Nat := 16

structure GptAttention (F X : Type) (numHeads headDim : Nat) where
  wQuery : X → Heads F numHeads headDim
  wKey : X → Heads F numHeads headDim
  wValue : X → Heads F numHeads headDim
  outProj : Heads F numHeads headDim → X

structure TransformerBlock (F X : Type) (numHeads headDim : Nat) where
  att : GptAttention F X numHeads headDim
  ff : X → X
  norm1 : X → X
  norm2 : X → X

structure GptModel (F X Score : Type) (numHeads headDim : Nat) where
  cfg : GptConfig
  tokenEmbedding : Nat → X
  positionEmbedding : Nat → X
  trfBlocks : List (TransformerBlock F X numHeads headDim)
  finalNorm : X → X
  outHead : X → List Score

/-- A tensor of hidden states, by batch row and position. -/
abbrev HiddenStates (X : Type) := List (List X)

/-- A per-token function at every token. -/
def atTokens {α β : Type} (f : α → β) (x : List (List α)) : List (List β) := x.map (List.map f)

/-- `x + shortcut`. -/
def addStates {X : Type} [Add X] (x shortcut : HiddenStates X) : HiddenStates X :=
  List.zipWith (List.zipWith (· + ·)) x shortcut

variable {F X Score : Type} [Field F] [Add X] {numHeads headDim : Nat} (math : ExactMath F)

namespace GptAttention

variable (att : GptAttention F X numHeads headDim)

omit [Add X] in
def forward (x : HiddenStates X) : HiddenStates X :=
  let context := Attention.forwardFullCausal math (atTokens att.wQuery x) (atTokens att.wKey x)
    (atTokens att.wValue x)
  atTokens att.outProj context

omit [Add X] in
def forwardWithCache (x : HiddenStates X) (layerId : Nat) (inputLens : Option (List Nat))
    (cacheBatchIndices : List Nat) :
    KVCacheType.M (Heads F numHeads headDim) (HiddenStates X) := do
  let context ← Attention.forward math none (atTokens att.wQuery x) (atTokens att.wKey x)
    (atTokens att.wValue x) (some layerId) inputLens cacheBatchIndices
  pure (atTokens att.outProj context)

end GptAttention

namespace TransformerBlock

variable (block : TransformerBlock F X numHeads headDim)

/-- The second half of a block. -/
def feedForward (x : HiddenStates X) : HiddenStates X :=
  addStates (atTokens block.ff (atTokens block.norm2 x)) x

def forward (x : HiddenStates X) : HiddenStates X :=
  let att := block.att.forward math (atTokens block.norm1 x)
  block.feedForward (addStates att x)

def forwardWithCache (x : HiddenStates X) (layerId : Nat) (inputLens : Option (List Nat))
    (cacheBatchIndices : List Nat) :
    KVCacheType.M (Heads F numHeads headDim) (HiddenStates X) := do
  let att ← block.att.forwardWithCache math (atTokens block.norm1 x) layerId inputLens
    cacheBatchIndices
  pure (block.feedForward (addStates att x))

end TransformerBlock

/-- `nn.Embedding` with `size` rows. -/
def embedding (size : Nat) (table : Nat → X) (i : Nat) : Except PyError X :=
  if i < size then .ok (table i) else .error (.indexError "index out of range in self")

/-- `in_idx.shape[1]`. -/
def seqLen (inIdx : List (List Nat)) : Nat := (inIdx.head?.map List.length).getD 0

namespace GptModel

variable (gpt : GptModel F X Score numHeads headDim)

/-- `token_embedding(in_idx) + position_embedding(positions)`. -/
def embed (inIdx positions : List (List Nat)) : Except PyError (HiddenStates X) := do
  let tokens ← inIdx.mapM (List.mapM (embedding gpt.cfg.vocabSize gpt.tokenEmbedding))
  let positions ← positions.mapM
    (List.mapM (embedding gpt.cfg.contextLength gpt.positionEmbedding))
  pure (addStates tokens positions)

/-- `out_head(final_norm(x))`. -/
def logits (x : HiddenStates X) : Logits Score := atTokens gpt.outHead (atTokens gpt.finalNorm x)

/-- `forward` with `kv_cache=None`. -/
def forward (inIdx : List (List Nat)) : Except PyError (Logits Score) := do
  -- the positions are the same for every row
  let x ← gpt.embed inIdx (inIdx.map fun _ => List.range (seqLen inIdx))
  pure (gpt.logits (gpt.trfBlocks.foldl (fun x block => block.forward math x) x))

/-- The positions of one left-padded row. -/
def rowPositions (seqLen validLen startPos : Nat) : List Nat :=
  List.replicate (seqLen - validLen) 0 ++ List.range' startPos validLen

def positions (inIdx : List (List Nat)) (inputLens : Option (List Nat))
    (cacheBatchIndices : List Nat) :
    KVCacheType.M (Heads F numHeads headDim) (List (List Nat)) :=
  if seqLen inIdx = 1 then
    cacheBatchIndices.mapM fun slot : Nat => do
      let pos ← KVCacheType.length (slot : Int)
      pure [pos]
  else match inputLens with
    | none => throw (.valueError "input_lens is required for batched prefill with kv_cache")
    | some lens => (cacheBatchIndices.zip lens).mapM fun (row : Nat × Nat) => do
      let startPos ← KVCacheType.length (row.1 : Int)
      pure (rowPositions (seqLen inIdx) row.2 startPos)

/-- The blocks from layer `layerId` on. -/
def forwardBlocks (inputLens : Option (List Nat)) (cacheBatchIndices : List Nat) :
    Nat → List (TransformerBlock F X numHeads headDim) → HiddenStates X →
    KVCacheType.M (Heads F numHeads headDim) (HiddenStates X)
  | _, [], x => pure x
  | layerId, block :: blocks, x => do
    let x ← block.forwardWithCache math x layerId inputLens cacheBatchIndices
    forwardBlocks inputLens cacheBatchIndices (layerId + 1) blocks x

/-- `forward` with a cache. -/
def forwardWithCache (inIdx : List (List Nat)) (inputLens : Option (List Nat))
    (cacheBatchIndices : List Nat) : KVCacheType.M (Heads F numHeads headDim) (Logits Score) := do
  let positions ← positions inIdx inputLens cacheBatchIndices
  let x ← Exec.ofExcept (gpt.embed inIdx positions)
  let x ← forwardBlocks math inputLens cacheBatchIndices 0 gpt.trfBlocks x
  pure (gpt.logits x)

/-- `GptInferenceModel`: the model as the engine sees it. -/
def inferenceModel (emptyDense : Nat → Nat × Nat → Heads F numHeads headDim)
    (emptyPaged : Nat → Int × Nat → Heads F numHeads headDim) (padTokenId : Nat := 50256) :
    InferenceModel (Heads F numHeads headDim) Score where
  config :=
    { numLayers := gpt.trfBlocks.length
      maxSeqLen := gpt.cfg.contextLength
      padTokenId := padTokenId
      blockSize := gpt.cfg.blockSize }
  makeKvCache := none
  emptyDense := emptyDense
  emptyPaged := emptyPaged
  call := gpt.forwardWithCache math

end GptModel

end Nifre
