import Nifre.Inference.Gpt
import Nifre.Inference.ModelRunner

/-!
# Static batched generation

A whole batch is decoded over a cache of its own, in which slot `i` is that of row `i`. The batch is
made by `batchTokenIds`. What is printed around it, the tokenizer and the checkpoint are left out.
-/

namespace Nifre

/-- `while tokens and tokens[0] == pad_id: tokens.pop(0)`. -/
def stripLeftPad (tokenRow : List Nat) (padId : Nat := 50256) : List Nat :=
  tokenRow.dropWhile (· == padId)

variable {F X Score : Type} [Field F] [Add X] [LinearOrder Score] {numHeads headDim : Nat}
  (math : ExactMath F)

/-- `sample_greedy(logits[:, -1, :])`: a column with the next token of each row. -/
def sampleLast (logits : Logits Score) : Except PyError (List (List Nat)) :=
  (List.range logits.length).mapM fun i => do
    let token ← ModelRunner.sampleRow logits i
    pure [token]

/-- `torch.cat([output, next_token], dim=1)`. -/
def catColumns (output nextToken : List (List Nat)) : List (List Nat) :=
  List.zipWith (· ++ ·) output nextToken

namespace GptModel

variable (gpt : GptModel F X Score numHeads headDim)
  (emptyDense : Nat → Nat × Nat → Heads F numHeads headDim)

/-- `make_kv_cache`, with `init_batch`. -/
def makeKvCache (batchSize : Nat) : KVCacheType (Heads F numHeads headDim) :=
  .dense (KVCache.initBatch gpt.trfBlocks.length gpt.cfg.contextLength emptyDense emptyDense
    batchSize)

/-- `model(token_ids, kv_cache=cache, input_lens=input_lens)`: without `cache_batch_indices` row `i`
is in slot `i`. -/
def callRows (tokenIds : List (List Nat)) (inputLens : Option (List Nat)) :
    KVCacheType.M (Heads F numHeads headDim) (Logits Score) :=
  gpt.forwardWithCache math tokenIds inputLens (List.range tokenIds.length)

/-- The loop of `generate`, with `n` tokens to go. -/
def generateLoop : Nat → List (List Nat) → Logits Score →
    KVCacheType.M (Heads F numHeads headDim) (List (List Nat))
  | 0, output, _ => pure output
  | n + 1, output, logits => do
    let nextToken ← Exec.ofExcept (sampleLast logits)
    let output := catColumns output nextToken
    -- the last token is not fed back
    if n = 0 then
      pure output
    else
      let logits ← gpt.callRows math nextToken none
      generateLoop n output logits

def generate (tokenIds : List (List Nat)) (maxNewTokens : Int)
    (inputLens : Option (List Nat) := none) : Except PyError (List (List Nat)) :=
  let cache := gpt.makeKvCache emptyDense tokenIds.length
  let inputLens := inputLens.getD (tokenIds.map fun _ => seqLen tokenIds)
  let run : KVCacheType.M (Heads F numHeads headDim) (List (List Nat)) := do
    let logits ← gpt.callRows math tokenIds (some inputLens)
    gpt.generateLoop math maxNewTokens.toNat tokenIds logits
  Exec.outcome (run.run cache)

/-- Generate one sequence. -/
def generateSingle (tokenIds : List (List Nat)) (maxNewTokens : Int) :
    Except PyError (List (List Nat)) :=
  gpt.generate math emptyDense tokenIds maxNewTokens

end GptModel

end Nifre
