import Nifre.Inference.ModelInterface
import Nifre.Lib.Softmax
import Mathlib.Algebra.BigOperators.Fin

/-!
# Attention over a key/value cache

In exact arithmetic: the numbers are those of a field, with its exponential function and square
roots as a parameter. Dropout is off. A token's queries, keys or values are split into heads.
-/

namespace Nifre

/-- The functions of exact arithmetic that torch computes. -/
structure ExactMath (F : Type) where
  exp : F → F
  sqrt : F → F

/-- `_shape_heads`, at one token. -/
abbrev Heads (F : Type) (numHeads headDim : Nat) := Fin numHeads → Fin headDim → F

namespace Attention

variable {F : Type} [Field F] {numHeads headDim : Nat} (math : ExactMath F)

/-! ## One batch row -/

/-- `queries @ keys.transpose(2, 3)`, at one query. -/
def attnScores (query : Heads F numHeads headDim) (keys : List (Heads F numHeads headDim))
    (h : Fin numHeads) : List F :=
  keys.map fun key => ∑ d, query h d * key h d

/-- The context of one query: masked fill, softmax, and the weighted values. -/
def context (mask : Nat → Bool) (query : Heads F numHeads headDim)
    (keys values : List (Heads F numHeads headDim)) : Heads F numHeads headDim := fun h d =>
  let attnScores := Softmax.maskedFill mask (attnScores query keys h)
  let attnWeights := Softmax.softmax math.exp
    (attnScores.map (Option.map (· / math.sqrt (headDim : F))))
  Softmax.mix attnWeights (values.map fun value => value h d)

/-- The contexts of all queries; `mask i j` hides key `j` from query `i`. -/
def attend (mask : Nat → Nat → Bool) (queries keys values : List (Heads F numHeads headDim)) :
    List (Heads F numHeads headDim) :=
  queries.mapIdx fun i query => context math (mask i) query keys values

/-- `torch.triu(torch.ones(..), diagonal=1)`. -/
def triu (i j : Nat) : Bool := i + 1 ≤ j

/-- Query `i` (at absolute position `pastLen + i`) may attend to keys `0..pastLen + i`. -/
def causalMask (pastLen i j : Nat) : Bool := pastLen + i < j

/-! ## forward -/

/-- A tensor of the shape `(batch, seq, num_heads, head_dim)`. -/
abbrev Batched (F : Type) (numHeads headDim : Nat) := List (List (Heads F numHeads headDim))

def forwardFullCausal (q k v : Batched F numHeads headDim) : Batched F numHeads headDim :=
  (q.zip (k.zip v)).map fun row => attend math triu row.1 row.2.1 row.2.2

def forwardWithCacheRow (q k v : List (Heads F numHeads headDim)) (batchIdx layerId : Nat) :
    KVCacheType.M (Heads F numHeads headDim) (List (Heads F numHeads headDim)) := do
  let past ← KVCacheType.get (batchIdx : Int) (layerId : Int)
  let pastLen := past.1.length
  KVCacheType.append (batchIdx : Int) (layerId : Int) k v
  let keys := past.1 ++ k
  let values := past.2 ++ v
  -- a single query sees every key, so it gets no mask
  let mask := if 1 < q.length then causalMask pastLen else fun _ _ => false
  pure (attend math mask q keys values)

/-- `out[i, -valid_len:] = out_row`, where `out` is zero. -/
def padOut (numNewTokens : Nat) (outRow : List (Heads F numHeads headDim)) :
    List (Heads F numHeads headDim) :=
  List.replicate (numNewTokens - outRow.length) (fun _ _ => 0) ++ outRow

/-- The loop body of `_forward_with_cache`. -/
def forwardBatchRow (layerId : Nat)
    (row : (List (Heads F numHeads headDim) × List (Heads F numHeads headDim) ×
      List (Heads F numHeads headDim)) × Nat × Option Nat) :
    KVCacheType.M (Heads F numHeads headDim) (List (Heads F numHeads headDim)) :=
  let ⟨⟨q, k, v⟩, cacheSlot, inputLen⟩ := row
  match inputLen with
  | some validLen =>
    if 1 < q.length then
      padOut q.length <$> forwardWithCacheRow math (lastSlice validLen q) (lastSlice validLen k)
        (lastSlice validLen v) cacheSlot layerId
    else
      forwardWithCacheRow math q k v cacheSlot layerId
  | none => forwardWithCacheRow math q k v cacheSlot layerId

/-- The slot and the real length of each batch row. -/
def rowInfo (inputLens : Option (List Nat)) (cacheBatchIndices : List Nat) :
    List (Nat × Option Nat) :=
  match inputLens with
  | some lens => cacheBatchIndices.zip (lens.map some)
  | none => cacheBatchIndices.map fun slot => (slot, none)

def forwardWithCache (q k v : Batched F numHeads headDim) (layerId : Nat)
    (inputLens : Option (List Nat)) (cacheBatchIndices : List Nat) :
    KVCacheType.M (Heads F numHeads headDim) (Batched F numHeads headDim) :=
  ((q.zip (k.zip v)).zip (rowInfo inputLens cacheBatchIndices)).mapM
    (forwardBatchRow math layerId)

/-- `forward` with a cache. The layer is the one given, or else the module's own. -/
def forward (ownLayerId : Option Nat) (q k v : Batched F numHeads headDim) (layerId : Option Nat)
    (inputLens : Option (List Nat)) (cacheBatchIndices : List Nat) :
    KVCacheType.M (Heads F numHeads headDim) (Batched F numHeads headDim) :=
  match layerId <|> ownLayerId with
  | none => throw (.valueError "layer_id is required when kv_cache is set")
  | some l => forwardWithCache math q k v l inputLens cacheBatchIndices

end Attention

end Nifre
