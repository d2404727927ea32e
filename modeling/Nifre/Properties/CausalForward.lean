import Nifre.Inference.Gpt
import Nifre.Lib.Prefixwise

/-!
# The forward without a cache is causal

A token's hidden state at every layer depends on the tokens up to it. So do its keys, its values
and its logits.
-/

namespace Nifre

variable {F X Score : Type} [Field F] [Add X] {numHeads headDim : Nat} {math : ExactMath F}

namespace Attention

@[simp] theorem length_attend (mask : Nat → Nat → Bool)
    (queries keys values : List (Heads F numHeads headDim)) :
    (attend math mask queries keys values).length = queries.length := by
  simp [attend]

theorem getElem_attend (mask : Nat → Nat → Bool)
    (queries keys values : List (Heads F numHeads headDim)) {i : Nat} (h : i < queries.length)
    (h' : i < (attend math mask queries keys values).length) :
    (attend math mask queries keys values)[i] = context math (mask i) queries[i] keys values := by
  simp [attend]

/-- **A masked key has no influence.** -/
theorem context_visible {mask : Nat → Bool} {n : Nat} (query : Heads F numHeads headDim)
    {keys values : List (Heads F numHeads headDim)} (hlen : keys.length = values.length)
    (hmask : ∀ j < keys.length, mask j = decide (n ≤ j)) :
    context math mask query keys values
      = context math (fun _ => false) query (keys.take n) (values.take n) := by
  funext h d
  have hscores : (attnScores query keys h).length = keys.length := List.length_map _
  unfold context
  rw [Softmax.mix_softmax_maskedFill math.exp _ (by rw [hscores, List.length_map, hlen])
    (by rw [hscores]; exact hmask)]
  unfold attnScores
  rw [List.map_take, List.map_take]

theorem triu_eq (i j : Nat) : triu i j = decide (i + 1 ≤ j) := rfl

theorem causalMask_eq (pastLen i j : Nat) :
    causalMask pastLen i j = decide (pastLen + i + 1 ≤ j) := rfl

/-- The context of the full causal attention at one position. -/
theorem getElem_attend_triu {queries keys values : List (Heads F numHeads headDim)}
    (hlen : keys.length = values.length) {i : Nat} (h : i < queries.length)
    (h' : i < (attend math triu queries keys values).length) :
    (attend math triu queries keys values)[i]
      = context math (fun _ => false) queries[i] (keys.take (i + 1)) (values.take (i + 1)) := by
  rw [getElem_attend triu queries keys values h h', context_visible _ hlen fun j _ => triu_eq i j]

omit [Add X] in
/-- The full causal attention over projected states. -/
theorem prefixwise_attend (wQuery wKey wValue : X → Heads F numHeads headDim) :
    Prefixwise fun x : List X =>
      attend math triu (x.map wQuery) (x.map wKey) (x.map wValue) := by
  refine Prefixwise.of_getElem? (fun _ => by simp) fun x n i hin hi => ?_
  have hi' : i < (x.take n).length := by simp; omega
  rw [List.getElem?_eq_getElem (by simpa using hi), List.getElem?_eq_getElem (by simpa using hi'),
    getElem_attend_triu (by simp) (by simpa using hi),
    getElem_attend_triu (by simp) (by simpa using hi')]
  have htake : ∀ w : X → Heads F numHeads headDim,
      ((x.take n).map w).take (i + 1) = (x.map w).take (i + 1) := by
    intro w
    rw [← List.map_take, ← List.map_take, List.take_take, Nat.min_eq_left (by omega)]
  rw [htake, htake]
  simp

end Attention

/-! ## One row of a batch -/

theorem atTokens_singleton {α β : Type} (f : α → β) (x : List α) : atTokens f [x] = [x.map f] := rfl

theorem addStates_singleton (x shortcut : List X) :
    addStates [x] [shortcut] = [List.zipWith (· + ·) x shortcut] := rfl

namespace TransformerBlock

variable (math) (block : TransformerBlock F X numHeads headDim)

/-- The second half of a block, on one row. -/
def feedForwardRow (x : List X) : List X :=
  List.zipWith (· + ·) (x.map fun t => block.ff (block.norm2 t)) x

/-- The keys and values of a row. -/
def keysValues (x : List X) : List (Heads F numHeads headDim × Heads F numHeads headDim) :=
  x.map fun t => (block.att.wKey (block.norm1 t), block.att.wValue (block.norm1 t))

/-- The attention of a block with its shortcut, on one row. -/
def attentionRow (x : List X) : List X :=
  List.zipWith (· + ·)
    ((Attention.attend math Attention.triu (x.map fun t => block.att.wQuery (block.norm1 t))
      (x.map fun t => block.att.wKey (block.norm1 t))
      (x.map fun t => block.att.wValue (block.norm1 t))).map block.att.outProj) x

def forwardRow (x : List X) : List X := block.feedForwardRow (block.attentionRow math x)

omit [Field F] in
theorem feedForward_singleton (x : List X) :
    block.feedForward [x] = [block.feedForwardRow x] := by
  simp [feedForward, atTokens_singleton, addStates_singleton, feedForwardRow, Function.comp_def]

theorem forward_singleton (x : List X) : block.forward math [x] = [block.forwardRow math x] := by
  simp [forward, GptAttention.forward, Attention.forwardFullCausal, atTokens_singleton,
    addStates_singleton, feedForward_singleton, forwardRow, attentionRow, Function.comp_def]

omit [Field F] in
theorem prefixwise_feedForwardRow : Prefixwise block.feedForwardRow :=
  (Prefixwise.id.map _).zipWith Prefixwise.id _

theorem prefixwise_attentionRow : Prefixwise (block.attentionRow math) :=
  ((Attention.prefixwise_attend _ _ _).map _).zipWith Prefixwise.id _

/-- **A block is causal.** -/
theorem prefixwise_forwardRow : Prefixwise (block.forwardRow math) :=
  (block.prefixwise_feedForwardRow).comp (block.prefixwise_attentionRow math)

end TransformerBlock

/-! ## The whole model -/

namespace GptModel

variable (math) (gpt : GptModel F X Score numHeads headDim)

/-- The embedding of a row from position `0` on. -/
def embedRow (tokens : List Nat) : List X :=
  tokens.mapIdx fun p t => gpt.tokenEmbedding t + gpt.positionEmbedding p

/-- The hidden states that enter layer `l`. -/
def hidden (l : Nat) (tokens : List Nat) : List X :=
  (gpt.trfBlocks.take l).foldl (fun x block => block.forwardRow math x) (gpt.embedRow tokens)

/-- The logits of a row. -/
def rowLogits (tokens : List Nat) : List (List Score) :=
  (gpt.hidden math gpt.trfBlocks.length tokens).map fun x => gpt.outHead (gpt.finalNorm x)

/-- The rows of a list of tokens at layer `l`. -/
def kvRows (l : Nat) (tokens : List Nat) :
    List (Heads F numHeads headDim × Heads F numHeads headDim) :=
  match gpt.trfBlocks[l]? with
  | none => []
  | some block => block.keysValues (gpt.hidden math l tokens)

theorem prefixwise_hidden (l : Nat) : Prefixwise (gpt.hidden math l) :=
  Prefixwise.foldl (Prefixwise.mapIdx _) fun block _ => block.prefixwise_forwardRow math

theorem prefixwise_rowLogits : Prefixwise (gpt.rowLogits math) :=
  (gpt.prefixwise_hidden math _).map _

theorem kvRows_of_getElem? {l : Nat} {block : TransformerBlock F X numHeads headDim}
    (h : gpt.trfBlocks[l]? = some block) :
    gpt.kvRows math l = fun tokens => block.keysValues (gpt.hidden math l tokens) := by
  funext tokens
  rw [kvRows, h]

theorem prefixwise_kvRows {l : Nat} (h : l < gpt.trfBlocks.length) :
    Prefixwise (gpt.kvRows math l) := by
  rw [kvRows_of_getElem? math gpt (List.getElem?_eq_getElem h)]
  exact (gpt.prefixwise_hidden math l).map _

theorem hidden_succ {l : Nat} {block : TransformerBlock F X numHeads headDim}
    (h : gpt.trfBlocks[l]? = some block) :
    gpt.hidden math (l + 1) = fun tokens => block.forwardRow math (gpt.hidden math l tokens) := by
  funext tokens
  rw [hidden, List.take_add_one, h, List.foldl_append]
  rfl

/-- The tokens that the plain forward takes. -/
structure Legible (tokens : List Nat) : Prop where
  vocabulary : ∀ t ∈ tokens, t < gpt.cfg.vocabSize
  context : tokens.length ≤ gpt.cfg.contextLength

omit [Add X] in
theorem embedding_mapM {size : Nat} {table : Nat → X} {is : List Nat} (h : ∀ i ∈ is, i < size) :
    is.mapM (embedding size table) = .ok (is.map table) :=
  Exec.mapM_ok fun i hi => if_pos (h i hi)

omit [Field F] in
theorem embed_ok {inIdx positions : List (List Nat)}
    (hvocab : ∀ tokens ∈ inIdx, ∀ t ∈ tokens, t < gpt.cfg.vocabSize)
    (hcontext : ∀ row ∈ positions, ∀ p ∈ row, p < gpt.cfg.contextLength) :
    gpt.embed inIdx positions = .ok (addStates (atTokens gpt.tokenEmbedding inIdx)
      (atTokens gpt.positionEmbedding positions)) := by
  rw [embed, Exec.mapM_ok fun tokens ht => embedding_mapM (hvocab tokens ht),
    Exec.mapM_ok fun row hrow => embedding_mapM (hcontext row hrow)]
  rfl

omit [Field F] in
theorem embed_singleton {tokens : List Nat} (h : gpt.Legible tokens) :
    gpt.embed [tokens] [List.range tokens.length] = .ok [gpt.embedRow tokens] := by
  have hpos : ∀ p ∈ List.range tokens.length, p < gpt.cfg.contextLength := by
    intro p hp
    exact Nat.lt_of_lt_of_le (List.mem_range.mp hp) h.context
  have hrow : List.zipWith (· + ·) (tokens.map gpt.tokenEmbedding)
      ((List.range tokens.length).map gpt.positionEmbedding) = gpt.embedRow tokens := by
    refine List.ext_getElem (by simp [embedRow]) fun p _ _ => ?_
    simp [embedRow]
  rw [gpt.embed_ok (by simpa using h.vocabulary) (by simpa using hpos), atTokens_singleton,
    atTokens_singleton, addStates_singleton, hrow]

/-- The keys and values that `forward` without a cache computes at layer `l`. -/
def forwardKeysValues (l : Nat) (inIdx : List (List Nat)) :
    Except PyError
      (Attention.Batched F numHeads headDim × Attention.Batched F numHeads headDim) := do
  let x ← gpt.embed inIdx (inIdx.map fun _ => List.range (seqLen inIdx))
  let x := (gpt.trfBlocks.take l).foldl (fun x block => block.forward math x) x
  match gpt.trfBlocks[l]? with
  | none => throw (.indexError "list index out of range")
  | some block =>
    let x := atTokens block.norm1 x
    pure (atTokens block.att.wKey x, atTokens block.att.wValue x)

theorem foldl_forward_singleton (blocks : List (TransformerBlock F X numHeads headDim))
    (x : List X) : blocks.foldl (fun x block => block.forward math x) [x]
      = [blocks.foldl (fun x block => block.forwardRow math x) x] := by
  induction blocks generalizing x with
  | nil => rfl
  | cons block blocks ih =>
    rw [List.foldl_cons, List.foldl_cons, block.forward_singleton math, ih]

/-- The plain forward of one sequence. -/
theorem forward_singleton {tokens : List Nat} (h : gpt.Legible tokens) :
    gpt.forward math [tokens] = .ok [gpt.rowLogits math tokens] := by
  have hlen : seqLen [tokens] = tokens.length := rfl
  rw [forward, List.map_singleton, hlen, gpt.embed_singleton h]
  show Except.ok (gpt.logits _) = _
  rw [foldl_forward_singleton, logits, atTokens_singleton, atTokens_singleton, List.map_map,
    rowLogits, hidden, List.take_length]
  rfl

theorem forwardKeysValues_singleton {l : Nat} (hl : l < gpt.trfBlocks.length) {tokens : List Nat}
    (h : gpt.Legible tokens) : gpt.forwardKeysValues math l [tokens]
      = .ok ([(gpt.kvRows math l tokens).map Prod.fst],
          [(gpt.kvRows math l tokens).map Prod.snd]) := by
  have hlen : seqLen [tokens] = tokens.length := rfl
  have hblock := List.getElem?_eq_getElem hl
  rw [forwardKeysValues, List.map_singleton, hlen, gpt.embed_singleton h, hblock,
    kvRows_of_getElem? math gpt hblock]
  show Except.ok (atTokens _ (atTokens _ _), atTokens _ (atTokens _ _)) = _
  rw [foldl_forward_singleton]
  simp [atTokens_singleton, TransformerBlock.keysValues, hidden, Function.comp_def]

end GptModel

end Nifre
