import Nifre.Properties.Cursors

/-!
# Forward passes

What is known of a forward pass before it is made, and what a model does in it that moves all
cursors of the batch or none. The state in which the model is called may have more free blocks than
was known before, and nothing else of the pass may be different.
-/

namespace Nifre

variable {Row Score : Type}

/-- A row of the batch: what its slot holds, and its tokens. -/
structure PassRow (Row : Type) where
  before : Slot Row
  tokens : List Nat

/-- A forward pass. At least `freeBlocks` blocks are free when it is made, and no more of them if
`exact` is set. -/
structure Pass (Row : Type) where
  rows : List (PassRow Row)
  blockSize : Nat
  freeBlocks : Nat
  exact : Bool

namespace Pass

variable {c c' : KVCacheType Row} {rows : List (Nat × List Nat)} {p : Pass Row}

/-- The rows as the cache has them. -/
def rowsOf (c : KVCacheType Row) (rows : List (Nat × List Nat)) : List (PassRow Row) :=
  rows.map fun row => ⟨c.slot row.1, row.2⟩

/-- The pass over `rows` with the cache `c`. -/
structure Of (c : KVCacheType Row) (rows : List (Nat × List Nat)) (p : Pass Row) : Prop where
  rows : p.rows = rowsOf c rows
  blockSize : p.blockSize = c.blockSize
  freeBlocks : p.freeBlocks ≤ c.freeBlocks
  exact : p.exact = true → p.freeBlocks = c.freeBlocks

theorem Of.forall_rows (h : p.Of c rows) {P : PassRow Row → Prop} (hall : ∀ row ∈ p.rows, P row) :
    ∀ row ∈ rows, P ⟨c.slot row.1, row.2⟩ := by
  rw [h.rows] at hall
  exact List.forall_mem_map.mp hall

/-- How many blocks the row is short of. -/
def missing (p : Pass Row) (row : PassRow Row) : Nat :=
  row.before.missing p.blockSize row.tokens.length

/-- How many blocks all rows are short of. -/
def shortage (p : Pass Row) : Nat := (p.rows.map p.missing).sum

end Pass

/-- How many blocks the slots of a batch are short of. -/
def KVCacheType.shortage (rows : List (Nat × List Nat)) (c : KVCacheType Row) : Nat :=
  (rows.map fun row => c.missing row.1 row.2.length).sum

theorem Pass.Of.shortage_eq {c : KVCacheType Row} {rows : List (Nat × List Nat)} {p : Pass Row}
    (h : p.Of c rows) : p.shortage = c.shortage rows := by
  rw [Pass.shortage, h.rows, Pass.rowsOf, List.map_map]
  refine congrArg List.sum (List.map_congr_left fun row _ => ?_)
  rw [Function.comp_apply, Pass.missing, h.blockSize]
  rfl

/-- A batch of the engine: its tokens row by row, in different slots that are there. -/
structure Batch (padId size : Nat) (rows : List (Nat × List Nat)) (tokenIds : List (List Nat))
    (inputLens : Option (List Nat)) : Prop where
  tokens : BatchOf padId rows tokenIds inputLens
  nodup : (rows.map Prod.fst).Nodup
  lt : ∀ row ∈ rows, row.1 < size

/-- What a forward pass that returned leaves: each row's cursor moved by its tokens, the other
slots as they were, and no more blocks taken than the rows were short of. -/
structure Fed (model : InferenceModel Row Score) (size : Nat) (c : KVCacheType Row)
    (rows : List (Nat × List Nat)) (c' : KVCacheType Row) : Prop where
  native : c'.Native model size
  fed : ∀ row ∈ rows, c'.cursor row.1 = c.cursor row.1 + row.2.length
  same : KVCacheType.SameSlots (rows.map Prod.fst) c c'
  free : c.freeBlocks ≤ c'.freeBlocks + c.shortage rows
  unrepeated : ∀ row ∈ rows, c.Unrepeated row.1 → c'.Unrepeated row.1

variable {model : InferenceModel Row Score} {size : Nat} {c c' : KVCacheType Row}
  {rows : List (Nat × List Nat)}

theorem Fed.all_unrepeated (h : Fed model size c rows c') {i : Nat} (hi : c.Unrepeated i) :
    c'.Unrepeated i := by
  by_cases hmem : i ∈ rows.map Prod.fst
  · obtain ⟨row, hrow, rfl⟩ := List.mem_map.mp hmem
    exact h.unrepeated row hrow hi
  · exact (h.same.unrepeated hmem).mpr hi

/-- Rows without tokens move no cursor. -/
theorem Fed.cursor_eq (h : Fed model size c rows c') (hnil : ∀ row ∈ rows, row.2 = []) :
    c'.cursor = c.cursor := by
  funext i
  by_cases hi : i ∈ rows.map Prod.fst
  · obtain ⟨row, hrow, rfl⟩ := List.mem_map.mp hi
    rw [h.fed row hrow, hnil row hrow]
    rfl
  · exact h.same.cursor hi

/-- Every row has tokens, and there are scores to sample from. -/
def Sampled (rows : List (Nat × List Nat)) (logits : Logits Score) : Prop :=
  (∀ row ∈ rows, row.2 ≠ []) ∧
    ∀ i < rows.length, ∃ scores, lastLogits logits i = some scores ∧ scores ≠ []

/-- A model whose harmless passes move all cursors of the batch or none, and raise if they are
known to stop. -/
structure InferenceModel.AllOrNone (model : InferenceModel Row Score)
    (Harmless Stops : Pass Row → Prop) : Prop where
  made : ∀ make, model.makeKvCache = some make → ∀ enable,
    (make enable).maxSeqLen = model.config.maxSeqLen ∧ (make enable).Short
  call : ∀ (c : KVCacheType Row) size rows tokenIds inputLens (p : Pass Row),
    Batch model.config.padTokenId size rows tokenIds inputLens → rows ≠ [] →
    c.Native model size → p.Of c rows → Harmless p →
    match (model.call tokenIds inputLens (rows.map Prod.fst)).run c with
    | .ok logits c' => Fed model size c rows c' ∧ ¬Stops p ∧
        (Sampled rows logits ∨ ∀ row ∈ rows, row.2 = [])
    | .error _ c' => c'.Native model size ∧ c'.cursor = c.cursor

/-- A cache that is made is the model's. -/
theorem InferenceModel.AllOrNone.makeCache {Harmless Stops : Pass Row → Prop}
    (h : model.AllOrNone Harmless Stops) {usePaged usePrefix : Bool} {n : Nat}
    {c : KVCacheType Row} (hmade : Engine.makeCache model usePaged usePrefix n = .ok c) :
    c.Native model n := by
  unfold Engine.makeCache at hmade
  cases hmake : model.makeKvCache with
  | some make =>
    rw [hmake] at hmade
    cases hmade
    obtain ⟨hmax, hshort⟩ := h.made make hmake usePrefix
    exact ⟨by rw [hmake]; rfl, rfl, hmax, hshort⟩
  | none =>
    rw [hmake] at hmade
    cases usePaged with
    | false =>
      cases hmade
      exact ⟨hmake, rfl, rfl, rfl⟩
    | true =>
      simp only [if_true] at hmade
      generalize hinit : (PagedKVCache.initBatch _ _ _ _ : Except PyError (PagedKVCache Nat _)) =
        result at hmade
      cases result with
      | error e => cases hmade
      | ok c =>
        cases hmade
        obtain ⟨hacc, hsize, hlayers, hmax, -, -, -, hpos, -, -⟩ :=
          PagedKVCache.initBatch_spec hinit
        refine ⟨hmake, hsize, hlayers, hmax, hacc, fun b => ?_⟩
        -- a fresh slot has no tokens
        rw [hpos]
        exact (BlockTable.blocksNeeded_le_iff hacc.blockSize_pos).mpr (Nat.zero_le _)

end Nifre
