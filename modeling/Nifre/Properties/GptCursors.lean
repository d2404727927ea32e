import Nifre.Properties.Passes
import Nifre.Properties.CachedForward

/-!
# The cursors after a GPT forward pass

A position past the context or an unknown token is found before anything is appended. After that
only the pool of a paged cache can fail, in the first layer, and a cursor moves in the last one. So
with two layers or more a pass moves all cursors or none; with one layer it may fail after some.
-/

namespace Nifre

variable {F X Score : Type} [Field F] [Add X] {numHeads headDim : Nat} {math : ExactMath F}

/-! ## Which passes are harmless -/

namespace Pass

variable {Row : Type} (p : Pass Row)

/-- The length of the longest row. -/
def width : Nat := (p.rows.map fun row => row.tokens.length).max?.getD 0

/-- The rows, padded to one width. -/
def tokenIds (padId : Nat) : List (List Nat) :=
  p.rows.map fun row => padRow padId p.width row.tokens

/-- The positions a pass is embedded at. -/
def positions : List (List Nat) :=
  if p.width = 1 then p.rows.map fun row => [row.before.cursor]
  else p.rows.map fun row =>
    GptModel.rowPositions p.width row.tokens.length row.before.cursor

/-- The pool has the blocks that the batch is short of, or not even those of the first row. -/
def PoolDecides : Prop :=
  p.shortage ≤ p.freeBlocks ∨
    p.exact = true ∧ ∃ row ∈ p.rows.head?, p.freeBlocks < p.missing row

instance : Decidable p.PoolDecides :=
  inferInstanceAs (Decidable (_ ∨ _ ∧ ∃ row ∈ p.rows.head?, _))

end Pass

namespace GptModel

variable (gpt : GptModel F X Score numHeads headDim)

/-- A token is not in the vocabulary, or a position is past the context. -/
def Refuses {Row : Type} (padId : Nat) (p : Pass Row) : Prop :=
  (∃ tokens ∈ p.tokenIds padId, ∃ t ∈ tokens, gpt.cfg.vocabSize ≤ t) ∨
    ∃ positions ∈ p.positions, ∃ q ∈ positions, gpt.cfg.contextLength ≤ q

instance {Row : Type} (padId : Nat) (p : Pass Row) : Decidable (gpt.Refuses padId p) :=
  inferInstanceAs (Decidable ((∃ tokens ∈ p.tokenIds padId, ∃ t ∈ tokens,
    gpt.cfg.vocabSize ≤ t) ∨ ∃ positions ∈ p.positions, ∃ q ∈ positions,
      gpt.cfg.contextLength ≤ q))

/-- A pass that is refused, or whose rows all have tokens or none; with one layer the pool must
decide at the first row. -/
def Harmless {Row : Type} (padId : Nat) (p : Pass Row) : Prop :=
  gpt.Refuses padId p ∨ (∀ row ∈ p.rows, row.tokens = []) ∨
    (∀ row ∈ p.rows, row.tokens ≠ []) ∧ (gpt.trfBlocks.length = 1 → p.PoolDecides)

instance {Row : Type} (padId : Nat) (p : Pass Row) : Decidable (gpt.Harmless padId p) :=
  inferInstanceAs (Decidable (_ ∨ (∀ row ∈ p.rows, row.tokens = []) ∨
    (∀ row ∈ p.rows, row.tokens ≠ []) ∧ _))

/-- A pass that is refused, or finds too few blocks. -/
def Stops {Row : Type} (padId : Nat) (p : Pass Row) : Prop :=
  gpt.Refuses padId p ∨
    (∀ row ∈ p.rows, row.tokens ≠ []) ∧ p.exact = true ∧ p.freeBlocks < p.shortage

instance {Row : Type} (padId : Nat) (p : Pass Row) : Decidable (gpt.Stops padId p) :=
  inferInstanceAs (Decidable (_ ∨ (∀ row ∈ p.rows, row.tokens ≠ []) ∧ _))

end GptModel

/-! ## Shapes -/

/-- As many rows, all of one width. -/
structure Shaped {α : Type} (n width : Nat) (x : List (List α)) : Prop where
  length : x.length = n
  row : ∀ row ∈ x, row.length = width

namespace Shaped

variable {α β : Type} {n width : Nat} {x : List (List α)}

theorem atTokens (h : Shaped n width x) (f : α → β) : Shaped n width (Nifre.atTokens f x) :=
  ⟨(List.length_map _).trans h.length,
    List.forall_mem_map.mpr fun row hrow => (List.length_map f).trans (h.row row hrow)⟩

theorem addStates [Add α] {x' : List (List α)} (h : Shaped n width x) (h' : Shaped n width x') :
    Shaped n width (Nifre.addStates x x') := by
  refine ⟨by rw [Nifre.addStates, List.length_zipWith, h.length, h'.length, Nat.min_self], ?_⟩
  intro row hrow
  obtain ⟨i, hi, rfl⟩ := List.mem_iff_getElem.mp hrow
  rw [Nifre.addStates, List.length_zipWith] at hi
  simp only [Nifre.addStates, List.getElem_zipWith, List.length_zipWith]
  rw [h.row _ (List.getElem_mem (by omega)), h'.row _ (List.getElem_mem (by omega)), Nat.min_self]

end Shaped

/-! ## One row of one layer -/

namespace Attention

open KVCacheType (Native Appended)

variable {model : InferenceModel (Heads F numHeads headDim) Score} {size width b l : Nat}
  {c : KVCacheType (Heads F numHeads headDim)}

omit [Add X] in
variable (math) in
/-- **A row is appended**, or there are too few blocks and no cursor moves. -/
theorem forwardWithCacheRow_cases (hmodel : model.makeKvCache = none) (h : c.Native model size)
    (hb : b < size) (hl : l < model.config.numLayers) (q : List (Heads F numHeads headDim))
    (kvs : List (Heads F numHeads headDim × Heads F numHeads headDim))
    (hfit : c.cursor b + kvs.length ≤ model.config.maxSeqLen) :
    (c.missing b kvs.length ≤ c.freeBlocks ∧ ∃ out c',
      (forwardWithCacheRow math q (kvs.map Prod.fst) (kvs.map Prod.snd) b l).run c = .ok out c' ∧
        out.length = q.length ∧ Appended model size c b l kvs.length c') ∨
    (c.freeBlocks < c.missing b kvs.length ∧ ∃ e c',
      (forwardWithCacheRow math q (kvs.map Prod.fst) (kvs.map Prod.snd) b l).run c = .error e c' ∧
        c'.Native model size ∧ c'.cursor = c.cursor) := by
  obtain ⟨past, hget⟩ := KVCacheType.get_run hmodel h hb hl
  rcases KVCacheType.append_cases hmodel h hb hl hfit with ⟨hroom, c', happend, happended⟩ |
    ⟨hshort, e, c', happend, hnative, hcursor⟩
  · refine Or.inl ⟨hroom, _, c', forwardWithCacheRow_run math q hget happend, ?_, happended⟩
    rw [attend, List.length_mapIdx]
  · refine Or.inr ⟨hshort, e, c', ?_, hnative, hcursor⟩
    rw [forwardWithCacheRow, Exec.run_bind_ok hget, Exec.run_bind_error happend]

omit [Add X] in
variable (math) in
/-- **One row of a batch**, with its real length. -/
theorem forwardBatchRow_cases (hmodel : model.makeKvCache = none) (h : c.Native model size)
    (hb : b < size) (hl : l < model.config.numLayers)
    (wQuery wKey wValue : X → Heads F numHeads headDim)
    {inputLen : Option Nat} {n : Nat} {x : List X} (hx : x.length = width) (hpos : n ≠ 0)
    (hle : n ≤ width) (hlen : inputLen = some n ∨ inputLen = none ∧ width = 1)
    (hfit : c.cursor b + n ≤ model.config.maxSeqLen) :
    let row := forwardBatchRow math l ((x.map wQuery, x.map wKey, x.map wValue), b, inputLen)
    (c.missing b n ≤ c.freeBlocks ∧ ∃ out c', row.run c = .ok out c' ∧ out.length = width ∧
      Appended model size c b l n c') ∨
    (c.freeBlocks < c.missing b n ∧ ∃ e c', row.run c = .error e c' ∧ c'.Native model size ∧
      c'.cursor = c.cursor) := by
  intro row
  by_cases hone : width = 1
  · -- one position: the whole row, with or without a length
    have hn : n = 1 := by omega
    have hkvs : (x.map fun t => (wKey t, wValue t)).length = n := by rw [List.length_map]; omega
    have hrow : row = forwardWithCacheRow math (x.map wQuery)
        ((x.map fun t => (wKey t, wValue t)).map Prod.fst)
        ((x.map fun t => (wKey t, wValue t)).map Prod.snd) b l := by
      have hnot : ¬1 < (x.map wQuery).length := by rw [List.length_map]; omega
      simp only [List.map_map, Function.comp_def]
      cases inputLen with
      | none => rfl
      | some validLen => exact if_neg hnot
    have hcases := forwardWithCacheRow_cases math hmodel h hb hl (x.map wQuery)
      (x.map fun t => (wKey t, wValue t)) (by rw [hkvs]; exact hfit)
    rw [hkvs, List.length_map, hx] at hcases
    rw [hrow]
    exact hcases
  · obtain rfl : inputLen = some n := by
      rcases hlen with h | ⟨-, h⟩
      · exact h
      · exact absurd h hone
    -- more positions: only the last `n` are the row's own
    have hmany : 1 < (x.map wQuery).length := by rw [List.length_map]; omega
    have hslice : ∀ {β : Type} (f : X → β), lastSlice n (x.map f) = (lastSlice n x).map f := by
      intro β f
      rw [lastSlice, lastSlice, if_neg hpos, if_neg hpos, List.length_map, List.map_drop]
    have hreal : (lastSlice n x).length = n := by
      rw [lastSlice, if_neg hpos, List.length_drop]
      omega
    have hkvs : ((lastSlice n x).map fun t => (wKey t, wValue t)).length = n := by
      rw [List.length_map, hreal]
    have hrow : row = padOut width <$> forwardWithCacheRow math ((lastSlice n x).map wQuery)
        (((lastSlice n x).map fun t => (wKey t, wValue t)).map Prod.fst)
        (((lastSlice n x).map fun t => (wKey t, wValue t)).map Prod.snd) b l := by
      refine (if_pos hmany).trans ?_
      simp only [List.map_map, Function.comp_def]
      rw [hslice, hslice, hslice, List.length_map, hx]
    have hcases := forwardWithCacheRow_cases math hmodel h hb hl ((lastSlice n x).map wQuery)
      ((lastSlice n x).map fun t => (wKey t, wValue t)) (by rw [hkvs]; exact hfit)
    rw [hkvs, List.length_map, hreal] at hcases
    rw [hrow]
    rcases hcases with ⟨hroom, out, c', hrun, hout, happended⟩ | ⟨hshort, e, c', hrun, hrest⟩
    · refine Or.inl ⟨hroom, _, c', Exec.run_map_ok hrun, ?_, happended⟩
      exact (leftPadded_padOut (by omega)).1
    · refine Or.inr ⟨hshort, e, c', ?_, hrest⟩
      rw [← bind_pure_comp, Exec.run_bind_error hrun]

end Attention

/-! ## A layer -/

section

open KVCacheType (Native)

variable {model : InferenceModel (Heads F numHeads headDim) Score} {size width l : Nat}
  {c c' : KVCacheType (Heads F numHeads headDim)}

/-- The pool decides about a layer at its first row. -/
def DecidedAtOnce (rows : List (Nat × List Nat)) (c : KVCacheType (Heads F numHeads headDim)) :
    Prop :=
  c.shortage rows ≤ c.freeBlocks ∨
    ∃ row ∈ rows.head?, c.freeBlocks < c.missing row.1 row.2.length

/-- A batch of rows with tokens that fit. -/
structure FitRows (model : InferenceModel (Heads F numHeads headDim) Score) (size width : Nat)
    (c : KVCacheType (Heads F numHeads headDim)) (rows : List (Nat × List Nat)) : Prop where
  nodup : (rows.map Prod.fst).Nodup
  lt : ∀ row ∈ rows, row.1 < size
  tokens : ∀ row ∈ rows, row.2.length ≠ 0
  le : ∀ row ∈ rows, row.2.length ≤ width
  fits : ∀ row ∈ rows, c.cursor row.1 + row.2.length ≤ model.config.maxSeqLen

/-- What layer `l` leaves when it goes through. -/
structure LayerDone (model : InferenceModel (Heads F numHeads headDim) Score) (size : Nat)
    (c : KVCacheType (Heads F numHeads headDim)) (rows : List (Nat × List Nat)) (l : Nat)
    (c' : KVCacheType (Heads F numHeads headDim)) : Prop where
  native : c'.Native model size
  cursor : ∀ row ∈ rows, c'.cursor row.1
    = if l + 1 = model.config.numLayers then c.cursor row.1 + row.2.length else c.cursor row.1
  same : KVCacheType.SameSlots (rows.map Prod.fst) c c'
  roomy : l + 1 ≠ model.config.numLayers → ∀ row ∈ rows, c'.missing row.1 row.2.length = 0
  free : c'.freeBlocks + c.shortage rows = c.freeBlocks
  unrepeated : ∀ row ∈ rows, c.Unrepeated row.1 → c'.Unrepeated row.1

omit [Field F] in
/-- No layer but the last moves a cursor. -/
theorem LayerDone.cursor_eq {rows : List (Nat × List Nat)} (h : LayerDone model size c rows l c')
    (hlast : l + 1 ≠ model.config.numLayers) : c'.cursor = c.cursor := by
  funext i
  by_cases hi : i ∈ rows.map Prod.fst
  · obtain ⟨row, hrow, rfl⟩ := List.mem_map.mp hi
    rw [h.cursor row hrow, if_neg hlast]
  · exact h.same.cursor hi

/-! ### The first row of a layer, and then the others -/

section

open KVCacheType (Appended)

variable {c₁ : KVCacheType (Heads F numHeads headDim)} {row : Nat × List Nat}
  {rows : List (Nat × List Nat)}

omit [Field F] in
theorem shortage_other (h : Appended model size c row.1 l row.2.length c₁)
    (hne : ∀ r ∈ rows, r.1 ≠ row.1) : c₁.shortage rows = c.shortage rows := by
  unfold KVCacheType.shortage
  refine congrArg List.sum (List.map_congr_left fun r hr => h.same.missing (fun hi => ?_) _)
  exact hne r hr (List.mem_singleton.mp hi)

omit [Field F] in
theorem FitRows.after (hfit : FitRows model size width c (row :: rows))
    (h : Appended model size c row.1 l row.2.length c₁) (hne : ∀ r ∈ rows, r.1 ≠ row.1) :
    FitRows model size width c₁ rows where
  nodup := (List.nodup_cons.mp hfit.nodup).2
  lt := fun r hr => hfit.lt r (List.mem_cons_of_mem _ hr)
  tokens := fun r hr => hfit.tokens r (List.mem_cons_of_mem _ hr)
  le := fun r hr => hfit.le r (List.mem_cons_of_mem _ hr)
  fits := fun r hr => by
    rw [h.same.cursor fun hi => hne r hr (List.mem_singleton.mp hi)]
    exact hfit.fits r (List.mem_cons_of_mem _ hr)

omit [Field F] in
/-- The layer of the first row and of the others. -/
theorem LayerDone.cons (h : Appended model size c row.1 l row.2.length c₁)
    (hnd : row.1 ∉ rows.map Prod.fst) (h' : LayerDone model size c₁ rows l c') :
    LayerDone model size c (row :: rows) l c' := by
  have hne : ∀ r ∈ rows, r.1 ≠ row.1 := fun r hr he => hnd (List.mem_map.mpr ⟨r, hr, he⟩)
  have hother : ∀ r ∈ rows, r.1 ∉ [row.1] := fun r hr hi => hne r hr (List.mem_singleton.mp hi)
  refine ⟨h'.native, fun r hr => ?_, ?_, fun hlast r hr => ?_, ?_, fun r hr hold => ?_⟩
  · rcases List.mem_cons.mp hr with rfl | hr
    · rw [h'.same.cursor hnd, h.cursor]
    · rw [h'.cursor r hr, h.same.cursor (hother r hr)]
  · exact (h.same.mono fun i hi => List.mem_cons.mpr (Or.inl (List.mem_singleton.mp hi))).trans
      (h'.same.mono fun i hi => List.mem_cons_of_mem _ hi)
  · rcases List.mem_cons.mp hr with rfl | hr
    · rw [h'.same.missing hnd]
      exact h.roomy hlast
    · exact h'.roomy hlast r hr
  · have hfirst := h.free
    have hrest := h'.free
    rw [shortage_other h hne] at hrest
    have hsum : c.shortage (row :: rows) = c.missing row.1 row.2.length + c.shortage rows := by
      simp [KVCacheType.shortage]
    omega
  · rcases List.mem_cons.mp hr with rfl | hr
    · exact (h'.same.unrepeated hnd).mpr (h.unrepeated hold)
    · exact h'.unrepeated r hr ((h.same.unrepeated (hother r hr)).mpr hold)

end

/-- The rows that the attention of a block works on. -/
def attentionRows (block : TransformerBlock F X numHeads headDim)
    (info : Nat × List Nat → Nat × Option Nat) (rows : List (Nat × List Nat))
    (x : HiddenStates X) :=
  List.zipWith (fun row xRow => ((xRow.map fun t => block.att.wQuery (block.norm1 t),
    xRow.map fun t => block.att.wKey (block.norm1 t),
    xRow.map fun t => block.att.wValue (block.norm1 t)), info row)) rows x

omit [Add X] in
variable (math) in
/-- **The rows of a layer**: all of them are appended, or the pool runs out, and then a cursor may
have moved only in the last layer and after the first row. -/
theorem layerRows_cases (hmodel : model.makeKvCache = none) (hl : l < model.config.numLayers)
    (block : TransformerBlock F X numHeads headDim) {inputLens : Option (List Nat)} :
    ∀ {rows : List (Nat × List Nat)} {x : HiddenStates X}
      {c : KVCacheType (Heads F numHeads headDim)}, c.Native model size →
    FitRows model size width c rows → Shaped rows.length width x →
    (∀ row : Nat × List Nat, (inputLens.map fun _ => row.2.length) = some row.2.length ∨
      (inputLens.map fun _ => row.2.length) = none ∧ width = 1) →
    let m := (attentionRows block (fun row => (row.1, inputLens.map fun _ => row.2.length)) rows
      x).mapM (Attention.forwardBatchRow math l)
    (∃ out c', m.run c = .ok out c' ∧ Shaped rows.length width out ∧
      LayerDone model size c rows l c') ∨
    ∃ e c', m.run c = .error e c' ∧ c'.Native model size ∧ c.freeBlocks < c.shortage rows ∧
      (l + 1 ≠ model.config.numLayers ∨ DecidedAtOnce rows c → c'.cursor = c.cursor)
  | [], x, c, hc, _, _, _ => by
    exact Or.inl ⟨[], c, rfl, ⟨rfl, nofun⟩, hc, nofun, .refl c, fun _ => nofun, rfl, nofun⟩
  | row :: rows, [], _, _, _, hx, _ => nomatch hx.length
  | row :: rows, xRow :: x, c, hc, hfit, hx, hlens => by
    have hnd := (List.nodup_cons.mp hfit.nodup).1
    have hx' : Shaped rows.length width x :=
      ⟨Nat.succ.inj hx.length, fun r hr => hx.row r (List.mem_cons_of_mem _ hr)⟩
    have hne : ∀ r ∈ rows, r.1 ≠ row.1 := fun r hr he => hnd (List.mem_map.mpr ⟨r, hr, he⟩)
    intro m
    have hm : m = (do
        let out ← Attention.forwardBatchRow math l
          ((xRow.map fun t => block.att.wQuery (block.norm1 t),
            xRow.map fun t => block.att.wKey (block.norm1 t),
            xRow.map fun t => block.att.wValue (block.norm1 t)),
            row.1, inputLens.map fun _ => row.2.length)
        let outs ← (attentionRows block (fun row => (row.1, inputLens.map fun _ => row.2.length))
          rows x).mapM (Attention.forwardBatchRow math l)
        pure (out :: outs)) := by
      show List.mapM _ _ = _
      rw [attentionRows, List.zipWith_cons_cons, List.mapM_cons]
      rfl
    rw [hm]
    rcases Attention.forwardBatchRow_cases math hmodel hc (hfit.lt row List.mem_cons_self) hl
      (fun t => block.att.wQuery (block.norm1 t)) (fun t => block.att.wKey (block.norm1 t))
      (fun t => block.att.wValue (block.norm1 t)) (hx.row xRow List.mem_cons_self)
      (hfit.tokens row List.mem_cons_self) (hfit.le row List.mem_cons_self) (hlens row)
      (hfit.fits row List.mem_cons_self) with
      ⟨hroom, out, c₁, hrun₁, hout, h₁⟩ | ⟨hshort, e, c', hrun, hnative, hcursor⟩
    · -- the other rows are in other slots, and see none of it
      have hshortage := shortage_other h₁ hne
      have hsum : c.shortage (row :: rows) = c.missing row.1 row.2.length + c.shortage rows := by
        simp [KVCacheType.shortage]
      have hfree := h₁.free
      rcases layerRows_cases hmodel hl block h₁.native (hfit.after h₁ hne) hx' hlens with
        ⟨outs, c₂, hrun₂, houts, h₂⟩ | ⟨e, c', hrun, hnative, hlong, hcursor⟩
      · refine Or.inl ⟨out :: outs, c₂, ?_, ⟨congrArg Nat.succ houts.length,
          List.forall_mem_cons.mpr ⟨hout, houts.row⟩⟩, .cons h₁ hnd h₂⟩
        rw [Exec.run_bind_ok hrun₁, Exec.run_bind_ok hrun₂]
        rfl
      · refine Or.inr ⟨e, c', ?_, hnative, by omega, fun hcond => ?_⟩
        · rw [Exec.run_bind_ok hrun₁, Exec.run_bind_error hrun]
        · rcases hcond with hlast | hall | ⟨first, hfirst, hlt⟩
          · rw [hcursor (Or.inl hlast)]
            exact h₁.cursor_eq hlast
          · omega
          · obtain rfl : row = first := Option.some.inj hfirst
            omega
    · refine Or.inr ⟨e, c', by rw [Exec.run_bind_error hrun], hnative, ?_, fun _ => hcursor⟩
      simp only [KVCacheType.shortage, List.map_cons, List.sum_cons]
      omega

/-! ## The blocks -/

omit [Field F] [Add X] in
theorem FitRows.congr {rows : List (Nat × List Nat)} (h : FitRows model size width c rows)
    (hcursor : c'.cursor = c.cursor) : FitRows model size width c' rows :=
  { h with fits := hcursor ▸ h.fits }

omit [Field F] in
/-- The states after a block have the shape of those before. -/
theorem shaped_block {n : Nat} (block : TransformerBlock F X numHeads headDim) {x : HiddenStates X}
    {context : Attention.Batched F numHeads headDim} (hx : Shaped n width x)
    (hcontext : Shaped n width context) :
    Shaped n width (block.feedForward (addStates (atTokens block.att.outProj context) x)) := by
  have hadd := (hcontext.atTokens block.att.outProj).addStates hx
  exact ((hadd.atTokens block.norm2).atTokens block.ff).addStates hadd

variable (math) in
/-- A block, from the rows of its attention. -/
theorem block_run_eq (block : TransformerBlock F X numHeads headDim) {rows : List (Nat × List Nat)}
    {inputLens : Option (List Nat)} (hlens : LensOf width rows inputLens) (l : Nat)
    (x : HiddenStates X) :
    block.forwardWithCache math x l inputLens (rows.map Prod.fst) = (do
      let context ← (attentionRows block (fun row => (row.1, inputLens.map fun _ => row.2.length))
        rows x).mapM (Attention.forwardBatchRow math l)
      pure (block.feedForward (addStates (atTokens block.att.outProj context) x))) := by
  unfold TransformerBlock.forwardWithCache GptAttention.forwardWithCache Attention.forward
    Attention.forwardWithCache
  simp only [hlens.rowInfo, zip_atTokens, bind_assoc, pure_bind]
  rfl

variable (math) in
/-- **All blocks from a layer on**: every cursor of the batch moves, or none. -/
theorem forwardBlocks_cases (hmodel : model.makeKvCache = none) {rows : List (Nat × List Nat)}
    {inputLens : Option (List Nat)} (hlens : LensOf width rows inputLens) :
    ∀ {blocks : List (TransformerBlock F X numHeads headDim)} {l : Nat} {x : HiddenStates X}
      {c : KVCacheType (Heads F numHeads headDim)}, blocks ≠ [] →
    l + blocks.length = model.config.numLayers → c.Native model size →
    FitRows model size width c rows → Shaped rows.length width x →
    l + 1 ≠ model.config.numLayers ∨ DecidedAtOnce rows c →
    let m := GptModel.forwardBlocks math inputLens (rows.map Prod.fst) l blocks x
    (∃ x' c', m.run c = .ok x' c' ∧ Shaped rows.length width x' ∧ Fed model size c rows c' ∧
      c.shortage rows ≤ c.freeBlocks) ∨
    ∃ e c', m.run c = .error e c' ∧ c'.Native model size ∧ c'.cursor = c.cursor
  | [], _, _, _, hne, _, _, _, _, _ => absurd rfl hne
  | block :: blocks, l, x, c, _, hlen, hc, hfit, hx, hdecided => by
    rw [List.length_cons] at hlen
    intro m
    have hm : m = (do
        let x ← block.forwardWithCache math x l inputLens (rows.map Prod.fst)
        GptModel.forwardBlocks math inputLens (rows.map Prod.fst) (l + 1) blocks x) := rfl
    have hl : l < model.config.numLayers := by omega
    have hblock := block_run_eq math block hlens l x
    rcases layerRows_cases math hmodel hl block hc hfit hx hlens.row with
      ⟨context, c₁, hrun₁, hcontext, h₁⟩ | ⟨e, c', hrun, hnative, -, hcursor⟩
    · have hrun₁' : (block.forwardWithCache math x l inputLens (rows.map Prod.fst)).run c
          = .ok (block.feedForward (addStates (atTokens block.att.outProj context) x)) c₁ := by
        rw [hblock, Exec.run_bind_ok hrun₁]
        rfl
      have hx₁ := shaped_block block hx hcontext
      rw [hm, Exec.run_bind_ok hrun₁']
      by_cases hlast : l + 1 = model.config.numLayers
      · -- this was the last layer
        obtain rfl : blocks = [] := List.length_eq_zero_iff.mp (by omega)
        refine Or.inl ⟨_, c₁, rfl, hx₁, ⟨h₁.native, fun row hrow => ?_, h₁.same, h₁.free.ge,
          h₁.unrepeated⟩, by have := h₁.free; omega⟩
        rw [h₁.cursor row hrow, if_pos hlast]
      · -- the blocks that the batch needs are there from now on
        have hcursor := h₁.cursor_eq hlast
        have hzero : c₁.shortage rows = 0 := by
          unfold KVCacheType.shortage
          rw [List.map_congr_left (h₁.roomy hlast)]
          simp
        have hfree := h₁.free
        have hne : blocks ≠ [] := by
          rintro rfl
          exact hlast (by rw [List.length_nil] at hlen; omega)
        have hlen' : l + 1 + blocks.length = model.config.numLayers := by omega
        rcases forwardBlocks_cases hmodel hlens hne hlen' h₁.native (hfit.congr hcursor) hx₁
          (Or.inr (Or.inl (by omega))) with
          ⟨x', c', hrun, hx', hfed, -⟩ | ⟨e, c', hrun, hnative, hsame⟩
        · have hrest := hfed.free
          refine Or.inl ⟨x', c', hrun, hx', ⟨hfed.native, fun row hrow => ?_,
            h₁.same.trans hfed.same, by omega, fun row hrow hold => ?_⟩, by omega⟩
          · rw [hfed.fed row hrow, hcursor]
          · exact hfed.unrepeated row hrow (h₁.unrepeated row hrow hold)
        · exact Or.inr ⟨e, c', hrun, hnative, hsame.trans hcursor⟩
    · refine Or.inr ⟨e, c', ?_, hnative, hcursor hdecided⟩
      rw [hm, hblock, bind_assoc, Exec.run_bind_error hrun]

/-! ## Batches without tokens -/

/-- The slots and the pool are as they were in `c₀`. -/
structure Unmoved (model : InferenceModel (Heads F numHeads headDim) Score) (size : Nat)
    (c₀ c : KVCacheType (Heads F numHeads headDim)) : Prop where
  native : c.Native model size
  same : KVCacheType.SameSlots [] c₀ c
  free : c.freeBlocks = c₀.freeBlocks

variable {c₀ : KVCacheType (Heads F numHeads headDim)}

omit [Add X] in
/-- A row without positions. -/
theorem forwardBatchRow_nil (hmodel : model.makeKvCache = none) {b : Nat} (hb : b < size)
    (hl : l < model.config.numLayers) (inputLen : Option Nat) :
    Exec.Triple (Unmoved model size c₀)
      (Attention.forwardBatchRow math l (([], [], []), b, inputLen))
      (fun out c => out.length = 0 ∧ Unmoved model size c₀ c) (Unmoved model size c₀) := by
  have hrow : Exec.Triple (Unmoved model size c₀)
      (Attention.forwardWithCacheRow math [] [] [] b l)
      (fun out c => out.length = 0 ∧ Unmoved model size c₀ c) (Unmoved model size c₀) := by
    have hget : Exec.Keeps (Unmoved model size c₀)
        (KVCacheType.get (b : Int) (l : Int)) := fun c hc => by
      rw [KVCacheType.get_reads]
      exact hc
    have happend : Exec.Keeps (Unmoved model size c₀)
        (KVCacheType.append (b : Int) (l : Int) [] []) := fun c hc => by
      obtain ⟨hnative, hsame, hfree⟩ := KVCacheType.append_nil hmodel hc.native hb hl
      exact ⟨hnative, hc.same.trans hsame, hfree.trans hc.free⟩
    exact hget.triple.bind fun past => happend.triple.bind fun _ => .pure _ fun c hc => ⟨rfl, hc⟩
  cases inputLen with
  | none => exact hrow
  | some validLen => exact hrow

/-- **Blocks without positions** move nothing. -/
theorem forwardBlocks_nil (hmodel : model.makeKvCache = none) {rows : List (Nat × List Nat)}
    (hlt : ∀ row ∈ rows, row.1 < size) {inputLens : Option (List Nat)}
    (hlens : LensOf 0 rows inputLens) :
    ∀ {blocks : List (TransformerBlock F X numHeads headDim)} {l : Nat} {x : HiddenStates X},
    l + blocks.length ≤ model.config.numLayers → Shaped rows.length 0 x →
    Exec.Keeps (Unmoved model size c₀)
      (GptModel.forwardBlocks math inputLens (rows.map Prod.fst) l blocks x)
  | [], _, _, _, _ => Exec.Keeps.pure _
  | block :: blocks, l, x, hlen, hx => by
    rw [List.length_cons] at hlen
    rw [GptModel.forwardBlocks, block_run_eq math block hlens, bind_assoc]
    set inputs := attentionRows block (fun row => (row.1, inputLens.map fun _ => row.2.length))
      rows x with hinputs
    have hcount : inputs.length = rows.length := by
      rw [hinputs, attentionRows, List.length_zipWith, hx.length, Nat.min_self]
    refine Exec.keeps_iff_triple.mpr (Exec.Triple.bind
      (Exec.Triple.mapM (R := fun out => out.length = 0) fun row hrow => ?_) fun context => ?_)
    · obtain ⟨i, hi, rfl⟩ := List.mem_iff_getElem.mp hrow
      have hix : i < x.length := by rw [hx.length, ← hcount]; exact hi
      have hir : i < rows.length := hcount ▸ hi
      have hnil : x[i] = [] := List.length_eq_zero_iff.mp (hx.row _ (List.getElem_mem hix))
      simp only [hinputs, attentionRows, List.getElem_zipWith, hnil, List.map_nil]
      exact forwardBatchRow_nil hmodel (hlt _ (List.getElem_mem hir)) (by omega) _
    · rintro c ⟨hlength, hrows, hc⟩
      have hnext := shaped_block block hx ⟨hlength.trans hcount, hrows⟩
      exact (forwardBlocks_nil hmodel hlt hlens (by omega) hnext).triple c hc

/-! ## The whole pass -/

variable {p : Pass (Heads F numHeads headDim)} {rows : List (Nat × List Nat)} {padId : Nat}
  {tokenIds : List (List Nat)} {inputLens : Option (List Nat)}

omit [Field F] [Add X] in
/-- The batch is as wide as its longest row. -/
theorem exists_longest (h : BatchOf padId rows tokenIds inputLens) (hne : rows ≠ []) :
    ∃ row ∈ rows, row.2.length = seqLen tokenIds := by
  obtain ⟨width, htokens, hwidth, -, hle⟩ := h.shape hne
  rw [hwidth]
  cases h with
  | @padded _ _ inputLens hb =>
    unfold batchTokenIds at hb
    split at hb
    · cases hb
    · next maxLen hmax =>
      cases hb
      obtain ⟨hmem, hall⟩ := List.max?_eq_some_iff.mp hmax
      rw [List.map_map] at hmem
      obtain ⟨row, hrow, hlen⟩ := List.mem_map.mp hmem
      refine ⟨row, hrow, ?_⟩
      -- all rows are padded to the one length
      have hfirst := List.map_inj_left.mp ((List.map_map).symm.trans htokens) row hrow
      have hpadded := congrArg List.length hfirst
      have hlen : row.2.length = maxLen := hlen
      simp only [Function.comp_apply, padRow, List.length_append, List.length_replicate] at hpadded
      have := hle row hrow
      omega
  | single rows =>
    obtain ⟨row, rest, rfl⟩ := List.exists_cons_of_ne_nil fun h0 => hne (congrArg (List.map _) h0)
    exact ⟨_, List.mem_cons_self, hwidth⟩

omit [Field F] [Add X] in
theorem Pass.Of.width_eq (hof : p.Of c rows) (h : BatchOf padId rows tokenIds inputLens)
    (hne : rows ≠ []) : p.width = seqLen tokenIds := by
  obtain ⟨width, -, hwidth, -, hle⟩ := h.shape hne
  obtain ⟨row, hrow, hlen⟩ := exists_longest h hne
  rw [Pass.width, hof.rows, Pass.rowsOf, List.map_map]
  have hmax : (rows.map ((fun row => row.tokens.length) ∘
      fun row => (⟨c.slot row.1, row.2⟩ : PassRow (Heads F numHeads headDim)))).max?
      = some (seqLen tokenIds) := by
    refine List.max?_eq_some_iff.mpr ⟨List.mem_map.mpr ⟨row, hrow, hlen⟩, ?_⟩
    rw [hwidth]
    exact List.forall_mem_map.mpr hle
  rw [hmax]
  rfl

omit [Field F] [Add X] in
/-- What the batch is, row by row. -/
theorem Pass.Of.shape (hof : p.Of c rows) (h : BatchOf padId rows tokenIds inputLens)
    (hne : rows ≠ []) : tokenIds = p.tokenIds padId ∧ seqLen tokenIds = p.width ∧
      LensOf p.width rows inputLens ∧ ∀ row ∈ rows, row.2.length ≤ p.width := by
  have hwidth := hof.width_eq h hne
  obtain ⟨width, htokens, hseq, hlens, hle⟩ := h.shape hne
  obtain rfl : width = p.width := hseq.symm.trans hwidth.symm
  refine ⟨?_, hseq, hlens, hle⟩
  rw [htokens, Pass.tokenIds, hof.rows, Pass.rowsOf, List.map_map]
  rfl

omit [Field F] in
/-- The positions are read off the cursors. -/
theorem positions_read (hbatch : Batch padId size rows tokenIds inputLens) (hne : rows ≠ [])
    (hc : c.Native model size) (hof : p.Of c rows) :
    (GptModel.positions tokenIds inputLens (rows.map Prod.fst)).run c = .ok p.positions c := by
  obtain ⟨-, hwidth, hlens, -⟩ := hof.shape hbatch.tokens hne
  unfold GptModel.positions Pass.positions
  rw [hwidth, hof.rows, Pass.rowsOf, List.map_map, List.map_map]
  by_cases hone : p.width = 1
  · rw [if_pos hone, if_pos hone]
    have hread : ∀ b ∈ rows.map Prod.fst, (do
        let pos ← KVCacheType.length (b : Int)
        pure [pos] : KVCacheType.M (Heads F numHeads headDim) (List Nat)).run c
          = .ok [c.cursor b] c := by
      refine List.forall_mem_map.mpr fun row hrow => ?_
      rw [Exec.run_bind_ok (KVCacheType.length_run hc (hbatch.lt row hrow))]
      rfl
    rw [Exec.run_mapM_read hread, List.map_map]
    rfl
  · rw [if_neg hone, if_neg hone]
    rcases hlens with hlens | ⟨-, hw⟩
    · have hread : ∀ row ∈ rows.map fun row => (row.1, row.2.length), (do
          let startPos ← KVCacheType.length ((row.1 : Nat) : Int)
          pure (GptModel.rowPositions p.width row.2 startPos) :
            KVCacheType.M (Heads F numHeads headDim) (List Nat)).run c
            = .ok (GptModel.rowPositions p.width row.2 (c.cursor row.1)) c := by
        refine List.forall_mem_map.mpr fun row hrow => ?_
        rw [Exec.run_bind_ok (KVCacheType.length_run hc (hbatch.lt row hrow))]
        rfl
      rw [hlens]
      simp only
      rw [List.zip_map', Exec.run_mapM_read hread, List.map_map]
      rfl
    · exact absurd hw hone

omit [Field F] [Add X] in
/-- The batch and its positions have one shape. -/
theorem shaped_batch (padId : Nat) (hof : p.Of c rows)
    (hle : ∀ row ∈ rows, row.2.length ≤ p.width) :
    Shaped rows.length p.width (p.tokenIds padId) ∧ Shaped rows.length p.width p.positions := by
  have hlen : p.rows.length = rows.length := by rw [hof.rows, Pass.rowsOf, List.length_map]
  have hle' : ∀ row ∈ p.rows, row.tokens.length ≤ p.width := by
    rw [hof.rows]
    exact List.forall_mem_map.mpr hle
  refine ⟨⟨(List.length_map _).trans hlen, List.forall_mem_map.mpr fun row hrow => ?_⟩, ?_⟩
  · simp [padRow, Nat.sub_add_cancel (hle' row hrow)]
  · unfold Pass.positions
    by_cases hone : p.width = 1
    · rw [if_pos hone]
      exact ⟨(List.length_map _).trans hlen, List.forall_mem_map.mpr fun row _ => hone.symm⟩
    · rw [if_neg hone]
      refine ⟨(List.length_map _).trans hlen, List.forall_mem_map.mpr fun row hrow => ?_⟩
      simp [GptModel.rowPositions, Nat.sub_add_cancel (hle' row hrow)]

omit [Field F] [Add X] in
/-- A row whose positions are all within the context fits. -/
theorem fits_of_positions {contextLength : Nat}
    (hcontext : ∀ positions ∈ p.positions, ∀ q ∈ positions, q < contextLength)
    {row : PassRow (Heads F numHeads headDim)} (hrow : row ∈ p.rows)
    (hle : row.tokens.length ≤ p.width) (htokens : row.tokens.length ≠ 0) :
    row.before.cursor + row.tokens.length ≤ contextLength := by
  unfold Pass.positions at hcontext
  by_cases hone : p.width = 1
  · rw [if_pos hone] at hcontext
    have hlt := hcontext _ (List.mem_map_of_mem hrow) _ List.mem_cons_self
    omega
  · rw [if_neg hone] at hcontext
    -- the last position of the row
    have hlt := hcontext _ (List.mem_map_of_mem hrow)
      (row.before.cursor + (row.tokens.length - 1)) (List.mem_append_right _
        (List.mem_range'_1.mpr ⟨Nat.le_add_right _ _, by omega⟩))
    omega

omit [Field F] in
/-- A batch that is not refused is embedded. -/
theorem embed_of_not_refuses {gpt : GptModel F X Score numHeads headDim}
    (h : ¬gpt.Refuses padId p) : gpt.embed (p.tokenIds padId) p.positions
      = .ok (addStates (atTokens gpt.tokenEmbedding (p.tokenIds padId))
        (atTokens gpt.positionEmbedding p.positions)) := by
  rw [GptModel.Refuses, not_or] at h
  push Not at h
  exact gpt.embed_ok h.1 h.2

omit [Field F] [Add X] in
/-- An embedding that returned has looked every index up. -/
theorem lt_of_embedding {size : Nat} {table : Nat → X} {l : List (List Nat)} {x : List (List X)}
    (h : l.mapM (List.mapM (embedding size table)) = .ok x) : ∀ is ∈ l, ∀ i ∈ is, i < size := by
  intro is his i hi
  obtain ⟨row, hrow⟩ := Exec.ok_of_mapM_ok h is his
  obtain ⟨y, hy⟩ := Exec.ok_of_mapM_ok hrow i hi
  unfold embedding at hy
  split at hy
  · assumption
  · cases hy

omit [Field F] in
/-- A batch that is refused is not embedded. -/
theorem embed_of_refuses {gpt : GptModel F X Score numHeads headDim} (h : gpt.Refuses padId p) :
    ∃ e, gpt.embed (p.tokenIds padId) p.positions = .error e := by
  cases hembed : gpt.embed (p.tokenIds padId) p.positions with
  | error e => exact ⟨e, rfl⟩
  | ok x =>
    obtain ⟨tokens, htokens, hrest⟩ := Exec.bind_eq_ok hembed
    obtain ⟨positions, hpositions, -⟩ := Exec.bind_eq_ok hrest
    rcases h with ⟨row, hrow, t, ht, hle⟩ | ⟨row, hrow, q, hq, hle⟩
    · exact absurd (lt_of_embedding htokens row hrow t ht) (Nat.not_lt.mpr hle)
    · exact absurd (lt_of_embedding hpositions row hrow q hq) (Nat.not_lt.mpr hle)

end

namespace GptModel

variable {model : InferenceModel (Heads F numHeads headDim) Score} {size width : Nat}
  {c : KVCacheType (Heads F numHeads headDim)} {p : Pass (Heads F numHeads headDim)}
  {rows : List (Nat × List Nat)}

variable (gpt : GptModel F X Score numHeads headDim)

variable (math) in
/-- The pass, from the positions on. -/
theorem forwardWithCache_run_eq {padId : Nat} {tokenIds : List (List Nat)}
    {inputLens : Option (List Nat)} (hbatch : Batch padId size rows tokenIds inputLens)
    (hne : rows ≠ []) (hc : c.Native model size) (hof : p.Of c rows) :
    (gpt.forwardWithCache math tokenIds inputLens (rows.map Prod.fst)).run c
      = (do
        let x ← Exec.ofExcept (gpt.embed (p.tokenIds padId) p.positions)
        let x ← forwardBlocks math inputLens (rows.map Prod.fst) 0 gpt.trfBlocks x
        pure (gpt.logits x) : KVCacheType.M (Heads F numHeads headDim) _).run c := by
  rw [forwardWithCache, Exec.run_bind_ok (positions_read hbatch hne hc hof),
    ← (hof.shape hbatch.tokens hne).1]

omit [Field F] [Add X] in
/-- The pool decides about the rows of the batch. -/
theorem decidedAtOnce (hof : p.Of c rows) (hpool : p.PoolDecides) : DecidedAtOnce rows c := by
  rcases hpool with hall | ⟨hexact, row, hrow, hlt⟩
  · rw [hof.shortage_eq] at hall
    exact Or.inl (hall.trans hof.freeBlocks)
  · rw [hof.rows, Pass.rowsOf, List.head?_map] at hrow
    obtain ⟨row', hrow', rfl⟩ := Option.mem_map.mp hrow
    rw [Pass.missing, hof.blockSize, hof.exact hexact] at hlt
    exact Or.inr ⟨row', hrow', hlt⟩

omit [Field F] [Add X] in
variable {gpt} in
/-- There are scores to sample from for every row with tokens. -/
theorem sampled_logits (hhead : ∀ x, gpt.outHead x ≠ []) {x : HiddenStates X}
    (hx : Shaped rows.length width x) (hsolid : ∀ row ∈ rows, row.2.length ≠ 0)
    (hle : ∀ row ∈ rows, row.2.length ≤ width) : Sampled rows (gpt.logits x) := by
  refine ⟨fun row hrow h0 => hsolid row hrow (by rw [h0]; rfl), fun i hi => ?_⟩
  have hlogits := (hx.atTokens gpt.finalNorm).atTokens gpt.outHead
  have hi' : i < (gpt.logits x).length := hlogits.length.symm ▸ hi
  have hwidth : 0 < width :=
    Nat.lt_of_lt_of_le (Nat.pos_of_ne_zero (hsolid _ (List.getElem_mem hi)))
      (hle _ (List.getElem_mem hi))
  have hlen : (gpt.logits x)[i].length = width := hlogits.row _ (List.getElem_mem hi')
  have hne : (gpt.logits x)[i] ≠ [] := List.ne_nil_of_length_pos (hlen ▸ hwidth)
  refine ⟨(gpt.logits x)[i].getLast hne, ?_, ?_⟩
  · rw [lastLogits, List.getElem?_eq_getElem hi']
    exact List.getLast?_eq_some_getLast hne
  · -- the scores of a position are those of the output head
    have hmem := List.getLast_mem hne
    simp only [logits, atTokens, List.getElem_map] at hmem ⊢
    obtain ⟨y, -, hy⟩ := List.mem_map.mp hmem
    rw [← hy]
    exact hhead y

variable (emptyDense : Nat → Nat × Nat → Heads F numHeads headDim)
  (emptyPaged : Nat → Int × Nat → Heads F numHeads headDim) (padId : Nat)

/-- **A harmless pass** moves all cursors of its batch or none. -/
theorem allOrNone (math : ExactMath F) (hlayers : gpt.trfBlocks ≠ [])
    (hhead : ∀ x, gpt.outHead x ≠ []) :
    (gpt.inferenceModel math emptyDense emptyPaged padId).AllOrNone (gpt.Harmless padId)
      (gpt.Stops padId) where
  made := fun _ h => by cases h
  call := by
    intro c size rows tokenIds inputLens p hbatch hne hc hof hharmless
    set model := gpt.inferenceModel math emptyDense emptyPaged padId with hmodel
    obtain ⟨-, -, hlens, hle⟩ := hof.shape hbatch.tokens hne
    obtain ⟨htokens, hshape⟩ := shaped_batch padId hof hle
    have hcall : model.call tokenIds inputLens (rows.map Prod.fst)
        = gpt.forwardWithCache math tokenIds inputLens (rows.map Prod.fst) := rfl
    have hrun_eq := gpt.forwardWithCache_run_eq math hbatch hne hc hof
    rw [hcall, hrun_eq]
    by_cases hrefuses : gpt.Refuses padId p
    · obtain ⟨e, hembed⟩ := embed_of_refuses hrefuses
      have hpad : model.config.padTokenId = padId := rfl
      rw [hpad, hembed]
      exact ⟨hc, rfl⟩
    have hx := (htokens.atTokens gpt.tokenEmbedding).addStates
      (hshape.atTokens gpt.positionEmbedding)
    have hembed := embed_of_not_refuses hrefuses
    have hpad : model.config.padTokenId = padId := rfl
    rw [hpad, hembed, Exec.ofExcept_ok, pure_bind]
    rcases hharmless.resolve_left hrefuses with hnil | ⟨hsolid, hpool⟩
    · -- no row has tokens, so no row has positions
      have hnil : ∀ row ∈ rows, row.2 = [] := hof.forall_rows hnil
      have hzero : p.width = 0 := by
        obtain ⟨row, hrow, hlen⟩ := exists_longest hbatch.tokens hne
        rw [hof.width_eq hbatch.tokens hne, ← hlen, hnil row hrow]
        rfl
      have hstops : ¬gpt.Stops padId p := by
        rintro (hrefused | ⟨hsolid, -⟩)
        · exact hrefuses hrefused
        · obtain ⟨row, hrow⟩ := List.exists_mem_of_ne_nil rows hne
          exact hof.forall_rows hsolid row hrow (hnil row hrow)
      rw [hzero] at hlens hx
      have hkeeps : Exec.Keeps (Unmoved model size c)
          (forwardBlocks math inputLens (rows.map Prod.fst) 0 gpt.trfBlocks _) :=
        forwardBlocks_nil rfl hbatch.lt hlens (Nat.le_of_eq (Nat.zero_add _)) hx
      have hafter := hkeeps c ⟨hc, .refl c, rfl⟩
      unfold Exec.after at hafter
      cases hrun : (forwardBlocks math inputLens (rows.map Prod.fst) 0 gpt.trfBlocks
          (addStates (atTokens gpt.tokenEmbedding (p.tokenIds padId))
            (atTokens gpt.positionEmbedding p.positions))).run c with
      | error e c' =>
        rw [hrun] at hafter
        rw [Exec.run_bind_error hrun]
        exact ⟨hafter.native, hafter.same.cursor_eq⟩
      | ok x' c' =>
        rw [hrun] at hafter
        rw [Exec.run_bind_ok hrun]
        refine ⟨⟨hafter.native, fun row hrow => ?_, hafter.same.mono nofun, ?_, fun row _ => ?_⟩,
          hstops, Or.inr hnil⟩
        · rw [hnil row hrow]
          exact congrFun hafter.same.cursor_eq row.1
        · exact hafter.free.ge.trans (Nat.le_add_right _ _)
        · exact (hafter.same.unrepeated List.not_mem_nil).mpr
    · -- every row has tokens, at positions within the context
      have hcontext : ∀ positions ∈ p.positions, ∀ q ∈ positions, q < gpt.cfg.contextLength := by
        rw [Refuses, not_or] at hrefuses
        push Not at hrefuses
        exact hrefuses.2
      have hsolid' : ∀ row ∈ rows, row.2.length ≠ 0 := fun row hrow h0 =>
        hof.forall_rows hsolid row hrow (List.length_eq_zero_iff.mp h0)
      have hfit : FitRows model size p.width c rows := by
        refine ⟨hbatch.nodup, hbatch.lt, hsolid', hle, fun row hrow => ?_⟩
        have hmem : (⟨c.slot row.1, row.2⟩ : PassRow (Heads F numHeads headDim)) ∈ p.rows := by
          rw [hof.rows]
          exact List.mem_map_of_mem hrow
        exact fits_of_positions hcontext hmem (hle row hrow) (hsolid' row hrow)
      have hdecided : 0 + 1 ≠ model.config.numLayers ∨ DecidedAtOnce rows c := by
        by_cases hone : gpt.trfBlocks.length = 1
        · exact Or.inr (decidedAtOnce hof (hpool hone))
        · exact Or.inl fun h => hone (h.symm.trans (Nat.zero_add 1))
      rcases forwardBlocks_cases math rfl hlens hlayers (Nat.zero_add _) hc hfit hx hdecided
        with ⟨x', c', hrun, hx', hfed, hroom⟩ | ⟨e, c', hrun, hnative, hcursor⟩
      · rw [Exec.run_bind_ok hrun]
        refine ⟨hfed, ?_, Or.inl (sampled_logits hhead hx' hsolid' hle)⟩
        rintro (hrefused | ⟨-, hexact, hlt⟩)
        · exact hrefuses hrefused
        · rw [hof.shortage_eq, hof.exact hexact] at hlt
          omega
      · rw [Exec.run_bind_error hrun]
        exact ⟨hnative, hcursor⟩

end GptModel

end Nifre
