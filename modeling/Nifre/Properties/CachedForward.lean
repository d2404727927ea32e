import Nifre.Properties.CausalForward
import Nifre.Properties.ContinuousBatching

/-!
# The forward over a cache

A batch is left-padded, its rows are in slots of their own, and each slot holds the rows of the
tokens fed to it so far. The forward leaves the rows of the new tokens in the slots, and at the
last positions of a batch row it computes what the forward without a cache computes there.
-/

namespace Nifre

variable {F X Score : Type} [Field F] [Add X] {numHeads headDim : Nat} {math : ExactMath F}

/-! ## Padded rows -/

/-- A row of the given width that ends with `real`. What the padding holds does not matter. -/
def LeftPadded {α : Type} (width : Nat) (real row : List α) : Prop :=
  row.length = width ∧ real <:+ row

namespace LeftPadded

variable {α β γ : Type} {width : Nat} {real row : List α}

theorem map (h : LeftPadded width real row) (f : α → β) :
    LeftPadded width (real.map f) (row.map f) :=
  ⟨(List.length_map f).trans h.1, h.2.map f⟩

theorem zipWith {real' row' : List β} (h : LeftPadded width real row)
    (h' : LeftPadded width real' row') (hlen : real.length = real'.length) (f : α → β → γ) :
    LeftPadded width (List.zipWith f real real') (List.zipWith f row row') := by
  obtain ⟨hw, pad, rfl⟩ := h
  obtain ⟨hw', pad', rfl⟩ := h'
  refine ⟨by rw [List.length_zipWith, hw, hw', Nat.min_self], List.zipWith f pad pad', ?_⟩
  rw [List.zipWith_append]
  rw [List.length_append] at hw hw'
  omega

theorem lastSlice (h : LeftPadded width real row) (hne : real ≠ []) :
    Nifre.lastSlice real.length row = real := by
  obtain ⟨-, pad, rfl⟩ := h
  exact lastSlice_append hne

/-- A row of one token has no padding. -/
theorem eq_of_one (h : LeftPadded 1 real row) (hne : real ≠ []) : row = real := by
  have hlen := List.length_pos_iff.mpr hne
  exact (h.2.eq_of_length (by have := h.2.length_le; rw [h.1] at this ⊢; omega)).symm

end LeftPadded

theorem Attention.leftPadded_padOut {width : Nat} {outRow : List (Heads F numHeads headDim)}
    (h : outRow.length ≤ width) : LeftPadded width outRow (padOut width outRow) :=
  ⟨by simp [padOut, Nat.sub_add_cancel h], _, rfl⟩

/-! ## One row of one layer -/

namespace Attention

omit [Add X] in
/-- **The attention over the past and the new keys** is the full causal one at the new positions,
with the mask or, for a single query, without it. -/
theorem attend_cached (wQuery wKey wValue : X → Heads F numHeads headDim) (past new : List X) :
    attend math (if 1 < new.length then causalMask past.length else fun _ _ => false)
        (new.map wQuery) (past.map wKey ++ new.map wKey) (past.map wValue ++ new.map wValue)
      = fresh (fun x => attend math triu (x.map wQuery) (x.map wKey) (x.map wValue)) past new := by
  refine List.ext_getElem (by simp [fresh]) fun i hi hi' => ?_
  have hlt : i < new.length := by simpa using hi
  have hfull : (fresh (fun x => attend math triu (x.map wQuery) (x.map wKey) (x.map wValue))
        past new)[i]
      = context math (fun _ => false) (wQuery new[i])
          ((past.map wKey ++ new.map wKey).take (past.length + i + 1))
          ((past.map wValue ++ new.map wValue).take (past.length + i + 1)) := by
    simp only [fresh, List.getElem_drop]
    rw [getElem_attend_triu (by simp) (by simp; omega)]
    simp only [List.map_append]
    rw [List.getElem_append_right (by simp)]
    simp
  rw [hfull, getElem_attend _ _ _ _ (by simpa using hlt), List.getElem_map]
  refine context_visible _ (by simp) fun j hj => ?_
  by_cases hone : 1 < new.length
  · rw [if_pos hone]
    exact causalMask_eq past.length i j
  · -- the keys end at the query's own position
    rw [if_neg hone]
    simp only [List.length_append, List.length_map] at hj
    exact (decide_eq_false (by omega)).symm

variable {width : Nat} {c c' : KVCacheType (Heads F numHeads headDim)}

/-- The append of a row to the cache, and the attention over what the slot held before. -/
theorem forwardWithCacheRow_run (math : ExactMath F) {b l : Nat}
    (q : List (Heads F numHeads headDim)) {k v keys values : List (Heads F numHeads headDim)}
    (hget : (KVCacheType.get (b : Int) (l : Int)).run c = .ok (keys, values) c)
    (happend : (KVCacheType.append (b : Int) (l : Int) k v).run c = .ok () c') :
    (forwardWithCacheRow math q k v b l).run c
      = .ok (attend math (if 1 < q.length then causalMask keys.length else fun _ _ => false) q
          (keys ++ k) (values ++ v)) c' := by
  rw [forwardWithCacheRow, Exec.run_bind_ok hget, Exec.run_bind_ok happend]
  rfl

omit [Add X] in
/-- **One row of a batch**: its real part is stored, and attends to what the slot holds. -/
theorem forwardBatchRow_run (math : ExactMath F)
    {wQuery wKey wValue : X → Heads F numHeads headDim} {b l : Nat}
    {inputLen : Option Nat} {past new x : List X} (hx : LeftPadded width new x) (hne : new ≠ [])
    (hlen : inputLen = some new.length ∨ inputLen = none ∧ width = 1)
    (hget : (KVCacheType.get (b : Int) (l : Int)).run c
      = .ok (past.map wKey, past.map wValue) c)
    (happend : (KVCacheType.append (b : Int) (l : Int) (new.map wKey) (new.map wValue)).run c
      = .ok () c') :
    ∃ out, (forwardBatchRow math l ((x.map wQuery, x.map wKey, x.map wValue), b, inputLen)).run c
        = .ok out c' ∧
      LeftPadded width
        (fresh (fun x => attend math triu (x.map wQuery) (x.map wKey) (x.map wValue)) past new)
        out := by
  have hrow := forwardWithCacheRow_run math (new.map wQuery) hget happend
  rw [List.length_map, List.length_map, attend_cached] at hrow
  generalize hcontext :
    fresh (fun x => attend math triu (x.map wQuery) (x.map wKey) (x.map wValue)) past new = out
    at hrow
  have hout : out.length = new.length := by
    rw [← hcontext, (prefixwise_attend wQuery wKey wValue).length_fresh]
  have hpos := List.length_pos_iff.mpr hne
  have hle : new.length ≤ width := hx.1 ▸ hx.2.length_le
  by_cases hone : width = 1
  · -- one position: the row is its real part, with or without a length
    subst hone
    rw [hx.eq_of_one hne]
    refine ⟨out, ?_, by omega, List.suffix_refl _⟩
    have hnot : ¬1 < (new.map wQuery).length := by rw [List.length_map]; omega
    cases inputLen with
    | none => exact hrow
    | some validLen =>
      show (if 1 < (new.map wQuery).length then _ else _ : KVCacheType.M _ _).run c = _
      rw [if_neg hnot]
      exact hrow
  · obtain rfl : inputLen = some new.length := by
      rcases hlen with h | ⟨-, h⟩
      · exact h
      · exact absurd h hone
    have hmany : 1 < (x.map wQuery).length := by rw [List.length_map, hx.1]; omega
    have hslice : ∀ w : X → Heads F numHeads headDim,
        lastSlice new.length (x.map w) = new.map w := by
      intro w
      have h := (hx.map w).lastSlice (by simpa using hne)
      rwa [List.length_map] at h
    refine ⟨padOut width out, ?_, leftPadded_padOut (by omega)⟩
    show (if 1 < (x.map wQuery).length then _ else _ : KVCacheType.M _ _).run c = _
    rw [if_pos hmany, hslice, hslice, hslice, List.length_map, hx.1]
    exact Exec.run_map_ok hrow

end Attention

/-! ## Batches -/

/-- A batch whose rows end with their real parts. -/
def PaddedBatch {α : Type} (width : Nat) (rows : List (Nat × List Nat))
    (real : Nat × List Nat → List α) (x : List (List α)) : Prop :=
  List.Forall₂ (fun row xRow => LeftPadded width (real row) xRow) rows x

namespace PaddedBatch

variable {α β : Type} {width : Nat} {rows : List (Nat × List Nat)}
  {real real' : Nat × List Nat → List α} {x x' : List (List α)}

theorem congr (h : PaddedBatch width rows real x) (heq : ∀ row ∈ rows, real row = real' row) :
    PaddedBatch width rows real' x := by
  induction h with
  | nil => exact .nil
  | cons hrow _ ih =>
    exact .cons (heq _ List.mem_cons_self ▸ hrow)
      (ih fun row hrow => heq row (List.mem_cons_of_mem _ hrow))

theorem atTokens (h : PaddedBatch width rows real x) (f : α → β) :
    PaddedBatch width rows (fun row => (real row).map f) (Nifre.atTokens f x) := by
  induction h with
  | nil => exact .nil
  | cons hrow _ ih => exact .cons (hrow.map f) ih

theorem addStates [Add α] (h : PaddedBatch width rows real x)
    (h' : PaddedBatch width rows real' x')
    (hlen : ∀ row ∈ rows, (real row).length = (real' row).length) :
    PaddedBatch width rows (fun row => List.zipWith (· + ·) (real row) (real' row))
      (Nifre.addStates x x') := by
  induction h generalizing x' with
  | nil => exact .nil
  | cons hrow _ ih =>
    cases h' with
    | cons hrow' hrest' =>
      exact .cons (hrow.zipWith hrow' (hlen _ List.mem_cons_self) _)
        (ih hrest' fun row hrow => hlen row (List.mem_cons_of_mem _ hrow))

end PaddedBatch

namespace TransformerBlock

variable (block : TransformerBlock F X numHeads headDim) {width : Nat}
  {rows : List (Nat × List Nat)} {past new : Nat × List Nat → List X} {x : HiddenStates X}

theorem fresh_attentionRow (past new : List X) : fresh (block.attentionRow math) past new
    = List.zipWith (· + ·)
      ((fresh (fun x => Attention.attend math Attention.triu
        (x.map fun t => block.att.wQuery (block.norm1 t))
        (x.map fun t => block.att.wKey (block.norm1 t))
        (x.map fun t => block.att.wValue (block.norm1 t))) past new).map block.att.outProj)
      new := by
  have h := fresh_zipWith (fun x => (Attention.attend math Attention.triu
    (x.map fun t => block.att.wQuery (block.norm1 t))
    (x.map fun t => block.att.wKey (block.norm1 t))
    (x.map fun t => block.att.wValue (block.norm1 t))).map block.att.outProj)
    (fun x => x) (· + ·) past new
  rw [fresh_map, fresh_id] at h
  exact h

omit [Field F] in
theorem fresh_feedForwardRow (past new : List X) :
    fresh block.feedForwardRow past new = block.feedForwardRow new := by
  have h := fresh_zipWith (fun x => x.map fun t => block.ff (block.norm2 t)) (fun x => x) (· + ·)
    past new
  rw [fresh_map (fun x => x), fresh_id] at h
  exact h

omit [Field F] in
/-- The second half of a block works token by token. -/
theorem paddedBatch_feedForward (h : PaddedBatch width rows new x) :
    PaddedBatch width rows (fun row => block.feedForwardRow (new row)) (block.feedForward x) := by
  refine (((h.atTokens _).atTokens _).addStates h fun row _ => by simp).congr fun row _ => ?_
  simp [feedForwardRow, Function.comp_def]

/-- The states after a block, from the contexts of its attention. -/
theorem paddedBatch_block {context : Attention.Batched F numHeads headDim}
    (hx : PaddedBatch width rows new x)
    (hcontext : PaddedBatch width rows
      (fun row => fresh (fun x => Attention.attend math Attention.triu
        (x.map fun t => block.att.wQuery (block.norm1 t))
        (x.map fun t => block.att.wKey (block.norm1 t))
        (x.map fun t => block.att.wValue (block.norm1 t))) (past row) (new row)) context) :
    PaddedBatch width rows (fun row => fresh (block.forwardRow math) (past row) (new row))
      (block.feedForward (addStates (atTokens block.att.outProj context) x)) := by
  have hadd := (hcontext.atTokens block.att.outProj).addStates hx fun row _ => by
    rw [List.length_map, (Attention.prefixwise_attend _ _ _).length_fresh]
  refine (block.paddedBatch_feedForward hadd).congr fun row _ => ?_
  show _ = fresh (fun x => block.feedForwardRow (block.attentionRow math x)) (past row) (new row)
  rw [fresh_comp (block.prefixwise_attentionRow math), fresh_feedForwardRow, fresh_attentionRow]

end TransformerBlock

/-! ## A layer -/

/-- The slots of a batch hold the rows of their tokens, and `new` are the rows of the new ones. -/
structure Feeds (math : ExactMath F) (gpt : GptModel F X Score numHeads headDim)
    (held : Nat → List Nat) (s : KVStore (Heads F numHeads headDim))
    (new : Nat → Nat → List (Heads F numHeads headDim × Heads F numHeads headDim))
    (rows : List (Nat × List Nat)) : Prop where
  nodup : (rows.map Prod.fst).Nodup
  tokens : ∀ row ∈ rows, row.2 ≠ []
  len : ∀ row ∈ rows, s.len row.1 = (held row.1).length
  stored : ∀ row ∈ rows, ∀ l < gpt.trfBlocks.length, s.rows row.1 l = gpt.kvRows math l (held row.1)
  new_eq : ∀ row ∈ rows, ∀ l < gpt.trfBlocks.length,
    new row.1 l = fresh (gpt.kvRows math l) (held row.1) row.2
  fits : ∀ row ∈ rows, (held row.1).length + row.2.length ≤ gpt.cfg.contextLength

section

variable {gpt : GptModel F X Score numHeads headDim} {held : Nat → List Nat}
  {s : KVStore (Heads F numHeads headDim)}
  {new : Nat → Nat → List (Heads F numHeads headDim × Heads F numHeads headDim)}
  {config : ModelConfig} {c : KVCacheType (Heads F numHeads headDim)} {width : Nat}

theorem Feeds.tail {row : Nat × List Nat} {rows : List (Nat × List Nat)}
    (h : Feeds math gpt held s new (row :: rows)) : Feeds math gpt held s new rows where
  nodup := (List.nodup_cons.mp h.nodup).2
  tokens := fun row' hrow => h.tokens row' (List.mem_cons_of_mem row hrow)
  len := fun row' hrow => h.len row' (List.mem_cons_of_mem row hrow)
  stored := fun row' hrow => h.stored row' (List.mem_cons_of_mem row hrow)
  new_eq := fun row' hrow => h.new_eq row' (List.mem_cons_of_mem row hrow)
  fits := fun row' hrow => h.fits row' (List.mem_cons_of_mem row hrow)

/-- The round of the new rows can be appended. -/
theorem Feeds.takes {rows : List (Nat × List Nat)} (h : Feeds math gpt held s new rows)
    (hlayers : config.numLayers = gpt.trfBlocks.length)
    (hmax : config.maxSeqLen = gpt.cfg.contextLength) (hpos : 0 < gpt.trfBlocks.length) :
    KVCacheType.Takes config s new (fun b => (new b 0).length) (rows.map Prod.fst) := by
  have hmem : ∀ b ∈ rows.map Prod.fst, ∃ tokens, (b, tokens) ∈ rows := by
    intro b hb
    obtain ⟨row, hrow, rfl⟩ := List.mem_map.mp hb
    exact ⟨row.2, hrow⟩
  have hnew : ∀ row ∈ rows, ∀ l < gpt.trfBlocks.length, (new row.1 l).length = row.2.length := by
    intro row hrow l hl
    rw [h.new_eq row hrow l hl, (gpt.prefixwise_kvRows math hl).length_fresh]
  refine ⟨h.nodup, fun b hb l hl => ?_, fun b hb l hl => ?_, fun b hb => ?_⟩
  all_goals obtain ⟨tokens, hrow⟩ := hmem b hb
  · rw [hlayers] at hl
    rw [hnew _ hrow l hl, hnew _ hrow 0 hpos]
  · rw [hlayers] at hl
    rw [h.stored _ hrow l hl, (gpt.prefixwise_kvRows math hl).length, h.len _ hrow]
  · rw [hmax, h.len _ hrow, hnew _ hrow 0 hpos]
    exact h.fits _ hrow

/-- What a slot of the batch reads at the layer that is next. -/
theorem Feeds.get_run {rows : List (Nat × List Nat)} (h : Feeds math gpt held s new rows)
    (hlayers : config.numLayers = gpt.trfBlocks.length) {n done : Nat → Nat} {l : Nat}
    (hl : l < gpt.trfBlocks.length)
    (hc : c.Stores config (s.withRound config.numLayers new n done)) {row : Nat × List Nat}
    (hrow : row ∈ rows) (hlt : row.1 < c.batchSize) (hdone : done row.1 = l) :
    (KVCacheType.get (row.1 : Int) (l : Int)).run c
      = .ok ((gpt.kvRows math l (held row.1)).map Prod.fst,
          (gpt.kvRows math l (held row.1)).map Prod.snd) c := by
  have hne : l ≠ config.numLayers := by omega
  have hget : (s.withRound config.numLayers new n done).get row.1 l
      = gpt.kvRows math l (held row.1) := by
    simp only [KVStore.get, KVStore.withRound, hdone, Nat.lt_irrefl, if_false, if_neg hne]
    rw [h.stored row hrow l hl, h.len row hrow, ← (gpt.prefixwise_kvRows math hl).length,
      List.take_length]
  rw [KVCacheType.get_stores hc hlt (by omega), hget]

/-- **The attention of a layer** appends to each slot of the batch, and computes the contexts of
the plain forward. -/
theorem attention_run {block : TransformerBlock F X numHeads headDim} {l : Nat}
    (hblock : gpt.trfBlocks[l]? = some block) (hlayers : config.numLayers = gpt.trfBlocks.length)
    (hmax : config.maxSeqLen = gpt.cfg.contextLength) {inputLen : Nat × List Nat → Option Nat}
    (hlen : ∀ row, inputLen row = some row.2.length ∨ inputLen row = none ∧ width = 1)
    {rows : List (Nat × List Nat)} {x : HiddenStates X} (hx : PaddedBatch width rows
      (fun row => fresh (gpt.hidden math l) (held row.1) row.2) x) :
    ∀ {c : KVCacheType (Heads F numHeads headDim)} {done : Nat → Nat},
    Feeds math gpt held s new rows →
    c.Stores config (s.withRound config.numLayers new (fun b => (new b 0).length) done) →
    (∀ row ∈ rows, row.1 < c.batchSize) → (∀ row ∈ rows, done row.1 = l) →
    ∃ out c', ((List.zipWith (fun row xRow =>
          ((xRow.map fun t => block.att.wQuery (block.norm1 t),
            xRow.map fun t => block.att.wKey (block.norm1 t),
            xRow.map fun t => block.att.wValue (block.norm1 t)), row.1, inputLen row))
          rows x).mapM (Attention.forwardBatchRow math l)).run c = .ok out c' ∧
      (KVCacheType.appendLayer new (rows.map Prod.fst) l).run c = .ok () c' ∧
      PaddedBatch width rows (fun row => fresh (fun x => Attention.attend math Attention.triu
        (x.map fun t => block.att.wQuery (block.norm1 t))
        (x.map fun t => block.att.wKey (block.norm1 t))
        (x.map fun t => block.att.wValue (block.norm1 t)))
          (gpt.hidden math l (held row.1)) (fresh (gpt.hidden math l) (held row.1) row.2)) out := by
  have hl : l < gpt.trfBlocks.length := (List.getElem?_eq_some_iff.mp hblock).1
  have hkv := gpt.kvRows_of_getElem? math hblock
  induction hx with
  | nil => exact fun _ _ _ _ => ⟨[], _, rfl, rfl, .nil⟩
  | @cons row xRow rows x hxRow hrest ih =>
    intro c done hfeeds hc hlt hdone
    have hmem : row ∈ row :: rows := List.mem_cons_self
    have htakes := hfeeds.takes hlayers hmax (Nat.zero_lt_of_lt hl)
    -- the row's own part of the layer
    have hget := hfeeds.get_run hlayers hl hc hmem (hlt row hmem) (hdone row hmem)
    obtain ⟨c₁, happend, hc₁, hsize⟩ := KVCacheType.append_withRound hc (hlt row hmem)
      (by omega) htakes List.mem_cons_self (hdone row hmem)
    rw [hfeeds.new_eq row hmem l hl] at happend
    simp only [hkv, TransformerBlock.keysValues, List.map_map, Function.comp_def] at hget
    rw [hkv] at happend
    simp only [TransformerBlock.keysValues] at happend
    rw [fresh_map, List.map_map, List.map_map] at happend
    have hne : fresh (gpt.hidden math l) (held row.1) row.2 ≠ [] := by
      rw [← List.length_pos_iff, (gpt.prefixwise_hidden math l).length_fresh]
      exact List.length_pos_iff.mpr (hfeeds.tokens row hmem)
    have hlenRow : inputLen row = some (fresh (gpt.hidden math l) (held row.1) row.2).length ∨
        inputLen row = none ∧ width = 1 := by
      rw [(gpt.prefixwise_hidden math l).length_fresh]
      exact hlen row
    obtain ⟨out₁, hrun₁, hout₁⟩ := Attention.forwardBatchRow_run math hxRow hne hlenRow
      hget happend
    -- the other rows
    have hnotMem := (List.nodup_cons.mp hfeeds.nodup).1
    obtain ⟨out₂, c₂, hrun₂, happend₂, hout₂⟩ := ih hfeeds.tail hc₁
      (fun row' hrow' => hsize ▸ hlt row' (List.mem_cons_of_mem row hrow')) fun row' hrow' => by
        have hother : row'.1 ≠ row.1 := by
          intro he
          exact hnotMem (he ▸ List.mem_map.mpr ⟨row', hrow', rfl⟩)
        rw [Function.update_of_ne hother]
        exact hdone row' (List.mem_cons_of_mem row hrow')
    refine ⟨out₁ :: out₂, c₂, ?_, ?_, .cons hout₁ hout₂⟩
    · rw [List.zipWith_cons_cons, List.mapM_cons, Exec.run_bind_ok hrun₁, Exec.run_bind_ok hrun₂]
      rfl
    · rw [List.map_cons, KVCacheType.appendLayer, List.forM_cons, hfeeds.new_eq row hmem l hl, hkv]
      simp only [TransformerBlock.keysValues]
      rw [fresh_map, List.map_map, List.map_map, Exec.run_bind_ok happend]
      exact happend₂

/-! ## The blocks -/

/-- The real lengths of the rows, or none when every row is a single token. -/
def LensOf (width : Nat) (rows : List (Nat × List Nat)) (inputLens : Option (List Nat)) : Prop :=
  inputLens = some (rows.map fun row => row.2.length) ∨ inputLens = none ∧ width = 1

theorem LensOf.rowInfo {rows : List (Nat × List Nat)} {inputLens : Option (List Nat)}
    (h : LensOf width rows inputLens) : Attention.rowInfo inputLens (rows.map Prod.fst)
      = rows.map fun row => (row.1, inputLens.map fun _ => row.2.length) := by
  rcases h with rfl | ⟨rfl, -⟩
  · simp only [Attention.rowInfo, List.map_map, List.zip_map', Function.comp_def, Option.map_some]
  · simp only [Attention.rowInfo, List.map_map, Function.comp_def, Option.map_none]

theorem LensOf.row {rows : List (Nat × List Nat)} {inputLens : Option (List Nat)}
    (h : LensOf width rows inputLens) (row : Nat × List Nat) :
    (inputLens.map fun _ => row.2.length) = some row.2.length ∨
      (inputLens.map fun _ => row.2.length) = none ∧ width = 1 := by
  rcases h with rfl | ⟨rfl, hw⟩
  · exact Or.inl rfl
  · exact Or.inr ⟨rfl, hw⟩

omit [Field F] [Add X] in
/-- The rows that the attention of a block works on. -/
theorem zip_atTokens (block : TransformerBlock F X numHeads headDim) {γ : Type}
    (info : Nat × List Nat → γ) : ∀ (rows : List (Nat × List Nat)) (x : HiddenStates X),
    ((atTokens block.att.wQuery (atTokens block.norm1 x)).zip
        ((atTokens block.att.wKey (atTokens block.norm1 x)).zip
          (atTokens block.att.wValue (atTokens block.norm1 x)))).zip (rows.map info)
      = List.zipWith (fun row xRow =>
          ((xRow.map fun t => block.att.wQuery (block.norm1 t),
            xRow.map fun t => block.att.wKey (block.norm1 t),
            xRow.map fun t => block.att.wValue (block.norm1 t)), info row)) rows x
  | [], _ => by simp
  | _ :: _, [] => by simp [atTokens]
  | row :: rows, xRow :: x => by
    have ih := zip_atTokens block info rows x
    simp only [atTokens, List.map_cons, List.zip_cons_cons, List.zipWith_cons_cons, List.map_map,
      Function.comp_def] at ih ⊢
    rw [ih]

/-- **One block**: the cache gets the layer's rows, and the states at the real positions are those
of the plain forward. -/
theorem block_run {block : TransformerBlock F X numHeads headDim} {l : Nat}
    (hblock : gpt.trfBlocks[l]? = some block) (hlayers : config.numLayers = gpt.trfBlocks.length)
    (hmax : config.maxSeqLen = gpt.cfg.contextLength) {rows : List (Nat × List Nat)}
    {inputLens : Option (List Nat)} (hlens : LensOf width rows inputLens) {x : HiddenStates X}
    (hx : PaddedBatch width rows (fun row => fresh (gpt.hidden math l) (held row.1) row.2) x)
    (hfeeds : Feeds math gpt held s new rows) {done : Nat → Nat}
    (hc : c.Stores config (s.withRound config.numLayers new (fun b => (new b 0).length) done))
    (hlt : ∀ row ∈ rows, row.1 < c.batchSize) (hdone : ∀ row ∈ rows, done row.1 = l) :
    ∃ x' c', (block.forwardWithCache math x l inputLens (rows.map Prod.fst)).run c = .ok x' c' ∧
      (KVCacheType.appendLayer new (rows.map Prod.fst) l).run c = .ok () c' ∧
      PaddedBatch width rows
        (fun row => fresh (gpt.hidden math (l + 1)) (held row.1) row.2) x' := by
  obtain ⟨context, c', hrun, happend, hcontext⟩ := attention_run hblock hlayers hmax hlens.row hx
    hfeeds hc hlt hdone
  have hattention : (Attention.forward math none
      (atTokens block.att.wQuery (atTokens block.norm1 x))
      (atTokens block.att.wKey (atTokens block.norm1 x))
      (atTokens block.att.wValue (atTokens block.norm1 x)) (some l) inputLens
      (rows.map Prod.fst)).run c = .ok context c' := by
    unfold Attention.forward Attention.forwardWithCache
    rw [hlens.rowInfo, zip_atTokens]
    exact hrun
  have hatt : (block.att.forwardWithCache math (atTokens block.norm1 x) l inputLens
      (rows.map Prod.fst)).run c = .ok (atTokens block.att.outProj context) c' := by
    rw [GptAttention.forwardWithCache, Exec.run_bind_ok hattention]
    rfl
  refine ⟨block.feedForward (addStates (atTokens block.att.outProj context) x), c', ?_, happend,
    (block.paddedBatch_block hx hcontext).congr fun row _ => ?_⟩
  · rw [TransformerBlock.forwardWithCache, Exec.run_bind_ok hatt]
    rfl
  · rw [gpt.hidden_succ math hblock, fresh_comp (gpt.prefixwise_hidden math l)]

/-- **All blocks from a layer on** append the rest of the round. -/
theorem forwardBlocks_run (hlayers : config.numLayers = gpt.trfBlocks.length)
    (hmax : config.maxSeqLen = gpt.cfg.contextLength) {rows : List (Nat × List Nat)}
    {inputLens : Option (List Nat)} (hlens : LensOf width rows inputLens)
    (hfeeds : Feeds math gpt held s new rows) :
    ∀ {blocks : List (TransformerBlock F X numHeads headDim)} {l : Nat} {x : HiddenStates X}
      {c : KVCacheType (Heads F numHeads headDim)}, gpt.trfBlocks.drop l = blocks →
    PaddedBatch width rows (fun row => fresh (gpt.hidden math l) (held row.1) row.2) x →
    c.Stores config (s.withRound config.numLayers new (fun b => (new b 0).length)
      fun b => if b ∈ rows.map Prod.fst then l else 0) →
    (∀ row ∈ rows, row.1 < c.batchSize) →
    ∃ x' c', (GptModel.forwardBlocks math inputLens (rows.map Prod.fst) l blocks x).run c
        = .ok x' c' ∧
      (forM (List.range' l blocks.length) (KVCacheType.appendLayer new (rows.map Prod.fst))).run c
        = .ok () c' ∧
      PaddedBatch width rows
        (fun row => fresh (gpt.hidden math (l + blocks.length)) (held row.1) row.2) x' := by
  intro blocks
  induction blocks with
  | nil => exact fun _ hx _ _ => ⟨_, _, rfl, rfl, hx⟩
  | cons block blocks ih =>
    intro l x c hdrop hx hc hlt
    have hl : l < gpt.trfBlocks.length := by
      by_contra hge
      rw [List.drop_eq_nil_of_le (Nat.le_of_not_lt hge)] at hdrop
      cases hdrop
    have hcons := List.drop_eq_getElem_cons hl
    rw [hdrop] at hcons
    obtain ⟨rfl, hrest⟩ := List.cons.inj hcons
    have hslot : ∀ row ∈ rows, row.1 ∈ rows.map Prod.fst :=
      fun row hrow => List.mem_map.mpr ⟨row, hrow, rfl⟩
    obtain ⟨x₁, c₁, hrun₁, happend₁, hx₁⟩ := block_run (List.getElem?_eq_getElem hl) hlayers hmax
      hlens hx hfeeds hc hlt fun row hrow => if_pos (hslot row hrow)
    -- the cache after the layer stores one layer more of the round
    obtain ⟨c₂, happend₂, hc₂, hsize⟩ := KVCacheType.appendLayer_run (by omega)
      (hfeeds.takes hlayers hmax (Nat.zero_lt_of_lt hl)) hc (fun b hb => by
        obtain ⟨row, hrow, rfl⟩ := List.mem_map.mp hb
        exact hlt row hrow) fun b hb => if_pos hb
    rw [happend₁] at happend₂
    cases happend₂
    have hdone : (fun b => if b ∈ rows.map Prod.fst then l + 1
          else if b ∈ rows.map Prod.fst then l else 0)
        = fun b => if b ∈ rows.map Prod.fst then l + 1 else 0 := by
      funext b
      split <;> rfl
    rw [hdone] at hc₂
    obtain ⟨x', c', hrun, happend, hx'⟩ := ih hrest.symm hx₁ hc₂
      fun row hrow => hsize ▸ hlt row hrow
    refine ⟨x', c', ?_, ?_, ?_⟩
    · rw [GptModel.forwardBlocks, Exec.run_bind_ok hrun₁]
      exact hrun
    · rw [List.length_cons, List.range'_succ, List.forM_cons, Exec.run_bind_ok happend₁]
      exact happend
    · rw [List.length_cons, ← Nat.add_assoc, Nat.add_right_comm]
      exact hx'

/-! ## The whole forward -/

omit [Field F] [Add X] in
/-- What a batch looks like: rows of one width. -/
theorem BatchOf.shape {padId : Nat} {rows : List (Nat × List Nat)} {tokenIds : List (List Nat)}
    {inputLens : Option (List Nat)} (h : BatchOf padId rows tokenIds inputLens) (hne : rows ≠ []) :
    ∃ width, tokenIds = rows.map (fun row => padRow padId width row.2) ∧
      seqLen tokenIds = width ∧ LensOf width rows inputLens ∧
      ∀ row ∈ rows, row.2.length ≤ width := by
  have hwidth : ∀ {width}, (∀ row ∈ rows, row.2.length ≤ width) →
      seqLen (rows.map fun row => padRow padId width row.2) = width := by
    intro width hle
    obtain ⟨row, rest, rfl⟩ := List.exists_cons_of_ne_nil hne
    have := hle row List.mem_cons_self
    simp only [seqLen, List.map_cons, List.head?_cons, Option.map_some, Option.getD_some, padRow,
      List.length_append, List.length_replicate]
    omega
  cases h with
  | @padded _ _ inputLens hb =>
    unfold batchTokenIds at hb
    split at hb
    · cases hb
    · next maxLen hmax =>
      cases hb
      have hle : ∀ row ∈ rows, row.2.length ≤ maxLen := by
        intro row hrow
        refine (List.max?_eq_some_iff.mp hmax).2 _ ?_
        rw [List.map_map]
        exact List.mem_map.mpr ⟨row, hrow, rfl⟩
      rw [List.map_map, List.map_map]
      exact ⟨maxLen, rfl, hwidth hle, Or.inl rfl, hle⟩
  | single rows =>
    have hle : ∀ row ∈ rows.map fun row => (row.1, [row.2]), row.2.length ≤ 1 := by
      intro row hrow
      obtain ⟨row', -, rfl⟩ := List.mem_map.mp hrow
      exact Nat.le_refl 1
    have heq : rows.map (fun row => [row.2])
        = (rows.map fun row => (row.1, [row.2])).map fun row => padRow padId 1 row.2 := by
      rw [List.map_map]
      rfl
    rw [heq]
    exact ⟨1, rfl, hwidth hle, Or.inr ⟨rfl, rfl⟩, hle⟩

omit [Field F] [Add X] in
/-- The positions of the real tokens go on from the cursors. -/
theorem positions_of_lengths {rows : List (Nat × List Nat)} {tokenIds : List (List Nat)}
    {inputLens : Option (List Nat)} (hwidth : seqLen tokenIds = width)
    (hlens : LensOf width rows inputLens) (htokens : ∀ row ∈ rows, row.2 ≠ [])
    (hle : ∀ row ∈ rows, row.2.length ≤ width) (hlength : ∀ row ∈ rows,
      (KVCacheType.length (row.1 : Int)).run c = .ok (held row.1).length c) :
    (GptModel.positions tokenIds inputLens (rows.map Prod.fst)).run c
      = .ok (rows.map fun row =>
          GptModel.rowPositions width row.2.length (held row.1).length) c := by
  unfold GptModel.positions
  by_cases hone : width = 1
  · subst hone
    -- rows of one token are at the cursors
    have hsingle : (rows.map fun row =>
          GptModel.rowPositions 1 row.2.length (held row.1).length)
        = (rows.map Prod.fst).map fun b => [(held b).length] := by
      rw [List.map_map]
      refine List.map_congr_left fun row hrow => ?_
      have hpos := List.length_pos_iff.mpr (htokens row hrow)
      obtain hlen : row.2.length = 1 := by have := hle row hrow; omega
      rw [hlen]
      rfl
    rw [if_pos hwidth, hsingle]
    refine Exec.run_mapM_read fun b hb => ?_
    obtain ⟨row, hrow, rfl⟩ := List.mem_map.mp hb
    rw [Exec.run_bind_ok (hlength row hrow)]
    rfl
  · obtain rfl : inputLens = some (rows.map fun row => row.2.length) := by
      rcases hlens with h | ⟨-, h⟩
      · exact h
      · exact absurd h hone
    -- padded rows end at the cursor plus the real length
    have hzip : (rows.map Prod.fst).zip (rows.map fun row => row.2.length)
        = rows.map fun row => (row.1, row.2.length) := List.zip_map'
    rw [if_neg (hwidth ▸ hone), hwidth]
    simp only [hzip]
    have hread : ∀ info : Nat × Nat, info ∈ rows.map (fun row => (row.1, row.2.length)) →
        (do
          let startPos ← KVCacheType.length (info.1 : Int)
          pure (GptModel.rowPositions width info.2 startPos) :
            KVCacheType.M (Heads F numHeads headDim) (List Nat)).run c
          = .ok (GptModel.rowPositions width info.2 (held info.1).length) c := by
      intro info hinfo
      obtain ⟨row, hrow, rfl⟩ := List.mem_map.mp hinfo
      rw [Exec.run_bind_ok (hlength row hrow)]
      rfl
    rw [Exec.run_mapM_read hread, List.map_map]
    rfl

/-- **The positions of the real tokens** go on where the slot ended. -/
theorem positions_run {rows : List (Nat × List Nat)} {tokenIds : List (List Nat)}
    {inputLens : Option (List Nat)} (hwidth : seqLen tokenIds = width)
    (hlens : LensOf width rows inputLens) (hfeeds : Feeds math gpt held s new rows)
    (hle : ∀ row ∈ rows, row.2.length ≤ width) (hc : c.Stores config s)
    (hlt : ∀ row ∈ rows, row.1 < c.batchSize) :
    (GptModel.positions tokenIds inputLens (rows.map Prod.fst)).run c
      = .ok (rows.map fun row =>
          GptModel.rowPositions width row.2.length (held row.1).length) c := by
  refine positions_of_lengths hwidth hlens hfeeds.tokens hle fun row hrow => ?_
  rw [KVCacheType.length_stores hc (hlt row hrow), hfeeds.len row hrow]

omit [Field F] in
/-- The embedding goes on where the slot ended. -/
theorem fresh_embedRow (past new : List Nat) : fresh gpt.embedRow past new
    = List.zipWith (· + ·) (new.map gpt.tokenEmbedding)
        ((List.range' past.length new.length).map gpt.positionEmbedding) := by
  refine List.ext_getElem (by simp [fresh, GptModel.embedRow]) fun i hi hi' => ?_
  simp [fresh, GptModel.embedRow, List.getElem_append_right]

omit [Field F] in
/-- The embedding of rows that fit. -/
theorem embed_rows {padId : Nat} {rows : List (Nat × List Nat)}
    (htokens : ∀ row ∈ rows, row.2 ≠ [])
    (hfits : ∀ row ∈ rows, (held row.1).length + row.2.length ≤ gpt.cfg.contextLength)
    (hle : ∀ row ∈ rows, row.2.length ≤ width)
    (hvocab : ∀ tokens ∈ rows.map (fun row => padRow padId width row.2), ∀ t ∈ tokens,
      t < gpt.cfg.vocabSize) :
    ∃ x, gpt.embed (rows.map fun row => padRow padId width row.2)
        (rows.map fun row => GptModel.rowPositions width row.2.length (held row.1).length)
          = .ok x ∧
      PaddedBatch width rows (fun row => fresh gpt.embedRow (held row.1) row.2) x := by
  have hcontext : ∀ positions ∈ rows.map (fun row =>
      GptModel.rowPositions width row.2.length (held row.1).length), ∀ p ∈ positions,
      p < gpt.cfg.contextLength := by
    intro positions hpositions p hp
    obtain ⟨row, hrow, rfl⟩ := List.mem_map.mp hpositions
    have hpos := List.length_pos_iff.mpr (htokens row hrow)
    have hfit := hfits row hrow
    rcases List.mem_append.mp hp with hp | hp
    · obtain ⟨-, rfl⟩ := List.mem_replicate.mp hp
      omega
    · have := (List.mem_range'_1.mp hp).2
      omega
  refine ⟨_, gpt.embed_ok hvocab hcontext, ?_⟩
  have hpadded : ∀ {α : Type} (real row : Nat × List Nat → List α),
      (∀ r ∈ rows, LeftPadded width (real r) (row r)) →
      PaddedBatch width rows real (rows.map row) := by
    intro α real row h
    exact List.forall₂_map_right_iff.mpr (List.forall₂_same.mpr h)
  have hids : PaddedBatch width rows (fun row => row.2)
      (rows.map fun row => padRow padId width row.2) :=
    hpadded _ _ fun row hrow =>
      ⟨by simp [padRow, Nat.sub_add_cancel (hle row hrow)], _, rfl⟩
  have hpositions : PaddedBatch width rows
      (fun row => List.range' (held row.1).length row.2.length)
      (rows.map fun row => GptModel.rowPositions width row.2.length (held row.1).length) :=
    hpadded _ _ fun row hrow =>
      ⟨by simp [GptModel.rowPositions, Nat.sub_add_cancel (hle row hrow)], _, rfl⟩
  refine ((hids.atTokens gpt.tokenEmbedding).addStates
    (hpositions.atTokens gpt.positionEmbedding) fun row _ => by simp).congr fun row _ => ?_
  exact (fresh_embedRow _ _).symm

theorem embed_run {padId : Nat} {rows : List (Nat × List Nat)}
    (hfeeds : Feeds math gpt held s new rows) (hle : ∀ row ∈ rows, row.2.length ≤ width)
    (hvocab : ∀ tokens ∈ rows.map (fun row => padRow padId width row.2), ∀ t ∈ tokens,
      t < gpt.cfg.vocabSize) :
    ∃ x, gpt.embed (rows.map fun row => padRow padId width row.2)
        (rows.map fun row => GptModel.rowPositions width row.2.length (held row.1).length)
          = .ok x ∧
      PaddedBatch width rows (fun row => fresh gpt.embedRow (held row.1) row.2) x :=
  embed_rows hfeeds.tokens hfeeds.fits hle hvocab

/-- **The forward over a cache** appends the round of the new rows, and its logits at the real
positions are those of the plain forward. -/
theorem forwardWithCache_run (hlayers : config.numLayers = gpt.trfBlocks.length)
    (hmax : config.maxSeqLen = gpt.cfg.contextLength) (hpos : 0 < gpt.trfBlocks.length)
    {rows : List (Nat × List Nat)} (hne : rows ≠ []) {padId : Nat} {tokenIds : List (List Nat)}
    {inputLens : Option (List Nat)} (hbatch : BatchOf padId rows tokenIds inputLens)
    (hfeeds : Feeds math gpt held s new rows)
    (hvocab : ∀ tokens ∈ tokenIds, ∀ t ∈ tokens, t < gpt.cfg.vocabSize)
    (hc : c.Stores config s) (hlt : ∀ row ∈ rows, row.1 < c.batchSize) :
    ∃ out c' width, (gpt.forwardWithCache math tokenIds inputLens (rows.map Prod.fst)).run c
        = .ok out c' ∧
      (KVCacheType.appendRound config.numLayers new (rows.map Prod.fst)).run c = .ok () c' ∧
      PaddedBatch width rows (fun row => fresh (gpt.rowLogits math) (held row.1) row.2) out := by
  obtain ⟨width, rfl, hwidth, hlens, hle⟩ := hbatch.shape hne
  have hpositions := positions_run hwidth hlens hfeeds hle hc hlt
  obtain ⟨x, hembed, hx⟩ := embed_run hfeeds hle hvocab
  have hc₀ : c.Stores config (s.withRound config.numLayers new (fun b => (new b 0).length)
      fun b => if b ∈ rows.map Prod.fst then 0 else 0) := by
    have hzero : (fun b => if b ∈ rows.map Prod.fst then 0 else 0) = fun _ => 0 := by
      funext b
      split <;> rfl
    rw [hzero, KVStore.withRound_zero (by omega)]
    exact hc
  obtain ⟨x', c', hrun, happend, hx'⟩ := forwardBlocks_run hlayers hmax hlens hfeeds
    (List.drop_zero) hx hc₀ hlt
  refine ⟨gpt.logits x', c', width, ?_, ?_, ?_⟩
  · rw [GptModel.forwardWithCache, Exec.run_bind_ok hpositions, hembed, Exec.ofExcept_ok,
      pure_bind, Exec.run_bind_ok hrun]
    rfl
  · rw [KVCacheType.appendRound, hlayers, List.range_eq_range']
    exact happend
  · rw [Nat.zero_add] at hx'
    refine ((hx'.atTokens gpt.finalNorm).atTokens gpt.outHead).congr fun row _ => ?_
    rw [List.map_map, ← fresh_map]
    rfl

end

end Nifre
