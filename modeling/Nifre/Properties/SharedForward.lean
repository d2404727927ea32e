import Nifre.Properties.GptServed
import Nifre.Properties.PrefixHit
import Nifre.Properties.GptCursors
import Nifre.Properties.PrefixReuse

/-!
# A forward pass over shared blocks

With prefix caching on, the slots of a paged cache share blocks with each other and with the prefix
cache, and the pool may run out in the middle of a pass. Where the GPT model's pass over such a
cache returns, it has stored the rows of the new tokens, and its logits are those of the plain
forward.

* `PagedKVCache.append_passing` — an append in the middle of a pass
* `GptModel.forwardWithCache_shared` — the whole pass
-/

namespace Nifre

open Digest

/-! ## Rows of prefixes -/

/-- A function that reads only the past, position by position. -/
theorem Prefixwise.eq_prefixRows {α β : Type} {f : List α → List β} (hf : Prefixwise f) (d : β)
    (xs : List α) : f xs = prefixRows (fun ys => (f ys).getLastD d) xs := by
  refine List.ext_getElem (by rw [hf.length, length_prefixRows]) fun p hp hp' => ?_
  rw [getElem_prefixRows]
  have hne : f (xs.take (p + 1)) ≠ [] := by
    rw [← List.length_pos_iff, hf.length, List.length_take]
    rw [hf.length] at hp
    omega
  rw [List.getLastD_eq_getLast?, List.getLast?_eq_some_getLast hne, Option.getD_some,
    List.getLast_eq_getElem]
  have hlen : (List.take (p + 1) (f xs)).length - 1 = p := by
    rw [List.length_take]
    omega
  simp only [← hf.take xs (p + 1), hlen, List.getElem_take]

/-! ## Slots in the middle of a pass -/

namespace PagedKVCache

variable {Row : Type} {chain : Int → List Nat → Int} {kvOf : Nat → List Nat → Row × Row}
  {P : Set (List (List Nat))} {numLayers : Nat} {held chunk : Nat → List Nat} {done : Nat → Nat}

/-- A slot that stores `stored`, with `chunk` in its first `done` layers. -/
def passLife (numLayers : Nat) (stored chunk : List Nat) (done : Nat) : Life Nat :=
  if done = 0 then ⟨[], stored, none⟩
  else if done = numLayers then ⟨[], stored ++ chunk, none⟩
  else ⟨[], stored, some (chunk, done)⟩

theorem passLife_stored (stored chunk : List Nat) {l : Nat} (hl : l < numLayers) :
    (passLife numLayers stored chunk l).stored = stored := by
  unfold passLife
  split
  · rfl
  · rw [if_neg (by omega)]

theorem passLife_next (stored chunk : List Nat) {l : Nat} (hl : l < numLayers) :
    (passLife numLayers stored chunk l).Next chunk l := by
  unfold passLife
  split
  · exact ⟨by assumption, fun h => absurd h (Nat.not_lt_zero _)⟩
  · rw [if_neg (by omega)]
    exact ⟨rfl, rfl⟩

/-- The next layer of the chunk. -/
theorem passLife_appended (stored chunk : List Nat) {l : Nat} (hl : l < numLayers) :
    (passLife numLayers stored chunk l).appended numLayers chunk l
      = passLife numLayers stored chunk (l + 1) := by
  have hprompt : (passLife numLayers stored chunk l).prompt = [] := by
    unfold passLife
    split
    · rfl
    · split <;> rfl
  unfold Life.appended
  rw [passLife_stored stored chunk hl, hprompt]
  by_cases hlast : l + 1 = numLayers
  · rw [if_pos hlast, passLife, if_neg (Nat.succ_ne_zero l), if_pos hlast]
  · rw [if_neg hlast, passLife, if_neg (Nat.succ_ne_zero l), if_neg hlast]

/-- The slots of a pass, where slot `b` has `chunk b` in its first `done b` layers. -/
def passLives (numLayers : Nat) (held chunk : Nat → List Nat) (done : Nat → Nat) (b : Nat) :
    Option (Life Nat) :=
  some (passLife numLayers (held b) (chunk b) (done b))

theorem update_passLives (b l : Nat) : Function.update (passLives numLayers held chunk done) b
      (some (passLife numLayers (held b) (chunk b) l))
    = passLives numLayers held chunk (Function.update done b l) := by
  funext i
  by_cases hib : i = b
  · subst hib
    simp [passLives]
  · simp [passLives, hib]

variable {p p' : PagedKVCache Nat Row} {b l : Nat}

/-- What a slot reads at a layer that does not have the chunk yet. -/
theorem get_passing (h : Inv chain kvOf P ⟨p, passLives p.numLayers held chunk done⟩)
    (hb : b < p.batchSize) (hdone : done b = l) (hl : l < p.numLayers) :
    (get (b : Int) (l : Int)).run p = .ok ((prefixRows (kvOf l) (held b)).map Prod.fst,
      (prefixRows (kvOf l) (held b)).map Prod.snd) p := by
  obtain ⟨-, hslot⟩ := h.slots b hb
  rw [hdone] at hslot
  have hrows : Life.rows kvOf (passLife p.numLayers (held b) (chunk b) l) l
      = prefixRows (kvOf l) (held b) := by
    rw [Life.rows, (passLife_next (held b) (chunk b) hl).held, passLife_stored _ _ hl]
  rw [get_slotStores h.sound.accounted.blockSize_pos hslot hb hl, hrows,
    passLife_stored _ _ hl, List.take_of_length_le (by rw [length_prefixRows])]

/-- Slots that store their tokens, with no prompt to continue. -/
def holding (held : Nat → List Nat) (b : Nat) : Option (Life Nat) := some ⟨[], held b, none⟩

theorem passLives_zero : passLives numLayers held chunk (fun _ => 0) = holding held := rfl

theorem length_passing (h : Inv chain kvOf P ⟨p, passLives p.numLayers held chunk done⟩)
    (hb : b < p.batchSize) (hdone : done b < p.numLayers) :
    (length (b : Int)).run p = .ok (held b).length p := by
  obtain ⟨-, hslot⟩ := h.slots b hb
  rw [length_run hb, hslot.pos, passLife_stored _ _ hdone]

/-- **An append in the middle of a pass** that returns: its slot has the chunk in one layer more. -/
theorem append_passing (hash : CollisionFree chain PrefixCache.rootHash P)
    (h : Inv chain kvOf P ⟨p, passLives p.numLayers held chunk done⟩)
    (hb : b < p.batchSize) (hdone : done b = l) (hl : l < p.numLayers)
    (hrun : (append (b : Int) (l : Int) ((chunkRows (kvOf l) (held b) (chunk b)).map Prod.fst)
      ((chunkRows (kvOf l) (held b) (chunk b)).map Prod.snd)).run p = .ok () p') :
    Inv chain kvOf P ⟨p', passLives p'.numLayers held chunk (Function.update done b (l + 1))⟩ ∧
      SameShape p p' := by
  have hlife : passLives p.numLayers held chunk done b
      = some (passLife p.numLayers (held b) (chunk b) l) := by rw [passLives, hdone]
  obtain ⟨hinv, hshape⟩ := append_keeps h hash hb hl hlife (passLife_next (held b) (chunk b) hl)
  have hstep : System.step chain kvOf ⟨p, passLives p.numLayers held chunk done⟩
      (.append b (chunk b) l)
      = ⟨p', passLives p.numLayers held chunk (Function.update done b (l + 1))⟩ := by
    simp only [System.step, hlife, passLife_stored (held b) (chunk b) hl, hrun,
      passLife_appended (held b) (chunk b) hl, update_passLives]
  rw [hstep] at hinv hshape
  have hlayers : p'.numLayers = p.numLayers := hshape.numLayers
  rw [hlayers]
  exact ⟨hinv, hshape⟩

end PagedKVCache

/-! ## A row -/

variable {F X Score : Type} [Field F] [Add X] {numHeads headDim : Nat} {math : ExactMath F}

namespace Attention

variable {width : Nat} {c c' : KVCacheType (Heads F numHeads headDim)}

omit [Add X] in
variable (math) in
/-- A row of a batch is computed from its real part. -/
theorem forwardBatchRow_eq (wQuery wKey wValue : X → Heads F numHeads headDim) (b l : Nat)
    {inputLen : Option Nat} {new x : List X} (hx : LeftPadded width new x) (hne : new ≠ [])
    (hlen : inputLen = some new.length ∨ inputLen = none ∧ width = 1) :
    ∃ pad, forwardBatchRow math l ((x.map wQuery, x.map wKey, x.map wValue), b, inputLen)
      = pad <$> forwardWithCacheRow math (new.map wQuery) (new.map wKey) (new.map wValue) b l := by
  by_cases hone : width = 1
  · subst hone
    have hnot : ¬1 < (x.map wQuery).length := by rw [List.length_map, hx.1]; omega
    refine ⟨id, ?_⟩
    rw [id_map, ← hx.eq_of_one hne]
    cases inputLen with
    | none => rfl
    | some validLen => exact if_neg hnot
  · obtain rfl : inputLen = some new.length := by
      rcases hlen with h | ⟨-, h⟩
      · exact h
      · exact absurd h hone
    have hmany : 1 < (x.map wQuery).length := by
      have := List.length_pos_iff.mpr hne
      have := hx.2.length_le
      rw [List.length_map]
      rw [hx.1] at this ⊢
      omega
    have hslice : ∀ w : X → Heads F numHeads headDim,
        lastSlice new.length (x.map w) = new.map w := by
      intro w
      have h := (hx.map w).lastSlice (by simpa using hne)
      rwa [List.length_map] at h
    refine ⟨padOut (x.map wQuery).length, (if_pos hmany).trans ?_⟩
    rw [hslice, hslice, hslice]

omit [Add X] in
/-- **A row that was computed was appended.** -/
theorem append_of_forwardBatchRow {wQuery wKey wValue : X → Heads F numHeads headDim} {b l : Nat}
    {inputLen : Option Nat} {new x : List X} (hx : LeftPadded width new x) (hne : new ≠ [])
    (hlen : inputLen = some new.length ∨ inputLen = none ∧ width = 1)
    {past : List (Heads F numHeads headDim) × List (Heads F numHeads headDim)}
    (hget : (KVCacheType.get (b : Int) (l : Int)).run c = .ok past c)
    {out : List (Heads F numHeads headDim)}
    (hrun : (forwardBatchRow math l ((x.map wQuery, x.map wKey, x.map wValue), b, inputLen)).run c
      = .ok out c') :
    (KVCacheType.append (b : Int) (l : Int) (new.map wKey) (new.map wValue)).run c
      = .ok () c' := by
  obtain ⟨pad, hpad⟩ := forwardBatchRow_eq math wQuery wKey wValue b l hx hne hlen
  rw [hpad, ← bind_pure_comp] at hrun
  obtain ⟨row, c₁, hrow, hpure⟩ := Exec.run_bind_eq_ok hrun
  rw [forwardWithCacheRow, Exec.run_bind_ok hget] at hrow
  obtain ⟨u, c₂, happend, hattend⟩ := Exec.run_bind_eq_ok hrow
  cases hattend
  cases hpure
  exact happend

end Attention

/-! ## The rows of the GPT model -/

namespace GptModel

variable (gpt : GptModel F X Score numHeads headDim) (math)

/-- The key and value of the last token of a list, at layer `l`. -/
def rowOf (l : Nat) (tokens : List Nat) : Heads F numHeads headDim × Heads F numHeads headDim :=
  (gpt.kvRows math l tokens).getLastD (fun _ _ => 0, fun _ _ => 0)

theorem prefixRows_rowOf {l : Nat} (hl : l < gpt.trfBlocks.length) (tokens : List Nat) :
    prefixRows (gpt.rowOf math l) tokens = gpt.kvRows math l tokens :=
  (Prefixwise.eq_prefixRows (gpt.prefixwise_kvRows math hl) _ tokens).symm

theorem chunkRows_rowOf {l : Nat} (hl : l < gpt.trfBlocks.length) (stored chunk : List Nat) :
    chunkRows (gpt.rowOf math l) stored chunk = fresh (gpt.kvRows math l) stored chunk := by
  have h := prefixRows_append (gpt.rowOf math l) stored chunk
  rw [gpt.prefixRows_rowOf math hl, gpt.prefixRows_rowOf math hl,
    (gpt.prefixwise_kvRows math hl).append] at h
  exact (List.append_cancel_left h).symm

end GptModel

/-! ## A layer -/

section

open PagedKVCache (Inv SameShape passLives)

variable {gpt : GptModel F X Score numHeads headDim} {chain : Int → List Nat → Int}
  {P : Set (List (List Nat))} {held chunk : Nat → List Nat} {width : Nat}

/-- A batch of rows in a pass that has come to layer `l`. -/
structure InPass (batchSize : Nat) (chunk : Nat → List Nat) (done : Nat → Nat) (l : Nat)
    (rows : List (Nat × List Nat)) : Prop where
  nodup : (rows.map Prod.fst).Nodup
  slot_lt : ∀ row ∈ rows, row.1 < batchSize
  tokens : ∀ row ∈ rows, row.2 ≠ []
  chunk_eq : ∀ row ∈ rows, chunk row.1 = row.2
  done_eq : ∀ row ∈ rows, done row.1 = l

/-- The first row of the batch is through its layer. -/
theorem InPass.tail {batchSize : Nat} {done : Nat → Nat} {l : Nat} {row : Nat × List Nat}
    {rows : List (Nat × List Nat)} (h : InPass batchSize chunk done l (row :: rows)) :
    InPass batchSize chunk (Function.update done row.1 (l + 1)) l rows where
  nodup := (List.nodup_cons.mp h.nodup).2
  slot_lt := fun row' hrow => h.slot_lt row' (List.mem_cons_of_mem row hrow)
  tokens := fun row' hrow => h.tokens row' (List.mem_cons_of_mem row hrow)
  chunk_eq := fun row' hrow => h.chunk_eq row' (List.mem_cons_of_mem row hrow)
  done_eq := by
    intro row' hrow
    have hother : row'.1 ≠ row.1 := by
      intro he
      exact (List.nodup_cons.mp h.nodup).1 (he ▸ List.mem_map.mpr ⟨row', hrow, rfl⟩)
    rw [Function.update_of_ne hother]
    exact h.done_eq row' (List.mem_cons_of_mem row hrow)

/-- The slots of a batch have one layer more. -/
def layerDone (rows : List (Nat × List Nat)) (l : Nat) (done : Nat → Nat) (b : Nat) : Nat :=
  if b ∈ rows.map Prod.fst then l + 1 else done b

theorem layerDone_update (row : Nat × List Nat) (rows : List (Nat × List Nat)) (l : Nat)
    (done : Nat → Nat) : layerDone rows l (Function.update done row.1 (l + 1))
      = layerDone (row :: rows) l done := by
  funext b
  by_cases hb : b = row.1
  · subst hb
    simp [layerDone]
  · simp only [layerDone, Function.update_of_ne hb, List.map_cons, List.mem_cons, hb, false_or]

/-- **The attention of a layer**, where it returns, has appended to each slot of the batch and
computed the contexts of the plain forward. -/
theorem attention_shared (hash : CollisionFree chain PrefixCache.rootHash P)
    {block : TransformerBlock F X numHeads headDim} {l : Nat}
    (hblock : gpt.trfBlocks[l]? = some block) {inputLen : Nat × List Nat → Option Nat}
    (hlen : ∀ row, inputLen row = some row.2.length ∨ inputLen row = none ∧ width = 1)
    {rows : List (Nat × List Nat)} {x : HiddenStates X} (hx : PaddedBatch width rows
      (fun row => fresh (gpt.hidden math l) (held row.1) row.2) x) :
    ∀ {p : PagedKVCache Nat (Heads F numHeads headDim)} {done : Nat → Nat}
      {out : Attention.Batched F numHeads headDim} {c' : KVCacheType (Heads F numHeads headDim)},
    Inv chain (gpt.rowOf math) P ⟨p, passLives p.numLayers held chunk done⟩ →
    p.numLayers = gpt.trfBlocks.length → InPass p.batchSize chunk done l rows →
    ((List.zipWith (fun row xRow =>
          ((xRow.map fun t => block.att.wQuery (block.norm1 t),
            xRow.map fun t => block.att.wKey (block.norm1 t),
            xRow.map fun t => block.att.wValue (block.norm1 t)), row.1, inputLen row))
          rows x).mapM (Attention.forwardBatchRow math l)).run (.paged p) = .ok out c' →
    ∃ p', c' = .paged p' ∧ SameShape p p' ∧
      Inv chain (gpt.rowOf math) P
        ⟨p', passLives p'.numLayers held chunk (layerDone rows l done)⟩ ∧
      PaddedBatch width rows (fun row => fresh (fun x => Attention.attend math Attention.triu
        (x.map fun t => block.att.wQuery (block.norm1 t))
        (x.map fun t => block.att.wKey (block.norm1 t))
        (x.map fun t => block.att.wValue (block.norm1 t)))
          (gpt.hidden math l (held row.1)) (fresh (gpt.hidden math l) (held row.1) row.2)) out := by
  have hl : l < gpt.trfBlocks.length := (List.getElem?_eq_some_iff.mp hblock).1
  have hkv := gpt.kvRows_of_getElem? math hblock
  induction hx with
  | nil =>
    intro p done out c' hinv _ _ hrun
    cases hrun
    exact ⟨p, rfl, SameShape.refl p, hinv, .nil⟩
  | @cons row xRow rows x hxRow hrest ih =>
    intro p done out c' hinv hlayers hpass hrun
    have hmem : row ∈ row :: rows := List.mem_cons_self
    have hlp : l < p.numLayers := hlayers ▸ hl
    rw [List.zipWith_cons_cons, List.mapM_cons] at hrun
    obtain ⟨out₁, c₁, hrun₁, hrun⟩ := Exec.run_bind_eq_ok hrun
    obtain ⟨out₂, c₂, hrun₂, hpure⟩ := Exec.run_bind_eq_ok hrun
    cases hpure
    -- the row's own part of the layer
    have hget : (KVCacheType.get (row.1 : Int) (l : Int)).run (.paged p)
        = .ok ((gpt.kvRows math l (held row.1)).map Prod.fst,
          (gpt.kvRows math l (held row.1)).map Prod.snd) (.paged p) := by
      have h := PagedKVCache.get_passing hinv (hpass.slot_lt row hmem) (hpass.done_eq row hmem) hlp
      rw [gpt.prefixRows_rowOf math hl] at h
      exact congrArg (Exec.embed KVCacheType.paged) h
    simp only [hkv, TransformerBlock.keysValues, List.map_map, Function.comp_def] at hget
    have hne : fresh (gpt.hidden math l) (held row.1) row.2 ≠ [] := by
      rw [← List.length_pos_iff, (gpt.prefixwise_hidden math l).length_fresh]
      exact List.length_pos_iff.mpr (hpass.tokens row hmem)
    have hlenRow : inputLen row = some (fresh (gpt.hidden math l) (held row.1) row.2).length ∨
        inputLen row = none ∧ width = 1 := by
      rw [(gpt.prefixwise_hidden math l).length_fresh]
      exact hlen row
    have happend := Attention.append_of_forwardBatchRow hxRow hne hlenRow hget hrun₁
    obtain ⟨out', hout', hpadded⟩ :=
      Attention.forwardBatchRow_run math hxRow hne hlenRow hget happend
    cases hrun₁.symm.trans hout'
    -- the append stays in the paged cache
    obtain ⟨p₁, rfl, happend₁⟩ : ∃ p₁, c₁ = .paged p₁ ∧
        (PagedKVCache.append (row.1 : Int) (l : Int)
          ((chunkRows (gpt.rowOf math l) (held row.1) (chunk row.1)).map Prod.fst)
          ((chunkRows (gpt.rowOf math l) (held row.1) (chunk row.1)).map Prod.snd)).run p
          = .ok () p₁ := by
      rw [hpass.chunk_eq row hmem, gpt.chunkRows_rowOf math hl, hkv]
      simp only [TransformerBlock.keysValues]
      rw [fresh_map, List.map_map, List.map_map]
      obtain ⟨p₁, hp₁, rfl⟩ := KVCacheType.embed_eq_ok happend
      exact ⟨p₁, rfl, hp₁⟩
    obtain ⟨hinv₁, hshape₁⟩ := PagedKVCache.append_passing hash hinv (hpass.slot_lt row hmem)
      (hpass.done_eq row hmem) hlp happend₁
    have hpass₁ : InPass p₁.batchSize chunk (Function.update done row.1 (l + 1)) l rows :=
      hshape₁.batchSize ▸ hpass.tail
    obtain ⟨p₂, hc₂, hshape₂, hinv₂, hout₂⟩ :=
      ih hinv₁ (hshape₁.numLayers.trans hlayers) hpass₁ hrun₂
    refine ⟨p₂, hc₂, hshape₁.trans hshape₂, ?_, .cons hpadded hout₂⟩
    rwa [layerDone_update] at hinv₂

/-! ## The blocks -/

/-- **One block**, where it returns. -/
theorem block_shared (hash : CollisionFree chain PrefixCache.rootHash P)
    {block : TransformerBlock F X numHeads headDim} {l : Nat}
    (hblock : gpt.trfBlocks[l]? = some block) {rows : List (Nat × List Nat)}
    {inputLens : Option (List Nat)} (hlens : LensOf width rows inputLens) {x x' : HiddenStates X}
    (hx : PaddedBatch width rows (fun row => fresh (gpt.hidden math l) (held row.1) row.2) x)
    {p : PagedKVCache Nat (Heads F numHeads headDim)} {done : Nat → Nat}
    {c' : KVCacheType (Heads F numHeads headDim)}
    (hinv : Inv chain (gpt.rowOf math) P ⟨p, passLives p.numLayers held chunk done⟩)
    (hlayers : p.numLayers = gpt.trfBlocks.length) (hpass : InPass p.batchSize chunk done l rows)
    (hrun : (block.forwardWithCache math x l inputLens (rows.map Prod.fst)).run (.paged p)
      = .ok x' c') :
    ∃ p', c' = .paged p' ∧ SameShape p p' ∧
      Inv chain (gpt.rowOf math) P
        ⟨p', passLives p'.numLayers held chunk (layerDone rows l done)⟩ ∧
      PaddedBatch width rows
        (fun row => fresh (gpt.hidden math (l + 1)) (held row.1) row.2) x' := by
  unfold TransformerBlock.forwardWithCache at hrun
  obtain ⟨att, c₁, hatt, hpure⟩ := Exec.run_bind_eq_ok hrun
  cases hpure
  unfold GptAttention.forwardWithCache at hatt
  obtain ⟨context, c₂, hcontext, hpure⟩ := Exec.run_bind_eq_ok hatt
  cases hpure
  unfold Attention.forward Attention.forwardWithCache at hcontext
  rw [hlens.rowInfo, zip_atTokens] at hcontext
  obtain ⟨p', hp', hshape, hinv', hout⟩ :=
    attention_shared hash hblock hlens.row hx hinv hlayers hpass hcontext
  refine ⟨p', hp', hshape, hinv', (block.paddedBatch_block hx hout).congr fun row _ => ?_⟩
  rw [gpt.hidden_succ math hblock, fresh_comp (gpt.prefixwise_hidden math l)]

/-- The slots of a batch after `l` layers of a pass. -/
def doneAt (rows : List (Nat × List Nat)) (l b : Nat) : Nat :=
  if b ∈ rows.map Prod.fst then l else 0

theorem layerDone_doneAt (rows : List (Nat × List Nat)) (l : Nat) :
    layerDone rows l (doneAt rows l) = doneAt rows (l + 1) := by
  funext b
  unfold layerDone doneAt
  split <;> rfl

theorem inPass_doneAt {batchSize l : Nat} {rows : List (Nat × List Nat)}
    (hpass : InPass batchSize chunk (doneAt rows l) l rows) :
    InPass batchSize chunk (doneAt rows (l + 1)) (l + 1) rows :=
  { hpass with done_eq := fun row hrow => if_pos (List.mem_map.mpr ⟨row, hrow, rfl⟩) }

/-- **All blocks from a layer on**, where they return. -/
theorem forwardBlocks_shared (hash : CollisionFree chain PrefixCache.rootHash P)
    {rows : List (Nat × List Nat)} {inputLens : Option (List Nat)}
    (hlens : LensOf width rows inputLens) :
    ∀ {blocks : List (TransformerBlock F X numHeads headDim)} {l : Nat} {x x' : HiddenStates X}
      {p : PagedKVCache Nat (Heads F numHeads headDim)}
      {c' : KVCacheType (Heads F numHeads headDim)}, gpt.trfBlocks.drop l = blocks →
    PaddedBatch width rows (fun row => fresh (gpt.hidden math l) (held row.1) row.2) x →
    Inv chain (gpt.rowOf math) P ⟨p, passLives p.numLayers held chunk (doneAt rows l)⟩ →
    p.numLayers = gpt.trfBlocks.length → InPass p.batchSize chunk (doneAt rows l) l rows →
    (GptModel.forwardBlocks math inputLens (rows.map Prod.fst) l blocks x).run (.paged p)
      = .ok x' c' →
    ∃ p', c' = .paged p' ∧ SameShape p p' ∧
      Inv chain (gpt.rowOf math) P
        ⟨p', passLives p'.numLayers held chunk (doneAt rows (l + blocks.length))⟩ ∧
      PaddedBatch width rows
        (fun row => fresh (gpt.hidden math (l + blocks.length)) (held row.1) row.2) x' := by
  intro blocks
  induction blocks with
  | nil =>
    intro l x x' p c' _ hx hinv _ _ hrun
    cases hrun
    exact ⟨p, rfl, SameShape.refl p, hinv, hx⟩
  | cons block blocks ih =>
    intro l x x' p c' hdrop hx hinv hlayers hpass hrun
    have hl : l < gpt.trfBlocks.length := by
      by_contra hge
      rw [List.drop_eq_nil_of_le (Nat.le_of_not_lt hge)] at hdrop
      cases hdrop
    have hcons := List.drop_eq_getElem_cons hl
    rw [hdrop] at hcons
    obtain ⟨rfl, hrest⟩ := List.cons.inj hcons
    rw [GptModel.forwardBlocks] at hrun
    obtain ⟨x₁, c₁, hrun₁, hrun₂⟩ := Exec.run_bind_eq_ok hrun
    obtain ⟨p₁, rfl, hshape₁, hinv₁, hx₁⟩ :=
      block_shared hash (List.getElem?_eq_getElem hl) hlens hx hinv hlayers hpass hrun₁
    rw [layerDone_doneAt] at hinv₁
    obtain ⟨p₂, hp₂, hshape₂, hinv₂, hx₂⟩ := ih hrest.symm hx₁ hinv₁
      (hshape₁.numLayers.trans hlayers) (hshape₁.batchSize ▸ inPass_doneAt hpass) hrun₂
    rw [List.length_cons, ← Nat.add_assoc, Nat.add_right_comm]
    exact ⟨p₂, hp₂, hshape₁.trans hshape₂, hinv₂, hx₂⟩

/-! ## The whole forward -/

/-- After all layers the slots of the batch store their chunks. -/
theorem passLives_done {numLayers : Nat} (hpos : 0 < numLayers) {rows : List (Nat × List Nat)}
    (hnd : (rows.map Prod.fst).Nodup) (hchunk : ∀ row ∈ rows, chunk row.1 = row.2) :
    passLives numLayers held chunk (doneAt rows numLayers)
      = PagedKVCache.holding (feed held rows) := by
  funext b
  unfold passLives PagedKVCache.passLife PagedKVCache.holding doneAt
  by_cases hb : b ∈ rows.map Prod.fst
  · obtain ⟨row, hrow, rfl⟩ := List.mem_map.mp hb
    rw [if_pos hb, if_neg (Nat.ne_of_gt hpos), if_pos rfl, hchunk row hrow,
      feed_of_mem hnd hrow]
  · rw [if_neg hb, if_pos rfl, feed_of_notMem hb]

/-- **A forward over shared blocks** that returns has stored the new tokens' rows, and its logits
at the real positions are those of the plain forward. -/
theorem GptModel.forwardWithCache_shared (hash : CollisionFree chain PrefixCache.rootHash P)
    (hpos : 0 < gpt.trfBlocks.length) {rows : List (Nat × List Nat)} {padId : Nat}
    {tokenIds : List (List Nat)} {inputLens : Option (List Nat)}
    (hbatch : BatchOf padId rows tokenIds inputLens)
    {p : PagedKVCache Nat (Heads F numHeads headDim)}
    (hinv : Inv chain (gpt.rowOf math) P ⟨p, PagedKVCache.holding held⟩)
    (hlayers : p.numLayers = gpt.trfBlocks.length)
    (hfits : FitsIn p.batchSize gpt.cfg.contextLength held rows) {out : Logits Score}
    {c' : KVCacheType (Heads F numHeads headDim)}
    (hrun : (gpt.forwardWithCache math tokenIds inputLens (rows.map Prod.fst)).run (.paged p)
      = .ok out c') :
    ∃ p' width, c' = .paged p' ∧ SameShape p p' ∧
      Inv chain (gpt.rowOf math) P ⟨p', PagedKVCache.holding (feed held rows)⟩ ∧
      PaddedBatch width rows (fun row => fresh (gpt.rowLogits math) (held row.1) row.2) out := by
  obtain ⟨width, rfl, hwidth, hlens, hle⟩ := hbatch.shape hfits.ne_nil
  set chunk : Nat → List Nat := fun b => (feed held rows b).drop (held b).length with hchunkDef
  have hchunk : ∀ row ∈ rows, chunk row.1 = row.2 := by
    intro row hrow
    simp only [hchunkDef, feed_of_mem hfits.nodup hrow, List.drop_left]
  have hpass : InPass p.batchSize chunk (doneAt rows 0) 0 rows :=
    ⟨hfits.nodup, hfits.slot_lt, hfits.tokens, hchunk, fun _ _ => ite_self 0⟩
  have hzero : doneAt rows 0 = fun _ => 0 := funext fun _ => ite_self 0
  rw [← PagedKVCache.passLives_zero, ← hzero] at hinv
  -- the cursors do not change before the first append
  have hlength : ∀ row ∈ rows, (KVCacheType.length (row.1 : Int)).run (.paged p)
      = .ok (held row.1).length (.paged p) := by
    intro row hrow
    refine congrArg (Exec.embed KVCacheType.paged)
      (PagedKVCache.length_passing hinv (hfits.slot_lt row hrow) ?_)
    rw [hzero, hlayers]
    exact hpos
  rw [GptModel.forwardWithCache, Exec.run_bind_ok
    (positions_of_lengths hwidth hlens hfits.tokens hle hlength)] at hrun
  obtain ⟨x, c₁, hrun₀, hrun⟩ := Exec.run_bind_eq_ok hrun
  obtain ⟨hembed, rfl⟩ := Exec.ofExcept_eq_ok hrun₀
  obtain ⟨x', c₂, hblocks, hpure⟩ := Exec.run_bind_eq_ok hrun
  cases hpure
  -- tokens outside the vocabulary would have been refused
  obtain ⟨tokens, htokens, -⟩ := Exec.bind_eq_ok hembed
  obtain ⟨x₀, hembed₀, hx⟩ := embed_rows hfits.tokens hfits.fits hle (lt_of_embedding htokens)
  cases hembed.symm.trans hembed₀
  obtain ⟨p', hp', hshape, hinv', hx'⟩ := forwardBlocks_shared hash hlens (List.drop_zero) hx hinv
    hlayers hpass hblocks
  rw [Nat.zero_add] at hinv' hx'
  have hlayers' : p'.numLayers = gpt.trfBlocks.length := hshape.numLayers.trans hlayers
  rw [hlayers', passLives_done hpos hfits.nodup hchunk] at hinv'
  refine ⟨p', width, hp', hshape, hinv',
    ((hx'.atTokens gpt.finalNorm).atTokens gpt.outHead).congr fun row _ => ?_⟩
  rw [List.map_map, ← fresh_map]
  rfl

end

end Nifre
