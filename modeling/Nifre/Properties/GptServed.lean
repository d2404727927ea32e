import Nifre.Properties.ForwardRuns
import Nifre.Properties.RunUntilDone

/-!
# The GPT model is served

The GPT model raises on a token outside its vocabulary. With a vocabulary that grows with the batch
it knows every token, samples each row from its own tokens, and does the same on known tokens.

* `GptModel.agreesOn` — on the tokens of the vocabulary
* `GptModel.backend` — the model with a vocabulary that grows
* `GptModel.nextToken_lt` — sampling stays in the vocabulary
-/

namespace Nifre

variable {F X Score : Type} [Field F] [Add X] {numHeads headDim : Nat} {math : ExactMath F}

namespace GptModel

variable (gpt : GptModel F X Score numHeads headDim)

/-- The model with a vocabulary of `size` tokens. -/
def withVocab (size : Nat) : GptModel F X Score numHeads headDim :=
  { gpt with cfg := { gpt.cfg with vocabSize := size } }

/-- The forward pass with a vocabulary that has all tokens of the batch. -/
def unboundedCall (math : ExactMath F) (tokenIds : List (List Nat)) (inputLens : Option (List Nat))
    (cacheBatchIndices : List Nat) : KVCacheType.M (Heads F numHeads headDim) (Logits Score) :=
  (gpt.withVocab (tokenIds.flatten.sum + 1)).forwardWithCache math tokenIds inputLens
    cacheBatchIndices

/-- The scores after a list of tokens. -/
def nextScores (math : ExactMath F) (tokens : List Nat) : List Score :=
  ((gpt.rowLogits math tokens).getLast?).getD (gpt.outHead (gpt.finalNorm (gpt.tokenEmbedding 0)))

/-- The scores are those of some hidden row. -/
theorem exists_nextScores (math : ExactMath F) (tokens : List Nat) :
    ∃ x, gpt.nextScores math tokens = gpt.outHead x := by
  unfold nextScores rowLogits
  rw [List.getLast?_map]
  cases (gpt.hidden math gpt.trfBlocks.length tokens).getLast? with
  | none => exact ⟨_, rfl⟩
  | some x => exact ⟨_, rfl⟩

omit [Field F] in
theorem embed_withVocab {inIdx positions : List (List Nat)} {size : Nat}
    (h : ∀ row ∈ inIdx, ∀ t ∈ row, t < gpt.cfg.vocabSize)
    (h' : ∀ row ∈ inIdx, ∀ t ∈ row, t < size) :
    (gpt.withVocab size).embed inIdx positions = gpt.embed inIdx positions := by
  have htokens : ∀ n, (∀ row ∈ inIdx, ∀ t ∈ row, t < n) →
      inIdx.mapM (List.mapM (embedding n gpt.tokenEmbedding))
        = (.ok (inIdx.map (List.map gpt.tokenEmbedding)) : Except PyError _) :=
    fun n hn => Exec.mapM_ok fun row hrow => Exec.mapM_ok fun t ht => if_pos (hn row hrow t ht)
  unfold embed
  rw [htokens _ h, show inIdx.mapM (List.mapM (embedding (gpt.withVocab size).cfg.vocabSize
    (gpt.withVocab size).tokenEmbedding)) = _ from htokens _ h']
  rfl

/-- A larger vocabulary makes no difference to the tokens that were in it. -/
theorem unboundedCall_eq {tokenIds : List (List Nat)}
    (h : ∀ row ∈ tokenIds, ∀ t ∈ row, t < gpt.cfg.vocabSize) (inputLens : Option (List Nat))
    (slots : List Nat) : gpt.unboundedCall math tokenIds inputLens slots
      = gpt.forwardWithCache math tokenIds inputLens slots := by
  have hsum : ∀ row ∈ tokenIds, ∀ t ∈ row, t < tokenIds.flatten.sum + 1 := fun row hrow t ht =>
    Nat.lt_succ_of_le (List.le_sum_of_mem (List.mem_flatten.mpr ⟨row, hrow, ht⟩))
  unfold unboundedCall forwardWithCache
  refine bind_congr fun positions => ?_
  rw [gpt.embed_withVocab h hsum]
  rfl

/-- **On the tokens of the vocabulary** a larger vocabulary makes no difference. -/
theorem agreesOn {emptyDense : Nat → Nat × Nat → Heads F numHeads headDim}
    {emptyPaged : Nat → Int × Nat → Heads F numHeads headDim} {padId : Nat}
    (hpad : padId < gpt.cfg.vocabSize) :
    (gpt.inferenceModel math emptyDense emptyPaged padId).AgreesOn (· < gpt.cfg.vocabSize)
      (gpt.unboundedCall math) where
  padToken := hpad
  call := fun _ inputLens slots h => (gpt.unboundedCall_eq h inputLens slots).symm

variable {gpt}

theorem kvRows_nil (l : Nat) : gpt.kvRows math l [] = [] := by
  by_cases hl : l < gpt.trfBlocks.length
  · exact List.length_eq_zero_iff.mp ((gpt.prefixwise_kvRows math hl).length [])
  · unfold kvRows
    rw [List.getElem?_eq_none (Nat.not_lt.mp hl)]

/-- The scores of a batch row are those after its last real token. -/
theorem lastLogits_of_padded {width : Nat} {held : Nat → List Nat} {rows : List (Nat × List Nat)}
    {out : Logits Score} (h : PaddedBatch width rows
      (fun row => fresh (gpt.rowLogits math) (held row.1) row.2) out)
    (htokens : ∀ row ∈ rows, row.2 ≠ []) {i : Nat} (hi : i < rows.length) :
    lastLogits out i = some (gpt.nextScores math (held rows[i].1 ++ rows[i].2)) := by
  have hlen : out.length = rows.length := h.length_eq.symm
  obtain ⟨-, hsuffix⟩ := h.get hi (hlen.symm ▸ hi)
  have hprefix := gpt.prefixwise_rowLogits math
  have hne : fresh (gpt.rowLogits math) (held rows[i].1) rows[i].2 ≠ [] := by
    rw [← List.length_pos_iff, hprefix.length_fresh]
    exact List.length_pos_iff.mpr (htokens _ (List.getElem_mem hi))
  obtain ⟨pad, hpad⟩ := hsuffix
  have hlast : ∀ xs : List (List Score),
      (xs ++ fresh (gpt.rowLogits math) (held rows[i].1) rows[i].2).getLast?
        = some ((fresh (gpt.rowLogits math) (held rows[i].1) rows[i].2).getLast hne) := fun xs => by
    rw [List.getLast?_append_of_ne_nil _ hne, List.getLast?_eq_some_getLast hne]
  have hall := hprefix.append (held rows[i].1) rows[i].2
  unfold lastLogits nextScores
  rw [hall, hlast, List.getElem?_eq_getElem (hlen.symm ▸ hi)]
  exact (congrArg List.getLast? hpad.symm).trans (hlast pad)

/-- With a vocabulary that grows, each row is sampled from its own tokens. -/
theorem rowLocal {emptyDense : Nat → Nat × Nat → Heads F numHeads headDim}
    {emptyPaged : Nat → Int × Nat → Heads F numHeads headDim} {padId : Nat}
    (hlayers : gpt.trfBlocks ≠ []) (hscores : ∀ x, gpt.outHead x ≠ []) :
    RowLocal { gpt.inferenceModel math emptyDense emptyPaged padId with
        call := gpt.unboundedCall math }
      (fun l tokens rows => rows = gpt.kvRows math l tokens) (gpt.nextScores math) where
  nil := fun l => (kvRows_nil l).symm
  vocabulary := by
    intro tokens
    obtain ⟨x, hx⟩ := gpt.exists_nextScores math tokens
    rw [hx]
    exact hscores x
  call := by
    intro c s held rows tokenIds inputLens hc henc hfits hbatch
    set gpt' := gpt.withVocab (tokenIds.flatten.sum + 1) with hgpt'
    have hpos : 0 < gpt'.trfBlocks.length := List.length_pos_iff.mpr hlayers
    obtain ⟨new, hnew⟩ : ∃ new : Nat → Nat →
        List (Heads F numHeads headDim × Heads F numHeads headDim),
        ∀ row ∈ rows, ∀ l, new row.1 l = fresh (gpt.kvRows math l) (held row.1) row.2 := by
      refine ⟨fun b l => (gpt.kvRows math l (feed held rows b)).drop (held b).length, ?_⟩
      intro row hrow l
      show (gpt.kvRows math l (feed held rows row.1)).drop _ = _
      rw [feed_of_mem hfits.nodup hrow, fresh]
    have hfeeds : Feeds math gpt' held s new rows :=
      { nodup := hfits.nodup
        tokens := hfits.tokens
        len := fun row hrow => (henc row.1 (hfits.slot_lt row hrow) 0 hpos).1
        stored := fun row hrow l hl => (henc row.1 (hfits.slot_lt row hrow) l hl).2.2
        new_eq := fun row hrow l _ => hnew row hrow l
        fits := hfits.fits }
    have hvocab : ∀ row ∈ tokenIds, ∀ t ∈ row, t < tokenIds.flatten.sum + 1 :=
      fun row hrow t ht =>
        Nat.lt_succ_of_le (List.le_sum_of_mem (List.mem_flatten.mpr ⟨row, hrow, ht⟩))
    obtain ⟨out, c', width, hrun, hround, hout⟩ := forwardWithCache_run rfl rfl hpos
      hfits.ne_nil hbatch hfeeds hvocab hc hfits.slot_lt
    refine ⟨out, new, fun row hrow l hl => ?_, ?_, fun i hi =>
      lastLogits_of_padded hout hfits.tokens hi⟩
    · have hprefix := gpt.prefixwise_kvRows math hl
      rw [hnew row hrow l, hprefix.length_fresh,
        (henc row.1 (hfits.slot_lt row hrow) l hl).2.2, ← hprefix.append]
      exact ⟨rfl, rfl⟩
    · rw [Exec.run_bind_ok hround]
      exact hrun

/-- **With a vocabulary that grows** the model is one that the engine serves. -/
theorem backend [Inhabited (Heads F numHeads headDim)]
    {emptyDense : Nat → Nat × Nat → Heads F numHeads headDim}
    {emptyPaged : Nat → Int × Nat → Heads F numHeads headDim} {padId : Nat} [LinearOrder Score]
    (hlayers : gpt.trfBlocks ≠ []) (hscores : ∀ x, gpt.outHead x ≠ [])
    (hblock : 0 < (gpt.inferenceModel math emptyDense emptyPaged padId).config.blockSize) :
    Backend (gpt.nextScores math) { gpt.inferenceModel math emptyDense emptyPaged padId with
      call := gpt.unboundedCall math } :=
  .rowLocal (rowLocal hlayers hscores) rfl hblock

/-- **The next token is in the vocabulary**, since the head has one score for each token. -/
theorem nextToken_lt [LinearOrder Score]
    (hhead : ∀ x, (gpt.outHead x).length = gpt.cfg.vocabSize) (hvocab : 0 < gpt.cfg.vocabSize)
    (tokens : List Nat) : nextToken (gpt.nextScores math) tokens < gpt.cfg.vocabSize := by
  obtain ⟨x, hx⟩ := gpt.exists_nextScores math tokens
  have hne : gpt.nextScores math tokens ≠ [] := by
    rw [hx, ← List.length_pos_iff, hhead]
    exact hvocab
  obtain ⟨t, ht⟩ := sampleGreedy_ok hne
  have hlt := sampleGreedy_lt ht
  rw [hx, hhead] at hlt
  rwa [nextToken, ht]

end GptModel

end Nifre
