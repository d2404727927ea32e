import Nifre.Generate
import Nifre.Properties.GptServed

/-!
# Static generation is greedy decoding

`generate` decodes the rows of a left-padded batch side by side over a cache. Each row gets the
tokens that it would get alone, without padding and without a cache.

* `GptModel.greedyDecode` — one sequence, run again as a whole for every token
* `GptModel.generate_eq` — what `generate` returns, and when it raises
* `GptModel.generate_greedy` — the two together
-/

namespace Nifre

variable {F X Score : Type} [Field F] [Add X] {numHeads headDim : Nat} {math : ExactMath F}

/-! ## What is refused -/

/-- What an embedding raises on an index that is not in its table. -/
def outOfRange : PyError := .indexError "index out of range in self"

omit [Add X] in
theorem mapM_embedding_error {size : Nat} {table : Nat → X} {rows : List (List Nat)}
    (h : ∃ row ∈ rows, ∃ i ∈ row, size ≤ i) :
    rows.mapM (List.mapM (embedding size table)) = .error outOfRange := by
  have hone : ∀ i, (∃ x, embedding size table i = .ok x) ∨
      embedding size table i = .error outOfRange := by
    intro i
    unfold embedding
    split
    · exact Or.inl ⟨_, rfl⟩
    · exact Or.inr rfl
  have hrow : ∀ row : List Nat, (∃ i ∈ row, size ≤ i) →
      row.mapM (embedding size table) = .error outOfRange := by
    rintro row ⟨i, hi, hle⟩
    exact Exec.mapM_error (fun i _ => hone i) ⟨i, hi, if_neg (Nat.not_lt.mpr hle)⟩
  obtain ⟨row, hmem, hbad⟩ := h
  refine Exec.mapM_error (fun row _ => ?_) ⟨row, hmem, hrow row hbad⟩
  by_cases hall : ∃ i ∈ row, size ≤ i
  · exact Or.inr (hrow row hall)
  · push Not at hall
    exact Or.inl ⟨_, GptModel.embedding_mapM hall⟩

namespace GptModel

variable {gpt : GptModel F X Score numHeads headDim}

omit [Field F] in
/-- An unknown token or a position past the context is not embedded. -/
theorem embed_error {inIdx positions : List (List Nat)}
    (h : (∃ tokens ∈ inIdx, ∃ t ∈ tokens, gpt.cfg.vocabSize ≤ t) ∨
      ∃ row ∈ positions, ∃ p ∈ row, gpt.cfg.contextLength ≤ p) :
    gpt.embed inIdx positions = .error outOfRange := by
  unfold embed
  by_cases hvocab : ∃ tokens ∈ inIdx, ∃ t ∈ tokens, gpt.cfg.vocabSize ≤ t
  · rw [mapM_embedding_error hvocab]
    rfl
  · have hcontext := h.resolve_left hvocab
    push Not at hvocab
    rw [Exec.mapM_ok fun tokens ht => embedding_mapM (hvocab tokens ht),
      mapM_embedding_error hcontext]
    rfl

/-- The plain forward takes legible tokens only. -/
theorem forward_singleton_error {tokens : List Nat} (h : ¬gpt.Legible tokens) :
    gpt.forward math [tokens] = .error outOfRange := by
  have hbad : (∃ row ∈ [tokens], ∃ t ∈ row, gpt.cfg.vocabSize ≤ t) ∨
      ∃ row ∈ [tokens].map (fun _ => List.range (seqLen [tokens])), ∃ p ∈ row,
        gpt.cfg.contextLength ≤ p := by
    by_contra hnone
    rw [not_or] at hnone
    obtain ⟨hvocab, hcontext⟩ := hnone
    push Not at hvocab hcontext
    refine h ⟨hvocab tokens List.mem_cons_self, Nat.not_lt.mp fun hlt => ?_⟩
    have := hcontext (List.range tokens.length) (List.mem_singleton.mpr rfl) _
      (List.mem_range.mpr hlt)
    exact Nat.lt_irrefl _ this
  rw [forward, embed_error hbad]
  rfl

/-- **A batch with a row that is not legible** is refused before anything is stored. -/
theorem forwardWithCache_refused (hlayers : gpt.trfBlocks ≠ []) {config : ModelConfig}
    (hconfig : config.numLayers = gpt.trfBlocks.length)
    {c : KVCacheType (Heads F numHeads headDim)} {held : Nat → List Nat}
    (hc : Cached math gpt config c held) {padId : Nat} {rows : List (Nat × List Nat)}
    {tokenIds : List (List Nat)} {inputLens : Option (List Nat)}
    (hbatch : BatchOf padId rows tokenIds inputLens) (hne : rows ≠ [])
    (hnodup : (rows.map Prod.fst).Nodup) (hlt : ∀ row ∈ rows, row.1 < c.batchSize)
    (htokens : ∀ row ∈ rows, row.2 ≠ []) (hbad : ∃ row ∈ rows, ¬gpt.Legible (held row.1 ++ row.2)) :
    (gpt.forwardWithCache math tokenIds inputLens (rows.map Prod.fst)).run c
      = .error outOfRange c := by
  obtain ⟨⟨s, hs, henc⟩, hlegible⟩ := hc
  have hpos := List.length_pos_iff.mpr hlayers
  obtain ⟨width, rfl, hwidth, hlens, hle⟩ := hbatch.shape hne
  -- reading the positions does not need the context to be long enough
  set long : GptModel F X Score numHeads headDim := { gpt with
    cfg := { gpt.cfg with
      contextLength := (rows.map fun row => (held row.1).length + row.2.length).sum } } with hlong
  obtain ⟨new, hnew⟩ : ∃ new : Nat → Nat →
      List (Heads F numHeads headDim × Heads F numHeads headDim),
      ∀ row ∈ rows, ∀ l, new row.1 l = fresh (gpt.kvRows math l) (held row.1) row.2 := by
    refine ⟨fun b l => (gpt.kvRows math l (feed held rows b)).drop (held b).length, ?_⟩
    intro row hrow l
    show (gpt.kvRows math l (feed held rows row.1)).drop _ = _
    rw [feed_of_mem hnodup hrow, fresh]
  have hfeeds : Feeds math long held s new rows :=
    { nodup := hnodup
      tokens := htokens
      len := fun row hrow => (henc row.1 (hlt row hrow) 0 (hconfig ▸ hpos)).1
      stored := fun row hrow l hl => (henc row.1 (hlt row hrow) l (hconfig ▸ hl)).2.2
      new_eq := fun row hrow l _ => hnew row hrow l
      fits := fun row hrow => List.le_sum_of_mem (List.mem_map.mpr ⟨row, hrow, rfl⟩) }
  have hpositions := positions_run hwidth hlens hfeeds hle hs hlt
  have hembed : gpt.embed (rows.map fun row => padRow padId width row.2)
      (rows.map fun row => rowPositions width row.2.length (held row.1).length)
        = .error outOfRange := by
    obtain ⟨row, hrow, hill⟩ := hbad
    have hrowlen := List.length_pos_iff.mpr (htokens row hrow)
    refine embed_error ?_
    by_cases hlen : (held row.1 ++ row.2).length ≤ gpt.cfg.contextLength
    · -- then it is a token of the row that is unknown
      obtain ⟨t, ht, hbig⟩ : ∃ t ∈ held row.1 ++ row.2, gpt.cfg.vocabSize ≤ t := by
        by_contra hall
        push Not at hall
        exact hill ⟨hall, hlen⟩
      rcases List.mem_append.mp ht with ht | ht
      · exact absurd ((hlegible row.1 (hlt row hrow)).vocabulary t ht) (Nat.not_lt.mpr hbig)
      · exact Or.inl ⟨_, List.mem_map.mpr ⟨row, hrow, rfl⟩, t, List.mem_append_right _ ht, hbig⟩
    · refine Or.inr ⟨_, List.mem_map.mpr ⟨row, hrow, rfl⟩,
        (held row.1).length + (row.2.length - 1), List.mem_append_right _ ?_, ?_⟩
      · exact List.mem_range'_1.mpr ⟨Nat.le_add_right _ _, by omega⟩
      · rw [List.length_append] at hlen
        omega
  rw [forwardWithCache, Exec.run_bind_ok hpositions, hembed]
  rfl

end GptModel

/-! ## A row for each slot -/

/-- Chunk `i` goes to slot `i`. -/
def slotRows (chunks : List (List Nat)) : List (Nat × List Nat) :=
  (List.range chunks.length).zip chunks

theorem slotRows_fst (chunks : List (List Nat)) :
    (slotRows chunks).map Prod.fst = List.range chunks.length :=
  List.map_fst_zip (Nat.le_of_eq List.length_range)

theorem slotRows_snd (chunks : List (List Nat)) : (slotRows chunks).map Prod.snd = chunks :=
  List.map_snd_zip (Nat.le_of_eq List.length_range.symm)

theorem getElem_slotRows {chunks : List (List Nat)} {i : Nat} (h : i < (slotRows chunks).length)
    (h' : i < chunks.length) : (slotRows chunks)[i] = (i, chunks[i]) := by
  simp [slotRows]

theorem mem_slotRows {chunks : List (List Nat)} {row : Nat × List Nat} :
    row ∈ slotRows chunks ↔ ∃ h : row.1 < chunks.length, row.2 = chunks[row.1] := by
  rw [List.mem_iff_getElem]
  constructor
  · rintro ⟨i, hi, rfl⟩
    have hi' : i < chunks.length := by simpa [slotRows] using hi
    rw [getElem_slotRows hi hi']
    exact ⟨hi', rfl⟩
  · rintro ⟨h, he⟩
    refine ⟨row.1, by simpa [slotRows] using h, ?_⟩
    rw [getElem_slotRows _ h, ← he]

/-- What the slots hold: sequence `i` in slot `i`. -/
def heldBy (seqs : List (List Nat)) (b : Nat) : List Nat := seqs.getD b []

theorem heldBy_of_lt {seqs : List (List Nat)} {b : Nat} (h : b < seqs.length) :
    heldBy seqs b = seqs[b] := List.getD_eq_getElem _ _ h

/-- The slots after one more chunk each. -/
theorem feed_slotRows {seqs chunks : List (List Nat)} (hlen : chunks.length = seqs.length) :
    feed (heldBy seqs) (slotRows chunks) = heldBy (catColumns seqs chunks) := by
  funext b
  by_cases hb : b < chunks.length
  · have hb' : b < (catColumns seqs chunks).length := by
      rw [catColumns, List.length_zipWith]
      omega
    have hmem : (b, chunks[b]) ∈ slotRows chunks := mem_slotRows.mpr ⟨hb, rfl⟩
    rw [feed_of_mem (by rw [slotRows_fst]; exact List.nodup_range) hmem,
      heldBy_of_lt (hlen ▸ hb), heldBy_of_lt hb']
    simp [catColumns]
  · have hb' : (catColumns seqs chunks).length ≤ b := by
      rw [catColumns, List.length_zipWith]
      omega
    rw [feed_of_notMem (by rw [slotRows_fst, List.mem_range]; exact hb), heldBy, heldBy,
      List.getD_eq_default _ _ (by omega), List.getD_eq_default _ _ hb']

/-! ## One call -/

namespace GptModel

variable {gpt : GptModel F X Score numHeads headDim} {padId : Nat}
  {emptyDense : Nat → Nat × Nat → Heads F numHeads headDim}

/-- After a call: slot `i` holds sequence `i`, and row `i` has the scores of its next token. -/
structure Decoded (math : ExactMath F) (gpt : GptModel F X Score numHeads headDim) (padId : Nat)
    (c : KVCacheType (Heads F numHeads headDim)) (seqs : List (List Nat)) (logits : Logits Score) :
    Prop where
  size : c.batchSize = seqs.length
  cached : Cached math gpt (gpt.inferenceModel math (fun _ _ _ _ => 0) (fun _ _ _ _ => 0)
    padId).config c (heldBy seqs)
  length : logits.length = seqs.length
  scores : ∀ (i : Nat) (h : i < seqs.length),
    lastLogits logits i = some (gpt.nextScores math seqs[i])

variable {seqs chunks tokenIds : List (List Nat)} {inputLens : Option (List Nat)}
  {c : KVCacheType (Heads F numHeads headDim)}

/-- **A call with a chunk for every slot**, if all rows are legible then. -/
theorem callRows_run (hlayers : gpt.trfBlocks ≠ []) (hpad : padId < gpt.cfg.vocabSize)
    (hsize : c.batchSize = seqs.length)
    (hc : Cached math gpt (gpt.inferenceModel math (fun _ _ _ _ => 0) (fun _ _ _ _ => 0)
      padId).config c (heldBy seqs))
    (hlen : chunks.length = seqs.length) (hne : seqs ≠ []) (htokens : ∀ chunk ∈ chunks, chunk ≠ [])
    (hbatch : BatchOf padId (slotRows chunks) tokenIds inputLens)
    (hrange : tokenIds.length = chunks.length)
    (hlegible : ∀ seq ∈ catColumns seqs chunks, gpt.Legible seq) :
    ∃ out c', (gpt.callRows math tokenIds inputLens).run c = .ok out c' ∧
      Decoded math gpt padId c' (catColumns seqs chunks) out := by
  have hlen' : (catColumns seqs chunks).length = seqs.length := by
    rw [catColumns, List.length_zipWith]
    omega
  have hrow : ∀ row ∈ slotRows chunks, row.2 ≠ [] ∧ row.1 < c.batchSize ∧
      gpt.Legible (heldBy seqs row.1 ++ row.2) := by
    intro row hrow
    obtain ⟨h, he⟩ := mem_slotRows.mp hrow
    have hcat := hlegible (catColumns seqs chunks)[row.1] (List.getElem_mem (by omega))
    rw [he, heldBy_of_lt (by omega)]
    refine ⟨htokens _ (List.getElem_mem h), by omega, ?_⟩
    simpa [catColumns] using hcat
  have hnodup : ((slotRows chunks).map Prod.fst).Nodup := by
    rw [slotRows_fst]
    exact List.nodup_range
  have hrowsne : slotRows chunks ≠ [] := by
    intro h
    have := congrArg List.length (slotRows_snd chunks)
    rw [h] at this
    exact hne (List.length_eq_zero_iff.mp (hlen ▸ this.symm))
  have hlegal : ∀ batch : ChunkBatch, batch.rows = slotRows chunks →
      gpt.LegalBatch c.batchSize (heldBy seqs) batch := by
    rintro batch hrows
    unfold LegalBatch
    rw [hrows]
    refine ⟨⟨hrowsne, hnodup, fun row h => (hrow row h).2.1, fun row h => (hrow row h).1,
      fun row h => ?_⟩, fun row h t ht => ?_⟩
    · rw [← List.length_append]
      exact (hrow row h).2.2.context
    · exact (hrow row h).2.2.vocabulary t (List.mem_append_right _ ht)
  obtain ⟨batch, hrows, hcall⟩ : ∃ batch : ChunkBatch, batch.rows = slotRows chunks ∧
      batch.call (gpt.inferenceModel math (fun _ _ _ _ => 0) (fun _ _ _ _ => 0) padId)
        = gpt.callRows math tokenIds inputLens := by
    rw [callRows, hrange, ← slotRows_fst]
    generalize slotRows chunks = rows at hbatch
    cases hbatch with
    | padded hb =>
      refine ⟨.padded rows, rfl, ?_⟩
      show Exec.ofExcept (batchTokenIds (rows.map Prod.snd) padId) >>= _ = _
      rw [hb]
      rfl
    | single tokens =>
      refine ⟨.single tokens, rfl, ?_⟩
      rw [List.map_map]
      rfl
  obtain ⟨out, c', width, hrun, hsize', hcached, hout⟩ :=
    call_cached hlayers hpad hc (hlegal batch hrows)
  rw [hcall] at hrun
  rw [hrows] at hout
  have hfeed : batch.next (heldBy seqs) = heldBy (catColumns seqs chunks) := by
    rw [ChunkBatch.next, hrows, feed_slotRows hlen]
  rw [hfeed] at hcached
  have hlength : (slotRows chunks).length = seqs.length := by
    rw [slotRows, List.length_zip, List.length_range, Nat.min_self, hlen]
  refine ⟨out, c', hrun, hsize'.trans (hsize.trans hlen'.symm), hcached,
    hout.length_eq.symm.trans (hlength.trans hlen'.symm), fun i hi => ?_⟩
  have hi' : i < (slotRows chunks).length := by omega
  have hic : i < chunks.length := by omega
  rw [lastLogits_of_padded hout (fun row h => (hrow row h).1) hi', getElem_slotRows hi' hic,
    heldBy_of_lt (by omega)]
  simp [catColumns]

/-- **A call with a chunk for every slot** is refused if some row is not legible then. -/
theorem callRows_refused (hlayers : gpt.trfBlocks ≠ []) (hsize : c.batchSize = seqs.length)
    (hc : Cached math gpt (gpt.inferenceModel math (fun _ _ _ _ => 0) (fun _ _ _ _ => 0)
      padId).config c (heldBy seqs))
    (hlen : chunks.length = seqs.length) (htokens : ∀ chunk ∈ chunks, chunk ≠ [])
    (hbatch : BatchOf padId (slotRows chunks) tokenIds inputLens)
    (hrange : tokenIds.length = chunks.length)
    (hbad : ∃ seq ∈ catColumns seqs chunks, ¬gpt.Legible seq) :
    (gpt.callRows math tokenIds inputLens).run c = .error outOfRange c := by
  obtain ⟨seq, hseq, hill⟩ := hbad
  obtain ⟨i, hi, rfl⟩ := List.mem_iff_getElem.mp hseq
  have hi' : i < chunks.length := by
    rw [catColumns, List.length_zipWith] at hi
    omega
  have hmem : (i, chunks[i]) ∈ slotRows chunks := mem_slotRows.mpr ⟨hi', rfl⟩
  rw [callRows, hrange, ← slotRows_fst]
  refine forwardWithCache_refused hlayers rfl hc hbatch (List.ne_nil_of_mem hmem) ?_ ?_ ?_
    ⟨_, hmem, ?_⟩
  · rw [slotRows_fst]
    exact List.nodup_range
  · intro row hrow
    obtain ⟨h, -⟩ := mem_slotRows.mp hrow
    omega
  · intro row hrow
    obtain ⟨h, he⟩ := mem_slotRows.mp hrow
    exact he ▸ htokens _ (List.getElem_mem h)
  · rw [heldBy_of_lt (hlen ▸ hi')]
    simpa [catColumns] using hill

/-! ## One sequence -/

variable [LinearOrder Score]

variable (math gpt) in
/-- Greedy decoding of one sequence without a cache: the whole sequence is run again for every
token. -/
def greedyDecode : Nat → List Nat → Except PyError (List Nat)
  | 0, _ => pure []
  | n + 1, tokens => do
    let logits ← gpt.forward math [tokens]
    let token ← ModelRunner.sampleRow logits 0
    let rest ← greedyDecode n (tokens ++ [token])
    pure (token :: rest)

variable (math gpt) in
/-- The tokens that follow a sequence. -/
def continuation : Nat → List Nat → List Nat
  | 0, _ => []
  | n + 1, tokens =>
    let token := nextToken (gpt.nextScores math) tokens
    token :: continuation n (tokens ++ [token])

theorem length_continuation : ∀ (n : Nat) (tokens : List Nat),
    (gpt.continuation math n tokens).length = n
  | 0, _ => rfl
  | n + 1, _ => congrArg Nat.succ (length_continuation n _)

variable (gpt) in
/-- The tokens are known, and `n` more fit in the context. -/
structure Room (n : Nat) (tokens : List Nat) : Prop where
  vocabulary : ∀ t ∈ tokens, t < gpt.cfg.vocabSize
  context : tokens.length + n ≤ gpt.cfg.contextLength

instance (n : Nat) (tokens : List Nat) : Decidable (gpt.Room n tokens) :=
  decidable_of_iff ((∀ t ∈ tokens, t < gpt.cfg.vocabSize) ∧
    tokens.length + n ≤ gpt.cfg.contextLength) ⟨fun ⟨h, h'⟩ => ⟨h, h'⟩, fun ⟨h, h'⟩ => ⟨h, h'⟩⟩

omit [Field F] [Add X] [LinearOrder Score] in
theorem Room.legible {n : Nat} {tokens : List Nat} (h : gpt.Room n tokens) : gpt.Legible tokens :=
  ⟨h.vocabulary, Nat.le_of_add_right_le h.context⟩

omit [Field F] [Add X] [LinearOrder Score] in
theorem room_zero {tokens : List Nat} : gpt.Room 0 tokens ↔ gpt.Legible tokens :=
  ⟨Room.legible, fun h => ⟨h.vocabulary, h.context⟩⟩

omit [Field F] [Add X] [LinearOrder Score] in
/-- One known token takes one place. -/
theorem room_succ {n t : Nat} {tokens : List Nat} (ht : t < gpt.cfg.vocabSize) :
    gpt.Room n (tokens ++ [t]) ↔ gpt.Room (n + 1) tokens := by
  constructor
  · rintro ⟨hvocab, hcontext⟩
    rw [List.length_append, List.length_singleton] at hcontext
    exact ⟨fun t ht => hvocab t (List.mem_append_left _ ht), by omega⟩
  · rintro ⟨hvocab, hcontext⟩
    refine ⟨fun t' ht' => ?_, by rw [List.length_append, List.length_singleton]; omega⟩
    rcases List.mem_append.mp ht' with ht' | ht'
    · exact hvocab t' ht'
    · rw [List.mem_singleton.mp ht']
      exact ht

omit [LinearOrder Score] in
/-- The scores of the plain forward after legible tokens. -/
theorem lastLogits_forward {tokens : List Nat} (hne : tokens ≠ []) :
    lastLogits [gpt.rowLogits math tokens] 0 = some (gpt.nextScores math tokens) := by
  have hrow : gpt.rowLogits math tokens ≠ [] := by
    rw [← List.length_pos_iff, (gpt.prefixwise_rowLogits math).length]
    exact List.length_pos_iff.mpr hne
  show (gpt.rowLogits math tokens).getLast? = _
  rw [nextScores, List.getLast?_eq_some_getLast hrow]
  rfl

variable {n : Nat} (hhead : ∀ x, (gpt.outHead x).length = gpt.cfg.vocabSize)

include hhead

theorem sampleGreedy_nextScores (hvocab : 0 < gpt.cfg.vocabSize) (tokens : List Nat) :
    sampleGreedy (gpt.nextScores math tokens)
      = .ok (nextToken (gpt.nextScores math) tokens) := by
  refine sampleGreedy_nextToken (fun tokens => ?_) tokens
  obtain ⟨x, hx⟩ := gpt.exists_nextScores math tokens
  rw [hx, ← List.length_pos_iff, hhead]
  exact hvocab

/-- **Decoding one sequence** goes through as long as there is room. -/
theorem greedyDecode_succ (hvocab : 0 < gpt.cfg.vocabSize) : ∀ {n : Nat} {tokens : List Nat},
    tokens ≠ [] → gpt.greedyDecode math (n + 1) tokens
      = if gpt.Room n tokens then .ok (gpt.continuation math (n + 1) tokens)
        else .error outOfRange := by
  intro n
  induction n with
  | zero =>
    intro tokens hne
    rw [greedyDecode]
    by_cases hroom : gpt.Room 0 tokens
    · rw [if_pos hroom, gpt.forward_singleton math hroom.legible]
      show (ModelRunner.sampleRow [gpt.rowLogits math tokens] 0 >>= _) = _
      rw [ModelRunner.sampleRow_of_lastLogits (lastLogits_forward hne),
        sampleGreedy_nextScores hhead hvocab]
      rfl
    · rw [if_neg hroom, forward_singleton_error (room_zero.not.mp hroom)]
      rfl
  | succ n ih =>
    intro tokens hne
    rw [greedyDecode]
    by_cases hlegible : gpt.Legible tokens
    · rw [gpt.forward_singleton math hlegible]
      show (ModelRunner.sampleRow [gpt.rowLogits math tokens] 0 >>= _) = _
      rw [ModelRunner.sampleRow_of_lastLogits (lastLogits_forward hne),
        sampleGreedy_nextScores hhead hvocab]
      show (gpt.greedyDecode math (n + 1) _ >>= _) = _
      rw [ih (List.append_ne_nil_of_right_ne_nil _ (List.cons_ne_nil _ _))]
      by_cases hroom : gpt.Room (n + 1) tokens
      · rw [if_pos hroom, if_pos ((room_succ (nextToken_lt hhead hvocab tokens)).mpr hroom)]
        rfl
      · rw [if_neg hroom,
          if_neg ((room_succ (nextToken_lt hhead hvocab tokens)).not.mpr hroom)]
        rfl
    · rw [if_neg fun h => hlegible h.legible, forward_singleton_error hlegible]
      rfl

/-! ## The batch -/

omit [Field F] [Add X] [LinearOrder Score] hhead in
theorem catColumns_map (f : List Nat → List Nat) : ∀ seqs : List (List Nat),
    catColumns seqs (seqs.map f) = seqs.map fun seq => seq ++ f seq
  | [] => rfl
  | _ :: seqs => congrArg (_ :: ·) (catColumns_map f seqs)

omit [Field F] [Add X] [LinearOrder Score] hhead in
theorem catColumns_catColumns (f g : List Nat → List Nat) : ∀ output seqs : List (List Nat),
    catColumns (catColumns output (seqs.map f)) (seqs.map g)
      = catColumns output (seqs.map fun seq => f seq ++ g seq)
  | [], _ => rfl
  | _ :: _, [] => rfl
  | row :: output, seq :: seqs => by
    have ih := catColumns_catColumns f g output seqs
    simp only [catColumns, List.map_cons, List.zipWith_cons_cons, List.append_assoc] at ih ⊢
    rw [ih]

omit [Field F] [Add X] [LinearOrder Score] hhead in
/-- One token for every slot. -/
theorem batchOf_single (padId : Nat) (tokens : List Nat) :
    BatchOf padId (slotRows (tokens.map fun t => [t])) (tokens.map fun t => [t]) none := by
  have hrows : slotRows (tokens.map fun t => [t])
      = ((List.range tokens.length).zip tokens).map fun row => (row.1, [row.2]) := by
    rw [slotRows, List.length_map, List.zip_map_right]
    rfl
  have hids : (tokens.map fun t => [t])
      = ((List.range tokens.length).zip tokens).map fun row => [row.2] := by
    have hsnd : ((List.range tokens.length).zip tokens).map Prod.snd = tokens :=
      List.map_snd_zip (by simp)
    conv_lhs => rw [← hsnd]
    rw [List.map_map]
    rfl
  rw [hrows]
  conv => arg 3; rw [hids]
  exact .single _

/-- The next token of every row. -/
theorem Decoded.sampleLast (hvocab : 0 < gpt.cfg.vocabSize) {logits : Logits Score}
    (h : Decoded math gpt padId c seqs logits) : Nifre.sampleLast logits
      = .ok (seqs.map fun seq => [nextToken (gpt.nextScores math) seq]) := by
  unfold Nifre.sampleLast
  rw [Exec.mapM_ok (g := fun i => [nextToken (gpt.nextScores math) (heldBy seqs i)])]
  · refine congrArg Except.ok (List.ext_getElem (by simp [h.length]) fun i hi hi' => ?_)
    have hlt : i < seqs.length := by simpa using hi'
    simp only [List.getElem_map, List.getElem_range, heldBy_of_lt hlt]
  · intro i hi
    have hlt : i < seqs.length := h.length ▸ List.mem_range.mp hi
    rw [ModelRunner.sampleRow_of_lastLogits (h.scores i hlt), heldBy_of_lt hlt,
      sampleGreedy_nextScores hhead hvocab]
    rfl

/-- **The loop** extends every row by its own continuation, as long as there is room in all. -/
theorem generateLoop_run (hlayers : gpt.trfBlocks ≠ []) (hpad : padId < gpt.cfg.vocabSize) :
    ∀ {n : Nat} {output : List (List Nat)} {seqs : List (List Nat)} {logits : Logits Score}
      {c : KVCacheType (Heads F numHeads headDim)}, Decoded math gpt padId c seqs logits →
      seqs ≠ [] → (∀ seq ∈ seqs, gpt.Legible seq) →
      Exec.outcome ((gpt.generateLoop math (n + 1) output logits).run c)
        = if ∀ seq ∈ seqs, gpt.Room n seq
          then .ok (catColumns output (seqs.map (gpt.continuation math (n + 1))))
          else .error outOfRange := by
  intro n
  have hvocab : 0 < gpt.cfg.vocabSize := Nat.zero_lt_of_lt hpad
  induction n with
  | zero =>
    intro output seqs logits c h _ hlegible
    rw [if_pos fun seq hseq => room_zero.mpr (hlegible seq hseq), generateLoop,
      h.sampleLast hhead hvocab]
    rfl
  | succ n ih =>
    intro output seqs logits c h hne hlegible
    set token : List Nat → Nat := nextToken (gpt.nextScores math) with htoken
    set chunks : List (List Nat) := seqs.map fun seq => [token seq] with hchunks
    have hlen : chunks.length = seqs.length := List.length_map _
    have hnonempty : ∀ chunk ∈ chunks, chunk ≠ [] :=
      List.forall_mem_map.mpr fun seq _ => List.cons_ne_nil _ _
    have hbatch : BatchOf padId (slotRows chunks) chunks none := by
      have := batchOf_single padId (seqs.map token)
      rwa [List.map_map] at this
    have hcat : catColumns seqs chunks = seqs.map fun seq => seq ++ [token seq] :=
      catColumns_map _ seqs
    -- a row has room after its next token exactly if it had room for one more before
    have hroom : ∀ {m : Nat}, (∀ seq ∈ catColumns seqs chunks, gpt.Room m seq) ↔
        ∀ seq ∈ seqs, gpt.Room (m + 1) seq := by
      intro m
      rw [hcat, List.forall_mem_map]
      exact forall₂_congr fun seq _ => room_succ (nextToken_lt hhead hvocab seq)
    have hloop : gpt.generateLoop math (n + 1 + 1) output logits = (do
        let nextToken ← Exec.ofExcept (Nifre.sampleLast logits)
        let logits ← gpt.callRows math nextToken none
        gpt.generateLoop math (n + 1) (catColumns output nextToken) logits) := rfl
    rw [hloop, h.sampleLast hhead hvocab]
    show Exec.outcome ((gpt.callRows math chunks none >>= fun logits =>
      gpt.generateLoop math (n + 1) (catColumns output chunks) logits).run c) = _
    by_cases hnext : ∀ seq ∈ catColumns seqs chunks, gpt.Legible seq
    · obtain ⟨out, c', hrun, hdecoded⟩ := callRows_run hlayers hpad h.size h.cached hlen hne
        hnonempty hbatch rfl hnext
      have hne' : catColumns seqs chunks ≠ [] := by
        rw [hcat]
        exact fun hnil => hne (List.map_eq_nil_iff.mp hnil)
      rw [Exec.run_bind_ok hrun, ih hdecoded hne' hnext]
      refine if_congr hroom ?_ rfl
      rw [hcat, List.map_map]
      exact congrArg Except.ok (catColumns_catColumns _ _ output seqs)
    · have hrefused := callRows_refused hlayers h.size h.cached hlen hnonempty hbatch
        rfl (by simpa only [not_forall, exists_prop] using hnext)
      rw [Exec.run_bind_error hrefused, if_neg fun hall => hnext fun seq hseq => ?_]
      · rfl
      · exact (hroom.mpr hall seq hseq).legible

/-- **What `generate` returns**, and when it raises. -/
theorem generate_eq (hlayers : gpt.trfBlocks ≠ []) (hpad : padId < gpt.cfg.vocabSize)
    {prompts tokenIds : List (List Nat)} {inputLens : List Nat}
    (hbatch : batchTokenIds prompts padId = .ok (tokenIds, inputLens))
    (hprompts : ∀ prompt ∈ prompts, prompt ≠ []) (maxNewTokens : Int) :
    gpt.generate math emptyDense tokenIds maxNewTokens (some inputLens)
      = if ∀ prompt ∈ prompts, gpt.Room (maxNewTokens.toNat - 1) prompt
        then .ok (catColumns tokenIds (prompts.map (gpt.continuation math maxNewTokens.toNat)))
        else .error outOfRange := by
  have hne : prompts ≠ [] := by
    rintro rfl
    cases hbatch
  have hrange : tokenIds.length = prompts.length := by
    obtain ⟨ids, hids⟩ := ModelRunner.batchTokenIds_ok hne padId
    unfold batchTokenIds at hbatch
    split at hbatch
    · cases hbatch
    · cases hbatch
      exact List.length_map _
  -- at the start every slot is empty
  set start : List (List Nat) := List.replicate prompts.length [] with hstart
  have hlen : prompts.length = start.length := List.length_replicate.symm
  have hheld : heldBy start = fun _ => [] := by
    funext b
    rw [heldBy, List.getD_eq_getElem?_getD, List.getElem?_getD_replicate_default_eq]
  have hcat : catColumns start prompts = prompts :=
    List.ext_getElem (by simp [catColumns, hstart]) fun i _ _ => by simp [catColumns, hstart]
  have hmake : Engine.makeCache (gpt.inferenceModel math emptyDense (fun _ _ _ _ => 0) padId) false
      false tokenIds.length = .ok (gpt.makeKvCache emptyDense tokenIds.length) := rfl
  obtain ⟨hsize, hcached⟩ := makeCache_cached hmake
  rw [← hheld] at hcached
  have hsize' := hsize.trans (hrange.trans hlen)
  have hpadded : BatchOf padId (slotRows prompts) tokenIds (some inputLens) :=
    .padded (by rw [slotRows_snd]; exact hbatch)
  have hstartne : start ≠ [] := by
    rw [← List.length_pos_iff, ← hlen, List.length_pos_iff]
    exact hne
  show Exec.outcome ((gpt.callRows math tokenIds (some inputLens) >>= fun logits =>
    gpt.generateLoop math maxNewTokens.toNat tokenIds logits).run
      (gpt.makeKvCache emptyDense tokenIds.length)) = _
  by_cases hlegible : ∀ prompt ∈ prompts, gpt.Legible prompt
  · obtain ⟨out, c', hrun, hdecoded⟩ := callRows_run hlayers hpad hsize' hcached hlen hstartne
      hprompts hpadded hrange (by rwa [hcat])
    rw [hcat] at hdecoded
    rw [Exec.run_bind_ok hrun]
    cases hn : maxNewTokens.toNat with
    | zero =>
      rw [if_pos fun prompt hprompt => room_zero.mpr (hlegible prompt hprompt)]
      refine congrArg Except.ok ?_
      rw [show gpt.continuation math 0 = fun _ => [] from rfl, catColumns, List.zipWith_map_right]
      refine (List.ext_getElem (by simp [hrange]) fun i hi hi' => ?_).symm
      simp
    | succ n => exact generateLoop_run hhead hlayers hpad hdecoded hne hlegible
  · have hbad : ∃ prompt ∈ catColumns start prompts, ¬gpt.Legible prompt := by
      rw [hcat]
      simpa only [not_forall, exists_prop] using hlegible
    rw [Exec.run_bind_error (callRows_refused hlayers hsize' hcached hlen hprompts hpadded hrange
      hbad), if_neg fun hall => hlegible fun prompt hprompt => (hall prompt hprompt).legible]
    rfl

/-- **Static batched generation is greedy decoding, row by row**: every row gets the tokens of the
plain forward on its own prompt, and `generate` raises exactly if decoding one of the prompts
would. At least one forward is made for each. -/
theorem generate_greedy (hlayers : gpt.trfBlocks ≠ []) (hpad : padId < gpt.cfg.vocabSize)
    {prompts tokenIds : List (List Nat)} {inputLens : List Nat}
    (hbatch : batchTokenIds prompts padId = .ok (tokenIds, inputLens))
    (hprompts : ∀ prompt ∈ prompts, prompt ≠ []) (maxNewTokens : Int) :
    gpt.generate math emptyDense tokenIds maxNewTokens (some inputLens) = (do
      let decoded ← prompts.mapM (gpt.greedyDecode math (max maxNewTokens.toNat 1))
      pure (catColumns tokenIds (decoded.map (List.take maxNewTokens.toNat)))) := by
  rw [generate_eq hhead hlayers hpad hbatch hprompts]
  have hvocab : 0 < gpt.cfg.vocabSize := Nat.zero_lt_of_lt hpad
  obtain ⟨m, hm⟩ : ∃ m, max maxNewTokens.toNat 1 = m + 1 := ⟨max maxNewTokens.toNat 1 - 1, by omega⟩
  have hroom : maxNewTokens.toNat - 1 = m := by omega
  have hdecode : ∀ prompt ∈ prompts, gpt.greedyDecode math (m + 1) prompt
      = if gpt.Room m prompt then .ok (gpt.continuation math (m + 1) prompt)
        else .error outOfRange := fun prompt hprompt =>
    greedyDecode_succ hhead hvocab (hprompts prompt hprompt)
  rw [hm, hroom]
  by_cases hall : ∀ prompt ∈ prompts, gpt.Room m prompt
  · rw [if_pos hall, Exec.mapM_ok fun prompt hprompt => (hdecode prompt hprompt).trans
      (if_pos (hall prompt hprompt))]
    show _ = Except.ok _
    rw [List.map_map]
    refine congrArg Except.ok (congrArg (catColumns tokenIds) ?_)
    refine List.map_congr_left fun prompt _ => ?_
    rcases Nat.eq_zero_or_pos maxNewTokens.toNat with hzero | hpos
    · rw [hzero]
      rfl
    · rw [show maxNewTokens.toNat = m + 1 by omega]
      exact (List.take_of_length_le (Nat.le_of_eq (length_continuation _ _))).symm
  · rw [if_neg hall]
    push Not at hall
    obtain ⟨prompt, hprompt, hnot⟩ := hall
    rw [Exec.mapM_error (e := outOfRange) (fun prompt hprompt => ?_) ⟨prompt, hprompt,
      (hdecode prompt hprompt).trans (if_neg hnot)⟩]
    · rfl
    · rw [hdecode prompt hprompt]
      split
      · exact Or.inl ⟨_, rfl⟩
      · exact Or.inr rfl

end GptModel

/-- A small model with a score for each of its three tokens. -/
noncomputable def smallHead : GptModel ℝ ℕ ℕ 1 1 :=
  { smallGpt [smallBlock] with outHead := fun x => [x % 3, (x + 1) % 3, (x + 2) % 3] }

theorem smallHead_generate : smallHead.generate realMath (fun _ _ _ _ => 0)
      [[0, 1, 2], [2, 2, 1]] 3 (some [3, 1]) = (do
    let decoded ← [[0, 1, 2], [1]].mapM (smallHead.greedyDecode realMath 3)
    pure (catColumns [[0, 1, 2], [2, 2, 1]] (decoded.map (List.take 3)))) :=
  GptModel.generate_greedy (show ∀ x, (smallHead.outHead x).length = 3 from fun _ => rfl)
    (List.cons_ne_nil _ _) (by decide) (show batchTokenIds [[0, 1, 2], [1]] 2 = _ from rfl)
    (by decide) 3

/-! ## Without the padding -/

/-- Padding comes off again, unless what follows it begins with the padding token. -/
theorem stripLeftPad_padRow (padId maxLen : Nat) {tokens : List Nat} (h : tokens ≠ [])
    (new : List Nat) :
    stripLeftPad (padRow padId maxLen tokens ++ new) padId = tokens ++ new
      ↔ tokens.head? ≠ some padId := by
  have hdrop : ∀ n, stripLeftPad (List.replicate n padId ++ tokens ++ new) padId
      = stripLeftPad (tokens ++ new) padId := by
    intro n
    rw [List.append_assoc]
    induction n with
    | zero => rfl
    | succ n ih =>
      rw [List.replicate_succ, List.cons_append, stripLeftPad, List.dropWhile_cons_of_pos (by simp)]
      exact ih
  obtain ⟨t, rest, rfl⟩ := List.exists_cons_of_ne_nil h
  rw [padRow, hdrop, stripLeftPad, List.cons_append]
  by_cases ht : t = padId
  · rw [List.dropWhile_cons_of_pos (by simpa using ht)]
    refine iff_of_false (fun he => ?_) fun hne => hne (congrArg some ht)
    -- a list that lost its head is shorter
    have hle := (List.dropWhile_sublist (· == padId) (l := rest ++ new)).length_le
    have hlen := congrArg List.length he
    rw [List.length_cons] at hlen
    omega
  · rw [List.dropWhile_cons_of_neg (by simpa using ht)]
    refine iff_of_true rfl fun he => ht ?_
    exact Option.some.inj he

/-- The rows of a padded batch that went on. -/
theorem map_stripLeftPad (padId maxLen : Nat) : ∀ {prompts news : List (List Nat)},
    news.length = prompts.length → (∀ prompt ∈ prompts, prompt ≠ []) →
    ((catColumns (prompts.map (padRow padId maxLen)) news).map (stripLeftPad · padId)
        = catColumns prompts news ↔ ∀ prompt ∈ prompts, prompt.head? ≠ some padId)
  | [], [], _, _ => by simp [catColumns]
  | prompt :: prompts, new :: news, hlen, hne => by
    have ih := map_stripLeftPad padId maxLen (Nat.succ.inj hlen) fun p hp =>
      hne p (List.mem_cons_of_mem _ hp)
    have hhead := stripLeftPad_padRow padId maxLen (hne prompt List.mem_cons_self) new
    simp only [catColumns] at ih ⊢
    rw [List.map_cons, List.zipWith_cons_cons, List.map_cons, List.zipWith_cons_cons,
      List.cons.injEq, List.forall_mem_cons, hhead, ih]

/-- **Stripped of its padding every row is its prompt and what was decoded for it**, unless a
prompt begins with the padding token. -/
theorem GptModel.generate_stripped {gpt : GptModel F X Score numHeads headDim} {padId : Nat}
    {emptyDense : Nat → Nat × Nat → Heads F numHeads headDim} [LinearOrder Score]
    (hhead : ∀ x, (gpt.outHead x).length = gpt.cfg.vocabSize) (hlayers : gpt.trfBlocks ≠ [])
    (hpad : padId < gpt.cfg.vocabSize) {prompts tokenIds : List (List Nat)} {inputLens : List Nat}
    (hbatch : batchTokenIds prompts padId = .ok (tokenIds, inputLens))
    (hprompts : ∀ prompt ∈ prompts, prompt ≠ []) {maxNewTokens : Int} {out : List (List Nat)}
    (h : gpt.generate math emptyDense tokenIds maxNewTokens (some inputLens) = .ok out) :
    ∃ decoded, prompts.mapM (gpt.greedyDecode math (max maxNewTokens.toNat 1)) = .ok decoded ∧
      (out.map (stripLeftPad · padId)
          = catColumns prompts (decoded.map (List.take maxNewTokens.toNat)) ↔
        ∀ prompt ∈ prompts, prompt.head? ≠ some padId) := by
  rw [generate_greedy hhead hlayers hpad hbatch hprompts] at h
  obtain ⟨decoded, hdecoded, hout⟩ := Exec.bind_eq_ok h
  cases hout
  refine ⟨decoded, hdecoded, ?_⟩
  unfold batchTokenIds at hbatch
  split at hbatch
  · cases hbatch
  · cases hbatch
    exact map_stripLeftPad _ _ (by rw [List.length_map, Exec.length_of_mapM_ok hdecoded]) hprompts

theorem smallHead_stripped : ∃ out decoded, smallHead.generate realMath (fun _ _ _ _ => 0)
      [[0, 1], [2, 1]] 3 (some [2, 1]) = .ok out ∧
    [[0, 1], [1]].mapM (smallHead.greedyDecode realMath 3) = .ok decoded ∧
    (out.map (stripLeftPad · 2) = catColumns [[0, 1], [1]] (decoded.map (List.take 3)) ↔
      ∀ prompt ∈ [[0, 1], [1]], prompt.head? ≠ some 2) := by
  have hhead : ∀ x, (smallHead.outHead x).length = 3 := fun _ => rfl
  have hbatch : batchTokenIds [[0, 1], [1]] 2 = .ok ([[0, 1], [2, 1]], [2, 1]) := rfl
  have hroom : ∀ prompt ∈ [[0, 1], [1]], smallHead.Room 2 prompt := by decide
  have h : smallHead.generate realMath (fun _ _ _ _ => 0) [[0, 1], [2, 1]] 3 (some [2, 1]) = _ :=
    (GptModel.generate_eq hhead (List.cons_ne_nil _ _) (by decide) hbatch (by decide) 3).trans
      (if_pos hroom)
  obtain ⟨decoded, hdecoded⟩ := GptModel.generate_stripped hhead (List.cons_ne_nil _ _) (by decide)
    hbatch (by decide) h
  exact ⟨_, decoded, h, hdecoded⟩

end Nifre
