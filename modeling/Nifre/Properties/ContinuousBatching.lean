import Nifre.Properties.CacheInterface
import Nifre.Properties.EngineRuns

/-!
# Row-local models

A model is row-local when a forward pass appends to each slot of its batch the rows of that slot's
new tokens, and the logits at the last position of a batch row depend on the tokens of its slot
alone. With prefix caching off the engine serves such a model over a dense or a paged cache.
-/

namespace Nifre

variable {Row Score : Type} [LinearOrder Score]

/-! ## Stores that hold tokens -/

/-- The rows of every slot encode its tokens, and no round is unfinished. -/
def Encoded (config : ModelConfig) (Encodes : Nat → List Nat → List (Row × Row) → Prop)
    (batchSize : Nat) (held : Nat → List Nat) (s : KVStore Row) : Prop :=
  ∀ b < batchSize, ∀ l < config.numLayers, s.len b = (held b).length ∧
    (s.rows b l).length = (held b).length ∧ Encodes l (held b) (s.rows b l)

/-- What is assumed of a model: its forward pass appends one round, in which the slots of the batch
get the rows of their new tokens, and samples each row from its own tokens. `Encodes` says which
rows may stand for a list of tokens at a layer. -/
structure RowLocal (model : InferenceModel Row Score)
    (Encodes : Nat → List Nat → List (Row × Row) → Prop) (logits : List Nat → List Score) :
    Prop where
  nil : ∀ l, Encodes l [] []
  vocabulary : ∀ tokens, logits tokens ≠ []
  call : ∀ {c s held rows tokenIds inputLens}, c.Stores model.config s →
    Encoded model.config Encodes c.batchSize held s →
    FitsIn c.batchSize model.config.maxSeqLen held rows →
    BatchOf model.config.padTokenId rows tokenIds inputLens →
    ∃ out new,
      (∀ row ∈ rows, ∀ l < model.config.numLayers, (new row.1 l).length = row.2.length ∧
        Encodes l (held row.1 ++ row.2) (s.rows row.1 l ++ new row.1 l)) ∧
      (model.call tokenIds inputLens (rows.map Prod.fst)).run c
        = (KVCacheType.appendRound model.config.numLayers new (rows.map Prod.fst) >>= fun _ =>
            pure out).run c ∧
      ∀ (i : Nat) (h : i < rows.length),
        lastLogits out i = some (logits (held rows[i].1 ++ rows[i].2))

/-- The cache stores the tokens that the slots hold, and shares no prefixes. -/
def HoldsTokens (config : ModelConfig) (Encodes : Nat → List Nat → List (Row × Row) → Prop)
    (c : KVCacheType Row) (held : Nat → List Nat) : Prop :=
  c.PrefixOff ∧ ∃ s, c.Stores config s ∧ Encoded config Encodes c.batchSize held s

section

variable {model : InferenceModel Row Score} {Encodes : Nat → List Nat → List (Row × Row) → Prop}
  {logits : List Nat → List Score} {chain : Int → List Nat → Int}

omit [LinearOrder Score] in
/-- A new cache stores nothing. -/
theorem makeCache_stores (hmake : model.makeKvCache = none) {usePagedKvCache usePrefixCache : Bool}
    {n : Nat} {c : KVCacheType Row}
    (h : Engine.makeCache model usePagedKvCache usePrefixCache n = .ok c) :
    c.batchSize = n ∧ c.Stores model.config KVStore.empty ∧
      (usePrefixCache = false → c.PrefixOff) := by
  unfold Engine.makeCache at h
  rw [hmake] at h
  cases usePagedKvCache with
  | false =>
    cases h
    exact ⟨rfl, ⟨KVCache.initBatch_stores .., rfl, rfl⟩, fun _ p hp => by cases hp⟩
  | true =>
    simp only [if_true] at h
    cases hi : (PagedKVCache.initBatch
        ⟨model.config.numLayers, model.config.maxSeqLen, model.config.blockSize, usePrefixCache,
          1024⟩
        model.emptyPaged model.emptyPaged n : Except PyError (PagedKVCache Nat Row)) with
    | error err => rw [hi] at h; cases h
    | ok p =>
      rw [hi] at h
      cases h
      obtain ⟨-, hn, hl, hm, -, -, -, -, hon, -⟩ := PagedKVCache.initBatch_spec hi
      refine ⟨hn, ⟨PagedKVCache.initBatch_stores hi, hl, hm⟩, fun hoff p' hp' => ?_⟩
      cases hp'
      subst hoff
      exact Option.isSome_eq_false_iff.mp hon |> Option.isNone_iff_eq_none.mp

omit [LinearOrder Score] in
theorem makeCache_holdsTokens (hmodel : RowLocal model Encodes logits)
    (hmake : model.makeKvCache = none) {usePagedKvCache : Bool} {n : Nat} {c : KVCacheType Row}
    (h : Engine.makeCache model usePagedKvCache false n = .ok c) :
    c.batchSize = n ∧ HoldsTokens model.config Encodes c fun _ => [] := by
  obtain ⟨hsize, hs, hoff⟩ := makeCache_stores hmake h
  exact ⟨hsize, hoff rfl, _, hs, fun _ _ l _ => ⟨rfl, rfl, hmodel.nil l⟩⟩

/-- **A round** leaves the new tokens in the slots of the batch. -/
theorem Encoded.appendRound {config : ModelConfig} {c : KVCacheType Row} {s : KVStore Row}
    {held : Nat → List Nat} {rows : List (Nat × List Nat)} {limit : Nat}
    (henc : Encoded config Encodes c.batchSize held s) (hs : c.Stores config s)
    (hfits : FitsIn c.batchSize limit held rows) (hlimit : limit = config.maxSeqLen)
    {new : Nat → Nat → List (Row × Row)}
    (hnew : ∀ row ∈ rows, ∀ l < config.numLayers, (new row.1 l).length = row.2.length ∧
      Encodes l (held row.1 ++ row.2) (s.rows row.1 l ++ new row.1 l)) :
    ∃ c', (KVCacheType.appendRound config.numLayers new (rows.map Prod.fst)).run c = .ok () c' ∧
      c'.batchSize = c.batchSize ∧
      ∃ s', c'.Stores config s' ∧ Encoded config Encodes c'.batchSize (feed held rows) s' := by
  subst hlimit
  rcases Nat.eq_zero_or_pos config.numLayers with h0 | hpos
  · refine ⟨c, ?_, rfl, s, hs, fun _ _ l hl => by omega⟩
    rw [h0]
    rfl
  -- the lengths of the new rows do not depend on the layer
  have hmem : ∀ b ∈ rows.map Prod.fst, ∃ tokens, (b, tokens) ∈ rows := by
    intro b hb
    obtain ⟨row, hrow, rfl⟩ := List.mem_map.mp hb
    exact ⟨row.2, hrow⟩
  have htakes : KVCacheType.Takes config s new (fun b => (new b 0).length)
      (rows.map Prod.fst) := by
    refine ⟨hfits.nodup, fun b hb l hl => ?_, fun b hb l hl => ?_, fun b hb => ?_⟩
    all_goals
      obtain ⟨tokens, hrow⟩ := hmem b hb
      have hlt := hfits.slot_lt _ hrow
    · exact (hnew _ hrow l hl).1.trans (hnew _ hrow 0 hpos).1.symm
    · exact (henc b hlt l hl).2.1.trans (henc b hlt l hl).1.symm
    · rw [(henc b hlt 0 hpos).1, (hnew _ hrow 0 hpos).1]
      exact hfits.fits _ hrow
  obtain ⟨c', hround, hs', hsize⟩ := KVCacheType.appendRound_run hpos htakes hs fun b hb => by
    obtain ⟨tokens, hrow⟩ := hmem b hb
    exact hfits.slot_lt _ hrow
  refine ⟨c', hround, hsize, _, hs', ?_⟩
  intro b hb l hl
  rw [hsize] at hb
  have hold := henc b hb l hl
  by_cases hbm : b ∈ rows.map Prod.fst
  · obtain ⟨tokens, hrow⟩ := hmem b hbm
    obtain ⟨hn, hencodes⟩ := hnew _ hrow l hl
    simp only [KVStore.withRound, if_pos hbm, if_true, if_pos hl,
      feed_of_mem hfits.nodup hrow, List.length_append]
    exact ⟨by rw [hold.1, (hnew _ hrow 0 hpos).1], by rw [hold.2.1, hn], hencodes⟩
  · have hne : ¬0 = config.numLayers := by omega
    simp only [KVStore.withRound, if_neg hbm, if_neg hne, Nat.not_lt_zero, if_false,
      feed_of_notMem hbm]
    exact hold

omit [LinearOrder Score] in
/-- **A forward pass** leaves the new tokens in the slots of its batch. -/
theorem call_holdsTokens (hmodel : RowLocal model Encodes logits) {c : KVCacheType Row}
    {held : Nat → List Nat} {rows : List (Nat × List Nat)} {tokenIds : List (List Nat)}
    {inputLens : Option (List Nat)} (hc : HoldsTokens model.config Encodes c held)
    (hfits : FitsIn c.batchSize model.config.maxSeqLen held rows)
    (hbatch : BatchOf model.config.padTokenId rows tokenIds inputLens) :
    ∃ out c', (model.call tokenIds inputLens (rows.map Prod.fst)).run c = .ok out c' ∧
      c'.batchSize = c.batchSize ∧ HoldsTokens model.config Encodes c' (feed held rows) ∧
      ∀ (i : Nat) (h : i < rows.length),
        lastLogits out i = some (logits (held rows[i].1 ++ rows[i].2)) := by
  obtain ⟨hoff, s, hs, henc⟩ := hc
  obtain ⟨out, new, hnew, hrun, hlast⟩ := hmodel.call hs henc hfits hbatch
  obtain ⟨c', hround, hsize, hstored⟩ := henc.appendRound hs hfits rfl hnew
  have hoff' :=
    KVCacheType.appendRound_prefixOff model.config.numLayers new (rows.map Prod.fst) c hoff
  rw [Exec.after_of_ok hround] at hoff'
  refine ⟨out, c', ?_, hsize, ⟨hoff', hstored⟩, hlast⟩
  rw [hrun, Exec.run_bind_ok hround]
  rfl

omit [LinearOrder Score] in
theorem resetSlot_holdsTokens (hmodel : RowLocal model Encodes logits) {c : KVCacheType Row}
    {held : Nat → List Nat} {b : Nat} (hc : HoldsTokens model.config Encodes c held)
    (hb : b < c.batchSize) : ∃ c', (KVCacheType.resetSlot (b : Int)).run c = .ok () c' ∧
      c'.batchSize = c.batchSize ∧
      HoldsTokens model.config Encodes c' (Function.update held b []) := by
  obtain ⟨hoff, s, hs, henc⟩ := hc
  obtain ⟨c', hrun, hs', hsize⟩ := KVCacheType.resetSlot_stores hs hb
  have hoff' := KVCacheType.resetSlot_prefixOff (b : Int) c hoff
  rw [Exec.after_of_ok hrun] at hoff'
  refine ⟨c', hrun, hsize, hoff', _, hs', fun i hi l hl => ?_⟩
  by_cases hib : i = b
  · subst hib
    simp only [KVStore.reset, Function.update_self]
    exact ⟨rfl, rfl, hmodel.nil l⟩
  · simp only [KVStore.reset, Function.update_of_ne hib]
    exact henc i (hsize ▸ hi) l hl

/-- **The engine can serve a row-local model** with prefix caching off. -/
theorem RowLocal.serves (hmodel : RowLocal model Encodes logits)
    (hmake : model.makeKvCache = none) :
    Serves chain model (HoldsTokens model.config Encodes) (fun _ => True) (· = false)
      (nextToken logits) where
  makeCache := by
    rintro usePaged usePrefix n c rfl h
    exact makeCache_holdsTokens hmodel hmake h
  resetSlot := resetSlot_holdsTokens hmodel
  tryLoadPrefix := by
    intro c held b prompt hc hb hp hprompt _
    refine ⟨0, c, ?_, rfl, List.length_pos_iff.mpr hprompt, by rw [if_pos rfl]; exact hc⟩
    obtain ⟨hoff, s, hs, -⟩ := hc
    cases c with
    | dense c => cases hp
    | paged c =>
      have hnone : c.prefixCache = none := hoff c rfl
      have hrun : (PagedKVCache.tryLoadPrefix chain (b : Int) prompt).run c = .ok 0 c := by
        rw [PagedKVCache.tryLoadPrefix, Exec.run_bind_ok (EStateM.run_get c), hnone]
        rfl
      exact congrArg (Exec.embed KVCacheType.paged) hrun
    | hf c => exact hs.elim
  registerPrefix := by
    intro c held b prompt hc hb hp _ _
    refine ⟨c, ?_, rfl, hc⟩
    obtain ⟨hoff, s, hs, -⟩ := hc
    cases c with
    | dense c => cases hp
    | paged c =>
      have hnone : c.prefixCache = none := hoff c rfl
      have hrun : (PagedKVCache.registerPrefix chain (b : Int) prompt).run c = .ok () c := by
        rw [PagedKVCache.registerPrefix, Exec.run_bind_ok (EStateM.run_get c), hnone]
        rfl
      exact congrArg (Exec.embed KVCacheType.paged) hrun
    | hf c => exact hs.elim
  prefill := by
    intro c held rows tokenIds inputLens hc hfits hbatch
    obtain ⟨out, c', hrun, hsize, hc', hlast⟩ := call_holdsTokens hmodel hc hfits (.padded hbatch)
    refine ⟨out, c', hrun, hsize, hc', fun i hi => ?_⟩
    rw [ModelRunner.sampleRow_of_lastLogits (hlast i hi), sampleGreedy_nextToken hmodel.vocabulary]
  decode := by
    intro c held rows hc hfits
    obtain ⟨out, c', hrun, hsize, hc', hlast⟩ := call_holdsTokens hmodel hc hfits (.single rows)
    have hslots : (rows.map fun row => (row.1, [row.2])).map Prod.fst = rows.map Prod.fst := by
      rw [List.map_map]; rfl
    rw [hslots] at hrun
    refine ⟨out, c', hrun, hsize, hc', fun i hi => ?_⟩
    have hrow := hlast i (by simpa using hi)
    rw [List.getElem_map] at hrow
    rw [ModelRunner.sampleRow_of_lastLogits hrow, sampleGreedy_nextToken hmodel.vocabulary]

/-! ## A row-local model -/

/-- The tokens of a batch without their padding. -/
def realTokens (tokenIds : List (List Nat)) : Option (List Nat) → List (List Nat)
  | some inputLens => List.zipWith lastSlice inputLens tokenIds
  | none => tokenIds

omit [LinearOrder Score] in
theorem BatchOf.realTokens {padId : Nat} {rows : List (Nat × List Nat)}
    {tokenIds : List (List Nat)} {inputLens : Option (List Nat)}
    (h : BatchOf padId rows tokenIds inputLens) (hne : ∀ row ∈ rows, row.2 ≠ []) :
    Nifre.realTokens tokenIds inputLens = rows.map Prod.snd := by
  cases h with
  | @padded _ _ inputLens hb =>
    unfold batchTokenIds at hb
    split at hb
    · cases hb
    · cases hb
      refine List.ext_getElem (by simp [Nifre.realTokens]) fun i hi hi' => ?_
      have hlt : i < rows.length := by simpa using hi'
      simp only [Nifre.realTokens, List.getElem_zipWith, List.getElem_map, padRow]
      exact lastSlice_append (hne _ (List.getElem_mem hlt))
  | single rows =>
    rw [Nifre.realTokens, List.map_map]
    rfl

/-- A model whose rows are the tokens themselves, with any logits. -/
def recallModel (config : ModelConfig) (logits : List Nat → List Score) :
    InferenceModel Nat Score where
  config := config
  makeKvCache := none
  emptyDense := fun _ _ => 0
  emptyPaged := fun _ _ => 0
  call := fun tokenIds inputLens slots => do
    let rows := realTokens tokenIds inputLens
    let stored ← slots.mapM fun b : Nat => KVCacheType.get (b : Int) 0
    KVCacheType.appendRound config.numLayers
      (fun b _ => (rows.getD (slots.idxOf b) []).map fun t => (t, t)) slots
    pure (List.zipWith (fun past row => [logits (past.1 ++ row)]) stored rows)

omit [LinearOrder Score] in
theorem recallModel_rowLocal {config : ModelConfig} (hpos : 0 < config.numLayers)
    {logits : List Nat → List Score} (hvocab : ∀ tokens, logits tokens ≠ []) :
    RowLocal (recallModel config logits) (fun _ tokens rows => rows = tokens.map fun t => (t, t))
      logits where
  nil := fun _ => rfl
  vocabulary := hvocab
  call := by
    intro c s held rows tokenIds inputLens hs henc hfits hbatch
    have hreal := hbatch.realTokens hfits.tokens
    have hget : ∀ b ∈ rows.map Prod.fst, (KVCacheType.get (b : Int) 0).run c
        = .ok (held b, held b) c := by
      intro b hb
      obtain ⟨row, hrow, rfl⟩ := List.mem_map.mp hb
      have hlt := hfits.slot_lt row hrow
      obtain ⟨hlen, -, hrows⟩ := henc row.1 hlt 0 hpos
      rw [← Nat.cast_zero, KVCacheType.get_stores hs hlt hpos, KVStore.get, hrows, hlen]
      simp [Function.comp_def, List.take_of_length_le]
    refine ⟨List.zipWith (fun past row => [logits (past.1 ++ row)])
        ((rows.map Prod.fst).map fun b => (held b, held b)) (rows.map Prod.snd),
      fun b _ => ((rows.map Prod.snd).getD ((rows.map Prod.fst).idxOf b) []).map
        fun t => (t, t), ?_, ?_, ?_⟩
    · intro row hrow l hl
      obtain ⟨i, hi, rfl⟩ := List.getElem_of_mem hrow
      have hidx : (rows.map Prod.fst).idxOf rows[i].1 = i := by
        have := hfits.nodup.idxOf_getElem i (by simpa using hi)
        simpa using this
      simp only [hidx]
      rw [List.getD_eq_getElem _ _ (by simpa using hi), List.getElem_map,
        (henc _ (hfits.slot_lt _ hrow) l hl).2.2, List.map_append]
      exact ⟨List.length_map _, rfl⟩
    · show EStateM.run (_ >>= fun stored => _ >>= fun _ => _) c = _
      rw [hreal, Exec.run_bind_ok (Exec.run_mapM_read hget)]
      rfl
    · intro i hi
      rw [lastLogits, List.getElem?_eq_getElem (by simpa using hi)]
      simp

end

/-- The scores of a vocabulary of five tokens: the sum of the tokens is next. -/
def sumScores (tokens : List Nat) : List Nat :=
  (List.range 5).map fun t => if t = tokens.sum % 5 then 1 else 0

theorem length_sumScores (tokens : List Nat) : (sumScores tokens).length = 5 := by
  simp [sumScores]

theorem sumScores_ne_nil (tokens : List Nat) : sumScores tokens ≠ [] := by
  simp [sumScores]

end Nifre
