import Nifre.Properties.HfContents
import Mathlib.Algebra.BigOperators.Group.List.Basic

/-!
# The books of the Hugging Face prefix cache

The memory is counted block by block: an insert adds the bytes of a block that is new, and an
eviction takes off those of the block that goes. A hit adds the tokens of the prefix it returns.
-/

namespace Nifre

open Digest ChainedMap

/-- `n` rows of keys and of values in each of `numLayers` layers. -/
structure Past.Rows {Row : Type} (numLayers n : Nat) (past : Past Row) : Prop where
  layers : past.length = numLayers
  keys : ∀ layer ∈ past, layer.keys.length = n
  values : ∀ layer ∈ past, layer.values.length = n

namespace BlockPrefixCache

variable {Tok Row : Type} {numLayers : Nat}

/-- The bytes of all the blocks that are stored. -/
def storedBytes (p : BlockPrefixCache Tok Row) : Nat := (p.entries.values.map p.blockBytes).sum

/-- The books are right. -/
structure Booked (numLayers : Nat) (p : BlockPrefixCache Tok Row) : Prop where
  blockSize_pos : 0 < p.blockSize
  maxEntries_pos : 0 < p.maxEntries
  memory : p.memoryBytes = p.storedBytes
  size_le : p.entries.size ≤ p.maxEntries
  lookups : p.lookups = p.hits + p.misses
  blocks : ∀ block ∈ p.entries.values, block.Rows numLayers p.blockSize

/-- The sizes and the bytes of a row do not change. -/
structure SameShape (p p' : BlockPrefixCache Tok Row) : Prop where
  blockSize : p'.blockSize = p.blockSize
  maxEntries : p'.maxEntries = p.maxEntries
  rowBytes : p'.rowBytes = p.rowBytes

theorem SameShape.trans {p p' p'' : BlockPrefixCache Tok Row} (h : SameShape p p')
    (h' : SameShape p' p'') : SameShape p p'' where
  blockSize := h'.blockSize.trans h.blockSize
  maxEntries := h'.maxEntries.trans h.maxEntries
  rowBytes := h'.rowBytes.trans h.rowBytes

/-- The counters of the lookups do not change either. -/
structure SameCounters (p p' : BlockPrefixCache Tok Row) : Prop where
  shape : SameShape p p'
  lookups : p'.lookups = p.lookups
  hits : p'.hits = p.hits
  misses : p'.misses = p.misses
  tokensReused : p'.tokensReused = p.tokensReused

theorem SameCounters.refl (p : BlockPrefixCache Tok Row) : SameCounters p p :=
  ⟨⟨rfl, rfl, rfl⟩, rfl, rfl, rfl, rfl⟩

theorem SameCounters.trans {p p' p'' : BlockPrefixCache Tok Row} (h : SameCounters p p')
    (h' : SameCounters p' p'') : SameCounters p p'' where
  shape := h.shape.trans h'.shape
  lookups := h'.lookups.trans h.lookups
  hits := h'.hits.trans h.hits
  misses := h'.misses.trans h.misses
  tokensReused := h'.tokensReused.trans h.tokensReused

/-! ## insert -/

theorem evictOldest_booked {p : BlockPrefixCache Tok Row} (h : p.Booked numLayers)
    (hne : p.entries.size ≠ 0) :
    ∃ p', evictOldest.run p = .ok () p' ∧ p'.Booked numLayers ∧ SameCounters p p' ∧
      p'.entries.size + 1 = p.entries.size := by
  unfold evictOldest
  rw [Exec.run_bind_ok (EStateM.run_get p)]
  cases hpop : p.entries.popFirst? with
  | none => exact absurd (OrderedDict.popFirst?_eq_none_iff.mp hpop) hne
  | some r =>
    obtain ⟨⟨k, block⟩, rest⟩ := r
    have hentries := OrderedDict.popFirst?_eq_some hpop
    have hvalues : p.entries.values = block :: rest.values := by
      unfold OrderedDict.values
      rw [hentries, List.map_cons]
    have hsize : rest.size + 1 = p.entries.size := by
      unfold OrderedDict.size
      rw [hentries, List.length_cons]
    refine ⟨_, rfl, ⟨h.blockSize_pos, h.maxEntries_pos, ?_, ?_, h.lookups, ?_⟩,
      ⟨⟨rfl, rfl, rfl⟩, rfl, rfl, rfl, rfl⟩, hsize⟩
    · -- what is left is all but the bytes of the block that goes
      have hmemory := h.memory
      unfold storedBytes at hmemory
      rw [hvalues, List.map_cons, List.sum_cons] at hmemory
      show p.memoryBytes - p.blockBytes block = ((rest.values.map p.blockBytes).sum : Nat)
      omega
    · have := h.size_le
      show rest.size ≤ p.maxEntries
      omega
    · intro b hb
      exact h.blocks b (by rw [hvalues]; exact List.mem_cons_of_mem _ hb)

/-- **The eviction loop makes room**: more rounds than there are entries leave fewer entries than
the most there may be. -/
theorem evictWhileFull_booked : ∀ (rounds : Nat) {p : BlockPrefixCache Tok Row},
    p.Booked numLayers → p.entries.size < rounds →
    ∃ p', (evictWhileFull rounds).run p = .ok () p' ∧ p'.Booked numLayers ∧ SameCounters p p' ∧
      p'.entries.size < p'.maxEntries ∧ ∀ e ∈ p'.entries.entries, e ∈ p.entries.entries
  | 0, p, _, hrounds => absurd hrounds (Nat.not_lt_zero _)
  | rounds + 1, p, h, hrounds => by
    rw [evictWhileFull, Exec.run_bind_ok (EStateM.run_get p)]
    by_cases hfull : p.maxEntries ≤ p.entries.size
    · rw [if_pos hfull]
      have hne : p.entries.size ≠ 0 := by
        have := h.maxEntries_pos
        omega
      obtain ⟨p₁, hrun₁, hb₁, hc₁, hsize₁⟩ := evictOldest_booked h hne
      obtain ⟨p₁', hrun₁', -, hsub₁⟩ := evictOldest_run hne
      obtain rfl : p₁ = p₁' := (EStateM.Result.ok.inj (hrun₁.symm.trans hrun₁')).2
      obtain ⟨p₂, hrun₂, hb₂, hc₂, hroom, hsub₂⟩ := evictWhileFull_booked rounds hb₁ (by omega)
      exact ⟨p₂, by rw [Exec.run_bind_ok hrun₁]; exact hrun₂, hb₂, hc₁.trans hc₂, hroom,
        fun e he => hsub₁ e (hsub₂ e he)⟩
    · rw [if_neg hfull]
      exact ⟨p, rfl, h, .refl p, Nat.lt_of_not_le hfull, fun _ he => he⟩

/-- A slice of a full block has a row for each of its tokens. -/
theorem slices_rows {layers : Past Row} {cachedLen bs i : Nat} (h : layers.Rows numLayers cachedLen)
    (hi : i * bs + bs ≤ cachedLen) : (slices layers (i * bs) (i * bs + bs)).Rows numLayers bs := by
  unfold slices
  refine ⟨by rw [List.length_map]; exact h.layers, ?_, ?_⟩
  · intro layer hlayer
    obtain ⟨l, hl, rfl⟩ := List.mem_map.mp hlayer
    have hkeys := h.keys l hl
    rw [List.length_drop, List.length_take]
    omega
  · intro layer hlayer
    obtain ⟨l, hl, rfl⟩ := List.mem_map.mp hlayer
    have hvalues := h.values l hl
    rw [List.length_drop, List.length_take]
    omega

section

variable [DecidableEq Tok]

/-- Moving an entry changes none of the books. -/
theorem moveToEnd_booked {p : BlockPrefixCache Tok Row} (h : p.Booked numLayers)
    (key : Int × List Tok) :
    Booked numLayers { p with entries := p.entries.moveToEnd key } := by
  have hperm : (p.entries.moveToEnd key).values.Perm p.entries.values :=
    (p.entries.moveToEnd_perm key).map Prod.snd
  refine ⟨h.blockSize_pos, h.maxEntries_pos, ?_, ?_, h.lookups, ?_⟩
  · rw [h.memory]
    exact congrArg Int.ofNat (hperm.map p.blockBytes).sum_eq.symm
  · show (p.entries.moveToEnd key).size ≤ p.maxEntries
    rw [OrderedDict.size_moveToEnd]
    exact h.size_le
  · exact fun block hblock => h.blocks block (hperm.mem_iff.mp hblock)

/-- A new block in a cache with room. -/
theorem store_booked {p : BlockPrefixCache Tok Row} (h : p.Booked numLayers)
    (hroom : p.entries.size < p.maxEntries) {key : Int × List Tok} (hnew : key ∉ p.entries.keys)
    {block : Past Row} (hblock : block.Rows numLayers p.blockSize) :
    Booked numLayers { p with
      entries := p.entries.insert key block
      memoryBytes := p.memoryBytes + p.blockBytes block } := by
  have hvalues : (p.entries.insert key block).values = p.entries.values ++ [block] := by
    unfold OrderedDict.values
    rw [OrderedDict.insert_of_notMem hnew, List.map_append]
    rfl
  refine ⟨h.blockSize_pos, h.maxEntries_pos, ?_, ?_, h.lookups, ?_⟩
  · show p.memoryBytes + p.blockBytes block
      = (((p.entries.insert key block).values.map p.blockBytes).sum : Nat)
    rw [hvalues, List.map_append, List.sum_append, h.memory]
    simp [storedBytes]
  · show (p.entries.insert key block).size ≤ p.maxEntries
    rw [OrderedDict.size_insert_of_notMem hnew]
    exact hroom
  · intro b hb
    rcases List.mem_append.mp (hvalues ▸ hb) with hold | hb
    · exact h.blocks b hold
    · rw [List.mem_singleton.mp hb]
      exact hblock

/-- **One round of an insert.** -/
theorem insertRound_booked {p : BlockPrefixCache Tok Row} (h : p.Booked numLayers)
    {layers : Past Row} {cachedLen : Nat} (hlayers : layers.Rows numLayers cachedLen)
    (key : Int × List Tok) {i : Nat} (hi : i * p.blockSize + p.blockSize ≤ cachedLen) :
    ∃ p', (insertRound layers key i).run p = .ok () p' ∧ p'.Booked numLayers ∧
      SameCounters p p' := by
  unfold insertRound
  rw [Exec.run_bind_ok (EStateM.run_get p)]
  by_cases hin : p.entries.contains key = false
  · rw [if_pos hin]
    obtain ⟨p₁, hrun₁, hb₁, hc₁, hroom, hsub⟩ :=
      evictWhileFull_booked (p.entries.size + 1) h (Nat.lt_succ_self _)
    simp only
    rw [Exec.run_bind_ok hrun₁]
    have hnew : key ∉ p₁.entries.keys := by
      intro hkey
      obtain ⟨v, hv⟩ := OrderedDict.mem_keys_iff.mp hkey
      have hcontains := OrderedDict.contains_iff.mpr (OrderedDict.mem_keys_of_mem (hsub _ hv))
      exact Bool.false_ne_true (hin.symm.trans hcontains)
    have hslice := slices_rows (i := i) hlayers hi
    rw [← hc₁.shape.blockSize] at hslice
    exact ⟨_, rfl, moveToEnd_booked (store_booked hb₁ hroom hnew hslice) key,
      hc₁.trans ⟨⟨rfl, rfl, rfl⟩, rfl, rfl, rfl, rfl⟩⟩
  · rw [if_neg hin]
    exact ⟨_, rfl, moveToEnd_booked h key, ⟨⟨rfl, rfl, rfl⟩, rfl, rfl, rfl, rfl⟩⟩

variable (chain : Int → List Tok → Int)

/-- The loop of an insert, over blocks that are cached. -/
theorem insertLoop_booked {layers : Past Row} {cachedLen : Nat}
    (hlayers : layers.Rows numLayers cachedLen) : ∀ (blocks : List (List Tok)) (i : Nat)
    (parentHash : Int) {p : BlockPrefixCache Tok Row}, p.Booked numLayers →
    (i + blocks.length) * p.blockSize ≤ cachedLen →
    ∃ p', (insertLoop chain layers blocks i parentHash).run p = .ok () p' ∧ p'.Booked numLayers ∧
      SameCounters p p'
  | [], _, _, p, h, _ => ⟨p, rfl, h, .refl p⟩
  | blockTokens :: rest, i, parentHash, p, h, hle => by
    have hone : i * p.blockSize + p.blockSize ≤ cachedLen := by
      rw [← Nat.succ_mul]
      refine (Nat.mul_le_mul_right _ ?_).trans hle
      rw [List.length_cons]
      omega
    obtain ⟨p₁, hrun₁, hb₁, hc₁⟩ := insertRound_booked h hlayers (parentHash, blockTokens) hone
    have hrest : (i + 1 + rest.length) * p₁.blockSize ≤ cachedLen := by
      rw [hc₁.shape.blockSize, Nat.add_assoc, Nat.add_comm 1]
      exact hle
    obtain ⟨p₂, hrun₂, hb₂, hc₂⟩ :=
      insertLoop_booked hlayers rest (i + 1) (chain parentHash blockTokens) hb₁ hrest
    exact ⟨p₂, by rw [insertLoop, Exec.run_bind_ok hrun₁]; exact hrun₂, hb₂, hc₁.trans hc₂⟩

theorem insert_booked {p : BlockPrefixCache Tok Row} (h : p.Booked numLayers)
    (tokenIds : List Tok) {layers : Past Row} {cachedLen : Nat}
    (hlayers : layers.Rows numLayers cachedLen) :
    ∃ p', (insert chain tokenIds layers cachedLen).run p = .ok () p' ∧ p'.Booked numLayers ∧
      SameCounters p p' := by
  unfold insert
  rw [Exec.run_bind_ok (EStateM.run_get p), if_neg (Nat.ne_of_gt h.blockSize_pos)]
  refine insertLoop_booked chain hlayers _ 0 rootHash h ?_
  rw [Nat.zero_add, List.length_take]
  have hdiv := Nat.div_mul_le_self (min tokenIds.length cachedLen) p.blockSize
  have hmul := Nat.mul_le_mul_right p.blockSize
    (Nat.min_le_left (min tokenIds.length cachedLen / p.blockSize)
      (fullBlocks p.blockSize tokenIds).length)
  omega

/-! ## lookup -/

omit [DecidableEq Tok] in
/-- A layer of full blocks, concatenated. -/
theorem catLayer_rows {bs l : Nat} (hl : l < numLayers) {matched : List (Past Row)}
    (h : ∀ block ∈ matched, block.Rows numLayers bs) :
    ∃ layer, catLayer matched l = .ok layer ∧ layer.keys.length = matched.length * bs ∧
      layer.values.length = matched.length * bs := by
  have hget : ∀ block ∈ matched, layerAt l block = .ok (block.getD l ⟨[], []⟩) ∧
      block.getD l ⟨[], []⟩ ∈ block := by
    intro block hblock
    have hlen : l < block.length := by rwa [(h block hblock).layers]
    rw [layerAt, List.getElem?_eq_getElem hlen, List.getD_eq_getElem _ _ hlen]
    exact ⟨rfl, List.getElem_mem hlen⟩
  have hlayers : matched.mapM (layerAt l) = .ok (matched.map fun block => block.getD l ⟨[], []⟩) :=
    Exec.mapM_ok fun block hblock => (hget block hblock).1
  have hlen : ∀ f : LayerPast Row → List Row,
      (∀ block ∈ matched, (f (block.getD l ⟨[], []⟩)).length = bs) →
      ((matched.map fun block => block.getD l ⟨[], []⟩).flatMap f).length
        = matched.length * bs := by
    intro f hf
    rw [List.length_flatMap, List.map_map, Function.comp_def,
      List.map_congr_left (g := fun _ => bs) hf]
    simp
  refine ⟨⟨(matched.map fun block => block.getD l ⟨[], []⟩).flatMap (·.keys),
    (matched.map fun block => block.getD l ⟨[], []⟩).flatMap (·.values)⟩, ?_, ?_, ?_⟩
  · unfold catLayer
    rw [hlayers]
    rfl
  · exact hlen (·.keys) fun block hblock => (h block hblock).keys _ (hget block hblock).2
  · exact hlen (·.values) fun block hblock => (h block hblock).values _ (hget block hblock).2

/-- What a call answers, with the number of tokens it restores: a prefix has as many rows in every
layer, for keys and for values, and they are full blocks. -/
inductive Answer (numLayers blockSize : Nat) : Option (Past Row) → Nat → Prop
  | nothing : Answer numLayers blockSize none 0
  | restored {past : Past Row} {n : Nat} : blockSize ∣ n → past.Rows numLayers n →
    Answer numLayers blockSize (some past) n

/-- **A lookup counts itself, and the tokens it restores.** -/
theorem lookup_booked {p : BlockPrefixCache Tok Row} (h : p.Booked numLayers)
    (tokenIds : List Tok) :
    ∃ r p' n, (lookup chain tokenIds).run p = .ok r p' ∧ p'.Booked numLayers ∧ SameShape p p' ∧
      Answer numLayers p.blockSize r n ∧ p'.tokensReused = p.tokensReused + n := by
  obtain ⟨hmatched, hperm⟩ := lookupLoop_eq chain ((fullBlocks p.blockSize tokenIds).take
    ((tokenIds.length - 1) / p.blockSize)) rootHash p.entries []
  rw [List.nil_append] at hmatched
  -- the blocks that are found are among those that are stored
  have hfound : ∀ block ∈ matched chain p.entries ((fullBlocks p.blockSize tokenIds).take
      ((tokenIds.length - 1) / p.blockSize)) rootHash, block.Rows numLayers p.blockSize := by
    intro block hblock
    obtain ⟨i, hi, rfl⟩ := List.mem_iff_getElem.mp hblock
    have hmem := matched_mem chain _ _ _ i _ (List.getElem?_eq_getElem hi)
    exact h.blocks _ (OrderedDict.mem_values_iff.mpr ⟨_, hmem⟩)
  have hbooked : ∀ q : BlockPrefixCache Tok Row, SameShape p q →
      q.memoryBytes = p.memoryBytes → q.entries.entries.Perm p.entries.entries →
      q.lookups = q.hits + q.misses → q.Booked numLayers := by
    intro q hs hmem hq hlookups
    have hvalues : q.entries.values.Perm p.entries.values := hq.map Prod.snd
    have hbytes : q.blockBytes = p.blockBytes := by
      funext block
      unfold blockBytes
      rw [hs.rowBytes]
    refine ⟨by rw [hs.blockSize]; exact h.blockSize_pos,
      by rw [hs.maxEntries]; exact h.maxEntries_pos, ?_, ?_, hlookups, fun block hblock => ?_⟩
    · rw [hmem, h.memory]
      unfold storedBytes
      rw [hbytes, (hvalues.map p.blockBytes).sum_eq]
    · rw [hs.maxEntries]
      exact (Nat.le_of_eq hq.length_eq).trans h.size_le
    · rw [hs.blockSize]
      exact h.blocks block (hvalues.mem_iff.mp hblock)
  unfold lookup
  rw [Exec.run_bind_ok (EStateM.run_get p), if_neg (Nat.ne_of_gt h.blockSize_pos)]
  simp only [hmatched]
  have hlookups := h.lookups
  cases hf : matched chain p.entries ((fullBlocks p.blockSize tokenIds).take
      ((tokenIds.length - 1) / p.blockSize)) rootHash with
  | nil =>
    refine ⟨none, _, 0, rfl, hbooked _ ⟨rfl, rfl, rfl⟩ rfl hperm ?_, ⟨rfl, rfl, rfl⟩, .nothing, rfl⟩
    show p.lookups + 1 = p.hits + (p.misses + 1)
    omega
  | cons first rest =>
    rw [hf] at hfound
    have hfirst := (hfound first List.mem_cons_self).layers
    have hcat : ∀ l ∈ List.range first.length, ∃ layer, catLayer (first :: rest) l = .ok layer ∧
        layer.keys.length = (first :: rest).length * p.blockSize ∧
        layer.values.length = (first :: rest).length * p.blockSize := by
      intro l hl
      rw [hfirst] at hl
      exact catLayer_rows (List.mem_range.mp hl) hfound
    have : Nonempty (LayerPast Row) := ⟨⟨[], []⟩⟩
    choose! layerOf hlayerOf using hcat
    have hall : (List.range first.length).mapM (catLayer (first :: rest))
        = .ok ((List.range first.length).map layerOf) :=
      Exec.mapM_ok fun l hl => (hlayerOf l hl).1
    refine ⟨some ((List.range first.length).map layerOf), { p with
        entries := (lookupLoop chain ((fullBlocks p.blockSize tokenIds).take
          ((tokenIds.length - 1) / p.blockSize)) rootHash p.entries []).2
        lookups := p.lookups + 1
        hits := p.hits + 1
        tokensReused := p.tokensReused + (first :: rest).length * p.blockSize },
      (first :: rest).length * p.blockSize, ?_,
      hbooked _ ⟨rfl, rfl, rfl⟩ rfl hperm ?_, ⟨rfl, rfl, rfl⟩,
      .restored (Nat.dvd_mul_left _ _) ⟨by simpa using hfirst, ?_, ?_⟩, rfl⟩
    · simp only [hall]
      rfl
    · show p.lookups + 1 = p.hits + 1 + p.misses
      omega
    · intro layer hlayer
      obtain ⟨l, hl, rfl⟩ := List.mem_map.mp hlayer
      exact (hlayerOf l hl).2.1
    · intro layer hlayer
      obtain ⟨l, hl, rfl⟩ := List.mem_map.mp hlayer
      exact (hlayerOf l hl).2.2

/-! ## Runs -/

/-- The layers that are inserted have a row for each cached token. -/
def Op.Shaped (numLayers : Nat) : Op Tok Row → Prop
  | .insert _ layers cachedLen => layers.Rows numLayers cachedLen
  | .lookup _ => True
  | .clear => True

/-- **One call.** -/
theorem perform_booked {p : BlockPrefixCache Tok Row} (h : p.Booked numLayers) {c : Op Tok Row}
    (hc : c.Shaped numLayers) :
    ∃ r p' n, (perform chain c).run p = .ok r p' ∧ p'.Booked numLayers ∧ SameShape p p' ∧
      Answer numLayers p.blockSize r n ∧ p'.tokensReused = p.tokensReused + n := by
  cases c with
  | insert tokenIds layers cachedLen =>
    obtain ⟨p', hrun, hb, hsame⟩ := insert_booked chain h tokenIds hc
    exact ⟨none, p', 0, by rw [perform, Exec.run_bind_ok hrun]; rfl, hb, hsame.shape, .nothing,
      hsame.tokensReused⟩
  | lookup tokenIds => exact lookup_booked chain h tokenIds
  | clear =>
    let p' : BlockPrefixCache Tok Row := { p with entries := OrderedDict.empty, memoryBytes := 0 }
    have hb : p'.Booked numLayers := ⟨h.blockSize_pos, h.maxEntries_pos, rfl, Nat.zero_le _,
      h.lookups, fun block hblock => nomatch hblock⟩
    exact ⟨none, p', 0, rfl, hb, ⟨rfl, rfl, rfl⟩, .nothing, rfl⟩

/-- **The books over a run of calls.** -/
theorem replies_booked : ∀ {ops : List (Op Tok Row)} {p : BlockPrefixCache Tok Row},
    p.Booked numLayers → (∀ c ∈ ops, c.Shaped numLayers) →
    ∃ results p' lengths, (Exec.replies (perform chain) ops).run p = .ok results p' ∧
      p'.Booked numLayers ∧ SameShape p p' ∧
      List.Forall₂ (Answer numLayers p.blockSize) results lengths ∧
      p'.tokensReused = p.tokensReused + lengths.sum
  | [], p, h, _ => ⟨[], p, [], rfl, h, ⟨rfl, rfl, rfl⟩, .nil, rfl⟩
  | c :: ops, p, h, hshaped => by
    obtain ⟨r, p₁, n, hrun₁, hb₁, hs₁, ha₁, ht₁⟩ :=
      perform_booked chain h (hshaped c List.mem_cons_self)
    obtain ⟨results, p₂, lengths, hrun₂, hb₂, hs₂, ha₂, ht₂⟩ := replies_booked hb₁
      fun c' hc' => hshaped c' (List.mem_cons_of_mem c hc')
    rw [hs₁.blockSize] at ha₂
    refine ⟨r :: results, p₂, n :: lengths, Exec.replies_cons_ok hrun₁ hrun₂, hb₂, hs₁.trans hs₂,
      .cons ha₁ ha₂, ?_⟩
    rw [ht₂, ht₁, List.sum_cons, Nat.add_assoc]

/-- **The books are exact after every run of calls**: no call raises, the memory is that of the
stored blocks, there are no more entries than allowed, every lookup is a hit or a miss, and the
tokens reused are those of the prefixes that were returned. -/
theorem bookkeeping_exact {blockSize maxEntries : Nat} (hbs : 0 < blockSize) (hmax : 0 < maxEntries)
    (rowBytes : Nat) {ops : List (Op Tok Row)} (hshaped : ∀ c ∈ ops, c.Shaped numLayers) :
    ∃ results p, (Exec.replies (perform chain) ops).run (new blockSize maxEntries rowBytes)
        = .ok results p ∧
      p.memoryBytes = (p.entries.values.map p.blockBytes).sum ∧ p.rowBytes = rowBytes ∧
      p.entries.size ≤ maxEntries ∧ p.lookups = p.hits + p.misses ∧
      ∃ lengths, List.Forall₂ (Answer numLayers blockSize) results lengths ∧
        p.tokensReused = lengths.sum := by
  have hstart : (new blockSize maxEntries rowBytes : BlockPrefixCache Tok Row).Booked numLayers :=
    ⟨hbs, hmax, rfl, Nat.zero_le _, rfl, fun block hblock => nomatch hblock⟩
  obtain ⟨results, p, lengths, hrun, hb, hs, ha, ht⟩ := replies_booked chain hstart hshaped
  refine ⟨results, p, hrun, hb.memory, hs.rowBytes, ?_, hb.lookups, lengths, ha, ?_⟩
  · exact hb.size_le.trans (Nat.le_of_eq hs.maxEntries)
  · rw [ht]
    exact Nat.zero_add _

end

/-- Two prompts with a common block, in a cache for two blocks. -/
def sharedBlockOps : List (Op Nat Nat) :=
  [.insert [1, 2, 3, 4, 5] [⟨[1, 2, 3, 4], [5, 6, 7, 8]⟩] 4, .lookup [1, 2, 3, 4, 9],
    .insert [1, 2, 7, 8] [⟨[1, 2, 9, 9], [5, 6, 9, 9]⟩] 4, .lookup [1, 2, 3, 4, 9], .clear]

theorem sharedBlockOps_exact :
    ∃ results p,
      (Exec.replies (perform fun parent tokens => parent + (tokens.sum : Nat)) sharedBlockOps).run
        (new 2 2 8) = .ok results p ∧
      p.memoryBytes = (p.entries.values.map p.blockBytes).sum ∧ p.rowBytes = 8 ∧
      p.entries.size ≤ 2 ∧ p.lookups = p.hits + p.misses ∧
      ∃ lengths, List.Forall₂ (Answer 1 2) results lengths ∧ p.tokensReused = lengths.sum := by
  refine bookkeeping_exact _ (by decide) (by decide) 8 fun c hc => ?_
  simp only [sharedBlockOps, List.mem_cons, List.not_mem_nil, or_false] at hc
  rcases hc with rfl | rfl | rfl | rfl | rfl
  · exact ⟨rfl, by simp, by simp⟩
  · trivial
  · exact ⟨rfl, by simp, by simp⟩
  · trivial
  · trivial

end BlockPrefixCache

end Nifre
