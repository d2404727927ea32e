import Nifre.Inference.HfKvCache
import Nifre.Spec.KVStore
import Mathlib.Data.List.GetD

/-!
# What the Hugging Face cache stores

The past of a token list is a function of the list, and its rows are those of the list's prefixes.
An entry of the prefix cache is the slice of that past for the last block of its chain, so the
concatenated entries of a chain are the past of the chain's tokens.
-/

namespace Nifre

open Digest ChainedMap

variable {Tok Row : Type}

/-! ## Pasts -/

/-- The past of a token list, when a token's rows are a function of the tokens up to it. -/
def pastOf (numLayers : Nat) (row : Nat → List Tok → Row × Row) (tokens : List Tok) : Past Row :=
  (List.range numLayers).map fun l =>
    { keys := prefixRows (fun t => (row l t).1) tokens
      values := prefixRows (fun t => (row l t).2) tokens }

theorem pastKeyValuesLength_pastOf {numLayers : Nat} (hpos : 0 < numLayers)
    (row : Nat → List Tok → Row × Row) (tokens : List Tok) :
    pastKeyValuesLength (some (pastOf numLayers row tokens)) = tokens.length := by
  obtain ⟨n, rfl⟩ := Nat.exists_eq_add_one.mpr hpos
  simp [pastOf, List.range_succ_eq_map, pastKeyValuesLength]

namespace BlockPrefixCache

/-- A slice depends on the tokens up to its end. -/
theorem slices_take (numLayers : Nat) (row : Nat → List Tok → Row × Row) (tokens : List Tok)
    (start stop : Nat) : slices (pastOf numLayers row (tokens.take stop)) start stop
      = slices (pastOf numLayers row tokens) start stop := by
  unfold slices pastOf
  simp only [List.map_map]
  refine List.map_congr_left fun l _ => ?_
  simp only [Function.comp_apply, take_prefixRows, List.take_take, Nat.min_self]

/-- The blocks of a list, one after the other. -/
theorem flatMap_blocks {α : Type} (bs : Nat) (xs : List α) : ∀ m : Nat,
    (List.range m).flatMap (fun i => (xs.take (i * bs + bs)).drop (i * bs)) = xs.take (m * bs)
  | 0 => by simp
  | m + 1 => by
    rw [List.range_succ, List.flatMap_append, flatMap_blocks bs xs m, List.flatMap_singleton,
      Nat.succ_mul, List.drop_take, Nat.add_sub_cancel_left, List.take_add]

/-- **The blocks of a past, concatenated.** -/
theorem catLayer_blocks {numLayers l : Nat} (hl : l < numLayers) (row : Nat → List Tok → Row × Row)
    (tokens : List Tok) (bs m : Nat) :
    catLayer ((List.range m).map fun i =>
        slices (pastOf numLayers row tokens) (i * bs) (i * bs + bs)) l
      = .ok ⟨prefixRows (fun t => (row l t).1) (tokens.take (m * bs)),
          prefixRows (fun t => (row l t).2) (tokens.take (m * bs))⟩ := by
  have hget : ∀ block ∈ (List.range m).map fun i =>
      slices (pastOf numLayers row tokens) (i * bs) (i * bs + bs), block[l]? = some
        (block.getD l ⟨[], []⟩) := by
    intro block hblock
    obtain ⟨i, -, rfl⟩ := List.mem_map.mp hblock
    have hlen : l < (slices (pastOf numLayers row tokens) (i * bs) (i * bs + bs)).length := by
      simpa [slices, pastOf] using hl
    rw [List.getElem?_eq_getElem hlen, List.getD_eq_getElem _ _ hlen]
  unfold catLayer
  rw [Exec.mapM_ok (g := fun block => block.getD l ⟨[], []⟩)
    fun block hblock => by rw [layerAt, hget block hblock]]
  show Except.ok _ = _
  rw [← take_prefixRows, ← take_prefixRows, ← flatMap_blocks, ← flatMap_blocks]
  simp only [List.map_map, List.flatMap_map]
  congr 2
  all_goals
    refine List.flatMap_congr fun i _ => ?_
    simp [slices, pastOf, hl]

/-! ## What an insert leaves -/

/-- The sizes of the cache do not change. -/
structure SameSizes (p p' : BlockPrefixCache Tok Row) : Prop where
  blockSize : p'.blockSize = p.blockSize
  maxEntries : p'.maxEntries = p.maxEntries

theorem SameSizes.trans {p p' p'' : BlockPrefixCache Tok Row} (h : SameSizes p p')
    (h' : SameSizes p' p'') : SameSizes p p'' :=
  ⟨h'.blockSize.trans h.blockSize, h'.maxEntries.trans h.maxEntries⟩

section

variable [DecidableEq Tok]

omit [DecidableEq Tok] in
theorem evictOldest_run {p : BlockPrefixCache Tok Row} (h : p.entries.size ≠ 0) :
    ∃ p', evictOldest.run p = .ok () p' ∧ SameSizes p p' ∧
      ∀ e ∈ p'.entries.entries, e ∈ p.entries.entries := by
  unfold evictOldest
  rw [Exec.run_bind_ok (EStateM.run_get p)]
  cases hp : p.entries.popFirst? with
  | none => exact absurd (OrderedDict.popFirst?_eq_none_iff.mp hp) h
  | some r =>
    obtain ⟨⟨k, block⟩, rest⟩ := r
    refine ⟨_, rfl, ⟨rfl, rfl⟩, fun e he => ?_⟩
    rw [OrderedDict.popFirst?_eq_some hp]
    exact List.mem_cons_of_mem _ he

omit [DecidableEq Tok] in
/-- The eviction loop never raises, and only drops entries. -/
theorem evictWhileFull_run : ∀ (rounds : Nat) {p : BlockPrefixCache Tok Row}, 0 < p.maxEntries →
    ∃ p', (evictWhileFull rounds).run p = .ok () p' ∧ SameSizes p p' ∧
      ∀ e ∈ p'.entries.entries, e ∈ p.entries.entries
  | 0, p, _ => ⟨p, rfl, ⟨rfl, rfl⟩, fun _ he => he⟩
  | rounds + 1, p, hpos => by
    rw [evictWhileFull, Exec.run_bind_ok (EStateM.run_get p)]
    by_cases hfull : p.maxEntries ≤ p.entries.size
    · rw [if_pos hfull]
      obtain ⟨p₁, hrun₁, hs₁, he₁⟩ := evictOldest_run (p := p) (by omega)
      obtain ⟨p₂, hrun₂, hs₂, he₂⟩ := evictWhileFull_run rounds (p := p₁)
        (by rw [hs₁.maxEntries]; exact hpos)
      exact ⟨p₂, by rw [Exec.run_bind_ok hrun₁]; exact hrun₂, hs₁.trans hs₂,
        fun e he => he₁ e (he₂ e he)⟩
    · rw [if_neg hfull]
      exact ⟨p, rfl, ⟨rfl, rfl⟩, fun _ he => he⟩

/-- One round: the key's entry is there afterwards, and it is the block's slice if it is new. -/
theorem insertRound_run {p : BlockPrefixCache Tok Row} (hpos : 0 < p.maxEntries)
    (layers : Past Row) (key : Int × List Tok) (i : Nat) :
    ∃ p', (insertRound layers key i).run p = .ok () p' ∧ SameSizes p p' ∧
      ∀ k block, (k, block) ∈ p'.entries.entries → (k, block) ∈ p.entries.entries ∨
        k = key ∧ block = slices layers (i * p.blockSize) (i * p.blockSize + p.blockSize) := by
  unfold insertRound
  rw [Exec.run_bind_ok (EStateM.run_get p)]
  by_cases hin : p.entries.contains key = false
  · rw [if_pos hin]
    obtain ⟨p₁, hrun₁, hs₁, he₁⟩ := evictWhileFull_run (p.entries.size + 1) hpos
    simp only
    rw [Exec.run_bind_ok hrun₁]
    refine ⟨_, rfl, ⟨hs₁.blockSize, hs₁.maxEntries⟩, fun k block hmem => ?_⟩
    have hmem' := OrderedDict.mem_moveToEnd.mp hmem
    rcases OrderedDict.mem_insert.mp hmem' with ⟨hk, hblock⟩ | ⟨-, hold⟩
    · exact Or.inr ⟨hk, by rw [hblock, hs₁.blockSize]⟩
    · exact Or.inl (he₁ _ hold)
  · rw [if_neg hin]
    exact ⟨_, rfl, ⟨rfl, rfl⟩, fun k block hmem => Or.inl (OrderedDict.mem_moveToEnd.mp hmem)⟩

variable (chain : Int → List Tok → Int)

/-- **The loop of `insert` never raises**, and adds slices of `layers` for the chain's blocks. -/
theorem insertLoop_run (layers : Past Row) : ∀ (blocks : List (List Tok)) (i : Nat) (h : Int)
    {p : BlockPrefixCache Tok Row}, 0 < p.maxEntries →
    ∃ p', (insertLoop chain layers blocks i h).run p = .ok () p' ∧ SameSizes p p' ∧
      ∀ k block, (k, block) ∈ p'.entries.entries → (k, block) ∈ p.entries.entries ∨
        ∃ j < blocks.length, k = keyAt chain blocks h j ∧
          block = slices layers ((i + j) * p.blockSize) ((i + j) * p.blockSize + p.blockSize)
  | [], i, h, p, _ => ⟨p, rfl, ⟨rfl, rfl⟩, fun _ _ hmem => Or.inl hmem⟩
  | blockTokens :: rest, i, h, p, hpos => by
    obtain ⟨p₁, hrun₁, hs₁, he₁⟩ := insertRound_run hpos layers (h, blockTokens) i
    obtain ⟨p₂, hrun₂, hs₂, he₂⟩ := insertLoop_run layers rest (i + 1) (chain h blockTokens)
      (p := p₁) (by rw [hs₁.maxEntries]; exact hpos)
    refine ⟨p₂, by rw [insertLoop, Exec.run_bind_ok hrun₁]; exact hrun₂, hs₁.trans hs₂, ?_⟩
    intro k block hmem
    rcases he₂ k block hmem with hold | ⟨j, hj, hk, hblock⟩
    · rcases he₁ k block hold with hold | ⟨hk, hblock⟩
      · exact Or.inl hold
      · exact Or.inr ⟨0, Nat.zero_lt_succ _, hk, hblock⟩
    · refine Or.inr ⟨j + 1, Nat.succ_lt_succ hj, hk, ?_⟩
      rw [hblock, hs₁.blockSize, Nat.add_right_comm, Nat.add_assoc]

/-- **`insert` never raises**, and adds slices of `layers` for the full blocks of the tokens. -/
theorem insert_run {p : BlockPrefixCache Tok Row} (hbs : 0 < p.blockSize) (hpos : 0 < p.maxEntries)
    (tokenIds : List Tok) (layers : Past Row) (cachedLen : Nat) :
    ∃ p', (insert chain tokenIds layers cachedLen).run p = .ok () p' ∧ SameSizes p p' ∧
      ∀ k block, (k, block) ∈ p'.entries.entries → (k, block) ∈ p.entries.entries ∨
        ∃ j < (fullBlocks p.blockSize tokenIds).length,
          k = keyAt chain (fullBlocks p.blockSize tokenIds) rootHash j ∧
          block = slices layers (j * p.blockSize) (j * p.blockSize + p.blockSize) := by
  unfold insert
  rw [Exec.run_bind_ok (EStateM.run_get p), if_neg (Nat.ne_of_gt hbs)]
  obtain ⟨p', hrun, hs, he⟩ := insertLoop_run chain layers
    ((fullBlocks p.blockSize tokenIds).take (min tokenIds.length cachedLen / p.blockSize)) 0 rootHash
    hpos
  refine ⟨p', hrun, hs, fun k block hmem => (he k block hmem).imp_right ?_⟩
  rintro ⟨j, hj, hk, hblock⟩
  have hlt := hj
  rw [List.length_take] at hlt
  refine ⟨j, Nat.lt_of_lt_of_le hlt (Nat.min_le_right _ _), ?_, by rw [hblock, Nat.zero_add]⟩
  rw [hk, keyAt_take chain _ _ (Nat.lt_of_lt_of_le hlt (Nat.min_le_left _ _))]

/-! ## What a lookup finds -/

/-- The blocks a lookup of `tokenIds` finds. -/
def found (chain : Int → List Tok → Int) (p : BlockPrefixCache Tok Row) (tokenIds : List Tok) :
    List (Past Row) :=
  matched chain p.entries ((fullBlocks p.blockSize tokenIds).take
    ((tokenIds.length - 1) / p.blockSize)) rootHash

theorem lookupLoop_eq : ∀ (blocks : List (List Tok)) (h : Int)
    (entries : OrderedDict (Int × List Tok) (Past Row)) (acc : List (Past Row)),
    (lookupLoop chain blocks h entries acc).1 = acc ++ matched chain entries blocks h ∧
      (lookupLoop chain blocks h entries acc).2.entries.Perm entries.entries
  | [], _, entries, acc => by simp [lookupLoop, matched]
  | b :: rest, h, entries, acc => by
    rw [lookupLoop, matched]
    cases hf : entries.find? (h, b) with
    | none => simp
    | some node =>
      obtain ⟨h1, h2⟩ := lookupLoop_eq rest (chain h b) (entries.moveToEnd (h, b))
        (acc ++ [node])
      refine ⟨?_, h2.trans (entries.moveToEnd_perm _)⟩
      rw [h1, matched_moveToEnd]
      simp only [List.append_assoc, List.singleton_append]

/-- **A hit leaves at least one token**: what is found ends before the last one. -/
theorem found_lt {p : BlockPrefixCache Tok Row} {tokenIds : List Tok} (hne : tokenIds ≠ []) :
    (p.found chain tokenIds).length * p.blockSize < tokenIds.length := by
  have hle := matched_length_le chain p.entries ((fullBlocks p.blockSize tokenIds).take
    ((tokenIds.length - 1) / p.blockSize)) rootHash
  rw [List.length_take] at hle
  have hdiv := Nat.div_mul_le_self (tokenIds.length - 1) p.blockSize
  have hmul := Nat.mul_le_mul_right p.blockSize (hle.trans (Nat.min_le_left _ _))
  have := List.length_pos_iff.mpr hne
  unfold found
  omega

variable {chain}

/-- A lookup that finds something returns the concatenation of what is found. -/
theorem lookup_eq_some {p p' : BlockPrefixCache Tok Row} {tokenIds : List Tok} {layers : Past Row}
    (h : (lookup chain tokenIds).run p = .ok (some layers) p') :
    ∃ first rest, p.found chain tokenIds = first :: rest ∧
      (List.range first.length).mapM (catLayer (first :: rest)) = .ok layers := by
  unfold lookup at h
  rw [Exec.run_bind_ok (EStateM.run_get p)] at h
  split at h
  · cases h
  have hmatched := (lookupLoop_eq chain ((fullBlocks p.blockSize tokenIds).take
    ((tokenIds.length - 1) / p.blockSize)) rootHash p.entries []).1
  have hfound : [] ++ matched chain p.entries ((fullBlocks p.blockSize tokenIds).take
      ((tokenIds.length - 1) / p.blockSize)) rootHash = p.found chain tokenIds := List.nil_append _
  rw [hfound] at hmatched
  simp only [hmatched] at h
  cases hf : p.found chain tokenIds with
  | nil => rw [hf] at h; cases h
  | cons first rest =>
    rw [hf] at h
    simp only at h
    rw [Exec.run_bind_ok (EStateM.run_set _ p)] at h
    split at h
    · cases h
    · next all hall =>
      cases h
      exact ⟨first, rest, rfl, hall⟩

/-! ## Entries that store the past of their chain -/

/-- Every entry is the last block's slice of the past of its chain, and the chain is in play. -/
structure Sound (chain : Int → List Tok → Int) (P : Set (List (List Tok))) (numLayers : Nat)
    (row : Nat → List Tok → Row × Row) (p : BlockPrefixCache Tok Row) : Prop where
  blockSize_pos : 0 < p.blockSize
  maxEntries_pos : 0 < p.maxEntries
  entries : ∀ key block, (key, block) ∈ p.entries.entries →
    ∃ before blockTokens, key = (digest chain rootHash before, blockTokens) ∧
      InPlay P (before ++ [blockTokens]) ∧
      block = slices (pastOf numLayers row (before ++ [blockTokens]).flatten)
        (before.length * p.blockSize) (before.length * p.blockSize + p.blockSize)

variable {P : Set (List (List Tok))} {numLayers : Nat} {row : Nat → List Tok → Row × Row}

omit [DecidableEq Tok] in
/-- The slice of a prompt's past for one of its full blocks. -/
theorem slices_chain {bs i : Nat} {tokenIds : List Tok} (hi : i < (fullBlocks bs tokenIds).length) :
    slices (pastOf numLayers row ((fullBlocks bs tokenIds).take i
        ++ [(fullBlocks bs tokenIds).getD i []]).flatten)
        (((fullBlocks bs tokenIds).take i).length * bs)
        (((fullBlocks bs tokenIds).take i).length * bs + bs)
      = slices (pastOf numLayers row tokenIds) (i * bs) (i * bs + bs) := by
  have hlen : ((fullBlocks bs tokenIds).take i).length = i := by
    rw [List.length_take]
    omega
  have hle : i + 1 ≤ tokenIds.length / bs := by rwa [length_fullBlocks] at hi
  rw [List.getD_eq_getElem _ _ hi, ← List.take_succ_eq_append_getElem hi,
    flatten_take_fullBlocks hle, hlen, Nat.succ_mul, slices_take]

/-- **Registering a prompt's own past keeps the entries sound.** -/
theorem insert_sound {p : BlockPrefixCache Tok Row} (h : Sound chain P numLayers row p)
    {tokenIds : List Tok} (hP : fullBlocks p.blockSize tokenIds ∈ P) (cachedLen : Nat) :
    ∃ p', (insert chain tokenIds (pastOf numLayers row tokenIds) cachedLen).run p = .ok () p' ∧
      SameSizes p p' ∧ Sound chain P numLayers row p' := by
  obtain ⟨p', hrun, hs, he⟩ := insert_run chain h.blockSize_pos h.maxEntries_pos tokenIds
    (pastOf numLayers row tokenIds) cachedLen
  refine ⟨p', hrun, hs, by rw [hs.blockSize]; exact h.blockSize_pos,
    by rw [hs.maxEntries]; exact h.maxEntries_pos, fun k block hmem => ?_⟩
  rw [hs.blockSize]
  rcases he k block hmem with hold | ⟨j, hj, hk, hblock⟩
  · exact h.entries k block hold
  · refine ⟨(fullBlocks p.blockSize tokenIds).take j, (fullBlocks p.blockSize tokenIds).getD j [],
      hk, ?_, by rw [slices_chain hj, hblock]⟩
    rw [List.getD_eq_getElem _ _ hj, ← List.take_succ_eq_append_getElem hj]
    exact InPlay.take hP (j + 1)

/-- **What a lookup finds is the past of the prompt, block by block**, when the chains in play do
not collide. -/
theorem Sound.found_eq {p : BlockPrefixCache Tok Row} (h : Sound chain P numLayers row p)
    (hash : CollisionFree chain rootHash P) {tokenIds : List Tok}
    (hP : fullBlocks p.blockSize tokenIds ∈ P) :
    p.found chain tokenIds = (List.range (p.found chain tokenIds).length).map fun i =>
      slices (pastOf numLayers row tokenIds) (i * p.blockSize) (i * p.blockSize + p.blockSize) := by
  refine List.ext_getElem (by simp) fun i hi _ => ?_
  rw [List.getElem_map, List.getElem_range]
  have hmem := matched_mem chain _ _ _ i _ (List.getElem?_eq_getElem hi)
  have hlt : i < ((fullBlocks p.blockSize tokenIds).take
      ((tokenIds.length - 1) / p.blockSize)).length :=
    Nat.lt_of_lt_of_le hi (matched_length_le chain _ _ _)
  rw [List.length_take] at hlt
  have hi' := Nat.lt_of_lt_of_le hlt (Nat.min_le_right _ _)
  rw [keyAt_take chain _ _ (Nat.lt_of_lt_of_le hlt (Nat.min_le_left _ _))] at hmem
  obtain ⟨before, blockTokens, hkey, hplay, hblock⟩ := h.entries _ _ hmem
  have hbefore : (fullBlocks p.blockSize tokenIds).take i = before :=
    hash _ _ (InPlay.take hP i) (hplay.ofShorter (List.prefix_append before [blockTokens]))
      (Prod.ext_iff.mp hkey).1
  have htokens : (fullBlocks p.blockSize tokenIds).getD i [] = blockTokens :=
    (Prod.ext_iff.mp hkey).2
  rw [← hbefore, ← htokens, slices_chain hi'] at hblock
  exact hblock

/-- **A lookup returns the past of the longest cached prefix.** -/
theorem lookup_run {p : BlockPrefixCache Tok Row} (h : Sound chain P numLayers row p)
    (hash : CollisionFree chain rootHash P) {tokenIds : List Tok}
    (hP : fullBlocks p.blockSize tokenIds ∈ P) :
    ∃ p', (lookup chain tokenIds).run p
        = .ok (if (p.found chain tokenIds).length = 0 then none else
            some (pastOf numLayers row
              (tokenIds.take ((p.found chain tokenIds).length * p.blockSize)))) p' ∧
      SameSizes p p' ∧ Sound chain P numLayers row p' := by
  obtain ⟨hmatched, hperm⟩ := lookupLoop_eq chain ((fullBlocks p.blockSize tokenIds).take
    ((tokenIds.length - 1) / p.blockSize)) rootHash p.entries []
  have hfound : [] ++ matched chain p.entries ((fullBlocks p.blockSize tokenIds).take
      ((tokenIds.length - 1) / p.blockSize)) rootHash = p.found chain tokenIds := List.nil_append _
  rw [hfound] at hmatched
  have hsound : ∀ q : BlockPrefixCache Tok Row, SameSizes p q →
      q.entries.entries.Perm p.entries.entries → Sound chain P numLayers row q := by
    intro q hs hq
    refine ⟨by rw [hs.blockSize]; exact h.blockSize_pos, by rw [hs.maxEntries]; exact h.maxEntries_pos,
      fun k block hmem => ?_⟩
    rw [hs.blockSize]
    exact h.entries k block (hq.mem_iff.mp hmem)
  unfold lookup
  rw [Exec.run_bind_ok (EStateM.run_get p), if_neg (Nat.ne_of_gt h.blockSize_pos)]
  simp only [hmatched]
  have heq := h.found_eq hash hP
  cases hf : p.found chain tokenIds with
  | nil => exact ⟨_, rfl, ⟨rfl, rfl⟩, hsound _ ⟨rfl, rfl⟩ hperm⟩
  | cons first rest =>
    have hfirst : first.length = numLayers := by
      rw [hf] at heq
      have h0 := congrArg (·[0]?) heq
      simp only [List.length_cons, List.getElem?_cons_zero, List.getElem?_map,
        List.getElem?_range (Nat.succ_pos _), Option.map_some, Option.some.injEq] at h0
      rw [h0]
      simp [slices, pastOf]
    have hlayers : (List.range numLayers).mapM (catLayer (first :: rest))
        = .ok (pastOf numLayers row
            (tokenIds.take ((first :: rest).length * p.blockSize))) := by
      rw [hf] at heq
      refine Exec.mapM_ok fun l hl => ?_
      rw [heq, catLayer_blocks (List.mem_range.mp hl)]
      simp
    refine ⟨{ p with
      entries := (lookupLoop chain ((fullBlocks p.blockSize tokenIds).take
        ((tokenIds.length - 1) / p.blockSize)) rootHash p.entries []).2
      lookups := p.lookups + 1
      hits := p.hits + 1
      tokensReused := p.tokensReused + (first :: rest).length * p.blockSize }, ?_, ⟨rfl, rfl⟩,
      hsound _ ⟨rfl, rfl⟩ hperm⟩
    simp only [hfirst, hlayers]
    rfl

end

end BlockPrefixCache

end Nifre
