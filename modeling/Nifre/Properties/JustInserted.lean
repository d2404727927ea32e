import Nifre.Properties.LruOrder

/-!
# What was just inserted is found

The rounds of an insert use the keys of a chain one after the other, and there is room for all of
them. So the keys of the rounds so far are there after every round. A later key of the chain that
was stored before may go in between, and its own round stores it again.
-/

namespace Nifre

open Digest ChainedMap Lru

namespace PrefixCache

variable {Tok : Type} [DecidableEq Tok] {chain : Int → List Tok → Int} {s s' : Shared Tok}

/-- The state of an insert after its first `i` rounds. -/
def afterRounds (chain : Int → List Tok → Int) (s : Shared Tok) (tokenIds : List Tok)
    (physicalBlocks : List Int) (i : Nat) : Shared Tok :=
  Exec.after (insertLoop chain ((fullBlocks s.cache.blockSize tokenIds).take i) physicalBlocks
    rootHash) s

/-- The first rounds of an insert that returns. -/
theorem insertLoop_take {blocks : List (List Tok)} {phys : List Int} {h : Int}
    (hrun : (insertLoop chain blocks phys h).run s = .ok () s') (i : Nat) :
    ∃ s₁, (insertLoop chain (blocks.take i) phys h).run s = .ok () s₁ := by
  induction blocks generalizing phys h s i with
  | nil => exact ⟨s, by rw [List.take_nil]; rfl⟩
  | cons blockTokens rest ih =>
    cases i with
    | zero => exact ⟨s, rfl⟩
    | succ i =>
      cases phys with
      | nil => exact ⟨s, rfl⟩
      | cons blockId phys =>
        rw [insertLoop] at hrun
        obtain ⟨_, s₁, hround, hrest⟩ := Exec.run_bind_eq_ok hrun
        obtain ⟨s₂, hfirst⟩ := ih hrest i
        exact ⟨s₂, by rw [List.take_succ_cons, insertLoop, Exec.run_bind_ok hround, hfirst]⟩

/-- **The blocks of the rounds so far are stored**, after any number of rounds. -/
theorem mem_afterRounds (hfit : Fits s) {tokenIds : List Tok} {phys : List Int}
    (hrun : (insert chain tokenIds phys).run s = .ok () s') {i : Nat} (hblocks : i ≤ phys.length)
    (hroom : i ≤ s.cache.maxEntries) {j : Nat} (hj : j < i)
    (hlt : j < (fullBlocks s.cache.blockSize tokenIds).length) :
    keyAt chain (fullBlocks s.cache.blockSize tokenIds) rootHash j
      ∈ (afterRounds chain s tokenIds phys i).keys := by
  unfold insert at hrun
  rw [Exec.run_bind_ok (EStateM.run_get s)] at hrun
  obtain ⟨s₁, hfirst⟩ := insertLoop_take hrun i
  obtain ⟨-, -, hkeys⟩ := insertLoop_keys hfit hfirst
  have hfit' : s.keys.length ≤ s.cache.maxEntries := by
    rw [OrderedDict.length_keys]
    exact hfit
  rw [afterRounds, Exec.after_of_ok hfirst, hkeys, List.take_take, Nat.min_eq_right hblocks]
  refine mem_foldl_touch s.cache.entries.nodup hfit' ?_ (mem_chainKeys.mpr ⟨j, ?_, ?_⟩)
  · rw [length_chainKeys, List.length_take]
    omega
  · rw [List.length_take]
    omega
  · exact (keyAt_take chain _ _ hj).symm

/-- The same of the whole insert. -/
theorem mem_insert_keys (hfit : Fits s) {tokenIds : List Tok} {phys : List Int}
    (hrun : (insert chain tokenIds phys).run s = .ok () s')
    (hroom : min (tokenIds.length / s.cache.blockSize) phys.length ≤ s.cache.maxEntries) {j : Nat}
    (hj : j < min (tokenIds.length / s.cache.blockSize) phys.length) :
    keyAt chain (fullBlocks s.cache.blockSize tokenIds) rootHash j ∈ s'.keys := by
  obtain ⟨-, -, hkeys⟩ := insert_keys hfit hrun
  have hlen : (storedBlocks s.cache.blockSize tokenIds phys).length
      = min (tokenIds.length / s.cache.blockSize) phys.length := by
    rw [storedBlocks, List.length_take, length_fullBlocks, Nat.min_comm]
  have hfit' : s.keys.length ≤ s.cache.maxEntries := by
    rw [OrderedDict.length_keys]
    exact hfit
  rw [hkeys]
  refine mem_foldl_touch s.cache.entries.nodup hfit' ?_ (mem_chainKeys.mpr ⟨j, ?_, ?_⟩)
  · rw [length_chainKeys, hlen]
    exact hroom
  · rw [hlen]
    exact hj
  · exact (keyAt_take chain _ _ (by omega)).symm

/-- A lookup of the tokens and more goes through the blocks that are stored. -/
theorem le_lookup {p : PrefixCache Tok} {tokenIds : List Tok} {k : Nat}
    (hk : k ≤ tokenIds.length / p.blockSize)
    (hstored : ∀ j < k, keyAt chain (fullBlocks p.blockSize tokenIds) rootHash j ∈ p.entries.keys)
    (suffix : List Tok) : k * p.blockSize ≤ (p.lookup chain (tokenIds ++ suffix)).1.1 := by
  rw [lookup_fst]
  refine Nat.mul_le_mul_right _ ?_
  cases k with
  | zero => exact Nat.zero_le _
  | succ k =>
    have hlen : tokenIds.length / p.blockSize
        ≤ (fullBlocks p.blockSize (tokenIds ++ suffix)).length := by
      rw [length_fullBlocks]
      exact Nat.div_le_div_right (by simp)
    refine lt_length_matched (by omega) fun j hj => ?_
    have := hstored j (by omega)
    rwa [← take_fullBlocks_append p.blockSize tokenIds suffix, keyAt_take chain _ _ (by omega)]
      at this

/-- **Right after an insert its blocks are found**, in every state of a run of calls: a lookup of
the tokens and more matches them. After each round the blocks of the rounds so far are stored. -/
theorem insert_found (chain : Int → List Tok → Int) {blockSize maxEntries : Int}
    {p : PrefixCache Tok} (hnew : new blockSize maxEntries = .ok p) (allocator : BlockAllocator)
    (calls : List (Call Tok)) {tokenIds : List Tok} {phys : List Int} {s s' : Shared Tok}
    (hs : Exec.runAll (call chain) calls ⟨p, allocator⟩ = s)
    (hrun : (insert chain tokenIds phys).run s = .ok () s')
    (hroom : min (tokenIds.length / s.cache.blockSize) phys.length ≤ s.cache.maxEntries) :
    (∀ suffix, min (tokenIds.length / s.cache.blockSize) phys.length * s.cache.blockSize
      ≤ (s'.cache.lookup chain (tokenIds ++ suffix)).1.1) ∧
    ∀ i ≤ min (tokenIds.length / s.cache.blockSize) phys.length, ∀ j < i,
      keyAt chain (fullBlocks s.cache.blockSize tokenIds) rootHash j
        ∈ (afterRounds chain s tokenIds phys i).keys := by
  have hfit : Fits s := by
    rw [← hs]
    refine Exec.runAll_keeps (fun o _ => call_fits o) ?_
    show p.entries.size ≤ p.maxEntries
    rw [new_eq_ok hnew]
    exact Nat.zero_le _
  refine ⟨fun suffix => ?_, fun i hi j hj => ?_⟩
  · obtain ⟨hsizes, -, -⟩ := insert_keys hfit hrun
    rw [← hsizes.blockSize]
    refine le_lookup (Nat.min_le_left _ _) (fun j hj => ?_) suffix
    rw [hsizes.blockSize] at hj ⊢
    exact mem_insert_keys hfit hrun hroom hj
  · refine mem_afterRounds hfit hrun (by omega) (by omega) hj ?_
    rw [length_fullBlocks]
    omega

/-- The root of `[1, 2]` is evicted for `[3]`, and its second block stays. -/
def rootEvicted : List (Call Nat) := [.insert [1, 2] [1, 2], .insert [3] [3]]

/-- `[1, 2]` is stored again: both blocks are found. -/
theorem insert_found_again : ∃ p : PrefixCache Nat, new 1 2 = .ok p ∧ ∃ s',
    (insert sumDigest [1, 2] [1, 2]).run
      (Exec.runAll (call sumDigest) rootEvicted ⟨p, pool⟩) = .ok () s' ∧
    2 * 1 ≤ (s'.cache.lookup sumDigest ([1, 2] ++ [])).1.1 := by
  obtain ⟨p, hp⟩ : ∃ p : PrefixCache Nat, new 1 2 = .ok p := ⟨_, rfl⟩
  obtain ⟨s', hs'⟩ : ∃ s', (insert sumDigest [1, 2] [1, 2]).run
      (Exec.runAll (call sumDigest) rootEvicted ⟨p, pool⟩) = .ok () s' := by
    cases hp
    exact Exec.exists_of_value? (by decide +kernel)
  obtain ⟨hbs, hmax⟩ : (Exec.runAll (call sumDigest) rootEvicted ⟨p, pool⟩).cache.blockSize = 1 ∧
      (Exec.runAll (call sumDigest) rootEvicted ⟨p, pool⟩).cache.maxEntries = 2 := by
    cases hp
    decide +kernel
  have hroom : min (2 / 1) 2 ≤ 2 := by decide
  have hfound := (insert_found sumDigest hp pool rootEvicted rfl hs'
    (by rw [hbs, hmax]; exact hroom)).1 []
  rw [hbs] at hfound
  exact ⟨p, hp, s', hs', hfound⟩

/-- The round of the first block evicts the second block of the same chain. -/
theorem insert_evicts_laterBlock : ∃ p : PrefixCache Nat, new 1 2 = .ok p ∧
    Exec.Returns (insert sumDigest [1, 2] [1, 2])
      (Exec.runAll (call sumDigest) rootEvicted ⟨p, pool⟩) ∧
    ¬∀ i < 2, ∀ j < 2,
      keyAt sumDigest (fullBlocks 1 [1, 2]) rootHash j ∈ (afterRounds sumDigest
        (Exec.runAll (call sumDigest) rootEvicted ⟨p, pool⟩) [1, 2] [1, 2] i).keys →
      keyAt sumDigest (fullBlocks 1 [1, 2]) rootHash j ∈ (afterRounds sumDigest
        (Exec.runAll (call sumDigest) rootEvicted ⟨p, pool⟩) [1, 2] [1, 2] (i + 1)).keys := by
  refine ⟨_, rfl, ⟨(), Exec.exists_of_value? (by decide +kernel)⟩, fun h => ?_⟩
  exact absurd (h 0 (by decide) 1 (by decide) (by decide +kernel)) (by decide +kernel)

end PrefixCache

end Nifre
