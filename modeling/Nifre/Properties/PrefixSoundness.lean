import Mathlib.Data.Fintype.Pigeonhole
import Mathlib.Data.Int.Interval
import Nifre.Properties.PrefixEntries

/-!
# Whose blocks a prefix hit returns

A key holds the tokens of its own block and a digest of the blocks before it. So a block that a
lookup returns was stored for a prompt with the same tokens up to there, as long as the chains
before the blocks of the prompts do not collide. No digest into 64 bits keeps all of them apart.

* `PrefixCache.Registered`, `BlockPrefixCache.Registered` — what the inserts of a run stored
* `lookup_registered` — every block found was stored for a prompt that agrees up to there
* `hit_crosses` — with a digest into 64 bits, some run hands out another prompt's block
-/

namespace Nifre

open Digest ChainedMap

/-- The longest chain of `tokenIds` that stands before a block. -/
def chainBefore {Tok : Type} (bs : Nat) (tokenIds : List Tok) : List (List Tok) :=
  (fullBlocks bs tokenIds).dropLast

/-- Prompts whose first blocks agree have the same tokens up to there. -/
theorem take_eq_of_blocks {Tok : Type} {bs i : Nat} {p q : List Tok}
    (hp : i < (fullBlocks bs p).length) (hq : i < (fullBlocks bs q).length)
    (h : (fullBlocks bs p).take (i + 1) = (fullBlocks bs q).take (i + 1)) :
    p.take ((i + 1) * bs) = q.take ((i + 1) * bs) := by
  rw [length_fullBlocks] at hp hq
  rw [← flatten_take_fullBlocks hp, ← flatten_take_fullBlocks hq, h]

namespace PrefixCache

variable {Tok : Type} [DecidableEq Tok] (chain : Int → List Tok → Int)

/-! ## Runs of the paged cache's prefix cache -/

/-- A call of the prefix cache, or whatever the other users of the allocator do to it. -/
inductive Call (Tok : Type) where
  | insert (tokenIds : List Tok) (physicalBlocks : List Int)
  | lookup (tokenIds : List Tok)
  | elsewhere (allocator : BlockAllocator)

def call : Call Tok → M Tok Unit
  | .insert tokenIds physicalBlocks => PrefixCache.insert chain tokenIds physicalBlocks
  | .lookup tokenIds => modify fun s => { s with cache := (s.cache.lookup chain tokenIds).2 }
  | .elsewhere allocator => modify fun s => { s with allocator := allocator }

/-- Block `b` was given for block `i` of `tokenIds`. -/
def Registered (calls : List (Call Tok)) (tokenIds : List Tok) (i : Nat) (b : Int) : Prop :=
  ∃ physicalBlocks, .insert tokenIds physicalBlocks ∈ calls ∧ physicalBlocks[i]? = some b

/-- The entries that the inserts of a run account for. -/
def StoredBy (bs : Nat) (calls : List (Call Tok)) : CacheKey Tok → Int → Prop :=
  Recorded chain rootHash fun blocks i b =>
    ∃ tokenIds, blocks = fullBlocks bs tokenIds ∧ Registered calls tokenIds i b

variable {chain} {bs : Nat} {calls : List (Call Tok)}

/-- Each call of a run keeps to what the run's inserts store. -/
theorem call_storedBy {o : Call Tok} (ho : o ∈ calls) :
    Exec.Keeps (AllEntries bs (StoredBy chain bs calls)) (call chain o) := by
  cases o with
  | insert tokenIds physicalBlocks =>
    exact insert_allEntries fun i b hi hb =>
      ⟨fullBlocks bs tokenIds, i, hi, rfl, tokenIds, rfl, physicalBlocks, ho, hb⟩
  | lookup tokenIds =>
    refine Exec.Keeps.modify fun s hs => ⟨hs.1, fun key b hmem => hs.2 key b ?_⟩
    exact (lookup_entries_perm chain s.cache tokenIds).mem_iff.mp hmem
  | elsewhere allocator => exact Exec.Keeps.modify fun _ hs => hs

omit [DecidableEq Tok] in
theorem new_eq_ok {blockSize maxEntries : Int} {p : PrefixCache Tok}
    (h : new blockSize maxEntries = .ok p) : p.entries = OrderedDict.empty := by
  unfold new at h
  split at h
  · cases h
  · split at h
    · cases h
    · cases h
      rfl

/-- **Every block that a lookup finds was stored for a prompt that agrees with it up to there**, if
no two chains before a block collide. -/
theorem lookup_registered {P : Set (List (List Tok))} (hash : CollisionFree chain rootHash P)
    {blockSize maxEntries : Int} {p : PrefixCache Tok} (hnew : new blockSize maxEntries = .ok p)
    (allocator : BlockAllocator) {tokenIds : List Tok}
    (hin : ∀ prompt physicalBlocks, .insert prompt physicalBlocks ∈ calls →
      chainBefore p.blockSize prompt ∈ P) (hP : chainBefore p.blockSize tokenIds ∈ P)
    {i : Nat} {b : Int}
    (hi : (((Exec.runAll (call chain) calls ⟨p, allocator⟩).cache.lookup chain
      tokenIds).1.2)[i]? = some b) :
    ∃ prompt, Registered calls prompt i b ∧
      prompt.take ((i + 1) * p.blockSize) = tokenIds.take ((i + 1) * p.blockSize) := by
  have hstart : AllEntries p.blockSize (StoredBy chain p.blockSize calls) ⟨p, allocator⟩ := by
    refine ⟨rfl, fun key b hmem => ?_⟩
    rw [show (Shared.mk p allocator).cache = p from rfl, new_eq_ok hnew] at hmem
    cases hmem
  obtain ⟨hbs, hall⟩ := Exec.runAll_keeps (fun o ho => call_storedBy ho) hstart
  generalize Exec.runAll (call chain) calls ⟨p, allocator⟩ = s at hi hbs hall
  rw [lookup_fst] at hi
  unfold found at hi
  rw [hbs] at hi
  have hlt := (List.getElem?_eq_some_iff.mp hi).1.trans_le (matched_length_le chain _ _ _)
  obtain ⟨blocks, hlt', ⟨prompt, rfl, hreg⟩, htake⟩ := matched_origin chain hash hall
    (by
      rintro _ _ _ ⟨prompt, rfl, physicalBlocks, hmem, -⟩
      exact .self (hin prompt physicalBlocks hmem))
    (.self hP) hi
  exact ⟨prompt, hreg, take_eq_of_blocks hlt' hlt htake⟩

end PrefixCache

namespace BlockPrefixCache

variable {Tok Row : Type} [DecidableEq Tok] (chain : Int → List Tok → Int)

/-! ## Runs of the Hugging Face cache's prefix cache -/

inductive Call (Tok Row : Type) where
  | insert (tokenIds : List Tok) (layers : Past Row) (cachedLen : Nat)
  | lookup (tokenIds : List Tok)

def call : Call Tok Row → M Tok Row Unit
  | .insert tokenIds layers cachedLen => BlockPrefixCache.insert chain tokenIds layers cachedLen
  | .lookup tokenIds => do let _ ← BlockPrefixCache.lookup chain tokenIds

/-- `block` is the slice of layers that were given for block `i` of `tokenIds`. -/
def Registered (calls : List (Call Tok Row)) (bs : Nat) (tokenIds : List Tok) (i : Nat)
    (block : Past Row) : Prop :=
  ∃ layers cachedLen, .insert tokenIds layers cachedLen ∈ calls ∧
    block = slices layers (i * bs) (i * bs + bs)

/-- The entries that the inserts of a run account for. -/
def StoredBy (bs : Nat) (calls : List (Call Tok Row)) : Int × List Tok → Past Row → Prop :=
  Recorded chain rootHash fun blocks i block =>
    ∃ tokenIds, blocks = fullBlocks bs tokenIds ∧ Registered calls bs tokenIds i block

variable {chain} {bs : Nat} {calls : List (Call Tok Row)}

theorem call_storedBy {o : Call Tok Row} (ho : o ∈ calls) :
    Exec.Keeps (AllEntries bs (StoredBy chain bs calls)) (call chain o) := by
  cases o with
  | insert tokenIds layers cachedLen =>
    refine insert_allEntries fun i hi => ?_
    have hlt : i < (fullBlocks bs tokenIds).length := by
      rw [length_fullBlocks]
      exact hi.trans_le (Nat.div_le_div_right (Nat.min_le_left _ _))
    exact ⟨fullBlocks bs tokenIds, i, hlt, rfl, tokenIds, rfl, layers, cachedLen, ho, rfl⟩
  | lookup tokenIds =>
    intro p hp
    rw [call, Exec.after_dropped]
    exact lookup_allEntries tokenIds p hp

/-- **Every block of what a lookup returns was stored for a prompt that agrees with it up to there**,
if no two chains before a block collide. -/
theorem lookup_registered {P : Set (List (List Tok))} (hash : CollisionFree chain rootHash P)
    {blockSize maxEntries rowBytes : Nat} {tokenIds : List Tok}
    (hin : ∀ prompt layers cachedLen, .insert prompt layers cachedLen ∈ calls →
      chainBefore blockSize prompt ∈ P) (hP : chainBefore blockSize tokenIds ∈ P)
    {layers : Past Row} {p' : BlockPrefixCache Tok Row}
    (h : (lookup chain tokenIds).run (Exec.runAll (call chain) calls
      (new blockSize maxEntries rowBytes)) = .ok (some layers) p') :
    ∃ first rest, (List.range first.length).mapM (catLayer (first :: rest)) = .ok layers ∧
      ∀ i block, (first :: rest)[i]? = some block →
        ∃ prompt, Registered calls blockSize prompt i block ∧
          prompt.take ((i + 1) * blockSize) = tokenIds.take ((i + 1) * blockSize) := by
  have hstart : AllEntries blockSize (StoredBy chain blockSize calls)
      (new blockSize maxEntries rowBytes : BlockPrefixCache Tok Row) :=
    ⟨rfl, fun key block hmem => by cases hmem⟩
  obtain ⟨hbs, hall⟩ := Exec.runAll_keeps (fun o ho => call_storedBy ho) hstart
  obtain ⟨first, rest, hfound, hcat⟩ := lookup_eq_some h
  generalize Exec.runAll (call chain) calls (new blockSize maxEntries rowBytes) = p at hbs hall hfound
  refine ⟨first, rest, hcat, fun i block hi => ?_⟩
  rw [← hfound] at hi
  unfold found at hi
  rw [hbs] at hi
  have hlt := (List.getElem?_eq_some_iff.mp hi).1.trans_le (matched_length_le chain _ _ _)
  -- the blocks that are looked up leave the last token out
  have hprefix : ((fullBlocks blockSize tokenIds).take
      ((tokenIds.length - 1) / blockSize)).dropLast <+: chainBefore blockSize tokenIds := by
    rw [chainBefore, List.dropLast_eq_take, List.dropLast_eq_take, List.take_take, List.length_take]
    exact List.take_prefix_take_left (by omega)
  rw [List.length_take] at hlt
  obtain ⟨blocks, hlt', ⟨prompt, rfl, hreg⟩, htake⟩ := matched_origin chain hash hall
    (by
      rintro _ _ _ ⟨prompt, rfl, layers, cachedLen, hmem, -⟩
      exact .self (hin prompt layers cachedLen hmem))
    ((InPlay.self hP).ofShorter hprefix) hi
  rw [List.take_take, Nat.min_eq_left (by omega)] at htake
  exact ⟨prompt, hreg, take_eq_of_blocks hlt' (by omega) htake⟩

end BlockPrefixCache

/-! ## Both caches -/

/-- A pool of four blocks, of which the last three are allocated. -/
def PrefixCache.pool : BlockAllocator where
  numBlocks := 4
  free := [0]
  inUse := {1, 2, 3}
  refcount := fun b => if b ∈ ({1, 2, 3} : Finset Int) then 1 else 0

/-- **A prefix hit never crosses prompts whose chains do not collide**, in either cache: every block
returned was stored for a prompt that agrees with the one looked up to the end of the block. -/
theorem hit_ownPrompt {Tok Row : Type} [DecidableEq Tok] {chain : Int → List Tok → Int}
    {P : Set (List (List Tok))} (hash : CollisionFree chain 0 P) :
    (∀ (calls : List (PrefixCache.Call Tok)) (blockSize maxEntries : Int) (p : PrefixCache Tok)
      (allocator : BlockAllocator) (tokenIds : List Tok),
      PrefixCache.new blockSize maxEntries = .ok p →
      (∀ prompt physicalBlocks, .insert prompt physicalBlocks ∈ calls →
        chainBefore p.blockSize prompt ∈ P) → chainBefore p.blockSize tokenIds ∈ P →
      ∀ i b, (((Exec.runAll (PrefixCache.call chain) calls ⟨p, allocator⟩).cache.lookup chain
          tokenIds).1.2)[i]? = some b →
        ∃ prompt, PrefixCache.Registered calls prompt i b ∧
          prompt.take ((i + 1) * p.blockSize) = tokenIds.take ((i + 1) * p.blockSize)) ∧
    ∀ (calls : List (BlockPrefixCache.Call Tok Row)) (blockSize maxEntries rowBytes : Nat)
      (tokenIds : List Tok) (layers : Past Row) (p' : BlockPrefixCache Tok Row),
      (∀ prompt layers cachedLen, .insert prompt layers cachedLen ∈ calls →
        chainBefore blockSize prompt ∈ P) → chainBefore blockSize tokenIds ∈ P →
      (BlockPrefixCache.lookup chain tokenIds).run (Exec.runAll (BlockPrefixCache.call chain) calls
        (BlockPrefixCache.new blockSize maxEntries rowBytes)) = .ok (some layers) p' →
      ∃ blocks : List (Past Row), blocks ≠ [] ∧
        (List.range layers.length).mapM (BlockPrefixCache.catLayer blocks) = .ok layers ∧
        ∀ i block, blocks[i]? = some block →
          ∃ prompt, BlockPrefixCache.Registered calls blockSize prompt i block ∧
            prompt.take ((i + 1) * blockSize) = tokenIds.take ((i + 1) * blockSize) := by
  refine ⟨fun calls blockSize maxEntries p allocator tokenIds hnew hin hP i b hi =>
    PrefixCache.lookup_registered hash hnew allocator hin hP hi,
    fun calls blockSize maxEntries rowBytes tokenIds layers p' hin hP h => ?_⟩
  obtain ⟨first, rest, hcat, hall⟩ := BlockPrefixCache.lookup_registered hash hin hP h
  have hlen := Exec.length_of_mapM_ok hcat
  rw [List.length_range] at hlen
  rw [← hlen] at hcat
  exact ⟨first :: rest, List.cons_ne_nil _ _, hcat, hall⟩

/-- A digest for the runs of this file: ten times the digest before, and the sum of the block. -/
def sumDigest (h : Int) (block : List Nat) : Int := 10 * h + block.sum

/-- Prompts `[1, 3]` and `[1, 2]` share the first block in both caches. -/
theorem hit_ownPrompt_sharedBlock :
    (∃ p : PrefixCache Nat, PrefixCache.new 1 8 = .ok p ∧
      ∃ prompt, PrefixCache.Registered [.insert [1, 2] [1, 2]] prompt 0 1 ∧
        prompt.take ((0 + 1) * p.blockSize) = [1, 3].take ((0 + 1) * p.blockSize)) ∧
    ∃ blocks : List (Past Nat), blocks ≠ [] ∧
      (List.range 1).mapM (BlockPrefixCache.catLayer blocks) = .ok [⟨[10], [11]⟩] ∧
      ∀ i block, blocks[i]? = some block →
        ∃ prompt, BlockPrefixCache.Registered [.insert [1, 2] [⟨[10, 20], [11, 21]⟩] 2] 1 prompt i
            block ∧ prompt.take ((i + 1) * 1) = [1, 3].take ((i + 1) * 1) := by
  have hash : CollisionFree sumDigest 0 ({[[1]]} : Set (List (List Nat))) :=
    collisionFree_of_inits (l := [[[1]]]) (fun p hp => List.mem_singleton.mpr hp) (by decide)
  obtain ⟨hpaged, hhf⟩ := @hit_ownPrompt Nat Nat _ sumDigest {[[1]]} hash
  constructor
  · refine ⟨_, rfl, ?_⟩
    refine hpaged [.insert [1, 2] [1, 2]] 1 8 _ PrefixCache.pool [1, 3]
      rfl ?_ rfl 0 1 (by decide +kernel)
    intro prompt physicalBlocks hmem
    cases List.mem_singleton.mp hmem
    rfl
  · obtain ⟨p', hp'⟩ : ∃ p', (BlockPrefixCache.lookup sumDigest [1, 3]).run
        (Exec.runAll (BlockPrefixCache.call sumDigest) [.insert [1, 2] [⟨[10, 20], [11, 21]⟩] 2]
          (BlockPrefixCache.new 1 8 0)) = .ok (some [⟨[10], [11]⟩]) p' := ⟨_, rfl⟩
    refine hhf [.insert [1, 2] [⟨[10, 20], [11, 21]⟩] 2] 1 8 0 [1, 3] _ p' ?_ rfl
      hp'
    intro prompt layers cachedLen hmem
    cases List.mem_singleton.mp hmem
    rfl

/-! ## A digest into 64 bits -/

namespace PrefixCache

variable {Tok : Type} [DecidableEq Tok] {chain : Int → List Tok → Int}

omit [DecidableEq Tok] in
theorem evictWhileFull_room {s : Shared Tok} (h : s.cache.entries.size < s.cache.maxEntries)
    (rounds : Nat) : (evictWhileFull rounds).run s = .ok () s := by
  cases rounds with
  | zero => rfl
  | succ rounds =>
    rw [evictWhileFull, Exec.run_bind_ok (EStateM.run_get s), if_neg (Nat.not_le.mpr h)]
    rfl

/-- A round for a new key, with room for it, adds the entry of an allocated block. -/
theorem insertRound_fresh {s : Shared Tok} {l : List (CacheKey Tok × Int)}
    (hl : s.cache.entries.entries.Perm l) (key : CacheKey Tok) (b : Int)
    (hkey : key ∉ l.map Prod.fst) (hroom : l.length < s.cache.maxEntries)
    (hpool : s.allocator.InPool b) (huse : b ∈ s.allocator.inUse) :
    ∃ s', (insertRound key b).run s = .ok () s' ∧ s'.cache.entries.entries.Perm ((key, b) :: l) ∧
      s'.cache.blockSize = s.cache.blockSize ∧ s'.cache.maxEntries = s.cache.maxEntries ∧
      s'.allocator.numBlocks = s.allocator.numBlocks ∧ s'.allocator.inUse = s.allocator.inUse := by
  have habsent : key ∉ s.cache.entries.keys := fun h => hkey ((hl.map Prod.fst).mem_iff.mp h)
  have hnew : s.cache.entries.contains key = false := by
    rw [← Bool.not_eq_true, OrderedDict.contains_iff]
    exact habsent
  have hsize : s.cache.entries.size < s.cache.maxEntries := by
    rw [OrderedDict.size, hl.length_eq]
    exact hroom
  have hret := Exec.run_within_ok (g := Shared.allocator)
    (p := fun a (s : Shared Tok) => { s with allocator := a })
    (s := { s with cache := { s.cache with entries := s.cache.entries.insert key b } })
    (BlockAllocator.retain_inUse hpool huse)
  refine ⟨⟨{ s.cache with entries := (s.cache.entries.insert key b).moveToEnd key },
    { s.allocator with
      refcount := Function.update s.allocator.refcount b (s.allocator.refcount b + 1) }⟩,
    ?_, ?_, rfl, rfl, rfl, rfl⟩
  · unfold insertRound
    rw [Exec.run_bind_ok (EStateM.run_get s), if_pos hnew]
    simp only
    rw [Exec.run_bind_ok (evictWhileFull_room hsize _), Exec.run_bind_ok (EStateM.run_get s),
      Exec.run_bind_ok (setEntries_run _ s), onAllocator, Exec.run_bind_ok hret]
    rfl
  · refine (OrderedDict.moveToEnd_perm _ key).trans ?_
    rw [OrderedDict.insert_of_notMem habsent]
    exact (List.perm_append_singleton (key, b) _).trans (hl.cons (key, b))

/-- `_chain` maps into the integers of a 64-bit word. -/
def Word64 (chain : Int → List Tok → Int) : Prop :=
  ∀ h block, -2 ^ 63 ≤ chain h block ∧ chain h block < 2 ^ 63

omit [DecidableEq Tok] in
/-- Two blocks of one token have the same digest. -/
theorem exists_collision [Infinite Tok] (h64 : Word64 chain) :
    ∃ a b : Tok, a ≠ b ∧ chain rootHash [a] = chain rootHash [b] := by
  obtain ⟨a, b, hne, heq⟩ := Finite.exists_ne_map_eq_of_infinite
    fun a : Tok => (⟨chain rootHash [a], Finset.mem_Ico.mpr (h64 rootHash [a])⟩ :
      Finset.Ico (-2 ^ 63 : Int) (2 ^ 63))
  exact ⟨a, b, hne, congrArg Subtype.val heq⟩

/-- Every block that a lookup after a run returns was stored for a prompt that agrees up to there. -/
def NeverCrosses (chain : Int → List Tok → Int) : Prop :=
  ∀ (calls : List (Call Tok)) (blockSize maxEntries : Int) (p : PrefixCache Tok)
    (allocator : BlockAllocator) (tokenIds : List Tok), new blockSize maxEntries = .ok p →
    ∀ i b, (((Exec.runAll (call chain) calls ⟨p, allocator⟩).cache.lookup chain
        tokenIds).1.2)[i]? = some b →
      ∃ prompt, Registered calls prompt i b ∧
        prompt.take ((i + 1) * p.blockSize) = tokenIds.take ((i + 1) * p.blockSize)

/-- A cache with blocks of one token and room for eight entries. -/
def small (Tok : Type) : PrefixCache Tok where
  blockSize := 1
  maxEntries := 8
  entries := OrderedDict.empty
  lookups := 0
  hits := 0
  tokensSaved := 0
  blockSize_pos := Nat.one_pos
  maxEntries_pos := by decide

/-- After prompts `[a, c]` and `[b]` with colliding first blocks, a lookup of `[b, c]` returns the
second block of `[a, c]`. -/
theorem lookup_crossed {a b c : Tok} (hab : a ≠ b) (hca : c ≠ a) (hcb : c ≠ b)
    (hchain : chain rootHash [a] = chain rootHash [b]) :
    ((Exec.runAll (call chain) [.insert [a, c] [1, 2], .insert [b] [3]]
      ⟨small Tok, pool⟩).cache.lookup chain [b, c]).1.2 = [3, 2] := by
  have hblocks : fullBlocks 1 [a, c] = [[a], [c]] := by simp [fullBlocks, List.range_succ]
  have hblocks' : fullBlocks 1 [b, c] = [[b], [c]] := by simp [fullBlocks, List.range_succ]
  have hstart : (0 : Nat) < 8 ∧ (1 : Int) < 4 ∧ (1 : Int) ∈ ({1, 2, 3} : Finset Int) := by decide
  obtain ⟨s₁, hr₁, hl₁, hbs₁, hmax₁, hn₁, hu₁⟩ := insertRound_fresh (s := ⟨small Tok, pool⟩)
    (l := []) (List.Perm.refl _) (rootHash, [a]) 1 List.not_mem_nil hstart.1
    ⟨by decide, hstart.2.1⟩ hstart.2.2
  replace hbs₁ : s₁.cache.blockSize = 1 := hbs₁
  replace hmax₁ : s₁.cache.maxEntries = 8 := hmax₁
  replace hn₁ : s₁.allocator.numBlocks = 4 := hn₁
  replace hu₁ : s₁.allocator.inUse = {1, 2, 3} := hu₁
  obtain ⟨s₂, hr₂, hl₂, hbs₂, hmax₂, hn₂, hu₂⟩ := insertRound_fresh hl₁
    (chain rootHash [a], [c]) 2 (by simp [hca]) (by simp [hmax₁])
    ⟨by decide, by rw [hn₁]; decide⟩ (by rw [hu₁]; decide)
  rw [hbs₁] at hbs₂
  rw [hmax₁] at hmax₂
  rw [hn₁] at hn₂
  rw [hu₁] at hu₂
  obtain ⟨s₃, hr₃, hl₃, hbs₃, -, -, -⟩ := insertRound_fresh hl₂
    (rootHash, [b]) 3 (by simp [hab.symm, hcb.symm]) (by simp [hmax₂])
    ⟨by decide, by rw [hn₂]; decide⟩ (by rw [hu₂]; decide)
  rw [hbs₂] at hbs₃
  have hfirst : (insert chain [a, c] [1, 2]).run ⟨small Tok, pool⟩ = .ok () s₂ := by
    unfold insert
    rw [Exec.run_bind_ok (EStateM.run_get _)]
    show (insertLoop chain (fullBlocks 1 [a, c]) [1, 2] rootHash).run ⟨small Tok, pool⟩ = _
    rw [hblocks, insertLoop, Exec.run_bind_ok hr₁, insertLoop, Exec.run_bind_ok hr₂]
    rfl
  have hsecond : (insert chain [b] [3]).run s₂ = .ok () s₃ := by
    unfold insert
    rw [Exec.run_bind_ok (EStateM.run_get s₂), hbs₂, show fullBlocks 1 [b] = [[b]] by
      simp [fullBlocks, List.range_succ], insertLoop, Exec.run_bind_ok hr₃]
    rfl
  have hrun : Exec.runAll (call chain) [.insert [a, c] [1, 2], .insert [b] [3]]
      ⟨small Tok, pool⟩ = s₃ := by
    rw [Exec.runAll_cons, Exec.runAll_cons, Exec.runAll_nil, call, call, Exec.after_of_ok hfirst,
      Exec.after_of_ok hsecond]
  have hfind : ∀ key v, (key, v) ∈ [((rootHash, [b]), (3 : Int)), ((chain rootHash [a], [c]), 2),
      ((rootHash, [a]), 1)] → s₃.cache.entries.find? key = some v :=
    fun key v h => OrderedDict.find?_eq_some_iff.mpr (hl₃.mem_iff.mpr h)
  rw [hrun, lookup_fst, found, hbs₃, hblocks', matched, hfind (rootHash, [b]) 3 (by simp), ← hchain]
  simp only
  rw [matched, hfind (chain rootHash [a], [c]) 2 (by simp)]
  rfl

/-- **No digest into 64 bits keeps every run from crossing prompts.** -/
theorem crosses_of_word64 [Infinite Tok] (h64 : Word64 chain) : ¬NeverCrosses chain := by
  intro h
  obtain ⟨a, b, hab, hchain⟩ := exists_collision h64
  obtain ⟨c, hc⟩ := Infinite.exists_notMem_finset ({a, b} : Finset Tok)
  rw [Finset.mem_insert, Finset.mem_singleton, not_or] at hc
  have hlookup := lookup_crossed hab hc.1 hc.2 hchain
  -- block 2 was stored for the prompt that starts with `a`
  obtain ⟨prompt, ⟨physicalBlocks, hmem, hget⟩, htake⟩ :=
    h _ 1 8 (small Tok) pool [b, c] rfl 1 2 (by rw [hlookup]; rfl)
  rcases List.mem_cons.mp hmem with heq | hmem
  · cases heq
    have hfirst := (List.cons.inj htake).1
    exact hab hfirst
  · cases List.mem_singleton.mp hmem
    cases hget

/-- The claim fails for every function into 64-bit integers. -/
theorem hit_crosses : ¬∃ chain : Int → List Nat → Int, Word64 chain ∧ NeverCrosses chain :=
  fun ⟨_, h64, h⟩ => crosses_of_word64 h64 h

end PrefixCache

end Nifre
