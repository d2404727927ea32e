import Nifre.Properties.JustInserted

/-!
# Entries that no lookup reaches

A lookup stops at the first block of a chain that is not stored. An insert uses the keys of its
chain from the root on, so the root of a chain is older than the blocks after it, and the oldest
entry goes first. The entries stay without gaps as long as no insert evicts an entry right before
one that stays.
-/

namespace Nifre

open Digest ChainedMap Lru

/-- The blocks before a block of a prompt in play are in play. -/
theorem inPlay_take {Tok : Type} {P : Set (List (List Tok))} {bs : Nat} {tokenIds : List Tok}
    (hP : chainBefore bs tokenIds ∈ P) {i : Nat} (hi : i < (fullBlocks bs tokenIds).length) :
    InPlay P ((fullBlocks bs tokenIds).take i) := by
  refine (InPlay.self hP).ofShorter ?_
  rw [chainBefore, List.dropLast_eq_take]
  exact List.take_prefix_take_left (by omega)

/-- Some of its first blocks are a chain in play, too. -/
theorem inPlay_dropLast_take {Tok : Type} {P : Set (List (List Tok))} {bs : Nat}
    {tokenIds : List Tok} (hP : chainBefore bs tokenIds ∈ P) (n : Nat) :
    InPlay P ((fullBlocks bs tokenIds).take n).dropLast := by
  refine (InPlay.self hP).ofShorter ?_
  rw [chainBefore, List.dropLast_eq_take, List.dropLast_eq_take, List.take_take, List.length_take]
  exact List.take_prefix_take_left (by omega)

namespace PrefixCache

variable {Tok : Type} [DecidableEq Tok] {chain : Int → List Tok → Int}
  {P : Set (List (List Tok))} {s : Shared Tok} {calls : List (Call Tok)}

/-- **Every entry can be reached**: the blocks before it are stored, and some lookup matches it. -/
structure NoOrphans (chain : Int → List Tok → Int) (P : Set (List (List Tok))) (s : Shared Tok) :
    Prop where
  rooted : Rooted chain rootHash P s.keys
  matched : ∀ key ∈ s.keys, ∃ tokenIds, ∃ i < (s.cache.lookup chain tokenIds).1.2.length,
    key = keyAt chain (fullBlocks s.cache.blockSize tokenIds) rootHash i

/-- An insert has room for its blocks, and what it evicts does not come right before what stays. -/
def EvictsTails (chain : Int → List Tok → Int) (P : Set (List (List Tok))) (s : Shared Tok) :
    Call Tok → Prop
  | .insert tokenIds physicalBlocks => DropsTails chain rootHash P s.cache.maxEntries s.keys
      (chainKeys chain (storedBlocks s.cache.blockSize tokenIds physicalBlocks) rootHash)
  | _ => True

/-- The state after a call. -/
abbrev next (chain : Int → List Tok → Int) (s : Shared Tok) (o : Call Tok) : Shared Tok :=
  Exec.after (call chain o) s

/-- What the states of a run without orphans have in common. -/
structure Reached (chain : Int → List Tok → Int) (P : Set (List (List Tok))) (bs : Nat)
    (calls : List (Call Tok)) (s : Shared Tok) : Prop where
  fits : Fits s
  stored : AllEntries bs (StoredBy chain bs calls) s
  rooted : Rooted chain rootHash P s.keys

/-- Every entry is on the chain of a prompt that was inserted, and a lookup of it goes that far. -/
theorem Reached.noOrphans {bs : Nat} (h : Reached chain P bs calls s)
    (hin : ∀ prompt physicalBlocks, .insert prompt physicalBlocks ∈ calls →
      chainBefore bs prompt ∈ P) : NoOrphans chain P s := by
  refine ⟨h.rooted, fun key hkey => ?_⟩
  obtain ⟨b, hb⟩ := OrderedDict.mem_keys_iff.mp hkey
  obtain ⟨blocks, i, hi, rfl, prompt, rfl, physicalBlocks, hmem, -⟩ := h.stored.2 key b hb
  refine ⟨prompt, i, ?_, by rw [h.stored.1]⟩
  rw [lookup_fst, found, h.stored.1]
  exact h.rooted.lt_length_matched hi (inPlay_take (hin _ _ hmem) hi) hkey

/-- **One call**: it leaves no orphans exactly when it evicts tails only. -/
theorem Reached.call_iff (hash : CollisionFree chain rootHash P) {bs : Nat}
    (h : Reached chain P bs calls s)
    (hin : ∀ prompt physicalBlocks, .insert prompt physicalBlocks ∈ calls →
      chainBefore bs prompt ∈ P) {o : Call Tok} (ho : o ∈ calls)
    (hrun : Exec.Returns (call chain o) s) :
    (NoOrphans chain P (next chain s o) ↔ EvictsTails chain P s o) ∧
      (EvictsTails chain P s o → Reached chain P bs calls (next chain s o)) := by
  have hfits : Fits (next chain s o) := call_fits o s h.fits
  have hstored := call_storedBy ho s h.stored
  -- it is enough to look at the keys
  have hkeys : Rooted chain rootHash P (next chain s o).keys ↔ EvictsTails chain P s o := by
    cases o with
    | insert tokenIds phys =>
      obtain ⟨_, s', hs'⟩ := hrun
      obtain ⟨-, -, hkeys⟩ := insert_keys h.fits hs'
      have hfit : s.keys.length ≤ s.cache.maxEntries := by
        rw [OrderedDict.length_keys]
        exact h.fits
      have hP := hin _ _ ho
      rw [next, Exec.after_of_ok hs', hkeys, EvictsTails]
      refine h.rooted.touch_iff hash s.cache.maxEntries_pos s.cache.entries.nodup hfit ?_
      rw [h.stored.1]
      exact inPlay_dropLast_take hP _
    | lookup tokenIds => exact iff_of_true (h.rooted.congr fun _ => mem_lookup_keys) trivial
    | elsewhere allocator => exact iff_of_true h.rooted trivial
  have hreached : EvictsTails chain P s o → Reached chain P bs calls (next chain s o) :=
    fun hd => ⟨hfits, hstored, hkeys.mpr hd⟩
  exact ⟨⟨fun hno => hkeys.mp hno.rooted, fun hd => (hreached hd).noOrphans hin⟩, hreached⟩

/-- **A run leaves no orphans after any call exactly when every insert evicts tails only.** -/
theorem along_noOrphans_iff (hash : CollisionFree chain rootHash P) {blockSize maxEntries : Int}
    {p : PrefixCache Tok} (hnew : new blockSize maxEntries = .ok p) (allocator : BlockAllocator)
    (hin : ∀ prompt physicalBlocks, .insert prompt physicalBlocks ∈ calls →
      chainBefore p.blockSize prompt ∈ P)
    (hrun : Exec.Along (fun s o => Exec.Returns (call chain o) s) (next chain) ⟨p, allocator⟩
      calls) :
    Exec.Along (fun s o => NoOrphans chain P (next chain s o)) (next chain) ⟨p, allocator⟩ calls ↔
      Exec.Along (EvictsTails chain P) (next chain) ⟨p, allocator⟩ calls := by
  have hempty := new_eq_ok hnew
  have hstart : Reached chain P p.blockSize calls ⟨p, allocator⟩ := by
    refine ⟨?_, ⟨rfl, fun key b hmem => ?_⟩, ?_⟩
    · show p.entries.size ≤ p.maxEntries
      rw [hempty]
      exact Nat.zero_le _
    · rw [show (Shared.mk p allocator).cache = p from rfl, hempty] at hmem
      cases hmem
    · show Rooted chain rootHash P p.entries.keys
      rw [hempty]
      exact rooted_nil
  refine Exec.Along.congr (fun s o hs hl => ?_) hstart (hrun.and_mem fun o ho => ho)
  exact hs.call_iff hash hin hl.2 hl.1

end PrefixCache

namespace BlockPrefixCache

variable {Tok Row : Type} [DecidableEq Tok] {chain : Int → List Tok → Int}
  {P : Set (List (List Tok))} {p : BlockPrefixCache Tok Row} {calls : List (Call Tok Row)}

/-- **Every entry can be reached**: the blocks before it are stored, and some lookup matches it. -/
structure NoOrphans (chain : Int → List Tok → Int) (P : Set (List (List Tok)))
    (p : BlockPrefixCache Tok Row) : Prop where
  rooted : Rooted chain rootHash P p.entries.keys
  matched : ∀ key ∈ p.entries.keys, ∃ tokenIds, ∃ i < (p.found chain tokenIds).length,
    key = keyAt chain (fullBlocks p.blockSize tokenIds) rootHash i

/-- An insert has room for its blocks, and what it evicts does not come right before what stays. -/
def EvictsTails (chain : Int → List Tok → Int) (P : Set (List (List Tok)))
    (p : BlockPrefixCache Tok Row) : Call Tok Row → Prop
  | .insert tokenIds _ cachedLen => DropsTails chain rootHash P p.maxEntries p.entries.keys
      (chainKeys chain (storedBlocks p.blockSize tokenIds cachedLen) rootHash)
  | .lookup _ => True

/-- The state after a call. -/
abbrev next (chain : Int → List Tok → Int) (p : BlockPrefixCache Tok Row) (o : Call Tok Row) :
    BlockPrefixCache Tok Row :=
  Exec.after (call chain o) p

/-- What the states of a run without orphans have in common. -/
structure Reached (chain : Int → List Tok → Int) (P : Set (List (List Tok))) (bs : Nat)
    (calls : List (Call Tok Row)) (p : BlockPrefixCache Tok Row) : Prop where
  maxEntries_pos : 0 < p.maxEntries
  fits : p.entries.size ≤ p.maxEntries
  stored : AllEntries bs (StoredBy chain bs calls) p
  rooted : Rooted chain rootHash P p.entries.keys

/-- A lookup leaves the last token out, so one more token makes it go to the last block. -/
theorem Reached.noOrphans {bs : Nat} (h : Reached chain P bs calls p)
    (hin : ∀ prompt layers cachedLen, .insert prompt layers cachedLen ∈ calls →
      chainBefore bs prompt ∈ P) : NoOrphans chain P p := by
  refine ⟨h.rooted, fun key hkey => ?_⟩
  obtain ⟨block, hblock⟩ := OrderedDict.mem_keys_iff.mp hkey
  obtain ⟨blocks, i, hi, rfl, prompt, rfl, layers, cachedLen, hmem, -⟩ :=
    h.stored.2 key block hblock
  cases prompt with
  | nil => simp [fullBlocks] at hi
  | cons token rest =>
    have htake := take_fullBlocks_append bs (token :: rest) [token]
    have hlt := hi
    rw [length_fullBlocks] at hlt
    have hsame : keyAt chain (fullBlocks bs (token :: rest ++ [token])) rootHash i
        = keyAt chain (fullBlocks bs (token :: rest)) rootHash i := by
      rw [← htake, keyAt_take chain _ _ hlt]
    refine ⟨token :: rest ++ [token], i, ?_, by rw [h.stored.1, hsame]⟩
    have hlen : (token :: rest ++ [token]).length - 1 = (token :: rest).length := by simp
    rw [found, h.stored.1, hlen, htake]
    exact h.rooted.lt_length_matched hi (inPlay_take (hin _ _ _ hmem) hi) hkey

/-- **One call**: it leaves no orphans exactly when it evicts tails only. -/
theorem Reached.call_iff (hash : CollisionFree chain rootHash P) {bs : Nat}
    (h : Reached chain P bs calls p)
    (hin : ∀ prompt layers cachedLen, .insert prompt layers cachedLen ∈ calls →
      chainBefore bs prompt ∈ P) {o : Call Tok Row} (ho : o ∈ calls) :
    (NoOrphans chain P (next chain p o) ↔ EvictsTails chain P p o) ∧
      (EvictsTails chain P p o → Reached chain P bs calls (next chain p o)) := by
  have hstored := call_storedBy ho p h.stored
  have hstep : (0 < (next chain p o).maxEntries ∧
      (next chain p o).entries.size ≤ (next chain p o).maxEntries) ∧
      (Rooted chain rootHash P (next chain p o).entries.keys ↔ EvictsTails chain P p o) := by
    cases o with
    | insert tokenIds layers cachedLen =>
      obtain ⟨hsizes, hfits, hkeys⟩ := @insert_keys Tok Row _ chain p h.maxEntries_pos h.fits
        tokenIds layers cachedLen
      have hfit : p.entries.keys.length ≤ p.maxEntries := by
        rw [OrderedDict.length_keys]
        exact h.fits
      have hP := hin _ _ _ ho
      refine ⟨?_, ?_⟩
      · rw [next, call, hsizes.maxEntries]
        exact ⟨h.maxEntries_pos, hfits⟩
      · rw [next, call, hkeys, EvictsTails]
        refine h.rooted.touch_iff hash h.maxEntries_pos p.entries.nodup hfit ?_
        rw [h.stored.1]
        exact inPlay_dropLast_take hP _
    | lookup tokenIds =>
      obtain ⟨hsizes, hperm⟩ := @lookup_reorders Tok Row _ chain tokenIds p p ⟨⟨rfl, rfl⟩, .refl _⟩
      rw [next, call, Exec.after_dropped]
      refine ⟨?_, iff_of_true (h.rooted.congr fun key => (hperm.map Prod.fst).mem_iff) trivial⟩
      rw [hsizes.maxEntries]
      exact ⟨h.maxEntries_pos, hperm.length_eq.le.trans h.fits⟩
  obtain ⟨⟨hpos, hfits⟩, hkeys⟩ := hstep
  have hreached : EvictsTails chain P p o → Reached chain P bs calls (next chain p o) :=
    fun hd => ⟨hpos, hfits, hstored, hkeys.mpr hd⟩
  exact ⟨⟨fun hno => hkeys.mp hno.rooted, fun hd => (hreached hd).noOrphans hin⟩, hreached⟩

/-- **A run leaves no orphans after any call exactly when every insert evicts tails only.** -/
theorem along_noOrphans_iff (hash : CollisionFree chain rootHash P)
    {blockSize maxEntries rowBytes : Nat} (hmax : 0 < maxEntries)
    (hin : ∀ prompt layers cachedLen, .insert prompt layers cachedLen ∈ calls →
      chainBefore blockSize prompt ∈ P) :
    Exec.Along (fun p o => NoOrphans chain P (next chain p o)) (next chain)
        (new blockSize maxEntries rowBytes) calls ↔
      Exec.Along (EvictsTails chain P) (next chain) (new blockSize maxEntries rowBytes) calls := by
  have hstart : Reached chain P blockSize calls
      (new blockSize maxEntries rowBytes : BlockPrefixCache Tok Row) :=
    ⟨hmax, Nat.zero_le _, ⟨rfl, fun key block hmem => by cases hmem⟩, rooted_nil⟩
  refine Exec.Along.congr (fun p o hp ho => hp.call_iff hash hin ho) hstart
    (Exec.along_of_forall fun o ho => ho)

end BlockPrefixCache

/-! ## Both caches -/

/-- **In either cache the entries of a run are free of orphans after every call exactly when every
insert evicts tails only**, as long as the chains of the prompts do not collide. -/
theorem noOrphans_iff {Tok Row : Type} [DecidableEq Tok] {chain : Int → List Tok → Int}
    {P : Set (List (List Tok))} (hash : CollisionFree chain 0 P) :
    (∀ (calls : List (PrefixCache.Call Tok)) (blockSize maxEntries : Int) (p : PrefixCache Tok)
      (allocator : BlockAllocator), PrefixCache.new blockSize maxEntries = .ok p →
      (∀ prompt physicalBlocks, .insert prompt physicalBlocks ∈ calls →
        chainBefore p.blockSize prompt ∈ P) →
      Exec.Along (fun s o => Exec.Returns (PrefixCache.call chain o) s) (PrefixCache.next chain)
        ⟨p, allocator⟩ calls →
      (Exec.Along (fun s o => PrefixCache.NoOrphans chain P (PrefixCache.next chain s o))
          (PrefixCache.next chain) ⟨p, allocator⟩ calls ↔
        Exec.Along (PrefixCache.EvictsTails chain P) (PrefixCache.next chain) ⟨p, allocator⟩
          calls)) ∧
    ∀ (calls : List (BlockPrefixCache.Call Tok Row)) (blockSize maxEntries rowBytes : Nat),
      0 < maxEntries →
      (∀ prompt layers cachedLen, .insert prompt layers cachedLen ∈ calls →
        chainBefore blockSize prompt ∈ P) →
      (Exec.Along (fun p o => BlockPrefixCache.NoOrphans chain P (BlockPrefixCache.next chain p o))
          (BlockPrefixCache.next chain) (BlockPrefixCache.new blockSize maxEntries rowBytes) calls ↔
        Exec.Along (BlockPrefixCache.EvictsTails chain P) (BlockPrefixCache.next chain)
          (BlockPrefixCache.new blockSize maxEntries rowBytes) calls) :=
  ⟨fun _ _ _ _ allocator hnew hin hrun =>
      PrefixCache.along_noOrphans_iff hash hnew allocator hin hrun,
    fun _ _ _ _ hmax hin => BlockPrefixCache.along_noOrphans_iff hash hmax hin⟩

/-- Two prompts with the same first block. -/
def PrefixCache.sharedRoot : List (PrefixCache.Call Nat) :=
  [.insert [1, 2] [1, 2], .lookup [1, 3], .insert [1, 3] [1, 3]]

/-- Two prompts with the same first block. -/
def BlockPrefixCache.sharedRoot : List (BlockPrefixCache.Call Nat Nat) :=
  [.insert [1, 2] [⟨[10, 20], [11, 21]⟩] 2, .lookup [1, 3], .insert [1, 3] [⟨[10, 30], [11, 31]⟩] 2]

/-- With room for two of the three blocks the last one evicts the other tail, and there are no
orphans. -/
theorem sharedRoot_noOrphans :
    (∃ p : PrefixCache Nat, PrefixCache.new 1 2 = .ok p ∧
      Exec.Along (fun s o => PrefixCache.NoOrphans sumDigest {[[1]]}
          (PrefixCache.next sumDigest s o))
        (PrefixCache.next sumDigest) ⟨p, PrefixCache.pool⟩ PrefixCache.sharedRoot) ∧
    Exec.Along (fun p o => BlockPrefixCache.NoOrphans sumDigest {[[1]]}
        (BlockPrefixCache.next sumDigest p o)) (BlockPrefixCache.next sumDigest)
      (BlockPrefixCache.new 1 2 0) BlockPrefixCache.sharedRoot := by
  have hash : CollisionFree sumDigest 0 ({[[1]]} : Set (List (List Nat))) :=
    collisionFree_of_inits (l := [[[1]]]) (fun p hp => List.mem_singleton.mpr hp) (by decide)
  obtain ⟨hpaged, hhf⟩ := @noOrphans_iff Nat Nat _ sumDigest {[[1]]} hash
  constructor
  · refine ⟨_, rfl, ?_⟩
    refine (hpaged PrefixCache.sharedRoot 1 2 _ PrefixCache.pool rfl ?_ ?_).mpr ?_
    · intro prompt physicalBlocks hmem
      simp only [PrefixCache.sharedRoot, List.mem_cons, List.not_mem_nil, or_false,
        PrefixCache.Call.insert.injEq, reduceCtorEq, false_or] at hmem
      rcases hmem with ⟨rfl, -⟩ | ⟨rfl, -⟩ <;> rfl
    · exact ⟨⟨(), Exec.exists_of_value? (by decide +kernel)⟩,
        ⟨(), Exec.exists_of_value? (by decide +kernel)⟩,
        ⟨(), Exec.exists_of_value? (by decide +kernel)⟩, trivial⟩
    · refine ⟨⟨by decide +kernel, fun parent hp => ?_⟩, trivial,
        ⟨by decide +kernel, fun parent _ child hc => ?_⟩, trivial⟩
      · exact absurd hp (List.eq_nil_iff_forall_not_mem.mp (by decide +kernel) parent)
      · -- the second block of `[1, 2]` goes, and the used ones stay
        exact absurd hc (List.eq_nil_iff_forall_not_mem.mp (by decide +kernel) child)
  · refine (hhf BlockPrefixCache.sharedRoot 1 2 0 (by decide) ?_).mpr ?_
    · intro prompt layers cachedLen hmem
      simp only [BlockPrefixCache.sharedRoot, List.mem_cons, List.not_mem_nil, or_false,
        BlockPrefixCache.Call.insert.injEq, reduceCtorEq, false_or] at hmem
      rcases hmem with ⟨rfl, -⟩ | ⟨rfl, -⟩ <;> rfl
    · refine ⟨⟨by decide +kernel, fun parent hp => ?_⟩, trivial,
        ⟨by decide +kernel, fun parent _ child hc => ?_⟩, trivial⟩
      · exact absurd hp (List.eq_nil_iff_forall_not_mem.mp (by decide +kernel) parent)
      · -- the second block of `[1, 2]` goes, and the used ones stay
        exact absurd hc (List.eq_nil_iff_forall_not_mem.mp (by decide +kernel) child)

/-- The root of `[1, 2]` is evicted for `[3]`, and its second block stays. -/
def BlockPrefixCache.rootEvicted : List (BlockPrefixCache.Call Nat Nat) :=
  [.insert [1, 2] [⟨[10, 20], [11, 21]⟩] 2, .insert [3] [⟨[30], [31]⟩] 1]

/-- In either cache the second block is an orphan, and the chains do not collide. -/
theorem rootEvicted_orphan :
    CollisionFree sumDigest 0 ({[[1]], []} : Set (List (List Nat))) ∧
    (∃ p : PrefixCache Nat, PrefixCache.new 1 2 = .ok p ∧
      Exec.Along (fun s o => Exec.Returns (PrefixCache.call sumDigest o) s)
        (PrefixCache.next sumDigest) ⟨p, PrefixCache.pool⟩ PrefixCache.rootEvicted ∧
      ¬Exec.Along (fun s o => PrefixCache.NoOrphans sumDigest {[[1]], []}
          (PrefixCache.next sumDigest s o))
        (PrefixCache.next sumDigest) ⟨p, PrefixCache.pool⟩ PrefixCache.rootEvicted) ∧
    ¬Exec.Along (fun p o => BlockPrefixCache.NoOrphans sumDigest {[[1]], []}
        (BlockPrefixCache.next sumDigest p o)) (BlockPrefixCache.next sumDigest)
      (BlockPrefixCache.new 1 2 0) BlockPrefixCache.rootEvicted := by
  have hplay : InPlay ({[[1]], []} : Set (List (List Nat)))
      (([[1], [2]] : List (List Nat)).take 1) := .self (Or.inl rfl)
  refine ⟨collisionFree_of_inits (l := [[[1]], []]) (fun p hp => ?_) (by decide),
    ⟨_, rfl, ?_, ?_⟩, ?_⟩
  · simpa using hp
  · exact ⟨⟨(), Exec.exists_of_value? (by decide +kernel)⟩,
      ⟨(), Exec.exists_of_value? (by decide +kernel)⟩, trivial⟩
  · rintro ⟨-, h, -⟩
    -- the second block is stored, and the first is not
    exact absurd (h.rooted [[1], [2]] 1 (by decide) hplay (by decide +kernel) 0 (by decide))
      (by decide +kernel)
  · rintro ⟨-, h, -⟩
    exact absurd (h.rooted [[1], [2]] 1 (by decide) hplay (by decide +kernel) 0 (by decide))
      (by decide +kernel)

end Nifre
