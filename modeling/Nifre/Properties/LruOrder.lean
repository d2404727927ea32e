import Nifre.Lib.Hoare
import Nifre.Lib.RootedMap
import Nifre.Properties.PrefixSoundness

/-!
# The prefix caches as LRU caches

An insert uses the keys of a chain, from the first block on, and a lookup only reorders the keys. So
the keys of a prefix cache are those of a bounded cache after the uses.
-/

namespace Nifre

open Digest ChainedMap Lru

namespace PrefixCache

variable {Tok : Type} [DecidableEq Tok] {chain : Int → List Tok → Int} {s s' : Shared Tok}

/-- The keys, oldest first. -/
abbrev Shared.keys (s : Shared Tok) : List (CacheKey Tok) := s.cache.entries.keys

/-- What no call changes. -/
structure SameSizes (s s' : Shared Tok) : Prop where
  blockSize : s'.cache.blockSize = s.cache.blockSize
  maxEntries : s'.cache.maxEntries = s.cache.maxEntries

omit [DecidableEq Tok] in
theorem SameSizes.trans {s'' : Shared Tok} (h : SameSizes s s') (h' : SameSizes s' s'') :
    SameSizes s s'' :=
  ⟨h'.blockSize.trans h.blockSize, h'.maxEntries.trans h.maxEntries⟩

omit [DecidableEq Tok] in
theorem onAllocator_cache {α : Type} {m : BlockAllocator.M α} {a : α}
    (hrun : (onAllocator m).run s = .ok a s') : s'.cache = s.cache := by
  have h : Exec.Keeps (fun t : Shared Tok => t.cache = s.cache) (onAllocator m) :=
    Exec.Keeps.within fun _ ht => ht
  have := h s rfl
  rwa [Exec.after_of_ok hrun] at this

omit [DecidableEq Tok] in
theorem evictOldest_keys (hrun : evictOldest.run s = .ok () s') :
    SameSizes s s' ∧ s'.cache.entries.size + 1 = s.cache.entries.size ∧ s'.keys = s.keys.tail := by
  unfold evictOldest at hrun
  rw [Exec.run_bind_ok (EStateM.run_get s)] at hrun
  cases hpop : s.cache.entries.popFirst? with
  | none =>
    rw [hpop] at hrun
    cases hrun
  | some r =>
    obtain ⟨⟨key, blockId⟩, rest⟩ := r
    have hentries := OrderedDict.popFirst?_eq_some hpop
    rw [hpop] at hrun
    simp only at hrun
    rw [Exec.run_bind_ok (setEntries_run rest s)] at hrun
    have hcache := onAllocator_cache hrun
    refine ⟨⟨by rw [hcache], by rw [hcache]⟩, ?_, ?_⟩
    · rw [hcache, OrderedDict.size, OrderedDict.size, hentries]
      rfl
    · rw [Shared.keys, Shared.keys, hcache, OrderedDict.keys, OrderedDict.keys, hentries]
      rfl

omit [DecidableEq Tok] in
/-- Dropping the oldest entries leaves the newest. -/
theorem evictWhileFull_keys {rounds : Nat} (hrounds : s.cache.entries.size ≤ rounds)
    (hrun : (evictWhileFull rounds).run s = .ok () s') :
    SameSizes s s' ∧ s'.keys = s.keys.rtake (s.cache.maxEntries - 1) := by
  induction rounds generalizing s with
  | zero =>
    have hlen : s.keys.length = s.cache.entries.size := s.cache.entries.length_keys
    cases hrun
    exact ⟨⟨rfl, rfl⟩, (rtake_of_length_le (by omega)).symm⟩
  | succ rounds ih =>
    have hpos := s.cache.maxEntries_pos
    have hlen : s.keys.length = s.cache.entries.size := s.cache.entries.length_keys
    rw [evictWhileFull, Exec.run_bind_ok (EStateM.run_get s)] at hrun
    by_cases hfull : s.cache.maxEntries ≤ s.cache.entries.size
    · rw [if_pos hfull] at hrun
      obtain ⟨_, s₁, hfirst, hrest⟩ := Exec.run_bind_eq_ok hrun
      obtain ⟨hsizes, hsize, hkeys⟩ := evictOldest_keys hfirst
      obtain ⟨hsizes', hkeys'⟩ := ih (by omega) hrest
      refine ⟨hsizes.trans hsizes', ?_⟩
      rw [hkeys', hkeys, hsizes.maxEntries]
      exact rtake_tail hpos (by omega)
    · rw [if_neg hfull] at hrun
      cases hrun
      exact ⟨⟨rfl, rfl⟩, (rtake_of_length_le (by omega)).symm⟩

/-- **A round uses its key.** -/
theorem insertRound_keys (hfit : s.cache.entries.size ≤ s.cache.maxEntries) {key : CacheKey Tok}
    {blockId : Int} (hrun : (insertRound key blockId).run s = .ok () s') :
    SameSizes s s' ∧ s'.keys = touch s.cache.maxEntries s.keys key := by
  have hpos := s.cache.maxEntries_pos
  unfold insertRound at hrun
  rw [Exec.run_bind_ok (EStateM.run_get s)] at hrun
  by_cases hin : s.cache.entries.contains key = false
  · rw [if_pos hin] at hrun
    have hnew : key ∉ s.keys := fun hk => by
      rw [OrderedDict.contains_iff.mpr hk] at hin
      cases hin
    obtain ⟨_, s₁, hevict, hstore⟩ := Exec.run_bind_eq_ok hrun
    obtain ⟨hsizes, hkeys⟩ := evictWhileFull_keys (Nat.le_refl _) hevict
    rw [Exec.run_bind_ok (EStateM.run_get s₁), Exec.run_bind_ok (setEntries_run _ s₁)] at hstore
    obtain ⟨_, s₂, hretain, hmove⟩ := Exec.run_bind_eq_ok hstore
    have hcache := onAllocator_cache hretain
    rw [Exec.run_bind_ok (EStateM.run_get s₂)] at hmove
    cases hmove
    refine ⟨⟨?_, ?_⟩, ?_⟩
    · show s₂.cache.blockSize = _
      rw [hcache]
      exact hsizes.blockSize
    · show s₂.cache.maxEntries = _
      rw [hcache]
      exact hsizes.maxEntries
    · show (s₂.cache.entries.moveToEnd key).keys = _
      rw [hcache]
      exact OrderedDict.keys_store hpos hnew hkeys blockId
  · rw [if_neg hin] at hrun
    cases hrun
    exact ⟨⟨rfl, rfl⟩, OrderedDict.keys_moveToEnd_touch hfit
      (OrderedDict.contains_iff.mp (by simpa using hin))⟩

/-- **The loop of `insert` uses the keys of the chain**, as far as there are physical blocks. -/
theorem insertLoop_keys {blocks : List (List Tok)} {phys : List Int} {h : Int}
    (hfit : s.cache.entries.size ≤ s.cache.maxEntries)
    (hrun : (insertLoop chain blocks phys h).run s = .ok () s') :
    SameSizes s s' ∧ s'.cache.entries.size ≤ s'.cache.maxEntries ∧
      s'.keys = (chainKeys chain (blocks.take phys.length) h).foldl (touch s.cache.maxEntries)
        s.keys := by
  induction blocks generalizing phys h s with
  | nil =>
    cases hrun
    exact ⟨⟨rfl, rfl⟩, hfit, by rw [List.take_nil]; rfl⟩
  | cons blockTokens rest ih =>
    cases phys with
    | nil =>
      cases hrun
      exact ⟨⟨rfl, rfl⟩, hfit, rfl⟩
    | cons blockId phys =>
      rw [insertLoop] at hrun
      obtain ⟨_, s₁, hround, hrest⟩ := Exec.run_bind_eq_ok hrun
      obtain ⟨hsizes, hkeys⟩ := insertRound_keys hfit hround
      have hfit₁ : s₁.cache.entries.size ≤ s₁.cache.maxEntries := by
        have hlen := @length_touch_le _ _ s.cache.maxEntries s.keys (h, blockTokens)
        rwa [← hkeys, OrderedDict.length_keys, ← hsizes.maxEntries] at hlen
      obtain ⟨hsizes', hfit', hkeys'⟩ := ih hfit₁ hrest
      refine ⟨hsizes.trans hsizes', hfit', ?_⟩
      rw [hkeys', hkeys, hsizes.maxEntries]
      rfl

/-- The blocks that an insert stores. -/
def storedBlocks (bs : Nat) (tokenIds : List Tok) (physicalBlocks : List Int) : List (List Tok) :=
  (fullBlocks bs tokenIds).take physicalBlocks.length

theorem insert_keys {tokenIds : List Tok} {phys : List Int}
    (hfit : s.cache.entries.size ≤ s.cache.maxEntries)
    (hrun : (insert chain tokenIds phys).run s = .ok () s') :
    SameSizes s s' ∧ s'.cache.entries.size ≤ s'.cache.maxEntries ∧
      s'.keys = (chainKeys chain (storedBlocks s.cache.blockSize tokenIds phys) rootHash).foldl
        (touch s.cache.maxEntries) s.keys := by
  unfold insert at hrun
  rw [Exec.run_bind_ok (EStateM.run_get s)] at hrun
  exact insertLoop_keys hfit hrun

theorem mem_lookup_keys {p : PrefixCache Tok} {tokenIds : List Tok} {key : CacheKey Tok} :
    key ∈ (p.lookup chain tokenIds).2.entries.keys ↔ key ∈ p.entries.keys :=
  ((lookup_entries_perm chain p tokenIds).map Prod.fst).mem_iff

/-! ## The number of entries -/

/-- No more entries than there may be. -/
def Fits (s : Shared Tok) : Prop := s.cache.entries.size ≤ s.cache.maxEntries

omit [DecidableEq Tok] in
theorem onAllocator_fits {α : Type} (m : BlockAllocator.M α) :
    Exec.Keeps (@Fits Tok) (onAllocator m) :=
  Exec.Keeps.within fun _ hs => hs

omit [DecidableEq Tok] in
theorem evictOldest_fits : Exec.Keeps (@Fits Tok) evictOldest := by
  refine Exec.Keeps.get_bind fun s hs => ?_
  cases hpop : s.cache.entries.popFirst? with
  | none => exact hs
  | some r =>
    obtain ⟨⟨key, blockId⟩, rest⟩ := r
    refine onAllocator_fits (BlockAllocator.release blockId)
      { s with cache := { s.cache with entries := rest } } ?_
    have hsize : s.cache.entries.size = rest.size + 1 := by
      rw [OrderedDict.size, OrderedDict.popFirst?_eq_some hpop]
      rfl
    have : s.cache.entries.size ≤ s.cache.maxEntries := hs
    show rest.size ≤ s.cache.maxEntries
    omega

omit [DecidableEq Tok] in
theorem evictWhileFull_fits : ∀ rounds : Nat,
    Exec.Keeps (@Fits Tok) (evictWhileFull rounds)
  | 0 => Exec.Keeps.pure ()
  | rounds + 1 => Exec.Keeps.get_bind fun s hs => Exec.Keeps.ite
    (fun _ => evictOldest_fits.bind fun _ => evictWhileFull_fits rounds)
    (fun _ => Exec.Keeps.pure ()) s hs

omit [DecidableEq Tok] in
/-- After the eviction loop there is room for one entry. -/
theorem evictWhileFull_room' (rounds : Nat) :
    Exec.Triple (fun s : Shared Tok => Fits s ∧ s.cache.entries.size ≤ rounds)
      (evictWhileFull rounds) (fun _ s => s.cache.entries.size < s.cache.maxEntries) Fits := by
  rintro s ⟨hs, hrounds⟩
  cases hrun : (evictWhileFull rounds).run s with
  | ok _ s' =>
    obtain ⟨hsizes, hkeys⟩ := evictWhileFull_keys hrounds hrun
    have hlen := congrArg List.length hkeys
    rw [OrderedDict.length_keys, length_rtake] at hlen
    have := s.cache.maxEntries_pos
    have := hsizes.maxEntries
    show s'.cache.entries.size < s'.cache.maxEntries
    omega
  | error e s' =>
    have := evictWhileFull_fits rounds s hs
    rwa [Exec.after_of_error hrun] at this

theorem moveToEnd_fits (key : CacheKey Tok) : Exec.Keeps Fits (do
    let s ← get
    setEntries (s.cache.entries.moveToEnd key)) :=
  Exec.Keeps.get_bind fun _ hs => (Nat.le_of_eq (OrderedDict.size_moveToEnd _ _)).trans hs

theorem insertRound_fits (key : CacheKey Tok) (blockId : Int) :
    Exec.Keeps Fits (insertRound key blockId) := by
  refine Exec.keeps_iff_triple.mpr (Exec.Triple.get_bind fun s hs => ?_)
  refine Exec.Triple.ite (fun _ => ?_) fun _ =>
    (moveToEnd_fits key).triple.conseq (fun _ ht => ht ▸ hs) (fun _ _ h => h) fun _ h => h
  refine ((evictWhileFull_room' s.cache.entries.size).conseq
    (fun _ ht => (by subst ht; exact ⟨hs, Nat.le_refl _⟩)) (fun _ _ h => h) fun _ h => h).bind
      fun _ => ?_
  refine Exec.Triple.get_bind fun s₁ hroom => ?_
  refine Exec.Triple.bind (R := fun _ => Fits) (fun t ht => ?_) fun _ =>
    ((onAllocator_fits (BlockAllocator.retain blockId)).bind fun _ => moveToEnd_fits key).triple
  subst ht
  exact (OrderedDict.size_insert_le _ _ _).trans hroom

theorem insertLoop_fits : ∀ (blocks : List (List Tok)) (phys : List Int) (h : Int),
    Exec.Keeps Fits (insertLoop chain blocks phys h)
  | [], _, _ => Exec.Keeps.pure ()
  | _ :: _, [], _ => Exec.Keeps.pure ()
  | blockTokens :: rest, blockId :: phys, h =>
    (insertRound_fits (h, blockTokens) blockId).bind fun _ =>
      insertLoop_fits rest phys (chain h blockTokens)

/-- **A call leaves no more entries than there may be**, also when it raises. -/
theorem call_fits (o : Call Tok) : Exec.Keeps Fits (call chain o) := by
  cases o with
  | insert tokenIds phys =>
    exact Exec.Keeps.get_bind fun s hs => insertLoop_fits _ phys rootHash s hs
  | lookup tokenIds =>
    refine Exec.Keeps.modify fun s hs => ?_
    exact (lookup_entries_perm chain s.cache tokenIds).length_eq.le.trans hs
  | elsewhere allocator => exact Exec.Keeps.modify fun _ hs => hs

end PrefixCache

namespace BlockPrefixCache

variable {Tok Row : Type} [DecidableEq Tok] {chain : Int → List Tok → Int}
  {p p' : BlockPrefixCache Tok Row}

omit [DecidableEq Tok] in
theorem evictOldest_keys (h : p.entries.size ≠ 0) :
    ∃ p', evictOldest.run p = .ok () p' ∧ SameSizes p p' ∧
      p'.entries.size + 1 = p.entries.size ∧ p'.entries.keys = p.entries.keys.tail := by
  unfold evictOldest
  rw [Exec.run_bind_ok (EStateM.run_get p)]
  cases hpop : p.entries.popFirst? with
  | none => exact absurd (OrderedDict.popFirst?_eq_none_iff.mp hpop) h
  | some r =>
    obtain ⟨⟨key, block⟩, rest⟩ := r
    have hentries := OrderedDict.popFirst?_eq_some hpop
    refine ⟨_, rfl, ⟨rfl, rfl⟩, ?_, ?_⟩
    · rw [OrderedDict.size, OrderedDict.size, hentries]
      rfl
    · rw [OrderedDict.keys, OrderedDict.keys, hentries]
      rfl

omit [DecidableEq Tok] in
theorem evictWhileFull_keys (hpos : 0 < p.maxEntries) {rounds : Nat}
    (hrounds : p.entries.size ≤ rounds) :
    ∃ p', (evictWhileFull rounds).run p = .ok () p' ∧ SameSizes p p' ∧
      p'.entries.keys = p.entries.keys.rtake (p.maxEntries - 1) := by
  induction rounds generalizing p with
  | zero =>
    have hlen := p.entries.length_keys
    exact ⟨p, rfl, ⟨rfl, rfl⟩, (rtake_of_length_le (by omega)).symm⟩
  | succ rounds ih =>
    have hlen := p.entries.length_keys
    rw [evictWhileFull, Exec.run_bind_ok (EStateM.run_get p)]
    by_cases hfull : p.maxEntries ≤ p.entries.size
    · rw [if_pos hfull]
      obtain ⟨p₁, hfirst, hsizes, hsize, hkeys⟩ := evictOldest_keys (p := p) (by omega)
      obtain ⟨p₂, hrest, hsizes', hkeys'⟩ := ih (p := p₁) (by rw [hsizes.maxEntries]; exact hpos)
        (by omega)
      refine ⟨p₂, by rw [Exec.run_bind_ok hfirst]; exact hrest, hsizes.trans hsizes', ?_⟩
      rw [hkeys', hkeys, hsizes.maxEntries]
      exact rtake_tail hpos (by omega)
    · rw [if_neg hfull]
      exact ⟨p, rfl, ⟨rfl, rfl⟩, (rtake_of_length_le (by omega)).symm⟩

theorem insertRound_keys (hpos : 0 < p.maxEntries) (hfit : p.entries.size ≤ p.maxEntries)
    (layers : Past Row) (key : Int × List Tok) (i : Nat) :
    ∃ p', (insertRound layers key i).run p = .ok () p' ∧ SameSizes p p' ∧
      p'.entries.keys = touch p.maxEntries p.entries.keys key := by
  unfold insertRound
  rw [Exec.run_bind_ok (EStateM.run_get p)]
  by_cases hin : p.entries.contains key = false
  · rw [if_pos hin]
    have hnew : key ∉ p.entries.keys := fun hk => by
      rw [OrderedDict.contains_iff.mpr hk] at hin
      cases hin
    obtain ⟨p₁, hrun, hsizes, hkeys⟩ := evictWhileFull_keys hpos (Nat.le_succ p.entries.size)
    simp only
    rw [Exec.run_bind_ok hrun]
    exact ⟨_, rfl, ⟨hsizes.blockSize, hsizes.maxEntries⟩,
      OrderedDict.keys_store hpos hnew hkeys _⟩
  · rw [if_neg hin]
    exact ⟨_, rfl, ⟨rfl, rfl⟩, OrderedDict.keys_moveToEnd_touch hfit
      (OrderedDict.contains_iff.mp (by simpa using hin))⟩

theorem insertLoop_keys (hpos : 0 < p.maxEntries) (hfit : p.entries.size ≤ p.maxEntries)
    (layers : Past Row) (blocks : List (List Tok)) (i : Nat) (h : Int) :
    ∃ p', (insertLoop chain layers blocks i h).run p = .ok () p' ∧ SameSizes p p' ∧
      p'.entries.size ≤ p'.maxEntries ∧
      p'.entries.keys = (chainKeys chain blocks h).foldl (touch p.maxEntries) p.entries.keys := by
  induction blocks generalizing p i h with
  | nil => exact ⟨p, rfl, ⟨rfl, rfl⟩, hfit, rfl⟩
  | cons blockTokens rest ih =>
    obtain ⟨p₁, hround, hsizes, hkeys⟩ := insertRound_keys hpos hfit layers (h, blockTokens) i
    have hfit₁ : p₁.entries.size ≤ p₁.maxEntries := by
      have hlen := @length_touch_le _ _ p.maxEntries p.entries.keys (h, blockTokens)
      rwa [← hkeys, OrderedDict.length_keys, ← hsizes.maxEntries] at hlen
    obtain ⟨p₂, hrest, hsizes', hfit', hkeys'⟩ := ih (p := p₁)
      (by rw [hsizes.maxEntries]; exact hpos) hfit₁ (i + 1) (chain h blockTokens)
    refine ⟨p₂, by rw [insertLoop, Exec.run_bind_ok hround, hrest], hsizes.trans hsizes', hfit', ?_⟩
    rw [hkeys', hkeys, hsizes.maxEntries]
    rfl

/-- The blocks that an insert stores. -/
def storedBlocks (bs : Nat) (tokenIds : List Tok) (cachedLen : Nat) : List (List Tok) :=
  (fullBlocks bs tokenIds).take (min tokenIds.length cachedLen / bs)

/-- **An insert uses the keys of the chain**, and without a block size it raises before. -/
theorem insert_keys (hpos : 0 < p.maxEntries) (hfit : p.entries.size ≤ p.maxEntries)
    (tokenIds : List Tok) (layers : Past Row) (cachedLen : Nat) :
    SameSizes p (Exec.after (insert chain tokenIds layers cachedLen) p) ∧
      (Exec.after (insert chain tokenIds layers cachedLen) p).entries.size ≤ p.maxEntries ∧
      (Exec.after (insert chain tokenIds layers cachedLen) p).entries.keys
        = (chainKeys chain (storedBlocks p.blockSize tokenIds cachedLen) rootHash).foldl
          (touch p.maxEntries) p.entries.keys := by
  by_cases hbs : p.blockSize = 0
  · have hrun : (insert chain tokenIds layers cachedLen).run p = .error .zeroDivisionError p := by
      unfold insert
      rw [Exec.run_bind_ok (EStateM.run_get p), if_pos hbs]
      rfl
    rw [Exec.after_of_error hrun, storedBlocks, hbs, Nat.div_zero]
    exact ⟨⟨rfl, rfl⟩, hfit, rfl⟩
  · obtain ⟨p', hrun, hsizes, hfit', hkeys⟩ := @insertLoop_keys Tok Row _ chain p hpos hfit layers
      (storedBlocks p.blockSize tokenIds cachedLen) 0 rootHash
    have hrun' : (insert chain tokenIds layers cachedLen).run p = .ok () p' := by
      unfold insert
      rw [Exec.run_bind_ok (EStateM.run_get p), if_neg hbs]
      exact hrun
    rw [Exec.after_of_ok hrun', ← hsizes.maxEntries]
    refine ⟨hsizes, hfit', ?_⟩
    rw [hsizes.maxEntries]
    exact hkeys

end BlockPrefixCache

end Nifre
