import Nifre.Inference.PrefixCache
import Nifre.Properties.HfContents

/-!
# What a prefix cache can hold

The entries of a prefix cache change in three ways only: the oldest is dropped, one is moved to
the end, one is stored for a block that an insert registers. So a property of entries that
holds of everything an insert registers holds of the cache, however its calls end.

* `PrefixCache.AllEntries`, `BlockPrefixCache.AllEntries` — every entry has the property
* one lemma for each operation that it is kept
-/

namespace Nifre

open Digest ChainedMap

namespace PrefixCache

variable {Tok : Type} [DecidableEq Tok] {chain : Int → List Tok → Int} {bs : Nat}
  {E : CacheKey Tok → Int → Prop}

/-- The blocks have `bs` tokens, and every entry satisfies `E`. -/
def AllEntries (bs : Nat) (E : CacheKey Tok → Int → Prop) (s : Shared Tok) : Prop :=
  s.cache.blockSize = bs ∧ ∀ key b, (key, b) ∈ s.cache.entries.entries → E key b

omit [DecidableEq Tok] in
theorem onAllocator_allEntries {α : Type} (m : BlockAllocator.M α) :
    Exec.Keeps (AllEntries bs E) (onAllocator m) :=
  Exec.Keeps.within fun _ hs => hs

omit [DecidableEq Tok] in
theorem evictOldest_allEntries : Exec.Keeps (AllEntries bs E) evictOldest := by
  refine Exec.Keeps.get_bind fun s hs => ?_
  cases hpop : s.cache.entries.popFirst? with
  | none => exact hs
  | some r =>
    obtain ⟨⟨k, blockId⟩, rest⟩ := r
    refine onAllocator_allEntries (BlockAllocator.release blockId)
      { s with cache := { s.cache with entries := rest } } ⟨hs.1, fun key b hmem => ?_⟩
    refine hs.2 key b ?_
    rw [OrderedDict.popFirst?_eq_some hpop]
    exact List.mem_cons_of_mem _ hmem

omit [DecidableEq Tok] in
theorem evictWhileFull_allEntries : ∀ rounds : Nat,
    Exec.Keeps (AllEntries bs E) (evictWhileFull rounds)
  | 0 => Exec.Keeps.pure ()
  | rounds + 1 => Exec.Keeps.get_bind fun s hs => Exec.Keeps.ite
    (fun _ => evictOldest_allEntries.bind fun _ => evictWhileFull_allEntries rounds)
    (fun _ => Exec.Keeps.pure ()) s hs

theorem moveToEnd_allEntries (key : CacheKey Tok) : Exec.Keeps (AllEntries bs E) (do
    let s ← get
    setEntries (s.cache.entries.moveToEnd key)) :=
  Exec.Keeps.get_bind fun _ hs =>
    ⟨hs.1, fun k b hmem => hs.2 k b (OrderedDict.mem_moveToEnd.mp hmem)⟩

/-- A round stores its own key and block at most. -/
theorem insertRound_allEntries {key : CacheKey Tok} {blockId : Int} (hnew : E key blockId) :
    Exec.Keeps (AllEntries bs E) (insertRound key blockId) := by
  refine Exec.Keeps.get_bind fun s hs => ?_
  refine Exec.Keeps.ite (fun _ => ?_) (fun _ => moveToEnd_allEntries key) s hs
  refine (evictWhileFull_allEntries _).bind fun _ => Exec.Keeps.get_bind fun s₁ hs₁ => ?_
  refine Exec.Keeps.bind (m := onAllocator (BlockAllocator.retain blockId))
    (onAllocator_allEntries _) (fun _ => moveToEnd_allEntries key)
    { s₁ with cache := { s₁.cache with entries := s₁.cache.entries.insert key blockId } } ?_
  refine ⟨hs₁.1, fun k b hmem => ?_⟩
  rcases OrderedDict.mem_insert.mp hmem with ⟨rfl, rfl⟩ | ⟨-, hold⟩
  · exact hnew
  · exact hs₁.2 k b hold

theorem insertLoop_allEntries : ∀ (blocks : List (List Tok)) (phys : List Int) (h : Int),
    (∀ i b, i < blocks.length → phys[i]? = some b → E (keyAt chain blocks h i) b) →
    Exec.Keeps (AllEntries bs E) (insertLoop chain blocks phys h)
  | [], _, _, _ => Exec.Keeps.pure ()
  | _ :: _, [], _, _ => Exec.Keeps.pure ()
  | blockTokens :: rest, blockId :: phys, h, hnew =>
    (insertRound_allEntries (hnew 0 blockId (Nat.zero_lt_succ _) rfl)).bind fun _ =>
      insertLoop_allEntries rest phys (chain h blockTokens) fun i b hi hb =>
        hnew (i + 1) b (Nat.succ_lt_succ hi) hb

theorem insert_allEntries {tokenIds : List Tok} {phys : List Int}
    (hnew : ∀ i b, i < (fullBlocks bs tokenIds).length → phys[i]? = some b →
      E (keyAt chain (fullBlocks bs tokenIds) rootHash i) b) :
    Exec.Keeps (AllEntries bs E) (insert chain tokenIds phys) := by
  refine Exec.Keeps.get_bind fun s hs => ?_
  refine insertLoop_allEntries _ phys rootHash ?_ s hs
  rw [hs.1]
  exact hnew

end PrefixCache

namespace BlockPrefixCache

variable {Tok Row : Type} [DecidableEq Tok] {chain : Int → List Tok → Int} {bs : Nat}
  {E : Int × List Tok → Past Row → Prop}

/-- The blocks have `bs` tokens, and every entry satisfies `E`. -/
def AllEntries (bs : Nat) (E : Int × List Tok → Past Row → Prop) (p : BlockPrefixCache Tok Row) :
    Prop :=
  p.blockSize = bs ∧ ∀ key block, (key, block) ∈ p.entries.entries → E key block

omit [DecidableEq Tok] in
theorem AllEntries.of_subset {p q : BlockPrefixCache Tok Row} (h : p.AllEntries bs E)
    (hbs : q.blockSize = p.blockSize) (hsub : ∀ e ∈ q.entries.entries, e ∈ p.entries.entries) :
    q.AllEntries bs E :=
  ⟨hbs.trans h.1, fun key block hmem => h.2 key block (hsub _ hmem)⟩

omit [DecidableEq Tok] in
theorem evictOldest_allEntries : Exec.Keeps (AllEntries bs E) evictOldest := by
  refine Exec.Keeps.get_bind fun p hp => ?_
  cases hpop : p.entries.popFirst? with
  | none => exact hp
  | some r =>
    refine hp.of_subset rfl fun e he => ?_
    rw [OrderedDict.popFirst?_eq_some hpop]
    exact List.mem_cons_of_mem _ he

omit [DecidableEq Tok] in
theorem evictWhileFull_allEntries : ∀ rounds : Nat,
    Exec.Keeps (AllEntries bs E) (evictWhileFull rounds)
  | 0 => Exec.Keeps.pure ()
  | rounds + 1 => Exec.Keeps.get_bind fun p hp => Exec.Keeps.ite
    (fun _ => evictOldest_allEntries.bind fun _ => evictWhileFull_allEntries rounds)
    (fun _ => Exec.Keeps.pure ()) p hp

theorem moveToEnd_allEntries (key : Int × List Tok) : Exec.Keeps (AllEntries bs E) (do
    let p ← get
    set { p with entries := p.entries.moveToEnd key } : M Tok Row Unit) :=
  Exec.Keeps.get_bind fun _ hp =>
    AllEntries.of_subset hp rfl fun _ he => OrderedDict.mem_moveToEnd.mp he

/-- A round stores its own block's slices at most. -/
theorem insertRound_allEntries {layers : Past Row} {key : Int × List Tok} {i : Nat}
    (hnew : E key (slices layers (i * bs) (i * bs + bs))) :
    Exec.Keeps (AllEntries bs E) (insertRound layers key i) := by
  refine Exec.Keeps.get_bind fun p hp => ?_
  refine Exec.Keeps.ite (fun _ => ?_) (fun _ => moveToEnd_allEntries key) p hp
  refine (evictWhileFull_allEntries _).bind fun _ => Exec.Keeps.get_bind fun p₁ hp₁ => ?_
  refine Exec.Keeps.bind (m := set _) (fun _ _ => ?_) (fun _ => moveToEnd_allEntries key) p₁ hp₁
  refine ⟨hp₁.1, fun k block hmem => ?_⟩
  rcases OrderedDict.mem_insert.mp hmem with ⟨rfl, rfl⟩ | ⟨-, hold⟩
  · rw [hp₁.1]
    exact hnew
  · exact hp₁.2 k block hold

theorem insertLoop_allEntries {layers : Past Row} : ∀ (blocks : List (List Tok)) (i : Nat) (h : Int),
    (∀ j < blocks.length, E (keyAt chain blocks h j)
      (slices layers ((i + j) * bs) ((i + j) * bs + bs))) →
    Exec.Keeps (AllEntries bs E) (insertLoop chain layers blocks i h)
  | [], _, _, _ => Exec.Keeps.pure ()
  | blockTokens :: rest, i, h, hnew =>
    (insertRound_allEntries (hnew 0 (Nat.zero_lt_succ _))).bind fun _ =>
      insertLoop_allEntries rest (i + 1) (chain h blockTokens) fun j hj => by
        have := hnew (j + 1) (Nat.succ_lt_succ hj)
        rwa [← Nat.add_assoc, Nat.add_right_comm] at this

theorem insert_allEntries {tokenIds : List Tok} {layers : Past Row} {cachedLen : Nat}
    (hnew : ∀ j < min tokenIds.length cachedLen / bs,
      E (keyAt chain (fullBlocks bs tokenIds) rootHash j) (slices layers (j * bs) (j * bs + bs))) :
    Exec.Keeps (AllEntries bs E) (insert chain tokenIds layers cachedLen) := by
  refine Exec.Keeps.get_bind fun p hp => ?_
  refine Exec.Keeps.ite (fun _ => Exec.Keeps.throw _) (fun _ => ?_) p hp
  refine insertLoop_allEntries _ 0 rootHash fun j hj => ?_
  rw [List.length_take] at hj
  have hlt : j < min tokenIds.length cachedLen / p.blockSize := by omega
  rw [keyAt_take chain _ _ hlt, Nat.zero_add, hp.1]
  rw [hp.1] at hlt
  exact hnew j hlt

/-- The entries of `p`, in any order. -/
def Reorders (p q : BlockPrefixCache Tok Row) : Prop :=
  SameSizes p q ∧ q.entries.entries.Perm p.entries.entries

theorem lookup_reorders (tokenIds : List Tok) (p : BlockPrefixCache Tok Row) :
    Exec.Keeps (Reorders p) (lookup chain tokenIds) := by
  refine Exec.Keeps.get_bind fun q hq => ?_
  have hperm := (lookupLoop_eq chain ((fullBlocks q.blockSize tokenIds).take
    ((tokenIds.length - 1) / q.blockSize)) rootHash q.entries []).2.trans hq.2
  refine Exec.Keeps.ite (fun _ => Exec.Keeps.throw _) (fun _ _ _ => ?_) q hq
  simp only
  generalize lookupLoop chain ((fullBlocks q.blockSize tokenIds).take
    ((tokenIds.length - 1) / q.blockSize)) rootHash q.entries [] = r at hperm ⊢
  obtain ⟨matched, entries⟩ := r
  have hsizes : SameSizes p q := hq.1
  cases matched with
  | nil => exact ⟨⟨hsizes.blockSize, hsizes.maxEntries⟩, hperm⟩
  | cons first rest =>
    simp only
    cases (List.range first.length).mapM (catLayer (first :: rest)) with
    | error e => exact ⟨⟨hsizes.blockSize, hsizes.maxEntries⟩, hperm⟩
    | ok layers => exact ⟨⟨hsizes.blockSize, hsizes.maxEntries⟩, hperm⟩

theorem lookup_allEntries (tokenIds : List Tok) :
    Exec.Keeps (AllEntries bs E) (lookup chain tokenIds) := by
  intro p hp
  obtain ⟨hsizes, hperm⟩ := lookup_reorders tokenIds p p ⟨⟨rfl, rfl⟩, .refl _⟩
  exact hp.of_subset hsizes.blockSize fun _ he => hperm.mem_iff.mp he

end BlockPrefixCache

end Nifre
