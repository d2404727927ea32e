import Nifre.Inference.BlockAllocator
import Nifre.Lib.ChainedMap

/-!
# The block-chained prefix cache

An entry is keyed by the hash of the chain of blocks before it and by the tokens of its own
block, and holds one reference to a physical block. `lookup` walks the chain of a prompt's
full blocks, `insert` registers a chain and evicts the oldest entries to stay within
`max_entries`.

Python's built-in hash of a tuple is the parameter `chain`.
-/

namespace Nifre

open Digest ChainedMap

/-- `(parent_hash, block_tokens)`. -/
abbrev CacheKey (Tok : Type) := Int × List Tok

structure PrefixCache (Tok : Type) where
  blockSize : Nat
  maxEntries : Nat
  entries : OrderedDict (CacheKey Tok) Int
  lookups : Nat
  hits : Nat
  tokensSaved : Nat
  blockSize_pos : 0 < blockSize
  maxEntries_pos : 0 < maxEntries

namespace PrefixCache

variable {Tok : Type} [DecidableEq Tok]

def rootHash : Int := 0

/-- `__init__`. -/
def new (blockSize maxEntries : Int) : Except PyError (PrefixCache Tok) :=
  if hb : blockSize ≤ 0 then
    .error (.valueError s!"block_size must be positive, got {blockSize}")
  else if hm : maxEntries ≤ 0 then
    .error (.valueError s!"max_entries must be positive, got {maxEntries}")
  else .ok
    { blockSize := blockSize.toNat
      maxEntries := maxEntries.toNat
      entries := OrderedDict.empty
      lookups := 0
      hits := 0
      tokensSaved := 0
      blockSize_pos := by omega
      maxEntries_pos := by omega }

variable (chain : Int → List Tok → Int)

/-! ## lookup -/

/-- The `for` loop of `lookup` from the chain hash `parentHash` on. -/
def lookupLoop (blockSize : Nat) : List (List Tok) → Int → OrderedDict (CacheKey Tok) Int →
    Nat → List Int → (Nat × List Int) × OrderedDict (CacheKey Tok) Int
  | [], _, entries, matchedTokens, matchedBlocks => ((matchedTokens, matchedBlocks), entries)
  | blockTokens :: rest, parentHash, entries, matchedTokens, matchedBlocks =>
    match entries.find? (parentHash, blockTokens) with
    | none => ((matchedTokens, matchedBlocks), entries)
    | some blockId =>
      lookupLoop blockSize rest (chain parentHash blockTokens)
        (entries.moveToEnd (parentHash, blockTokens))
        (matchedTokens + blockSize) (matchedBlocks ++ [blockId])

/-- `lookup`: the matched length, the physical blocks, and the cache with its LRU order and
counters updated. -/
def lookup (p : PrefixCache Tok) (tokenIds : List Tok) : (Nat × List Int) × PrefixCache Tok :=
  let r := lookupLoop chain p.blockSize (fullBlocks p.blockSize tokenIds) rootHash p.entries 0 []
  let matchedTokens := r.1.1
  (r.1, { p with
    entries := r.2
    lookups := p.lookups + 1
    hits := if 0 < matchedTokens then p.hits + 1 else p.hits
    tokensSaved := if 0 < matchedTokens then p.tokensSaved + matchedTokens else p.tokensSaved })

/-! ## insert -/

/-- The state `insert` works on: the cache and the allocator it shares with the tables. -/
structure Shared (Tok : Type) where
  cache : PrefixCache Tok
  allocator : BlockAllocator

abbrev M (Tok : Type) := EStateM PyError (Shared Tok)

def onAllocator {α : Type} (m : BlockAllocator.M α) : M Tok α :=
  Exec.within (·.allocator) (fun a s => { s with allocator := a }) m

def setEntries (entries : OrderedDict (CacheKey Tok) Int) : M Tok Unit :=
  modify fun s => { s with cache := { s.cache with entries := entries } }

/-- `_evict_oldest`. -/
def evictOldest : M Tok Unit := do
  let s ← get
  match s.cache.entries.popFirst? with
  | none => throw (.keyError "dictionary is empty")
  | some ((_, blockId), rest) =>
    setEntries rest
    onAllocator (BlockAllocator.release blockId)

/-- `while len(self.entries) >= self.max_entries: self._evict_oldest()`. Every round drops an
entry, so the number of entries bounds the rounds. -/
def evictWhileFull : Nat → M Tok Unit
  | 0 => pure ()
  | rounds + 1 => do
    let s ← get
    if s.cache.maxEntries ≤ s.cache.entries.size then
      evictOldest
      evictWhileFull rounds

/-- The body of the `for` loop of `insert` for one key. -/
def insertRound (key : CacheKey Tok) (blockId : Int) : M Tok Unit := do
  let s ← get
  if s.cache.entries.contains key = false then
    evictWhileFull s.cache.entries.size
    let s ← get
    setEntries (s.cache.entries.insert key blockId)
    onAllocator (BlockAllocator.retain blockId)
  let s ← get
  setEntries (s.cache.entries.moveToEnd key)

/-- The `for` loop of `insert` from the chain hash `parentHash` on; it stops where the prompt's
blocks or the physical blocks end. -/
def insertLoop : List (List Tok) → List Int → Int → M Tok Unit
  | [], _, _ => pure ()
  | _ :: _, [], _ => pure ()
  | blockTokens :: rest, blockId :: physicalBlocks, parentHash => do
    insertRound (parentHash, blockTokens) blockId
    insertLoop rest physicalBlocks (chain parentHash blockTokens)

def insert (tokenIds : List Tok) (physicalBlocks : List Int) : M Tok Unit := do
  let s ← get
  insertLoop chain (fullBlocks s.cache.blockSize tokenIds) physicalBlocks rootHash

/-! ## What a lookup matches -/

/-- **The loop of `lookup` returns what is stored along the chain**, and only reorders the
entries. -/
theorem lookupLoop_eq (bs : Nat) : ∀ (blocks : List (List Tok)) (h : Int)
    (entries : OrderedDict (CacheKey Tok) Int) (n : Nat) (acc : List Int),
    (lookupLoop chain bs blocks h entries n acc).1
        = (n + (matched chain entries blocks h).length * bs, acc ++ matched chain entries blocks h)
      ∧ (lookupLoop chain bs blocks h entries n acc).2.entries.Perm entries.entries
  | [], _, entries, n, acc => by simp [lookupLoop, matched]
  | b :: rest, h, entries, n, acc => by
    rw [lookupLoop, matched]
    cases hf : entries.find? (h, b) with
    | none => simp
    | some blockId =>
      obtain ⟨h1, h2⟩ := lookupLoop_eq bs rest (chain h b) (entries.moveToEnd (h, b)) (n + bs)
        (acc ++ [blockId])
      refine ⟨?_, h2.trans (entries.moveToEnd_perm _)⟩
      rw [h1, matched_moveToEnd]
      simp only [List.length_cons, List.append_assoc, List.singleton_append, Nat.succ_mul,
        Prod.mk.injEq, and_true]
      omega

/-- The blocks a lookup of `tokenIds` finds. -/
def found (p : PrefixCache Tok) (tokenIds : List Tok) : List Int :=
  matched chain p.entries (fullBlocks p.blockSize tokenIds) rootHash

theorem lookup_fst (p : PrefixCache Tok) (tokenIds : List Tok) :
    (p.lookup chain tokenIds).1
      = ((p.found chain tokenIds).length * p.blockSize, p.found chain tokenIds) := by
  have h := (lookupLoop_eq chain p.blockSize (fullBlocks p.blockSize tokenIds) rootHash
    p.entries 0 []).1
  rw [Nat.zero_add, List.nil_append] at h
  exact h

theorem lookup_entries_perm (p : PrefixCache Tok) (tokenIds : List Tok) :
    (p.lookup chain tokenIds).2.entries.entries.Perm p.entries.entries :=
  (lookupLoop_eq chain p.blockSize (fullBlocks p.blockSize tokenIds) rootHash p.entries 0 []).2

theorem lookup_blockSize (p : PrefixCache Tok) (tokenIds : List Tok) :
    (p.lookup chain tokenIds).2.blockSize = p.blockSize := rfl

/-! ## What an insert leaves -/

/-- The references of the entries. -/
def held (p : PrefixCache Tok) : Multiset Int := ↑p.entries.values

variable {chain} {refs : Multiset Int}

omit [DecidableEq Tok] in
@[simp] theorem setEntries_run (entries : OrderedDict (CacheKey Tok) Int) (s : Shared Tok) :
    (setEntries entries).run s
      = .ok () { s with cache := { s.cache with entries := entries } } := rfl

/-- What the steps of an insert keep of the cache: its sizes, and the accounting of the
allocator with `refs` held outside. -/
structure Kept (s : Shared Tok) (refs : Multiset Int) (s' : Shared Tok) : Prop where
  counts : s'.allocator.Counts (refs + s'.cache.held)
  numBlocks : s'.allocator.numBlocks = s.allocator.numBlocks
  blockSize : s'.cache.blockSize = s.cache.blockSize
  maxEntries : s'.cache.maxEntries = s.cache.maxEntries

omit [DecidableEq Tok] in
theorem Kept.trans {s s' s'' : Shared Tok} (h : Kept s refs s') (h' : Kept s' refs s'') :
    Kept s refs s'' where
  counts := h'.counts
  numBlocks := h'.numBlocks.trans h.numBlocks
  blockSize := h'.blockSize.trans h.blockSize
  maxEntries := h'.maxEntries.trans h.maxEntries

omit [DecidableEq Tok] in
/-- **Evicting never raises while there is an entry**: the entry holds a reference. -/
theorem evictOldest_spec {s : Shared Tok} (h : s.allocator.Counts (refs + s.cache.held))
    (hne : s.cache.entries.size ≠ 0) :
    ∃ s', evictOldest.run s = .ok () s' ∧ Kept s refs s'
      ∧ s'.cache.entries.size + 1 = s.cache.entries.size
      ∧ ∀ e ∈ s'.cache.entries.entries, e ∈ s.cache.entries.entries := by
  cases hp : s.cache.entries.popFirst? with
  | none => exact absurd (OrderedDict.popFirst?_eq_none_iff.mp hp) hne
  | some r =>
    obtain ⟨⟨k, b⟩, rest⟩ := r
    have hent : s.cache.entries.entries = (k, b) :: rest.entries :=
      OrderedDict.popFirst?_eq_some hp
    have hheld : s.cache.held = b ::ₘ (↑rest.values : Multiset Int) := by
      rw [held, OrderedDict.values, hent]; rfl
    have hmem : b ∈ refs + s.cache.held := by rw [hheld]; simp
    obtain ⟨a, hr, hc, hn⟩ := BlockAllocator.release_spec h hmem
    refine ⟨{ s with cache := { s.cache with entries := rest }, allocator := a }, ?_,
      ⟨hc.congr ?_, hn, rfl, rfl⟩, ?_, ?_⟩
    · unfold evictOldest
      rw [Exec.run_bind_ok (EStateM.run_get s), hp]
      show (setEntries rest >>= fun _ => onAllocator (BlockAllocator.release b)).run s = _
      rw [Exec.run_bind_ok (setEntries_run rest s)]
      exact Exec.run_within_ok hr
    · rw [hheld, Multiset.add_cons, Multiset.erase_cons_head]
      rfl
    · show rest.entries.length + 1 = s.cache.entries.entries.length
      rw [hent, List.length_cons]
    · intro e he
      rw [hent]
      exact List.mem_cons_of_mem _ he

omit [DecidableEq Tok] in
/-- The eviction loop never raises, and leaves room for one entry. -/
theorem evictWhileFull_spec : ∀ (rounds : Nat) {s : Shared Tok},
    s.allocator.Counts (refs + s.cache.held) → s.cache.entries.size ≤ rounds →
    ∃ s', (evictWhileFull rounds).run s = .ok () s' ∧ Kept s refs s'
      ∧ s'.cache.entries.size < s'.cache.maxEntries
      ∧ ∀ e ∈ s'.cache.entries.entries, e ∈ s.cache.entries.entries
  | 0, s, h, hsize => by
    refine ⟨s, rfl, ⟨h, rfl, rfl, rfl⟩, ?_, fun _ he => he⟩
    have := s.cache.maxEntries_pos
    omega
  | rounds + 1, s, h, hsize => by
    rw [evictWhileFull, Exec.run_bind_ok (EStateM.run_get s)]
    by_cases hfull : s.cache.maxEntries ≤ s.cache.entries.size
    · rw [if_pos hfull]
      have hpos := s.cache.maxEntries_pos
      obtain ⟨s₁, hr₁, hk₁, hs₁, he₁⟩ := evictOldest_spec h (by omega)
      obtain ⟨s₂, hr₂, hk₂, hs₂, he₂⟩ := evictWhileFull_spec rounds hk₁.counts (by omega)
      exact ⟨s₂, by rw [Exec.run_bind_ok hr₁]; exact hr₂, hk₁.trans hk₂, hs₂,
        fun e he => he₁ e (he₂ e he)⟩
    · rw [if_neg hfull]
      exact ⟨s, rfl, ⟨h, rfl, rfl, rfl⟩, by omega, fun _ he => he⟩

/-- What an insert of a chain leaves: no entry that was neither there nor in the chain. -/
structure Inserted (chain : Int → List Tok → Int) (s : Shared Tok) (refs : Multiset Int)
    (blocks : List (List Tok)) (phys : List Int) (h : Int) (s' : Shared Tok) : Prop where
  kept : Kept s refs s'
  size : s.cache.entries.size ≤ s.cache.maxEntries → s'.cache.entries.size ≤ s'.cache.maxEntries
  entries : ∀ k b, (k, b) ∈ s'.cache.entries.entries → (k, b) ∈ s.cache.entries.entries ∨
    ∃ i, i < blocks.length ∧ k = keyAt chain blocks h i ∧ phys[i]? = some b

/-- One round for a key: evict, store and retain if the key is new, then move it
to the end. -/
theorem insertRound_spec {s : Shared Tok} (h : s.allocator.Counts (refs + s.cache.held))
    (key : CacheKey Tok) {b : Int} (hb : b ∈ refs) :
    ∃ s', (insertRound key b).run s = .ok () s' ∧ Kept s refs s'
      ∧ (s.cache.entries.size ≤ s.cache.maxEntries →
          s'.cache.entries.size ≤ s'.cache.maxEntries)
      ∧ ∀ k c, (k, c) ∈ s'.cache.entries.entries →
          (k, c) ∈ s.cache.entries.entries ∨ (k = key ∧ c = b) := by
  unfold insertRound
  rw [Exec.run_bind_ok (EStateM.run_get s)]
  by_cases hin : s.cache.entries.contains key = false
  · rw [if_pos hin]
    obtain ⟨s₁, hr₁, hk₁, hs₁, he₁⟩ := evictWhileFull_spec s.cache.entries.size h (Nat.le_refl _)
    -- evicting adds no key
    have hnew : key ∉ s₁.cache.entries.keys := by
      intro hc
      obtain ⟨v, hv⟩ := OrderedDict.mem_keys_iff.mp hc
      have := OrderedDict.contains_iff.mpr (OrderedDict.mem_keys_of_mem (he₁ _ hv))
      rw [hin] at this
      cases this
    obtain ⟨a, hr₂, hc₂, hn₂, -⟩ := BlockAllocator.retain_spec hk₁.counts
      (Multiset.mem_add.mpr (Or.inl hb) : b ∈ refs + s₁.cache.held)
    refine ⟨{ cache := { s₁.cache with
        entries := (s₁.cache.entries.insert key b).moveToEnd key }, allocator := a }, ?_,
      ⟨hc₂.congr ?_, hn₂.trans hk₁.numBlocks, hk₁.blockSize, hk₁.maxEntries⟩, ?_, ?_⟩
    · simp only
      rw [Exec.run_bind_ok hr₁, Exec.run_bind_ok (EStateM.run_get s₁),
        Exec.run_bind_ok (setEntries_run _ s₁)]
      have hrun : (onAllocator (BlockAllocator.retain b)).run
          { s₁ with cache := { s₁.cache with entries := s₁.cache.entries.insert key b } }
          = .ok () { cache := { s₁.cache with entries := s₁.cache.entries.insert key b },
                     allocator := a } := Exec.run_within_ok hr₂
      rw [Exec.run_bind_ok hrun]
      rfl
    · show b ::ₘ (refs + s₁.cache.held)
        = refs + ↑((s₁.cache.entries.insert key b).moveToEnd key).values
      rw [OrderedDict.values_moveToEnd, OrderedDict.values_insert_of_notMem hnew,
        Multiset.add_cons]
      rfl
    · intro _
      show ((s₁.cache.entries.insert key b).moveToEnd key).size ≤ s₁.cache.maxEntries
      rw [OrderedDict.size_moveToEnd, OrderedDict.size_insert_of_notMem hnew]
      exact hs₁
    · intro k c hkc
      have hkc' : (k, c) ∈ (s₁.cache.entries.insert key b).entries :=
        OrderedDict.mem_moveToEnd.mp hkc
      rcases OrderedDict.mem_insert.mp hkc' with he | ⟨-, hm⟩
      · exact Or.inr he
      · exact Or.inl (he₁ _ hm)
  · rw [if_neg hin]
    refine ⟨{ s with cache := { s.cache with entries := s.cache.entries.moveToEnd key } }, rfl,
      ⟨h.congr ?_, rfl, rfl, rfl⟩, ?_, ?_⟩
    · show refs + s.cache.held = refs + ↑(s.cache.entries.moveToEnd key).values
      rw [OrderedDict.values_moveToEnd]
      rfl
    · intro hle
      show (s.cache.entries.moveToEnd key).size ≤ s.cache.maxEntries
      rw [OrderedDict.size_moveToEnd]
      exact hle
    · intro k c hkc
      exact Or.inl (OrderedDict.mem_moveToEnd.mp hkc)

/-- **The loop of `insert` never raises** when the physical blocks are held outside. -/
theorem insertLoop_spec : ∀ (blocks : List (List Tok)) (phys : List Int) (h : Int)
    {s : Shared Tok}, s.allocator.Counts (refs + s.cache.held) → (∀ b ∈ phys, b ∈ refs) →
    ∃ s', (insertLoop chain blocks phys h).run s = .ok () s' ∧
      Inserted chain s refs blocks phys h s'
  | [], _, _, s, hc, _ =>
    ⟨s, rfl, ⟨hc, rfl, rfl, rfl⟩, id, fun _ _ he => Or.inl he⟩
  | _ :: _, [], _, s, hc, _ =>
    ⟨s, rfl, ⟨hc, rfl, rfl, rfl⟩, id, fun _ _ he => Or.inl he⟩
  | toks :: rest, b :: phys, h, s, hc, hphys => by
    obtain ⟨s₁, hr₁, hk₁, hs₁, he₁⟩ := insertRound_spec hc (h, toks) (hphys b List.mem_cons_self)
    obtain ⟨s₂, hr₂, hi₂⟩ := insertLoop_spec rest phys (chain h toks) hk₁.counts
      fun c hcm => hphys c (List.mem_cons_of_mem b hcm)
    refine ⟨s₂, by rw [insertLoop, Exec.run_bind_ok hr₁]; exact hr₂, hk₁.trans hi₂.kept,
      fun hle => hi₂.size (hs₁ hle), ?_⟩
    intro k c hkc
    rcases hi₂.entries k c hkc with hm | ⟨i, hi, hk, hp⟩
    · rcases he₁ k c hm with hm | ⟨rfl, rfl⟩
      · exact Or.inl hm
      · exact Or.inr ⟨0, Nat.zero_lt_succ _, rfl, rfl⟩
    · exact Or.inr ⟨i + 1, Nat.succ_lt_succ hi, hk, hp⟩

variable (chain) in
theorem insert_spec {s : Shared Tok} (tokenIds : List Tok) {phys : List Int}
    (h : s.allocator.Counts (refs + s.cache.held)) (hphys : ∀ b ∈ phys, b ∈ refs) :
    ∃ s', (insert chain tokenIds phys).run s = .ok () s' ∧
      Inserted chain s refs (fullBlocks s.cache.blockSize tokenIds) phys rootHash s' := by
  unfold insert
  rw [Exec.run_bind_ok (EStateM.run_get s)]
  exact insertLoop_spec _ _ _ h hphys

end PrefixCache

end Nifre
