import Nifre.Py
import Nifre.Lib.Exec
import Mathlib.Data.Finset.Card
import Mathlib.Data.Multiset.AddSub
import Mathlib.Data.Int.Interval

/-!
# The physical block pool

`BlockAllocator` hands out block ids from a free list and counts references to the ids in use.

What it is for is said by `Counts s refs`: `refs` is the multiset of references that the
clients hold, the count of a block is its multiplicity there, and the free list is the rest
of the pool. Each method is then one operation on multisets.

* `allocate` adds a reference to a block nobody holds
* `retain` adds a reference to a block somebody holds
* `release` removes one
* `free_many` removes one from each block of a list
-/

namespace Nifre

structure BlockAllocator where
  numBlocks : Nat
  /-- `_free`, popped from and appended to at its end. -/
  free : List Int
  inUse : Finset Int
  refcount : Int → Int

namespace BlockAllocator

abbrev M := EStateM PyError BlockAllocator

/-- `list(range(num_blocks))`. -/
def poolIds (n : Nat) : List Int := (List.range n).map Int.ofNat

/-- `__init__`. -/
def new (numBlocks : Int) : Except PyError BlockAllocator :=
  if numBlocks ≤ 0 then .error (.valueError s!"num_blocks must be positive, got {numBlocks}")
  else .ok
    { numBlocks := numBlocks.toNat
      free := poolIds numBlocks.toNat
      inUse := ∅
      refcount := fun _ => 0 }

def allocatedCount (s : BlockAllocator) : Nat := s.inUse.card

def freeCount (s : BlockAllocator) : Nat := s.free.length

def validateBlockId (b : Int) : M Unit := do
  let s ← get
  if b < 0 ∨ (s.numBlocks : Int) ≤ b then
    throw (.valueError s!"block_id {b} out of range [0, {s.numBlocks})")

/-- One round of the loop in `allocate_many`: take the last free id. -/
def popFree : M Int := do
  let s ← get
  match s.free.getLast? with
  | none => throw (.indexError "pop from empty list")
  | some b =>
    set { s with
      free := s.free.dropLast
      inUse := insert b s.inUse
      refcount := Function.update s.refcount b 1 }
    pure b

def popFreeMany : Nat → List Int → M (List Int)
  | 0, allocated => pure allocated
  | n + 1, allocated => do
    let b ← popFree
    popFreeMany n (allocated ++ [b])

def allocateMany (count : Int) : M (List Int) := do
  if count ≤ 0 then
    throw (.valueError s!"count must be positive, got {count}")
  else
    let s ← get
    if (s.freeCount : Int) < count then
      throw (.blockPoolExhausted s!"need {count} blocks, only {s.freeCount} free")
    else
      popFreeMany count.toNat []

/-- `allocate_many(1)[0]`. -/
def allocate : M Int := do
  let allocated ← allocateMany 1
  match allocated with
  | b :: _ => pure b
  | [] => throw (.indexError "list index out of range")

def retain (b : Int) : M Unit := do
  validateBlockId b
  let s ← get
  if b ∉ s.inUse then
    throw (.valueError s!"block {b} is not allocated")
  else
    set { s with refcount := Function.update s.refcount b (s.refcount b + 1) }

def release (b : Int) : M Unit := do
  validateBlockId b
  let s ← get
  if b ∉ s.inUse then
    throw (.valueError s!"block {b} is not allocated")
  else
    let count := s.refcount b - 1
    let s := { s with refcount := Function.update s.refcount b count }
    set s
    if count < 0 then
      throw (.valueError s!"block {b} refcount underflow")
    else if count = 0 then
      set { s with inUse := s.inUse.erase b, free := s.free ++ [b] }

/-- The check loop of `free_many`: every id is in the pool and none is repeated. -/
def checkMany : List Int → List Int → M Unit
  | [], _ => pure ()
  | b :: rest, seen => do
    validateBlockId b
    if b ∈ seen then
      throw (.valueError s!"duplicate block_id in free_many: {b}")
    else
      checkMany rest (b :: seen)

def freeMany (blockIds : List Int) : M Unit := do
  if blockIds = [] then
    pure ()
  else
    checkMany blockIds []
    forM blockIds release

/-! ## References held by the clients -/

/-- The ids of the pool. -/
def InPool (s : BlockAllocator) (b : Int) : Prop := 0 ≤ b ∧ b < s.numBlocks

/-- The allocator's state, when `refs` are the references its clients hold. -/
structure Counts (s : BlockAllocator) (refs : Multiset Int) : Prop where
  refs_pool : ∀ b ∈ refs, s.InPool b
  refcount_eq : ∀ b, s.refcount b = refs.count b
  mem_inUse : ∀ b, b ∈ s.inUse ↔ b ∈ refs
  mem_free : ∀ b, b ∈ s.free ↔ s.InPool b ∧ b ∉ refs
  free_nodup : s.free.Nodup

theorem mem_poolIds {n : Nat} {b : Int} : b ∈ poolIds n ↔ 0 ≤ b ∧ b < n := by
  unfold poolIds
  rw [List.mem_map]
  constructor
  · rintro ⟨i, hi, rfl⟩
    have := List.mem_range.mp hi
    exact ⟨Int.natCast_nonneg i, by simpa using this⟩
  · rintro ⟨h0, h1⟩
    exact ⟨b.toNat, List.mem_range.mpr (by omega), by simpa using h0⟩

theorem poolIds_nodup (n : Nat) : (poolIds n).Nodup :=
  List.nodup_range.map fun _ _ h => Int.ofNat.inj h

/-- A new pool is held by nobody. -/
theorem counts_new {n : Int} {s : BlockAllocator} (h : new n = .ok s) :
    s.Counts 0 ∧ s.numBlocks = n.toNat := by
  unfold new at h
  split at h
  · cases h
  · cases h
    exact ⟨⟨by simp, by simp, by simp, fun b => by simp [InPool, mem_poolIds], poolIds_nodup _⟩, rfl⟩

namespace Counts

variable {s : BlockAllocator} {refs : Multiset Int}

/-- **Free ids and ids in use make up the pool.** -/
theorem free_add_card (h : s.Counts refs) : s.free.length + refs.toFinset.card = s.numBlocks := by
  have hdisj : Disjoint s.free.toFinset refs.toFinset := by
    rw [Finset.disjoint_left]
    intro b hb hr
    exact ((h.mem_free b).mp (List.mem_toFinset.mp hb)).2 (Multiset.mem_toFinset.mp hr)
  have hunion : s.free.toFinset ∪ refs.toFinset = Finset.Ico (0 : Int) s.numBlocks := by
    ext b
    rw [Finset.mem_union, List.mem_toFinset, Multiset.mem_toFinset, h.mem_free, Finset.mem_Ico]
    constructor
    · rintro (⟨hp, -⟩ | hr)
      · exact hp
      · exact h.refs_pool b hr
    · intro hp
      by_cases hr : b ∈ refs
      · exact Or.inr hr
      · exact Or.inl ⟨hp, hr⟩
  have hcard := Finset.card_union_of_disjoint hdisj
  rw [hunion, Int.card_Ico, List.toFinset_card_of_nodup h.free_nodup] at hcard
  simpa using hcard.symm

theorem mem_inUse_of_mem (h : s.Counts refs) {b : Int} (hb : b ∈ refs) : b ∈ s.inUse :=
  (h.mem_inUse b).mpr hb

/-- The accounting only depends on the multiset of references. -/
theorem congr (h : s.Counts refs) {refs' : Multiset Int} (he : refs = refs') :
    s.Counts refs' := he ▸ h

/-- The references are what the counts say. -/
theorem unique (h : s.Counts refs) {refs' : Multiset Int} (h' : s.Counts refs') : refs = refs' := by
  ext b
  have hcount := (h.refcount_eq b).symm.trans (h'.refcount_eq b)
  omega

end Counts

/-! ## The methods as operations on the references -/

variable {s : BlockAllocator} {refs : Multiset Int}

theorem validateBlockId_run_ok {b : Int} (h : s.InPool b) :
    (validateBlockId b).run s = .ok () s := by
  unfold validateBlockId
  rw [Exec.run_bind_ok (EStateM.run_get s), if_neg (by unfold InPool at h; omega)]
  rfl

theorem validateBlockId_run_error {b : Int} (h : ¬s.InPool b) :
    (validateBlockId b).run s
      = .error (.valueError s!"block_id {b} out of range [0, {s.numBlocks})") s := by
  unfold validateBlockId
  rw [Exec.run_bind_ok (EStateM.run_get s), if_pos (by unfold InPool at h; omega)]
  rfl

/-- `retain` on an allocated block. -/
theorem retain_inUse {b : Int} (hp : s.InPool b) (hb : b ∈ s.inUse) :
    (retain b).run s
      = .ok () { s with refcount := Function.update s.refcount b (s.refcount b + 1) } := by
  unfold retain
  rw [Exec.run_bind_ok (validateBlockId_run_ok hp), Exec.run_bind_ok (EStateM.run_get s),
    if_neg (not_not.mpr hb)]
  rfl

/-- `retain` on a block somebody holds. -/
theorem retain_run (h : s.Counts refs) {b : Int} (hb : b ∈ refs) :
    (retain b).run s
      = .ok () { s with refcount := Function.update s.refcount b (s.refcount b + 1) } :=
  retain_inUse (h.refs_pool b hb) (h.mem_inUse_of_mem hb)

theorem retain_spec (h : s.Counts refs) {b : Int} (hb : b ∈ refs) :
    ∃ s', (retain b).run s = .ok () s' ∧ s'.Counts (b ::ₘ refs) ∧ s'.numBlocks = s.numBlocks
      ∧ s'.free = s.free := by
  refine ⟨_, retain_run h hb, ⟨?_, ?_, ?_, ?_, h.free_nodup⟩, rfl, rfl⟩
  · intro c hc
    rcases Multiset.mem_cons.mp hc with rfl | hc
    · exact h.refs_pool c hb
    · exact h.refs_pool c hc
  · intro c
    show Function.update s.refcount b _ c = _
    by_cases hc : c = b
    · subst hc; simp [h.refcount_eq c]
    · simp [hc, h.refcount_eq c]
  · intro c
    show c ∈ s.inUse ↔ _
    rw [h.mem_inUse, Multiset.mem_cons]
    exact ⟨Or.inr, fun hc => hc.elim (fun he => he ▸ hb) id⟩
  · intro c
    show c ∈ s.free ↔ s.InPool c ∧ _
    rw [h.mem_free, Multiset.mem_cons]
    refine and_congr_right fun _ => not_congr ?_
    exact ⟨Or.inr, fun hc => hc.elim (fun he => he ▸ hb) id⟩

/-- `retain` on a block nobody holds raises and changes nothing. -/
theorem retain_run_error (h : s.Counts refs) {b : Int} (hb : b ∉ refs) :
    ∃ e, (retain b).run s = .error e s := by
  unfold retain
  by_cases hp : s.InPool b
  · rw [Exec.run_bind_ok (validateBlockId_run_ok hp), Exec.run_bind_ok (EStateM.run_get s),
      if_pos (fun hc => hb ((h.mem_inUse b).mp hc))]
    exact ⟨_, rfl⟩
  · exact ⟨_, Exec.run_bind_error (validateBlockId_run_error hp)⟩

/-- **`release` gives one reference back**, and the last one returns the block to the pool. -/
theorem release_spec (h : s.Counts refs) {b : Int} (hb : b ∈ refs) :
    ∃ s', (release b).run s = .ok () s' ∧ s'.Counts (refs.erase b)
      ∧ s'.numBlocks = s.numBlocks := by
  have hpos : 0 < refs.count b := Multiset.count_pos.mpr hb
  have hcount : s.refcount b - 1 = ((refs.count b - 1 : Nat) : Int) := by
    rw [h.refcount_eq b]; omega
  have hupdate : ∀ c, Function.update s.refcount b (s.refcount b - 1) c
      = ((refs.erase b).count c : Int) := by
    intro c
    by_cases hc : c = b
    · subst hc; rw [Function.update_self, hcount, Multiset.count_erase_self]
    · rw [Function.update_of_ne hc, Multiset.count_erase_of_ne hc, h.refcount_eq c]
  have hpool : ∀ c ∈ refs.erase b, s.InPool c := fun c hc =>
    h.refs_pool c (Multiset.mem_of_mem_erase hc)
  have hmem : ∀ c, c ≠ b → (c ∈ refs.erase b ↔ c ∈ refs) := fun c hc =>
    Multiset.mem_erase_of_ne hc
  unfold release
  rw [Exec.run_bind_ok (validateBlockId_run_ok (h.refs_pool b hb)),
    Exec.run_bind_ok (EStateM.run_get s), if_neg (not_not.mpr (h.mem_inUse_of_mem hb))]
  by_cases hlast : refs.count b = 1
  · -- the last reference: the block goes back to the free list
    have hnot : b ∉ refs.erase b := by
      rw [← Multiset.count_eq_zero, Multiset.count_erase_self]; omega
    have hrun : s.refcount b - 1 = 0 := by rw [hcount]; omega
    refine ⟨{ s with
      refcount := Function.update s.refcount b (s.refcount b - 1)
      inUse := s.inUse.erase b
      free := s.free ++ [b] }, ?_, ⟨hpool, hupdate, ?_, ?_, ?_⟩, rfl⟩
    · simp [hrun]
    · intro c
      show c ∈ s.inUse.erase b ↔ _
      by_cases hc : c = b
      · subst hc; simp [hnot]
      · rw [Finset.mem_erase, hmem c hc, h.mem_inUse]
        exact and_iff_right hc
    · intro c
      show c ∈ s.free ++ [b] ↔ s.InPool c ∧ _
      rw [List.mem_append, List.mem_singleton, h.mem_free]
      by_cases hc : c = b
      · subst hc; simp [hnot, h.refs_pool c hb]
      · rw [hmem c hc]; simp [hc]
    · refine List.nodup_append.mpr ⟨h.free_nodup, List.nodup_singleton b, ?_⟩
      intro c hc d hd
      rw [List.mem_singleton] at hd
      subst hd
      rintro rfl
      exact ((h.mem_free c).mp hc).2 hb
  · -- somebody else still holds it
    have hstill : b ∈ refs.erase b := by
      rw [← Multiset.count_pos, Multiset.count_erase_self]; omega
    have hrun : ¬s.refcount b - 1 = 0 := by rw [hcount]; omega
    have hneg : ¬s.refcount b - 1 < 0 := by rw [hcount]; omega
    have hsame : ∀ c, (c ∈ refs.erase b ↔ c ∈ refs) := by
      intro c
      by_cases hc : c = b
      · subst hc; exact ⟨fun _ => hb, fun _ => hstill⟩
      · exact hmem c hc
    refine ⟨{ s with refcount := Function.update s.refcount b (s.refcount b - 1) }, ?_,
      ⟨hpool, hupdate, fun c => (h.mem_inUse c).trans (hsame c).symm, ?_, h.free_nodup⟩, rfl⟩
    · simp [hrun, hneg]
    · intro c
      show c ∈ s.free ↔ s.InPool c ∧ _
      rw [h.mem_free, hsame]

/-- `release` of a block nobody holds raises and changes nothing. -/
theorem release_run_error (h : s.Counts refs) {b : Int} (hb : b ∉ refs) :
    ∃ e, (release b).run s = .error e s := by
  unfold release
  by_cases hp : s.InPool b
  · rw [Exec.run_bind_ok (validateBlockId_run_ok hp), Exec.run_bind_ok (EStateM.run_get s),
      if_pos (fun hc => hb ((h.mem_inUse b).mp hc))]
    exact ⟨_, rfl⟩
  · exact ⟨_, Exec.run_bind_error (validateBlockId_run_error hp)⟩

/-- **A round of the loop takes a block nobody holds**, the last of the free ones. -/
theorem popFree_spec (h : s.Counts refs) (hfree : s.free ≠ []) :
    ∃ b s', popFree.run s = .ok b s' ∧ b ∉ refs ∧ s'.Counts (b ::ₘ refs)
      ∧ s'.numBlocks = s.numBlocks ∧ s.free = s'.free ++ [b] := by
  obtain ⟨front, b, hb⟩ := (List.eq_nil_or_concat s.free).resolve_left hfree
  rw [List.concat_eq_append] at hb
  have hlast : s.free.getLast? = some b := by rw [hb]; simp
  have hfront : s.free.dropLast = front := by rw [hb]; simp
  have hbfree : b ∈ s.free := by rw [hb]; simp
  obtain ⟨hpool, hnew⟩ := (h.mem_free b).mp hbfree
  have hbfront : b ∉ front := by
    have hnd := h.free_nodup
    rw [hb] at hnd
    exact fun hc => (List.nodup_append.mp hnd).2.2 b hc b (by simp) rfl
  refine ⟨b, { s with
    free := front
    inUse := insert b s.inUse
    refcount := Function.update s.refcount b 1 }, ?_, hnew, ⟨?_, ?_, ?_, ?_, ?_⟩, rfl, hb⟩
  · unfold popFree
    rw [Exec.run_bind_ok (EStateM.run_get s)]
    simp only [hlast, hfront]
    rfl
  · intro c hc
    rcases Multiset.mem_cons.mp hc with rfl | hc
    · exact hpool
    · exact h.refs_pool c hc
  · intro c
    show Function.update s.refcount b 1 c = _
    by_cases hc : c = b
    · subst hc
      rw [Function.update_self, Multiset.count_cons_self, Multiset.count_eq_zero.mpr hnew]
      rfl
    · rw [Function.update_of_ne hc, Multiset.count_cons_of_ne hc, h.refcount_eq c]
  · intro c
    show c ∈ insert b s.inUse ↔ _
    rw [Finset.mem_insert, Multiset.mem_cons, h.mem_inUse]
  · intro c
    show c ∈ front ↔ s.InPool c ∧ _
    have hc : c ∈ s.free ↔ c ∈ front ∨ c = b := by rw [hb]; simp
    rw [Multiset.mem_cons, not_or]
    constructor
    · intro hcf
      obtain ⟨hcp, hcr⟩ := (h.mem_free c).mp (hc.mpr (Or.inl hcf))
      exact ⟨hcp, fun he => hbfront (he ▸ hcf), hcr⟩
    · rintro ⟨hcp, hcb, hcr⟩
      exact (hc.mp ((h.mem_free c).mpr ⟨hcp, hcr⟩)).resolve_right hcb
  · exact h.free_nodup.sublist (by rw [hb]; exact List.sublist_append_left front [b])

/-- The loop of `allocate_many` does not run out of free blocks. -/
theorem popFreeMany_spec : ∀ (n : Nat) (allocated : List Int) {s : BlockAllocator}
    {refs : Multiset Int}, s.Counts refs → n ≤ s.free.length →
    ∃ new s', (popFreeMany n allocated).run s = .ok (allocated ++ new) s'
      ∧ s'.Counts (↑new + refs) ∧ s'.numBlocks = s.numBlocks
  | 0, allocated, s, refs, h, _ => ⟨[], s, by rw [List.append_nil]; rfl, h.congr (by simp), rfl⟩
  | n + 1, allocated, s, refs, h, hn => by
    have hfree : s.free ≠ [] := List.length_pos_iff.mp (by omega)
    obtain ⟨b, s₁, hrun₁, -, hc₁, hn₁, hf₁⟩ := popFree_spec h hfree
    have hlen : s.free.length = s₁.free.length + 1 := by rw [hf₁]; simp
    obtain ⟨new, s₂, hrun₂, hc₂, hn₂⟩ := popFreeMany_spec n (allocated ++ [b]) hc₁ (by omega)
    refine ⟨b :: new, s₂, ?_, hc₂.congr ?_, hn₂.trans hn₁⟩
    · rw [popFreeMany, Exec.run_bind_ok hrun₁, hrun₂]
      simp
    · rw [← Multiset.cons_coe, Multiset.cons_add, Multiset.add_cons]

/-- **The ways `allocate_many` ends**: it raises before it takes a block, or takes them all. -/
theorem allocateMany_cases (h : s.Counts refs) (count : Int) :
    (∃ e, (allocateMany count).run s = .error e s) ∨
      ∃ new s', (allocateMany count).run s = .ok new s' ∧ s'.Counts (↑new + refs)
        ∧ s'.numBlocks = s.numBlocks := by
  unfold allocateMany
  by_cases hcount : count ≤ 0
  · rw [if_pos hcount]
    exact Or.inl ⟨_, rfl⟩
  rw [if_neg hcount, Exec.run_bind_ok (EStateM.run_get s)]
  by_cases hfew : (s.freeCount : Int) < count
  · rw [if_pos hfew]
    exact Or.inl ⟨_, rfl⟩
  rw [if_neg hfew]
  have henough : count.toNat ≤ s.free.length := by
    unfold freeCount at hfew
    omega
  exact Or.inr (popFreeMany_spec count.toNat [] h henough)

/-- **`allocate` on a pool that is not empty takes a block nobody holds.** -/
theorem allocate_spec (h : s.Counts refs) (hfree : s.free ≠ []) :
    ∃ b s', allocate.run s = .ok b s' ∧ b ∉ refs ∧ s'.Counts (b ::ₘ refs)
      ∧ s'.numBlocks = s.numBlocks ∧ s.free = s'.free ++ [b] := by
  obtain ⟨b, s', hrun, hb⟩ := popFree_spec h hfree
  have hcount : ¬(s.freeCount : Int) < 1 := by
    have : 0 < s.free.length := List.length_pos_iff.mpr hfree
    unfold freeCount; omega
  have hmany : (allocateMany 1).run s = .ok [b] s' := by
    unfold allocateMany
    rw [if_neg (by decide), Exec.run_bind_ok (EStateM.run_get s), if_neg hcount]
    show (popFreeMany 1 []).run s = _
    rw [popFreeMany, Exec.run_bind_ok hrun]
    rfl
  refine ⟨b, s', ?_, hb⟩
  unfold allocate
  rw [Exec.run_bind_ok hmany]
  rfl

/-- An empty pool raises and changes nothing. -/
theorem allocate_exhausted (hfree : s.free = []) :
    ∃ msg, allocate.run s = .error (.blockPoolExhausted msg) s := by
  have hmany : (allocateMany 1).run s
      = .error (.blockPoolExhausted s!"need {(1 : Int)} blocks, only {s.freeCount} free") s := by
    unfold allocateMany
    rw [if_neg (by decide), Exec.run_bind_ok (EStateM.run_get s),
      if_pos (by simp [freeCount, hfree])]
    rfl
  unfold allocate
  exact ⟨_, Exec.run_bind_error hmany⟩

/-- The check loop of `free_many` changes nothing, and passes exactly the lists of distinct
pool ids. -/
theorem checkMany_run : ∀ (bs seen : List Int),
    ((checkMany bs seen).run s = .ok () s ∧ bs.Nodup ∧ (∀ b ∈ bs, s.InPool b ∧ b ∉ seen))
      ∨ ((∃ e, (checkMany bs seen).run s = .error e s)
        ∧ ¬(bs.Nodup ∧ ∀ b ∈ bs, s.InPool b ∧ b ∉ seen))
  | [], seen => Or.inl ⟨rfl, List.nodup_nil, by simp⟩
  | b :: rest, seen => by
    rw [checkMany]
    by_cases hp : s.InPool b
    · rw [Exec.run_bind_ok (validateBlockId_run_ok hp)]
      by_cases hs : b ∈ seen
      · rw [if_pos hs]
        exact Or.inr ⟨⟨_, rfl⟩, fun hc => (hc.2 b List.mem_cons_self).2 hs⟩
      · rw [if_neg hs]
        rcases checkMany_run rest (b :: seen) with ⟨hr, hnd, hall⟩ | ⟨hr, hbad⟩
        · refine Or.inl ⟨hr, List.nodup_cons.mpr ⟨?_, hnd⟩, ?_⟩
          · exact fun hb => (hall b hb).2 List.mem_cons_self
          · intro c hc
            rcases List.mem_cons.mp hc with rfl | hc
            · exact ⟨hp, hs⟩
            · exact ⟨(hall c hc).1, fun h' => (hall c hc).2 (List.mem_cons_of_mem b h')⟩
        · refine Or.inr ⟨hr, fun hc => hbad ?_⟩
          obtain ⟨hbr, hnd⟩ := List.nodup_cons.mp hc.1
          refine ⟨hnd, fun c hcr => ⟨(hc.2 c (List.mem_cons_of_mem b hcr)).1, ?_⟩⟩
          rw [List.mem_cons]
          rintro (rfl | h')
          · exact hbr hcr
          · exact (hc.2 c (List.mem_cons_of_mem b hcr)).2 h'
    · rw [Exec.run_bind_error (validateBlockId_run_error hp)]
      exact Or.inr ⟨⟨_, rfl⟩, fun hc => hp (hc.2 b List.mem_cons_self).1⟩

theorem releaseAll_spec : ∀ (bs : List Int) {s : BlockAllocator} {refs : Multiset Int},
    s.Counts (↑bs + refs) →
    ∃ s', (forM bs release).run s = .ok () s' ∧ s'.Counts refs ∧ s'.numBlocks = s.numBlocks
  | [], s, refs, h => ⟨s, rfl, h.congr (by simp), rfl⟩
  | b :: bs, s, refs, h => by
    have hmem : b ∈ (↑(b :: bs) : Multiset Int) + refs := by simp
    obtain ⟨s₁, hrun, hc, hn⟩ := release_spec h hmem
    have hc' : s₁.Counts (↑bs + refs) := hc.congr (by
      rw [← Multiset.cons_coe, Multiset.cons_add, Multiset.erase_cons_head])
    obtain ⟨s₂, hrun₂, hc₂, hn₂⟩ := releaseAll_spec bs hc'
    exact ⟨s₂, by rw [List.forM_cons, Exec.run_bind_ok hrun]; exact hrun₂, hc₂, hn₂.trans hn⟩

/-- **The second loop of `free_many`, over distinct blocks**: it gives a reference of each back, or
raises at the first one that nobody holds. It has changed something by then unless that is the
first of all. -/
theorem releaseAll_cases : ∀ (bs : List Int) {s : BlockAllocator} {refs : Multiset Int},
    s.Counts refs → bs.Nodup →
    ((∀ b ∈ bs, b ∈ refs) ∧ ∃ s' refs', (forM bs release).run s = .ok () s' ∧ s'.Counts refs') ∨
    ((∃ b ∈ bs, b ∉ refs) ∧ ∃ e s' refs', (forM bs release).run s = .error e s'
      ∧ s'.Counts refs' ∧ refs' ≤ refs ∧ (s' = s ↔ ∀ b ∈ bs.head?, b ∉ refs))
  | [], s, refs, h, _ => Or.inl ⟨by simp, s, refs, rfl, h⟩
  | b :: rest, s, refs, h, hnd => by
    obtain ⟨hrest, hnd'⟩ := List.nodup_cons.mp hnd
    by_cases hb : b ∈ refs
    · obtain ⟨s₁, hrun, hc, -⟩ := release_spec h hb
      -- the rest does not hold `b`, so its references are the same as before
      have hmem : ∀ c ∈ rest, (c ∈ refs.erase b ↔ c ∈ refs) := fun c hcr =>
        Multiset.mem_erase_of_ne fun heq => hrest (heq ▸ hcr)
      rw [List.forM_cons, Exec.run_bind_ok hrun]
      rcases releaseAll_cases rest hc hnd' with
        ⟨hall, hok⟩ | ⟨⟨c, hcr, hcn⟩, e, s', refs', herr, hc', hle, -⟩
      · refine Or.inl ⟨fun c hcm => ?_, hok⟩
        rcases List.mem_cons.mp hcm with rfl | hcr
        · exact hb
        · exact (hmem c hcr).mp (hall c hcr)
      · have hlt : refs' < refs := hle.trans_lt (Multiset.erase_lt.mpr hb)
        refine Or.inr ⟨⟨c, List.mem_cons_of_mem b hcr, fun hcm => hcn ((hmem c hcr).mpr hcm)⟩, e, s',
          refs', herr, hc', hlt.le, iff_of_false ?_ ?_⟩
        · rintro rfl
          exact hlt.ne (hc'.unique h)
        · exact fun hhead => hhead b rfl hb
    · obtain ⟨e, herr⟩ := release_run_error h hb
      refine Or.inr ⟨⟨b, List.mem_cons_self, hb⟩, e, s, refs, ?_, h, le_rfl,
        iff_of_true rfl ?_⟩
      · rw [List.forM_cons, Exec.run_bind_error herr]
      · rintro c ⟨⟩
        exact hb

/-- **`free_many` on distinct blocks that are held gives one reference of each back.** -/
theorem freeMany_spec {bs : List Int} (h : s.Counts (↑bs + refs)) (hnd : bs.Nodup) :
    ∃ s', (freeMany bs).run s = .ok () s' ∧ s'.Counts refs ∧ s'.numBlocks = s.numBlocks := by
  unfold freeMany
  by_cases hbs : bs = []
  · subst hbs
    exact ⟨s, rfl, h.congr (by simp), rfl⟩
  · rw [if_neg hbs]
    rcases checkMany_run (s := s) bs [] with ⟨hr, -, -⟩ | ⟨-, hbad⟩
    · obtain ⟨s', hrun, hc, hn⟩ := releaseAll_spec bs h
      exact ⟨s', by rw [Exec.run_bind_ok hr]; exact hrun, hc, hn⟩
    · exact absurd ⟨hnd, fun b hb => ⟨h.refs_pool b (by simp [hb]), by simp⟩⟩ hbad

/-- A list that passes the check of `free_many` and starts with a block in use is in use. -/
def FreesWhole (s : BlockAllocator) (bs : List Int) : Prop :=
  bs.Nodup → (∀ b ∈ bs, s.InPool b) → (∀ b ∈ bs.head?, b ∈ s.inUse) → ∀ b ∈ bs, b ∈ s.inUse

/-- **`free_many` raises halfway** where the check has passed and a later block is not in use. -/
theorem freeMany_whole (h : s.Counts refs) (bs : List Int) :
    Exec.WholeIff (fun s' => ∃ refs', s'.Counts refs') (s.FreesWhole bs) (freeMany bs) s := by
  unfold freeMany
  by_cases hbs : bs = []
  · subst hbs
    exact .of_ok rfl (fun _ _ _ b hb => nomatch hb) ⟨refs, h⟩
  rw [if_neg hbs]
  rcases checkMany_run (s := s) bs [] with ⟨hcheck, hnd, hall⟩ | ⟨⟨e, hcheck⟩, hbad⟩
  · rcases releaseAll_cases bs h hnd with
      ⟨hheld, s', refs', hrun, hc⟩ | ⟨⟨b, hb, hnot⟩, e, s', refs', hrun, hc, -, hsame⟩
    · refine .of_ok (by rw [Exec.run_bind_ok hcheck]; exact hrun) ?_ ⟨refs', hc⟩
      exact fun _ _ _ b hb => h.mem_inUse_of_mem (hheld b hb)
    · refine .of_error (by rw [Exec.run_bind_ok hcheck]; exact hrun) (hsame.trans ⟨?_, ?_⟩)
        ⟨refs', hc⟩
      · -- the head is not in use
        intro hhead _ _ hused
        obtain ⟨c, rest, rfl⟩ := List.exists_cons_of_ne_nil hbs
        exact absurd ((h.mem_inUse c).mp (hused c rfl)) (hhead c rfl)
      · intro hwhole c hc hcr
        obtain ⟨c, rest, rfl⟩ := List.exists_cons_of_ne_nil hbs
        obtain rfl : c = _ := Option.some.inj hc
        refine hnot ((h.mem_inUse b).mp (hwhole hnd (fun d hd => (hall d hd).1) ?_ b hb))
        rintro d ⟨⟩
        exact h.mem_inUse_of_mem hcr
  · refine .of_error (Exec.run_bind_error hcheck) (iff_of_true rfl ?_) ⟨refs, h⟩
    exact fun hnd hpool _ => absurd ⟨hnd, fun b hb => ⟨hpool b hb, by simp⟩⟩ hbad

/-- `free_many` on a list with a repeated block raises and releases nothing. -/
theorem freeMany_duplicate {bs : List Int} (hnd : ¬bs.Nodup) :
    ∃ e, (freeMany bs).run s = .error e s := by
  unfold freeMany
  rw [if_neg (by rintro rfl; exact hnd List.nodup_nil)]
  rcases checkMany_run (s := s) bs [] with ⟨-, hd, -⟩ | ⟨⟨e, he⟩, -⟩
  · exact absurd hd hnd
  · exact ⟨e, Exec.run_bind_error he⟩

end BlockAllocator

end Nifre
