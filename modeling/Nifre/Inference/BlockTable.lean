import Nifre.Inference.BlockAllocator

/-!
# Per-sequence block tables

A `BlockTable` maps the logical blocks of one sequence to physical block ids. It shares the
allocator with the other tables, so its methods run on the pair of the table's own block list
and the allocator.
-/

namespace Nifre

/-- The state a table's method works on: its `_physical_blocks` and the shared `_allocator`. -/
structure BlockTable where
  physicalBlocks : List Int
  allocator : BlockAllocator

namespace BlockTable

abbrev M := EStateM PyError BlockTable

def onAllocator {α : Type} (m : BlockAllocator.M α) : M α :=
  Exec.within (·.allocator) (fun a t => { t with allocator := a }) m

def importBlocks (physicalBlocks : List Int) : M Unit := do
  let t ← get
  if t.physicalBlocks ≠ [] then
    throw (.valueError "cannot import blocks into a non-empty block table")
  else
    forM physicalBlocks fun b => onAllocator (BlockAllocator.retain b)
    modify fun t => { t with physicalBlocks := physicalBlocks }

/-- `n` more rounds of the `while` loop in `ensure_capacity`. -/
def grow : Nat → M Unit
  | 0 => pure ()
  | n + 1 => do
    let b ← onAllocator BlockAllocator.allocate
    modify fun t => { t with physicalBlocks := t.physicalBlocks ++ [b] }
    grow n

/-- `(total_tokens + block_size - 1) // block_size`. -/
def blocksNeeded (blockSize totalTokens : Nat) : Nat := (totalTokens + blockSize - 1) / blockSize

def ensureCapacity (blockSize : Nat) (totalTokens : Int) : M Unit := do
  if totalTokens < 0 then
    throw (.valueError s!"total_tokens must be non-negative, got {totalTokens}")
  else
    let t ← get
    grow (blocksNeeded blockSize totalTokens.toNat - t.physicalBlocks.length)

/-- Where a token of the sequence is stored: the physical block and the offset in it. -/
def resolve (blocks : List Int) (blockSize tokenIndex : Nat) : Except PyError (Int × Nat) :=
  match blocks[tokenIndex / blockSize]? with
  | none => .error (.indexError s!"token_index {tokenIndex} has no allocated block")
  | some b => .ok (b, tokenIndex % blockSize)

def clear : M Unit := do
  let t ← get
  if t.physicalBlocks ≠ [] then
    onAllocator (BlockAllocator.freeMany t.physicalBlocks)
    modify fun t => { t with physicalBlocks := [] }

/-! ## Arithmetic of capacities -/

/-- Enough blocks are enough positions, and no fewer are. -/
theorem blocksNeeded_le_iff {bs n k : Nat} (hbs : 0 < bs) : blocksNeeded bs n ≤ k ↔ n ≤ k * bs := by
  unfold blocksNeeded
  rw [← Nat.lt_succ_iff, Nat.div_lt_iff_lt_mul hbs, Nat.succ_mul]
  omega

theorem blocksNeeded_mono {bs n n' : Nat} (h : n ≤ n') : blocksNeeded bs n ≤ blocksNeeded bs n' :=
  Nat.div_le_div_right (by omega)

/-! ## The methods, on the references of the whole pool

`refs` are the references held outside this table.
-/

variable {t : BlockTable} {refs : Multiset Int}

theorem retainAll_spec : ∀ (bs : List Int) {t : BlockTable} {refs : Multiset Int},
    t.allocator.Counts refs → (∀ b ∈ bs, b ∈ refs) →
    ∃ a, (forM bs fun b => onAllocator (BlockAllocator.retain b)).run t
        = .ok () { t with allocator := a }
      ∧ a.Counts (↑bs + refs) ∧ a.numBlocks = t.allocator.numBlocks
  | [], t, refs, h, _ => ⟨t.allocator, rfl, h.congr (by simp), rfl⟩
  | b :: bs, t, refs, h, hbs => by
    obtain ⟨a₁, hr₁, hc₁, hn₁, -⟩ := BlockAllocator.retain_spec h (hbs b List.mem_cons_self)
    have hrun : (onAllocator (BlockAllocator.retain b)).run t
        = .ok () { t with allocator := a₁ } := Exec.run_within_ok hr₁
    obtain ⟨a₂, hr₂, hc₂, hn₂⟩ := retainAll_spec bs (t := { t with allocator := a₁ }) hc₁
      fun c hc => Multiset.mem_cons_of_mem (hbs c (List.mem_cons_of_mem b hc))
    refine ⟨a₂, by rw [List.forM_cons, Exec.run_bind_ok hrun]; exact hr₂, hc₂.congr ?_,
      hn₂.trans hn₁⟩
    rw [← Multiset.cons_coe, Multiset.cons_add, Multiset.add_cons]

/-- **Importing held blocks into an empty table** adds a reference for each. -/
theorem importBlocks_spec {bs : List Int} (ht : t.physicalBlocks = [])
    (h : t.allocator.Counts refs) (hbs : ∀ b ∈ bs, b ∈ refs) :
    ∃ a, (importBlocks bs).run t = .ok () ⟨bs, a⟩ ∧ a.Counts (↑bs + refs)
      ∧ a.numBlocks = t.allocator.numBlocks := by
  obtain ⟨a, hr, hc, hn⟩ := retainAll_spec bs h hbs
  refine ⟨a, ?_, hc, hn⟩
  unfold importBlocks
  rw [Exec.run_bind_ok (EStateM.run_get t), if_neg (not_not.mpr ht), Exec.run_bind_ok hr]
  rfl

/-- Importing into a table that holds blocks raises and changes nothing. -/
theorem importBlocks_run_error (bs : List Int) (ht : t.physicalBlocks ≠ []) :
    (importBlocks bs).run t
      = .error (.valueError "cannot import blocks into a non-empty block table") t := by
  unfold importBlocks
  rw [Exec.run_bind_ok (EStateM.run_get t), if_pos ht]
  rfl

/-- What growing by `n` blocks leaves: the new blocks were held by nobody. -/
structure Grown (t : BlockTable) (refs : Multiset Int) (new : List Int) (t' : BlockTable) :
    Prop where
  blocks : t'.physicalBlocks = t.physicalBlocks ++ new
  counts : t'.allocator.Counts (↑new + refs)
  numBlocks : t'.allocator.numBlocks = t.allocator.numBlocks
  nodup : new.Nodup
  fresh : ∀ b ∈ new, b ∉ refs
  taken : t.allocator.free.length = t'.allocator.free.length + new.length

theorem Grown.refl (h : t.allocator.Counts refs) : Grown t refs [] t where
  blocks := by simp
  counts := h.congr (by simp)
  numBlocks := rfl
  nodup := List.nodup_nil
  fresh := by simp
  taken := by simp

/-- **The `while` loop of `ensure_capacity`**: it takes `n` free blocks, or all there are and
then raises. -/
theorem grow_spec : ∀ (n : Nat) {t : BlockTable} {refs : Multiset Int},
    t.allocator.Counts refs →
    ∃ new t', Grown t refs new t' ∧
      ((n ≤ t.allocator.free.length ∧ new.length = n ∧ (grow n).run t = .ok () t') ∨
        (t.allocator.free.length < n ∧ t'.allocator.free = [] ∧
          ∃ msg, (grow n).run t = .error (.blockPoolExhausted msg) t'))
  | 0, t, refs, h => ⟨[], t, Grown.refl h, Or.inl ⟨Nat.zero_le _, rfl, rfl⟩⟩
  | n + 1, t, refs, h => by
    by_cases hfree : t.allocator.free = []
    · obtain ⟨msg, he⟩ := BlockAllocator.allocate_exhausted hfree
      have hrun : (onAllocator BlockAllocator.allocate).run t
          = .error (.blockPoolExhausted msg) t := Exec.run_within_error he
      refine ⟨[], t, Grown.refl h, Or.inr ⟨by simp [hfree], hfree, msg, ?_⟩⟩
      rw [grow, Exec.run_bind_error hrun]
    · obtain ⟨b, a₁, hr₁, hb, hc₁, hn₁, hf₁⟩ := BlockAllocator.allocate_spec h hfree
      have hrun : (onAllocator BlockAllocator.allocate).run t
          = .ok b { t with allocator := a₁ } := Exec.run_within_ok hr₁
      have hlen : t.allocator.free.length = a₁.free.length + 1 := by rw [hf₁]; simp
      obtain ⟨new, t', hg, hcase⟩ := grow_spec n
        (t := ⟨t.physicalBlocks ++ [b], a₁⟩) hc₁
      have hstep : (grow (n + 1)).run t = (grow n).run ⟨t.physicalBlocks ++ [b], a₁⟩ := by
        rw [grow, Exec.run_bind_ok hrun]; rfl
      have hg' : Grown t refs (b :: new) t' := by
        refine ⟨by simp [hg.blocks], hg.counts.congr ?_, hg.numBlocks.trans hn₁, ?_, ?_, ?_⟩
        · rw [← Multiset.cons_coe, Multiset.cons_add, Multiset.add_cons]
        · refine List.nodup_cons.mpr ⟨fun hc => hg.fresh b hc (Multiset.mem_cons_self b refs),
            hg.nodup⟩
        · intro c hc
          rcases List.mem_cons.mp hc with rfl | hc
          · exact hb
          · exact fun hr => hg.fresh c hc (Multiset.mem_cons_of_mem hr)
        · have htaken : a₁.free.length = t'.allocator.free.length + new.length := hg.taken
          rw [hlen, htaken, List.length_cons, Nat.add_assoc]
      refine ⟨b :: new, t', hg', ?_⟩
      rw [hstep]
      rcases hcase with ⟨hle, hl, hr⟩ | ⟨hlt, he, hr⟩
      · have hle' : n ≤ a₁.free.length := hle
        exact Or.inl ⟨by omega, by simp [hl], hr⟩
      · have hlt' : a₁.free.length < n := hlt
        exact Or.inr ⟨by omega, he, hr⟩

/-- How many blocks `ensure_capacity` still needs. -/
def missing (t : BlockTable) (bs total : Nat) : Nat := blocksNeeded bs total - t.physicalBlocks.length

/-- `ensure_capacity` runs the loop for the blocks that are missing. -/
theorem ensureCapacity_run (bs total : Nat) :
    (ensureCapacity bs total).run t = (grow (missing t bs total)).run t := by
  unfold ensureCapacity
  rw [if_neg (by omega), Exec.run_bind_ok (EStateM.run_get t), Int.toNat_natCast]
  rfl

/-- Clearing a table of distinct blocks gives its references back. -/
theorem clear_spec (h : t.allocator.Counts (↑t.physicalBlocks + refs))
    (hnd : t.physicalBlocks.Nodup) :
    ∃ a, clear.run t = .ok () ⟨[], a⟩ ∧ a.Counts refs
      ∧ a.numBlocks = t.allocator.numBlocks := by
  unfold clear
  rw [Exec.run_bind_ok (EStateM.run_get t)]
  by_cases ht : t.physicalBlocks = []
  · rw [if_neg (not_not.mpr ht)]
    refine ⟨t.allocator, ?_, h.congr (by simp [ht]), rfl⟩
    obtain ⟨blocks, a⟩ := t
    cases ht
    rfl
  · obtain ⟨a, hr, hc, hn⟩ := BlockAllocator.freeMany_spec h hnd
    have hrun : (onAllocator (BlockAllocator.freeMany t.physicalBlocks)).run t
        = .ok () { t with allocator := a } := Exec.run_within_ok hr
    rw [if_pos ht, Exec.run_bind_ok hrun]
    exact ⟨a, rfl, hc, hn⟩

/-- Clearing a table with a repeated block raises and changes nothing. -/
theorem clear_duplicate (hnd : ¬t.physicalBlocks.Nodup) : ∃ e, clear.run t = .error e t := by
  obtain ⟨e, he⟩ := BlockAllocator.freeMany_duplicate (s := t.allocator) hnd
  have hrun : (onAllocator (BlockAllocator.freeMany t.physicalBlocks)).run t
      = .error e t := Exec.run_within_error he
  unfold clear
  rw [Exec.run_bind_ok (EStateM.run_get t),
    if_pos (by intro ht; rw [ht] at hnd; exact hnd List.nodup_nil)]
  exact ⟨e, Exec.run_bind_error hrun⟩

end BlockTable

end Nifre
