import Nifre.Inference.PagedKVCache
import Mathlib.Data.List.GetD

/-!
# What a method of the paged cache can do

`Accounted` says that the allocator's counts are the references held by the slots' block
tables and by the prefix cache. For each method an outcome lists, from an accounted state,
every way it can end and the state it leaves then. All later invariants are derived from the
outcomes, without unfolding a method again.
-/

namespace Nifre

open Digest Finset

namespace PagedKVCache

variable {Tok Row : Type} [DecidableEq Tok]

/-! ## References -/

/-- The references of the prefix cache. -/
def prefixHeld (c : PagedKVCache Tok Row) : Multiset Int :=
  match c.prefixCache with
  | none => 0
  | some p => p.held

/-- The references of the tables of a set of slots. -/
def tableRefs (c : PagedKVCache Tok Row) (slots : Finset Nat) : Multiset Int :=
  ∑ b ∈ slots, (↑(c.tables b) : Multiset Int)

/-- Every reference to a block: those of the tables and those of the prefix cache. -/
def refs (c : PagedKVCache Tok Row) : Multiset Int := c.tableRefs (range c.batchSize) + c.prefixHeld

/-- The references held outside the table of slot `b`. -/
def otherRefs (c : PagedKVCache Tok Row) (b : Nat) : Multiset Int :=
  c.tableRefs ((range c.batchSize).erase b) + c.prefixHeld

omit [DecidableEq Tok] in
theorem refs_split (c : PagedKVCache Tok Row) {b : Nat} (hb : b < c.batchSize) :
    c.refs = ↑(c.tables b) + c.otherRefs b := by
  rw [refs, otherRefs, ← add_assoc, tableRefs, tableRefs,
    add_sum_erase _ (fun b => (↑(c.tables b) : Multiset Int)) (mem_range.mpr hb)]

omit [DecidableEq Tok] in
theorem tableRefs_update {c c' : PagedKVCache Tok Row} {b : Nat} {t : List Int} {slots : Finset Nat}
    (ht : c'.tables = Function.update c.tables b t) (hb : b ∉ slots) :
    c'.tableRefs slots = c.tableRefs slots := by
  refine sum_congr rfl fun i hi => ?_
  have hne : i ≠ b := fun he => hb (he ▸ hi)
  rw [ht, Function.update_of_ne hne]

omit [DecidableEq Tok] in
/-- Giving slot `b` another table leaves the references outside it. -/
theorem otherRefs_update {c c' : PagedKVCache Tok Row} {b : Nat} {t : List Int}
    (ht : c'.tables = Function.update c.tables b t) (hn : c'.batchSize = c.batchSize)
    (hp : c'.prefixHeld = c.prefixHeld) : c'.otherRefs b = c.otherRefs b := by
  rw [otherRefs, otherRefs, hn, hp, tableRefs_update ht (notMem_erase b _)]

omit [DecidableEq Tok] in
theorem refs_update {c : PagedKVCache Tok Row} (c' : PagedKVCache Tok Row) {b : Nat}
    {t : List Int} (ht : c'.tables = Function.update c.tables b t) (hn : c'.batchSize = c.batchSize)
    (hp : c'.prefixHeld = c.prefixHeld) (hb : b < c.batchSize) :
    c'.refs = ↑t + c.otherRefs b := by
  rw [refs_split c' (hn ▸ hb), otherRefs_update ht hn hp, ht, Function.update_self]

omit [DecidableEq Tok] in
theorem mem_refs_of_mem_table {c : PagedKVCache Tok Row} {b : Nat} (hb : b < c.batchSize) {blk : Int}
    (h : blk ∈ c.tables b) : blk ∈ c.refs := by
  rw [refs_split c hb]
  exact Multiset.mem_add.mpr (Or.inl h)

omit [DecidableEq Tok] in
theorem mem_tableRefs {c : PagedKVCache Tok Row} {slots : Finset Nat} {blk : Int} :
    blk ∈ c.tableRefs slots ↔ ∃ b ∈ slots, blk ∈ c.tables b := by
  simp [tableRefs, Multiset.mem_sum]

omit [DecidableEq Tok] in
theorem mem_prefixHeld {c : PagedKVCache Tok Row} {blk : Int} :
    blk ∈ c.prefixHeld ↔ ∃ p, c.prefixCache = some p ∧ ∃ key, (key, blk) ∈ p.entries.entries := by
  unfold prefixHeld
  cases c.prefixCache with
  | none => simp
  | some p => simp [PrefixCache.held, OrderedDict.mem_values_iff]

omit [DecidableEq Tok] in
/-- Who can hold a block outside slot `b`: another slot's table, or an entry. -/
theorem mem_otherRefs {c : PagedKVCache Tok Row} {b : Nat} {blk : Int} :
    blk ∈ c.otherRefs b ↔ (∃ i < c.batchSize, i ≠ b ∧ blk ∈ c.tables i) ∨ blk ∈ c.prefixHeld := by
  rw [otherRefs, Multiset.mem_add, mem_tableRefs]
  refine or_congr_left ?_
  simp only [mem_erase, mem_range]
  exact ⟨fun ⟨i, ⟨hne, hi⟩, hm⟩ => ⟨i, hi, hne, hm⟩, fun ⟨i, hi, hne, hm⟩ => ⟨i, ⟨hne, hi⟩, hm⟩⟩

/-- The allocator counts the references of the tables and of the prefix cache. -/
structure Accounted (c : PagedKVCache Tok Row) : Prop where
  counts : c.allocator.Counts c.refs
  numBlocks : c.allocator.numBlocks = c.numBlocks
  blockSize_pos : 0 < c.blockSize
  entries : ∀ p, c.prefixCache = some p →
    p.entries.size ≤ p.maxEntries ∧ p.blockSize = c.blockSize

/-- What no method changes. -/
structure SameShape (c c' : PagedKVCache Tok Row) : Prop where
  numLayers : c'.numLayers = c.numLayers
  maxSeqLen : c'.maxSeqLen = c.maxSeqLen
  blockSize : c'.blockSize = c.blockSize
  batchSize : c'.batchSize = c.batchSize
  numBlocks : c'.numBlocks = c.numBlocks
  enabled : c'.prefixCache.isSome = c.prefixCache.isSome

omit [DecidableEq Tok] in
theorem SameShape.refl (c : PagedKVCache Tok Row) : SameShape c c := ⟨rfl, rfl, rfl, rfl, rfl, rfl⟩

omit [DecidableEq Tok] in
theorem SameShape.trans {c c' c'' : PagedKVCache Tok Row} (h : SameShape c c')
    (h' : SameShape c' c'') : SameShape c c'' where
  numLayers := h'.numLayers.trans h.numLayers
  maxSeqLen := h'.maxSeqLen.trans h.maxSeqLen
  blockSize := h'.blockSize.trans h.blockSize
  batchSize := h'.batchSize.trans h.batchSize
  numBlocks := h'.numBlocks.trans h.numBlocks
  enabled := h'.enabled.trans h.enabled

/-! ## A fresh cache -/

omit [DecidableEq Tok] in
/-- `init_batch` leaves a cache with empty tables and the pool held by nobody. -/
theorem initBatch_spec {cfg : Config} {emptyK emptyV : Nat → Int × Nat → Row} {n : Nat}
    {c : PagedKVCache Tok Row} (h : initBatch cfg emptyK emptyV n = .ok c) :
    c.Accounted ∧ c.batchSize = n ∧ c.numLayers = cfg.numLayers ∧ c.maxSeqLen = cfg.maxSeqLen
      ∧ c.blockSize = cfg.blockSize ∧ c.numBlocks = blocksPerSlot cfg.maxSeqLen cfg.blockSize * n
      ∧ (∀ b, c.tables b = []) ∧ (∀ b, c.pos b = 0)
      ∧ c.prefixCache.isSome = cfg.enablePrefixCache
      ∧ (∀ p, c.prefixCache = some p → p.entries.entries = []) := by
  unfold initBatch at h
  by_cases hbs : cfg.blockSize = 0
  · simp [hbs, bind, Except.bind, throw, throwThe, MonadExceptOf.throw] at h
  · simp only [hbs, if_false, bind, Except.bind, pure, Except.pure] at h
    cases ha : BlockAllocator.new (blocksPerSlot cfg.maxSeqLen cfg.blockSize * n : Nat) with
    | error e => rw [ha] at h; cases h
    | ok a =>
      rw [ha] at h
      obtain ⟨hcounts, hnum⟩ := BlockAllocator.counts_new ha
      have hpos : 0 < cfg.blockSize := Nat.pos_of_ne_zero hbs
      by_cases hp : cfg.enablePrefixCache
      · simp only [hp, if_true, Functor.map, Except.map] at h
        cases hn : (PrefixCache.new cfg.blockSize cfg.prefixCacheMaxEntries :
            Except PyError (PrefixCache Tok)) with
        | error e => rw [hn] at h; cases h
        | ok p =>
          rw [hn] at h
          cases h
          unfold PrefixCache.new at hn
          rw [dif_neg (by omega)] at hn
          split at hn
          · cases hn
          · cases hn
            refine ⟨⟨hcounts.congr ?_, hnum.trans (Int.toNat_natCast _), hpos, ?_⟩, rfl, rfl, rfl, rfl, rfl,
              fun _ => rfl, fun _ => rfl, hp.symm, ?_⟩
            · simp [refs, tableRefs, prefixHeld, PrefixCache.held, OrderedDict.values,
                OrderedDict.empty]
            · intro p hp'
              cases hp'
              exact ⟨Nat.zero_le _, by simp⟩
            · intro p hp'
              cases hp'
              rfl
      · simp only [hp, Bool.false_eq_true, if_false] at h
        cases h
        refine ⟨⟨hcounts.congr ?_, hnum.trans (Int.toNat_natCast _), hpos, ?_⟩, rfl, rfl, rfl, rfl, rfl,
          fun _ => rfl, fun _ => rfl, by simp [hp], ?_⟩
        · simp [refs, tableRefs, prefixHeld]
        · intro p hp'; cases hp'
        · intro p hp'; cases hp'

/-! ## Changes that keep the accounting -/

/-- The cache with another table for slot `b` and the allocator that goes with it. -/
def withTable (c : PagedKVCache Tok Row) (b : Nat) (t : List Int) (a : BlockAllocator) :
    PagedKVCache Tok Row :=
  { c with tables := Function.update c.tables b t, allocator := a }

omit [DecidableEq Tok] in
theorem withTable_self (c : PagedKVCache Tok Row) (b : Nat) :
    c.withTable b (c.tables b) c.allocator = c := by
  simp [withTable]

omit [DecidableEq Tok] in
theorem onTable_run_ok {α : Type} {c : PagedKVCache Tok Row} {b : Nat} {m : BlockTable.M α} {x : α}
    {t : BlockTable} (h : m.run ⟨c.tables b, c.allocator⟩ = .ok x t) :
    (onTable b m).run c = .ok x (c.withTable b t.physicalBlocks t.allocator) :=
  Exec.run_within_ok (g := fun c : PagedKVCache Tok Row =>
    (⟨c.tables b, c.allocator⟩ : BlockTable)) h

omit [DecidableEq Tok] in
theorem onTable_run_error {α : Type} {c : PagedKVCache Tok Row} {b : Nat} {m : BlockTable.M α}
    {e : PyError} {t : BlockTable} (h : m.run ⟨c.tables b, c.allocator⟩ = .error e t) :
    (onTable b m).run c = .error e (c.withTable b t.physicalBlocks t.allocator) :=
  Exec.run_within_error (g := fun c : PagedKVCache Tok Row =>
    (⟨c.tables b, c.allocator⟩ : BlockTable)) h

omit [DecidableEq Tok] in
theorem Accounted.withTable {c : PagedKVCache Tok Row} (h : c.Accounted) {b : Nat}
    (hb : b < c.batchSize) {t : List Int} {a : BlockAllocator}
    (hc : a.Counts (↑t + c.otherRefs b)) (hn : a.numBlocks = c.allocator.numBlocks) :
    (c.withTable b t a).Accounted where
  counts := hc.congr (refs_update (c.withTable b t a) rfl rfl rfl hb).symm
  numBlocks := hn.trans h.numBlocks
  blockSize_pos := h.blockSize_pos
  entries := h.entries

omit [DecidableEq Tok] in
/-- The rows and the cursors are not accounted for. -/
theorem Accounted.withRows {c : PagedKVCache Tok Row} (h : c.Accounted) (pos : Nat → Nat)
    (k v : Nat → Int × Nat → Row) : Accounted { c with pos := pos, k := k, v := v } :=
  ⟨h.counts, h.numBlocks, h.blockSize_pos, h.entries⟩

/-- The prefix cache after a lookup: another LRU order, the same entries. -/
def touched (chain : Int → List Tok → Int) (c : PagedKVCache Tok Row) (p : PrefixCache Tok)
    (tokenIds : List Tok) : PagedKVCache Tok Row :=
  { c with prefixCache := some (p.lookup chain tokenIds).2 }

theorem touched_prefixHeld {chain : Int → List Tok → Int} {c : PagedKVCache Tok Row}
    {p : PrefixCache Tok} (hp : c.prefixCache = some p) (tokenIds : List Tok) :
    (c.touched chain p tokenIds).prefixHeld = c.prefixHeld := by
  have hperm := (p.lookup_entries_perm chain tokenIds).map Prod.snd
  unfold prefixHeld
  rw [hp]
  exact Multiset.coe_eq_coe.mpr hperm

theorem Accounted.touched {chain : Int → List Tok → Int} {c : PagedKVCache Tok Row}
    (h : c.Accounted) {p : PrefixCache Tok} (hp : c.prefixCache = some p) (tokenIds : List Tok) :
    (c.touched chain p tokenIds).Accounted where
  counts := by
    have hr : (c.touched chain p tokenIds).refs = c.refs := by
      rw [refs, refs, touched_prefixHeld hp]
      rfl
    rw [hr]
    exact h.counts
  numBlocks := h.numBlocks
  blockSize_pos := h.blockSize_pos
  entries := by
    intro p' hp'
    cases hp'
    have hsize : (p.lookup chain tokenIds).2.entries.size = p.entries.size :=
      (p.lookup_entries_perm chain tokenIds).length_eq
    rw [hsize]
    exact h.entries p hp

/-- What taking the blocks `new` for slot `b` leaves: nobody held them. -/
structure Growth (c : PagedKVCache Tok Row) (b : Nat) (new : List Int) (a : BlockAllocator) :
    Prop where
  counts : a.Counts (↑(c.tables b ++ new) + c.otherRefs b)
  numBlocks : a.numBlocks = c.allocator.numBlocks
  nodup : new.Nodup
  fresh : ∀ blk ∈ new, blk ∉ c.refs

/-- How many blocks slot `b` is short of for `n` more tokens. -/
def missing (c : PagedKVCache Tok Row) (b n : Nat) : Nat :=
  BlockTable.blocksNeeded c.blockSize (c.pos b + n) - (c.tables b).length

omit [DecidableEq Tok] in
/-- **`ensure_capacity` for slot `b`** takes the missing blocks, or all free ones and raises. -/
theorem ensureCapacity_spec {c : PagedKVCache Tok Row} (h : c.Accounted) {b : Nat}
    (hb : b < c.batchSize) (n : Nat) :
    ∃ new a, Growth c b new a ∧
      ((c.missing b n ≤ c.allocator.free.length ∧ new.length = c.missing b n ∧
          (onTable b (BlockTable.ensureCapacity c.blockSize (c.pos b + n : Nat))).run c
            = .ok () (c.withTable b (c.tables b ++ new) a)) ∨
        (c.allocator.free.length < c.missing b n ∧ ∃ msg,
          (onTable b (BlockTable.ensureCapacity c.blockSize (c.pos b + n : Nat))).run c
            = .error (.blockPoolExhausted msg) (c.withTable b (c.tables b ++ new) a))) := by
  obtain ⟨new, t', hg, hcase⟩ := BlockTable.grow_spec (c.missing b n)
    (t := ⟨c.tables b, c.allocator⟩) h.counts
  have hgrowth : Growth c b new t'.allocator := by
    refine ⟨hg.counts.congr ?_, hg.numBlocks, hg.nodup, hg.fresh⟩
    rw [refs_split c hb, ← Multiset.coe_add, add_comm (↑(c.tables b)) (↑new : Multiset Int),
      add_assoc]
  have hrun := BlockTable.ensureCapacity_run (t := ⟨c.tables b, c.allocator⟩) c.blockSize
    (c.pos b + n)
  have hblocks : t'.physicalBlocks = c.tables b ++ new := hg.blocks
  refine ⟨new, t'.allocator, hgrowth, ?_⟩
  rw [← hblocks]
  rcases hcase with ⟨hle, hl, hr⟩ | ⟨hlt, -, msg, hr⟩
  · exact Or.inl ⟨hle, hl, onTable_run_ok (hrun.trans hr)⟩
  · exact Or.inr ⟨hlt, msg, onTable_run_error (hrun.trans hr)⟩

/-! ## Slots -/

omit [DecidableEq Tok] in
theorem slotOf_run {c : PagedKVCache Tok Row} {batchIdx : Int} {b : Nat}
    (h : pyIndex c.batchSize batchIdx = some b) : (slotOf batchIdx).run c = .ok b c := by
  unfold slotOf
  rw [Exec.run_bind_ok (EStateM.run_get c), h]
  rfl

omit [DecidableEq Tok] in
theorem slotOf_run_none {c : PagedKVCache Tok Row} {batchIdx : Int}
    (h : pyIndex c.batchSize batchIdx = none) :
    (slotOf batchIdx).run c = .error (.indexError "list index out of range") c := by
  unfold slotOf
  rw [Exec.run_bind_ok (EStateM.run_get c), h]
  rfl

/-! ## try_load_prefix -/

section

variable (chain : Int → List Tok → Int)

/-- The ways `try_load_prefix` ends, for the slot that `batch_idx` addresses. -/
inductive LoadOutcome (c : PagedKVCache Tok Row) (slot : Option Nat) (tokenIds : List Tok) :
    EStateM.Result PyError (PagedKVCache Tok Row) Nat → Prop
  | disabled : c.prefixCache = none → LoadOutcome c slot tokenIds (.ok 0 c)
  | miss (p) : c.prefixCache = some p → p.found chain tokenIds = [] →
      LoadOutcome c slot tokenIds (.ok 0 (c.touched chain p tokenIds))
  | noSlot (p) : c.prefixCache = some p → p.found chain tokenIds ≠ [] → slot = none →
      LoadOutcome c slot tokenIds
        (.error (.indexError "list index out of range") (c.touched chain p tokenIds))
  | busy (p b) : c.prefixCache = some p → p.found chain tokenIds ≠ [] → slot = some b →
      c.tables b ≠ [] →
      LoadOutcome c slot tokenIds
        (.error (.valueError "cannot import blocks into a non-empty block table")
          (c.touched chain p tokenIds))
  | hit (p b a) : c.prefixCache = some p → p.found chain tokenIds ≠ [] → slot = some b →
      c.tables b = [] → a.Counts (↑(p.found chain tokenIds) + c.otherRefs b) →
      a.numBlocks = c.allocator.numBlocks → (∀ blk ∈ p.found chain tokenIds, blk ∈ c.prefixHeld) →
      LoadOutcome c slot tokenIds (.ok ((p.found chain tokenIds).length * p.blockSize)
        { (c.touched chain p tokenIds).withTable b (p.found chain tokenIds) a with
          pos := Function.update c.pos b ((p.found chain tokenIds).length * p.blockSize) })

theorem found_mem_prefixHeld {c : PagedKVCache Tok Row} {p : PrefixCache Tok}
    (hp : c.prefixCache = some p) {tokenIds : List Tok} {blk : Int}
    (h : blk ∈ p.found chain tokenIds) : blk ∈ c.prefixHeld := by
  obtain ⟨i, hi⟩ := List.mem_iff_getElem?.mp h
  exact mem_prefixHeld.mpr ⟨p, hp, _, ChainedMap.matched_mem chain _ _ _ i blk hi⟩

theorem tryLoadPrefix_outcome {c : PagedKVCache Tok Row} (h : c.Accounted) (batchIdx : Int)
    (tokenIds : List Tok) :
    LoadOutcome chain c (pyIndex c.batchSize batchIdx) tokenIds
      ((tryLoadPrefix chain batchIdx tokenIds).run c) := by
  unfold tryLoadPrefix
  rw [Exec.run_bind_ok (EStateM.run_get c)]
  cases hp : c.prefixCache with
  | none => exact LoadOutcome.disabled hp
  | some p =>
    simp only [p.lookup_fst chain tokenIds]
    rw [Exec.run_bind_ok (EStateM.run_set _ c)]
    by_cases hf : p.found chain tokenIds = []
    · rw [if_pos (by simp [hf])]
      exact LoadOutcome.miss p hp hf
    · have hlen : ¬(p.found chain tokenIds).length * p.blockSize = 0 :=
        Nat.mul_ne_zero (by simpa using hf) (Nat.pos_iff_ne_zero.mp p.blockSize_pos)
      rw [if_neg hlen]
      set c₁ := c.touched chain p tokenIds with hc₁
      change LoadOutcome chain c _ tokenIds (EStateM.run _ c₁)
      have hacc₁ : c₁.Accounted := h.touched hp tokenIds
      have hheld : c₁.prefixHeld = c.prefixHeld := touched_prefixHeld hp tokenIds
      cases hs : pyIndex c.batchSize batchIdx with
      | none =>
        rw [Exec.run_bind_error (slotOf_run_none (c := c₁) hs)]
        exact LoadOutcome.noSlot p hp hf rfl
      | some b =>
        have hb : b < c.batchSize := lt_of_pyIndex hs
        rw [Exec.run_bind_ok (slotOf_run (c := c₁) hs)]
        by_cases ht : c.tables b = []
        · have hmem : ∀ blk ∈ p.found chain tokenIds, blk ∈ c₁.refs := fun blk hblk => by
            rw [refs, hheld]
            exact Multiset.mem_add.mpr (Or.inr (found_mem_prefixHeld chain hp hblk))
          obtain ⟨a, hr, hc, hn⟩ := BlockTable.importBlocks_spec
            (t := ⟨c₁.tables b, c₁.allocator⟩) ht hacc₁.counts hmem
          have hrun : (onTable b (BlockTable.importBlocks (p.found chain tokenIds))).run c₁
              = .ok () (c₁.withTable b (p.found chain tokenIds) a) := onTable_run_ok hr
          rw [Exec.run_bind_ok hrun]
          refine LoadOutcome.hit p b a hp hf rfl ht (hc.congr ?_) hn
            fun blk hblk => found_mem_prefixHeld chain hp hblk
          have htab : c₁.tables b = [] := ht
          have hother : c₁.otherRefs b = c.otherRefs b := by
            rw [otherRefs, otherRefs, hheld]
            rfl
          rw [refs_split c₁ hb, htab, hother]
          simp
        · have hrun : (onTable b (BlockTable.importBlocks (p.found chain tokenIds))).run c₁
              = .error (.valueError "cannot import blocks into a non-empty block table") c₁ := by
            have he := onTable_run_error (c := c₁) (b := b)
              (BlockTable.importBlocks_run_error (p.found chain tokenIds) ht)
            rwa [withTable_self] at he
          rw [Exec.run_bind_error hrun]
          exact LoadOutcome.busy p b hp hf rfl ht

end

/-! ## register_prefix -/

section

variable (chain : Int → List Tok → Int)

/-- The ways `register_prefix` ends. -/
inductive RegisterOutcome (c : PagedKVCache Tok Row) (slot : Option Nat) (tokenIds : List Tok) :
    EStateM.Result PyError (PagedKVCache Tok Row) Unit → Prop
  | disabled : c.prefixCache = none → RegisterOutcome c slot tokenIds (.ok () c)
  | noSlot (p) : c.prefixCache = some p → slot = none →
      RegisterOutcome c slot tokenIds (.error (.indexError "list index out of range") c)
  | inserted (p b s) : c.prefixCache = some p → slot = some b →
      PrefixCache.Inserted chain ⟨p, c.allocator⟩ (c.tableRefs (range c.batchSize))
        (fullBlocks p.blockSize tokenIds) (c.tables b) PrefixCache.rootHash s →
      RegisterOutcome c slot tokenIds
        (.ok () { c with prefixCache := some s.cache, allocator := s.allocator })

theorem registerPrefix_outcome {c : PagedKVCache Tok Row} (h : c.Accounted) (batchIdx : Int)
    (tokenIds : List Tok) :
    RegisterOutcome chain c (pyIndex c.batchSize batchIdx) tokenIds
      ((registerPrefix chain batchIdx tokenIds).run c) := by
  unfold registerPrefix
  rw [Exec.run_bind_ok (EStateM.run_get c)]
  cases hp : c.prefixCache with
  | none => exact RegisterOutcome.disabled hp
  | some p =>
    cases hs : pyIndex c.batchSize batchIdx with
    | none =>
      simp only
      rw [Exec.run_bind_error (slotOf_run_none hs)]
      exact RegisterOutcome.noSlot p hp rfl
    | some b =>
      have hb : b < c.batchSize := lt_of_pyIndex hs
      have hheld : c.prefixHeld = p.held := by unfold prefixHeld; rw [hp]
      have hphys : ∀ blk ∈ c.tables b, blk ∈ c.tableRefs (range c.batchSize) := fun blk hblk =>
        mem_tableRefs.mpr ⟨b, mem_range.mpr hb, hblk⟩
      obtain ⟨s, hr, hi⟩ := PrefixCache.insert_spec chain (s := ⟨p, c.allocator⟩) tokenIds
        (by rw [← hheld]; exact h.counts) hphys
      have hrun : (onPrefixCache p (PrefixCache.insert chain tokenIds (c.tables b))).run c
          = .ok () { c with prefixCache := some s.cache, allocator := s.allocator } :=
        Exec.run_within_ok (g := fun c : PagedKVCache Tok Row =>
          (⟨p, c.allocator⟩ : PrefixCache.Shared Tok)) hr
      simp only
      rw [Exec.run_bind_ok (slotOf_run hs), Exec.run_bind_ok (EStateM.run_get c), hrun]
      exact RegisterOutcome.inserted p b s hp rfl hi

omit [DecidableEq Tok] in
/-- The accounting after an insert. -/
theorem Accounted.inserted {c : PagedKVCache Tok Row} (h : c.Accounted)
    {p : PrefixCache Tok} (hp : c.prefixCache = some p) {blocks : List (List Tok)}
    {phys : List Int} {s : PrefixCache.Shared Tok}
    (hi : PrefixCache.Inserted chain ⟨p, c.allocator⟩ (c.tableRefs (range c.batchSize)) blocks phys
      PrefixCache.rootHash s) :
    Accounted { c with prefixCache := some s.cache, allocator := s.allocator } where
  counts := hi.kept.counts
  numBlocks := hi.kept.numBlocks.trans h.numBlocks
  blockSize_pos := h.blockSize_pos
  entries := by
    intro p' hp'
    cases hp'
    obtain ⟨hsize, hbs⟩ := h.entries p hp
    exact ⟨hi.size hsize, hi.kept.blockSize.trans hbs⟩

end

/-! ## reset_slot -/

/-- The ways `reset_slot` ends. -/
inductive ResetOutcome (c : PagedKVCache Tok Row) (slot : Option Nat) :
    EStateM.Result PyError (PagedKVCache Tok Row) Unit → Prop
  | noSlot : slot = none →
      ResetOutcome c slot (.error (.indexError "list index out of range") c)
  | duplicate (b e) : slot = some b → ¬(c.tables b).Nodup → ResetOutcome c slot (.error e c)
  | cleared (b a) : slot = some b → (c.tables b).Nodup → a.Counts (c.otherRefs b) →
      a.numBlocks = c.allocator.numBlocks →
      ResetOutcome c slot
        (.ok () { c.withTable b [] a with pos := Function.update c.pos b 0 })

omit [DecidableEq Tok] in
theorem resetSlot_outcome {c : PagedKVCache Tok Row} (h : c.Accounted) (batchIdx : Int) :
    ResetOutcome c (pyIndex c.batchSize batchIdx) ((resetSlot batchIdx).run c) := by
  unfold resetSlot
  cases hs : pyIndex c.batchSize batchIdx with
  | none =>
    rw [Exec.run_bind_error (slotOf_run_none hs)]
    exact ResetOutcome.noSlot rfl
  | some b =>
    rw [Exec.run_bind_ok (slotOf_run hs)]
    by_cases hnd : (c.tables b).Nodup
    · have hcounts := h.counts
      rw [refs_split c (lt_of_pyIndex hs)] at hcounts
      obtain ⟨a, hr, hc, hn⟩ := BlockTable.clear_spec (t := ⟨c.tables b, c.allocator⟩) hcounts hnd
      rw [Exec.run_bind_ok (onTable_run_ok hr)]
      exact ResetOutcome.cleared b a rfl hnd hc hn
    · obtain ⟨e, he⟩ := BlockTable.clear_duplicate (t := ⟨c.tables b, c.allocator⟩) hnd
      have hrun := onTable_run_error he
      rw [withTable_self] at hrun
      rw [Exec.run_bind_error hrun]
      exact ResetOutcome.duplicate b e rfl hnd

/-! ## append -/

/-- Where position `q` of a sequence with the block table `blocks` is stored. -/
def addr (blockSize : Nat) (blocks : List Int) (q : Nat) : Int × Nat :=
  (blocks.getD (q / blockSize) 0, q % blockSize)

omit [DecidableEq Tok] in
/-- The write loop changes rows only, and never for want of a block. -/
theorem writeRows_frame (b : Nat) (layerId : Int) : ∀ (keys values : List Row) (p : Nat)
    (c : PagedKVCache Tok Row), ∃ k v,
      (writeRows b layerId p keys values).run c = .ok () { c with k := k, v := v } ∨
      ∃ e, (∀ msg, e ≠ .blockPoolExhausted msg) ∧
        (writeRows b layerId p keys values).run c = .error e { c with k := k, v := v }
  | [], _, p, c => ⟨c.k, c.v, Or.inl rfl⟩
  | key :: keys, values, p, c => by
    rw [writeRows, Exec.run_bind_ok (EStateM.run_get c)]
    cases hr : BlockTable.resolve (c.tables b) c.blockSize p with
    | error e =>
      refine ⟨c.k, c.v, Or.inr ⟨e, ?_, rfl⟩⟩
      unfold BlockTable.resolve at hr
      split at hr
      · cases hr; nofun
      · cases hr
    | ok at_ =>
      cases hl : pyIndex c.numLayers layerId with
      | none => exact ⟨c.k, c.v, Or.inr ⟨.indexError "list index out of range", nofun, rfl⟩⟩
      | some l =>
        simp only
        rw [Exec.run_bind_ok (EStateM.run_modify _ c)]
        cases values with
        | nil => exact ⟨_, c.v, Or.inr ⟨.indexError "index out of range", nofun, rfl⟩⟩
        | cons value values =>
          simp only
          rw [Exec.run_bind_ok (EStateM.run_modify _ _)]
          exact writeRows_frame b layerId keys values (p + 1) _

omit [DecidableEq Tok] in
/-- **The write loop scatters the rows over the table's blocks**, when the table has a block for
every position. -/
theorem writeRows_run {b l : Nat} : ∀ (keys values : List Row) (p : Nat)
    (c : PagedKVCache Tok Row), l < c.numLayers → keys.length = values.length →
    (∀ j < keys.length, (p + j) / c.blockSize < (c.tables b).length) →
    (writeRows b (l : Int) p keys values).run c = .ok () { c with
      k := Function.update c.k l
        (Scatter.scatter (addr c.blockSize (c.tables b)) p keys (c.k l))
      v := Function.update c.v l
        (Scatter.scatter (addr c.blockSize (c.tables b)) p values (c.v l)) }
  | [], [], p, c, _, _, _ => by simp [Scatter.scatter, writeRows]
  | key :: keys, value :: values, p, c, hl, hlen, hcap => by
    have hp : p / c.blockSize < (c.tables b).length := hcap 0 (Nat.zero_lt_succ _)
    have hres : BlockTable.resolve (c.tables b) c.blockSize p
        = .ok (addr c.blockSize (c.tables b) p) := by
      unfold BlockTable.resolve addr
      rw [List.getElem?_eq_getElem hp, List.getD_eq_getElem _ _ hp]
    rw [writeRows, Exec.run_bind_ok (EStateM.run_get c), hres, pyIndex_natCast hl]
    simp only
    rw [Exec.run_bind_ok (EStateM.run_modify _ c), Exec.run_bind_ok (EStateM.run_modify _ _)]
    have hcap' : ∀ j < keys.length, (p + 1 + j) / c.blockSize < (c.tables b).length := by
      intro j hj
      have := hcap (j + 1) (Nat.succ_lt_succ hj)
      rwa [Nat.add_assoc, Nat.add_comm 1 j]
    have hrest := writeRows_run keys values (p + 1)
      { c with
        k := Function.update c.k l
          (Function.update (c.k l) (addr c.blockSize (c.tables b) p) key)
        v := Function.update c.v l
          (Function.update (c.v l) (addr c.blockSize (c.tables b) p) value) }
      hl (Nat.succ.inj hlen) hcap'
    refine hrest.trans ?_
    simp [Scatter.scatter]

/-- The ways `append` ends. -/
inductive AppendOutcome (c : PagedKVCache Tok Row) (slot : Option Nat) (layerId : Int)
    (key value : List Row) : EStateM.Result PyError (PagedKVCache Tok Row) Unit → Prop
  | noSlot : slot = none →
      AppendOutcome c slot layerId key value (.error (.indexError "list index out of range") c)
  | tooLong (b) : slot = some b → c.maxSeqLen < c.pos b + key.length →
      AppendOutcome c slot layerId key value (.error .assertionError c)
  | exhausted (b new a msg) : slot = some b → c.pos b + key.length ≤ c.maxSeqLen →
      Growth c b new a → c.allocator.free.length < c.missing b key.length →
      AppendOutcome c slot layerId key value
        (.error (.blockPoolExhausted msg) (c.withTable b (c.tables b ++ new) a))
  | broken (b new a k v e) : slot = some b → c.pos b + key.length ≤ c.maxSeqLen →
      Growth c b new a → new.length = c.missing b key.length →
      c.missing b key.length ≤ c.allocator.free.length → (∀ msg, e ≠ .blockPoolExhausted msg) →
      AppendOutcome c slot layerId key value
        (.error e { c.withTable b (c.tables b ++ new) a with k := k, v := v })
  | done (b new a k v) : slot = some b → c.pos b + key.length ≤ c.maxSeqLen →
      Growth c b new a → new.length = c.missing b key.length →
      c.missing b key.length ≤ c.allocator.free.length →
      AppendOutcome c slot layerId key value
        (.ok () { c.withTable b (c.tables b ++ new) a with
          k := k
          v := v
          pos := if layerId = (c.numLayers : Int) - 1
            then Function.update c.pos b (c.pos b + key.length) else c.pos })

omit [DecidableEq Tok] in
theorem append_outcome {c : PagedKVCache Tok Row} (h : c.Accounted) (batchIdx layerId : Int)
    (key value : List Row) :
    AppendOutcome c (pyIndex c.batchSize batchIdx) layerId key value
      ((append batchIdx layerId key value).run c) := by
  unfold append
  cases hs : pyIndex c.batchSize batchIdx with
  | none =>
    rw [Exec.run_bind_error (slotOf_run_none hs)]
    exact AppendOutcome.noSlot rfl
  | some b =>
    have hb : b < c.batchSize := lt_of_pyIndex hs
    rw [Exec.run_bind_ok (slotOf_run hs), Exec.run_bind_ok (EStateM.run_get c)]
    by_cases hlong : c.maxSeqLen < c.pos b + key.length
    · rw [if_pos hlong]
      exact AppendOutcome.tooLong b rfl hlong
    · rw [if_neg hlong]
      obtain ⟨new, a, hg, ⟨hle, hlen, hrun⟩ | ⟨hlt, msg, hrun⟩⟩ :=
        ensureCapacity_spec h hb key.length
      · rw [Exec.run_bind_ok hrun]
        obtain ⟨k, v, hw | ⟨e, he, hw⟩⟩ := writeRows_frame b layerId key value (c.pos b)
          (c.withTable b (c.tables b ++ new) a)
        · rw [Exec.run_bind_ok hw]
          have hdone : AppendOutcome c (some b) layerId key value _ :=
            AppendOutcome.done b new a k v rfl (Nat.le_of_not_lt hlong) hg hlen hle
          by_cases hlast : layerId = (c.numLayers : Int) - 1
          · rw [if_pos hlast] at hdone ⊢
            exact hdone
          · rw [if_neg hlast] at hdone ⊢
            exact hdone
        · rw [Exec.run_bind_error hw]
          exact AppendOutcome.broken b new a k v e rfl (Nat.le_of_not_lt hlong) hg hlen hle he
      · rw [Exec.run_bind_error hrun]
        exact AppendOutcome.exhausted b new a msg rfl (Nat.le_of_not_lt hlong) hg hlt

end PagedKVCache

end Nifre
