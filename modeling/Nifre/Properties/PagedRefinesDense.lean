import Nifre.Properties.PagedContents
import Nifre.Properties.DenseContents
import Mathlib.Algebra.Order.BigOperators.Group.Finset
import Mathlib.Algebra.Group.Action.Defs

/-!
# The paged cache refines the dense one

With prefix caching off, both caches store the same `KVStore`: every legal sequence of calls
goes through in both and returns the same.
-/

namespace Nifre

open Finset

namespace PagedKVCache

variable {Tok Row : Type}

/-- The paged cache stores `s`, with no block in the prefix cache and within the pool's plan. -/
structure Stores (c : PagedKVCache Tok Row) (s : KVStore Row) : Prop where
  accounted : c.Accounted
  unshared : c.prefixHeld = 0
  slots : ∀ b < c.batchSize, SlotStores c b (s.len b) (s.rows b)
  table_le : ∀ b < c.batchSize, (c.tables b).length ≤ blocksPerSlot c.maxSeqLen c.blockSize
  pool : c.numBlocks = blocksPerSlot c.maxSeqLen c.blockSize * c.batchSize

theorem initBatch_stores {cfg : Config} {emptyK emptyV : Nat → Int × Nat → Row} {n : Nat}
    {c : PagedKVCache Tok Row} (h : initBatch cfg emptyK emptyV n = .ok c) :
    Stores c KVStore.empty := by
  obtain ⟨hacc, hn, -, hmax, hbs, hnum, ht, hpos, -, hentries⟩ := initBatch_spec h
  refine ⟨hacc, ?_, fun b _ => slotStores_empty (ht b) (hpos b), ?_, ?_⟩
  · unfold prefixHeld
    split
    · rfl
    · next p hp => simp [PrefixCache.held, OrderedDict.values, hentries p hp]
  · intro b _
    rw [ht b]
    exact Nat.zero_le _
  · rw [hnum, hmax, hbs, hn]

theorem initBatch_ok {numLayers maxSeqLen blockSize maxEntries batchSize : Nat} (hmax : 0 < maxSeqLen)
    (hbs : 0 < blockSize) (hbatch : 0 < batchSize) (emptyK emptyV : Nat → Int × Nat → Row) :
    ∃ c : PagedKVCache Tok Row, initBatch ⟨numLayers, maxSeqLen, blockSize, false, maxEntries⟩
      emptyK emptyV batchSize = .ok c := by
  have hblocks : 0 < blocksPerSlot maxSeqLen blockSize := by
    by_contra h0
    have := (BlockTable.blocksNeeded_le_iff (n := maxSeqLen) (k := 0) hbs).mp
      (Nat.le_of_not_lt h0)
    omega
  have hpool : ¬((blocksPerSlot maxSeqLen blockSize * batchSize : Nat) : Int) ≤ 0 := by
    have := Nat.mul_pos hblocks hbatch
    omega
  simp only [initBatch, Nat.ne_of_gt hbs, if_false, BlockAllocator.new, hpool, bind, Except.bind,
    pure, Except.pure, Bool.false_eq_true]
  exact ⟨_, rfl⟩

/-- A table's blocks are the only references. -/
theorem Stores.refs_card {c : PagedKVCache Tok Row} {s : KVStore Row} (h : Stores c s) :
    c.refs.card = ∑ b ∈ range c.batchSize, (c.tables b).length := by
  rw [refs, h.unshared, add_zero, tableRefs, Multiset.card_sum]
  rfl

/-- **The pool suffices**: what a slot is short of is free. -/
theorem Stores.missing_le {c : PagedKVCache Tok Row} {s : KVStore Row} (h : Stores c s) {b n : Nat}
    (hb : b < c.batchSize) (hfit : c.pos b + n ≤ c.maxSeqLen) :
    c.missing b n ≤ c.allocator.free.length := by
  have hfree := h.accounted.counts.free_add_card
  rw [h.accounted.numBlocks, h.pool] at hfree
  have hcard : c.refs.toFinset.card ≤ ∑ i ∈ range c.batchSize, (c.tables i).length := by
    rw [← h.refs_card]
    exact Multiset.toFinset_card_le _
  have hneed : BlockTable.blocksNeeded c.blockSize (c.pos b + n)
      ≤ blocksPerSlot c.maxSeqLen c.blockSize := BlockTable.blocksNeeded_mono hfit
  have hb' : b ∈ range c.batchSize := mem_range.mpr hb
  have hsplit := add_sum_erase (range c.batchSize) (fun i => (c.tables i).length) hb'
  have hrest : ∑ i ∈ (range c.batchSize).erase b, (c.tables i).length
      ≤ (c.batchSize - 1) * blocksPerSlot c.maxSeqLen c.blockSize := by
    have hle := sum_le_card_nsmul ((range c.batchSize).erase b) (fun i => (c.tables i).length)
      (blocksPerSlot c.maxSeqLen c.blockSize)
      fun i hi => h.table_le i (mem_range.mp (mem_of_mem_erase hi))
    rwa [card_erase_of_mem hb', card_range, smul_eq_mul] at hle
  have hown := h.table_le b hb
  have hpool : blocksPerSlot c.maxSeqLen c.blockSize * c.batchSize
      = (c.batchSize - 1) * blocksPerSlot c.maxSeqLen c.blockSize
        + blocksPerSlot c.maxSeqLen c.blockSize := by
    rw [Nat.mul_comm, ← Nat.succ_mul]
    congr 1
    omega
  unfold missing
  omega

/-- **`append` is the store's append**, and never raises. -/
theorem append_stores {c : PagedKVCache Tok Row} {s : KVStore Row} (h : Stores c s) {b l : Nat}
    (hb : b < c.batchSize) {kvs : List (Row × Row)}
    (hcan : s.CanAppend c.numLayers c.maxSeqLen b l kvs.length) :
    ∃ c', (append (b : Int) (l : Int) (kvs.map Prod.fst) (kvs.map Prod.snd)).run c = .ok () c'
      ∧ Stores c' (s.append c.numLayers b l kvs) ∧ SameShape c c' := by
  have hbs := h.accounted.blockSize_pos
  have hslot := h.slots b hb
  have hl := hcan.layer_lt
  have hlen : (s.rows b l).length = s.len b := hcan.after l hl (Nat.le_refl l)
  have hfit : c.pos b + kvs.length ≤ c.maxSeqLen := by rw [hslot.pos]; exact hcan.fits
  obtain ⟨new, a, hg, hnew, hrun⟩ := append_run h.accounted hb hl hfit (h.missing_le hb hfit)
  refine ⟨_, hrun, ⟨appended_accounted h.accounted hb hg, h.unshared, ?_, ?_, h.pool⟩,
    appended_shape⟩
  · intro i hi
    by_cases hib : i = b
    · subst hib
      have hself := hslot.appended_self hbs hb hg hnew hlen fun _ => hcan.before
      rw [KVStore.append_len_self]
      have hrows : (s.append c.numLayers i l kvs).rows i = appendRows (s.rows i) l kvs := by
        simp [KVStore.append, appendRows]
      rw [hrows]
      exact hself
    · rw [KVStore.append_len_of_ne c.numLayers s l kvs hib,
        KVStore.append_rows_of_ne_slot c.numLayers s l kvs hib]
      exact hslot.appended_other hbs hb hg hnew hi hib (h.slots i hi)
  · intro i hi
    by_cases hib : i = b
    · subst hib
      have hneed : BlockTable.blocksNeeded c.blockSize (c.pos i + kvs.length)
          ≤ blocksPerSlot c.maxSeqLen c.blockSize := BlockTable.blocksNeeded_mono hfit
      have hown := h.table_le i hb
      rw [appended_table, List.length_append, hnew]
      show _ ≤ blocksPerSlot c.maxSeqLen c.blockSize
      unfold missing
      omega
    · have ht : (c.appended b l new a kvs).tables i = c.tables i := by
        simp [appended, withTable, hib]
      rw [ht]
      exact h.table_le i hi

/-- **`reset_slot` is the store's reset**, and never raises. -/
theorem resetSlot_stores {c : PagedKVCache Tok Row} {s : KVStore Row} (h : Stores c s) {b : Nat}
    (hb : b < c.batchSize) :
    ∃ c', (resetSlot (b : Int)).run c = .ok () c' ∧ Stores c' (s.reset b) ∧ SameShape c c' := by
  obtain ⟨a, hr, hacc⟩ := resetSlot_run h.accounted hb (h.slots b hb).nodup
  refine ⟨_, hr, ⟨hacc, h.unshared, ?_, ?_, h.pool⟩, ⟨rfl, rfl, rfl, rfl, rfl, rfl⟩⟩
  · intro i hi
    by_cases hib : i = b
    · subst hib
      simp only [KVStore.reset, Function.update_self]
      exact slotStores_cleared
    · simp only [KVStore.reset, Function.update_of_ne hib]
      exact (h.slots i hi).cleared_other hib
  · intro i hi
    by_cases hib : i = b
    · subst hib
      simp [cleared, withTable]
    · simpa [cleared, withTable, hib] using h.table_le i hi

theorem get_stores {c : PagedKVCache Tok Row} {s : KVStore Row} (h : Stores c s) {b l : Nat}
    (hb : b < c.batchSize) (hl : l < c.numLayers) :
    (get (b : Int) (l : Int)).run c = .ok ((s.get b l).map Prod.fst, (s.get b l).map Prod.snd) c :=
  get_slotStores h.accounted.blockSize_pos (h.slots b hb) hb hl

theorem length_stores {c : PagedKVCache Tok Row} {s : KVStore Row} (h : Stores c s) {b : Nat}
    (hb : b < c.batchSize) : (length (b : Int)).run c = .ok (s.len b) c := by
  rw [length_run hb, (h.slots b hb).pos]

theorem lengths_stores {c : PagedKVCache Tok Row} {s : KVStore Row} (h : Stores c s) :
    lengths c = (List.range c.batchSize).map s.len :=
  List.map_congr_left fun b hb => (h.slots b (List.mem_range.mp hb)).pos

end PagedKVCache

/-! ## Both caches side by side -/

/-- A call of either cache. -/
inductive CacheOp (Row : Type) where
  | append (slot layer : Nat) (kvs : List (Row × Row))
  | resetSlot (slot : Nat)
  | length (slot : Nat)
  | lengths
  | get (slot layer : Nat)

/-- What a call returns. -/
inductive Reply (Row : Type) where
  | done
  | length (n : Nat)
  | lengths (ns : List Nat)
  | rows (keys values : List Row)

namespace CacheOp

variable {Tok Row : Type}

def dense : CacheOp Row → KVCache.M Row (Reply Row)
  | append slot layer kvs => do
    KVCache.append slot layer (kvs.map Prod.fst) (kvs.map Prod.snd)
    pure .done
  | resetSlot slot => do
    KVCache.resetSlot slot
    pure .done
  | length slot => do
    let n ← KVCache.length slot
    pure (.length n)
  | lengths => do
    let c ← MonadState.get
    pure (.lengths (KVCache.lengths c))
  | get slot layer => do
    let (keys, values) ← KVCache.get slot layer
    pure (.rows keys values)

def paged : CacheOp Row → PagedKVCache.M Tok Row (Reply Row)
  | append slot layer kvs => do
    PagedKVCache.append slot layer (kvs.map Prod.fst) (kvs.map Prod.snd)
    pure .done
  | resetSlot slot => do
    PagedKVCache.resetSlot slot
    pure .done
  | length slot => do
    let n ← PagedKVCache.length slot
    pure (.length n)
  | lengths => do
    let c ← MonadState.get
    pure (.lengths (PagedKVCache.lengths c))
  | get slot layer => do
    let (keys, values) ← PagedKVCache.get slot layer
    pure (.rows keys values)

/-- Rows are appended to a slot layer by layer, and fit. -/
def Legal (numLayers maxSeqLen batchSize : Nat) (s : KVStore Row) : CacheOp Row → Prop
  | append slot layer kvs =>
    slot < batchSize ∧ s.CanAppend numLayers maxSeqLen slot layer kvs.length
  | resetSlot slot => slot < batchSize
  | length slot => slot < batchSize
  | lengths => True
  | get slot layer => slot < batchSize ∧ layer < numLayers

/-- What a call does to the store. -/
def next (numLayers : Nat) (s : KVStore Row) : CacheOp Row → KVStore Row
  | append slot layer kvs => s.append numLayers slot layer kvs
  | resetSlot slot => s.reset slot
  | _ => s

/-- Both caches have the given sizes and store `s`. -/
structure Related (numLayers maxSeqLen batchSize : Nat) (s : KVStore Row) (d : KVCache Row)
    (c : PagedKVCache Tok Row) : Prop where
  dense : d.Stores s
  paged : c.Stores s
  layers : d.numLayers = numLayers ∧ c.numLayers = numLayers
  maxSeq : d.maxSeqLen = maxSeqLen ∧ c.maxSeqLen = maxSeqLen
  batch : d.batchSize = batchSize ∧ c.batchSize = batchSize

/-- **Every legal call goes through in both caches and returns the same.** -/
theorem step_related {numLayers maxSeqLen batchSize : Nat} (s : KVStore Row) (d : KVCache Row)
    (c : PagedKVCache Tok Row) (op : CacheOp Row)
    (h : Related numLayers maxSeqLen batchSize s d c)
    (hlegal : op.Legal numLayers maxSeqLen batchSize s) :
    ∃ r d' c', op.dense.run d = .ok r d' ∧ op.paged.run c = .ok r c' ∧
      Related numLayers maxSeqLen batchSize (op.next numLayers s) d' c' := by
  obtain ⟨hd, hc, ⟨hdl, hcl⟩, ⟨hdm, hcm⟩, ⟨hdb, hcb⟩⟩ := h
  cases op with
  | append slot layer kvs =>
    obtain ⟨hb, hcan⟩ := hlegal
    obtain ⟨d', hd', hds, hdsh⟩ := KVCache.append_stores hd (hdb ▸ hb) (hdl ▸ hdm ▸ hcan)
    obtain ⟨c', hc', hcs, hcsh⟩ := PagedKVCache.append_stores hc (hcb ▸ hb) (hcl ▸ hcm ▸ hcan)
    refine ⟨.done, d', c', ?_, ?_, ⟨hdl ▸ hds, hcl ▸ hcs, ?_, ?_, ?_⟩⟩
    · rw [CacheOp.dense, Exec.run_bind_ok hd']; rfl
    · rw [CacheOp.paged, Exec.run_bind_ok hc']; rfl
    · exact ⟨hdsh.numLayers.trans hdl, hcsh.numLayers.trans hcl⟩
    · exact ⟨hdsh.maxSeqLen.trans hdm, hcsh.maxSeqLen.trans hcm⟩
    · exact ⟨hdsh.batchSize.trans hdb, hcsh.batchSize.trans hcb⟩
  | resetSlot slot =>
    have hb : slot < batchSize := hlegal
    obtain ⟨d', hd', hds, hdsh⟩ := KVCache.resetSlot_stores hd (hdb ▸ hb)
    obtain ⟨c', hc', hcs, hcsh⟩ := PagedKVCache.resetSlot_stores hc (hcb ▸ hb)
    refine ⟨.done, d', c', ?_, ?_, ⟨hds, hcs, ?_, ?_, ?_⟩⟩
    · rw [CacheOp.dense, Exec.run_bind_ok hd']; rfl
    · rw [CacheOp.paged, Exec.run_bind_ok hc']; rfl
    · exact ⟨hdsh.numLayers.trans hdl, hcsh.numLayers.trans hcl⟩
    · exact ⟨hdsh.maxSeqLen.trans hdm, hcsh.maxSeqLen.trans hcm⟩
    · exact ⟨hdsh.batchSize.trans hdb, hcsh.batchSize.trans hcb⟩
  | length slot =>
    have hb : slot < batchSize := hlegal
    refine ⟨.length (s.len slot), d, c, ?_, ?_, ⟨hd, hc, ⟨hdl, hcl⟩, ⟨hdm, hcm⟩, ⟨hdb, hcb⟩⟩⟩
    · rw [CacheOp.dense, Exec.run_bind_ok (KVCache.length_stores hd (hdb ▸ hb))]; rfl
    · rw [CacheOp.paged, Exec.run_bind_ok (PagedKVCache.length_stores hc (hcb ▸ hb))]; rfl
  | lengths =>
    refine ⟨.lengths ((List.range batchSize).map s.len), d, c, ?_, ?_,
      ⟨hd, hc, ⟨hdl, hcl⟩, ⟨hdm, hcm⟩, ⟨hdb, hcb⟩⟩⟩
    · rw [CacheOp.dense, Exec.run_bind_ok (EStateM.run_get d), KVCache.lengths_stores hd, hdb]; rfl
    · rw [CacheOp.paged, Exec.run_bind_ok (EStateM.run_get c), PagedKVCache.lengths_stores hc, hcb]
      rfl
  | get slot layer =>
    obtain ⟨hb, hl⟩ := hlegal
    refine ⟨.rows ((s.get slot layer).map Prod.fst) ((s.get slot layer).map Prod.snd), d, c, ?_, ?_,
      ⟨hd, hc, ⟨hdl, hcl⟩, ⟨hdm, hcm⟩, ⟨hdb, hcb⟩⟩⟩
    · rw [CacheOp.dense, Exec.run_bind_ok (KVCache.get_stores hd (hdb ▸ hb) (hdl ▸ hl))]; rfl
    · rw [CacheOp.paged, Exec.run_bind_ok (PagedKVCache.get_stores hc (hcb ▸ hb) (hcl ▸ hl))]; rfl

instance {numLayers maxSeqLen batchSize : Nat} {s : KVStore Row} (op : CacheOp Row) :
    Decidable (op.Legal numLayers maxSeqLen batchSize s) :=
  match op with
  | append .. => inferInstanceAs (Decidable (_ ∧ _))
  | resetSlot _ => inferInstanceAs (Decidable (_ < _))
  | length _ => inferInstanceAs (Decidable (_ < _))
  | lengths => inferInstanceAs (Decidable True)
  | get _ _ => inferInstanceAs (Decidable (_ ∧ _))

/-- **The paged cache refines the dense one**: from fresh caches of the same sizes, every legal
sequence of calls goes through in both and returns the same. -/
theorem paged_refines_dense {numLayers maxSeqLen blockSize batchSize maxEntries : Nat}
    (hmax : 0 < maxSeqLen) (hbs : 0 < blockSize) (hbatch : 0 < batchSize)
    (denseK denseV : Nat → Nat × Nat → Row) (pagedK pagedV : Nat → Int × Nat → Row)
    {ops : List (CacheOp Row)}
    (hlegal : Exec.Along (Legal numLayers maxSeqLen batchSize) (next numLayers)
      KVStore.empty ops) :
    ∃ (c : PagedKVCache Tok Row), PagedKVCache.initBatch
        ⟨numLayers, maxSeqLen, blockSize, false, maxEntries⟩ pagedK pagedV batchSize = .ok c ∧
      ∃ rs d' c', (Exec.replies dense ops).run
          (KVCache.initBatch numLayers maxSeqLen denseK denseV batchSize) = .ok rs d' ∧
        (Exec.replies paged ops).run c = .ok rs c' := by
  obtain ⟨c, hc⟩ : ∃ c : PagedKVCache Tok Row, _ :=
    PagedKVCache.initBatch_ok hmax hbs hbatch pagedK pagedV
  have hstores := PagedKVCache.initBatch_stores hc
  obtain ⟨-, hn, hl, hm, -⟩ := PagedKVCache.initBatch_spec hc
  have hrel : Related numLayers maxSeqLen batchSize KVStore.empty
      (KVCache.initBatch numLayers maxSeqLen denseK denseV batchSize) c :=
    ⟨KVCache.initBatch_stores .., hstores, ⟨rfl, hl⟩, ⟨rfl, hm⟩, ⟨rfl, hn⟩⟩
  obtain ⟨rs, d', c', hd', hc', -⟩ := Exec.replies_lockstep step_related hrel hlegal
  exact ⟨c, hc, rs, d', c', hd', hc'⟩

/-- Two slots of three positions in blocks of two, filled in rounds over two layers, read in the
middle of a round, reset and filled again. -/
def twoLayerRun : List (CacheOp Nat) :=
  [.append 0 0 [(1, 2), (3, 4)], .get 0 0, .append 1 0 [(5, 6)], .append 0 1 [(7, 8), (9, 10)],
    .get 0 0, .lengths, .append 1 1 [(11, 12)], .append 0 0 [(13, 14)], .resetSlot 1,
    .append 0 1 [(15, 16)], .append 1 0 [(1, 1), (2, 2), (3, 3)],
    .append 1 1 [(4, 4), (5, 5), (6, 6)], .get 1 1, .length 0]

theorem twoLayerRun_refines : ∃ c : PagedKVCache Nat Nat,
    PagedKVCache.initBatch ⟨2, 3, 2, false, 1024⟩ (fun _ _ => 0) (fun _ _ => 0) 2 = .ok c ∧
      ∃ rs d' c', (Exec.replies dense twoLayerRun).run
          (KVCache.initBatch 2 3 (fun _ _ => 0) (fun _ _ => 0) 2) = .ok rs d' ∧
        (Exec.replies paged twoLayerRun).run c = .ok rs c' :=
  paged_refines_dense (by decide) (by decide) (by decide) _ _ _ _ (by decide)

end CacheOp

end Nifre
