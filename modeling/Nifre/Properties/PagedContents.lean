import Nifre.Properties.PagedSteps
import Nifre.Spec.KVStore

/-!
# What the paged cache stores

`SlotStores c b len rows` says that the blocks of slot `b` hold the sequences `rows`, one for
each layer, and that the blocks an append may still write are held by nobody else. An append
extends the sequences of its own slot; whatever is held outside the slot keeps its rows.
-/

namespace Nifre

open Finset

namespace PagedKVCache

variable {Tok Row : Type}

/-! ## Addresses -/

theorem addr_append {bs q : Nat} {t : List Int} (new : List Int) (h : q / bs < t.length) :
    addr bs (t ++ new) q = addr bs t q := by
  unfold addr
  rw [List.getD_append t new 0 (q / bs) h]

/-- Distinct blocks have distinct addresses. -/
theorem addr_inj {bs q q' : Nat} {t : List Int} (hnd : t.Nodup) (hq : q / bs < t.length)
    (hq' : q' / bs < t.length) (h : addr bs t q = addr bs t q') : q = q' := by
  unfold addr at h
  rw [List.getD_eq_getElem _ _ hq, List.getD_eq_getElem _ _ hq', Prod.mk.injEq] at h
  have hdiv := (hnd.getElem_inj_iff).mp h.1
  rw [← Nat.div_add_mod q bs, ← Nat.div_add_mod q' bs, hdiv, h.2]

theorem addr_block {bs q : Nat} {t : List Int} (hq : q / bs < t.length) :
    t[q / bs]? = some (addr bs t q).1 := by
  unfold addr
  rw [List.getElem?_eq_getElem hq, List.getD_eq_getElem _ _ hq]

theorem addr_mem {bs q : Nat} {t : List Int} (hq : q / bs < t.length) : (addr bs t q).1 ∈ t :=
  List.mem_of_getElem? (addr_block hq)

/-- A position lies before the end of its block, and so do the positions before it. -/
theorem lt_next_block {bs p j : Nat} (hbs : 0 < bs) : p < ((p + j) / bs + 1) * bs := by
  have hlt := Nat.lt_div_mul_add (a := p + j) hbs
  rw [Nat.succ_mul]
  omega

/-! ## One slot -/

/-- The blocks of slot `b` hold `rows`, of which the first `len` are readable. -/
structure SlotStores (c : PagedKVCache Tok Row) (b len : Nat) (rows : Nat → List (Row × Row)) :
    Prop where
  pos : c.pos b = len
  len_le : ∀ l < c.numLayers, len ≤ (rows l).length
  cover : ∀ l < c.numLayers, (rows l).length ≤ (c.tables b).length * c.blockSize
  rows : ∀ l < c.numLayers, ∀ p (hp : p < (rows l).length),
    c.k l (addr c.blockSize (c.tables b) p) = (rows l)[p].1 ∧
      c.v l (addr c.blockSize (c.tables b) p) = (rows l)[p].2
  nodup : (c.tables b).Nodup
  exclusive : ∀ i blk, (c.tables b)[i]? = some blk → len < (i + 1) * c.blockSize →
    blk ∉ c.otherRefs b

/-- The rows of a block in every layer. -/
def SameBlock (c c' : PagedKVCache Tok Row) (blk : Int) : Prop :=
  ∀ l off, c'.k l (blk, off) = c.k l (blk, off) ∧ c'.v l (blk, off) = c.v l (blk, off)

/-- A slot that holds no block. -/
theorem slotStores_empty {c : PagedKVCache Tok Row} {b : Nat} (ht : c.tables b = [])
    (hpos : c.pos b = 0) : SlotStores c b 0 fun _ => [] where
  pos := hpos
  len_le := fun _ _ => Nat.zero_le _
  cover := fun _ _ => Nat.zero_le _
  rows := fun _ _ _ hp => absurd hp (Nat.not_lt_zero _)
  nodup := by rw [ht]; exact List.nodup_nil
  exclusive := by intro i blk hi; rw [ht] at hi; cases hi

/-- **What another slot does** is not seen, if it leaves the slot's blocks and does not come to
hold them. -/
theorem SlotStores.frame {c c' : PagedKVCache Tok Row} {b len : Nat}
    {rows : Nat → List (Row × Row)} (h : SlotStores c b len rows) (hshape : SameShape c c')
    (ht : c'.tables b = c.tables b) (hpos : c'.pos b = c.pos b)
    (hmem : ∀ blk ∈ c.tables b, SameBlock c c' blk)
    (hother : ∀ i blk, (c.tables b)[i]? = some blk → len < (i + 1) * c.blockSize →
      blk ∉ c.otherRefs b → blk ∉ c'.otherRefs b) : SlotStores c' b len rows where
  pos := hpos.trans h.pos
  len_le := by rw [hshape.numLayers]; exact h.len_le
  cover := by rw [hshape.numLayers, ht, hshape.blockSize]; exact h.cover
  rows := by
    rw [hshape.numLayers, ht, hshape.blockSize]
    intro l hl p hp
    have hbs : p / c.blockSize < (c.tables b).length :=
      Nat.div_lt_of_lt_mul (by
        have := h.cover l hl
        rw [Nat.mul_comm]
        omega)
    obtain ⟨hk, hv⟩ := hmem _ (addr_mem hbs) l (p % c.blockSize)
    obtain ⟨hk', hv'⟩ := h.rows l hl p hp
    exact ⟨hk.trans hk', hv.trans hv'⟩
  nodup := by rw [ht]; exact h.nodup
  exclusive := by
    rw [ht, hshape.blockSize]
    exact fun i blk hi hlt => hother i blk hi hlt (h.exclusive i blk hi hlt)

/-- The readable rows are the readable part of what is stored. -/
theorem SlotStores.lt_cover {c : PagedKVCache Tok Row} {b len : Nat}
    {rows : Nat → List (Row × Row)} (h : SlotStores c b len rows) {l p : Nat}
    (hl : l < c.numLayers) (hp : p < (rows l).length) :
    p / c.blockSize < (c.tables b).length := by
  have := h.cover l hl
  exact Nat.div_lt_of_lt_mul (by rw [Nat.mul_comm]; omega)

/-! ## Clearing -/

/-- The cache after slot `b` gave its blocks back. -/
def cleared (c : PagedKVCache Tok Row) (b : Nat) (a : BlockAllocator) : PagedKVCache Tok Row :=
  { c.withTable b [] a with pos := Function.update c.pos b 0 }

theorem slotStores_cleared {c : PagedKVCache Tok Row} {b : Nat} {a : BlockAllocator} :
    SlotStores (c.cleared b a) b 0 fun _ => [] :=
  slotStores_empty (by simp [cleared, withTable]) (by simp [cleared])

theorem cleared_accounted {c : PagedKVCache Tok Row} (h : c.Accounted) {b : Nat}
    (hb : b < c.batchSize) {a : BlockAllocator} (hc : a.Counts (c.otherRefs b))
    (hn : a.numBlocks = c.allocator.numBlocks) : (c.cleared b a).Accounted :=
  (h.withTable hb (hc.congr (by simp)) hn).withRows _ _ _

/-- Who holds a block outside a slot after another one was cleared. -/
theorem mem_cleared_otherRefs {c : PagedKVCache Tok Row} {b i : Nat} {a : BlockAllocator} {blk : Int}
    (h : blk ∈ (c.cleared b a).otherRefs i) : blk ∈ c.otherRefs i := by
  refine mem_otherRefs.mpr ((mem_otherRefs.mp h).imp ?_ id)
  rintro ⟨j, hj, hne, hmem⟩
  refine ⟨j, hj, hne, ?_⟩
  by_cases hjb : j = b
  · subst hjb
    simp [cleared, withTable] at hmem
  · simpa [cleared, withTable, hjb] using hmem

theorem SlotStores.cleared_other {c : PagedKVCache Tok Row} {b i len : Nat} {a : BlockAllocator}
    {rows : Nat → List (Row × Row)} (h : SlotStores c i len rows) (hne : i ≠ b) :
    SlotStores (c.cleared b a) i len rows :=
  h.frame ⟨rfl, rfl, rfl, rfl, rfl, rfl⟩ (by simp [cleared, withTable, hne])
    (by simp [cleared, hne]) (fun _ _ _ _ => ⟨rfl, rfl⟩)
    fun _ _ _ _ hnot hin => hnot (mem_cleared_otherRefs hin)

/-- **`reset_slot` on distinct blocks goes through.** -/
theorem resetSlot_run {c : PagedKVCache Tok Row} (h : c.Accounted) {b : Nat} (hb : b < c.batchSize)
    (hnd : (c.tables b).Nodup) :
    ∃ a, (resetSlot (b : Int)).run c = .ok () (c.cleared b a) ∧ (c.cleared b a).Accounted := by
  have ho := resetSlot_outcome h (b : Int)
  rw [pyIndex_natCast hb] at ho
  cases hr : (resetSlot (b : Int)).run c with
  | error e c' =>
    rw [hr] at ho
    cases ho with
    | noSlot hs => cases hs
    | duplicate b' e hs hdup => cases hs; exact absurd hnd hdup
  | ok x c' =>
    rw [hr] at ho
    cases ho with
    | cleared b' a hs _ hc hn =>
      cases hs
      exact ⟨a, rfl, cleared_accounted h hb hc hn⟩

/-! ## Reading -/

/-- Taking the blocks in order reads the positions in order. -/
theorem takeBlocks_eq (mem : Int × Nat → Row) {bs : Nat} (hbs : 0 < bs) : ∀ (t : List Int)
    (n : Nat), n ≤ t.length * bs →
    takeBlocks mem bs t n = (List.range n).map fun p => mem (addr bs t p)
  | [], n, h => by
    have hn : n = 0 := by simpa using h
    subst hn
    rfl
  | blk :: t, n, h => by
    rw [takeBlocks]
    by_cases hn : n = 0
    · subst hn; rfl
    · rw [if_neg hn]
      rw [List.length_cons, Nat.succ_mul] at h
      show (List.range (min n bs)).map (fun offset => mem (blk, offset))
        ++ takeBlocks mem bs t (n - min n bs) = _
      rw [takeBlocks_eq mem hbs t (n - min n bs) (by omega)]
      refine List.ext_getElem (by simp) fun p hp hp' => ?_
      simp only [List.length_map, List.length_range] at hp'
      by_cases hlt : p < min n bs
      · rw [List.getElem_append_left (by simpa using hlt)]
        have hdiv : p / bs = 0 := Nat.div_eq_of_lt (by omega)
        have hmod : p % bs = p := Nat.mod_eq_of_lt (by omega)
        simp [addr, hdiv, hmod]
      · rw [List.getElem_append_right (by simp; omega)]
        have hp2 : p = p - bs + bs := by omega
        have hdiv : p / bs = (p - bs) / bs + 1 := by
          rw [hp2, Nat.add_div_right _ hbs, Nat.add_sub_cancel]
        have hmod : p % bs = (p - bs) % bs := by rw [hp2, Nat.add_mod_right, Nat.add_sub_cancel]
        have hmin : min n bs = bs := by omega
        simp [addr, hdiv, hmod, hmin]

/-- **`get` returns the readable rows.** -/
theorem get_slotStores {c : PagedKVCache Tok Row} {b l len : Nat} {rows : Nat → List (Row × Row)}
    (hbs : 0 < c.blockSize) (h : SlotStores c b len rows) (hb : b < c.batchSize)
    (hl : l < c.numLayers) :
    (get (b : Int) (l : Int)).run c
      = .ok (((rows l).take len).map Prod.fst, ((rows l).take len).map Prod.snd) c := by
  have hlen := h.len_le l hl
  have hcover := h.cover l hl
  have hrows := h.rows l hl
  have hk : (List.range len).map (fun p => c.k l (addr c.blockSize (c.tables b) p))
      = ((rows l).take len).map Prod.fst := by
    refine List.ext_getElem (by simp [hlen]) fun p hp hp' => ?_
    simp only [List.getElem_map, List.getElem_range, List.getElem_take]
    exact (hrows p (by simp at hp; omega)).1
  have hv : (List.range len).map (fun p => c.v l (addr c.blockSize (c.tables b) p))
      = ((rows l).take len).map Prod.snd := by
    refine List.ext_getElem (by simp [hlen]) fun p hp hp' => ?_
    simp only [List.getElem_map, List.getElem_range, List.getElem_take]
    exact (hrows p (by simp at hp; omega)).2
  unfold get
  rw [Exec.run_bind_ok (slotOf_run (pyIndex_natCast hb)), Exec.run_bind_ok (EStateM.run_get c), h.pos]
  by_cases h0 : len = 0
  · subst h0
    rfl
  · rw [if_neg h0, pyIndex_natCast hl]
    cases ht : c.tables b with
    | nil =>
      rw [ht] at hcover
      have hnil : (rows l).length = 0 := by simpa using hcover
      omega
    | cons blk rest =>
      rw [ht] at hk hv hcover
      simp only
      rw [takeBlocks_eq _ hbs _ _ (hlen.trans hcover), takeBlocks_eq _ hbs _ _ (hlen.trans hcover),
        hk, hv]
      rfl

theorem length_run {c : PagedKVCache Tok Row} {b : Nat} (hb : b < c.batchSize) :
    (length (b : Int)).run c = .ok (c.pos b) c := by
  unfold length
  rw [Exec.run_bind_ok (slotOf_run (pyIndex_natCast hb)), Exec.run_bind_ok (EStateM.run_get c)]
  rfl

/-! ## Appending -/

/-- The cache after an append that went through. -/
def appended (c : PagedKVCache Tok Row) (b l : Nat) (new : List Int) (a : BlockAllocator)
    (kvs : List (Row × Row)) : PagedKVCache Tok Row :=
  { c.withTable b (c.tables b ++ new) a with
    k := Function.update c.k l
      (Scatter.scatter (addr c.blockSize (c.tables b ++ new)) (c.pos b) (kvs.map Prod.fst) (c.k l))
    v := Function.update c.v l
      (Scatter.scatter (addr c.blockSize (c.tables b ++ new)) (c.pos b) (kvs.map Prod.snd) (c.v l))
    pos := if l + 1 = c.numLayers then Function.update c.pos b (c.pos b + kvs.length) else c.pos }

/-- The positions of an append have blocks, once the missing ones are there. -/
theorem grown_covers {c : PagedKVCache Tok Row} (hbs : 0 < c.blockSize) {b n : Nat} {new : List Int}
    (hnew : new.length = c.missing b n) {j : Nat} (hj : j < n) :
    (c.pos b + j) / c.blockSize < (c.tables b ++ new).length := by
  have hneed : BlockTable.blocksNeeded c.blockSize (c.pos b + n) ≤ (c.tables b ++ new).length := by
    rw [List.length_append, hnew, missing]
    omega
  have hle := (BlockTable.blocksNeeded_le_iff hbs).mp hneed
  exact Nat.div_lt_of_lt_mul (by rw [Nat.mul_comm]; omega)

/-- **`append` with enough free blocks** goes through and scatters the rows. -/
theorem append_run {c : PagedKVCache Tok Row} (h : c.Accounted) {b l : Nat} (hb : b < c.batchSize)
    (hl : l < c.numLayers) {kvs : List (Row × Row)} (hfit : c.pos b + kvs.length ≤ c.maxSeqLen)
    (hroom : c.missing b kvs.length ≤ c.allocator.free.length) :
    ∃ new a, Growth c b new a ∧ new.length = c.missing b kvs.length ∧
      (append (b : Int) (l : Int) (kvs.map Prod.fst) (kvs.map Prod.snd)).run c
        = .ok () (c.appended b l new a kvs) := by
  obtain ⟨new, a, hg, ⟨-, hlen, hrun⟩ | ⟨hlt, -⟩⟩ := ensureCapacity_spec h hb kvs.length
  · refine ⟨new, a, hg, hlen, ?_⟩
    have hn : (kvs.map Prod.fst).length = kvs.length := List.length_map _
    have hw := writeRows_run (b := b) (l := l) (kvs.map Prod.fst) (kvs.map Prod.snd) (c.pos b)
      (c.withTable b (c.tables b ++ new) a) hl (by simp) fun j hj => by
        have htab : (c.withTable b (c.tables b ++ new) a).tables b = c.tables b ++ new := by
          simp [withTable]
        rw [htab]
        exact grown_covers h.blockSize_pos hlen (hn ▸ hj)
    have hlast : ((l : Int) = (c.numLayers : Int) - 1) ↔ l + 1 = c.numLayers := by omega
    unfold append
    rw [Exec.run_bind_ok (slotOf_run (pyIndex_natCast hb)), Exec.run_bind_ok (EStateM.run_get c), hn,
      if_neg (by omega), Exec.run_bind_ok hrun, Exec.run_bind_ok hw]
    simp only [hlast]
    unfold appended
    simp only [withTable, Function.update_self]
    split <;> rfl
  · omega

section

variable {c : PagedKVCache Tok Row} {b l len : Nat} {rows : Nat → List (Row × Row)}
  {new : List Int} {a : BlockAllocator} {kvs : List (Row × Row)}

theorem Growth.nodup_append (hg : Growth c b new a) (hb : b < c.batchSize)
    (hnd : (c.tables b).Nodup) : (c.tables b ++ new).Nodup :=
  List.nodup_append.mpr ⟨hnd, hg.nodup, fun _ hx y hy he =>
    hg.fresh y hy (he ▸ mem_refs_of_mem_table hb hx)⟩

/-- **The blocks an append writes are held by nobody else.** -/
theorem written_exclusive (hbs : 0 < c.blockSize) (hb : b < c.batchSize)
    (h : SlotStores c b len rows) (hg : Growth c b new a)
    (hnew : new.length = c.missing b kvs.length) {j : Nat} (hj : j < kvs.length) :
    (addr c.blockSize (c.tables b ++ new) (c.pos b + j)).1 ∉ c.otherRefs b := by
  have hcov := grown_covers hbs hnew hj
  have hblk := addr_block hcov
  by_cases hold : (c.pos b + j) / c.blockSize < (c.tables b).length
  · rw [List.getElem?_append_left hold] at hblk
    exact h.exclusive _ _ hblk (h.pos ▸ lt_next_block hbs)
  · rw [List.getElem?_append_right (Nat.le_of_not_lt hold)] at hblk
    intro hc
    refine hg.fresh _ (List.mem_of_getElem? hblk) ?_
    rw [refs_split c hb]
    exact Multiset.mem_add.mpr (Or.inr hc)

theorem appended_shape : SameShape c (c.appended b l new a kvs) := ⟨rfl, rfl, rfl, rfl, rfl, rfl⟩

/-- A block that no written position lives in keeps its rows. -/
theorem appended_sameBlock {blk : Int}
    (h : ∀ j < kvs.length, (addr c.blockSize (c.tables b ++ new) (c.pos b + j)).1 ≠ blk) :
    SameBlock c (c.appended b l new a kvs) blk := by
  intro l' off
  have hne : ∀ j < kvs.length,
      addr c.blockSize (c.tables b ++ new) (c.pos b + j) ≠ (blk, off) := fun _ hj he =>
    h _ hj (congrArg Prod.fst he)
  unfold appended
  by_cases hl : l' = l
  · subst hl
    simp only [Function.update_self]
    exact ⟨Scatter.scatter_of_ne (by simpa using hne), Scatter.scatter_of_ne (by simpa using hne)⟩
  · simp only [Function.update_of_ne hl, and_self]

/-- **Whatever is held outside the slot keeps its rows.** -/
theorem appended_frame (hbs : 0 < c.blockSize) (hb : b < c.batchSize)
    (h : SlotStores c b len rows) (hg : Growth c b new a)
    (hnew : new.length = c.missing b kvs.length) {blk : Int} (hblk : blk ∈ c.otherRefs b) :
    SameBlock c (c.appended b l new a kvs) blk :=
  appended_sameBlock fun _ hj he => written_exclusive hbs hb h hg hnew hj (he ▸ hblk)

theorem appended_accounted (h : c.Accounted) (hb : b < c.batchSize) (hg : Growth c b new a) :
    (c.appended b l new a kvs).Accounted :=
  (h.withTable hb hg.counts hg.numBlocks).withRows _ _ _

/-- Who holds a block after an append: those who held it, and slot `b` the new ones. -/
theorem mem_appended_otherRefs {i : Nat} {blk : Int}
    (h : blk ∈ (c.appended b l new a kvs).otherRefs i) (hnew : blk ∉ new) : blk ∈ c.otherRefs i := by
  rw [mem_otherRefs] at h ⊢
  refine h.imp (fun ⟨j, hj, hne, hmem⟩ => ⟨j, hj, hne, ?_⟩) id
  by_cases hjb : j = b
  · subst hjb
    have hmem' : blk ∈ c.tables j ++ new := by
      simpa [appended, withTable] using hmem
    exact (List.mem_append.mp hmem').resolve_right hnew
  · simpa [appended, withTable, hjb] using hmem

/-- The other slots, after an append. -/
theorem SlotStores.appended_other (hbs : 0 < c.blockSize) (hb : b < c.batchSize)
    (h : SlotStores c b len rows) (hg : Growth c b new a)
    (hnew : new.length = c.missing b kvs.length) {i len' : Nat} {rows' : Nat → List (Row × Row)}
    (hi : i < c.batchSize) (hne : i ≠ b) (h' : SlotStores c i len' rows') :
    SlotStores (c.appended b l new a kvs) i len' rows' := by
  have hpos : (c.appended b l new a kvs).pos i = c.pos i := by
    show (if _ then _ else _ : Nat → Nat) i = _
    split
    · rw [Function.update_of_ne hne]
    · rfl
  refine h'.frame appended_shape (by simp [appended, withTable, hne]) hpos ?_ ?_
  · intro blk hblk
    refine appended_frame hbs hb h hg hnew (mem_otherRefs.mpr (Or.inl ⟨i, hi, hne, hblk⟩))
  · intro j blk hj _ hnot hin
    have hblk : blk ∈ c.tables i := List.mem_of_getElem? hj
    exact hnot (mem_appended_otherRefs hin fun hc => hg.fresh blk hc (mem_refs_of_mem_table hi hblk))

theorem appended_table : (c.appended b l new a kvs).tables b = c.tables b ++ new := by
  simp [appended, withTable]

/-- The new rows of the layer are stored from the cursor on. -/
theorem appended_row_new (hbs : 0 < c.blockSize) (hnd : (c.tables b ++ new).Nodup)
    (hnew : new.length = c.missing b kvs.length) {j : Nat} (hj : j < kvs.length) :
    (c.appended b l new a kvs).k l (addr c.blockSize (c.tables b ++ new) (c.pos b + j)) = kvs[j].1 ∧
      (c.appended b l new a kvs).v l (addr c.blockSize (c.tables b ++ new) (c.pos b + j))
        = kvs[j].2 := by
  have hinj : ∀ i < kvs.length, ∀ i' < kvs.length,
      addr c.blockSize (c.tables b ++ new) (c.pos b + i)
        = addr c.blockSize (c.tables b ++ new) (c.pos b + i') → i = i' := by
    intro i hi i' hi' he
    have := addr_inj hnd (grown_covers hbs hnew hi) (grown_covers hbs hnew hi') he
    omega
  have hwritten : ∀ {V : Type} (f : Row × Row → V) (mem : Int × Nat → V),
      Scatter.scatter (addr c.blockSize (c.tables b ++ new)) (c.pos b) (kvs.map f) mem
        (addr c.blockSize (c.tables b ++ new) (c.pos b + j)) = f kvs[j] := by
    intro V f mem
    rw [Scatter.scatter_addr (by simpa using hj) (by simpa using hinj), List.getElem_map]
  have hk := hwritten Prod.fst (c.k l)
  have hv := hwritten Prod.snd (c.v l)
  unfold appended
  simp only [Function.update_self]
  exact ⟨hk, hv⟩

/-- Rows that are not written stay: those of other layers, and those before the cursor. -/
theorem appended_row_old (hbs : 0 < c.blockSize) (hnd : (c.tables b ++ new).Nodup)
    (hnew : new.length = c.missing b kvs.length) {l' p : Nat}
    (hp : p / c.blockSize < (c.tables b).length) (hold : l' = l → p < c.pos b) :
    (c.appended b l new a kvs).k l' (addr c.blockSize (c.tables b ++ new) p)
        = c.k l' (addr c.blockSize (c.tables b) p) ∧
      (c.appended b l new a kvs).v l' (addr c.blockSize (c.tables b ++ new) p)
        = c.v l' (addr c.blockSize (c.tables b) p) := by
  rw [addr_append new hp]
  unfold appended
  by_cases hll : l' = l
  · subst hll
    have hp' : p / c.blockSize < (c.tables b ++ new).length := by rw [List.length_append]; omega
    have hne : ∀ j < kvs.length, addr c.blockSize (c.tables b ++ new) (c.pos b + j)
        ≠ addr c.blockSize (c.tables b) p := by
      intro j hj he
      rw [← addr_append new hp] at he
      have := addr_inj hnd (grown_covers hbs hnew hj) hp' he
      have := hold rfl
      omega
    simp only [Function.update_self]
    exact ⟨Scatter.scatter_of_ne (by simpa using hne), Scatter.scatter_of_ne (by simpa using hne)⟩
  · simp only [Function.update_of_ne hll, and_self]

/-- The slot's sequences after an append to one layer. -/
def appendRows (rows : Nat → List (Row × Row)) (l : Nat) (kvs : List (Row × Row)) :
    Nat → List (Row × Row) := Function.update rows l (rows l ++ kvs)

theorem SlotStores.appended_rows (hbs : 0 < c.blockSize) (hb : b < c.batchSize)
    (h : SlotStores c b len rows) (hg : Growth c b new a)
    (hnew : new.length = c.missing b kvs.length) (hlen : (rows l).length = len) {l' : Nat}
    (hl' : l' < c.numLayers) (p : Nat) (hp : p < (appendRows rows l kvs l').length) :
    (c.appended b l new a kvs).k l' (addr c.blockSize (c.tables b ++ new) p)
        = (appendRows rows l kvs l')[p].1 ∧
      (c.appended b l new a kvs).v l' (addr c.blockSize (c.tables b ++ new) p)
        = (appendRows rows l kvs l')[p].2 := by
  have hnd := hg.nodup_append hb h.nodup
  have hrows := h.rows l' hl'
  by_cases hll : l' = l
  · subst hll
    simp only [appendRows, Function.update_self] at hp ⊢
    by_cases hlt : p < (rows l').length
    · obtain ⟨hk, hv⟩ := appended_row_old (l := l') (a := a) hbs hnd hnew (h.lt_cover hl' hlt)
        fun _ => by rw [h.pos]; omega
      rw [hk, hv]
      simp only [List.getElem_append_left hlt]
      exact hrows p hlt
    · rw [List.length_append] at hp
      have hp' : p = c.pos b + (p - len) := by rw [h.pos]; omega
      obtain ⟨hk, hv⟩ := appended_row_new (l := l') (a := a) hbs hnd hnew
        (show p - len < kvs.length by omega)
      rw [← hp'] at hk hv
      rw [hk, hv, List.getElem_append_right (by omega)]
      simp only [hlen, and_self]
  · simp only [appendRows, Function.update_of_ne hll] at hp ⊢
    obtain ⟨hk, hv⟩ := appended_row_old (l := l) (a := a) hbs hnd hnew (h.lt_cover hl' hp)
      fun he => absurd he hll
    rw [hk, hv]
    exact hrows p hp

/-- The blocks that the slot may still write stay its own. -/
theorem SlotStores.appended_exclusive (h : SlotStores c b len rows) (hg : Growth c b new a)
    {i : Nat} {blk : Int} (hi : (c.tables b ++ new)[i]? = some blk)
    (hlt : len < (i + 1) * c.blockSize) : blk ∉ (c.appended b l new a kvs).otherRefs b := by
  intro hin
  have hin' : blk ∈ c.otherRefs b := by
    refine mem_otherRefs.mpr ((mem_otherRefs.mp hin).imp ?_ id)
    rintro ⟨j, hj, hne, hmem⟩
    exact ⟨j, hj, hne, by simpa [appended, withTable, hne] using hmem⟩
  by_cases hold : i < (c.tables b).length
  · rw [List.getElem?_append_left hold] at hi
    exact h.exclusive i blk hi hlt hin'
  · rw [List.getElem?_append_right (Nat.le_of_not_lt hold)] at hi
    refine hg.fresh blk (List.mem_of_getElem? hi) ?_
    rcases mem_otherRefs.mp hin' with ⟨j, hj, -, hmem⟩ | hmem
    · exact mem_refs_of_mem_table hj hmem
    · exact Multiset.mem_add.mpr (Or.inr hmem)

/-- **The slot's own sequences, after an append**: those of the layer are longer. -/
theorem SlotStores.appended_self (hbs : 0 < c.blockSize) (hb : b < c.batchSize)
    (h : SlotStores c b len rows) (hg : Growth c b new a)
    (hnew : new.length = c.missing b kvs.length) (hlen : (rows l).length = len)
    (hround : l + 1 = c.numLayers → ∀ l' < l, (rows l').length = len + kvs.length) :
    SlotStores (c.appended b l new a kvs) b
      (if l + 1 = c.numLayers then len + kvs.length else len) (appendRows rows l kvs) where
  pos := by
    show (if _ then _ else _ : Nat → Nat) b = _
    split
    · rw [Function.update_self, h.pos]
    · exact h.pos
  len_le := by
    intro l' hl'
    have hle := h.len_le l' hl'
    have hl'' : l' < c.numLayers := hl'
    by_cases hll : l' = l
    · subst hll
      rw [appendRows, Function.update_self, List.length_append]
      split <;> omega
    · rw [appendRows, Function.update_of_ne hll]
      split
      · next hlast => exact (hround hlast l' (by omega)).ge
      · exact hle
  cover := by
    intro l' hl'
    have hcover := h.cover l' hl'
    rw [appended_table]
    show _ ≤ _ * c.blockSize
    by_cases hll : l' = l
    · subst hll
      rw [appendRows, Function.update_self, List.length_append, hlen, ← h.pos]
      refine (BlockTable.blocksNeeded_le_iff hbs).mp ?_
      rw [List.length_append, hnew, missing]
      omega
    · rw [appendRows, Function.update_of_ne hll, List.length_append, Nat.add_mul]
      omega
  rows := by
    rw [appended_table]
    exact fun l' hl' p hp => h.appended_rows hbs hb hg hnew hlen hl' p hp
  nodup := by
    rw [appended_table]
    exact hg.nodup_append hb h.nodup
  exclusive := by
    rw [appended_table]
    intro i blk hi hlt
    refine h.appended_exclusive hg hi (Nat.lt_of_le_of_lt ?_ hlt)
    split <;> omega

/-! ## Growing without writing -/

/-- The cache after an append that found the pool exhausted. -/
def grown (c : PagedKVCache Tok Row) (b : Nat) (new : List Int) (a : BlockAllocator) :
    PagedKVCache Tok Row := c.withTable b (c.tables b ++ new) a

/-- **The ways an append to a valid slot and layer ends.** -/
theorem append_cases (h : c.Accounted) (hb : b < c.batchSize) (hl : l < c.numLayers)
    (kvs : List (Row × Row)) :
    (∃ e, (append (b : Int) (l : Int) (kvs.map Prod.fst) (kvs.map Prod.snd)).run c = .error e c) ∨
    (∃ new a e, Growth c b new a ∧
      (append (b : Int) (l : Int) (kvs.map Prod.fst) (kvs.map Prod.snd)).run c
        = .error e (c.grown b new a)) ∨
    (∃ new a, Growth c b new a ∧ new.length = c.missing b kvs.length ∧
      (append (b : Int) (l : Int) (kvs.map Prod.fst) (kvs.map Prod.snd)).run c
        = .ok () (c.appended b l new a kvs)) := by
  have hn : (kvs.map Prod.fst).length = kvs.length := List.length_map _
  have ho := append_outcome h (b : Int) (l : Int) (kvs.map Prod.fst) (kvs.map Prod.snd)
  rw [pyIndex_natCast hb] at ho
  by_cases hfit : c.pos b + kvs.length ≤ c.maxSeqLen
  · by_cases hroom : c.missing b kvs.length ≤ c.allocator.free.length
    · exact Or.inr (Or.inr (append_run h hb hl hfit hroom))
    · cases hr : (append (b : Int) (l : Int) (kvs.map Prod.fst) (kvs.map Prod.snd)).run c with
      | ok x c' =>
        rw [hr] at ho
        cases ho with
        | done b' new a k v hs _ _ _ hle =>
          cases hs
          rw [hn] at hle
          exact absurd hle hroom
      | error e c' =>
        rw [hr] at ho
        cases ho with
        | noSlot hs => cases hs
        | tooLong b' hs hlong => exact Or.inl ⟨_, rfl⟩
        | exhausted b' new a msg hs _ hg _ =>
          cases hs
          exact Or.inr (Or.inl ⟨new, a, _, hg, rfl⟩)
        | broken b' new a k v e hs _ _ _ hle _ =>
          cases hs
          rw [hn] at hle
          exact absurd hle hroom
  · left
    refine ⟨.assertionError, ?_⟩
    unfold append
    rw [Exec.run_bind_ok (slotOf_run (pyIndex_natCast hb)), Exec.run_bind_ok (EStateM.run_get c), hn,
      if_pos (Nat.lt_of_not_le hfit)]
    rfl

theorem grown_accounted (h : c.Accounted) (hb : b < c.batchSize) (hg : Growth c b new a) :
    (c.grown b new a).Accounted := h.withTable hb hg.counts hg.numBlocks

/-- Growing is appending no rows, as far as tables and references go. -/
theorem mem_grown_otherRefs {i : Nat} {blk : Int} :
    blk ∈ (c.grown b new a).otherRefs i ↔ blk ∈ (c.appended b l new a kvs).otherRefs i := by
  rw [mem_otherRefs, mem_otherRefs]
  rfl

theorem SlotStores.grown_other (hg : Growth c b new a) {i len' : Nat}
    {rows' : Nat → List (Row × Row)} (hi : i < c.batchSize) (hne : i ≠ b)
    (h' : SlotStores c i len' rows') : SlotStores (c.grown b new a) i len' rows' := by
  refine h'.frame ⟨rfl, rfl, rfl, rfl, rfl, rfl⟩ (by simp [grown, withTable, hne]) rfl
    (fun _ _ _ _ => ⟨rfl, rfl⟩) ?_
  intro j blk hj _ hnot hin
  have hblk : blk ∈ c.tables i := List.mem_of_getElem? hj
  have hin' : blk ∈ (c.appended b 0 new a []).otherRefs i := mem_grown_otherRefs.mp hin
  exact hnot (mem_appended_otherRefs hin' fun hc => hg.fresh blk hc (mem_refs_of_mem_table hi hblk))

theorem SlotStores.grown_self (hb : b < c.batchSize) (h : SlotStores c b len rows)
    (hg : Growth c b new a) : SlotStores (c.grown b new a) b len rows := by
  have htab : (c.grown b new a).tables b = c.tables b ++ new := by simp [grown, withTable]
  refine ⟨h.pos, h.len_le, ?_, ?_, ?_, ?_⟩
  · intro l hl
    have := h.cover l hl
    rw [htab, List.length_append, Nat.add_mul]
    show _ ≤ _ * c.blockSize + _ * c.blockSize
    omega
  · intro l hl p hp
    rw [htab]
    show c.k l (addr c.blockSize _ p) = _ ∧ c.v l (addr c.blockSize _ p) = _
    rw [addr_append new (h.lt_cover hl hp)]
    exact h.rows l hl p hp
  · rw [htab]
    exact hg.nodup_append hb h.nodup
  · rw [htab]
    intro i blk hi hlt hin
    have hin' : blk ∈ (c.appended b 0 new a []).otherRefs b := mem_grown_otherRefs.mp hin
    exact h.appended_exclusive hg hi hlt hin'

end

end PagedKVCache

end Nifre
