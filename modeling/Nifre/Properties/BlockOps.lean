import Nifre.Inference.BlockTable
import Mathlib.Data.PNat.Basic

/-!
# Block operations that raise

The pool with the tables of its sequences, and the calls of their methods. `allocate` and `free`
are `allocate_many` and `free_many` of one block.

A call that raises has changed nothing, with three exceptions: `free_many` and `clear` release the
blocks before the first that is not in use, `import_blocks` retains them, and `ensure_capacity`
takes all free blocks before it finds that there are too few.
-/

namespace Nifre

/-! ## The allocator -/

namespace BlockAllocator

/-- Somebody's references account for the state. -/
def Accounted (s : BlockAllocator) : Prop := ∃ refs, s.Counts refs

variable {s : BlockAllocator}

theorem allocateMany_whole (h : s.Accounted) (count : Int) :
    Exec.WholeIff Accounted True (allocateMany count) s := by
  obtain ⟨refs, hc⟩ := h
  rcases allocateMany_cases hc count with ⟨e, hrun⟩ | ⟨new, s', hrun, hc', -⟩
  · exact .of_error hrun (iff_of_true rfl trivial) ⟨refs, hc⟩
  · exact .of_ok hrun trivial ⟨_, hc'⟩

theorem retain_whole (h : s.Accounted) (b : Int) : Exec.WholeIff Accounted True (retain b) s := by
  obtain ⟨refs, hc⟩ := h
  by_cases hb : b ∈ refs
  · obtain ⟨s', hrun, hc', -⟩ := retain_spec hc hb
    exact .of_ok hrun trivial ⟨_, hc'⟩
  · obtain ⟨e, hrun⟩ := retain_run_error hc hb
    exact .of_error hrun (iff_of_true rfl trivial) ⟨refs, hc⟩

theorem release_whole (h : s.Accounted) (b : Int) :
    Exec.WholeIff Accounted True (release b) s := by
  obtain ⟨refs, hc⟩ := h
  by_cases hb : b ∈ refs
  · obtain ⟨s', hrun, hc', -⟩ := release_spec hc hb
    exact .of_ok hrun trivial ⟨_, hc'⟩
  · obtain ⟨e, hrun⟩ := release_run_error hc hb
    exact .of_error hrun (iff_of_true rfl trivial) ⟨refs, hc⟩

end BlockAllocator

/-! ## A table -/

namespace BlockTable

variable {t : BlockTable} {refs : Multiset Int}

/-- **The loop of `import_blocks`**: it retains every block, or raises at the first one that nobody
holds. It has changed something by then unless that is the first of all. -/
theorem retainAll_cases : ∀ (bs : List Int) {t : BlockTable} {refs : Multiset Int},
    t.allocator.Counts refs →
    ((∀ b ∈ bs, b ∈ refs) ∧ ∃ a refs',
      (forM bs fun b => onAllocator (BlockAllocator.retain b)).run t
        = .ok () { t with allocator := a } ∧ a.Counts refs') ∨
    ((∃ b ∈ bs, b ∉ refs) ∧ ∃ e a refs',
      (forM bs fun b => onAllocator (BlockAllocator.retain b)).run t
        = .error e { t with allocator := a }
      ∧ a.Counts refs' ∧ refs ≤ refs' ∧ (a = t.allocator ↔ ∀ b ∈ bs.head?, b ∉ refs))
  | [], t, refs, h => Or.inl ⟨by simp, t.allocator, refs, rfl, h⟩
  | b :: rest, t, refs, h => by
    by_cases hb : b ∈ refs
    · obtain ⟨a₁, hrun, hc, -⟩ := BlockAllocator.retain_spec h hb
      have hstep : (onAllocator (BlockAllocator.retain b)).run t
          = .ok () { t with allocator := a₁ } := Exec.run_within_ok hrun
      -- one more reference to a held block: the same blocks are held
      have hmem : ∀ c, c ∈ b ::ₘ refs ↔ c ∈ refs := fun c => by
        rw [Multiset.mem_cons]
        exact ⟨fun hc => hc.elim (fun he => he ▸ hb) id, Or.inr⟩
      rw [List.forM_cons, Exec.run_bind_ok hstep]
      rcases retainAll_cases rest (t := { t with allocator := a₁ }) hc with
        ⟨hall, hok⟩ | ⟨⟨c, hcr, hcn⟩, e, a, refs', herr, hc', hle, -⟩
      · refine Or.inl ⟨fun c hcm => ?_, hok⟩
        rcases List.mem_cons.mp hcm with rfl | hcr
        · exact hb
        · exact (hmem c).mp (hall c hcr)
      · have hlt : refs < refs' := (Multiset.lt_cons_self refs b).trans_le hle
        refine Or.inr ⟨⟨c, List.mem_cons_of_mem b hcr, fun hcm => hcn ((hmem c).mpr hcm)⟩, e, a,
          refs', herr, hc', hlt.le, iff_of_false ?_ ?_⟩
        · rintro rfl
          exact hlt.ne (h.unique hc')
        · exact fun hhead => hhead b rfl hb
    · obtain ⟨e, herr⟩ := BlockAllocator.retain_run_error h hb
      have hstep : (onAllocator (BlockAllocator.retain b)).run t = .error e t :=
        Exec.run_within_error herr
      refine Or.inr ⟨⟨b, List.mem_cons_self, hb⟩, e, t.allocator, refs, ?_, h, le_rfl,
        iff_of_true rfl ?_⟩
      · rw [List.forM_cons, Exec.run_bind_error hstep]
      · rintro c ⟨⟩
        exact hb

/-- The table holds blocks, or all of the list is in use if the first is. -/
def ImportsWhole (t : BlockTable) (bs : List Int) : Prop :=
  t.physicalBlocks ≠ [] ∨
    ((∀ b ∈ bs.head?, b ∈ t.allocator.inUse) → ∀ b ∈ bs, b ∈ t.allocator.inUse)

theorem importBlocks_whole (h : t.allocator.Accounted) (bs : List Int) :
    Exec.WholeIff (fun t' => t'.allocator.Accounted) (t.ImportsWhole bs) (importBlocks bs) t := by
  by_cases hblocks : t.physicalBlocks = []
  · obtain ⟨refs, hc⟩ := h
    rcases retainAll_cases bs hc with
      ⟨hall, a, refs', hrun, hc'⟩ | ⟨⟨b, hb, hnot⟩, e, a, refs', hrun, hc', -, hsame⟩
    · have himport : (importBlocks bs).run t = .ok () ⟨bs, a⟩ := by
        unfold importBlocks
        rw [Exec.run_bind_ok (EStateM.run_get t), if_neg (not_not.mpr hblocks),
          Exec.run_bind_ok hrun]
        rfl
      exact .of_ok himport (Or.inr fun _ b hb => hc.mem_inUse_of_mem (hall b hb)) ⟨refs', hc'⟩
    · have hraise : (importBlocks bs).run t = .error e { t with allocator := a } := by
        unfold importBlocks
        rw [Exec.run_bind_ok (EStateM.run_get t), if_neg (not_not.mpr hblocks),
          Exec.run_bind_error hrun]
      have heq : ({ t with allocator := a } : BlockTable) = t ↔ a = t.allocator :=
        ⟨fun h => congrArg allocator h, fun h => by rw [h]⟩
      refine .of_error hraise (heq.trans (hsame.trans ⟨fun hhead => ?_, fun hwhole => ?_⟩))
        ⟨refs', hc'⟩
      · -- the first block is not in use
        refine Or.inr fun hused => ?_
        obtain ⟨c, rest, rfl⟩ := List.exists_cons_of_ne_nil (List.ne_nil_of_mem hb)
        exact absurd ((hc.mem_inUse c).mp (hused c rfl)) (hhead c rfl)
      · intro c hhead hcr
        refine hnot ((hc.mem_inUse b).mp (hwhole.resolve_left (not_not.mpr hblocks) ?_ b hb))
        intro d hd
        obtain rfl : c = d := Option.some.inj (hhead.symm.trans hd)
        exact hc.mem_inUse_of_mem hcr
  · exact .of_error (importBlocks_run_error bs hblocks) (iff_of_true rfl (Or.inl hblocks)) h

/-- The tokens are not many, the pool is empty or has enough free blocks. -/
def GrowsWhole (t : BlockTable) (blockSize : Nat) (totalTokens : Int) : Prop :=
  0 ≤ totalTokens → t.allocator.free ≠ [] →
    missing t blockSize totalTokens.toNat ≤ t.allocator.free.length

theorem ensureCapacity_whole (h : t.allocator.Accounted) (blockSize : Nat) (totalTokens : Int) :
    Exec.WholeIff (fun t' => t'.allocator.Accounted) (t.GrowsWhole blockSize totalTokens)
      (ensureCapacity blockSize totalTokens) t := by
  by_cases hneg : totalTokens < 0
  · have hrun : (ensureCapacity blockSize totalTokens).run t
        = .error (.valueError s!"total_tokens must be non-negative, got {totalTokens}") t := by
      unfold ensureCapacity
      rw [if_pos hneg]
      rfl
    exact .of_error hrun (iff_of_true rfl fun hpos => absurd hneg (by omega)) h
  obtain ⟨total, rfl⟩ : ∃ total : Nat, totalTokens = total := ⟨totalTokens.toNat, by omega⟩
  obtain ⟨refs, hc⟩ := h
  obtain ⟨new, t', hg, hcase⟩ := grow_spec (missing t blockSize total) hc
  rcases hcase with ⟨henough, -, hrun⟩ | ⟨hfew, hempty, msg, hrun⟩
  · exact .of_ok ((ensureCapacity_run blockSize total).trans hrun) (fun _ _ => henough)
      ⟨_, hg.counts⟩
  · refine .of_error ((ensureCapacity_run blockSize total).trans hrun) ⟨?_, ?_⟩ ⟨_, hg.counts⟩
    · rintro rfl
      exact fun _ hfree => absurd hempty hfree
    · -- the loop has taken all there were: none
      intro hwhole
      by_cases hfree : t.allocator.free = []
      · obtain ⟨msg', he⟩ := BlockAllocator.allocate_exhausted hfree
        obtain ⟨n, hn⟩ : ∃ n, missing t blockSize total = n + 1 :=
          ⟨missing t blockSize total - 1, by omega⟩
        have hstep : (onAllocator BlockAllocator.allocate).run t
            = .error (.blockPoolExhausted msg') t := Exec.run_within_error he
        rw [hn, grow, Exec.run_bind_error hstep] at hrun
        cases hrun
        rfl
      · exact absurd (hwhole (by omega) hfree) (by simpa using hfew)

theorem clear_whole (h : t.allocator.Accounted) :
    Exec.WholeIff (fun t' => t'.allocator.Accounted) (t.allocator.FreesWhole t.physicalBlocks)
      clear t := by
  obtain ⟨refs, hc⟩ := h
  by_cases hblocks : t.physicalBlocks = []
  · have hclear : clear.run t = .ok () t := by
      unfold clear
      rw [Exec.run_bind_ok (EStateM.run_get t), if_neg (not_not.mpr hblocks)]
      rfl
    refine .of_ok hclear ?_ ⟨refs, hc⟩
    rw [hblocks]
    exact fun _ _ _ b hb => nomatch hb
  · have hfree : Exec.WholeIff (fun t' => t'.allocator.Accounted)
        (t.allocator.FreesWhole t.physicalBlocks)
        (onAllocator (BlockAllocator.freeMany t.physicalBlocks)) t :=
      .within rfl (fun _ => rfl) (fun _ ha => ha) (BlockAllocator.freeMany_whole hc _)
    have hclear : clear.run t = (do
        onAllocator (BlockAllocator.freeMany t.physicalBlocks)
        modify fun t => { t with physicalBlocks := [] } : M Unit).run t := by
      unfold clear
      rw [Exec.run_bind_ok (EStateM.run_get t), if_pos hblocks]
    have hall := hfree.bind (I := fun t' => t'.allocator.Accounted)
      (f := fun _ => modify fun t => { t with physicalBlocks := [] })
      (fun _ t' ha => ⟨_, _, rfl, ha⟩) fun _ ha => ha
    unfold Exec.WholeIff at hall ⊢
    rw [hclear]
    exact hall

end BlockTable

/-! ## The pool with its tables -/

/-- The allocator, and the blocks of each table. A table starts without blocks. -/
structure BlockPool where
  allocator : BlockAllocator
  tables : Nat → List Int

/-- A call of a method of the allocator or of a table. -/
inductive BlockOp where
  | allocateMany (count : Int)
  | retain (b : Int)
  | release (b : Int)
  | freeMany (bs : List Int)
  | importBlocks (table : Nat) (bs : List Int)
  | ensureCapacity (table : Nat) (totalTokens : Int)
  | clear (table : Nat)

namespace BlockPool

abbrev M := EStateM PyError BlockPool

def new (allocator : BlockAllocator) : BlockPool := ⟨allocator, fun _ => []⟩

def table (p : BlockPool) (i : Nat) : BlockTable := ⟨p.tables i, p.allocator⟩

def withTable (i : Nat) (t : BlockTable) (p : BlockPool) : BlockPool :=
  ⟨t.allocator, Function.update p.tables i t.physicalBlocks⟩

def onAllocator {α : Type} (m : BlockAllocator.M α) : M α :=
  Exec.within (·.allocator) (fun a p => { p with allocator := a }) m

def onTable {α : Type} (i : Nat) (m : BlockTable.M α) : M α :=
  Exec.within (·.table i) (withTable i) m

variable (blockSize : Nat → ℕ+)

/-- `blockSize i` is the block size of table `i`. -/
def call : BlockOp → M Unit
  | .allocateMany count => do
    let _ ← onAllocator (BlockAllocator.allocateMany count)
  | .retain b => onAllocator (BlockAllocator.retain b)
  | .release b => onAllocator (BlockAllocator.release b)
  | .freeMany bs => onAllocator (BlockAllocator.freeMany bs)
  | .importBlocks i bs => onTable i (BlockTable.importBlocks bs)
  | .ensureCapacity i totalTokens => onTable i (BlockTable.ensureCapacity (blockSize i) totalTokens)
  | .clear i => onTable i BlockTable.clear

/-- The call does not raise halfway. -/
def Whole (p : BlockPool) : BlockOp → Prop
  | .allocateMany _ => True
  | .retain _ => True
  | .release _ => True
  | .freeMany bs => p.allocator.FreesWhole bs
  | .importBlocks i bs => (p.table i).ImportsWhole bs
  | .ensureCapacity i totalTokens => (p.table i).GrowsWhole (blockSize i) totalTokens
  | .clear i => p.allocator.FreesWhole (p.tables i)

variable {p : BlockPool}

theorem onAllocator_whole {α : Type} {whole : Prop} {m : BlockAllocator.M α}
    (h : Exec.WholeIff BlockAllocator.Accounted whole m p.allocator) :
    Exec.WholeIff (fun p' => p'.allocator.Accounted) whole (onAllocator m) p :=
  h.within rfl (fun _ => rfl) fun _ ha => ha

theorem onTable_whole {α : Type} {whole : Prop} {i : Nat} {m : BlockTable.M α}
    (h : Exec.WholeIff (fun t => t.allocator.Accounted) whole m (p.table i)) :
    Exec.WholeIff (fun p' => p'.allocator.Accounted) whole (onTable i m) p := by
  refine h.within ?_ (fun t => ?_) fun _ ha => ha
  · show (⟨p.allocator, Function.update p.tables i (p.tables i)⟩ : BlockPool) = p
    rw [Function.update_eq_self]
  · show (⟨Function.update p.tables i t.physicalBlocks i, t.allocator⟩ : BlockTable) = t
    rw [Function.update_self]

/-- **One call**, from a state that is accounted for. -/
theorem call_whole (h : p.allocator.Accounted) (op : BlockOp) :
    Exec.WholeIff (fun p' => p'.allocator.Accounted) (p.Whole blockSize op) (call blockSize op)
      p := by
  cases op with
  | allocateMany count =>
    exact (onAllocator_whole (BlockAllocator.allocateMany_whole h count)).bind
      (fun _ p' ha => ⟨_, p', rfl, ha⟩) fun _ ha => ha
  | retain b => exact onAllocator_whole (BlockAllocator.retain_whole h b)
  | release b => exact onAllocator_whole (BlockAllocator.release_whole h b)
  | freeMany bs =>
    obtain ⟨refs, hc⟩ := h
    exact onAllocator_whole (BlockAllocator.freeMany_whole hc bs)
  | importBlocks i bs => exact onTable_whole (BlockTable.importBlocks_whole h bs)
  | ensureCapacity i totalTokens =>
    exact onTable_whole (BlockTable.ensureCapacity_whole h (blockSize i) totalTokens)
  | clear i => exact onTable_whole (BlockTable.clear_whole h)

/-- **A call in a reachable state that raises has changed nothing, exactly if it does not raise
halfway.** -/
theorem raises_unchanged_iff {numBlocks : Int} {a : BlockAllocator}
    (hnew : BlockAllocator.new numBlocks = .ok a) (ops : List BlockOp) (op : BlockOp) :
    let p := Exec.runAll (call blockSize) ops (new a)
    (∀ e p', (call blockSize op).run p = .error e p' → p' = p) ↔ p.Whole blockSize op := by
  intro p
  have hkeeps : ∀ op ∈ ops, Exec.Keeps (fun p => p.allocator.Accounted) (call blockSize op) :=
    fun op _ _ h => (call_whole blockSize h op).after
  have hstart : (new a).allocator.Accounted := ⟨0, (BlockAllocator.counts_new hnew).1⟩
  exact (call_whole blockSize (Exec.runAll_keeps hkeeps hstart) op).iff

/-- A pool of two blocks, one of them in use. -/
def oneHeld : List BlockOp := [.allocateMany 1]

/-- **`free_many` on block 1 and the free block 0 releases block 1 before it raises.
`ensure_capacity` for two blocks takes the last free one.** -/
theorem oneHeld_changed :
    ∃ a, BlockAllocator.new 2 = .ok a ∧
      let p := Exec.runAll (call fun _ => 4) oneHeld (new a)
      ¬(∀ e p', (call (fun _ => 4) (.freeMany [1, 0])).run p = .error e p' → p' = p) ∧
      ¬(∀ e p', (call (fun _ => 4) (.ensureCapacity 0 8)).run p = .error e p' → p' = p) := by
  refine ⟨_, rfl, fun h => ?_, fun h => ?_⟩
  · have hfree := congrArg (·.allocator.free) (h _ _ rfl)
    revert hfree
    decide
  · have hfree := congrArg (·.allocator.free) (h _ _ rfl)
    revert hfree
    decide

theorem oneHeld_unchanged_iff :
    ∃ a, BlockAllocator.new 2 = .ok a ∧
      let p := Exec.runAll (call fun _ => 4) oneHeld (new a)
      ((∀ e p', (call (fun _ => 4) (.freeMany [0, 1])).run p = .error e p' → p' = p) ↔
        p.Whole (fun _ => 4) (.freeMany [0, 1])) := by
  obtain ⟨a, h⟩ : ∃ a, BlockAllocator.new 2 = .ok a := ⟨_, rfl⟩
  exact ⟨a, h, raises_unchanged_iff (fun _ => 4) h oneHeld (.freeMany [0, 1])⟩

end BlockPool

end Nifre
