import Nifre.Properties.PagedSteps
import Mathlib.Algebra.BigOperators.Group.Finset.Piecewise

/-!
# Block accounting of the paged cache

From `init_batch`, under any calls with any arguments, returning or raising:

* the allocator counts exactly the references of the tables and of the prefix cache
  (`run_accounted`), whatever the hash does
* every block that is held has one place in the chains it belongs to (`Placed`), as long as no
  two chains in play collide, so no table holds a block twice

The first gives the exact condition under which `append` finds the pool exhausted, the second
that `reset_slot` and eviction never raise.
-/

namespace Nifre

open Digest Finset

namespace PagedKVCache

variable {Tok Row : Type} [DecidableEq Tok]

/-! ## Runs -/

/-- A call of a method that changes the cache. -/
inductive Op (Tok Row : Type) where
  | append (batchIdx layerId : Int) (key value : List Row)
  | tryLoadPrefix (batchIdx : Int) (tokenIds : List Tok)
  | registerPrefix (batchIdx : Int) (tokenIds : List Tok)
  | resetSlot (batchIdx : Int)

variable (chain : Int → List Tok → Int)

def call : Op Tok Row → M Tok Row Unit
  | .append batchIdx layerId key value => append batchIdx layerId key value
  | .tryLoadPrefix batchIdx tokenIds => do
    let _ ← tryLoadPrefix chain batchIdx tokenIds
  | .registerPrefix batchIdx tokenIds => registerPrefix chain batchIdx tokenIds
  | .resetSlot batchIdx => resetSlot batchIdx

/-- The state after a run of calls. -/
def run (ops : List (Op Tok Row)) (c : PagedKVCache Tok Row) : PagedKVCache Tok Row :=
  Exec.runAll (call chain) ops c

/-- The token list a call hashes. -/
def Op.prompt? : Op Tok Row → Option (List Tok)
  | .tryLoadPrefix _ tokenIds => some tokenIds
  | .registerPrefix _ tokenIds => some tokenIds
  | _ => none

/-- The chains of blocks that a run of calls hashes. -/
def chainsOf (blockSize : Nat) (ops : List (Op Tok Row)) : Set (List (List Tok)) :=
  { blocks | ∃ op ∈ ops, ∃ p, op.prompt? = some p ∧ blocks = fullBlocks blockSize p }

omit [DecidableEq Tok] in
/-- The chains a run hashes, as a list. -/
theorem mem_chainsOf {blockSize : Nat} {ops : List (Op Tok Row)} {blocks : List (List Tok)}
    (h : blocks ∈ chainsOf blockSize ops) :
    blocks ∈ (ops.filterMap Op.prompt?).map (fullBlocks blockSize) := by
  obtain ⟨op, hop, p, hp, rfl⟩ := h
  exact List.mem_map.mpr ⟨p, List.mem_filterMap.mpr ⟨op, hop, hp⟩, rfl⟩

theorem after_load (batchIdx : Int) (tokenIds : List Tok) (c : PagedKVCache Tok Row) :
    Exec.after (call chain (.tryLoadPrefix batchIdx tokenIds)) c
      = Exec.after (tryLoadPrefix chain batchIdx tokenIds) c :=
  Exec.after_dropped _ c

variable {chain}

/-! ## One change at a time -/

/-- The ways one call changes the tables and the entries, from an accounted state. -/
inductive Change (chain : Int → List Tok → Int) (c c' : PagedKVCache Tok Row)
    (prompt : Option (List Tok)) : Prop
  | rows : c'.tables = c.tables → c'.prefixCache = c.prefixCache → Change chain c c' prompt
  | touch (p p') : c.prefixCache = some p → c'.prefixCache = some p' →
      p'.entries.entries.Perm p.entries.entries → c'.tables = c.tables → Change chain c c' prompt
  | load (p p' b tokenIds) : c.prefixCache = some p → c'.prefixCache = some p' →
      p'.entries.entries.Perm p.entries.entries → prompt = some tokenIds → b < c.batchSize →
      c'.tables = Function.update c.tables b (p.found chain tokenIds) → Change chain c c' prompt
  | grow (b new) : b < c.batchSize → (∀ blk ∈ new, blk ∉ c.refs) → new.Nodup →
      c'.tables = Function.update c.tables b (c.tables b ++ new) →
      c'.prefixCache = c.prefixCache → Change chain c c' prompt
  | clear (b) : b < c.batchSize → c'.tables = Function.update c.tables b [] →
      c'.prefixCache = c.prefixCache → Change chain c c' prompt
  | insert (p p' b tokenIds) : c.prefixCache = some p → c'.prefixCache = some p' →
      prompt = some tokenIds → b < c.batchSize → c'.tables = c.tables →
      (∀ k blk, (k, blk) ∈ p'.entries.entries → (k, blk) ∈ p.entries.entries ∨
        ∃ i, i < (fullBlocks p.blockSize tokenIds).length ∧
          k = ChainedMap.keyAt chain (fullBlocks p.blockSize tokenIds) PrefixCache.rootHash i ∧
          (c.tables b)[i]? = some blk) →
      Change chain c c' prompt

/-- What one call leaves: an accounted cache of the same shape, changed in one of these ways. -/
structure Stepped (chain : Int → List Tok → Int) (c c' : PagedKVCache Tok Row)
    (prompt : Option (List Tok)) : Prop where
  accounted : c'.Accounted
  shape : SameShape c c'
  change : Change chain c c' prompt

theorem Stepped.refl {c : PagedKVCache Tok Row} (h : c.Accounted) (prompt : Option (List Tok)) :
    Stepped chain c c prompt := ⟨h, SameShape.refl c, .rows rfl rfl⟩

theorem touched_stepped {c : PagedKVCache Tok Row} (h : c.Accounted) {p : PrefixCache Tok}
    (hp : c.prefixCache = some p) (tokenIds : List Tok) (prompt : Option (List Tok)) :
    Stepped chain c (c.touched chain p tokenIds) prompt where
  accounted := h.touched hp tokenIds
  shape := ⟨rfl, rfl, rfl, rfl, rfl, by rw [hp]; rfl⟩
  change := .touch p _ hp rfl (p.lookup_entries_perm chain tokenIds) rfl

theorem grown_stepped {c : PagedKVCache Tok Row} (h : c.Accounted) {b : Nat}
    (hb : b < c.batchSize) {new : List Int} {a : BlockAllocator} (hg : Growth c b new a)
    (pos : Nat → Nat) (k v : Nat → Int × Nat → Row) (prompt : Option (List Tok)) :
    Stepped chain c { c.withTable b (c.tables b ++ new) a with pos := pos, k := k, v := v }
      prompt where
  accounted := (h.withTable hb hg.counts hg.numBlocks).withRows pos k v
  shape := ⟨rfl, rfl, rfl, rfl, rfl, rfl⟩
  change := .grow b new hb hg.fresh hg.nodup rfl rfl

/-- **One call, with any arguments and on either exit.** -/
theorem call_stepped {c : PagedKVCache Tok Row} (h : c.Accounted) (op : Op Tok Row) :
    Stepped chain c (Exec.after (call chain op) c) op.prompt? := by
  cases op with
  | append batchIdx layerId key value =>
    show Stepped chain c (Exec.stateOf ((append batchIdx layerId key value).run c)) none
    cases hr : (append batchIdx layerId key value).run c with
    | ok a c' =>
      have ho := append_outcome h batchIdx layerId key value
      rw [hr] at ho
      cases ho with
      | done b new a k v hs _ hg _ _ => exact grown_stepped h (lt_of_pyIndex hs) hg _ k v none
    | error e c' =>
      have ho := append_outcome h batchIdx layerId key value
      rw [hr] at ho
      cases ho with
      | noSlot _ => exact Stepped.refl h none
      | tooLong _ _ _ => exact Stepped.refl h none
      | exhausted b new a msg hs _ hg _ =>
        exact grown_stepped h (lt_of_pyIndex hs) hg c.pos c.k c.v none
      | broken b new a k v e hs _ hg _ _ _ =>
        exact grown_stepped h (lt_of_pyIndex hs) hg c.pos k v none
  | tryLoadPrefix batchIdx tokenIds =>
    rw [after_load chain]
    show Stepped chain c (Exec.stateOf ((tryLoadPrefix chain batchIdx tokenIds).run c))
      (some tokenIds)
    have ho := tryLoadPrefix_outcome chain h batchIdx tokenIds
    cases hr : (tryLoadPrefix chain batchIdx tokenIds).run c with
    | ok n c' =>
      rw [hr] at ho
      cases ho with
      | disabled _ => exact Stepped.refl h _
      | miss p hp _ => exact touched_stepped h hp tokenIds _
      | hit p b a hp _ hs ht hc hn _ =>
        have hb := lt_of_pyIndex hs
        have hacc : (c.touched chain p tokenIds).Accounted := h.touched hp tokenIds
        -- the lookup only reorders the entries, so they hold the same blocks
        have hother : (c.touched chain p tokenIds).otherRefs b = c.otherRefs b := by
          rw [otherRefs, otherRefs, touched_prefixHeld hp]
          rfl
        refine ⟨(hacc.withTable (a := a) hb (hc.congr (by rw [hother])) hn).withRows _ _ _,
          ⟨rfl, rfl, rfl, rfl, rfl, by rw [hp]; rfl⟩,
          .load p _ b tokenIds hp rfl (p.lookup_entries_perm chain tokenIds) rfl hb rfl⟩
    | error e c' =>
      rw [hr] at ho
      cases ho with
      | noSlot p hp _ _ => exact touched_stepped h hp tokenIds _
      | busy p b hp _ _ _ => exact touched_stepped h hp tokenIds _
  | registerPrefix batchIdx tokenIds =>
    show Stepped chain c (Exec.stateOf ((registerPrefix chain batchIdx tokenIds).run c))
      (some tokenIds)
    have ho := registerPrefix_outcome chain h batchIdx tokenIds
    cases hr : (registerPrefix chain batchIdx tokenIds).run c with
    | ok n c' =>
      rw [hr] at ho
      cases ho with
      | disabled _ => exact Stepped.refl h _
      | inserted p b s hp hs hi =>
        refine ⟨h.inserted chain hp hi, ⟨rfl, rfl, rfl, rfl, rfl, by rw [hp]; rfl⟩,
          .insert p s.cache b tokenIds hp rfl rfl (lt_of_pyIndex hs) rfl hi.entries⟩
    | error e c' =>
      rw [hr] at ho
      cases ho with
      | noSlot p hp _ => exact Stepped.refl h _
  | resetSlot batchIdx =>
    show Stepped chain c (Exec.stateOf ((resetSlot batchIdx).run c)) none
    have ho := resetSlot_outcome h batchIdx
    cases hr : (resetSlot batchIdx).run c with
    | ok n c' =>
      rw [hr] at ho
      cases ho with
      | cleared b a hs _ hc hn =>
        have hb := lt_of_pyIndex hs
        refine ⟨(h.withTable hb (hc.congr (by simp)) hn).withRows _ _ _,
          ⟨rfl, rfl, rfl, rfl, rfl, rfl⟩, .clear b hb rfl rfl⟩
    | error e c' =>
      rw [hr] at ho
      cases ho with
      | noSlot _ => exact Stepped.refl h none
      | duplicate b e _ _ => exact Stepped.refl h none

/-- **The accounting holds after any run of calls**, whatever the hash is. -/
theorem run_accounted {c : PagedKVCache Tok Row} (h : c.Accounted) (ops : List (Op Tok Row)) :
    (run chain ops c).Accounted ∧ SameShape c (run chain ops c) := by
  refine Exec.runAll_keeps (I := fun c' => c'.Accounted ∧ SameShape c c') ?_ ⟨h, SameShape.refl c⟩
  intro op _ s hs
  have hst : Stepped chain s (Exec.after (call chain op) s) op.prompt? := call_stepped hs.1 op
  exact ⟨hst.accounted, hs.2.trans hst.shape⟩

/-! ## One place for every block -/

/-- Every block has one logical index: its index in the tables that hold it, and the length of
the chain before it in the entries that hold it. -/
structure Placed (chain : Int → List Tok → Int) (P : Set (List (List Tok)))
    (c : PagedKVCache Tok Row) (place : Int → Nat) : Prop where
  tables : ∀ b < c.batchSize, ∀ (i : Nat) (blk : Int), (c.tables b)[i]? = some blk → place blk = i
  entries : ∀ p, c.prefixCache = some p → ∀ key blk, (key, blk) ∈ p.entries.entries →
    ∃ before toks, key = (digest chain PrefixCache.rootHash before, toks) ∧
      InPlay P (before ++ [toks]) ∧ place blk = before.length

omit [DecidableEq Tok] in
/-- No table of a placed cache holds a block twice. -/
theorem Placed.table_nodup {P : Set (List (List Tok))} {c : PagedKVCache Tok Row}
    {place : Int → Nat} (h : Placed chain P c place) {b : Nat} (hb : b < c.batchSize) :
    (c.tables b).Nodup := by
  rw [List.nodup_iff_getElem?_ne_getElem?]
  intro i j hij hj he
  rw [List.getElem?_eq_getElem hj] at he
  have h1 := h.tables b hb i _ he
  have h2 := h.tables b hb j _ (List.getElem?_eq_getElem hj)
  omega

omit [DecidableEq Tok] in
/-- The key of block `i` of a list in `P` is a chain in play. -/
theorem keyAt_inPlay {P : Set (List (List Tok))} {blocks : List (List Tok)} (hP : blocks ∈ P)
    {i : Nat} (hi : i < blocks.length) :
    InPlay P (blocks.take i ++ [blocks.getD i []]) := by
  rw [List.getD_eq_getElem _ _ hi, ← List.take_succ_eq_append_getElem hi]
  exact InPlay.take hP (i + 1)

/-- **A lookup finds every block at its place**, when the chains in play do not collide. -/
theorem Placed.found {P : Set (List (List Tok))} (hash : CollisionFree chain PrefixCache.rootHash P)
    {c : PagedKVCache Tok Row} {place : Int → Nat} (h : Placed chain P c place)
    {p : PrefixCache Tok} (hp : c.prefixCache = some p) {tokenIds : List Tok}
    (hP : fullBlocks p.blockSize tokenIds ∈ P) {i : Nat} {blk : Int}
    (hi : (p.found chain tokenIds)[i]? = some blk) : place blk = i := by
  have hmem := ChainedMap.matched_mem chain _ _ _ i blk hi
  have hlt : i < (fullBlocks p.blockSize tokenIds).length :=
    (List.getElem?_eq_some_iff.mp hi).1.trans_le (ChainedMap.matched_length_le chain _ _ _)
  obtain ⟨before, toks, hkey, hplay, hplace⟩ := h.entries p hp _ _ hmem
  have hdigest : digest chain PrefixCache.rootHash ((fullBlocks p.blockSize tokenIds).take i)
      = digest chain PrefixCache.rootHash before := (Prod.ext_iff.mp hkey).1
  have hbefore := hash _ _ (InPlay.take hP i)
    (hplay.ofShorter (List.prefix_append before [toks])) hdigest
  rw [hplace, ← hbefore, List.length_take]
  omega

/-- The places after a table has grown by new blocks. -/
def growPlace (place : Int → Nat) (start : Nat) (new : List Int) (blk : Int) : Nat :=
  if blk ∈ new then start + new.idxOf blk else place blk

theorem growPlace_of_notMem {place : Int → Nat} {start : Nat} {new : List Int} {blk : Int}
    (h : blk ∉ new) : growPlace place start new blk = place blk := if_neg h

theorem growPlace_new {place : Int → Nat} {start : Nat} {new : List Int} (hnd : new.Nodup)
    {i : Nat} {blk : Int} (h : new[i]? = some blk) : growPlace place start new blk = start + i := by
  obtain ⟨hi, rfl⟩ := List.getElem?_eq_some_iff.mp h
  rw [growPlace, if_pos (List.getElem_mem hi), hnd.idxOf_getElem i hi]

/-- **Every change keeps a place for every block.** -/
theorem Placed.change {P : Set (List (List Tok))} (hash : CollisionFree chain PrefixCache.rootHash P)
    {c c' : PagedKVCache Tok Row} (hacc : c.Accounted) {place : Int → Nat}
    (h : Placed chain P c place) {prompt : Option (List Tok)} (hshape : SameShape c c')
    (hP : ∀ tokenIds, prompt = some tokenIds → fullBlocks c.blockSize tokenIds ∈ P)
    (hchange : Change chain c c' prompt) : ∃ place', Placed chain P c' place' := by
  have hn := hshape.batchSize
  cases hchange with
  | rows ht hp =>
    exact ⟨place, fun b hb i blk hi => h.tables b (hn ▸ hb) i blk (ht ▸ hi),
      fun p hp' => h.entries p (hp ▸ hp')⟩
  | touch p p' hp hp' hperm ht =>
    refine ⟨place, fun b hb i blk hi => h.tables b (hn ▸ hb) i blk (ht ▸ hi), ?_⟩
    intro q hq key blk hmem
    rw [hp'] at hq
    cases hq
    exact h.entries p hp key blk (hperm.mem_iff.mp hmem)
  | load p p' b tokenIds hp hp' hperm hprompt hb ht =>
    refine ⟨place, ?_, ?_⟩
    · intro j hj i blk hi
      rw [ht] at hi
      by_cases hjb : j = b
      · subst hjb
        rw [Function.update_self] at hi
        -- equal digests are of equal chains, so the block stands where it was inserted
        refine h.found hash hp ?_ hi
        rw [(hacc.entries p hp).2]
        exact hP tokenIds hprompt
      · rw [Function.update_of_ne hjb] at hi
        exact h.tables j (hn ▸ hj) i blk hi
    · intro q hq key blk hmem
      rw [hp'] at hq
      cases hq
      exact h.entries p hp key blk (hperm.mem_iff.mp hmem)
  | grow b new hb hfresh hnd ht hp =>
    -- the new blocks were not in use, so no other one changes its place
    have hold : ∀ blk ∈ c.refs, growPlace place (c.tables b).length new blk = place blk :=
      fun blk hblk => growPlace_of_notMem fun hc => hfresh blk hc hblk
    refine ⟨growPlace place (c.tables b).length new, ?_, ?_⟩
    · intro j hj i blk hi
      rw [hn] at hj
      rw [ht] at hi
      by_cases hjb : j = b
      · subst hjb
        rw [Function.update_self] at hi
        by_cases hlt : i < (c.tables j).length
        · rw [List.getElem?_append_left hlt] at hi
          rw [hold blk (mem_refs_of_mem_table hj (List.mem_of_getElem? hi))]
          exact h.tables j hj i blk hi
        · rw [List.getElem?_append_right (Nat.le_of_not_lt hlt)] at hi
          rw [growPlace_new hnd hi]
          omega
      · rw [Function.update_of_ne hjb] at hi
        rw [hold blk (mem_refs_of_mem_table hj (List.mem_of_getElem? hi))]
        exact h.tables j hj i blk hi
    · intro p hp' key blk hmem
      rw [hp] at hp'
      have hheld : blk ∈ c.prefixHeld := mem_prefixHeld.mpr ⟨p, hp', key, hmem⟩
      rw [hold blk (Multiset.mem_add.mpr (Or.inr hheld))]
      exact h.entries p hp' key blk hmem
  | clear b hb ht hp =>
    refine ⟨place, ?_, fun p hp' => h.entries p (hp ▸ hp')⟩
    intro j hj i blk hi
    rw [ht] at hi
    by_cases hjb : j = b
    · subst hjb
      rw [Function.update_self] at hi
      cases hi
    · rw [Function.update_of_ne hjb] at hi
      exact h.tables j (hn ▸ hj) i blk hi
  | insert p p' b tokenIds hp hp' hprompt hb ht hent =>
    refine ⟨place, fun j hj i blk hi => h.tables j (hn ▸ hj) i blk (ht ▸ hi), ?_⟩
    intro q hq key blk hmem
    rw [hp'] at hq
    cases hq
    -- an entry is an old one, or a block of the table under the key of its place
    rcases hent key blk hmem with hold | ⟨i, hi, rfl, hblk⟩
    · exact h.entries p hp key blk hold
    · refine ⟨_, _, rfl, keyAt_inPlay ?_ hi, ?_⟩
      · rw [(hacc.entries p hp).2]
        exact hP tokenIds hprompt
      · rw [h.tables b hb i blk hblk, List.length_take]
        omega

/-- The accounting and the places, along a run. -/
structure Sound (chain : Int → List Tok → Int) (P : Set (List (List Tok)))
    (c : PagedKVCache Tok Row) : Prop where
  accounted : c.Accounted
  placed : ∃ place, Placed chain P c place

theorem Sound.stepped {P : Set (List (List Tok))} (hash : CollisionFree chain PrefixCache.rootHash P)
    {c c' : PagedKVCache Tok Row} (h : Sound chain P c) {prompt : Option (List Tok)}
    (hP : ∀ tokenIds, prompt = some tokenIds → fullBlocks c.blockSize tokenIds ∈ P)
    (hst : Stepped chain c c' prompt) : Sound chain P c' := by
  obtain ⟨place, hplace⟩ := h.placed
  exact ⟨hst.accounted, hplace.change hash h.accounted hst.shape hP hst.change⟩

/-- **One call keeps the accounting and the places**, when its prompt is in play. -/
theorem Sound.call {P : Set (List (List Tok))} (hash : CollisionFree chain PrefixCache.rootHash P)
    {c : PagedKVCache Tok Row} (h : Sound chain P c) (op : Op Tok Row)
    (hP : ∀ tokenIds, op.prompt? = some tokenIds → fullBlocks c.blockSize tokenIds ∈ P) :
    Sound chain P (Exec.after (PagedKVCache.call chain op) c) ∧
      SameShape c (Exec.after (PagedKVCache.call chain op) c) :=
  ⟨h.stepped hash hP (call_stepped h.accounted op), (call_stepped h.accounted op).shape⟩

omit [DecidableEq Tok] in
theorem Sound.table_nodup {P : Set (List (List Tok))} {c : PagedKVCache Tok Row}
    (h : Sound chain P c) {b : Nat} (hb : b < c.batchSize) : (c.tables b).Nodup := by
  obtain ⟨place, hplace⟩ := h.placed
  exact hplace.table_nodup hb

omit [DecidableEq Tok] in
theorem initBatch_sound {cfg : Config} {emptyK emptyV : Nat → Int × Nat → Row} {n : Nat}
    {c : PagedKVCache Tok Row} (h : initBatch cfg emptyK emptyV n = .ok c)
    (chain : Int → List Tok → Int) (P : Set (List (List Tok))) : Sound chain P c := by
  obtain ⟨hacc, -, -, -, -, -, ht, -, -, he⟩ := initBatch_spec h
  refine ⟨hacc, fun _ => 0, ?_, ?_⟩
  · intro b _ i blk hi
    rw [ht b] at hi
    cases hi
  · intro p hp key blk hmem
    rw [he p hp] at hmem
    cases hmem

theorem run_sound {cfg : Config} {emptyK emptyV : Nat → Int × Nat → Row} {n : Nat}
    {c : PagedKVCache Tok Row} (h : initBatch cfg emptyK emptyV n = .ok c)
    {ops : List (Op Tok Row)} {P : Set (List (List Tok))}
    (hash : CollisionFree chain PrefixCache.rootHash P) (hP : chainsOf cfg.blockSize ops ⊆ P) :
    Sound chain P (run chain ops c) := by
  obtain ⟨-, -, -, -, hbs, -⟩ := initBatch_spec h
  refine (Exec.runAll_keeps (I := fun s => Sound chain P s ∧ s.blockSize = cfg.blockSize) ?_
    ⟨initBatch_sound h chain P, hbs⟩).1
  intro op hop s hs
  obtain ⟨hsound, hshape⟩ := hs.1.call hash op fun tokenIds hprompt => by
    rw [hs.2]
    exact hP ⟨op, hop, tokenIds, hprompt, rfl⟩
  exact ⟨hsound, hshape.blockSize.trans hs.2⟩

/-! ## Exact reference accounting -/

/-- The slots whose table holds a block. -/
def holders (c : PagedKVCache Tok Row) (blk : Int) : Finset Nat :=
  (range c.batchSize).filter fun b => blk ∈ c.tables b

/-- How many entries of the prefix cache map to a block. -/
def entriesTo (c : PagedKVCache Tok Row) (blk : Int) : Nat :=
  match c.prefixCache with
  | none => 0
  | some p => p.entries.entries.countP fun e => e.2 = blk

/-- What the free list, the in-use set, the reference counts, the tables and the entries say
about each other, and that freeing and evicting go through. -/
structure BlockAccounting (chain : Int → List Tok → Int) (c : PagedKVCache Tok Row) : Prop where
  refcount : ∀ blk, c.allocator.refcount blk = ((c.holders blk).card + c.entriesTo blk : Nat)
  free : ∀ blk : Int, 0 ≤ blk → blk < c.numBlocks →
    c.allocator.free.count blk = if c.allocator.refcount blk = 0 then 1 else 0
  free_pool : ∀ blk ∈ c.allocator.free, 0 ≤ blk ∧ blk < c.numBlocks
  inUse : ∀ blk, blk ∈ c.allocator.inUse ↔ c.allocator.refcount blk ≠ 0
  table_nodup : ∀ b < c.batchSize, (c.tables b).Nodup
  size_le : ∀ p, c.prefixCache = some p → p.entries.size ≤ p.maxEntries
  resetSlot : ∀ batchIdx, pyIndex c.batchSize batchIdx ≠ none → Exec.Returns (resetSlot batchIdx) c
  evictOldest : ∀ p, c.prefixCache = some p → p.entries.size ≠ 0 →
    Exec.Returns PrefixCache.evictOldest ⟨p, c.allocator⟩
  registerPrefix : ∀ batchIdx tokenIds, pyIndex c.batchSize batchIdx ≠ none →
    Exec.Returns (registerPrefix chain batchIdx tokenIds) c

omit [DecidableEq Tok] in
/-- The references to a block are the slots and the entries that hold it. -/
theorem count_refs {c : PagedKVCache Tok Row} (hnd : ∀ b < c.batchSize, (c.tables b).Nodup)
    (blk : Int) : c.refs.count blk = (c.holders blk).card + c.entriesTo blk := by
  have htables : (c.tableRefs (range c.batchSize)).count blk = (c.holders blk).card := by
    rw [tableRefs, Multiset.count_sum', holders, card_filter]
    refine sum_congr rfl fun b hb => ?_
    rw [Multiset.coe_count, (hnd b (mem_range.mp hb)).count]
  have hentries : c.prefixHeld.count blk = c.entriesTo blk := by
    unfold prefixHeld entriesTo
    cases c.prefixCache with
    | none => rfl
    | some p =>
      simp only [PrefixCache.held, OrderedDict.values, Multiset.coe_count, List.count,
        List.countP_map]
      exact List.countP_congr fun e _ => by simp
  rw [refs, Multiset.count_add, htables, hentries]

theorem Accounted.blockAccounting {c : PagedKVCache Tok Row} (h : c.Accounted)
    (hnd : ∀ b < c.batchSize, (c.tables b).Nodup) : BlockAccounting chain c := by
  have hzero : ∀ blk, c.allocator.refcount blk = 0 ↔ blk ∉ c.refs := by
    intro blk
    rw [h.counts.refcount_eq, Int.natCast_eq_zero, Multiset.count_eq_zero]
  refine ⟨?_, ?_, ?_, ?_, hnd, fun p hp => (h.entries p hp).1, ?_, ?_, ?_⟩
  · intro blk
    rw [h.counts.refcount_eq, count_refs hnd]
  · intro blk h0 h1
    have hpool : c.allocator.InPool blk := ⟨h0, by rw [h.numBlocks]; exact h1⟩
    rw [h.counts.free_nodup.count]
    refine if_congr ?_ rfl rfl
    rw [h.counts.mem_free, hzero]
    exact and_iff_right hpool
  · intro blk hblk
    have hpool := ((h.counts.mem_free blk).mp hblk).1
    unfold BlockAllocator.InPool at hpool
    rwa [h.numBlocks] at hpool
  · intro blk
    rw [h.counts.mem_inUse, ne_eq, hzero, not_not]
  · intro batchIdx hslot
    obtain ⟨b, hb⟩ := Option.ne_none_iff_exists'.mp hslot
    have ho := resetSlot_outcome h batchIdx
    rw [hb] at ho
    cases hr : (PagedKVCache.resetSlot batchIdx).run c with
    | ok a t => exact ⟨a, t, hr⟩
    | error e t =>
      rw [hr] at ho
      cases ho with
      | noSlot hs => cases hs
      | duplicate b' e hs hdup =>
        cases hs
        exact absurd (hnd b (lt_of_pyIndex hb)) hdup
  · intro p hp hne
    have hcounts : c.allocator.Counts (c.tableRefs (range c.batchSize) + p.held) := by
      refine h.counts.congr ?_
      rw [refs, prefixHeld, hp]
    obtain ⟨s', hr, -⟩ := PrefixCache.evictOldest_spec (s := ⟨p, c.allocator⟩) hcounts hne
    exact ⟨(), s', hr⟩
  · intro batchIdx tokenIds hslot
    have ho := registerPrefix_outcome chain h batchIdx tokenIds
    cases hr : (PagedKVCache.registerPrefix chain batchIdx tokenIds).run c with
    | ok a t => exact ⟨a, t, hr⟩
    | error e t =>
      rw [hr] at ho
      cases ho with
      | noSlot p _ hs => exact absurd hs hslot

/-- **Exact block reference accounting**, after any calls with any arguments: `refs` counts are
exact, no table repeats a block, and neither `reset_slot` nor an eviction raises. -/
theorem run_blockAccounting {cfg : Config} {emptyK emptyV : Nat → Int × Nat → Row} {n : Nat}
    {c : PagedKVCache Tok Row} (h : initBatch cfg emptyK emptyV n = .ok c)
    (ops : List (Op Tok Row))
    (hash : CollisionFree chain PrefixCache.rootHash (chainsOf cfg.blockSize ops)) :
    BlockAccounting chain (run chain ops c) := by
  have hs := run_sound h hash (Set.Subset.refl (chainsOf cfg.blockSize ops))
  exact hs.accounted.blockAccounting fun b hb => hs.table_nodup hb

/-- A chain hash for the runs below. -/
def sumChain (parentHash : Int) (blockTokens : List Nat) : Int := parentHash + blockTokens.sum

/-- Two slots share the blocks of one prompt, and a second prompt evicts its entries. -/
def sharedRun : List (Op Nat Nat) :=
  [.tryLoadPrefix 0 [1, 2, 3, 4], .append 0 0 [1, 2, 3, 4] [1, 2, 3, 4],
    .registerPrefix 0 [1, 2, 3, 4], .tryLoadPrefix 1 [1, 2, 3, 4], .tryLoadPrefix 1 [1, 2, 3, 4],
    .resetSlot 0, .append 0 0 [5, 6, 7] [5, 6, 7], .registerPrefix 0 [5, 6, 7], .resetSlot 1,
    .resetSlot 7]

/-- Two slots of four positions each, two blocks a slot, and room for two entries. -/
def twoSlots : Config := ⟨1, 4, 2, true, 2⟩

theorem sharedRun_blockAccounting : ∃ c : PagedKVCache Nat Nat,
    initBatch twoSlots (fun _ _ => 0) (fun _ _ => 0) 2 = .ok c ∧
      BlockAccounting sumChain (run sumChain sharedRun c) := by
  obtain ⟨c, h⟩ : ∃ c : PagedKVCache Nat Nat,
    initBatch twoSlots (fun _ _ => 0) (fun _ _ => 0) 2 = .ok c := ⟨_, rfl⟩
  have hash : CollisionFree sumChain PrefixCache.rootHash (chainsOf twoSlots.blockSize sharedRun) :=
    collisionFree_of_inits (fun _ h => mem_chainsOf h) (by decide)
  exact ⟨c, h, run_blockAccounting h sharedRun hash⟩

/-! ## When the pool runs out -/

/-- The blocks of the slots' tables. -/
def liveBlocks (c : PagedKVCache Tok Row) : Finset Int := (c.tableRefs (range c.batchSize)).toFinset

/-- The blocks that only the prefix cache keeps alive. -/
def cachedOnly (c : PagedKVCache Tok Row) : Finset Int := c.prefixHeld.toFinset \ c.liveBlocks

/-- An append that fits in its slot does not find the pool exhausted. -/
def NotExhausted (c : PagedKVCache Tok Row) : Op Tok Row → Prop
  | .append batchIdx layerId key value =>
    ∀ b, pyIndex c.batchSize batchIdx = some b → c.pos b + key.length ≤ c.maxSeqLen →
      ∀ msg c', (append batchIdx layerId key value).run c ≠ .error (.blockPoolExhausted msg) c'
  | _ => True

/-- At an append that fits in its slot, the live blocks, the blocks only the prefix cache keeps and
the blocks the slot is short of fit in the pool. -/
def LeavesRoom (c : PagedKVCache Tok Row) : Op Tok Row → Prop
  | .append batchIdx _ key _ =>
    ∀ b, pyIndex c.batchSize batchIdx = some b → c.pos b + key.length ≤ c.maxSeqLen →
      c.liveBlocks.card + c.cachedOnly.card + c.missing b key.length ≤ c.numBlocks
  | _ => True

omit [DecidableEq Tok] in
/-- The free blocks are those neither a table nor the prefix cache holds. -/
theorem Accounted.free_length {c : PagedKVCache Tok Row} (h : c.Accounted) :
    c.allocator.free.length + (c.liveBlocks.card + c.cachedOnly.card) = c.numBlocks := by
  have hunion : c.refs.toFinset = c.liveBlocks ∪ c.cachedOnly := by
    rw [refs, Multiset.toFinset_add, liveBlocks, cachedOnly, liveBlocks, union_sdiff_self_eq_union]
  have hcard : c.refs.toFinset.card = c.liveBlocks.card + c.cachedOnly.card := by
    exact hunion ▸ card_union_of_disjoint disjoint_sdiff
  rw [← hcard, h.counts.free_add_card, h.numBlocks]

omit [DecidableEq Tok] in
/-- **One append that fits finds the pool exhausted exactly when too many blocks are held.** -/
theorem append_exhausted_iff {c : PagedKVCache Tok Row} (h : c.Accounted) {batchIdx : Int} {b : Nat}
    (hs : pyIndex c.batchSize batchIdx = some b) (layerId : Int) {key : List Row}
    (value : List Row) (hfit : c.pos b + key.length ≤ c.maxSeqLen) :
    (∃ msg c', (append batchIdx layerId key value).run c = .error (.blockPoolExhausted msg) c') ↔
      c.numBlocks < c.liveBlocks.card + c.cachedOnly.card + c.missing b key.length := by
  have hfree := h.free_length
  have ho := append_outcome h batchIdx layerId key value
  rw [hs] at ho
  constructor
  · rintro ⟨msg, c', he⟩
    rw [he] at ho
    cases ho with
    | exhausted b' new a msg hb _ _ hlt =>
      cases hb
      omega
    | broken b' new a k v e _ _ _ _ _ hne => exact absurd rfl (hne msg)
  · intro hlt
    cases hr : (append batchIdx layerId key value).run c with
    | ok x c' =>
      rw [hr] at ho
      cases ho with
      | done b' new a k v hb _ _ _ hle =>
        cases hb
        omega
    | error e c' =>
      rw [hr] at ho
      cases ho with
      | noSlot hn => cases hn
      | tooLong b' hb hlong => cases hb; omega
      | exhausted b' new a msg => exact ⟨msg, _, rfl⟩
      | broken b' new a k v e hb _ _ _ hle _ =>
        cases hb
        omega

omit [DecidableEq Tok] in
theorem notExhausted_iff {c : PagedKVCache Tok Row} (h : c.Accounted) (op : Op Tok Row) :
    NotExhausted c op ↔ LeavesRoom c op := by
  cases op with
  | append batchIdx layerId key value =>
    refine forall_congr' fun b => forall_congr' fun hs => forall_congr' fun hfit => ?_
    rw [← Nat.not_lt, ← append_exhausted_iff h hs layerId value hfit]
    exact ⟨fun hne ⟨msg, c', he⟩ => hne msg c' he, fun hne msg c' he => hne ⟨msg, c', he⟩⟩
  | tryLoadPrefix batchIdx tokenIds => exact Iff.rfl
  | registerPrefix batchIdx tokenIds => exact Iff.rfl
  | resetSlot batchIdx => exact Iff.rfl

/-- The state after one call. -/
def next (chain : Int → List Tok → Int) (c : PagedKVCache Tok Row) (op : Op Tok Row) :
    PagedKVCache Tok Row := Exec.after (call chain op) c

/-- **The pool runs out exactly where the held blocks leave no room**, the blocks that only the
prefix cache keeps alive included. -/
theorem neverExhausted_iff {cfg : Config} {emptyK emptyV : Nat → Int × Nat → Row} {n : Nat}
    {c : PagedKVCache Tok Row} (h : initBatch cfg emptyK emptyV n = .ok c)
    (ops : List (Op Tok Row)) :
    Exec.Along NotExhausted (next chain) c ops ↔ Exec.Along LeavesRoom (next chain) c ops :=
  Exec.along_congr (J := Accounted)
    (fun _ op hacc => ⟨notExhausted_iff hacc op, (call_stepped hacc op).accounted⟩)
    (initBatch_spec h).1

/-! ## A pool starved by completed prompts -/

/-- One slot of four positions, in one block. -/
def oneBlock : Config := ⟨1, 4, 4, true, 1024⟩

/-- A request with the prompt `1 2 3 4` is prefilled, registered and released, and a request
with the prompt `5 6 7 8` takes the slot. -/
def starvedRun : List (Op Nat Nat) :=
  [.tryLoadPrefix 0 [1, 2, 3, 4], .append 0 0 [1, 2, 3, 4] [1, 2, 3, 4],
    .registerPrefix 0 [1, 2, 3, 4], .resetSlot 0, .tryLoadPrefix 0 [5, 6, 7, 8], .resetSlot 0,
    .append 0 0 [5, 6, 7, 8] [5, 6, 7, 8]]

/-- **The second request finds the pool exhausted**: its only block is kept by the prefix cache. -/
theorem starved_not_neverExhausted : ∃ c : PagedKVCache Nat Nat,
    initBatch oneBlock (fun _ _ => 0) (fun _ _ => 0) 1 = .ok c ∧
      ¬Exec.Along NotExhausted (next sumChain) c starvedRun := by
  refine ⟨_, rfl, fun h => ?_⟩
  obtain ⟨-, -, -, -, -, -, hlast, -⟩ := h
  exact hlast 0 rfl (by decide) _ _ rfl

theorem starvedRun_neverExhausted_iff : ∃ c : PagedKVCache Nat Nat,
    initBatch oneBlock (fun _ _ => 0) (fun _ _ => 0) 1 = .ok c ∧
      (Exec.Along NotExhausted (next sumChain) c starvedRun ↔
        Exec.Along LeavesRoom (next sumChain) c starvedRun) := by
  obtain ⟨c, h⟩ : ∃ c : PagedKVCache Nat Nat,
    initBatch oneBlock (fun _ _ => 0) (fun _ _ => 0) 1 = .ok c := ⟨_, rfl⟩
  exact ⟨c, h, neverExhausted_iff h starvedRun⟩

end PagedKVCache

end Nifre
