import Nifre.Properties.PagedAccounting
import Nifre.Properties.PagedContents

/-!
# Prefix reuse is content-correct

Slots go through lifecycles: a prefix is loaded or the slot is reset, the rest of the prompt is
appended in chunks, layer by layer, the prompt is registered, tokens are decoded, the slot is
reset. The key and value of a token at a layer are a function `kvOf` of the tokens up to it.

The invariant of a run (`Inv`) says that every slot stores the rows of its tokens and every entry
of the prefix cache those of its block. A loaded prefix then reads back as if it had been computed.
-/

namespace Nifre

open Digest Finset

namespace PagedKVCache

variable {Tok Row : Type}

/-! ## Lifecycles -/

/-- A slot's request: its prompt, the tokens whose rows are readable, and the chunk of an
unfinished round with the layer that comes next. -/
structure Life (Tok : Type) where
  prompt : List Tok
  stored : List Tok
  round : Option (List Tok × Nat)

namespace Life

/-- The tokens whose rows are stored at a layer. -/
def held (ℓ : Life Tok) (l : Nat) : List Tok :=
  match ℓ.round with
  | none => ℓ.stored
  | some (chunk, next) => if l < next then ℓ.stored ++ chunk else ℓ.stored

/-- The append that comes next: a further chunk of the prompt or decoded tokens at layer `0`, or
the same chunk at the next layer. -/
def Next (ℓ : Life Tok) (chunk : List Tok) (layer : Nat) : Prop :=
  match ℓ.round with
  | none => layer = 0 ∧
      (ℓ.stored.length < ℓ.prompt.length → chunk <+: ℓ.prompt.drop ℓ.stored.length)
  | some (chunk', next) => chunk = chunk' ∧ layer = next

def appended (ℓ : Life Tok) (numLayers : Nat) (chunk : List Tok) (layer : Nat) : Life Tok :=
  if layer + 1 = numLayers then { ℓ with stored := ℓ.stored ++ chunk, round := none }
  else { ℓ with round := some (chunk, layer + 1) }

end Life

/-- A step of a lifecycle. -/
inductive Act (Tok : Type) where
  | begin (slot : Nat) (prompt : List Tok)
  | append (slot : Nat) (chunk : List Tok) (layer : Nat)
  | register (slot : Nat)
  | reset (slot : Nat)

structure System (Tok Row : Type) where
  cache : PagedKVCache Tok Row
  life : Nat → Option (Life Tok)

section

variable [DecidableEq Tok] (chain : Int → List Tok → Int) (kvOf : Nat → List Tok → Row × Row)

/-- `try_load_prefix`, else `reset_slot`. -/
def beginSlot (slot : Nat) (prompt : List Tok) : M Tok Row Nat := do
  let n ← tryLoadPrefix chain slot prompt
  if n = 0 then
    resetSlot slot
    pure 0
  else
    pure n

/-- One step. A call that raises leaves the cache as it is then, and the lifecycle where it was. -/
def System.step (s : System Tok Row) : Act Tok → System Tok Row
  | .begin slot prompt =>
    match (beginSlot chain slot prompt).run s.cache with
    | .ok n c => ⟨c, Function.update s.life slot (some ⟨prompt, prompt.take n, none⟩)⟩
    | .error _ c => { s with cache := c }
  | .append slot chunk layer =>
    match s.life slot with
    | none => s
    | some ℓ =>
      let kvs := chunkRows (kvOf layer) ℓ.stored chunk
      match (PagedKVCache.append slot layer (kvs.map Prod.fst) (kvs.map Prod.snd)).run s.cache with
      | .ok _ c =>
        ⟨c, Function.update s.life slot (some (ℓ.appended s.cache.numLayers chunk layer))⟩
      | .error _ c => { s with cache := c }
  | .register slot =>
    match s.life slot with
    | none => s
    | some ℓ => { s with cache := Exec.after (registerPrefix chain slot ℓ.prompt) s.cache }
  | .reset slot =>
    match (resetSlot slot).run s.cache with
    | .ok _ c => ⟨c, Function.update s.life slot none⟩
    | .error _ c => { s with cache := c }

def System.run (acts : List (Act Tok)) (s : System Tok Row) : System Tok Row :=
  acts.foldl (System.step chain kvOf) s

end

/-- The steps a lifecycle allows. -/
def System.Enabled (s : System Tok Row) : Act Tok → Prop
  | .begin slot _ => slot < s.cache.batchSize ∧ (s.life slot).isNone
  | .append slot chunk layer => slot < s.cache.batchSize ∧ layer < s.cache.numLayers ∧
      ∃ ℓ ∈ s.life slot, ℓ.Next chunk layer
  | .register slot => slot < s.cache.batchSize ∧
      ∃ ℓ ∈ s.life slot, ℓ.prompt.length ≤ ℓ.stored.length
  | .reset slot => slot < s.cache.batchSize

instance [DecidableEq Tok] (ℓ : Life Tok) (chunk : List Tok) (layer : Nat) :
    Decidable (ℓ.Next chunk layer) :=
  match h : ℓ.round with
  | none => decidable_of_iff (layer = 0 ∧ (ℓ.stored.length < ℓ.prompt.length →
      chunk <+: ℓ.prompt.drop ℓ.stored.length)) (by rw [Life.Next, h])
  | some (chunk', next) => decidable_of_iff (chunk = chunk' ∧ layer = next) (by rw [Life.Next, h])

instance [DecidableEq Tok] (s : System Tok Row) (act : Act Tok) : Decidable (s.Enabled act) :=
  match act with
  | .begin _ _ => inferInstanceAs (Decidable (_ ∧ _))
  | .append _ _ _ => inferInstanceAs (Decidable (_ ∧ _ ∧ _))
  | .register _ => inferInstanceAs (Decidable (_ ∧ _))
  | .reset _ => inferInstanceAs (Decidable (_ < _))

/-- The chains of the prompts that begin in a run. -/
def lifeChains (blockSize : Nat) (acts : List (Act Tok)) : Set (List (List Tok)) :=
  { blocks | ∃ slot prompt, .begin slot prompt ∈ acts ∧ blocks = fullBlocks blockSize prompt }

/-- The prompts of a run, as a list. -/
def beginPrompts (acts : List (Act Tok)) : List (List Tok) :=
  acts.filterMap fun
    | .begin _ prompt => some prompt
    | _ => none

theorem mem_lifeChains {blockSize : Nat} {acts : List (Act Tok)} {blocks : List (List Tok)}
    (h : blocks ∈ lifeChains blockSize acts) :
    blocks ∈ (beginPrompts acts).map (fullBlocks blockSize) := by
  obtain ⟨slot, prompt, hact, rfl⟩ := h
  exact List.mem_map.mpr ⟨prompt, List.mem_filterMap.mpr ⟨_, hact, rfl⟩, rfl⟩

/-! ## What lifecycles store -/

namespace Life

def rows (kvOf : Nat → List Tok → Row × Row) (ℓ : Life Tok) (l : Nat) : List (Row × Row) :=
  prefixRows (kvOf l) (ℓ.held l)

/-- One of two token lists continues the other. -/
def Follows (toks prompt : List Tok) : Prop := toks <+: prompt ∨ prompt <+: toks

theorem follows_append {stored chunk prompt : List Tok} (h : Follows stored prompt)
    (hc : stored.length < prompt.length → chunk <+: prompt.drop stored.length) :
    Follows (stored ++ chunk) prompt := by
  rcases h with h | h
  · by_cases hlt : stored.length < prompt.length
    · left
      obtain ⟨rest, hrest⟩ := h
      have hdrop : prompt.drop stored.length = rest := by rw [← hrest, List.drop_left]
      rw [← hrest, List.prefix_append_right_inj, ← hdrop]
      exact hc hlt
    · have he := h.eq_of_length (by have := h.length_le; omega)
      right
      rw [he]
      exact List.prefix_append prompt chunk
  · exact Or.inr (h.trans (List.prefix_append stored chunk))

theorem Follows.take {toks prompt : List Tok} (h : Follows toks prompt) {n : Nat}
    (hn : n ≤ prompt.length) (hn' : n ≤ toks.length) : toks.take n = prompt.take n := by
  rcases h with ⟨rest, rfl⟩ | ⟨rest, rfl⟩
  · rw [List.take_append_of_le_length hn']
  · rw [List.take_append_of_le_length hn]

/-- The tokens of a lifecycle continue its prompt. -/
structure OnPrompt (ℓ : Life Tok) : Prop where
  stored : Follows ℓ.stored ℓ.prompt
  round : ∀ chunk next, ℓ.round = some (chunk, next) → Follows (ℓ.stored ++ chunk) ℓ.prompt

theorem OnPrompt.appended {ℓ : Life Tok} (h : OnPrompt ℓ) {chunk : List Tok} {layer : Nat}
    (hn : ℓ.Next chunk layer) (numLayers : Nat) : OnPrompt (ℓ.appended numLayers chunk layer) := by
  have hchunk : Follows (ℓ.stored ++ chunk) ℓ.prompt := by
    unfold Next at hn
    cases hr : ℓ.round with
    | none =>
      rw [hr] at hn
      exact follows_append h.stored hn.2
    | some r =>
      obtain ⟨chunk', next⟩ := r
      rw [hr] at hn
      rw [hn.1]
      exact h.round chunk' next hr
  unfold Life.appended
  split
  · exact ⟨hchunk, nofun⟩
  · refine ⟨h.stored, ?_⟩
    intro chunk' next hr
    cases hr
    exact hchunk

/-- The layer of the next append does not have the chunk yet. -/
theorem Next.held {ℓ : Life Tok} {chunk : List Tok} {layer : Nat} (h : ℓ.Next chunk layer) :
    ℓ.held layer = ℓ.stored := by
  unfold Next at h
  unfold Life.held
  cases hr : ℓ.round with
  | none => rfl
  | some r =>
    obtain ⟨chunk', next⟩ := r
    rw [hr] at h
    exact if_neg (by omega)

/-- The layers before the next append have it. -/
theorem Next.held_before {ℓ : Life Tok} {chunk : List Tok} {layer l : Nat}
    (h : ℓ.Next chunk layer) (hl : l < layer) : ℓ.held l = ℓ.stored ++ chunk := by
  unfold Next at h
  unfold Life.held
  cases hr : ℓ.round with
  | none => rw [hr] at h; omega
  | some r =>
    obtain ⟨chunk', next⟩ := r
    rw [hr] at h
    obtain ⟨rfl, rfl⟩ := h
    exact if_pos hl

theorem Next.held_after {ℓ : Life Tok} {chunk : List Tok} {layer l : Nat}
    (h : ℓ.Next chunk layer) (hl : layer ≤ l) : ℓ.held l = ℓ.stored := by
  unfold Next at h
  unfold Life.held
  cases hr : ℓ.round with
  | none => rfl
  | some r =>
    obtain ⟨chunk', next⟩ := r
    rw [hr] at h
    exact if_neg (by omega)

/-- The rows after an append are those before it, longer at its layer. -/
theorem appended_rows {kvOf : Nat → List Tok → Row × Row} {ℓ : Life Tok} {chunk : List Tok}
    {layer numLayers : Nat} (h : ℓ.Next chunk layer) {l : Nat} (hl : l < numLayers) :
    (ℓ.appended numLayers chunk layer).rows kvOf l
      = appendRows (ℓ.rows kvOf) layer (chunkRows (kvOf layer) ℓ.stored chunk) l := by
  have hnew : (ℓ.appended numLayers chunk layer).held l
      = if l ≤ layer then ℓ.stored ++ chunk else ℓ.stored := by
    unfold Life.appended Life.held
    by_cases hlast : layer + 1 = numLayers
    · rw [if_pos hlast, if_pos (by omega)]
    · rw [if_neg hlast]
      simp only [Nat.lt_succ_iff]
  unfold Life.rows appendRows
  rw [hnew]
  by_cases hll : l = layer
  · subst hll
    rw [if_pos (Nat.le_refl l), Function.update_self]
    show _ = prefixRows (kvOf l) (ℓ.held l) ++ _
    rw [h.held, prefixRows_append]
  · rw [Function.update_of_ne hll]
    show _ = prefixRows (kvOf l) (ℓ.held l)
    by_cases hlt : l < layer
    · rw [if_pos (Nat.le_of_lt hlt), h.held_before hlt]
    · rw [if_neg (by omega), h.held_after (Nat.le_of_not_lt hlt)]

theorem appended_stored (ℓ : Life Tok) (numLayers : Nat) (chunk : List Tok) (layer : Nat) :
    (ℓ.appended numLayers chunk layer).stored
      = if layer + 1 = numLayers then ℓ.stored ++ chunk else ℓ.stored := by
  unfold Life.appended
  split <;> rfl

end Life

/-- The sequences only matter for the cache's layers. -/
theorem SlotStores.congr {c : PagedKVCache Tok Row} {b len : Nat}
    {rows rows' : Nat → List (Row × Row)} (h : SlotStores c b len rows)
    (he : ∀ l < c.numLayers, rows' l = rows l) : SlotStores c b len rows' where
  pos := h.pos
  len_le := fun l hl => he l hl ▸ h.len_le l hl
  cover := fun l hl => he l hl ▸ h.cover l hl
  rows := fun l hl => he l hl ▸ h.rows l hl
  nodup := h.nodup
  exclusive := h.exclusive

/-- What slot `b` holds for its lifecycle. -/
def LifeStores (kvOf : Nat → List Tok → Row × Row) (c : PagedKVCache Tok Row) (b : Nat) :
    Option (Life Tok) → Prop
  | none => c.tables b = [] ∧ SlotStores c b 0 fun _ => []
  | some ℓ => ℓ.OnPrompt ∧ SlotStores c b ℓ.stored.length (ℓ.rows kvOf)

/-- Every entry's block holds the rows of its tokens after those of the chain before it. -/
def EntryStores (chain : Int → List Tok → Int) (kvOf : Nat → List Tok → Row × Row)
    (P : Set (List (List Tok))) (c : PagedKVCache Tok Row) : Prop :=
  ∀ p, c.prefixCache = some p → ∀ key blk, (key, blk) ∈ p.entries.entries →
    ∃ before toks, key = (digest chain PrefixCache.rootHash before, toks) ∧
      InPlay P (before ++ [toks]) ∧ ∀ l < c.numLayers, ∀ j < c.blockSize,
        (c.k l (blk, j), c.v l (blk, j)) = kvOf l (before.flatten ++ toks.take (j + 1))

section

variable {kvOf : Nat → List Tok → Row × Row} {chain : Int → List Tok → Int}
  {P : Set (List (List Tok))} {c c' : PagedKVCache Tok Row}

/-- A step that leaves a slot's table, cursor and blocks leaves what it stores. -/
theorem LifeStores.other {b : Nat} {o : Option (Life Tok)} (h : LifeStores kvOf c b o)
    (ht : c'.tables b = c.tables b)
    (hs : ∀ len rows, SlotStores c b len rows → SlotStores c' b len rows) :
    LifeStores kvOf c' b o := by
  cases o with
  | none => exact ⟨ht.trans h.1, hs _ _ h.2⟩
  | some ℓ => exact ⟨h.1, hs _ _ h.2⟩

/-- Entries that were there before, over blocks that keep their rows. -/
theorem EntryStores.frame (h : EntryStores chain kvOf P c) (hshape : SameShape c c')
    (hsub : ∀ p', c'.prefixCache = some p' → ∃ p, c.prefixCache = some p ∧
      ∀ e ∈ p'.entries.entries, e ∈ p.entries.entries)
    (hmem : ∀ blk ∈ c.prefixHeld, SameBlock c c' blk) : EntryStores chain kvOf P c' := by
  intro p' hp' key blk hin
  obtain ⟨p, hp, hold⟩ := hsub p' hp'
  obtain ⟨before, toks, hkey, hplay, hrows⟩ := h p hp key blk (hold _ hin)
  have hblk := hmem blk (mem_prefixHeld.mpr ⟨p, hp, key, hold _ hin⟩)
  refine ⟨before, toks, hkey, hplay, ?_⟩
  rw [hshape.numLayers, hshape.blockSize]
  intro l hl j hj
  rw [(hblk l j).1, (hblk l j).2]
  exact hrows l hl j hj

end

/-- The invariant of a run of lifecycles. -/
structure Inv [DecidableEq Tok] (chain : Int → List Tok → Int) (kvOf : Nat → List Tok → Row × Row)
    (P : Set (List (List Tok))) (s : System Tok Row) : Prop where
  sound : Sound chain P s.cache
  slots : ∀ b < s.cache.batchSize, LifeStores kvOf s.cache b (s.life b)
  entries : EntryStores chain kvOf P s.cache
  prompts : ∀ b ℓ, s.life b = some ℓ → fullBlocks s.cache.blockSize ℓ.prompt ∈ P

section

variable [DecidableEq Tok] {kvOf : Nat → List Tok → Row × Row} {chain : Int → List Tok → Int}
  {P : Set (List (List Tok))}

/-! ## Loading -/

/-- **What a lookup finds is what the prompt's tokens store.** -/
theorem EntryStores.found {c : PagedKVCache Tok Row} (h : EntryStores chain kvOf P c)
    (hash : CollisionFree chain PrefixCache.rootHash P) {p : PrefixCache Tok}
    (hp : c.prefixCache = some p) (hbs : p.blockSize = c.blockSize) {prompt : List Tok}
    (hP : fullBlocks c.blockSize prompt ∈ P) {l q : Nat} (hl : l < c.numLayers)
    (hq : q < (p.found chain prompt).length * c.blockSize) :
    (c.k l (addr c.blockSize (p.found chain prompt) q),
      c.v l (addr c.blockSize (p.found chain prompt) q)) = kvOf l (prompt.take (q + 1)) := by
  have hpos : 0 < c.blockSize := hbs ▸ p.blockSize_pos
  have hi : q / c.blockSize < (p.found chain prompt).length :=
    Nat.div_lt_of_lt_mul (by rw [Nat.mul_comm]; exact hq)
  have hblk := addr_block hi
  have hmem := ChainedMap.matched_mem chain _ _ _ _ _ hblk
  rw [hbs] at hmem
  have hlt : q / c.blockSize < (fullBlocks c.blockSize prompt).length := by
    have := ChainedMap.matched_length_le chain p.entries (fullBlocks p.blockSize prompt)
      PrefixCache.rootHash
    rw [hbs] at this
    unfold PrefixCache.found at hi
    rw [hbs] at hi
    omega
  obtain ⟨before, toks, hkey, hplay, hrows⟩ := h p hp _ _ hmem
  have hdigest := (Prod.ext_iff.mp hkey).1
  have htoks : (fullBlocks c.blockSize prompt).getD (q / c.blockSize) [] = toks :=
    (Prod.ext_iff.mp hkey).2
  have hbefore := hash _ _ (InPlay.take hP _)
    (hplay.ofShorter (List.prefix_append before [toks])) hdigest
  have hrow := hrows l hl (q % c.blockSize) (Nat.mod_lt q hpos)
  rw [← hbefore, ← htoks, flatten_take_append_block (n := q % c.blockSize + 1) (by simpa using hlt) (Nat.mod_lt q hpos),
    ← Nat.add_assoc, Nat.div_add_mod'] at hrow
  exact hrow

/-- The slot after a hit. -/
theorem hit_slotStores {c : PagedKVCache Tok Row} (hsound : Sound chain P c)
    (h : EntryStores chain kvOf P c) (hash : CollisionFree chain PrefixCache.rootHash P)
    {p : PrefixCache Tok} (hp : c.prefixCache = some p) {prompt : List Tok}
    (hP : fullBlocks c.blockSize prompt ∈ P) {b : Nat} {a : BlockAllocator} :
    SlotStores { (c.touched chain p prompt).withTable b (p.found chain prompt) a with
        pos := Function.update c.pos b ((p.found chain prompt).length * p.blockSize) } b
      (prompt.take ((p.found chain prompt).length * p.blockSize)).length
      (Life.rows kvOf ⟨prompt, prompt.take ((p.found chain prompt).length * p.blockSize), none⟩) := by
  obtain ⟨-, hbs⟩ := hsound.accounted.entries p hp
  have hle : (p.found chain prompt).length * p.blockSize ≤ prompt.length := by
    have := ChainedMap.matched_length_le chain p.entries (fullBlocks p.blockSize prompt)
      PrefixCache.rootHash
    rw [length_fullBlocks] at this
    exact (Nat.mul_le_mul_right _ this).trans (Nat.div_mul_le_self _ _)
  have hlen : (prompt.take ((p.found chain prompt).length * p.blockSize)).length
      = (p.found chain prompt).length * p.blockSize := by
    rw [List.length_take, Nat.min_eq_left hle]
  rw [hlen]
  refine ⟨by simp, ?_, ?_, ?_, ?_, ?_⟩
  · intro l _
    simp only [Life.rows, Life.held, length_prefixRows, hlen, Nat.le_refl]
  · intro l _
    simp only [Life.rows, Life.held, length_prefixRows, hlen, withTable, Function.update_self]
    exact Nat.le_of_eq (by rw [hbs]; rfl)
  · intro l hl q hq
    simp only [Life.rows, Life.held, length_prefixRows, hlen] at hq
    simp only [withTable, Function.update_self]
    have hrow := h.found hash hp hbs hP hl (q := q) (by rwa [← hbs])
    simp only [Life.rows, Life.held, getElem_prefixRows, List.take_take,
      Nat.min_eq_left (show q + 1 ≤ (p.found chain prompt).length * p.blockSize from hq)]
    rw [← hrow]
    exact ⟨rfl, rfl⟩
  · simp only [withTable, Function.update_self]
    obtain ⟨place, hplace⟩ := hsound.placed
    rw [List.nodup_iff_getElem?_ne_getElem?]
    intro i j hij hj he
    rw [List.getElem?_eq_getElem hj] at he
    have h1 := hplace.found hash hp (hbs ▸ hP) he
    have h2 := hplace.found hash hp (hbs ▸ hP) (List.getElem?_eq_getElem hj)
    omega
  · -- a loaded prefix ends where its blocks end, so none of them is written again
    intro i blk hi hlt
    simp only [withTable, Function.update_self] at hi
    obtain ⟨hi', -⟩ := List.getElem?_eq_some_iff.mp hi
    have : (i + 1) * c.blockSize ≤ (p.found chain prompt).length * p.blockSize := by
      rw [hbs]; exact Nat.mul_le_mul_right _ hi'
    have hlt' : (p.found chain prompt).length * p.blockSize < (i + 1) * c.blockSize := hlt
    omega

/-- What a slot's step may do to the rest: other slots and the entries keep what they store. -/
structure StepKeeps (chain : Int → List Tok → Int) (kvOf : Nat → List Tok → Row × Row)
    (P : Set (List (List Tok))) (life : Nat → Option (Life Tok)) (b : Nat)
    (c c' : PagedKVCache Tok Row) : Prop where
  sound : Sound chain P c'
  shape : SameShape c c'
  others : ∀ i < c.batchSize, i ≠ b → LifeStores kvOf c' i (life i)
  entries : EntryStores chain kvOf P c'

/-- The invariant after a step of slot `b`. -/
theorem StepKeeps.inv {s : System Tok Row} (h : Inv chain kvOf P s) {b : Nat}
    {c' : PagedKVCache Tok Row} (hk : StepKeeps chain kvOf P s.life b s.cache c')
    {o : Option (Life Tok)} (hb : LifeStores kvOf c' b o)
    (hP : ∀ ℓ, o = some ℓ → fullBlocks s.cache.blockSize ℓ.prompt ∈ P) :
    Inv chain kvOf P ⟨c', Function.update s.life b o⟩ where
  sound := hk.sound
  slots := by
    intro i hi
    by_cases hib : i = b
    · subst hib
      simp only [Function.update_self]
      exact hb
    · simp only [Function.update_of_ne hib]
      exact hk.others i (hk.shape.batchSize ▸ hi) hib
  entries := hk.entries
  prompts := by
    intro i ℓ hℓ
    show fullBlocks c'.blockSize ℓ.prompt ∈ P
    rw [hk.shape.blockSize]
    by_cases hib : i = b
    · subst hib
      simp only [Function.update_self] at hℓ
      exact hP ℓ hℓ
    · simp only [Function.update_of_ne hib] at hℓ
      exact h.prompts i ℓ hℓ

/-- A lookup only reorders the entries. -/
theorem touched_keeps {c : PagedKVCache Tok Row} {p : PrefixCache Tok} (hp : c.prefixCache = some p)
    {prompt : List Tok} {b len : Nat} {rows : Nat → List (Row × Row)}
    (h : SlotStores c b len rows) : SlotStores (c.touched chain p prompt) b len rows := by
  refine h.frame ⟨rfl, rfl, rfl, rfl, rfl, by rw [hp]; rfl⟩ rfl rfl (fun _ _ _ _ => ⟨rfl, rfl⟩) ?_
  intro i blk _ _ hnot hin
  refine hnot (mem_otherRefs.mpr ((mem_otherRefs.mp hin).imp id ?_))
  rw [touched_prefixHeld hp]
  exact id

theorem EntryStores.touched {c : PagedKVCache Tok Row} (h : EntryStores chain kvOf P c)
    {p : PrefixCache Tok} (hp : c.prefixCache = some p) (prompt : List Tok) :
    EntryStores chain kvOf P (c.touched chain p prompt) := by
  refine h.frame ⟨rfl, rfl, rfl, rfl, rfl, by rw [hp]; rfl⟩ ?_ (fun _ _ _ _ => ⟨rfl, rfl⟩)
  intro p' hp'
  cases hp'
  exact ⟨p, hp, fun e he => (p.lookup_entries_perm chain prompt).mem_iff.mp he⟩

omit [DecidableEq Tok] in
/-- Importing blocks of the prefix cache takes nothing away from another slot. -/
theorem SlotStores.imported_other {c : PagedKVCache Tok Row} {b i len : Nat}
    {rows : Nat → List (Row × Row)} (h : SlotStores c i len rows) (hne : i ≠ b)
    {blocks : List Int} (hheld : ∀ blk ∈ blocks, blk ∈ c.prefixHeld) {a : BlockAllocator} {n : Nat} :
    SlotStores { c.withTable b blocks a with pos := Function.update c.pos b n } i len rows := by
  refine h.frame ⟨rfl, rfl, rfl, rfl, rfl, rfl⟩ (by simp [withTable, hne]) (by simp [hne])
    (fun _ _ _ _ => ⟨rfl, rfl⟩) ?_
  intro j blk _ _ hnot hin
  refine hnot (mem_otherRefs.mpr ?_)
  rcases mem_otherRefs.mp hin with ⟨m, hm, hmi, hmem⟩ | hmem
  · by_cases hmb : m = b
    · subst hmb
      exact Or.inr (hheld blk (by simpa [withTable] using hmem))
    · exact Or.inl ⟨m, hm, hmi, by simpa [withTable, hmb] using hmem⟩
  · exact Or.inr hmem

/-- **Loading into an empty slot**: either nothing is loaded, or the prefix is stored. -/
theorem load_keeps {s : System Tok Row} (h : Inv chain kvOf P s)
    (hash : CollisionFree chain PrefixCache.rootHash P) {b : Nat} (hb : b < s.cache.batchSize)
    (hfree : s.life b = none) {prompt : List Tok} (hP : fullBlocks s.cache.blockSize prompt ∈ P) :
    ∃ n c', (tryLoadPrefix chain b prompt).run s.cache = .ok n c' ∧
      StepKeeps chain kvOf P s.life b s.cache c' ∧ (n = 0 → c'.tables b = []) ∧
      (n ≠ 0 → LifeStores kvOf c' b (some ⟨prompt, prompt.take n, none⟩)) := by
  have hslot := h.slots b hb
  rw [hfree] at hslot
  obtain ⟨htab, -⟩ := hslot
  have ho := tryLoadPrefix_outcome chain h.sound.accounted (b : Int) prompt
  rw [pyIndex_natCast hb] at ho
  have hafter := after_load chain b prompt s.cache
  obtain ⟨hsound, hshape⟩ := h.sound.call hash (.tryLoadPrefix b prompt) fun t ht => by
    cases ht; exact hP
  cases hr : (tryLoadPrefix chain b prompt).run s.cache with
  | error e c' =>
    rw [hr] at ho
    cases ho with
    | noSlot p _ _ hs => cases hs
    | busy p b' _ _ hs ht => cases hs; exact absurd htab ht
  | ok n c' =>
    rw [hafter, Exec.after_of_ok hr] at hsound hshape
    rw [hr] at ho
    cases ho with
    | disabled _ =>
      exact ⟨0, _, rfl, ⟨hsound, hshape, fun i hi _ => h.slots i hi, h.entries⟩, fun _ => htab,
        fun hn => absurd rfl hn⟩
    | miss p hp _ =>
      exact ⟨0, _, rfl, ⟨hsound, hshape, fun i hi _ =>
        (h.slots i hi).other rfl fun _ _ => touched_keeps hp, h.entries.touched hp prompt⟩,
        fun _ => htab, fun hn => absurd rfl hn⟩
    | hit p b' a hp hne hs _ _ _ hheld =>
      cases hs
      have hheld' : ∀ blk ∈ p.found chain prompt, blk ∈ (s.cache.touched chain p prompt).prefixHeld := by
        rw [touched_prefixHeld hp]
        exact hheld
      refine ⟨_, _, rfl, ⟨hsound, hshape, ?_, ?_⟩, ?_, ?_⟩
      · intro i hi hib
        refine (h.slots i hi).other (by simp [withTable, touched, hib]) fun _ _ hslot => ?_
        exact (touched_keeps hp hslot).imported_other hib hheld'
      · exact (h.entries.touched hp prompt).frame ⟨rfl, rfl, rfl, rfl, rfl, rfl⟩
          (fun p' hp' => ⟨p', hp', fun _ he => he⟩) (fun _ _ _ _ => ⟨rfl, rfl⟩)
      · intro hn
        exact absurd hn (Nat.mul_ne_zero (by simpa using hne) (Nat.pos_iff_ne_zero.mp p.blockSize_pos))
      · intro _
        exact ⟨⟨Or.inl (List.take_prefix _ _), fun _ _ h => by cases h⟩, hit_slotStores h.sound h.entries hash hp hP⟩

/-- **Resetting a slot** leaves it empty. -/
theorem reset_keeps {life : Nat → Option (Life Tok)} {c : PagedKVCache Tok Row}
    (hsound : Sound chain P c) (hash : CollisionFree chain PrefixCache.rootHash P) {b : Nat}
    (hb : b < c.batchSize) (hothers : ∀ i < c.batchSize, i ≠ b → LifeStores kvOf c i (life i))
    (hentries : EntryStores chain kvOf P c) :
    ∃ c', (resetSlot b).run c = .ok () c' ∧ StepKeeps chain kvOf P life b c c' ∧
      c'.tables b = [] ∧ SlotStores c' b 0 fun _ => [] := by
  obtain ⟨a, hr, -⟩ := resetSlot_run hsound.accounted hb (hsound.table_nodup hb)
  obtain ⟨hs, hshape⟩ := hsound.call hash (.resetSlot b) fun t ht => by cases ht
  have hafter : Exec.after (call chain (.resetSlot b)) c = c.cleared b a := Exec.after_of_ok hr
  rw [hafter] at hs hshape
  refine ⟨_, hr, ⟨hs, hshape, ?_, ?_⟩, by simp [cleared, withTable], slotStores_cleared⟩
  · intro i hi hib
    exact (hothers i hi hib).other (by simp [cleared, withTable, hib])
      fun _ _ hslot => hslot.cleared_other hib
  · exact hentries.frame ⟨rfl, rfl, rfl, rfl, rfl, rfl⟩ (fun p' hp' => ⟨p', hp', fun _ he => he⟩)
      (fun _ _ _ _ => ⟨rfl, rfl⟩)

omit [DecidableEq Tok] in
theorem StepKeeps.trans {life : Nat → Option (Life Tok)} {b : Nat} {c c' c'' : PagedKVCache Tok Row}
    (h : StepKeeps chain kvOf P life b c c') (h' : StepKeeps chain kvOf P life b c' c'') :
    StepKeeps chain kvOf P life b c c'' where
  sound := h'.sound
  shape := h.shape.trans h'.shape
  others := fun i hi => h'.others i (h.shape.batchSize ▸ hi)
  entries := h'.entries

omit [DecidableEq Tok] in
/-- The empty life of a slot that loaded nothing. -/
theorem lifeStores_nothing {c : PagedKVCache Tok Row} {b : Nat} (h : SlotStores c b 0 fun _ => [])
    (prompt : List Tok) : LifeStores kvOf c b (some ⟨prompt, prompt.take 0, none⟩) := by
  refine ⟨⟨Or.inl (List.take_prefix _ _), nofun⟩, ?_⟩
  simp only [List.take_zero, List.length_nil]
  exact h.congr fun l _ => by simp [Life.rows, Life.held, prefixRows]

/-- **A slot that begins** stores the prefix it loaded, and nothing if it loaded none. -/
theorem beginSlot_keeps {s : System Tok Row} (h : Inv chain kvOf P s)
    (hash : CollisionFree chain PrefixCache.rootHash P) {b : Nat} (hb : b < s.cache.batchSize)
    (hfree : s.life b = none) {prompt : List Tok} (hP : fullBlocks s.cache.blockSize prompt ∈ P) :
    ∃ n c', (beginSlot chain b prompt).run s.cache = .ok n c' ∧
      StepKeeps chain kvOf P s.life b s.cache c' ∧
      LifeStores kvOf c' b (some ⟨prompt, prompt.take n, none⟩) := by
  obtain ⟨n, c₁, hr, hk, hzero, hpos⟩ := load_keeps h hash hb hfree hP
  by_cases hn : n = 0
  · subst hn
    have hb₁ : b < c₁.batchSize := hk.shape.batchSize.symm ▸ hb
    obtain ⟨c₂, hr₂, hk₂, -, hs₂⟩ := reset_keeps hk.sound hash hb₁
      (fun i hi => hk.others i (hk.shape.batchSize ▸ hi)) hk.entries
    refine ⟨0, c₂, ?_, hk.trans hk₂, lifeStores_nothing hs₂ prompt⟩
    unfold beginSlot
    rw [Exec.run_bind_ok hr, if_pos rfl, Exec.run_bind_ok hr₂]
    rfl
  · refine ⟨n, c₁, ?_, hk, hpos hn⟩
    unfold beginSlot
    rw [Exec.run_bind_ok hr, if_neg hn]
    rfl

/-! ## Appending -/

omit [DecidableEq Tok] in
/-- A slot stores its rows and those of the chunk, after the append of its layer. -/
theorem appended_lifeStores {c : PagedKVCache Tok Row} {b layer : Nat} {ℓ : Life Tok}
    (hbs : 0 < c.blockSize) (hb : b < c.batchSize)
    (h : LifeStores kvOf c b (some ℓ)) {chunk : List Tok} (hn : ℓ.Next chunk layer)
    {new : List Int} {a : BlockAllocator} (hg : Growth c b new a)
    (hnew : new.length = c.missing b (chunkRows (kvOf layer) ℓ.stored chunk).length) :
    LifeStores kvOf (c.appended b layer new a (chunkRows (kvOf layer) ℓ.stored chunk)) b
      (some (ℓ.appended c.numLayers chunk layer)) := by
  obtain ⟨hon, hslot⟩ := h
  refine ⟨hon.appended hn _, ?_⟩
  have hlen : (ℓ.rows kvOf layer).length = ℓ.stored.length := by
    rw [Life.rows, length_prefixRows, hn.held]
  have hself := hslot.appended_self hbs hb hg hnew hlen fun _ l hlt => by
    rw [Life.rows, length_prefixRows, hn.held_before hlt, List.length_append, length_chunkRows]
  have hstored : (ℓ.appended c.numLayers chunk layer).stored.length
      = if layer + 1 = c.numLayers
        then ℓ.stored.length + (chunkRows (kvOf layer) ℓ.stored chunk).length
        else ℓ.stored.length := by
    rw [Life.appended_stored]
    split
    · rw [List.length_append, length_chunkRows]
    · rfl
  rw [hstored]
  exact hself.congr fun l hlt => Life.appended_rows hn hlt

/-- **An append** extends what its slot stores, or raises and leaves it as it was. -/
theorem append_keeps {s : System Tok Row} (h : Inv chain kvOf P s)
    (hash : CollisionFree chain PrefixCache.rootHash P) {b layer : Nat}
    (hb : b < s.cache.batchSize) (hl : layer < s.cache.numLayers) {ℓ : Life Tok}
    (hlife : s.life b = some ℓ) {chunk : List Tok} (hn : ℓ.Next chunk layer) :
    Inv chain kvOf P (s.step chain kvOf (.append b chunk layer)) ∧
      SameShape s.cache (s.step chain kvOf (.append b chunk layer)).cache := by
  have hbs := h.sound.accounted.blockSize_pos
  have hslot := h.slots b hb
  rw [hlife] at hslot
  have hother : ∀ i < s.cache.batchSize, i ≠ b → ∀ c' : PagedKVCache Tok Row,
      c'.tables i = s.cache.tables i →
      (∀ len rows, SlotStores s.cache i len rows → SlotStores c' i len rows) →
      LifeStores kvOf c' i (s.life i) := fun i hi _ c' ht hs => (h.slots i hi).other ht hs
  set kvs := chunkRows (kvOf layer) ℓ.stored chunk with hkvs
  obtain ⟨hsound, hshape⟩ := h.sound.call hash
    (.append b layer (kvs.map Prod.fst) (kvs.map Prod.snd)) fun t ht => by cases ht
  have hafter : Exec.after (call chain (.append b layer (kvs.map Prod.fst)
    (kvs.map Prod.snd))) s.cache = Exec.after (PagedKVCache.append b layer (kvs.map Prod.fst)
    (kvs.map Prod.snd)) s.cache := rfl
  rw [hafter] at hsound hshape
  have hstep : s.step chain kvOf (.append b chunk layer)
      = match (PagedKVCache.append b layer (kvs.map Prod.fst) (kvs.map Prod.snd)).run s.cache with
        | .ok _ c =>
          ⟨c, Function.update s.life b (some (ℓ.appended s.cache.numLayers chunk layer))⟩
        | .error _ c => { s with cache := c } := by
    simp only [System.step, hlife, hkvs]
  have hP : ∀ ℓ', some ℓ = some ℓ' → fullBlocks s.cache.blockSize ℓ'.prompt ∈ P := by
    intro ℓ' he
    cases he
    exact h.prompts b ℓ hlife
  have hsame : Function.update s.life b (some ℓ) = s.life := by
    rw [← hlife, Function.update_eq_self]
  rcases append_cases h.sound.accounted hb hl kvs with ⟨e, hr⟩ | ⟨new, a, e, hg, hr⟩ |
    ⟨new, a, hg, hnew, hr⟩
  · rw [hstep, hr]
    exact ⟨h, SameShape.refl _⟩
  · rw [Exec.after_of_error hr] at hsound hshape
    rw [hstep, hr]
    refine ⟨?_, hshape⟩
    have hk : StepKeeps chain kvOf P s.life b s.cache (s.cache.grown b new a) := by
      refine ⟨hsound, hshape, fun i hi hib => hother i hi hib _ (by simp [grown, withTable, hib])
        fun _ _ hs => hs.grown_other hg hi hib, ?_⟩
      exact h.entries.frame ⟨rfl, rfl, rfl, rfl, rfl, rfl⟩ (fun p' hp' => ⟨p', hp', fun _ he => he⟩)
        (fun _ _ _ _ => ⟨rfl, rfl⟩)
    have hinv := hk.inv h (o := some ℓ) ⟨hslot.1, hslot.2.grown_self hb hg⟩ hP
    rw [hsame] at hinv
    exact hinv
  · rw [Exec.after_of_ok hr] at hsound hshape
    rw [hstep, hr]
    refine ⟨?_, hshape⟩
    have hk : StepKeeps chain kvOf P s.life b s.cache (s.cache.appended b layer new a kvs) := by
      refine ⟨hsound, hshape, fun i hi hib => hother i hi hib _
        (by simp [appended, withTable, hib])
        fun _ _ hs => hslot.2.appended_other hbs hb hg hnew hi hib hs, ?_⟩
      refine h.entries.frame appended_shape (fun p' hp' => ⟨p', hp', fun _ he => he⟩) ?_
      exact fun blk hblk => appended_frame hbs hb hslot.2 hg hnew
        (mem_otherRefs.mpr (Or.inr hblk))
    -- whether the round is complete or not, the prompt is the same
    refine hk.inv h (appended_lifeStores hbs hb hslot hn hg hnew) ?_
    intro ℓ' he
    cases he
    have hprompt : (ℓ.appended s.cache.numLayers chunk layer).prompt = ℓ.prompt := by
      unfold Life.appended
      split <;> rfl
    rw [hprompt]
    exact h.prompts b ℓ hlife

/-! ## Registering -/

omit [DecidableEq Tok] in
/-- The blocks of a stored prompt hold the rows of its tokens. -/
theorem LifeStores.prompt_rows {c : PagedKVCache Tok Row} {b : Nat} {ℓ : Life Tok}
    (h : LifeStores kvOf c b (some ℓ))
    (hfull : ℓ.prompt.length ≤ ℓ.stored.length) {l q : Nat} (hl : l < c.numLayers)
    (hq : q < ℓ.prompt.length) :
    (c.k l (addr c.blockSize (c.tables b) q), c.v l (addr c.blockSize (c.tables b) q))
      = kvOf l (ℓ.prompt.take (q + 1)) := by
  obtain ⟨hon, hslot⟩ := h
  have hheld : ∃ more, ℓ.held l = ℓ.stored ++ more := by
    unfold Life.held
    split
    · exact ⟨[], (List.append_nil _).symm⟩
    · split
      · exact ⟨_, rfl⟩
      · exact ⟨[], (List.append_nil _).symm⟩
  obtain ⟨more, hmore⟩ := hheld
  have hlen : q < (ℓ.rows kvOf l).length := by
    rw [Life.rows, length_prefixRows, hmore, List.length_append]
    omega
  obtain ⟨hk, hv⟩ := hslot.rows l hl q hlen
  rw [hk, hv]
  simp only [Life.rows, getElem_prefixRows, hmore, Prod.mk.eta]
  rw [List.take_append_of_le_length (by omega), hon.stored.take hq (by omega)]

/-- **Registering a stored prompt** adds entries for its blocks. -/
theorem register_keeps {s : System Tok Row} (h : Inv chain kvOf P s)
    (hash : CollisionFree chain PrefixCache.rootHash P) {b : Nat} (hb : b < s.cache.batchSize)
    {ℓ : Life Tok} (hlife : s.life b = some ℓ) (hfull : ℓ.prompt.length ≤ ℓ.stored.length) :
    Inv chain kvOf P (s.step chain kvOf (.register b)) ∧
      SameShape s.cache (s.step chain kvOf (.register b)).cache := by
  have hbs := h.sound.accounted.blockSize_pos
  have hslot := h.slots b hb
  rw [hlife] at hslot
  have hP := h.prompts b ℓ hlife
  have hstep : s.step chain kvOf (.register b)
      = { s with cache := Exec.after (registerPrefix chain b ℓ.prompt) s.cache } := by
    simp only [System.step, hlife]
  obtain ⟨hsound, hshape⟩ := h.sound.call hash (.registerPrefix b ℓ.prompt)
    fun t ht => by cases ht; exact hP
  have hafter : Exec.after (call chain (.registerPrefix b ℓ.prompt)) s.cache
      = Exec.after (registerPrefix chain b ℓ.prompt) s.cache := rfl
  rw [hafter] at hsound hshape
  have ho := registerPrefix_outcome chain h.sound.accounted (b : Int) ℓ.prompt
  rw [pyIndex_natCast hb] at ho
  rw [hstep]
  cases hr : (registerPrefix chain b ℓ.prompt).run s.cache with
  | error e c' =>
    rw [hr] at ho
    cases ho with
    | noSlot p _ hs => cases hs
  | ok x c' =>
    rw [Exec.after_of_ok hr] at hsound hshape ⊢
    rw [hr] at ho
    cases ho with
    | disabled _ => exact ⟨h, SameShape.refl _⟩
    | inserted p b' sh hp hs hi =>
      cases hs
      obtain ⟨-, hbsize⟩ := h.sound.accounted.entries p hp
      -- a new entry's block is a whole block of the stored prompt
      have hblock : ∀ i blk, i < (fullBlocks p.blockSize ℓ.prompt).length →
          (s.cache.tables b)[i]? = some blk → (i + 1) * s.cache.blockSize ≤ ℓ.prompt.length :=
        fun i blk hlt _ => by
          rw [length_fullBlocks, hbsize] at hlt
          exact block_end_le hlt
      refine ⟨⟨hsound, ?_, ?_, ?_⟩, hshape⟩
      · intro i hib
        refine (h.slots i hib).other rfl fun len rows hslot' => ?_
        refine hslot'.frame hshape rfl rfl (fun _ _ _ _ => ⟨rfl, rfl⟩) ?_
        intro m blk hm hlt hnot hin
        rcases mem_otherRefs.mp hin with hin | hin
        · exact hnot (mem_otherRefs.mpr (Or.inl hin))
        · obtain ⟨p', hp', key, hmem⟩ := mem_prefixHeld.mp hin
          cases hp'
          rcases hi.entries key blk hmem with hold | ⟨j, hj, -, hjb⟩
          · exact hnot (mem_otherRefs.mpr (Or.inr (mem_prefixHeld.mpr ⟨p, hp, key, hold⟩)))
          · by_cases hib' : i = b
            · subst hib'
              have hend := hblock j blk hj hjb
              obtain ⟨hm', hmeq⟩ := List.getElem?_eq_some_iff.mp hm
              obtain ⟨hj', hjeq⟩ := List.getElem?_eq_some_iff.mp hjb
              have hmj := (hslot'.nodup.getElem_inj_iff).mp (hmeq.trans hjeq.symm)
              subst hmj
              rw [← hslot'.pos, hslot.2.pos] at hlt
              omega
            · exact hnot (mem_otherRefs.mpr (Or.inl ⟨b, hb, fun he => hib' he.symm,
                List.mem_of_getElem? hjb⟩))
      · intro p' hp' key blk hmem
        cases hp'
        rcases hi.entries key blk hmem with hold | ⟨j, hj, rfl, hjb⟩
        · exact h.entries p hp key blk hold
        · rw [hbsize] at hj ⊢
          refine ⟨_, _, rfl, keyAt_inPlay hP hj, ?_⟩
          intro l hl off hoff
          have hend := hblock j blk (by rw [hbsize]; exact hj) hjb
          rw [Nat.succ_mul] at hend
          have hrow := hslot.prompt_rows hfull hl
            (show j * s.cache.blockSize + off < ℓ.prompt.length from
              Nat.lt_of_lt_of_le (Nat.add_lt_add_left hoff _) hend)
          have haddr : addr s.cache.blockSize (s.cache.tables b) (j * s.cache.blockSize + off)
              = (blk, off) := by
            unfold addr
            rw [Nat.mul_comm, Nat.mul_add_div hbs, Nat.div_eq_of_lt hoff, Nat.add_zero,
              Nat.mul_add_mod, Nat.mod_eq_of_lt hoff, List.getD_eq_getElem?_getD, hjb]
            rfl
          rw [haddr] at hrow
          rw [flatten_take_append_block (by simpa using hj) hoff]
          exact hrow
      · intro i ℓ' hℓ'
        exact hshape.blockSize ▸ h.prompts i ℓ' hℓ'

/-! ## Runs -/

/-- The chain that a step brings into play. -/
def Act.InPlay (blockSize : Nat) (P : Set (List (List Tok))) : Act Tok → Prop
  | .begin _ prompt => fullBlocks blockSize prompt ∈ P
  | _ => True

/-- **Every step of a lifecycle keeps the invariant.** -/
theorem step_inv {s : System Tok Row} (h : Inv chain kvOf P s)
    (hash : CollisionFree chain PrefixCache.rootHash P) {act : Act Tok} (hen : s.Enabled act)
    (hP : act.InPlay s.cache.blockSize P) :
    Inv chain kvOf P (s.step chain kvOf act) ∧
      SameShape s.cache (s.step chain kvOf act).cache := by
  cases act with
  | begin slot prompt =>
    obtain ⟨hb, hfree⟩ := hen
    obtain ⟨n, c', hr, hk, hlife⟩ :=
      beginSlot_keeps h hash hb (Option.isNone_iff_eq_none.mp hfree) hP
    have hstep : s.step chain kvOf (.begin slot prompt)
        = ⟨c', Function.update s.life slot (some ⟨prompt, prompt.take n, none⟩)⟩ := by
      simp only [System.step, hr]
    rw [hstep]
    exact ⟨hk.inv h hlife fun ℓ he => by cases he; exact hP, hk.shape⟩
  | append slot chunk layer =>
    obtain ⟨hb, hl, ℓ, hlife, hnext⟩ := hen
    exact append_keeps h hash hb hl hlife hnext
  | register slot =>
    obtain ⟨hb, ℓ, hlife, hfull⟩ := hen
    exact register_keeps h hash hb hlife hfull
  | reset slot =>
    obtain ⟨c', hr, hk, ht, hs⟩ := reset_keeps h.sound hash hen (fun i hi _ => h.slots i hi) h.entries
    have hstep : s.step chain kvOf (.reset slot) = ⟨c', Function.update s.life slot none⟩ := by
      simp only [System.step, hr]
    rw [hstep]
    exact ⟨hk.inv h ⟨ht, hs⟩ nofun, hk.shape⟩

end

/-- The block is held by an entry of the prefix cache or by another slot's table. -/
def HeldElsewhere (c : PagedKVCache Tok Row) (b : Nat) (blk : Int) : Prop :=
  (∃ i < c.batchSize, i ≠ b ∧ blk ∈ c.tables i) ∨
    ∃ p, c.prefixCache = some p ∧ ∃ key, (key, blk) ∈ p.entries.entries

theorem heldElsewhere_iff {c : PagedKVCache Tok Row} {b : Nat} {blk : Int} :
    HeldElsewhere c b blk ↔ blk ∈ c.otherRefs b := by
  rw [mem_otherRefs, mem_prefixHeld]
  rfl

/-- An append changes no block held elsewhere, and stores every row in a block of its own. -/
structure WritesOwn (c c' : PagedKVCache Tok Row) (b n : Nat) : Prop where
  held : ∀ blk, HeldElsewhere c b blk → SameBlock c c' blk
  own : ∀ j < n, ∀ at_, BlockTable.resolve (c'.tables b) c'.blockSize (c.pos b + j) = .ok at_ →
    ¬HeldElsewhere c' b at_.1

/-- Blocks at or after the cursor are the slot's own. -/
theorem SlotStores.own {c : PagedKVCache Tok Row} {b len : Nat} {rows : Nat → List (Row × Row)}
    (h : SlotStores c b len rows) (hbs : 0 < c.blockSize) {j : Nat} {at_ : Int × Nat}
    (hr : BlockTable.resolve (c.tables b) c.blockSize (len + j) = .ok at_) :
    at_.1 ∉ c.otherRefs b := by
  unfold BlockTable.resolve at hr
  cases hblk : (c.tables b)[(len + j) / c.blockSize]? with
  | none => rw [hblk] at hr; cases hr
  | some blk =>
    rw [hblk] at hr
    cases hr
    exact h.exclusive _ _ hblk (lt_next_block hbs)

/-- **Whatever rows it is given, an append writes blocks of its own slot only.** -/
theorem append_writesOwn {c : PagedKVCache Tok Row} (hacc : c.Accounted) {b l len : Nat}
    {rows : Nat → List (Row × Row)} (h : SlotStores c b len rows) (hb : b < c.batchSize)
    (hl : l < c.numLayers) (kvs : List (Row × Row)) :
    WritesOwn c (Exec.after (append (b : Int) (l : Int) (kvs.map Prod.fst) (kvs.map Prod.snd)) c)
      b kvs.length := by
  have hbs := hacc.blockSize_pos
  rcases append_cases hacc hb hl kvs with ⟨e, hr⟩ | ⟨new, a, e, hg, hr⟩ | ⟨new, a, hg, hnew, hr⟩
  · rw [Exec.after_of_error hr]
    refine ⟨fun _ _ _ _ => ⟨rfl, rfl⟩, fun j _ at_ hat => ?_⟩
    rw [h.pos] at hat
    exact fun hc => h.own hbs hat (heldElsewhere_iff.mp hc)
  · rw [Exec.after_of_error hr]
    refine ⟨fun _ _ _ _ => ⟨rfl, rfl⟩, fun j _ at_ hat => ?_⟩
    rw [h.pos] at hat
    exact fun hc => (h.grown_self hb hg).own hbs hat (heldElsewhere_iff.mp hc)
  · rw [Exec.after_of_ok hr]
    refine ⟨fun blk hblk => appended_frame hbs hb h hg hnew (heldElsewhere_iff.mp hblk),
      fun j _ at_ hat hc => ?_⟩
    rw [h.pos, appended_table] at hat
    unfold BlockTable.resolve at hat
    cases hblk : (c.tables b ++ new)[(len + j) / c.blockSize]? with
    | none =>
      have hnone : (c.tables b ++ new)[(len + j) / (c.appended b l new a kvs).blockSize]? = none :=
        hblk
      rw [hnone] at hat
      cases hat
    | some blk =>
      have hsome : (c.tables b ++ new)[(len + j) / (c.appended b l new a kvs).blockSize]?
          = some blk := hblk
      rw [hsome] at hat
      cases hat
      exact h.appended_exclusive hg hblk (lt_next_block hbs) (heldElsewhere_iff.mp hc)

variable [DecidableEq Tok] {kvOf : Nat → List Tok → Row × Row} {chain : Int → List Tok → Int}

/-- What is promised of a step: a loaded prefix reads back, in every layer, as the rows of its
tokens, and an append writes only blocks that nobody else holds. -/
def System.StepSafe (chain : Int → List Tok → Int) (kvOf : Nat → List Tok → Row × Row)
    (s : System Tok Row) : Act Tok → Prop
  | .begin slot prompt => ∃ n c', (tryLoadPrefix chain slot prompt).run s.cache = .ok n c' ∧
      (0 < n → ∀ l < s.cache.numLayers, (get slot l).run c'
        = .ok ((prefixRows (kvOf l) (prompt.take n)).map Prod.fst,
          (prefixRows (kvOf l) (prompt.take n)).map Prod.snd) c')
  | .append slot chunk layer => ∀ kvs : List (Row × Row), kvs.length = chunk.length →
      WritesOwn s.cache (Exec.after (PagedKVCache.append (slot : Int) (layer : Int)
        (kvs.map Prod.fst) (kvs.map Prod.snd)) s.cache) slot chunk.length
  | _ => True

theorem Inv.stepSafe {P : Set (List (List Tok))} {s : System Tok Row} (h : Inv chain kvOf P s)
    (hash : CollisionFree chain PrefixCache.rootHash P) {act : Act Tok} (hen : s.Enabled act)
    (hP : act.InPlay s.cache.blockSize P) : s.StepSafe chain kvOf act := by
  cases act with
  | begin slot prompt =>
    obtain ⟨hb, hfree⟩ := hen
    obtain ⟨n, c', hr, hk, -, hpos⟩ :=
      load_keeps h hash hb (Option.isNone_iff_eq_none.mp hfree) hP
    refine ⟨n, c', hr, fun hn l hl => ?_⟩
    obtain ⟨-, hslot⟩ := hpos (Nat.pos_iff_ne_zero.mp hn)
    rw [get_slotStores hk.sound.accounted.blockSize_pos hslot (hk.shape.batchSize.symm ▸ hb)
      (hk.shape.numLayers.symm ▸ hl)]
    have hrows : (Life.rows kvOf ⟨prompt, prompt.take n, none⟩ l).take (prompt.take n).length
        = prefixRows (kvOf l) (prompt.take n) := by
      simp only [Life.rows, Life.held]
      exact List.take_of_length_le (by simp)
    rw [hrows]
  | append slot chunk layer =>
    obtain ⟨hb, hl, ℓ, hlife, -⟩ := hen
    intro kvs hlen
    have hslot := h.slots slot hb
    rw [Option.mem_def.mp hlife] at hslot
    rw [← hlen]
    exact append_writesOwn h.sound.accounted hslot.2 hb hl kvs
  | register slot => trivial
  | reset slot => trivial

theorem initBatch_inv {cfg : Config} {emptyK emptyV : Nat → Int × Nat → Row} {n : Nat}
    {c : PagedKVCache Tok Row} (h : initBatch cfg emptyK emptyV n = .ok c)
    (P : Set (List (List Tok))) : Inv chain kvOf P ⟨c, fun _ => none⟩ := by
  obtain ⟨-, -, -, -, -, -, ht, hpos, -, he⟩ := initBatch_spec h
  refine ⟨initBatch_sound h chain P, fun b _ => ⟨ht b, slotStores_empty (ht b) (hpos b)⟩, ?_, nofun⟩
  intro p hp key blk hmem
  rw [he p hp] at hmem
  cases hmem

/-- **Prefix reuse is content-correct.** In every run of lifecycles, over all slots and in any
order, with eviction and block reuse in between: a loaded prefix reads back as if it had been
computed, and no append writes a block that the prefix cache or another slot holds. -/
theorem prefix_reuse {cfg : Config} {emptyK emptyV : Nat → Int × Nat → Row} {n : Nat}
    {c : PagedKVCache Tok Row} (h : initBatch cfg emptyK emptyV n = .ok c) {acts : List (Act Tok)}
    (hash : CollisionFree chain PrefixCache.rootHash (lifeChains cfg.blockSize acts))
    (hen : Exec.Along System.Enabled (System.step chain kvOf) ⟨c, fun _ => none⟩ acts) :
    Exec.Along (System.StepSafe chain kvOf) (System.step chain kvOf) ⟨c, fun _ => none⟩ acts := by
  obtain ⟨-, -, -, -, hbs, -⟩ := initBatch_spec h
  have hP : ∀ act ∈ acts, act.InPlay cfg.blockSize (lifeChains cfg.blockSize acts) := by
    intro act hact
    cases act with
    | begin slot prompt => exact ⟨slot, prompt, hact, rfl⟩
    | _ => trivial
  refine Exec.Along.of_invariant
    (J := fun s => Inv chain kvOf (lifeChains cfg.blockSize acts) s ∧
      s.cache.blockSize = cfg.blockSize) ?_ ⟨initBatch_inv h _, hbs⟩ (hen.and_mem hP)
  rintro s act ⟨hinv, hsize⟩ ⟨henabled, hplay⟩
  have hplay' : act.InPlay s.cache.blockSize (lifeChains cfg.blockSize acts) := by
    rw [hsize]
    exact hplay
  obtain ⟨hinv', hshape⟩ := step_inv hinv hash henabled hplay'
  exact ⟨hinv.stepSafe hash henabled hplay', hinv', hshape.blockSize.trans hsize⟩

/-- Two blocks a slot, room for two entries. -/
def reuseConfig : Config := ⟨2, 4, 2, true, 2⟩

/-- A prompt is stored by one slot, reused by another while the first still decodes, and evicted
by a third. -/
def reuseRun : List (Act Nat) :=
  [.begin 0 [1, 2, 3], .append 0 [1, 2] 0, .append 0 [1, 2] 1, .append 0 [3] 0, .append 0 [3] 1,
    .register 0, .begin 1 [1, 2, 4], .append 0 [9] 0, .append 1 [4] 0, .append 1 [4] 1,
    .append 0 [9] 1, .register 1, .reset 0, .begin 0 [5, 6, 7, 8], .append 0 [5, 6, 7, 8] 0,
    .append 0 [5, 6, 7, 8] 1, .register 0, .reset 1]

/-- A key and a value that depend on the layer and on all tokens. -/
def sumRows (l : Nat) (toks : List Nat) : Nat × Nat := (toks.sum + l, toks.length)

theorem reuseRun_safe : ∃ c : PagedKVCache Nat Nat,
    initBatch reuseConfig (fun _ _ => 0) (fun _ _ => 0) 2 = .ok c ∧
      Exec.Along (System.StepSafe sumChain sumRows) (System.step sumChain sumRows)
        ⟨c, fun _ => none⟩ reuseRun := by
  obtain ⟨c, h⟩ : ∃ c : PagedKVCache Nat Nat,
    initBatch reuseConfig (fun _ _ => 0) (fun _ _ => 0) 2 = .ok c := ⟨_, rfl⟩
  have hash : CollisionFree sumChain PrefixCache.rootHash
      (lifeChains reuseConfig.blockSize reuseRun) :=
    collisionFree_of_inits (fun _ hc => mem_lifeChains hc) (by decide)
  have hen : Exec.Along System.Enabled (System.step sumChain sumRows) ⟨c, fun _ => none⟩
      reuseRun := by
    cases h
    decide +kernel
  exact ⟨c, h, prefix_reuse h hash hen⟩

end PagedKVCache

end Nifre
