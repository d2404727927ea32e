import Nifre.Properties.PagedContents
import Nifre.Properties.DenseContents
import Nifre.Properties.Offsets
import Nifre.Properties.HfServing

/-!
# The write cursors of the three caches

What each method does to the slots, from any state of a run and on either exit. `Native` is what
holds of the cache in such a state: it is of the model's kind and size, and a slot has the blocks
that its tokens need. A method works on one slot at most; the others are as they were
(`SameSlots`), and so is what a load would restore of a prompt, unless a prompt is registered.
-/

namespace Nifre

variable {Row Score : Type} {chain : Int → List Nat → Int}

/-- What the cache keeps of a slot, apart from the rows. -/
@[ext]
structure Slot (Row : Type) where
  cursor : Nat
  table : List Int
  past : Option (Past Row)

namespace Slot

def empty : Slot Row := ⟨0, [], none⟩

/-- How many blocks a slot is short of for `n` more tokens. -/
def missing (blockSize n : Nat) (s : Slot Row) : Nat :=
  BlockTable.blocksNeeded blockSize (s.cursor + n) - s.table.length

end Slot

/-- A slot has the blocks that its tokens need. -/
def PagedKVCache.Covered (c : PagedKVCache Nat Row) : Prop :=
  ∀ b, BlockTable.blocksNeeded c.blockSize (c.pos b) ≤ (c.tables b).length

/-- What a lookup of a prompt returns, when it finds something. -/
def BlockPrefixCache.layersFound (chain : Int → List Nat → Int) (p : BlockPrefixCache Nat Row)
    (prompt : List Nat) : Except PyError (Past Row) :=
  (List.range ((p.found chain prompt).headD []).length).mapM (catLayer (p.found chain prompt))

namespace KVCacheType

def slot : KVCacheType Row → Nat → Slot Row
  | dense c, b => ⟨c.pos b, [], none⟩
  | paged c, b => ⟨c.pos b, c.tables b, none⟩
  | hf c, b => ⟨c.pos b, [], c.past b⟩

/-- The write cursor of a slot. -/
def cursor (c : KVCacheType Row) (b : Nat) : Nat := (c.slot b).cursor

/-- The tokens of a block, if there are blocks. -/
def blockSize : KVCacheType Row → Nat
  | paged c => c.blockSize
  | _ => 0

def missing (b n : Nat) (c : KVCacheType Row) : Nat := (c.slot b).missing c.blockSize n

def freeBlocks : KVCacheType Row → Nat
  | paged c => c.allocator.free.length
  | _ => 0

/-- No block is in the slot's table twice. -/
def Unrepeated (b : Nat) (c : KVCacheType Row) : Prop := (c.slot b).table.Nodup

instance (b : Nat) : DecidablePred (Unrepeated b : KVCacheType Row → Prop) :=
  fun c => inferInstanceAs (Decidable (c.slot b).table.Nodup)

/-- What the prefix cache has of a prompt, as the slot that it is loaded into. -/
def restored (chain : Int → List Nat → Int) (prompt : List Nat) : KVCacheType Row → Slot Row
  | dense _ => .empty
  | paged c =>
    match c.prefixCache with
    | none => .empty
    | some p => ⟨(p.found chain prompt).length * p.blockSize, p.found chain prompt, none⟩
  | hf c =>
    match c.prefixCache with
    | none => .empty
    | some p =>
      match p.layersFound chain prompt with
      | .ok (layer :: layers) =>
        if layer.keys = [] then .empty else ⟨layer.keys.length, [], some (layer :: layers)⟩
      | _ => .empty

/-- A cache of the model, with `size` slots, as it is between two calls of its methods. -/
def Native (model : InferenceModel Row Score) (size : Nat) : KVCacheType Row → Prop
  | dense c => model.makeKvCache = none ∧ c.batchSize = size ∧
    c.numLayers = model.config.numLayers ∧ c.maxSeqLen = model.config.maxSeqLen
  | paged c => model.makeKvCache = none ∧ c.batchSize = size ∧
    c.numLayers = model.config.numLayers ∧ c.maxSeqLen = model.config.maxSeqLen ∧
    c.Accounted ∧ c.Covered
  | hf c => model.makeKvCache.isSome = true ∧ c.batchSize = size ∧
    c.maxSeqLen = model.config.maxSeqLen ∧ c.Short

variable {model : InferenceModel Row Score} {size : Nat} {c c' : KVCacheType Row} {b : Nat}

theorem Native.batchSize (h : c.Native model size) : c.batchSize = size := by
  cases c with
  | dense c => exact h.2.1
  | paged c => exact h.2.1
  | hf c => exact h.2.1

theorem Native.short (h : c.Native model size) : c.Short := by
  rintro c p rfl hp
  exact h.2.2.2 p hp

/-- **The length of a slot** is its cursor. -/
theorem length_run (h : c.Native model size) (hb : b < size) :
    (length (b : Int)).run c = .ok (c.cursor b) c := by
  rw [← h.batchSize] at hb
  cases c with
  | dense c =>
    refine congrArg (Exec.embed dense) (?_ : (KVCache.length (b : Int)).run c = .ok (c.pos b) c)
    unfold KVCache.length
    rw [Exec.run_bind_ok (KVCache.slotOf_run hb)]
    rfl
  | paged c =>
    refine congrArg (Exec.embed paged)
      (?_ : (PagedKVCache.length (b : Int)).run c = .ok (c.pos b) c)
    unfold PagedKVCache.length
    rw [Exec.run_bind_ok (PagedKVCache.slotOf_run (pyIndex_natCast hb))]
    rfl
  | hf c =>
    refine congrArg (Exec.embed hf) (?_ : (HFKVCache.length (b : Int)).run c = .ok (c.pos b) c)
    unfold HFKVCache.length
    rw [Exec.run_bind_ok (HFKVCache.slotOf_run hb)]
    rfl

/-! ## The slots that a method leaves alone -/

/-- The slots apart from those in `busy` are as they were. -/
structure SameSlots (busy : List Nat) (c c' : KVCacheType Row) : Prop where
  blockSize : c'.blockSize = c.blockSize
  slot : ∀ i ∉ busy, c'.slot i = c.slot i

namespace SameSlots

variable {busy busy' : List Nat} {c'' : KVCacheType Row} {i : Nat}

theorem refl (c : KVCacheType Row) : SameSlots busy c c := ⟨rfl, fun _ _ => rfl⟩

theorem trans (h : SameSlots busy c c') (h' : SameSlots busy c' c'') : SameSlots busy c c'' :=
  ⟨h'.blockSize.trans h.blockSize, fun i hi => (h'.slot i hi).trans (h.slot i hi)⟩

theorem mono (h : SameSlots busy c c') (hle : ∀ i ∈ busy, i ∈ busy') : SameSlots busy' c c' :=
  ⟨h.blockSize, fun i hi => h.slot i fun hb => hi (hle i hb)⟩

theorem cursor (h : SameSlots busy c c') (hi : i ∉ busy) : c'.cursor i = c.cursor i :=
  congrArg Slot.cursor (h.slot i hi)

theorem missing (h : SameSlots busy c c') (hi : i ∉ busy) (n : Nat) :
    c'.missing i n = c.missing i n := by
  rw [KVCacheType.missing, KVCacheType.missing, h.blockSize, h.slot i hi]

theorem unrepeated (h : SameSlots busy c c') (hi : i ∉ busy) :
    c'.Unrepeated i ↔ c.Unrepeated i := by
  rw [Unrepeated, Unrepeated, h.slot i hi]

/-- Nothing is done to any slot. -/
theorem cursor_eq (h : SameSlots [] c c') : c'.cursor = c.cursor :=
  funext fun _ => h.cursor List.not_mem_nil

end SameSlots

end KVCacheType

/-! ## The paged cache -/

namespace PagedKVCache

variable {c c' : PagedKVCache Nat Row} {b : Nat}

/-- A slot changes its table and its cursor together. -/
theorem Covered.update (h : c.Covered) {t : List Int} {n : Nat}
    (hsize : c'.blockSize = c.blockSize) (htables : c'.tables = Function.update c.tables b t)
    (hpos : c'.pos = Function.update c.pos b n)
    (ht : BlockTable.blocksNeeded c.blockSize n ≤ t.length) : c'.Covered := by
  intro i
  rw [hsize, htables, hpos]
  by_cases he : i = b
  · subst he
    rw [Function.update_self, Function.update_self]
    exact ht
  · rw [Function.update_of_ne he, Function.update_of_ne he]
    exact h i

/-- A table grows. -/
theorem Covered.grow (h : c.Covered) {new : List Int} (hsize : c'.blockSize = c.blockSize)
    (htables : c'.tables = Function.update c.tables b (c.tables b ++ new)) (hpos : c'.pos = c.pos) :
    c'.Covered :=
  h.update (n := c.pos b) hsize htables (by rw [hpos, Function.update_eq_self])
    ((h b).trans (by simp))

/-- With tokens in a slot there is a block for the first of them. -/
theorem Covered.table_ne_nil (h : c.Covered) (hbs : 0 < c.blockSize) (hb : 0 < c.pos b) :
    c.tables b ≠ [] := by
  intro hnil
  have hneed := h b
  rw [hnil, List.length_nil] at hneed
  have := (BlockTable.blocksNeeded_le_iff hbs).mp hneed
  omega

theorem sameSlots_update {t : List Int} {n : Nat} (hsize : c'.blockSize = c.blockSize)
    (htables : c'.tables = Function.update c.tables b t)
    (hpos : c'.pos = Function.update c.pos b n) :
    KVCacheType.SameSlots [b] (.paged c) (.paged c') := by
  refine ⟨hsize, fun i hi => ?_⟩
  have hne : i ≠ b := fun he => hi (List.mem_singleton.mpr he)
  simp only [KVCacheType.slot, htables, hpos, Function.update_of_ne hne]

theorem sameSlots_of_eq (hsize : c'.blockSize = c.blockSize) (htables : c'.tables = c.tables)
    (hpos : c'.pos = c.pos) : KVCacheType.SameSlots [] (.paged c) (.paged c') :=
  ⟨hsize, fun i _ => by simp only [KVCacheType.slot, htables, hpos]⟩

/-- What one call of a method leaves of a model's cache. -/
theorem Stepped.native {model : InferenceModel Row Score} {size : Nat}
    {prompt : Option (List Nat)} (h : (KVCacheType.paged c).Native model size)
    (hstep : Stepped chain c c' prompt) (hcovered : c'.Covered) :
    (KVCacheType.paged c').Native model size := by
  obtain ⟨hkind, hsize, hlayers, hmax, -, -⟩ := h
  exact ⟨hkind, hstep.shape.batchSize.trans hsize, hstep.shape.numLayers.trans hlayers,
    hstep.shape.maxSeqLen.trans hmax, hstep.accounted, hcovered⟩

/-! ### Free blocks -/

/-- Where fewer blocks are held, more are free. -/
theorem free_le_of_refs (h : c.Accounted) (h' : c'.Accounted)
    (hnum : c'.allocator.numBlocks = c.allocator.numBlocks)
    (hrefs : ∀ blk ∈ c'.refs, blk ∈ c.refs) :
    c.allocator.free.length ≤ c'.allocator.free.length := by
  have hbefore := h.counts.free_add_card
  have hafter := h'.counts.free_add_card
  have hle : c'.refs.toFinset.card ≤ c.refs.toFinset.card :=
    Finset.card_le_card fun blk hblk =>
      Multiset.mem_toFinset.mpr (hrefs blk (Multiset.mem_toFinset.mp hblk))
  omega

/-- A slot that had no blocks got blocks that the prefix cache holds, or none. -/
theorem free_eq_of_update (h : c.Accounted) (h' : c'.Accounted) (hb : b < c.batchSize)
    (hnum : c'.allocator.numBlocks = c.allocator.numBlocks) (hsize : c'.batchSize = c.batchSize)
    {t : List Int} (htables : c'.tables = Function.update c.tables b t)
    (hheld : c'.prefixHeld = c.prefixHeld) (ht : ∀ blk ∈ t, blk ∈ c.prefixHeld)
    (hempty : c.tables b = []) : c'.allocator.free.length = c.allocator.free.length := by
  have hrefs := refs_update c' htables hsize hheld hb
  have hold := refs_split c hb
  rw [hempty, Multiset.coe_nil, zero_add] at hold
  refine Nat.le_antisymm (free_le_of_refs h' h hnum.symm fun blk hblk => ?_)
    (free_le_of_refs h h' hnum fun blk hblk => ?_)
  · rw [hrefs]
    exact Multiset.mem_add.mpr (Or.inr (hold ▸ hblk))
  · rw [hrefs] at hblk
    rw [hold]
    rcases Multiset.mem_add.mp hblk with hblk | hblk
    · exact mem_otherRefs.mpr (Or.inr (ht blk hblk))
    · exact hblk

end PagedKVCache

/-! ## What a lookup finds -/

namespace PrefixCache

theorem lookupLoop_matched (bs : Nat) (blocks' : List (List Nat)) (h' : Int) :
    ∀ (blocks : List (List Nat)) (h : Int) (entries : OrderedDict (CacheKey Nat) Int) (n : Nat)
      (acc : List Int), ChainedMap.matched chain (lookupLoop chain bs blocks h entries n acc).2
        blocks' h' = ChainedMap.matched chain entries blocks' h'
  | [], _, _, _, _ => rfl
  | b :: rest, h, entries, n, acc => by
    rw [lookupLoop]
    split
    · rfl
    · rw [lookupLoop_matched bs blocks' h' rest, ChainedMap.matched_moveToEnd]

/-- A lookup changes the order of the entries, and not what is found. -/
theorem found_lookup (p : PrefixCache Nat) (prompt prompt' : List Nat) :
    (p.lookup chain prompt).2.found chain prompt' = p.found chain prompt' :=
  lookupLoop_matched p.blockSize (Digest.fullBlocks p.blockSize prompt') rootHash
    (Digest.fullBlocks p.blockSize prompt) rootHash p.entries 0 []

end PrefixCache

namespace BlockPrefixCache

variable {p p' : BlockPrefixCache Nat Row}

theorem lookupLoop_matched (blocks' : List (List Nat)) (h' : Int) :
    ∀ (blocks : List (List Nat)) (h : Int) (entries : OrderedDict (Int × List Nat) (Past Row))
      (acc : List (Past Row)), ChainedMap.matched chain (lookupLoop chain blocks h entries acc).2
        blocks' h' = ChainedMap.matched chain entries blocks' h'
  | [], _, _, _ => rfl
  | b :: rest, h, entries, acc => by
    rw [lookupLoop]
    split
    · rfl
    · rw [lookupLoop_matched blocks' h' rest, ChainedMap.matched_moveToEnd]

variable (chain) in
/-- **A lookup** returns the layers that are found, and leaves what is found. -/
theorem lookup_layers (p : BlockPrefixCache Nat Row) (prompt : List Nat) :
    (∀ prompt', (Exec.after (lookup chain prompt) p).layersFound chain prompt'
      = p.layersFound chain prompt') ∧
    match (lookup chain prompt).run p with
    | .ok none _ => p.layersFound chain prompt = .ok []
    | .ok (some layers) _ => p.layersFound chain prompt = .ok layers
    | .error _ _ => True := by
  have hsame : ∀ (p' : BlockPrefixCache Nat Row), p'.blockSize = p.blockSize →
      p'.entries = (lookupLoop chain ((Digest.fullBlocks p.blockSize prompt).take
        ((prompt.length - 1) / p.blockSize)) rootHash p.entries []).2 →
      ∀ prompt', p'.layersFound chain prompt' = p.layersFound chain prompt' := by
    intro p' hsize hentries prompt'
    have hfound : p'.found chain prompt' = p.found chain prompt' := by
      unfold found
      rw [hsize, hentries, lookupLoop_matched]
    rw [layersFound, layersFound, hfound]
  have hmatched := (lookupLoop_eq chain ((Digest.fullBlocks p.blockSize prompt).take
    ((prompt.length - 1) / p.blockSize)) rootHash p.entries []).1
  have hfound : [] ++ ChainedMap.matched chain p.entries
      ((Digest.fullBlocks p.blockSize prompt).take ((prompt.length - 1) / p.blockSize)) rootHash
        = p.found chain prompt := List.nil_append _
  rw [hfound] at hmatched
  unfold lookup
  rw [Exec.after_bind, EStateM.run_get, Exec.run_bind_ok (EStateM.run_get p)]
  simp only
  by_cases hzero : p.blockSize = 0
  · rw [if_pos hzero]
    exact ⟨fun _ => rfl, trivial⟩
  rw [if_neg hzero]
  simp only [hmatched]
  cases hf : p.found chain prompt with
  | nil =>
    refine ⟨hsame _ rfl rfl, ?_⟩
    show p.layersFound chain prompt = .ok []
    rw [layersFound, hf]
    rfl
  | cons first rest =>
    have hlayers : p.layersFound chain prompt
        = (List.range first.length).mapM (catLayer (first :: rest)) := by
      rw [layersFound, hf]
      rfl
    simp only
    rw [Exec.after_bind, EStateM.run_set, Exec.run_bind_ok (EStateM.run_set _ p)]
    simp only
    split
    · exact ⟨hsame _ rfl rfl, trivial⟩
    · next all hall => exact ⟨hsame _ rfl rfl, hlayers.trans hall⟩

end BlockPrefixCache

/-! ## The Hugging Face cache -/

namespace HFKVCache

variable {c : HFKVCache Nat Row} {b : Nat}

theorem sameSlots_store (c : HFKVCache Nat Row) (b : Nat) (past : Option (Past Row)) (n : Nat) :
    KVCacheType.SameSlots [b] (.hf c) (.hf (c.store b past n)) := by
  refine ⟨rfl, fun i hi => ?_⟩
  have hne : i ≠ b := fun he => hi (List.mem_singleton.mpr he)
  simp only [KVCacheType.slot, store, Function.update_of_ne hne]

theorem slot_store (c : HFKVCache Nat Row) (b : Nat) (past : Option (Past Row)) (n : Nat) :
    (KVCacheType.hf (c.store b past n)).slot b = ⟨n, [], past⟩ := by
  simp only [KVCacheType.slot, store, Function.update_self]

theorem restored_prefixCache {p p' : BlockPrefixCache Nat Row} (hp : c.prefixCache = some p)
    (h : ∀ prompt, p'.layersFound chain prompt = p.layersFound chain prompt) (prompt : List Nat) :
    (KVCacheType.hf { c with prefixCache := some p' }).restored chain prompt
      = (KVCacheType.hf c).restored chain prompt := by
  simp only [KVCacheType.restored, hp, h]

variable (chain) in
/-- The ways a load ends, as far as slots are concerned. -/
theorem tryLoadPrefix_stores (c : HFKVCache Nat Row) (hb : b < c.batchSize) (prompt : List Nat) :
    ∃ p, (∀ prompt', (KVCacheType.hf { c with prefixCache := p }).restored chain prompt'
        = (KVCacheType.hf c).restored chain prompt') ∧
      match (tryLoadPrefix chain (b : Int) prompt).run c with
      | .ok n c' => (n = 0 ∧ (KVCacheType.hf c).restored chain prompt = .empty ∧
          c' = { c with prefixCache := p }) ∨
        ∃ layer layers, n = layer.keys.length ∧
          c' = ({ c with prefixCache := p } : HFKVCache Nat Row).store b
            (some (layer :: layers)) n ∧
          (KVCacheType.hf c).restored chain prompt = if layer.keys = [] then .empty
            else ⟨layer.keys.length, [], some (layer :: layers)⟩
      | .error _ c' => c' = { c with prefixCache := p } := by
  unfold tryLoadPrefix
  rw [Exec.run_bind_ok (EStateM.run_get c)]
  cases hp : c.prefixCache with
  | none =>
    refine ⟨none, fun _ => by simp only [KVCacheType.restored, hp], Or.inl ⟨rfl, ?_, ?_⟩⟩
    · simp only [KVCacheType.restored, hp]
    · rw [← hp]
  | some p =>
    simp only
    obtain ⟨hsame, hfound⟩ := p.lookup_layers chain prompt
    unfold Exec.after at hsame
    cases hlookup : (BlockPrefixCache.lookup chain prompt).run p with
    | error e q =>
      have hrun : (onPrefixCache p (BlockPrefixCache.lookup chain prompt)).run c
          = .error e { c with prefixCache := some q } := Exec.run_within_error hlookup
      rw [hlookup] at hsame
      rw [Exec.run_bind_error hrun]
      exact ⟨some q, restored_prefixCache hp hsame, rfl⟩
    | ok result q =>
      have hrun : (onPrefixCache p (BlockPrefixCache.lookup chain prompt)).run c
          = .ok result { c with prefixCache := some q } := Exec.run_within_ok hlookup
      rw [hlookup] at hsame hfound
      rw [Exec.run_bind_ok hrun]
      refine ⟨some q, restored_prefixCache hp hsame, ?_⟩
      match result with
      | none =>
        refine Or.inl ⟨rfl, ?_, rfl⟩
        simp only at hfound
        simp only [KVCacheType.restored, hp, hfound]
      | some [] => rfl
      | some (layer :: layers) =>
        have hslot : (slotOf (b : Int)).run { c with prefixCache := some q }
            = .ok b { c with prefixCache := some q } := slotOf_run hb
        simp only at hfound ⊢
        rw [Exec.run_bind_ok hslot]
        refine Or.inr ⟨layer, layers, rfl, rfl, ?_⟩
        simp only [KVCacheType.restored, hp, hfound]

/-- Registering a prompt changes the prefix cache at most. -/
theorem registerPrefix_after (c : HFKVCache Nat Row) (prompt : List Nat) :
    ∃ p, Exec.after (registerPrefix chain (b : Int) prompt) c = { c with prefixCache := p } := by
  set I : HFKVCache Nat Row → Prop := fun c' => ∃ p, c' = { c with prefixCache := p } with hI
  have hslot : Exec.Keeps I (slotOf (b : Int) : M Nat Row Nat) := by
    refine Exec.Keeps.get_bind fun c' h => ?_
    split <;> exact h
  have hkeeps : Exec.Keeps I (registerPrefix chain (b : Int) prompt) := by
    refine Exec.Keeps.get_bind fun c' h => ?_
    split
    · exact h
    · refine hslot.bind (fun b' => ?_) c' h
      split
      · exact Exec.Keeps.pure ()
      · refine Exec.Keeps.within fun s hs => ?_
        obtain ⟨p, rfl⟩ := hs
        exact ⟨_, rfl⟩
  exact hkeeps c ⟨c.prefixCache, rfl⟩

end HFKVCache

/-! ## reset_slot -/

namespace KVCacheType

variable {model : InferenceModel Row Score} {size : Nat} {c c' : KVCacheType Row} {b : Nat}

/-- Nothing is restored when no tokens are. -/
theorem restored_eq_empty {prompt : List Nat} (h : (c.restored chain prompt).cursor = 0) :
    c.restored chain prompt = .empty := by
  cases c with
  | dense c => rfl
  | paged c =>
    cases hp : c.prefixCache with
    | none => simp only [restored, hp]
    | some p =>
      simp only [restored, hp] at h ⊢
      have hnil : p.found chain prompt = [] := List.length_eq_zero_iff.mp
        ((Nat.mul_eq_zero.mp h).resolve_right (Nat.pos_iff_ne_zero.mp p.blockSize_pos))
      rw [hnil, List.length_nil, Nat.zero_mul]
      rfl
  | hf c =>
    cases hp : c.prefixCache with
    | none => simp only [restored, hp]
    | some p =>
      simp only [restored, hp] at h ⊢
      split at h
      · split at h
        · next hnil => rw [if_pos hnil]
        · next hne => exact absurd (List.length_eq_zero_iff.mp h) hne
      · rfl

/-- What a reset of slot `b` leaves. -/
structure Reset (model : InferenceModel Row Score) (size : Nat) (c : KVCacheType Row) (b : Nat)
    (c' : KVCacheType Row) : Prop where
  native : c'.Native model size
  same : SameSlots [b] c c'
  slot : c'.slot b = .empty
  restored : ∀ chain prompt, c'.restored chain prompt = c.restored chain prompt
  free : c.freeBlocks ≤ c'.freeBlocks
  free_eq : (c.slot b).table = [] → c'.freeBlocks = c.freeBlocks
  clear : c.Unrepeated b

theorem Reset.unrepeated (h : Reset model size c b c') {i : Nat} (hi : c.Unrepeated i) :
    c'.Unrepeated i := by
  by_cases he : i = b
  · subst he
    rw [Unrepeated, h.slot]
    exact List.nodup_nil
  · exact (h.same.unrepeated fun hb => he (List.mem_singleton.mp hb)).mpr hi

/-- **A slot is reset**, unless a block is in its table twice. -/
theorem resetSlot_cases (h : c.Native model size) (hb : b < size) :
    (∃ c', (resetSlot (b : Int)).run c = .ok () c' ∧ Reset model size c b c') ∨
    ¬c.Unrepeated b ∧ ∃ e, (resetSlot (b : Int)).run c = .error e c := by
  cases c with
  | dense c =>
    obtain ⟨hkind, rfl, hsizes⟩ := h
    have hrun : (KVCache.resetSlot (b : Int)).run c
        = .ok () { c with pos := Function.update c.pos b 0 } := by
      unfold KVCache.resetSlot
      rw [Exec.run_bind_ok (KVCache.slotOf_run hb)]
      rfl
    refine Or.inl ⟨_, congrArg (Exec.embed dense) hrun, ⟨hkind, rfl, hsizes⟩, ⟨rfl, fun i hi => ?_⟩,
      ?_, fun _ _ => rfl, Nat.le_refl 0, fun _ => rfl, List.nodup_nil⟩
    · have hne : i ≠ b := fun he => hi (List.mem_singleton.mpr he)
      simp only [KVCacheType.slot, Function.update_of_ne hne]
    · simp only [KVCacheType.slot, Function.update_self]
      rfl
  | paged c =>
    have hacc := h.2.2.2.2.1
    have hcovered := h.2.2.2.2.2
    have hslot : pyIndex c.batchSize (b : Int) = some b := pyIndex_natCast (h.2.1 ▸ hb)
    have hstep : PagedKVCache.Stepped (fun _ _ => 0) c _ none :=
      PagedKVCache.call_stepped hacc (.resetSlot (b : Int))
    have ho := PagedKVCache.resetSlot_outcome hacc (b : Int)
    cases hrun : (PagedKVCache.resetSlot (b : Int)).run c with
    | ok u c' =>
      rw [PagedKVCache.call, Exec.after_of_ok hrun] at hstep
      rw [hrun, hslot] at ho
      cases ho with
      | cleared b' a hb' hnd hcounts hnum =>
        cases hb'
        have hlt : b < c.batchSize := h.2.1 ▸ hb
        have hrefs := PagedKVCache.refs_update
          ({ c.withTable b [] a with pos := Function.update c.pos b 0 }) rfl rfl rfl hlt
        refine Or.inl ⟨_, congrArg (Exec.embed paged) hrun, ⟨hstep.native h
          (hcovered.update rfl rfl rfl ?_), PagedKVCache.sameSlots_update rfl rfl rfl, ?_,
          fun _ _ => rfl, ?_, fun hempty => ?_, hnd⟩⟩
        · -- no tokens need no blocks
          exact (BlockTable.blocksNeeded_le_iff hacc.blockSize_pos).mpr (Nat.zero_le _)
        · simp only [KVCacheType.slot, PagedKVCache.withTable, Function.update_self]
          rfl
        · refine PagedKVCache.free_le_of_refs hacc hstep.accounted hnum fun blk hblk => ?_
          rw [hrefs, Multiset.coe_nil, zero_add] at hblk
          rw [PagedKVCache.refs_split c hlt]
          exact Multiset.mem_add.mpr (Or.inr hblk)
        · exact PagedKVCache.free_eq_of_update hacc hstep.accounted hlt hnum rfl rfl rfl
            (List.forall_mem_nil _) hempty
    | error e c' =>
      rw [hrun, hslot] at ho
      cases ho with
      | noSlot hb' => cases hb'
      | duplicate b' _ hb' hnd =>
        cases hb'
        exact Or.inr ⟨hnd, e, congrArg (Exec.embed paged) hrun⟩
  | hf c =>
    obtain ⟨hkind, rfl, hmax, hshort⟩ := h
    have hrun : (HFKVCache.resetSlot (b : Int)).run c = .ok () (c.store b none 0) := by
      unfold HFKVCache.resetSlot
      rw [Exec.run_bind_ok (HFKVCache.slotOf_run hb)]
      rfl
    exact Or.inl ⟨_, congrArg (Exec.embed hf) hrun, ⟨hkind, rfl, hmax, hshort⟩,
      c.sameSlots_store b none 0, c.slot_store b none 0, fun _ _ => rfl, Nat.le_refl 0,
      fun _ => rfl, List.nodup_nil⟩

/-! ## try_load_prefix -/

/-- What a load leaves, on either exit. -/
structure Loaded (chain : Int → List Nat → Int) (model : InferenceModel Row Score) (size : Nat)
    (c : KVCacheType Row) (b : Nat) (c' : KVCacheType Row) : Prop where
  native : c'.Native model size
  same : SameSlots [b] c c'
  restored : ∀ prompt, c'.restored chain prompt = c.restored chain prompt
  free : c'.freeBlocks = c.freeBlocks

variable (chain) in
theorem Loaded.refl (h : c.Native model size) : Loaded chain model size c b c :=
  ⟨h, SameSlots.refl c, fun _ => rfl, rfl⟩

variable (chain) in
/-- **A load** fills its slot with what is restored, if anything is. -/
theorem tryLoadPrefix_cases (h : c.Native model size) (hb : b < size) (prompt : List Nat) :
    (∃ c', (tryLoadPrefix chain (b : Int) prompt).run c
        = .ok (c.restored chain prompt).cursor c' ∧ Loaded chain model size c b c' ∧
      (0 < (c.restored chain prompt).cursor →
        c'.slot b = c.restored chain prompt ∧ (c.slot b).table = []) ∧
      ((c.restored chain prompt).cursor = 0 → (c'.slot b).table = (c.slot b).table)) ∨
    ∃ e c', (tryLoadPrefix chain (b : Int) prompt).run c = .error e c' ∧
      Loaded chain model size c b c' := by
  cases c with
  | dense c => exact Or.inr ⟨_, _, rfl, .refl chain h⟩
  | paged c =>
    have hacc := h.2.2.2.2.1
    have hcovered := h.2.2.2.2.2
    have hslot : pyIndex c.batchSize (b : Int) = some b := pyIndex_natCast (h.2.1 ▸ hb)
    have hstep : PagedKVCache.Stepped chain c _ _ :=
      PagedKVCache.call_stepped hacc (.tryLoadPrefix (b : Int) prompt)
    have ho := PagedKVCache.tryLoadPrefix_outcome chain hacc (b : Int) prompt
    rw [PagedKVCache.after_load] at hstep
    have htouched : ∀ (p : PrefixCache Nat) (hp : c.prefixCache = some p),
        (∀ prompt', (paged (c.touched chain p prompt)).restored chain prompt'
          = (paged c).restored chain prompt') := fun p hp prompt' => by
      simp only [KVCacheType.restored, PagedKVCache.touched, hp, PrefixCache.found_lookup]
      rfl
    cases hrun : (PagedKVCache.tryLoadPrefix chain (b : Int) prompt).run c with
    | ok n c' =>
      rw [Exec.after_of_ok hrun] at hstep
      rw [hrun, hslot] at ho
      cases ho with
      | disabled hp =>
        have hzero : (paged c).restored chain prompt = .empty := by
          simp only [KVCacheType.restored, hp]
        rw [hzero]
        exact Or.inl ⟨_, congrArg (Exec.embed paged) hrun, .refl chain h,
          fun h0 => absurd h0 (Nat.lt_irrefl 0), fun _ => rfl⟩
      | miss p hp hnil =>
        have hzero : (paged c).restored chain prompt = .empty := by
          simp only [KVCacheType.restored, hp, hnil, List.length_nil, Nat.zero_mul]
          rfl
        rw [hzero]
        exact Or.inl ⟨_, congrArg (Exec.embed paged) hrun, ⟨hstep.native h hcovered,
          ⟨rfl, fun _ _ => rfl⟩, htouched p hp, rfl⟩, fun h0 => absurd h0 (Nat.lt_irrefl 0),
          fun _ => rfl⟩
      | hit p b' a hp hfound hb' hempty hcounts hnum hheld =>
        cases hb'
        have hrestored : (paged c).restored chain prompt
            = ⟨(p.found chain prompt).length * p.blockSize, p.found chain prompt, none⟩ := by
          simp only [KVCacheType.restored, hp]
        rw [hrestored]
        refine Or.inl ⟨_, congrArg (Exec.embed paged) hrun, ⟨hstep.native h
          (hcovered.update rfl rfl rfl ?_), PagedKVCache.sameSlots_update rfl rfl rfl,
          htouched p hp, ?_⟩, fun _ => ?_, fun h0 => ?_⟩
        · rw [← (hacc.entries p hp).2]
          exact (BlockTable.blocksNeeded_le_iff p.blockSize_pos).mpr (Nat.le_refl _)
        · exact PagedKVCache.free_eq_of_update hacc hstep.accounted (h.2.1 ▸ hb) hnum rfl rfl
            (PagedKVCache.touched_prefixHeld hp prompt) hheld hempty
        · simp only [KVCacheType.slot, PagedKVCache.withTable, Function.update_self]
          exact ⟨trivial, hempty⟩
        · have hlen := (Nat.mul_eq_zero.mp h0).resolve_right
            (Nat.pos_iff_ne_zero.mp p.blockSize_pos)
          exact absurd (List.length_eq_zero_iff.mp hlen) hfound
    | error e c' =>
      rw [Exec.after_of_error hrun] at hstep
      rw [hrun, hslot] at ho
      refine Or.inr ⟨e, _, congrArg (Exec.embed paged) hrun, ?_⟩
      cases ho with
      | noSlot p hp =>
        exact ⟨hstep.native h hcovered, ⟨rfl, fun _ _ => rfl⟩, htouched p hp, rfl⟩
      | busy p b' hp =>
        exact ⟨hstep.native h hcovered, ⟨rfl, fun _ _ => rfl⟩, htouched p hp, rfl⟩
  | hf c =>
    obtain ⟨hkind, rfl, hmax, hshort⟩ := h
    have hkeeps := HFKVCache.tryLoadPrefix_keeps chain (b : Int) prompt c hshort
    obtain ⟨p, hsame, hloaded⟩ := c.tryLoadPrefix_stores chain hb prompt
    cases hrun : (HFKVCache.tryLoadPrefix chain (b : Int) prompt).run c with
    | ok n c' =>
      rw [Exec.after_of_ok hrun] at hkeeps
      rw [hrun] at hloaded
      rcases hloaded with ⟨rfl, hzero, rfl⟩ | ⟨layer, layers, rfl, rfl, hrestored⟩
      · rw [hzero]
        exact Or.inl ⟨_, congrArg (Exec.embed hf) hrun, ⟨⟨hkind, rfl, hmax, hkeeps⟩,
          ⟨rfl, fun _ _ => rfl⟩, hsame, rfl⟩, fun h0 => absurd h0 (Nat.lt_irrefl 0), fun _ => rfl⟩
      · have hcursor : ((hf c).restored chain prompt).cursor = layer.keys.length := by
          rw [hrestored]
          split
          · next hnil => rw [hnil]; rfl
          · rfl
        rw [hcursor]
        refine Or.inl ⟨_, congrArg (Exec.embed hf) hrun, ⟨⟨hkind, rfl, hmax, hkeeps⟩,
          ⟨rfl, ?_⟩, hsame, rfl⟩, fun h0 => ?_, fun _ => rfl⟩
        · exact (HFKVCache.sameSlots_store { c with prefixCache := p } b _ _).slot
        · rw [hrestored, if_neg (List.ne_nil_of_length_pos h0)]
          exact ⟨HFKVCache.slot_store _ b _ _, rfl⟩
    | error e c' =>
      rw [Exec.after_of_error hrun] at hkeeps
      rw [hrun] at hloaded
      simp only at hloaded
      subst hloaded
      exact Or.inr ⟨e, _, congrArg (Exec.embed hf) hrun, ⟨hkind, rfl, hmax, hkeeps⟩,
        ⟨rfl, fun _ _ => rfl⟩, hsame, rfl⟩

/-! ## register_prefix -/

variable (chain) in
/-- **Registering a prompt** does nothing to the slots, and takes no blocks from the pool. -/
theorem registerPrefix_native (h : c.Native model size) (hb : b < size) (prompt : List Nat) :
    (Exec.after (registerPrefix chain (b : Int) prompt) c).Native model size ∧
      SameSlots [] c (Exec.after (registerPrefix chain (b : Int) prompt) c) ∧
      c.freeBlocks ≤ (Exec.after (registerPrefix chain (b : Int) prompt) c).freeBlocks := by
  cases c with
  | dense c => exact ⟨h, SameSlots.refl _, le_rfl⟩
  | paged c =>
    have hacc := h.2.2.2.2.1
    have hstep : PagedKVCache.Stepped chain c _ _ :=
      PagedKVCache.call_stepped hacc (.registerPrefix (b : Int) prompt)
    have ho := PagedKVCache.registerPrefix_outcome chain hacc (b : Int) prompt
    have hslot : pyIndex c.batchSize (b : Int) = some b := pyIndex_natCast (h.2.1 ▸ hb)
    have hafter : Exec.after (registerPrefix chain (b : Int) prompt) (paged c)
        = paged (Exec.after (PagedKVCache.registerPrefix chain (b : Int) prompt) c) :=
      Exec.stateOf_embed paged _
    rw [hafter]
    rw [PagedKVCache.call] at hstep
    unfold Exec.after at hstep ⊢
    generalize (PagedKVCache.registerPrefix chain (b : Int) prompt).run c = result at ho hstep
    have hnative := fun hcovered => hstep.native h hcovered
    rw [hslot] at ho
    cases ho with
    | disabled hp => exact ⟨h, SameSlots.refl _, le_rfl⟩
    | noSlot p hp hnone => cases hnone
    | inserted p b' s hp hb' hi =>
      cases hb'
      refine ⟨hnative h.2.2.2.2.2, PagedKVCache.sameSlots_of_eq rfl rfl rfl,
        PagedKVCache.free_le_of_refs hacc hstep.accounted hi.kept.numBlocks fun blk hblk => ?_⟩
      -- an entry that is new has a block of the slot's table
      rcases Multiset.mem_add.mp hblk with hblk | hblk
      · exact Multiset.mem_add.mpr (Or.inl hblk)
      · obtain ⟨p', hp', key, hkey⟩ := PagedKVCache.mem_prefixHeld.mp hblk
        cases hp'
        rcases hi.entries key blk hkey with hold | ⟨i, -, -, hblk⟩
        · exact Multiset.mem_add.mpr (Or.inr (PagedKVCache.mem_prefixHeld.mpr ⟨p, hp, key, hold⟩))
        · exact PagedKVCache.mem_refs_of_mem_table (h.2.1 ▸ hb) (List.mem_of_getElem? hblk)
  | hf c =>
    obtain ⟨hkind, rfl, hmax, hshort⟩ := h
    have hkeeps : (Exec.after (HFKVCache.registerPrefix chain (b : Int) prompt) c).Short :=
      HFKVCache.registerPrefix_keeps (b : Int) prompt c hshort
    have hafter : Exec.after (registerPrefix chain (b : Int) prompt) (hf c)
        = hf (Exec.after (HFKVCache.registerPrefix chain (b : Int) prompt) c) :=
      Exec.stateOf_embed hf _
    obtain ⟨p, hp⟩ : ∃ p, Exec.after (HFKVCache.registerPrefix chain (b : Int) prompt) c
        = { c with prefixCache := p } := c.registerPrefix_after prompt
    rw [hafter]
    rw [hp] at hkeeps ⊢
    exact ⟨⟨hkind, rfl, hmax, hkeeps⟩, ⟨rfl, fun _ _ => rfl⟩, le_rfl⟩

end KVCacheType

/-! ## append and get -/

namespace PagedKVCache

variable {c : PagedKVCache Nat Row} {b l i : Nat} {new : List Int} {a : BlockAllocator}
  {kvs : List (Row × Row)}

/-- Taking blocks from the pool. -/
theorem Growth.free_length (h : c.Accounted) (hb : b < c.batchSize) (hg : Growth c b new a) :
    a.free.length + new.length = c.allocator.free.length := by
  have hnew : (↑(c.tables b ++ new) + c.otherRefs b : Multiset Int) = c.refs + ↑new := by
    rw [refs_split c hb, ← Multiset.coe_add, add_right_comm]
  have hafter := hg.counts.free_add_card
  have hbefore := h.counts.free_add_card
  have hdisjoint : Disjoint c.refs.toFinset new.toFinset := by
    rw [Finset.disjoint_left]
    intro blk hblk hn
    exact hg.fresh blk (List.mem_toFinset.mp hn) (Multiset.mem_toFinset.mp hblk)
  rw [hnew, Multiset.toFinset_add, List.toFinset_coe, Finset.card_union_of_disjoint hdisjoint,
    List.toFinset_card_of_nodup hg.nodup, hg.numBlocks] at hafter
  omega

theorem appended_tables_self : (c.appended b l new a kvs).tables b = c.tables b ++ new :=
  Function.update_self b _ _

theorem appended_slot_other (hi : i ≠ b) :
    (KVCacheType.paged (c.appended b l new a kvs)).slot i = (KVCacheType.paged c).slot i := by
  have htable : (c.withTable b (c.tables b ++ new) a).tables i = c.tables i :=
    Function.update_of_ne hi _ _
  simp only [KVCacheType.slot, appended, htable]
  split <;> simp [hi]

theorem appended_pos_self : (c.appended b l new a kvs).pos b
    = if l + 1 = c.numLayers then c.pos b + kvs.length else c.pos b := by
  simp only [appended]
  split <;> simp

/-- The slot has the blocks that its tokens and the new ones need. -/
theorem blocksNeeded_le_grown {n : Nat} (hlen : new.length = c.missing b n) :
    BlockTable.blocksNeeded c.blockSize (c.pos b + n) ≤ (c.tables b ++ new).length := by
  rw [List.length_append, hlen, missing]
  omega

theorem Covered.appended (h : c.Covered) (hlen : new.length = c.missing b kvs.length) :
    (c.appended b l new a kvs).Covered := by
  intro i
  by_cases he : i = b
  · subst he
    rw [appended_tables_self, appended_pos_self]
    have hneed : BlockTable.blocksNeeded c.blockSize (c.pos i + kvs.length)
        ≤ (c.tables i ++ new).length := blocksNeeded_le_grown hlen
    split
    · exact hneed
    · exact (BlockTable.blocksNeeded_mono (Nat.le_add_right _ _)).trans hneed
  · have hslot : (KVCacheType.paged (c.appended b l new a kvs)).slot i
        = (KVCacheType.paged c).slot i := appended_slot_other he
    have hpos : (c.appended b l new a kvs).pos i = c.pos i := congrArg Slot.cursor hslot
    have htable : (c.appended b l new a kvs).tables i = c.tables i := congrArg Slot.table hslot
    rw [hpos, htable]
    exact h i

end PagedKVCache

namespace KVCacheType

variable {model : InferenceModel Row Score} {size : Nat} {c c' : KVCacheType Row} {b l : Nat}

/-- Without blocks none is missing. -/
theorem missing_dense (c : KVCache Row) (b n : Nat) : missing b n (dense c) = 0 := by
  have hsize : (dense c).blockSize = 0 := rfl
  rw [missing, Slot.missing, BlockTable.blocksNeeded, hsize, Nat.div_zero, Nat.zero_sub]

/-- The tokens of a slot have their blocks. -/
theorem missing_zero (hmodel : model.makeKvCache = none) (h : c.Native model size) (b : Nat) :
    c.missing b 0 = 0 := by
  cases c with
  | dense c => exact missing_dense c b 0
  | paged c => exact Nat.sub_eq_zero_of_le (h.2.2.2.2.2 b)
  | hf c =>
    have hsome : model.makeKvCache.isSome = true := h.1
    rw [hmodel] at hsome
    cases hsome

/-- What an append of `n` tokens to one layer of slot `b` leaves. Only the last layer moves the
cursor, and after any other one the slot has the blocks that it needs. -/
structure Appended (model : InferenceModel Row Score) (size : Nat) (c : KVCacheType Row)
    (b l n : Nat) (c' : KVCacheType Row) : Prop where
  native : c'.Native model size
  same : SameSlots [b] c c'
  cursor : c'.cursor b = if l + 1 = model.config.numLayers then c.cursor b + n else c.cursor b
  roomy : l + 1 ≠ model.config.numLayers → c'.missing b n = 0
  free : c'.freeBlocks + c.missing b n = c.freeBlocks
  table : ∃ new, (c'.slot b).table = (c.slot b).table ++ new ∧ new.length = c.missing b n
  past : (c'.slot b).past = (c.slot b).past
  unrepeated : c.Unrepeated b → c'.Unrepeated b

/-- No layer but the last moves a cursor. -/
theorem Appended.cursor_eq {n : Nat} (h : Appended model size c b l n c')
    (hlast : l + 1 ≠ model.config.numLayers) : c'.cursor = c.cursor := by
  funext i
  by_cases hi : i = b
  · rw [hi, h.cursor, if_neg hlast]
  · exact h.same.cursor fun hmem => hi (List.mem_singleton.mp hmem)

/-- Appending no tokens to a slot leaves it. -/
theorem Appended.slot_eq (h : Appended model size c b l 0 c') (hzero : c.missing b 0 = 0) :
    c'.slot b = c.slot b := by
  obtain ⟨new, htable, hlen⟩ := h.table
  rw [hzero, List.length_eq_zero_iff] at hlen
  rw [hlen, List.append_nil] at htable
  have hcursor : (c'.slot b).cursor = (c.slot b).cursor := by
    have hcursor := h.cursor
    simp only [Nat.add_zero, ite_self] at hcursor
    exact hcursor
  exact Slot.ext hcursor htable h.past

/-- What an append to a paged cache leaves once the missing blocks are there. -/
theorem Appended.paged {c : PagedKVCache Nat Row} {new : List Int} {a : BlockAllocator}
    (h : (paged c).Native model size) (hb : b < c.batchSize) {kvs : List (Row × Row)}
    (hg : PagedKVCache.Growth c b new a) (hlen : new.length = c.missing b kvs.length) :
    Appended model size (paged c) b l kvs.length (paged (c.appended b l new a kvs)) := by
  obtain ⟨hkind, hsize, hlayers, hmax, hacc, hcovered⟩ := h
  refine ⟨⟨hkind, hsize, hlayers, hmax, PagedKVCache.appended_accounted hacc hb hg,
    hcovered.appended hlen⟩, ⟨rfl, fun i hi => ?_⟩, ?_, fun hlast => ?_, ?_,
    ⟨new, Function.update_self b _ _, hlen⟩, rfl, fun hb' => ?_⟩
  · exact PagedKVCache.appended_slot_other fun he => hi (List.mem_singleton.mpr he)
  · rw [← hlayers]
    have hpos : (c.appended b l new a kvs).pos b = _ := PagedKVCache.appended_pos_self
    exact hpos
  · show (c.appended b l new a kvs).missing b kvs.length = 0
    have hpos : (c.appended b l new a kvs).pos b = c.pos b := by
      rw [← hlayers] at hlast
      rw [PagedKVCache.appended_pos_self, if_neg hlast]
    rw [PagedKVCache.missing, PagedKVCache.appended_tables_self, hpos]
    exact Nat.sub_eq_zero_of_le (PagedKVCache.blocksNeeded_le_grown hlen)
  · have hfree := hg.free_length hacc hb
    rw [hlen] at hfree
    exact hfree
  · show ((c.appended b l new a kvs).tables b).Nodup
    rw [PagedKVCache.appended_tables_self]
    exact hg.nodup_append hb hb'

/-- **The ways an append that fits ends**: the slot gets the blocks it is short of, or there are
not as many and no cursor moves. -/
theorem append_cases (hmodel : model.makeKvCache = none) (h : c.Native model size) (hb : b < size)
    (hl : l < model.config.numLayers) {kvs : List (Row × Row)}
    (hfit : c.cursor b + kvs.length ≤ model.config.maxSeqLen) :
    (c.missing b kvs.length ≤ c.freeBlocks ∧ ∃ c',
      (append (b : Int) (l : Int) (kvs.map Prod.fst) (kvs.map Prod.snd)).run c = .ok () c' ∧
        Appended model size c b l kvs.length c') ∨
    (c.freeBlocks < c.missing b kvs.length ∧ ∃ e c',
      (append (b : Int) (l : Int) (kvs.map Prod.fst) (kvs.map Prod.snd)).run c = .error e c' ∧
        c'.Native model size ∧ c'.cursor = c.cursor) := by
  cases c with
  | dense c =>
    obtain ⟨hkind, rfl, hlayers, hmax⟩ := h
    rw [← hlayers] at hl
    rw [← hmax] at hfit
    have hmissing := missing_dense c b kvs.length
    have hafter := missing_dense (c.appended b l kvs) b kvs.length
    refine Or.inl ⟨hmissing.le, _, congrArg (Exec.embed dense) (KVCache.append_run hb hl hfit),
      ⟨hkind, rfl, hlayers, hmax⟩, ⟨rfl, fun i hi => ?_⟩, ?_, fun _ => hafter,
      by rw [hmissing]; rfl, ⟨[], rfl, hmissing.symm⟩, rfl, fun hb' => hb'⟩
    · have hne : i ≠ b := fun he => hi (List.mem_singleton.mpr he)
      simp only [KVCacheType.slot, KVCache.appended]
      split <;> simp [hne]
    · rw [← hlayers]
      simp only [KVCacheType.cursor, KVCacheType.slot, KVCache.appended]
      split <;> simp
  | paged c =>
    obtain ⟨hkind, rfl, hlayers, hmax, hacc, hcovered⟩ := id h
    rw [← hlayers] at hl
    rw [← hmax] at hfit
    by_cases hroom : c.missing b kvs.length ≤ c.allocator.free.length
    · obtain ⟨new, a, hg, hlen, hrun⟩ := PagedKVCache.append_run hacc hb hl hfit hroom
      exact Or.inl ⟨hroom, _, congrArg (Exec.embed paged) hrun, .paged h hb hg hlen⟩
    · rcases PagedKVCache.append_cases hacc hb hl kvs with ⟨e, hrun⟩ | ⟨new, a, e, hg, hrun⟩ |
        ⟨new, a, hg, hlen, hrun⟩
      · exact Or.inr ⟨Nat.lt_of_not_le hroom, e, _, congrArg (Exec.embed paged) hrun,
          ⟨hkind, rfl, hlayers, hmax, hacc, hcovered⟩, rfl⟩
      · have hgrown : (c.grown b new a).Covered := hcovered.grow rfl rfl rfl
        exact Or.inr ⟨Nat.lt_of_not_le hroom, e, _, congrArg (Exec.embed paged) hrun,
          ⟨hkind, rfl, hlayers, hmax, PagedKVCache.grown_accounted hacc hb hg, hgrown⟩, rfl⟩
      · have hfree := hg.free_length hacc hb
        omega
  | hf c =>
    have hsome : model.makeKvCache.isSome = true := h.1
    rw [hmodel] at hsome
    cases hsome

/-- **What a slot holds can be read.** -/
theorem get_run (hmodel : model.makeKvCache = none) (h : c.Native model size) (hb : b < size)
    (hl : l < model.config.numLayers) : ∃ past, (get (b : Int) (l : Int)).run c = .ok past c := by
  cases c with
  | dense c =>
    obtain ⟨-, rfl, hlayers, -⟩ := h
    rw [← hlayers] at hl
    have hrun : ∃ past, (KVCache.get (b : Int) (l : Int)).run c = .ok past c := by
      unfold KVCache.get
      rw [Exec.run_bind_ok (KVCache.slotOf_run hb), Exec.run_bind_ok (KVCache.layerOf_run hl)]
      exact ⟨_, rfl⟩
    obtain ⟨past, hrun⟩ := hrun
    exact ⟨past, congrArg (Exec.embed dense) hrun⟩
  | paged c =>
    obtain ⟨-, rfl, hlayers, -, hacc, hcovered⟩ := h
    rw [← hlayers] at hl
    have hrun : ∃ past, (PagedKVCache.get (b : Int) (l : Int)).run c = .ok past c := by
      unfold PagedKVCache.get
      rw [Exec.run_bind_ok (PagedKVCache.slotOf_run (pyIndex_natCast hb)),
        Exec.run_bind_ok (EStateM.run_get c)]
      by_cases hzero : c.pos b = 0
      · rw [if_pos hzero]
        exact ⟨_, rfl⟩
      · rw [if_neg hzero, pyIndex_natCast hl]
        obtain ⟨blk, blocks, htable⟩ := List.exists_cons_of_ne_nil
          (hcovered.table_ne_nil hacc.blockSize_pos (Nat.pos_of_ne_zero hzero))
        rw [htable]
        exact ⟨_, rfl⟩
    obtain ⟨past, hrun⟩ := hrun
    exact ⟨past, congrArg (Exec.embed paged) hrun⟩
  | hf c =>
    have hsome : model.makeKvCache.isSome = true := h.1
    rw [hmodel] at hsome
    cases hsome

/-- **Appending no tokens** leaves the slots and the pool, whether it goes through or not. -/
theorem append_nil (hmodel : model.makeKvCache = none) (h : c.Native model size) (hb : b < size)
    (hl : l < model.config.numLayers) :
    let after := Exec.after (append (b : Int) (l : Int) [] []) c
    after.Native model size ∧ SameSlots [] c after ∧ after.freeBlocks = c.freeBlocks := by
  intro after
  have hzero := missing_zero hmodel h b
  by_cases hfit : c.cursor b + ([] : List (Row × Row)).length ≤ model.config.maxSeqLen
  · rcases append_cases hmodel h hb hl hfit with ⟨-, c', hrun, happended⟩ | ⟨hshort, -⟩
    · rw [List.map_nil, List.map_nil] at hrun
      have hafter : after = c' := Exec.after_of_ok hrun
      have hfree := happended.free
      rw [List.length_nil] at happended hfree
      rw [hzero, Nat.add_zero] at hfree
      rw [hafter]
      refine ⟨happended.native, ⟨happended.same.blockSize, fun i _ => ?_⟩, hfree⟩
      by_cases he : i = b
      · rw [he]
        exact happended.slot_eq hzero
      · exact happended.same.slot i fun hi => he (List.mem_singleton.mp hi)
    · rw [List.length_nil, hzero] at hshort
      exact absurd hshort (Nat.not_lt_zero _)
  · -- it is refused before anything is changed
    have hlong : model.config.maxSeqLen < c.cursor b + 0 := Nat.lt_of_not_le hfit
    have hrun : (append (b : Int) (l : Int) [] []).run c = .error .assertionError c := by
      cases c with
      | dense c =>
        obtain ⟨-, rfl, -, hmax⟩ := h
        have hlong : c.maxSeqLen < c.pos b + 0 := hmax ▸ hlong
        have hrun : (KVCache.append (b : Int) (l : Int) ([] : List Row) []).run c
            = .error .assertionError c := by
          unfold KVCache.append
          rw [Exec.run_bind_ok (KVCache.slotOf_run hb), Exec.run_bind_ok (EStateM.run_get c),
            List.length_nil, if_pos hlong]
          rfl
        exact congrArg (Exec.embed dense) hrun
      | paged c =>
        obtain ⟨-, rfl, -, hmax, -⟩ := h
        have hlong : c.maxSeqLen < c.pos b + 0 := hmax ▸ hlong
        have hrun : (PagedKVCache.append (b : Int) (l : Int) ([] : List Row) []).run c
            = .error .assertionError c := by
          unfold PagedKVCache.append
          rw [Exec.run_bind_ok (PagedKVCache.slotOf_run (pyIndex_natCast hb)),
            Exec.run_bind_ok (EStateM.run_get c), List.length_nil, if_pos hlong]
          rfl
        exact congrArg (Exec.embed paged) hrun
      | hf c =>
        have hsome : model.makeKvCache.isSome = true := h.1
        rw [hmodel] at hsome
        cases hsome
    have hafter : after = c := Exec.after_of_error hrun
    rw [hafter]
    exact ⟨h, SameSlots.refl c, rfl⟩

end KVCacheType

end Nifre
