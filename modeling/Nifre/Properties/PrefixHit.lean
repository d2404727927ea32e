import Nifre.Properties.PrefixEntries
import Nifre.Properties.PagedAccounting
import Nifre.Properties.Serving

/-!
# When a prefix hit leaves work for the forward pass

The lookup of the Hugging Face cache stops before the last token of a prompt. The paged lookup walks
all full blocks, so it restores the whole prompt exactly when the block size divides the prompt's
length and every block of it is stored.
-/

namespace Nifre

open Digest ChainedMap

variable {Row : Type}

/-! ## Reachable caches -/

namespace KVCacheType

/-- `set_past`, which only the Hugging Face cache has. -/
def setPast (batchIdx : Int) (past : Option (Past Row)) : M Row Unit
  | hf c => Exec.embed hf ((HFKVCache.setPast batchIdx past).run c)
  | c => .error (.attributeError "object has no attribute 'set_past'") c

/-- A call of a method that changes a cache. -/
inductive Call (Row : Type) where
  | append (batchIdx layerId : Int) (key value : List Row)
  | setPast (batchIdx : Int) (past : Option (Past Row))
  | tryLoadPrefix (batchIdx : Int) (tokenIds : List Nat)
  | registerPrefix (batchIdx : Int) (tokenIds : List Nat)
  | resetSlot (batchIdx : Int)

variable (chain : Int → List Nat → Int)

def call : Call Row → M Row Unit
  | .append batchIdx layerId key value => KVCacheType.append batchIdx layerId key value
  | .setPast batchIdx past => KVCacheType.setPast batchIdx past
  | .tryLoadPrefix batchIdx tokenIds => do
    let _ ← KVCacheType.tryLoadPrefix chain batchIdx tokenIds
  | .registerPrefix batchIdx tokenIds => KVCacheType.registerPrefix chain batchIdx tokenIds
  | .resetSlot batchIdx => KVCacheType.resetSlot batchIdx

/-- A new cache with prefix caching. -/
inductive Initial : KVCacheType Row → Prop
  | paged {cfg : PagedKVCache.Config} {emptyK emptyV : Nat → Int × Nat → Row} {batchSize : Nat}
    {c : PagedKVCache Nat Row} :
    PagedKVCache.initBatch cfg emptyK emptyV batchSize = .ok c → Initial (.paged c)
  | hf (maxSeqLen : Nat) (enablePrefixCache : Bool)
    (blockSize prefixCacheMaxEntries rowBytes batchSize : Nat) :
    Initial (.hf ((HFKVCache.new maxSeqLen enablePrefixCache blockSize prefixCacheMaxEntries
      rowBytes).initBatch batchSize))

/-- The caches that some calls lead to, those that raise included. -/
def Reachable (c : KVCacheType Row) : Prop :=
  ∃ c₀ ops, Initial c₀ ∧ c = Exec.runAll (call chain) ops c₀

/-- The prompt ends with a full block, and a paged prefix cache stores all its blocks. -/
def WholePromptStored (c : KVCacheType Row) (prompt : List Nat) : Prop :=
  match c with
  | paged c => ∃ p, c.prefixCache = some p ∧ p.blockSize ∣ prompt.length ∧
    ∀ i < (fullBlocks p.blockSize prompt).length,
      keyAt chain (fullBlocks p.blockSize prompt) PrefixCache.rootHash i ∈ p.entries.keys
  | _ => False

end KVCacheType

/-! ## The paged lookup -/

namespace PrefixCache

variable {chain : Int → List Nat → Int}

/-- **A lookup finds less than the prompt** unless the prompt is whole blocks that are all stored. -/
theorem found_lt_iff (p : PrefixCache Nat) (prompt : List Nat) :
    (p.found chain prompt).length * p.blockSize < prompt.length ↔
      ¬(p.blockSize ∣ prompt.length ∧ ∀ i < (fullBlocks p.blockSize prompt).length,
        keyAt chain (fullBlocks p.blockSize prompt) rootHash i ∈ p.entries.keys) := by
  have hpos := p.blockSize_pos
  have hle := matched_length_le chain p.entries (fullBlocks p.blockSize prompt) rootHash
  have hiff := matched_length_eq_iff chain p.entries (fullBlocks p.blockSize prompt) rootHash
  rw [← hiff, length_fullBlocks, ← found]
  rw [length_fullBlocks, ← found] at hle
  have hmul := Nat.mul_le_mul_right p.blockSize hle
  have hdiv := Nat.div_mul_le_self prompt.length p.blockSize
  constructor
  · rintro hlt ⟨hdvd, heq⟩
    rw [heq, Nat.div_mul_cancel hdvd] at hlt
    exact Nat.lt_irrefl _ hlt
  · intro hn
    by_contra hge
    have heq : prompt.length / p.blockSize * p.blockSize = prompt.length := by omega
    refine hn ⟨Nat.dvd_of_mod_eq_zero ?_, ?_⟩
    · have := Nat.div_add_mod' prompt.length p.blockSize
      omega
    · exact Nat.le_antisymm hle (Nat.le_of_mul_le_mul_right (by omega) hpos)

end PrefixCache

namespace PagedKVCache

variable {chain : Int → List Nat → Int} {c c' : PagedKVCache Nat Row}

/-- Working on a table leaves the prefix cache alone. -/
theorem onTable_prefixCache {α : Type} {b : Nat} {m : BlockTable.M α} {a : α}
    (h : (onTable b m).run c = .ok a c') : c'.prefixCache = c.prefixCache := by
  have := Exec.after_of_ok h
  rw [onTable, Exec.after_within] at this
  rw [← this]

/-- What a load returns, and the prefix cache after it. -/
theorem tryLoadPrefix_ok {slot : Int} {prompt : List Nat} {n : Nat}
    (h : (tryLoadPrefix chain slot prompt).run c = .ok n c') :
    (c.prefixCache = none ∧ n = 0 ∧ c' = c) ∨
    ∃ p, c.prefixCache = some p ∧ n = (p.found chain prompt).length * p.blockSize ∧
      c'.prefixCache = some (p.lookup chain prompt).2 := by
  unfold tryLoadPrefix at h
  rw [Exec.run_bind_ok (EStateM.run_get c)] at h
  cases hp : c.prefixCache with
  | none =>
    rw [hp] at h
    cases h
    exact Or.inl ⟨rfl, rfl, rfl⟩
  | some p =>
    rw [hp] at h
    refine Or.inr ⟨p, rfl, ?_⟩
    have hfst := PrefixCache.lookup_fst chain p prompt
    rcases hl : p.lookup chain prompt with ⟨⟨numTokens, blocks⟩, p'⟩
    rw [hl] at hfst
    cases hfst
    simp only [hl] at h
    rw [Exec.run_bind_ok (EStateM.run_set _ c)] at h
    split at h
    · next h0 =>
      cases h
      exact ⟨h0.symm, rfl⟩
    · obtain ⟨b, c₁, hslot, h⟩ := Exec.run_bind_eq_ok h
      obtain ⟨u, c₂, htable, h⟩ := Exec.run_bind_eq_ok h
      have hc₁ : c₁ = { c with prefixCache := some p' } := by
        unfold slotOf at hslot
        rw [Exec.run_bind_ok (EStateM.run_get _)] at hslot
        split at hslot
        · cases hslot
        · cases hslot
          rfl
      rw [Exec.run_bind_ok (EStateM.run_modify _ c₂)] at h
      cases h
      refine ⟨rfl, ?_⟩
      show c₂.prefixCache = _
      rw [onTable_prefixCache htable, hc₁]

theorem resetSlot_ok {slot : Int} (h : (resetSlot slot).run c = .ok () c') :
    c'.prefixCache = c.prefixCache := by
  unfold resetSlot at h
  obtain ⟨b, c₁, hslot, h⟩ := Exec.run_bind_eq_ok h
  obtain ⟨u, c₂, htable, h⟩ := Exec.run_bind_eq_ok h
  have hc₁ : c₁ = c := by
    unfold slotOf at hslot
    rw [Exec.run_bind_ok (EStateM.run_get _)] at hslot
    split at hslot
    · cases hslot
    · cases hslot
      rfl
  cases h
  show c₂.prefixCache = _
  rw [onTable_prefixCache htable, hc₁]

end PagedKVCache

/-! ## The Hugging Face lookup -/

namespace BlockPrefixCache

/-- No entry is longer than a block. -/
def Short (p : BlockPrefixCache Nat Row) : Prop :=
  ∀ key block, (key, block) ∈ p.entries.entries →
    ∀ layer ∈ block, layer.keys.length ≤ p.blockSize

variable {chain : Int → List Nat → Int}

theorem short_slices (layers : Past Row) (start bs : Nat) :
    ∀ layer ∈ slices layers start (start + bs), layer.keys.length ≤ bs := by
  intro layer hlayer
  obtain ⟨whole, -, rfl⟩ := List.mem_map.mp hlayer
  simp only [List.length_drop, List.length_take]
  omega

/-- What is kept of the entries at every block size keeps them short. -/
theorem keeps_short {α : Type} {m : M Nat Row α}
    (h : ∀ bs, Exec.Keeps (AllEntries bs fun _ block => ∀ layer ∈ block, layer.keys.length ≤ bs) m) :
    Exec.Keeps Short m := by
  intro p hp key block hmem
  obtain ⟨hbs, hall⟩ := h p.blockSize p ⟨rfl, hp⟩
  rw [hbs]
  exact hall key block hmem

theorem insert_keeps (tokenIds : List Nat) (layers : Past Row) (cachedLen : Nat) :
    Exec.Keeps Short (insert chain tokenIds layers cachedLen) :=
  keeps_short fun bs => insert_allEntries fun j _ => short_slices layers (j * bs) bs

theorem lookup_keeps (tokenIds : List Nat) :
    Exec.Keeps Short (lookup chain tokenIds : M Nat Row _) :=
  keeps_short fun _ => lookup_allEntries tokenIds

theorem layerAt_mem {l : Nat} {block : Past Row} {layer : LayerPast Row}
    (h : layerAt l block = .ok layer) : layer ∈ block := by
  unfold layerAt at h
  split at h
  · cases h
  · next hget =>
    cases h
    exact List.mem_of_getElem? hget

/-- The concatenation of short blocks. -/
theorem catLayer_length {bs l : Nat} {matched : List (Past Row)} {layer : LayerPast Row}
    (hshort : ∀ block ∈ matched, ∀ layer ∈ block, layer.keys.length ≤ bs)
    (h : catLayer matched l = .ok layer) : layer.keys.length ≤ matched.length * bs := by
  have hlayers : ∀ {blocks : List (Past Row)} {layers : List (LayerPast Row)},
      (∀ block ∈ blocks, block ∈ matched) → blocks.mapM (layerAt l) = .ok layers →
      (layers.flatMap (·.keys)).length ≤ blocks.length * bs := by
    intro blocks
    induction blocks with
    | nil =>
      rintro layers - he
      cases he
      exact Nat.zero_le _
    | cons block rest ih =>
      intro layers hmem he
      rw [List.mapM_cons] at he
      obtain ⟨first, hget, he⟩ := Exec.bind_eq_ok he
      obtain ⟨others, hrest, he⟩ := Exec.bind_eq_ok he
      cases he
      have hfirst := hshort block (hmem block List.mem_cons_self) first (layerAt_mem hget)
      have hothers := ih (fun b hb => hmem b (List.mem_cons_of_mem block hb)) hrest
      rw [List.flatMap_cons, List.length_append, List.length_cons, Nat.succ_mul]
      omega
  obtain ⟨layers, hm, h⟩ := Exec.bind_eq_ok h
  cases h
  exact hlayers (fun _ hb => hb) hm

/-- **What a lookup returns is shorter than the tokens.** -/
theorem lookup_lt {p p' : BlockPrefixCache Nat Row} (hp : p.Short) {tokenIds : List Nat}
    {layer : LayerPast Row} {layers : Past Row}
    (h : (lookup chain tokenIds).run p = .ok (some (layer :: layers)) p') :
    layer.keys.length < tokenIds.length := by
  obtain ⟨first, rest, hf, hall⟩ := lookup_eq_some h
  have hne : tokenIds ≠ [] := by
    rintro rfl
    simp [found, fullBlocks, matched] at hf
  have hshort : ∀ block ∈ first :: rest, ∀ layer ∈ block, layer.keys.length ≤ p.blockSize := by
    intro block hblock
    rw [← hf] at hblock
    obtain ⟨i, hi, rfl⟩ := List.getElem_of_mem hblock
    exact hp _ _ (matched_mem chain _ _ _ i _ (List.getElem?_eq_getElem hi))
  have hlt := found_lt chain (p := p) hne
  rw [hf] at hlt
  cases hn : first.length with
  | zero => rw [hn] at hall; cases hall
  | succ n =>
    rw [hn, List.range_succ_eq_map, List.mapM_cons] at hall
    obtain ⟨layer₀, hcat, hall⟩ := Exec.bind_eq_ok hall
    obtain ⟨layers₀, -, hall⟩ := Exec.bind_eq_ok hall
    cases hall
    exact Nat.lt_of_le_of_lt (catLayer_length hshort hcat) hlt

end BlockPrefixCache

namespace HFKVCache

variable {chain : Int → List Nat → Int}

/-- The entries of the prefix cache are no longer than a block. -/
def Short (c : HFKVCache Nat Row) : Prop := ∀ p, c.prefixCache = some p → p.Short

theorem slotOf_keeps (batchIdx : Int) : Exec.Keeps Short (slotOf batchIdx : M Nat Row _) := by
  refine Exec.Keeps.get_bind fun c hc => ?_
  cases pyIndex c.batchSize batchIdx with
  | none => exact hc
  | some b => exact hc

theorem store_keeps (b : Nat) (past : Option (Past Row)) (length : Nat) :
    Exec.Keeps Short (modify fun c => c.store b past length : M Nat Row Unit) :=
  Exec.Keeps.modify fun _ hc => hc

theorem resetSlot_keeps (batchIdx : Int) : Exec.Keeps Short (resetSlot batchIdx : M Nat Row _) :=
  (slotOf_keeps batchIdx).bind fun b => store_keeps b none 0

theorem setPast_keeps (batchIdx : Int) (past : Option (Past Row)) :
    Exec.Keeps Short (setPast batchIdx past) :=
  Exec.Keeps.get_bind fun c hc => Exec.Keeps.ite (fun _ => Exec.Keeps.throw _)
    (fun _ => (slotOf_keeps batchIdx).bind fun b => store_keeps b past _) c hc

theorem onPrefixCache_keeps {α : Type} {p : BlockPrefixCache Nat Row} (hp : p.Short)
    {m : BlockPrefixCache.M Nat Row α} (hm : Exec.Keeps BlockPrefixCache.Short m) :
    Exec.Keeps Short (onPrefixCache p m) :=
  Exec.Keeps.within fun c _ q hq => by
    cases hq
    exact hm p hp

theorem registerPrefix_keeps (batchIdx : Int) (tokenIds : List Nat) :
    Exec.Keeps Short (registerPrefix chain batchIdx tokenIds : M Nat Row _) := by
  refine Exec.Keeps.get_bind fun c hc => ?_
  cases hp : c.prefixCache with
  | none => exact hc
  | some p =>
    refine Exec.Keeps.bind (slotOf_keeps batchIdx) (fun b => ?_) c hc
    cases c.past b with
    | none => exact Exec.Keeps.pure ()
    | some past => exact onPrefixCache_keeps (hc p hp) (BlockPrefixCache.insert_keeps _ _ _)

variable (chain) in
theorem tryLoadPrefix_keeps (batchIdx : Int) (tokenIds : List Nat) :
    Exec.Keeps Short (tryLoadPrefix chain batchIdx tokenIds : M Nat Row _) := by
  refine Exec.Keeps.get_bind fun c hc => ?_
  cases hp : c.prefixCache with
  | none => exact hc
  | some p =>
    refine Exec.Keeps.bind (onPrefixCache_keeps (hc p hp) (BlockPrefixCache.lookup_keeps tokenIds))
      (fun found => ?_) c hc
    match found with
    | none => exact Exec.Keeps.pure 0
    | some [] => exact Exec.Keeps.throw _
    | some (layer :: layers) =>
      exact (slotOf_keeps batchIdx).bind fun b =>
        (store_keeps b _ _).bind fun _ => Exec.Keeps.pure _

end HFKVCache

/-! ## Either cache -/

namespace KVCacheType

variable {chain : Int → List Nat → Int} {c c' : KVCacheType Row}

/-- The entries of a Hugging Face prefix cache are no longer than a block. -/
def Short (c : KVCacheType Row) : Prop :=
  ∀ h p, c = .hf h → h.prefixCache = some p → p.Short

/-- What neither a load nor a reset changes of the prefix cache. -/
structure SamePrefixes (chain : Int → List Nat → Int) (c c' : KVCacheType Row) : Prop where
  short : c.Short → c'.Short
  stored : ∀ prompt, c'.WholePromptStored chain prompt ↔ c.WholePromptStored chain prompt

theorem SamePrefixes.refl (c : KVCacheType Row) : SamePrefixes chain c c := ⟨id, fun _ => Iff.rfl⟩

theorem SamePrefixes.trans {c'' : KVCacheType Row} (h : SamePrefixes chain c c')
    (h' : SamePrefixes chain c' c'') : SamePrefixes chain c c'' :=
  ⟨h'.short ∘ h.short, fun prompt => (h'.stored prompt).trans (h.stored prompt)⟩

theorem embed_eq_ok {σ τ α : Type} {put : τ → σ} {r : EStateM.Result PyError τ α} {a : α} {s : σ}
    (h : Exec.embed put r = .ok a s) : ∃ t, r = .ok a t ∧ s = put t := by
  cases r with
  | ok a t =>
    cases h
    exact ⟨t, rfl, rfl⟩
  | error e t => cases h

theorem hf_tryLoadPrefix_lt {c c' : HFKVCache Nat Row} {slot : Int} {prompt : List Nat} {n : Nat}
    (h : (HFKVCache.tryLoadPrefix chain slot prompt).run c = .ok n c') (hshort : c.Short) :
    n = 0 ∨ n < prompt.length := by
  unfold HFKVCache.tryLoadPrefix at h
  rw [Exec.run_bind_ok (EStateM.run_get c)] at h
  cases hp : c.prefixCache with
  | none =>
    rw [hp] at h
    cases h
    exact Or.inl rfl
  | some p =>
    rw [hp] at h
    obtain ⟨found, c₁, hlookup, h⟩ := Exec.run_bind_eq_ok h
    cases hl : (BlockPrefixCache.lookup chain prompt).run p with
    | error e q =>
      have herror : (HFKVCache.onPrefixCache p (BlockPrefixCache.lookup chain prompt)).run c
          = .error e { c with prefixCache := some q } := Exec.run_within_error hl
      rw [herror] at hlookup
      cases hlookup
    | ok found' q =>
      have hok : (HFKVCache.onPrefixCache p (BlockPrefixCache.lookup chain prompt)).run c
          = .ok found' { c with prefixCache := some q } := Exec.run_within_ok hl
      rw [hok] at hlookup
      cases hlookup
      match found, hl, h with
      | none, _, h =>
        cases h
        exact Or.inl rfl
      | some [], _, h => cases h
      | some (layer :: layers), hl, h =>
        obtain ⟨b, c₂, -, h⟩ := Exec.run_bind_eq_ok h
        cases h
        exact Or.inr (BlockPrefixCache.lookup_lt (hshort p hp) hl)

/-- **A load that returns** leaves work exactly when not the whole prompt is stored. -/
theorem tryLoadPrefix_ok (hshort : c.Short) {slot : Int} {prompt : List Nat} (hne : prompt ≠ [])
    {n : Nat} (h : (tryLoadPrefix chain slot prompt).run c = .ok n c') :
    (n < prompt.length ↔ ¬c.WholePromptStored chain prompt) ∧ SamePrefixes chain c c' := by
  cases c with
  | dense c => cases h
  | paged c =>
    obtain ⟨c', hrun, rfl⟩ := embed_eq_ok h
    have hlen := List.length_pos_iff.mpr hne
    rcases PagedKVCache.tryLoadPrefix_ok hrun with ⟨hp, rfl, rfl⟩ | ⟨p, hp, rfl, hp'⟩
    · refine ⟨iff_of_true hlen ?_, SamePrefixes.refl _⟩
      rintro ⟨p, hp', -⟩
      rw [hp] at hp'
      cases hp'
    · have hstored : ∀ {c : PagedKVCache Nat Row} {p : PrefixCache Nat},
          c.prefixCache = some p → ∀ q, WholePromptStored chain (.paged c) q ↔
            p.blockSize ∣ q.length ∧ ∀ i < (fullBlocks p.blockSize q).length,
              keyAt chain (fullBlocks p.blockSize q) PrefixCache.rootHash i ∈ p.entries.keys := by
        intro c p hp q
        constructor
        · rintro ⟨p', hp', hw⟩
          rw [hp] at hp'
          cases hp'
          exact hw
        · exact fun hw => ⟨p, hp, hw⟩
      refine ⟨by rw [hstored hp]; exact p.found_lt_iff prompt, nofun, fun q => ?_⟩
      have hperm := PrefixCache.lookup_entries_perm chain p prompt
      have hkeys : ∀ k, k ∈ (p.lookup chain prompt).2.entries.keys ↔ k ∈ p.entries.keys :=
        fun k => (hperm.map Prod.fst).mem_iff
      rw [hstored hp', hstored hp]
      simp only [PrefixCache.lookup_blockSize, hkeys]
  | hf c =>
    obtain ⟨c', hrun, rfl⟩ := embed_eq_ok h
    have hc : c.Short := fun p hp => hshort c p rfl hp
    have hc' := HFKVCache.tryLoadPrefix_keeps chain slot prompt c hc
    rw [Exec.after_of_ok hrun] at hc'
    have hlt : n < prompt.length :=
      (hf_tryLoadPrefix_lt hrun hc).elim (fun h0 => h0 ▸ List.length_pos_iff.mpr hne) id
    refine ⟨iff_of_true hlt id, fun _ _ p he hp => ?_, fun _ => Iff.rfl⟩
    cases he
    exact hc' p hp

theorem resetSlot_ok {slot : Int} (h : (resetSlot slot).run c = .ok () c') :
    SamePrefixes chain c c' := by
  cases c with
  | dense c =>
    obtain ⟨c', -, rfl⟩ := embed_eq_ok h
    exact ⟨fun _ => nofun, fun _ => Iff.rfl⟩
  | paged c =>
    obtain ⟨c', hrun, rfl⟩ := embed_eq_ok h
    refine ⟨fun _ => nofun, fun prompt => ?_⟩
    simp only [WholePromptStored, PagedKVCache.resetSlot_ok hrun]
  | hf c =>
    obtain ⟨c', hrun, rfl⟩ := embed_eq_ok h
    unfold HFKVCache.resetSlot at hrun
    obtain ⟨b, c₁, hslot, hrun⟩ := Exec.run_bind_eq_ok hrun
    unfold HFKVCache.slotOf at hslot
    rw [Exec.run_bind_ok (EStateM.run_get _)] at hslot
    split at hslot
    · cases hslot
    · cases hslot
      cases hrun
      refine ⟨fun hshort h p he hp => ?_, fun _ => Iff.rfl⟩
      cases he
      exact hshort _ p rfl hp

/-- Every call keeps the entries short. -/
theorem call_short (o : Call Row) : Exec.Keeps Short (call chain o) := by
  intro c hc
  cases c with
  | dense c =>
    obtain ⟨c', h⟩ : ∃ c', Exec.after (call chain o) (dense c) = dense c' := by
      cases o with
      | append => exact ⟨_, Exec.stateOf_embed dense _⟩
      | resetSlot => exact ⟨_, Exec.stateOf_embed dense _⟩
      | _ => exact ⟨c, rfl⟩
    rw [h]
    exact nofun
  | paged c =>
    obtain ⟨c', h⟩ : ∃ c', Exec.after (call chain o) (paged c) = paged c' := by
      cases o with
      | setPast => exact ⟨c, rfl⟩
      | tryLoadPrefix => exact ⟨_, (Exec.after_dropped _ _).trans (Exec.stateOf_embed paged _)⟩
      | _ => exact ⟨_, Exec.stateOf_embed paged _⟩
    rw [h]
    exact nofun
  | hf c =>
    have hshort : c.Short := fun p hp => hc c p rfl hp
    obtain ⟨c', h, hc'⟩ : ∃ c', Exec.after (call chain o) (hf c) = hf c' ∧ c'.Short := by
      cases o with
      | append => exact ⟨c, rfl, hshort⟩
      | setPast batchIdx past =>
        exact ⟨_, Exec.stateOf_embed hf _, HFKVCache.setPast_keeps batchIdx past c hshort⟩
      | tryLoadPrefix batchIdx tokenIds =>
        exact ⟨_, (Exec.after_dropped _ _).trans (Exec.stateOf_embed hf _),
          HFKVCache.tryLoadPrefix_keeps chain batchIdx tokenIds c hshort⟩
      | registerPrefix batchIdx tokenIds =>
        exact ⟨_, Exec.stateOf_embed hf _, HFKVCache.registerPrefix_keeps batchIdx tokenIds c hshort⟩
      | resetSlot batchIdx =>
        exact ⟨_, Exec.stateOf_embed hf _, HFKVCache.resetSlot_keeps batchIdx c hshort⟩
    rw [h]
    intro _ p he hp
    cases he
    exact hc' p hp

theorem Reachable.short (h : Reachable chain c) : c.Short := by
  obtain ⟨c₀, ops, hinit, rfl⟩ := h
  refine Exec.runAll_keeps (fun o _ => call_short o) ?_
  cases hinit with
  | paged h => exact nofun
  | hf maxSeqLen enablePrefixCache blockSize maxEntries rowBytes batchSize =>
    intro h p he hp
    cases he
    cases enablePrefixCache with
    | false => cases hp
    | true =>
      cases hp
      exact nofun

end KVCacheType

/-! ## The rows of a prefill batch -/

/-- What `prefill` needs of its padded rows: a real token in each, the slice `[-valid_len:]` exact,
and a last position to sample from. -/
def RealRows (padId : Nat) (tokenLists : List (List Nat)) : Prop :=
  ∃ tokenIds inputLens, batchTokenIds tokenLists padId = .ok (tokenIds, inputLens) ∧
    ∀ (i : Nat) (h : i < tokenLists.length), ∃ row validLen, tokenIds[i]? = some row ∧
      inputLens[i]? = some validLen ∧ 1 ≤ validLen ∧ lastSlice validLen row = tokenLists[i] ∧
      row ≠ []

theorem realRows_iff {padId : Nat} {tokenLists : List (List Nat)} (hne : tokenLists ≠ []) :
    RealRows padId tokenLists ↔ ∀ tokens ∈ tokenLists, tokens ≠ [] := by
  unfold RealRows batchTokenIds
  cases hm : (tokenLists.map List.length).max? with
  | none => exact absurd (List.map_eq_nil_iff.mp (List.max?_eq_none_iff.mp hm)) hne
  | some maxLen =>
    constructor
    · rintro ⟨tokenIds, inputLens, he, hrows⟩ tokens hmem hnil
      cases he
      obtain ⟨i, hi, rfl⟩ := List.getElem_of_mem hmem
      obtain ⟨row, validLen, -, hlen, hpos, -⟩ := hrows i hi
      rw [List.getElem?_map, List.getElem?_eq_getElem hi, hnil] at hlen
      cases hlen
      exact absurd hpos (by decide)
    · intro hall
      refine ⟨_, _, rfl, fun i hi => ⟨padRow padId maxLen tokenLists[i], tokenLists[i].length,
        by simp [hi], by simp [hi], ?_, ?_, ?_⟩⟩
      · exact List.length_pos_iff.mpr (hall _ (List.getElem_mem hi))
      · exact lastSlice_append (hall _ (List.getElem_mem hi))
      · simp [padRow, hall _ (List.getElem_mem hi)]

namespace ModelRunner

variable {chain : Int → List Nat → Int}

/-- A request that still has prompt tokens to prefill. -/
structure Pending (q : InferenceRequest Nat) : Prop where
  chunk : 1 ≤ q.prefillChunkSize
  offset : q.prefillOffset < q.numPromptTokens
  fresh : q.slotPrepared = false → q.prefillOffset = 0

/-- The next chunk is empty once the offset is at the end of the prompt. -/
theorem chunkTokens_ne_nil_iff {q : InferenceRequest Nat} (hchunk : 1 ≤ q.prefillChunkSize) :
    chunkTokens q ≠ [] ↔ q.prefillOffset < q.numPromptTokens := by
  refine ⟨fun hne => ?_, fun hoff => (chunkTokens_spec hchunk hoff).1⟩
  by_contra hoff
  refine hne (List.drop_eq_nil_of_le ?_)
  rw [List.length_take]
  unfold InferenceRequest.numPromptTokens at hoff
  omega

/-- What preparing a slot leaves: the other requests, the prompt and the chunk size, and tokens to
prefill unless the whole prompt was restored. -/
structure Prepared (chain : Int → List Nat → Int) (s s' : ModelRunner Row) (r : Ref) : Prop where
  prefixes : KVCacheType.SamePrefixes chain s.cache s'.cache
  others : ∀ r', r' ≠ r → s'.requests r' = s.requests r'
  chunk : (s'.requests r).prefillChunkSize = (s.requests r).prefillChunkSize
  offset : (s'.requests r).prefillOffset < (s'.requests r).numPromptTokens ↔
    ((s.requests r).slotPrepared = false →
      ¬s.cache.WholePromptStored chain (s.requests r).promptTokenIds)

theorem onCache_eq_ok {α : Type} {m : KVCacheType.M Row α} {s s' : ModelRunner Row} {a : α}
    (h : (onCache m).run s = .ok a s') : ∃ c', m.run s.cache = .ok a c' ∧
      s' = { s with cache := c' } := by
  cases hm : m.run s.cache with
  | ok a' c' =>
    have hok : (onCache m).run s = .ok a' { s with cache := c' } := Exec.run_within_ok hm
    rw [hok] at h
    cases h
    exact ⟨c', rfl, rfl⟩
  | error e c' =>
    have herror : (onCache m).run s = .error e { s with cache := c' } := Exec.run_within_error hm
    rw [herror] at h
    cases h

theorem loadPrefix_ok {s s' : ModelRunner Row} (hshort : s.cache.Short) {b : Nat} {prompt : List Nat}
    (hne : prompt ≠ []) {n : Nat} (h : (loadPrefix chain b prompt).run s = .ok n s') :
    s'.requests = s.requests ∧
      (n < prompt.length ↔ ¬s.cache.WholePromptStored chain prompt) ∧
      KVCacheType.SamePrefixes chain s.cache s'.cache := by
  unfold loadPrefix at h
  rw [Exec.run_bind_ok (EStateM.run_get s)] at h
  split at h
  · obtain ⟨c', hrun, rfl⟩ := onCache_eq_ok h
    obtain ⟨hlt, hsame⟩ := KVCacheType.tryLoadPrefix_ok hshort hne hrun
    exact ⟨rfl, hlt, hsame⟩
  · next hp =>
    cases h
    refine ⟨rfl, iff_of_true (List.length_pos_iff.mpr hne) ?_, KVCacheType.SamePrefixes.refl _⟩
    cases hc : s.cache with
    | paged c => rw [hc] at hp; exact absurd rfl hp
    | _ => exact id

/-- **The first loop of `prefill` for one request**, where it goes through. -/
theorem prepareSlot_ok {s s' : ModelRunner Row} (hshort : s.cache.Short) {r : Ref}
    (hpending : Pending (s.requests r)) (h : (prepareSlot chain r).run s = .ok () s') :
    Prepared chain s s' r := by
  have hne : (s.requests r).promptTokenIds ≠ [] :=
    List.ne_nil_of_length_pos (Nat.lt_of_le_of_lt (Nat.zero_le _) hpending.offset)
  unfold prepareSlot at h
  rw [Exec.run_bind_ok (EStateM.run_get s)] at h
  by_cases hfresh : (s.requests r).slotPrepared = false
  · simp only [if_pos hfresh] at h
    cases hb : batchIdx (s.requests r) with
    | error e => rw [hb] at h; cases h
    | ok b =>
      rw [hb, Exec.ofExcept_ok, pure_bind] at h
      obtain ⟨n, s₁, hload, h⟩ := Exec.run_bind_eq_ok h
      obtain ⟨hreq, hlt, hsame⟩ := loadPrefix_ok hshort hne hload
      by_cases hn : 0 < n
      · rw [if_pos hn, Exec.run_bind_ok (EStateM.run_modify _ s₁), EStateM.run_modify] at h
        cases h
        refine ⟨hsame, fun r' hr' => ?_, ?_, ?_⟩
        · simp [update, hr', hreq]
        · simp [update, hreq]
        · simp only [update, Function.update_self, hreq, InferenceRequest.numPromptTokens]
          rw [hlt]
          exact ⟨fun hw _ => hw, fun hw => hw hfresh⟩
      · have h0 : n = 0 := by omega
        have hlen := List.length_pos_iff.mpr hne
        rw [if_neg hn, if_pos (hpending.fresh hfresh)] at h
        obtain ⟨u, s₂, hreset, h⟩ := Exec.run_bind_eq_ok h
        obtain ⟨c', hrun, rfl⟩ := onCache_eq_ok hreset
        rw [EStateM.run_modify] at h
        cases h
        refine ⟨hsame.trans (KVCacheType.resetSlot_ok hrun), fun r' hr' => ?_, ?_, ?_⟩
        · simp [update, hr', hreq]
        · simp [update, hreq]
        · simp only [update, Function.update_self, hreq]
          exact iff_of_true hpending.offset fun _ => hlt.mp (by omega)
  · simp only [if_neg hfresh] at h
    cases h
    exact ⟨KVCacheType.SamePrefixes.refl _, fun _ _ => rfl, rfl,
      iff_of_true hpending.offset fun hf => absurd hf hfresh⟩

/-- **The first loop of `prefill`**, where it goes through: a request has tokens to prefill unless
its whole prompt was restored. -/
theorem prepareAll_ok : ∀ (rs : List Ref) {s s' : ModelRunner Row}, s.cache.Short → rs.Nodup →
    (∀ r ∈ rs, Pending (s.requests r)) → (forM rs (prepareSlot chain)).run s = .ok () s' →
    (∀ r, r ∉ rs → s'.requests r = s.requests r) ∧
    ∀ r ∈ rs, (s'.requests r).prefillChunkSize = (s.requests r).prefillChunkSize ∧
      ((s'.requests r).prefillOffset < (s'.requests r).numPromptTokens ↔
        ((s.requests r).slotPrepared = false →
          ¬s.cache.WholePromptStored chain (s.requests r).promptTokenIds))
  | [], s, s', _, _, _, h => by
    cases h
    exact ⟨fun _ _ => rfl, nofun⟩
  | r :: rs, s, s', hshort, hnd, hpending, h => by
    rw [List.forM_cons] at h
    obtain ⟨u, s₁, hfirst, hrest⟩ := Exec.run_bind_eq_ok h
    obtain ⟨hr, hnd⟩ := List.nodup_cons.mp hnd
    have hp := prepareSlot_ok hshort (hpending r List.mem_cons_self) hfirst
    have hother : ∀ r' ∈ rs, s₁.requests r' = s.requests r' := fun r' hr' =>
      hp.others r' fun he => hr (he ▸ hr')
    obtain ⟨hkeep, hrun⟩ := prepareAll_ok rs (hp.prefixes.short hshort) hnd
      (fun r' hr' => hother r' hr' ▸ hpending r' (List.mem_cons_of_mem r hr')) hrest
    refine ⟨fun r' hr' => ?_, fun r' hr' => ?_⟩
    · rw [List.mem_cons, not_or] at hr'
      rw [hkeep r' hr'.2, hp.others r' hr'.1]
    · rcases List.mem_cons.mp hr' with rfl | hmem
      · rw [hkeep r' hr]
        exact ⟨hp.chunk, hp.offset⟩
      · have hrest' := hrun r' hmem
        rw [hother r' hmem] at hrest'
        exact ⟨hrest'.1, hrest'.2.trans (imp_congr_right fun _ =>
          not_congr (hp.prefixes.stored _))⟩

end ModelRunner

/-! ## When a hit leaves work -/

/-- **A prefix hit leaves work for the forward pass exactly when not the whole prompt is stored.**
In every reachable cache a load that returns gives less than the prompt unless the prompt is whole
blocks that a paged prefix cache stores, and `prefill` has real rows for a batch unless that is so
for the prompt of a request whose slot is not prepared. -/
theorem prefixHit_leavesWork_iff {chain : Int → List Nat → Int} {c : KVCacheType Row}
    (h : c.Reachable chain) :
    (∀ (slot : Int) (prompt : List Nat), prompt ≠ [] → ∀ n c',
      (KVCacheType.tryLoadPrefix chain slot prompt).run c = .ok n c' →
      (n < prompt.length ↔ ¬c.WholePromptStored chain prompt)) ∧
    ∀ (requests : Ref → InferenceRequest Nat) (padId : Nat) (rs : List Ref) (s : ModelRunner Row),
      rs ≠ [] → rs.Nodup → (∀ r ∈ rs, ModelRunner.Pending (requests r)) →
      (forM rs (ModelRunner.prepareSlot chain)).run ⟨requests, c⟩ = .ok () s →
      (RealRows padId (rs.map fun r => ModelRunner.chunkTokens (s.requests r)) ↔
        ∀ r ∈ rs, (requests r).slotPrepared = false →
          ¬c.WholePromptStored chain (requests r).promptTokenIds) := by
  refine ⟨fun slot prompt hne n c' hrun => (KVCacheType.tryLoadPrefix_ok h.short hne hrun).1, ?_⟩
  intro requests padId rs s hne hnd hpending hrun
  obtain ⟨-, hrows⟩ := ModelRunner.prepareAll_ok rs (s := ⟨requests, c⟩) h.short hnd hpending hrun
  rw [realRows_iff (by simpa using hne), List.forall_mem_map]
  refine forall₂_congr fun r hr => ?_
  obtain ⟨hchunk, hoff⟩ := hrows r hr
  rw [ModelRunner.chunkTokens_ne_nil_iff (hchunk ▸ (hpending r hr).chunk)]
  exact hoff

/-- The calls that store a prompt of two full blocks. -/
def wholePrompt : List (KVCacheType.Call Nat) :=
  [.tryLoadPrefix 0 [1, 2, 3, 4], .append 0 0 [1, 2, 3, 4] [1, 2, 3, 4],
    .registerPrefix 0 [1, 2, 3, 4], .resetSlot 0]

theorem wholePrompt_leavesNoWork : ¬∀ c : KVCacheType Nat, c.Reachable PagedKVCache.sumChain →
    ∀ (slot : Int) (prompt : List Nat), prompt ≠ [] → ∀ n c',
      (KVCacheType.tryLoadPrefix PagedKVCache.sumChain slot prompt).run c = .ok n c' →
      n < prompt.length := by
  intro hall
  obtain ⟨c, h⟩ : ∃ c : PagedKVCache Nat Nat,
    PagedKVCache.initBatch ⟨1, 4, 2, true, 2⟩ (fun _ _ => 0) (fun _ _ => 0) 1 = .ok c := ⟨_, rfl⟩
  have hvalue : Exec.value? (KVCacheType.tryLoadPrefix PagedKVCache.sumChain 0 [1, 2, 3, 4])
      (Exec.runAll (KVCacheType.call PagedKVCache.sumChain) wholePrompt (.paged c)) = some 4 := by
    cases h
    decide +kernel
  obtain ⟨c', hrun⟩ := Exec.exists_of_value? hvalue
  exact absurd (hall _ ⟨_, wholePrompt, .paged h, rfl⟩ 0 [1, 2, 3, 4] (by decide) 4 c' hrun)
    (by decide)

/-- Two requests in slots of their own, with a prompt that is stored and one that is not. -/
def twoPrompts (r : Ref) : InferenceRequest Nat :=
  { requestId := toString r
    promptTokenIds := if r = 0 then [1, 2, 3, 4] else [1, 2, 3]
    maxNewTokens := 1
    state := .prefill
    batchIdx := some r }

theorem twoPrompts_leavesWork_iff : ∃ (c : PagedKVCache Nat Nat) (s s' : ModelRunner Nat),
    PagedKVCache.initBatch ⟨1, 4, 2, true, 2⟩ (fun _ _ => 0) (fun _ _ => 0) 2 = .ok c ∧
    s = ⟨twoPrompts, Exec.runAll (KVCacheType.call PagedKVCache.sumChain) wholePrompt (.paged c)⟩ ∧
    (forM [0, 1] (ModelRunner.prepareSlot PagedKVCache.sumChain)).run s = .ok () s' ∧
    (RealRows 0 ([0, 1].map fun r => ModelRunner.chunkTokens (s'.requests r)) ↔
      ∀ r ∈ [0, 1], (twoPrompts r).slotPrepared = false →
        ¬s.cache.WholePromptStored PagedKVCache.sumChain (twoPrompts r).promptTokenIds) := by
  obtain ⟨c, h⟩ : ∃ c : PagedKVCache Nat Nat,
    PagedKVCache.initBatch ⟨1, 4, 2, true, 2⟩ (fun _ _ => 0) (fun _ _ => 0) 2 = .ok c := ⟨_, rfl⟩
  have hvalue : Exec.value? (forM [0, 1] (ModelRunner.prepareSlot PagedKVCache.sumChain))
      ⟨twoPrompts, Exec.runAll (KVCacheType.call PagedKVCache.sumChain) wholePrompt (.paged c)⟩
        = some () := by
    cases h
    decide +kernel
  obtain ⟨s', hrun⟩ := Exec.exists_of_value? hvalue
  refine ⟨c, _, s', h, rfl, hrun, (prefixHit_leavesWork_iff ⟨_, wholePrompt, .paged h, rfl⟩).2
    twoPrompts 0 [0, 1] s' (by decide) (by decide) (fun r hr => ?_) hrun⟩
  simp only [List.mem_cons, List.not_mem_nil, or_false] at hr
  rcases hr with rfl | rfl <;> exact ⟨by decide, by decide, fun _ => rfl⟩

end Nifre
