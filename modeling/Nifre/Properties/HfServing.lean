import Nifre.Inference.HfAuto
import Nifre.Properties.HfContents
import Nifre.Properties.ContinuousBatching

/-!
# Prefix caching on Hugging Face models does not change outputs

A model is causal when the past and the logits of a token list are functions of its prefixes, and
continuing from a past computes what starting over computes. The engine serves such a model with
prefix caching on or off, so in both cases a completed request has the tokens of the plain greedy
reference.
-/

namespace Nifre

open Digest

variable {Row Score : Type}

/-- What is assumed of a Hugging Face model. `row l tokens` are the key and the value of the last
token at layer `l`, and `logits tokens` its logits. -/
structure HfCausalLM.Causal (lm : HfCausalLM Row Score) (row : Nat → List Nat → Row × Row)
    (logits : List Nat → List Score) (vocabSize : Nat) : Prop where
  numLayers_pos : 0 < lm.config.numLayers
  vocabSize_pos : 0 < vocabSize
  vocabulary : ∀ tokens, (logits tokens).length = vocabSize
  scratch : ∀ ids, ids ≠ [] → lm.scratch ids
    = .ok (prefixRows logits ids, pastOf lm.config.numLayers row ids)
  continues : ∀ tokens ids, tokens ≠ [] → ids ≠ [] → ∃ left,
    (lm.resume ids).run (pastOf lm.config.numLayers row tokens)
      = .ok (chunkRows logits tokens ids, pastOf lm.config.numLayers row (tokens ++ ids)) left

theorem HfCausalLM.Causal.vocabulary_ne_nil {lm : HfCausalLM Row Score}
    {row : Nat → List Nat → Row × Row} {logits : List Nat → List Score} {vocabSize : Nat}
    (h : lm.Causal row logits vocabSize) (tokens : List Nat) : logits tokens ≠ [] :=
  List.ne_nil_of_length_pos ((h.vocabulary tokens).symm ▸ h.vocabSize_pos)

/-- What a slot stores of the tokens it holds. -/
def slotPast (numLayers : Nat) (row : Nat → List Nat → Row × Row) (tokens : List Nat) :
    Option (Past Row) :=
  if tokens = [] then none else some (pastOf numLayers row tokens)

/-- The slots store the past of the tokens they hold. There is a prefix cache only where it is
`on`, and its entries are sound. -/
structure HFKVCache.Stores (chain : Int → List Nat → Int) (P : Set (List (List Nat))) (on : Prop)
    (config : ModelConfig) (row : Nat → List Nat → Row × Row) (held : Nat → List Nat)
    (c : HFKVCache Nat Row) : Prop where
  maxSeqLen : c.maxSeqLen = config.maxSeqLen
  slots : ∀ b < c.batchSize, c.past b = slotPast config.numLayers row (held b)
  prefixCache : ∀ p, c.prefixCache = some p → on ∧ p.blockSize = config.blockSize ∧
    p.Sound chain P config.numLayers row

namespace HFKVCache

variable {chain : Int → List Nat → Int} {P : Set (List (List Nat))} {on : Prop}
  {config : ModelConfig} {row : Nat → List Nat → Row × Row} {held : Nat → List Nat}
  {c : HFKVCache Nat Row} {b : Nat}

theorem slotOf_run (h : b < c.batchSize) : (slotOf (b : Int)).run c = .ok b c := by
  unfold slotOf
  rw [Exec.run_bind_ok (EStateM.run_get c), pyIndex_natCast h]
  rfl

/-- The slot takes the past of other tokens. -/
theorem Stores.store (h : Stores chain P on config row held c) (b : Nat) (tokens : List Nat)
    (length : Nat) : Stores chain P on config row (Function.update held b tokens)
      (c.store b (slotPast config.numLayers row tokens) length) where
  maxSeqLen := h.maxSeqLen
  slots := by
    intro i hi
    by_cases hib : i = b
    · subst hib
      simp [HFKVCache.store]
    · simp only [HFKVCache.store, Function.update_of_ne hib]
      exact h.slots i hi
  prefixCache := h.prefixCache

theorem resetSlot_run (h : Stores chain P on config row held c) (hb : b < c.batchSize) :
    (resetSlot (b : Int)).run c = .ok () (c.store b none 0) ∧
      Stores chain P on config row (Function.update held b []) (c.store b none 0) := by
  refine ⟨?_, h.store b [] 0⟩
  unfold resetSlot
  rw [Exec.run_bind_ok (slotOf_run hb)]
  rfl

/-- The prefix cache changed in the order of its entries or by a registered prompt. -/
theorem Stores.withPrefixCache (h : Stores chain P on config row held c) {p : BlockPrefixCache Nat Row}
    (hon : on) (hbs : p.blockSize = config.blockSize)
    (hp : p.Sound chain P config.numLayers row) :
    Stores chain P on config row held { c with prefixCache := some p } where
  maxSeqLen := h.maxSeqLen
  slots := h.slots
  prefixCache := by
    rintro q hq
    cases hq
    exact ⟨hon, hbs, hp⟩

/-- **`try_load_prefix`** restores a part of the prompt that leaves at least one token. -/
theorem tryLoadPrefix_run (h : Stores chain P on config row held c) (hpos : 0 < config.numLayers)
    (hash : on → CollisionFree chain BlockPrefixCache.rootHash P) (hb : b < c.batchSize)
    {prompt : List Nat} (hne : prompt ≠ [])
    (hP : on → fullBlocks config.blockSize prompt ∈ P) :
    ∃ n c', (tryLoadPrefix chain (b : Int) prompt).run c = .ok n c' ∧
      c'.batchSize = c.batchSize ∧ n < prompt.length ∧
      Stores chain P on config row (if n = 0 then held else Function.update held b (prompt.take n))
        c' := by
  have hlen := List.length_pos_iff.mpr hne
  unfold tryLoadPrefix
  rw [Exec.run_bind_ok (EStateM.run_get c)]
  cases hp : c.prefixCache with
  | none => exact ⟨0, c, rfl, rfl, hlen, by rw [if_pos rfl]; exact h⟩
  | some p =>
    obtain ⟨hon, hbs, hsound⟩ := h.prefixCache p hp
    have hchain : fullBlocks p.blockSize prompt ∈ P := by rw [hbs]; exact hP hon
    obtain ⟨p', hrun, hsizes, hsound'⟩ := BlockPrefixCache.lookup_run hsound (hash hon) hchain
    have hcache : (onPrefixCache p (BlockPrefixCache.lookup chain prompt)).run c = .ok _ _ :=
      Exec.run_within_ok hrun
    have h' := h.withPrefixCache hon (hsizes.blockSize.trans hbs) hsound'
    simp only
    rw [Exec.run_bind_ok hcache]
    set m := (p.found chain prompt).length with hm
    by_cases h0 : m = 0
    · rw [if_pos h0]
      exact ⟨0, _, rfl, rfl, hlen, by rw [if_pos rfl]; exact h'⟩
    · rw [if_neg h0]
      have hlt : m * p.blockSize < prompt.length := BlockPrefixCache.found_lt chain hne
      have hn : m * p.blockSize ≠ 0 :=
        Nat.mul_ne_zero h0 (Nat.ne_of_gt hsound.blockSize_pos)
      have htake : prompt.take (m * p.blockSize) ≠ [] := by
        rw [Ne, List.take_eq_nil_iff]
        exact fun hc => hc.elim hn hne
      -- the past that is found is that of the blocks found, and not of the whole prompt
      have hpast := pastKeyValuesLength_pastOf hpos row (prompt.take (m * p.blockSize))
      rw [List.length_take, Nat.min_eq_left (Nat.le_of_lt hlt)] at hpast
      have hstore := h'.store b (prompt.take (m * p.blockSize)) (m * p.blockSize)
      rw [slotPast, if_neg htake] at hstore
      cases hlayers : pastOf config.numLayers row (prompt.take (m * p.blockSize)) with
      | nil =>
        rw [hlayers] at hpast
        exact absurd hpast.symm hn
      | cons layer layers =>
        rw [hlayers] at hpast hstore
        have hkeys : layer.keys.length = m * p.blockSize := hpast
        refine ⟨m * p.blockSize, _, ?_, ?_, hlt, by rw [if_neg hn]; exact hstore⟩
        · simp only [hkeys]
          rw [Exec.run_bind_ok (slotOf_run (c := { c with prefixCache := some p' }) hb)]
          rfl
        · rfl

/-- **`register_prefix`** of the prompt that a slot holds changes no slot. -/
theorem registerPrefix_run (h : Stores chain P on config row held c) (hb : b < c.batchSize)
    {prompt : List Nat} (hheld : held b = prompt)
    (hP : on → fullBlocks config.blockSize prompt ∈ P) :
    ∃ c', (registerPrefix chain (b : Int) prompt).run c = .ok () c' ∧
      c'.batchSize = c.batchSize ∧ Stores chain P on config row held c' := by
  unfold registerPrefix
  rw [Exec.run_bind_ok (EStateM.run_get c)]
  cases hp : c.prefixCache with
  | none => exact ⟨c, rfl, rfl, h⟩
  | some p =>
    obtain ⟨hon, hbs, hsound⟩ := h.prefixCache p hp
    have hpast := h.slots b hb
    rw [hheld] at hpast
    simp only
    rw [Exec.run_bind_ok (slotOf_run hb), hpast]
    by_cases hne : prompt = []
    · rw [slotPast, if_pos hne]
      exact ⟨c, rfl, rfl, h⟩
    · rw [slotPast, if_neg hne]
      have hchain : fullBlocks p.blockSize prompt ∈ P := by rw [hbs]; exact hP hon
      obtain ⟨p', hrun, hsizes, hsound'⟩ := BlockPrefixCache.insert_sound hsound hchain
        (pastKeyValuesLength (some (pastOf config.numLayers row prompt)))
      exact ⟨_, Exec.run_within_ok hrun, rfl,
        h.withPrefixCache hon (hsizes.blockSize.trans hbs) hsound'⟩

end HFKVCache

/-! ## Forward passes -/

namespace HfCausalLM

variable {lm : HfCausalLM Row Score} {row : Nat → List Nat → Row × Row}
  {logits : List Nat → List Score} {vocabSize : Nat} {chain : Int → List Nat → Int}
  {P : Set (List (List Nat))} {on : Prop} {held : Nat → List Nat}

/-- The model on what a slot stores; the slot's past is the next thing that is replaced. -/
theorem Causal.outputs_run (h : lm.Causal row logits vocabSize) (tokens : List Nat)
    {ids : List Nat} (hids : ids ≠ []) (slot : Nat) (c : HFKVCache Nat Row) : ∃ past,
    (lm.outputs ids slot (slotPast lm.config.numLayers row tokens)).run c
      = .ok (chunkRows logits tokens ids, pastOf lm.config.numLayers row (tokens ++ ids))
        { c with past := Function.update c.past slot past } := by
  by_cases ht : tokens = []
  · subst ht
    refine ⟨c.past slot, ?_⟩
    rw [slotPast, if_pos rfl, outputs, h.scratch ids hids, Function.update_eq_self]
    rfl
  · obtain ⟨left, hrun⟩ := h.continues tokens ids ht hids
    refine ⟨some left, ?_⟩
    rw [slotPast, if_neg ht, outputs]
    exact Exec.run_within_ok hrun

/-- The last position of a chunk has the logits of all tokens up to it. -/
theorem lastSlice_chunkRows (logits : List Nat → List Score) (tokens : List Nat) {ids : List Nat}
    (hids : ids ≠ []) : lastSlice 1 (chunkRows logits tokens ids) = [logits (tokens ++ ids)] := by
  obtain ⟨n, hn⟩ : ∃ n, ids.length = n + 1 := Nat.exists_eq_add_one.mpr (List.length_pos_iff.mpr hids)
  rw [lastSlice, if_neg Nat.one_ne_zero, length_chunkRows, chunkRows, hn, Nat.add_sub_cancel,
    List.range_succ, List.map_append, List.drop_append_of_le_length (by simp)]
  simp [← hn]

/-- **One row**: its slot takes the row's tokens, and the row is sampled from all of them. -/
theorem forwardRow_run (h : lm.Causal row logits vocabSize) {c : HFKVCache Nat Row}
    (hc : c.Stores chain P on lm.config row held) {slot : Nat} (hlt : slot < c.batchSize)
    {tokenIds : List Nat} {inputLen : Option Nat} {ids : List Nat}
    (hinput : inputIds tokenIds inputLen = ids) (hids : ids ≠ [])
    (hfits : (held slot).length + ids.length ≤ lm.config.maxSeqLen) :
    ∃ c', (lm.forwardRow tokenIds slot inputLen).run c = .ok [logits (held slot ++ ids)] c' ∧
      c'.batchSize = c.batchSize ∧
      c'.Stores chain P on lm.config row (Function.update held slot (held slot ++ ids)) := by
  have hlen := pastKeyValuesLength_pastOf h.numLayers_pos row (held slot ++ ids)
  have hpast : slotPast lm.config.numLayers row (held slot ++ ids)
      = some (pastOf lm.config.numLayers row (held slot ++ ids)) := by
    rw [slotPast, if_neg (by simp [hids])]
  have hget : (HFKVCache.getPast (slot : Int)).run c
      = .ok (slotPast lm.config.numLayers row (held slot)) c := by
    unfold HFKVCache.getPast
    rw [Exec.run_bind_ok (HFKVCache.slotOf_run hlt), Exec.run_bind_ok (EStateM.run_get c),
      hc.slots slot hlt]
    rfl
  obtain ⟨past, houtputs⟩ := h.outputs_run (held slot) hids slot c
  set c₁ : HFKVCache Nat Row := { c with past := Function.update c.past slot past } with hc₁
  have hset : (HFKVCache.setPast (slot : Int)
      (some (pastOf lm.config.numLayers row (held slot ++ ids)))).run c₁ = .ok ()
        (c.store slot (slotPast lm.config.numLayers row (held slot ++ ids))
          (held slot ++ ids).length) := by
    unfold HFKVCache.setPast
    have hroom : ¬c₁.maxSeqLen < (held slot ++ ids).length := by
      show ¬c.maxSeqLen < _
      rw [hc.maxSeqLen, List.length_append]
      omega
    have hstored : c₁.store slot (slotPast lm.config.numLayers row (held slot ++ ids))
        (held slot ++ ids).length = c.store slot (slotPast lm.config.numLayers row
          (held slot ++ ids)) (held slot ++ ids).length := by
      rw [hc₁, HFKVCache.store, HFKVCache.store, Function.update_idem]
    have hlt₁ : slot < c₁.batchSize := hlt
    rw [Exec.run_bind_ok (EStateM.run_get c₁), hlen, if_neg hroom,
      Exec.run_bind_ok (HFKVCache.slotOf_run hlt₁), ← hpast, ← hstored]
    rfl
  refine ⟨c.store slot (slotPast lm.config.numLayers row (held slot ++ ids))
    (held slot ++ ids).length, ?_, rfl, hc.store slot (held slot ++ ids) (held slot ++ ids).length⟩
  unfold forwardRow
  rw [Exec.run_bind_ok hget, hinput, Exec.run_bind_ok houtputs, Exec.run_bind_ok hset,
    lastSlice_chunkRows logits _ hids]
  rfl

/-- The slot and the real tokens of a row. -/
def slotTokens (input : List Nat × Nat × Option Nat) : Nat × List Nat :=
  (input.2.1, inputIds input.1 input.2.2)

/-- **The rows of a batch, one after the other.** -/
theorem forwardRows_run (h : lm.Causal row logits vocabSize) :
    ∀ (inputs : List (List Nat × Nat × Option Nat)) {c : HFKVCache Nat Row} {held : Nat → List Nat},
      c.Stores chain P on lm.config row held → ((inputs.map slotTokens).map Prod.fst).Nodup →
      (∀ r ∈ inputs.map slotTokens, r.1 < c.batchSize ∧ r.2 ≠ [] ∧
        (held r.1).length + r.2.length ≤ lm.config.maxSeqLen) →
      ∃ c', (inputs.mapM fun input => lm.forwardRow input.1 input.2.1 input.2.2).run c
          = .ok ((inputs.map slotTokens).map fun r => [logits (held r.1 ++ r.2)]) c' ∧
        c'.batchSize = c.batchSize ∧
        c'.Stores chain P on lm.config row (feed held (inputs.map slotTokens))
  | [], c, held, hc, _, _ => ⟨c, rfl, rfl, hc⟩
  | (tokenIds, slot, inputLen) :: inputs, c, held, hc, hnd, hrows => by
    set ids := inputIds tokenIds inputLen with hids
    have hmap : ((tokenIds, slot, inputLen) :: inputs).map slotTokens
        = (slot, ids) :: inputs.map slotTokens := rfl
    rw [hmap] at hnd hrows ⊢
    rw [List.map_cons, List.nodup_cons] at hnd
    obtain ⟨hlt, hne, hfits⟩ := hrows (slot, ids) List.mem_cons_self
    obtain ⟨c₁, hrun₁, hsize₁, hc₁⟩ := forwardRow_run h hc hlt hids.symm hne hfits
    -- the other rows are in other slots
    have hother : ∀ r ∈ inputs.map slotTokens,
        Function.update held slot (held slot ++ ids) r.1 = held r.1 := by
      intro r hr
      have hrs : r.1 ≠ slot := fun he => hnd.1 (List.mem_map.mpr ⟨r, hr, he⟩)
      exact Function.update_of_ne hrs _ _
    obtain ⟨c₂, hrun₂, hsize₂, hc₂⟩ := forwardRows_run h inputs hc₁ hnd.2 fun r hr => by
      rw [hsize₁, hother r hr]
      exact hrows r (List.mem_cons_of_mem _ hr)
    refine ⟨c₂, ?_, hsize₂.trans hsize₁, hc₂⟩
    rw [List.mapM_cons, Exec.run_bind_ok hrun₁, Exec.run_bind_ok hrun₂, List.map_cons]
    have hrest : (inputs.map slotTokens).map (fun r =>
          [logits (Function.update held slot (held slot ++ ids) r.1 ++ r.2)])
        = (inputs.map slotTokens).map fun r => [logits (held r.1 ++ r.2)] :=
      List.map_congr_left fun r hr => by rw [hother r hr]
    rw [hrest]
    rfl

/-- The rows of a batch are its slots with their real tokens. -/
theorem batchRows_slotTokens {padId : Nat} {rows : List (Nat × List Nat)}
    {tokenIds : List (List Nat)} {inputLens : Option (List Nat)}
    (h : BatchOf padId rows tokenIds inputLens) :
    (batchRows tokenIds inputLens (rows.map Prod.fst)).map slotTokens = rows := by
  cases h with
  | @padded _ _ inputLens hb =>
    unfold batchTokenIds at hb
    split at hb
    · cases hb
    · next maxLen _ =>
      cases hb
      refine List.ext_getElem (by simp [batchRows]) fun i hi hi' => ?_
      simp [batchRows, slotTokens, inputIds, padRow]
  | single rows =>
    refine List.ext_getElem (by simp [batchRows]) fun i hi hi' => ?_
    simp [batchRows, slotTokens, inputIds]

/-- **A forward pass**: the slots of the batch take their rows' tokens, and every row is sampled
from all tokens of its slot. -/
theorem call_run (h : lm.Causal row logits vocabSize) {c : HFKVCache Nat Row}
    (hc : c.Stores chain P on lm.config row held) {rows : List (Nat × List Nat)}
    {tokenIds : List (List Nat)} {inputLens : Option (List Nat)} {padId : Nat}
    (hfits : FitsIn c.batchSize lm.config.maxSeqLen held rows)
    (hbatch : BatchOf padId rows tokenIds inputLens) :
    ∃ out c', (lm.call tokenIds inputLens (rows.map Prod.fst)).run (.hf c) = .ok out (.hf c') ∧
      c'.batchSize = c.batchSize ∧ c'.Stores chain P on lm.config row (feed held rows) ∧
      ∀ (i : Nat) (hi : i < rows.length),
        lastLogits out i = some (logits (held rows[i].1 ++ rows[i].2)) := by
  have hrows := batchRows_slotTokens hbatch
  obtain ⟨c', hrun, hsize, hc'⟩ := forwardRows_run h
    (batchRows tokenIds inputLens (rows.map Prod.fst)) hc (by rw [hrows]; exact hfits.nodup)
    fun r hr => by
      rw [hrows] at hr
      exact ⟨hfits.slot_lt r hr, hfits.tokens r hr, hfits.fits r hr⟩
  rw [hrows] at hrun hc'
  have hcat : catRows (rows.map fun r => [logits (held r.1 ++ r.2)])
      = .ok (rows.map fun r => [logits (held r.1 ++ r.2)]) := by
    match rows, hfits.ne_nil with
    | r :: rest, _ =>
      rw [List.map_cons, catRows, if_pos]
      intro r' hr'
      obtain ⟨r'', -, rfl⟩ := List.mem_map.mp hr'
      simp [h.vocabulary]
  have hcall : (lm.callOn tokenIds inputLens (rows.map Prod.fst)).run c
      = .ok (rows.map fun r => [logits (held r.1 ++ r.2)]) c' := by
    unfold callOn
    rw [Exec.run_bind_ok hrun, hcat]
    rfl
  refine ⟨_, c', congrArg (Exec.embed KVCacheType.hf) hcall, hsize, hc', fun i hi => ?_⟩
  rw [lastLogits, List.getElem?_eq_getElem (by simpa using hi)]
  simp

/-! ## Serving -/

/-- The engine's cache stores what the slots hold. -/
def Holds (lm : HfCausalLM Row Score) (row : Nat → List Nat → Row × Row)
    (chain : Int → List Nat → Int) (P : Set (List (List Nat))) (on : Prop) :
    KVCacheType Row → (Nat → List Nat) → Prop
  | .hf c, held => c.Stores chain P on lm.config row held
  | _, _ => False

theorem holds_hf {c : KVCacheType Row} (h : lm.Holds row chain P on c held) :
    ∃ c', c = .hf c' ∧ c'.Stores chain P on lm.config row held := by
  cases c with
  | dense c => exact h.elim
  | paged c => exact h.elim
  | hf c => exact ⟨c, rfl, h⟩

variable [LinearOrder Score] [Inhabited Row]

/-- **The engine can serve a causal Hugging Face model**, with prefix caching where it is `on`. -/
theorem Causal.serves (h : lm.Causal row logits vocabSize) (hbs : on → 0 < lm.config.blockSize)
    (hmax : on → 0 < lm.prefixCacheMaxEntries)
    (hash : on → CollisionFree chain BlockPrefixCache.rootHash P) :
    Serves chain lm.inferenceModel (lm.Holds row chain P on)
      (fun prompt => on → fullBlocks lm.config.blockSize prompt ∈ P) (fun v => v = true → on)
      (nextToken logits) where
  makeCache := by
    intro usePaged usePrefix n c hallowed hmake
    cases hmake
    refine ⟨rfl, rfl, fun _ _ => rfl, ?_⟩
    intro p hp
    cases usePrefix with
    | false => cases hp
    | true =>
      cases hp
      exact ⟨hallowed rfl, rfl, hbs (hallowed rfl), hmax (hallowed rfl), nofun⟩
  resetSlot := by
    intro c held b hc hb
    obtain ⟨c, rfl, hc⟩ := holds_hf hc
    obtain ⟨hrun, hc'⟩ := HFKVCache.resetSlot_run hc hb
    exact ⟨_, congrArg (Exec.embed KVCacheType.hf) hrun, rfl, hc'⟩
  tryLoadPrefix := by
    intro c held b prompt hc hb _ hne hP
    obtain ⟨c, rfl, hc⟩ := holds_hf hc
    obtain ⟨n, c', hrun, hsize, hn, hc'⟩ := HFKVCache.tryLoadPrefix_run hc h.numLayers_pos hash hb
      hne hP
    exact ⟨n, _, congrArg (Exec.embed KVCacheType.hf) hrun, hsize, hn, hc'⟩
  registerPrefix := by
    intro c held b prompt hc hb _ hheld hP
    obtain ⟨c, rfl, hc⟩ := holds_hf hc
    obtain ⟨c', hrun, hsize, hc'⟩ := HFKVCache.registerPrefix_run hc hb hheld hP
    exact ⟨_, congrArg (Exec.embed KVCacheType.hf) hrun, hsize, hc'⟩
  prefill := by
    intro c held rows tokenIds inputLens hc hfits hbatch
    obtain ⟨c, rfl, hc⟩ := holds_hf hc
    obtain ⟨out, c', hrun, hsize, hc', hlast⟩ := call_run h hc hfits (.padded hbatch)
    refine ⟨out, _, hrun, hsize, hc', fun i hi => ?_⟩
    rw [ModelRunner.sampleRow_of_lastLogits (hlast i hi), sampleGreedy_nextToken h.vocabulary_ne_nil]
  decode := by
    intro c held rows hc hfits
    obtain ⟨c, rfl, hc⟩ := holds_hf hc
    obtain ⟨out, c', hrun, hsize, hc', hlast⟩ := call_run h hc hfits
      (.single rows : BatchOf 0 _ _ _)
    have hslots : (rows.map fun row => (row.1, [row.2])).map Prod.fst = rows.map Prod.fst := by
      rw [List.map_map]; rfl
    rw [hslots] at hrun
    refine ⟨out, _, hrun, hsize, hc', fun i hi => ?_⟩
    have hrow := hlast i (by simpa using hi)
    rw [List.getElem_map] at hrow
    rw [ModelRunner.sampleRow_of_lastLogits hrow, sampleGreedy_nextToken h.vocabulary_ne_nil]

end HfCausalLM

/-! ## With and without prefix caching -/

section

variable [LinearOrder Score] [Inhabited Row] {lm : HfCausalLM Row Score}
  {row : Nat → List Nat → Row × Row} {logits : List Nat → List Score} {vocabSize : Nat}
  {chain : Int → List Nat → Int}

/-- After a run on a causal model a completed request has the tokens of the greedy reference. -/
theorem hf_greedyTokens (h : lm.Causal row logits vocabSize) (hbs : 0 < lm.config.blockSize)
    (hmax : 0 < lm.prefixCacheMaxEntries) {on : Prop} {Allowed : Bool → Prop}
    (hon : ∀ v, Allowed v → v = true → on) {ops : List Engine.Op}
    (hash : on → CollisionFree chain BlockPrefixCache.rootHash
      (promptChains lm.config.blockSize ops))
    {maxConcurrentRequests prefillChunkSize maxTokensPerStep : Int}
    {usePagedKvCache usePrefixCache : Bool} (hchunk : 1 ≤ prefillChunkSize)
    (hallowed : Allowed usePrefixCache) {e : Engine Row}
    (hnew : Engine.new lm.inferenceModel maxConcurrentRequests prefillChunkSize maxTokensPerStep
      usePagedKvCache usePrefixCache = .ok e)
    (hlegal : Exec.Along (Engine.Legal lm.inferenceModel (fun _ => True) Allowed)
      (Engine.next chain lm.inferenceModel) e ops) {r : Ref}
    (hr : r ∈ (ops.foldl (Engine.next chain lm.inferenceModel) e).scheduler.completed.values) :
    let request := (ops.foldl (Engine.next chain lm.inferenceModel) e).scheduler.requests r
    greedyTokens logits request.promptTokenIds request.maxNewTokens.toNat
      = .ok request.outputTokenIds := by
  have hlegal' : Exec.Along (Engine.Legal lm.inferenceModel (fun prompt => on →
        fullBlocks lm.config.blockSize prompt ∈ promptChains lm.config.blockSize ops)
      fun v => v = true → on) (Engine.next chain lm.inferenceModel) e ops :=
    Engine.legal_inPlay hlegal (fun prompt hprompt _ => List.mem_map_of_mem hprompt) hon
  obtain ⟨held, hco⟩ := Engine.run_coherent (h.serves (fun _ => hbs) (fun _ => hmax) hash) hchunk
    (by rw [HfCausalLM.inferenceModel, Bool.true_and]; exact hon _ hallowed) hnew hlegal'
  exact hco.greedyTokens (sampleGreedy_nextToken h.vocabulary_ne_nil) hr

/-- **Prefix caching does not change outputs**: of two runs on a causal model, the first with prefix
caching and the second without it, two completed requests with the same prompt and the same number
of tokens to generate have the same output. -/
theorem hfPrefixCache_transparent (h : lm.Causal row logits vocabSize)
    (hbs : 1 ≤ lm.config.blockSize) (hmax : 1 ≤ lm.prefixCacheMaxEntries) {ops ops' : List Engine.Op}
    (hash : CollisionFree chain BlockPrefixCache.rootHash (promptChains lm.config.blockSize ops))
    {maxConcurrentRequests prefillChunkSize maxTokensPerStep maxConcurrentRequests'
      prefillChunkSize' maxTokensPerStep' : Int} {usePagedKvCache usePagedKvCache' : Bool}
    (hchunk : 1 ≤ prefillChunkSize) (hchunk' : 1 ≤ prefillChunkSize') {e e' : Engine Row}
    (hnew : Engine.new lm.inferenceModel maxConcurrentRequests prefillChunkSize maxTokensPerStep
      usePagedKvCache true = .ok e)
    (hnew' : Engine.new lm.inferenceModel maxConcurrentRequests' prefillChunkSize'
      maxTokensPerStep' usePagedKvCache' false = .ok e')
    (hlegal : Exec.Along (Engine.Legal lm.inferenceModel (fun _ => True) fun _ => True)
      (Engine.next chain lm.inferenceModel) e ops)
    (hlegal' : Exec.Along (Engine.Legal lm.inferenceModel (fun _ => True) (· = false))
      (Engine.next chain lm.inferenceModel) e' ops') :
    let s := (ops.foldl (Engine.next chain lm.inferenceModel) e).scheduler
    let s' := (ops'.foldl (Engine.next chain lm.inferenceModel) e').scheduler
    ∀ r ∈ s.completed.values, ∀ r' ∈ s'.completed.values,
      (s.requests r).promptTokenIds = (s'.requests r').promptTokenIds →
      (s.requests r).maxNewTokens = (s'.requests r').maxNewTokens →
      (s.requests r).outputTokenIds = (s'.requests r').outputTokenIds := by
  intro s s' r hr r' hr' hprompt hmaxNew
  have hon := hf_greedyTokens h hbs hmax (fun _ _ _ => trivial) (fun _ : True => hash) hchunk trivial
    hnew hlegal hr
  have hnone : ∀ v : Bool, v = false → v = true → False := fun v hv ht => by cases hv.symm.trans ht
  have hoff := hf_greedyTokens h hbs hmax hnone False.elim hchunk' rfl hnew' hlegal' hr'
  have houtputs := hon.symm.trans ((congrArg₂ (greedyTokens logits) hprompt
    (congrArg Int.toNat hmaxNew)).trans hoff)
  exact Except.ok.inj houtputs

end

/-! ## A causal model -/

/-- A model whose keys are the tokens themselves, so that the past tells what it is the past of. -/
def recallLM (config : ModelConfig) (prefixCacheMaxEntries : Nat)
    (logits : List Nat → List Score) : HfCausalLM Nat Score where
  config := config
  prefixCacheMaxEntries := prefixCacheMaxEntries
  rowBytes := 4
  scratch := fun ids =>
    .ok (chunkRows logits [] ids, pastOf config.numLayers (fun l t => (t.getLastD 0, l)) ids)
  resume := fun ids => do
    let tokens := ((← get).headD ⟨[], []⟩).keys
    let past := pastOf config.numLayers (fun l t => (t.getLastD 0, l)) (tokens ++ ids)
    set past
    pure (chunkRows logits tokens ids, past)

theorem prefixRows_getLastD (tokens : List Nat) :
    prefixRows (fun t => t.getLastD 0) tokens = tokens := by
  refine List.ext_getElem (by simp) fun i hi hi' => ?_
  rw [getElem_prefixRows, List.take_succ_eq_append_getElem hi', List.getLastD_concat]

theorem recallLM_causal (config : ModelConfig) (hpos : 0 < config.numLayers)
    (prefixCacheMaxEntries : Nat) {logits : List Nat → List Score} {vocabSize : Nat}
    (hvocab : 0 < vocabSize) (hlogits : ∀ tokens, (logits tokens).length = vocabSize) :
    (recallLM config prefixCacheMaxEntries logits).Causal (fun l t => (t.getLastD 0, l)) logits
      vocabSize where
  numLayers_pos := hpos
  vocabSize_pos := hvocab
  vocabulary := hlogits
  scratch := fun _ _ => rfl
  continues := by
    intro tokens ids _ _
    have hkeys : ((pastOf config.numLayers (fun l t => (t.getLastD 0, l)) tokens).headD
        ⟨[], []⟩).keys = tokens := by
      obtain ⟨n, hn⟩ := Nat.exists_eq_add_one.mpr hpos
      rw [hn, pastOf, List.range_succ_eq_map]
      exact prefixRows_getLastD tokens
    refine ⟨pastOf config.numLayers (fun l t => (t.getLastD 0, l)) (tokens ++ ids), ?_⟩
    simp only [recallLM]
    rw [Exec.run_bind_ok (EStateM.run_get _), hkeys]
    rfl

/-- Two prompts with a first block in common on one slot, prefilled in chunks of three. -/
def sharedPrompts : List Engine.Op :=
  [.addRequest "a" [1, 2, 3, 4, 5] 2, .step, .step, .step, .addRequest "b" [1, 2, 7] 2, .step, .step]

/-- Without prefix caching they are prefilled in chunks of one, side by side. -/
def sideBySide : List Engine.Op :=
  [.addRequest "a" [1, 2, 3, 4, 5] 2, .addRequest "b" [1, 2, 7] 2, .step, .step, .step, .step, .step,
    .step]

theorem sharedPrompts_transparent :
    ∃ e e', Engine.new (recallLM ⟨1, 8, 0, 2⟩ 2 sumScores).inferenceModel 1 3 8 true true = .ok e ∧
      Engine.new (recallLM ⟨1, 8, 0, 2⟩ 2 sumScores).inferenceModel 2 1 8 true false = .ok e' ∧
      let step := Engine.next (fun parent block => 10 * parent + block.sum)
        (recallLM ⟨1, 8, 0, 2⟩ 2 sumScores).inferenceModel
      let s := (sharedPrompts.foldl step e).scheduler
      let s' := (sideBySide.foldl step e').scheduler
      s.completed.values = [0, 1] ∧ (s.requests 1).prefixCacheHitTokens = 2 ∧
      s'.completed.values = [1, 0] ∧
      ∀ r ∈ s.completed.values, ∀ r' ∈ s'.completed.values,
        (s.requests r).promptTokenIds = (s'.requests r').promptTokenIds →
        (s.requests r).maxNewTokens = (s'.requests r').maxNewTokens →
        (s.requests r).outputTokenIds = (s'.requests r').outputTokenIds := by
  obtain ⟨e, h⟩ : ∃ e, Engine.new (recallLM ⟨1, 8, 0, 2⟩ 2 sumScores).inferenceModel 1 3 8 true true
    = .ok e := ⟨_, rfl⟩
  obtain ⟨e', h'⟩ : ∃ e', Engine.new (recallLM ⟨1, 8, 0, 2⟩ 2 sumScores).inferenceModel 2 1 8 true
    false = .ok e' := ⟨_, rfl⟩
  have hcausal := recallLM_causal ⟨1, 8, 0, 2⟩ Nat.one_pos 2 (Nat.succ_pos 4)
    length_sumScores
  have hash : CollisionFree (fun parent block => 10 * parent + (block.sum : Int))
      BlockPrefixCache.rootHash (promptChains 2 sharedPrompts) :=
    collisionFree_of_inits (fun _ hc => hc) (by decide)
  refine ⟨e, e', h, h', ?_, ?_, ?_, hfPrefixCache_transparent hcausal (by decide) (by decide) hash
    (by decide) (by decide) h h' ?_ ?_⟩
  all_goals
    cases h
    cases h'
    decide +kernel

end Nifre
