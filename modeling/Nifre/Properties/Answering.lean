import Nifre.Properties.PrefillPass
import Nifre.Properties.Serving

/-!
# Serving where calls may raise

`Answers` is what the engine needs of a model and its cache when the block pool may run out and a
prefix may be restored into a slot: nothing is promised of a call that raises. From it follows what
`prefill` and `decode` do to the requests of a batch, where they return.

* `Answers` — the calls of a cache and its model, where they return
* `ModelRunner.prefill_answers`, `ModelRunner.decode_answers` — the two forward passes
-/

namespace Nifre

/-- A hit has left a part of the prompt to the model. -/
def InferenceRequest.HitPart (q : InferenceRequest Nat) : Prop :=
  q.prefixCacheHitTokens < q.promptTokenIds.length

instance (q : InferenceRequest Nat) : Decidable q.HitPart := inferInstanceAs (Decidable (_ < _))

variable {Row Score : Type} [LinearOrder Score]

/-- As `Serves`, of the calls that return. -/
structure Answers (chain : Int → List Nat → Int) (model : InferenceModel Row Score)
    (Holds : KVCacheType Row → (Nat → List Nat) → Prop) (InPlay : List Nat → Prop)
    (Allowed : Bool → Prop) (next : List Nat → Nat) : Prop where
  makeCache : ∀ {usePagedKvCache usePrefixCache n c}, Allowed usePrefixCache →
    Engine.makeCache model usePagedKvCache usePrefixCache n = .ok c →
    c.batchSize = n ∧ Holds c fun _ => []
  resetSlot : ∀ {c c' held} {b : Nat}, Holds c held → b < c.batchSize →
    (KVCacheType.resetSlot (b : Int)).run c = .ok () c' →
    c'.batchSize = c.batchSize ∧ Holds c' (Function.update held b [])
  tryLoadPrefix : ∀ {c c' held} {b n : Nat} {prompt}, Holds c held → b < c.batchSize →
    InPlay prompt → (KVCacheType.tryLoadPrefix chain (b : Int) prompt).run c = .ok n c' →
    c'.batchSize = c.batchSize ∧
      Holds c' (if n = 0 then held else Function.update held b (prompt.take n))
  registerPrefix : ∀ {c c' held} {b : Nat}, Holds c held → b < c.batchSize → InPlay (held b) →
    (KVCacheType.registerPrefix chain (b : Int) (held b)).run c = .ok () c' →
    c'.batchSize = c.batchSize ∧ Holds c' held
  call : ∀ {c c' held rows tokenIds inputLens logits}, Holds c held →
    FitsIn c.batchSize model.config.maxSeqLen held rows →
    BatchOf model.config.padTokenId rows tokenIds inputLens →
    (model.call tokenIds inputLens (rows.map Prod.fst)).run c = .ok logits c' →
    c'.batchSize = c.batchSize ∧ Holds c' (feed held rows) ∧
      ∀ (i : Nat) (h : i < rows.length), ModelRunner.sampleRow logits i
        = .ok (next (held rows[i].1 ++ rows[i].2))

/-- Of fewer prompts. -/
theorem Answers.inPlay {chain : Int → List Nat → Int} {model : InferenceModel Row Score}
    {Holds : KVCacheType Row → (Nat → List Nat) → Prop} {InPlay InPlay' : List Nat → Prop}
    {Allowed : Bool → Prop} {next : List Nat → Nat}
    (h : Answers chain model Holds InPlay Allowed next)
    (himp : ∀ prompt, InPlay' prompt → InPlay prompt) :
    Answers chain model Holds InPlay' Allowed next :=
  { h with
    tryLoadPrefix := fun hh hb hin => h.tryLoadPrefix hh hb (himp _ hin)
    registerPrefix := fun hh hb hin => h.registerPrefix hh hb (himp _ hin) }

namespace ModelRunner

variable {chain : Int → List Nat → Int} {model : InferenceModel Row Score}
  {Holds : KVCacheType Row → (Nat → List Nat) → Prop} {InPlay : List Nat → Prop}
  {Allowed : Bool → Prop} {next : List Nat → Nat} {s s' : ModelRunner Row} {held : Nat → List Nat}
  {rs : List Ref}

/-! ## prefill -/

theorem loadPrefix_answers (hanswers : Answers chain model Holds InPlay Allowed next)
    (hc : Holds s.cache held) {b n : Nat} (hlt : b < s.cache.batchSize) {prompt : List Nat}
    (hplay : InPlay prompt) (hrun : (loadPrefix chain b prompt).run s = .ok n s') :
    ∃ c', s' = { s with cache := c' } ∧ c'.batchSize = s.cache.batchSize ∧
      Holds c' (if n = 0 then held else Function.update held b (prompt.take n)) := by
  unfold loadPrefix at hrun
  rw [Exec.run_bind_ok (EStateM.run_get s)] at hrun
  split at hrun
  · obtain ⟨c', hload, rfl⟩ := onCache_eq_ok hrun
    obtain ⟨hsize, hh⟩ := hanswers.tryLoadPrefix hc hlt hplay hload
    exact ⟨c', rfl, hsize, hh⟩
  · cases hrun
    exact ⟨s.cache, rfl, rfl, hc⟩

/-- **The first loop of `prefill` for one request**: where it returns, and what was restored is
less than the prompt, its slot holds its prompt up to the offset. -/
theorem prepareSlot_answers (hanswers : Answers chain model Holds InPlay Allowed next)
    (hc : Holds s.cache held) {r : Ref} {b : Nat} (hb : (s.requests r).batchIdx = some b)
    (hlt : b < s.cache.batchSize) (hjob : Job model.config.maxSeqLen InPlay (s.requests r))
    (hphase : Fresh (s.requests r) ∨ Filling (s.requests r) (held b))
    (hrun : (prepareSlot chain r).run s = .ok () s') (hpart : (s'.requests r).HitPart) :
    ∃ held', Holds s'.cache held' ∧ Touches [r] s s' held held' ∧
      Filling (s'.requests r) (held' b) := by
  unfold prepareSlot at hrun
  rw [Exec.run_bind_ok (EStateM.run_get s)] at hrun
  rcases hphase with hfresh | hfill
  · simp only [hfresh.prepared, if_true, batchIdx_ok hb, Exec.ofExcept_ok, pure_bind] at hrun
    obtain ⟨n, s₁, hload, hrun⟩ := Exec.run_bind_eq_ok hrun
    obtain ⟨c₁, rfl, hsize, hh⟩ := loadPrefix_answers hanswers hc hlt hjob.inPlay hload
    by_cases h0 : 0 < n
    · rw [if_neg (Nat.ne_of_gt h0)] at hh
      rw [if_pos h0, Exec.run_bind_ok (EStateM.run_modify _ _), EStateM.run_modify] at hrun
      cases hrun
      simp only [update, Function.update_idem, Function.update_self] at hpart ⊢
      refine ⟨_, hh, touches_update hb ⟨⟨rfl, rfl, rfl, rfl, rfl⟩, rfl, rfl, rfl⟩ hsize
        fun i hi => Function.update_of_ne hi _ _, ?_⟩
      simp only [Function.update_self]
      exact ⟨rfl, hpart, hfresh.state, hfresh.output, rfl⟩
    · obtain rfl : n = 0 := by omega
      rw [if_pos rfl] at hh
      rw [if_neg (Nat.lt_irrefl 0), if_pos hfresh.offset] at hrun
      obtain ⟨u, s₂, hreset, hrun⟩ := Exec.run_bind_eq_ok hrun
      obtain ⟨c₂, hclear, rfl⟩ := onCache_eq_ok hreset
      obtain ⟨hsize', hh'⟩ := hanswers.resetSlot hh (hsize ▸ hlt) hclear
      rw [EStateM.run_modify] at hrun
      cases hrun
      simp only [update]
      refine ⟨_, hh', touches_update hb ⟨⟨rfl, rfl, rfl, rfl, rfl⟩, rfl, rfl, rfl⟩
        (hsize'.trans hsize) fun i hi => Function.update_of_ne hi _ _, ?_⟩
      simp only [Function.update_self]
      exact ⟨rfl, by rw [hfresh.offset]; exact List.length_pos_iff.mpr hjob.prompt,
        hfresh.state, hfresh.output, by rw [hfresh.offset, List.take_zero]⟩
  · simp only [hfill.prepared, Bool.true_eq_false, if_false] at hrun
    cases hrun
    exact ⟨held, hc, touches_refl _ _ _, hfill⟩

theorem prepareAll_answers (hanswers : Answers chain model Holds InPlay Allowed next) :
    ∀ (rs : List Ref) {s : ModelRunner Row} {held : Nat → List Nat}, Holds s.cache held →
      InBatch model.config.maxSeqLen InPlay rs s →
      (∀ r ∈ rs, ∀ b, (s.requests r).batchIdx = some b →
        Fresh (s.requests r) ∨ Filling (s.requests r) (held b)) →
      (forM rs (prepareSlot chain)).run s = .ok () s' → (∀ r ∈ rs, (s'.requests r).HitPart) →
      ∃ held', Holds s'.cache held' ∧ Touches rs s s' held held' ∧
        ∀ r ∈ rs, ∀ b, (s'.requests r).batchIdx = some b → Filling (s'.requests r) (held' b)
  | [], s, held, hc, _, _, hrun, _ => by
    cases hrun
    exact ⟨held, hc, touches_refl _ _ _, fun r hr => absurd hr List.not_mem_nil⟩
  | r :: rs, s, held, hc, hbatch, hphase, hrun, hpart => by
    obtain ⟨b, hb, hlt⟩ := hbatch.slot r List.mem_cons_self
    rw [List.forM_cons] at hrun
    obtain ⟨u, s₁, hrun₁, hrun₂⟩ := Exec.run_bind_eq_ok hrun
    have hr : r ∉ rs := (List.nodup_cons.mp hbatch.nodup).1
    have hne : ∀ r' ∈ rs, r' ≠ r := fun r' hr' he => hr (he ▸ hr')
    -- the later requests do not change what was restored for `r`
    have hsame : s'.requests r = s₁.requests r :=
      (prepareAll_started (List.nodup_cons.mp hbatch.nodup).2 hrun₂).2 r hr
    obtain ⟨held₁, hc₁, ht, hfill⟩ := prepareSlot_answers hanswers hc hb hlt
      (hbatch.job r List.mem_cons_self) (hphase r List.mem_cons_self b hb) hrun₁
      (hsame ▸ hpart r List.mem_cons_self)
    -- the slot of `r` is not that of a later request
    have hslot : ∀ r' ∈ rs, (s.requests r').batchIdx ≠ some b := fun r' hr' he => hne r' hr' <|
      hbatch.apart r' (List.mem_cons_of_mem r hr') r List.mem_cons_self (he.trans hb.symm)
    obtain ⟨held₂, hc₂, ht₂, hfill₂⟩ := prepareAll_answers hanswers rs hc₁
      (hbatch.tail.touched ht) (by
        intro r' hr' b' hb'
        rw [ht.others r' (by simpa using hne r' hr')] at hb' ⊢
        rw [ht.slots b' fun r'' hr'' he => ?_]
        · exact hphase r' (List.mem_cons_of_mem r hr') b' hb'
        · rw [List.mem_singleton.mp hr''] at he
          exact hslot r' hr' (by rw [hb', ← he, hb])) hrun₂
      fun r' hr' => hpart r' (List.mem_cons_of_mem r hr')
    refine ⟨held₂, hc₂, (ht.mono (by simp)).trans
      (ht₂.mono fun r' hr' => List.mem_cons_of_mem r hr'), fun r' hr' b' hb' => ?_⟩
    rcases List.mem_cons.mp hr' with rfl | hm
    · have hbb : b' = b := by
        rw [hsame, (ht.job r').batchIdx, hb] at hb'
        exact (Option.some.inj hb').symm
      subst hbb
      rw [hsame, ht₂.slots b' fun r'' hr'' => by rw [(ht.job r'').batchIdx]; exact hslot r'' hr'']
      exact hfill
    · exact hfill₂ r' hm b' hb'

/-- A request and its slot after the chunk. -/
theorem advanced_of_filling {q : InferenceRequest Nat} {tokens : List Nat}
    (hfill : Filling q tokens) (hchunk : 1 ≤ q.prefillChunkSize) :
    Advanced next (advanced q (chunkTokens q).length) (tokens ++ chunkTokens q)
      (if (advanced q (chunkTokens q).length).prefillComplete
        then some (next (tokens ++ chunkTokens q)) else none) := by
  obtain ⟨-, hle, htake⟩ := chunkTokens_spec hchunk hfill.offset
  rw [hfill.held, htake]
  by_cases hdone : (advanced q (chunkTokens q).length).prefillComplete = true
  · rw [if_pos hdone]
    have hoff : q.prefillOffset + (chunkTokens q).length = q.promptTokenIds.length :=
      Nat.le_antisymm hle (of_decide_eq_true hdone)
    rw [hoff, List.take_length]
    exact .filled ⟨hfill.prepared, hoff, hfill.state, hfill.output, rfl⟩
  · rw [if_neg hdone]
    have hoff : q.prefillOffset + (chunkTokens q).length < q.promptTokenIds.length :=
      Nat.lt_of_not_le fun hle' => hdone (decide_eq_true hle')
    exact .more ⟨hfill.prepared, hoff, hfill.state, hfill.output, rfl⟩

/-- The rows of a batch that prefills fit. -/
theorem InBatch.fitsIn_chunks {limit : Nat} (h : InBatch limit InPlay rs s) (hne : rs ≠ [])
    (hfill : ∀ r ∈ rs, Filling (s.requests r) (held (s.slot r))) :
    FitsIn s.cache.batchSize limit held
      (rs.map fun r => (s.slot r, chunkTokens (s.requests r))) := by
  have hchunk : ∀ r ∈ rs, _ := fun r hr => chunkTokens_spec (h.job r hr).chunk (hfill r hr).offset
  refine h.fitsIn hne (fun r hr => (hchunk r hr).1) fun r hr => ?_
  have hle := (hchunk r hr).2.1
  have hfits := (h.job r hr).fits
  have hmax := (h.job r hr).maxNewTokens
  rw [(hfill r hr).held, List.length_take, Nat.min_eq_left (Nat.le_of_lt (hfill r hr).offset)]
  omega

/-- **`prefill` of a batch**, where it returns: every request of it advances by one chunk, and those
whose prompt is complete get the token that follows it. -/
theorem prefill_answers (hanswers : Answers chain model Holds InPlay Allowed next) (hne : rs ≠ [])
    (hc : Holds s.cache held) (hbatch : InBatch model.config.maxSeqLen InPlay rs s)
    (hphase : ∀ r ∈ rs, ∀ b, (s.requests r).batchIdx = some b →
      Fresh (s.requests r) ∨ Filling (s.requests r) (held b)) {results : List (Option Nat)}
    (hrun : (prefill chain model rs).run s = .ok results s')
    (hpart : ∀ r ∈ rs, (s'.requests r).HitPart) :
    ∃ (tokens : Ref → Option Nat) (held' : Nat → List Nat), results = rs.map tokens ∧
      Holds s'.cache held' ∧ Touches rs s s' held held' ∧
      ∀ r ∈ rs, ∀ b, (s'.requests r).batchIdx = some b →
        Advanced next (s'.requests r) (held' b) (tokens r) := by
  unfold prefill at hrun
  obtain ⟨u, s₁, hrun₁, hrun⟩ := Exec.run_bind_eq_ok hrun
  rw [Exec.run_bind_ok (EStateM.run_get s₁)] at hrun
  obtain ⟨⟨tokenIds, inputLens⟩, t₁, hids, hrun⟩ := Exec.run_bind_eq_ok hrun
  obtain ⟨slots, t₂, hslots, hrun⟩ := Exec.run_bind_eq_ok hrun
  obtain ⟨logits, t₃, hcall, hadvance⟩ := Exec.run_bind_eq_ok hrun
  obtain ⟨hbatchIds, rfl⟩ := Exec.ofExcept_eq_ok hids
  obtain ⟨hindices, rfl⟩ := Exec.ofExcept_eq_ok hslots
  obtain ⟨c', hforward, rfl⟩ := onCache_eq_ok hcall
  have hlens : inputLens = rs.map fun r => (chunkTokens (t₂.requests r)).length := by
    rw [batchTokenIds_lens hbatchIds, List.map_map]
    rfl
  rw [hlens] at hadvance
  -- what was restored is seen in the requests at the end
  have hpart₁ : ∀ r ∈ rs, (t₂.requests r).HitPart := by
    intro r hr
    have hafter := hpart r hr
    rw [(advanceRows_ok hbatch.nodup hadvance).1 r hr] at hafter
    exact hafter
  obtain ⟨held₁, hc₁, ht₁, hfill⟩ := prepareAll_answers hanswers rs hc hbatch hphase hrun₁ hpart₁
  have hbatch₁ := hbatch.touched ht₁
  have hfill' : ∀ r ∈ rs, Filling (t₂.requests r) (held₁ (t₂.slot r)) := fun r hr =>
    hfill r hr _ (hbatch₁.batchIdx_eq hr)
  set chunk : Ref → List Nat := fun r => chunkTokens (t₂.requests r) with hchunkDef
  have hfits := hbatch₁.fitsIn_chunks hne hfill'
  have hslotsEq : slots = rs.map t₂.slot := by
    rw [hbatch₁.mapM_batchIdx] at hindices
    exact (Except.ok.inj hindices).symm
  rw [hslotsEq] at hforward
  obtain ⟨hsize, hc', hsample⟩ := hanswers.call hc₁ hfits
    (.padded (by rw [List.map_map]; exact hbatchIds)) (by rw [List.map_map]; exact hforward)
  have hrows := advanceRows_run logits (fun r => (chunk r).length)
    (fun r => next (held₁ (t₂.slot r) ++ chunk r)) rs 0 (s := { t₂ with cache := c' })
    hbatch₁.nodup fun j hj => by
      have hrow := hsample j (by simpa using hj)
      simp only [List.getElem_map] at hrow
      rw [Nat.zero_add]
      exact hrow
  cases hadvance.symm.trans hrows
  refine ⟨_, feed held₁ (rs.map fun r => (t₂.slot r, chunk r)), rfl, hc',
    ht₁.trans ⟨hsize, fun b hb => hbatch₁.feed_other held₁ chunk hb, fun r hr => if_neg hr,
      fun r => ?_⟩, fun r hr b hb => ?_⟩
  · by_cases hr : r ∈ rs
    · simp only [if_pos hr]
      exact ⟨⟨rfl, rfl, rfl, rfl, rfl⟩, rfl, rfl, rfl⟩
    · simp only [if_neg hr]
      exact SameJob.refl _
  · simp only [if_pos hr] at hb ⊢
    obtain rfl : b = t₂.slot r := Option.some.inj (hb.symm.trans (hbatch₁.batchIdx_eq hr))
    rw [feed_of_mem hfits.nodup (List.mem_map.mpr ⟨r, hr, rfl⟩)]
    exact advanced_of_filling (hfill' r hr) (hbatch₁.job r hr).chunk

/-! ## decode -/

/-- **`decode` of a batch**, where it returns: every slot of it takes the last token, and every
request gets the token that follows what its slot holds then. -/
theorem decode_answers (hanswers : Answers chain model Holds InPlay Allowed next) (hne : rs ≠ [])
    (hc : Holds s.cache held) (hbatch : InBatch model.config.maxSeqLen InPlay rs s)
    (hphase : ∀ r ∈ rs, ∀ b, (s.requests r).batchIdx = some b →
      Decoding next (s.requests r) (held b))
    (hroom : ∀ r ∈ rs, ((s.requests r).numGenerated : Int) < (s.requests r).maxNewTokens)
    {results : List Nat} (hrun : (decode model rs).run s = .ok results s') :
    ∃ held', results = (rs.map fun r =>
          next ((s.requests r).promptTokenIds ++ (s.requests r).outputTokenIds)) ∧
      Holds s'.cache held' ∧ Touches rs s s' held held' ∧ s'.requests = s.requests ∧
      ∀ r ∈ rs, ∀ b, (s.requests r).batchIdx = some b →
        held' b = (s.requests r).promptTokenIds ++ (s.requests r).outputTokenIds := by
  have hdec : ∀ r ∈ rs, Decoding next (s.requests r) (held (s.slot r)) := fun r hr =>
    hphase r hr _ (hbatch.batchIdx_eq hr)
  set last : Ref → Nat := fun r => (s.requests r).outputTokenIds.getLastD 0 with hlastDef
  have hlast : ∀ r ∈ rs, (s.requests r).outputTokenIds.getLast? = some (last r) := by
    intro r hr
    show _ = some ((s.requests r).outputTokenIds.getLastD 0)
    rw [List.getLastD_eq_getLast?, List.getLast?_eq_some_getLast (hdec r hr).output]
    rfl
  -- the last token is the only one that is not in the slot yet
  have hheld : ∀ r ∈ rs, held (s.slot r) ++ [last r]
      = (s.requests r).promptTokenIds ++ (s.requests r).outputTokenIds := by
    intro r hr
    rw [(hdec r hr).held, List.append_assoc, List.dropLast_append_getLast? (last r) (hlast r hr)]
  have hfits : FitsIn s.cache.batchSize model.config.maxSeqLen held
      (rs.map fun r => (s.slot r, [last r])) := by
    refine hbatch.fitsIn hne (fun _ _ => List.cons_ne_nil _ _) fun r hr => ?_
    have hlen := congrArg List.length (hheld r hr)
    rw [List.length_append, List.length_append] at hlen
    have hjob := (hbatch.job r hr).fits
    have hmore := hroom r hr
    unfold InferenceRequest.numGenerated at hmore
    omega
  have hrows : (rs.map fun r => (s.slot r, last r)).map (fun row => (row.1, [row.2]))
      = rs.map fun r => (s.slot r, [last r]) := by
    rw [List.map_map]
    rfl
  have htokens : rs.mapM (fun r => lastToken (s.requests r)) = .ok (rs.map fun r => [last r]) :=
    Exec.mapM_ok fun r hr => by rw [lastToken, hlast r hr]
  rw [decode, Exec.run_bind_ok (EStateM.run_get s)] at hrun
  simp only [htokens, hbatch.mapM_batchIdx, Exec.ofExcept_ok, pure_bind] at hrun
  obtain ⟨logits, t, hcall, hrun⟩ := Exec.run_bind_eq_ok hrun
  obtain ⟨c', hforward, rfl⟩ := onCache_eq_ok hcall
  obtain ⟨hresults, rfl⟩ := Exec.ofExcept_eq_ok hrun
  have hbatchOf : BatchOf model.config.padTokenId _ _ none :=
    BatchOf.single (rs.map fun r => (s.slot r, last r))
  rw [hrows, List.map_map] at hbatchOf
  obtain ⟨hsize, hc', hsample⟩ := hanswers.call hc hfits hbatchOf
    (by rw [List.map_map]; exact hforward)
  refine ⟨_, ?_, hc', ⟨hsize, fun b hb => hbatch.feed_other held (fun r => [last r]) hb,
    fun _ _ => rfl, fun _ => SameJob.refl _⟩, rfl, fun r hr b hb => ?_⟩
  · -- row `i` of the scores belongs to the `i`-th request
    rw [Exec.mapM_ok (g := fun i => next ((s.requests (rs.getD i 0)).promptTokenIds
        ++ (s.requests (rs.getD i 0)).outputTokenIds))] at hresults
    · refine (Except.ok.inj hresults).symm.trans (List.ext_getElem (by simp) fun i hi hi' => ?_)
      have hlt : i < rs.length := by simpa using hi'
      simp only [List.getElem_map, List.getElem_range, List.getD_eq_getElem _ _ hlt]
    · intro i hi
      have hlt : i < rs.length := List.mem_range.mp hi
      have hs := hsample i (by simpa using hlt)
      simp only [List.getElem_map] at hs
      rw [List.getD_eq_getElem _ _ hlt, hs, hheld _ (List.getElem_mem hlt)]
  · obtain rfl : b = s.slot r := Option.some.inj (hb.symm.trans (hbatch.batchIdx_eq hr))
    rw [feed_of_mem hfits.nodup (List.mem_map.mpr ⟨r, hr, rfl⟩), hheld r hr]

end ModelRunner

end Nifre
