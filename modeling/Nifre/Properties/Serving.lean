import Nifre.Inference.Engine
import Nifre.Properties.SchedulerSteps
import Mathlib.Data.List.GetD

/-!
# Serving a batch of requests

`Serves` is what the engine needs of a model and its cache: the slots hold tokens, and a forward
pass appends each row's tokens to its slot and yields the next token of the row. From it follows
what `prefill` and `decode` of the model runner do to the requests of a batch.
-/

namespace Nifre

variable {Row Score : Type} [LinearOrder Score]

/-! ## Slots that hold tokens -/

/-- Append each row's tokens to what its slot holds. -/
def feed : (Nat → List Nat) → List (Nat × List Nat) → Nat → List Nat
  | held, [] => held
  | held, (b, tokens) :: rows => feed (Function.update held b (held b ++ tokens)) rows

theorem feed_of_notMem {b : Nat} : ∀ {rows : List (Nat × List Nat)} {held : Nat → List Nat},
    b ∉ rows.map Prod.fst → feed held rows b = held b
  | [], _, _ => rfl
  | (i, tokens) :: rows, held, h => by
    rw [List.map_cons, List.mem_cons, not_or] at h
    rw [feed, feed_of_notMem h.2, Function.update_of_ne h.1]

theorem feed_of_mem {b : Nat} {tokens : List Nat} : ∀ {rows : List (Nat × List Nat)}
    {held : Nat → List Nat}, (rows.map Prod.fst).Nodup → (b, tokens) ∈ rows →
    feed held rows b = held b ++ tokens
  | (i, tokens') :: rows, held, hnd, h => by
    rw [List.map_cons, List.nodup_cons] at hnd
    rw [feed]
    rcases List.mem_cons.mp h with he | hm
    · cases he
      rw [feed_of_notMem hnd.1, Function.update_self]
    · have hne : b ≠ i := by
        rintro rfl
        exact hnd.1 (List.mem_map.mpr ⟨_, hm, rfl⟩)
      rw [feed_of_mem hnd.2 hm, Function.update_of_ne hne]

/-- A batch of rows in slots of their own, with tokens that fit. -/
structure FitsIn (batchSize limit : Nat) (held : Nat → List Nat) (rows : List (Nat × List Nat)) :
    Prop where
  ne_nil : rows ≠ []
  nodup : (rows.map Prod.fst).Nodup
  slot_lt : ∀ row ∈ rows, row.1 < batchSize
  tokens : ∀ row ∈ rows, row.2 ≠ []
  fits : ∀ row ∈ rows, (held row.1).length + row.2.length ≤ limit

/-- How rows reach the model: left-padded and with their lengths, or one token each. -/
inductive BatchOf (padId : Nat) :
    List (Nat × List Nat) → List (List Nat) → Option (List Nat) → Prop
  | padded {rows : List (Nat × List Nat)} {tokenIds : List (List Nat)} {inputLens : List Nat} :
    batchTokenIds (rows.map Prod.snd) padId = .ok (tokenIds, inputLens) →
    BatchOf padId rows tokenIds (some inputLens)
  | single (rows : List (Nat × Nat)) :
    BatchOf padId (rows.map fun row => (row.1, [row.2])) (rows.map fun row => [row.2]) none

/-! ## Sampling -/

/-- The scores that a batch row is sampled from. -/
def lastLogits (logits : Logits Score) (i : Nat) : Option (List Score) :=
  logits[i]?.bind (·.getLast?)

theorem ModelRunner.sampleRow_of_lastLogits {logits : Logits Score} {i : Nat} {scores : List Score}
    (h : lastLogits logits i = some scores) : sampleRow logits i = sampleGreedy scores := by
  obtain ⟨row, hrow, hlast⟩ := Option.bind_eq_some_iff.mp h
  rw [sampleRow, hrow]
  simp only [hlast]

/-- The token that follows a list of tokens. -/
def nextToken (logits : List Nat → List Score) (tokens : List Nat) : Nat :=
  match sampleGreedy (logits tokens) with
  | .ok t => t
  | .error _ => 0

theorem sampleGreedy_nextToken {logits : List Nat → List Score} (h : ∀ tokens, logits tokens ≠ [])
    (tokens : List Nat) : sampleGreedy (logits tokens) = .ok (nextToken logits tokens) := by
  obtain ⟨t, ht⟩ := sampleGreedy_ok (h tokens)
  rw [nextToken, ht]

/-! ## What the engine needs of a model and its cache -/

/-- `Holds c held` says what tokens the slots of a cache hold, `InPlay` which prompts are served,
`Allowed` which values `use_prefix_cache` may have, and `next` what token follows a list. -/
structure Serves (chain : Int → List Nat → Int) (model : InferenceModel Row Score)
    (Holds : KVCacheType Row → (Nat → List Nat) → Prop) (InPlay : List Nat → Prop)
    (Allowed : Bool → Prop) (next : List Nat → Nat) : Prop where
  makeCache : ∀ {usePagedKvCache usePrefixCache n c}, Allowed usePrefixCache →
    Engine.makeCache model usePagedKvCache usePrefixCache n = .ok c →
    c.batchSize = n ∧ Holds c fun _ => []
  resetSlot : ∀ {c held} {b : Nat}, Holds c held → b < c.batchSize →
    ∃ c', (KVCacheType.resetSlot (b : Int)).run c = .ok () c' ∧ c'.batchSize = c.batchSize ∧
      Holds c' (Function.update held b [])
  tryLoadPrefix : ∀ {c held} {b : Nat} {prompt}, Holds c held → b < c.batchSize →
    c.hasPrefix = true → prompt ≠ [] → InPlay prompt →
    ∃ n c', (KVCacheType.tryLoadPrefix chain (b : Int) prompt).run c = .ok n c' ∧
      c'.batchSize = c.batchSize ∧ n < prompt.length ∧
      Holds c' (if n = 0 then held else Function.update held b (prompt.take n))
  registerPrefix : ∀ {c held} {b : Nat} {prompt}, Holds c held → b < c.batchSize →
    c.hasPrefix = true → held b = prompt → InPlay prompt →
    ∃ c', (KVCacheType.registerPrefix chain (b : Int) prompt).run c = .ok () c' ∧
      c'.batchSize = c.batchSize ∧ Holds c' held
  prefill : ∀ {c held rows tokenIds inputLens}, Holds c held →
    FitsIn c.batchSize model.config.maxSeqLen held rows →
    batchTokenIds (rows.map Prod.snd) model.config.padTokenId = .ok (tokenIds, inputLens) →
    ∃ logits c', (model.call tokenIds (some inputLens) (rows.map Prod.fst)).run c = .ok logits c' ∧
      c'.batchSize = c.batchSize ∧ Holds c' (feed held rows) ∧
      ∀ (i : Nat) (h : i < rows.length), ModelRunner.sampleRow logits i
        = .ok (next (held rows[i].1 ++ rows[i].2))
  decode : ∀ {c held} {rows : List (Nat × Nat)}, Holds c held →
    FitsIn c.batchSize model.config.maxSeqLen held (rows.map fun row => (row.1, [row.2])) →
    ∃ logits c', (model.call (rows.map fun row => [row.2]) none (rows.map Prod.fst)).run c
        = .ok logits c' ∧
      c'.batchSize = c.batchSize ∧ Holds c' (feed held (rows.map fun row => (row.1, [row.2]))) ∧
      ∀ (i : Nat) (h : i < rows.length), ModelRunner.sampleRow logits i
        = .ok (next (held rows[i].1 ++ [rows[i].2]))

/-! ## Requests in service -/

/-- Every token follows the prompt and the tokens before it. -/
def Greedy (next : List Nat → Nat) (prompt outputs : List Nat) : Prop :=
  ∀ (k : Nat) (h : k < outputs.length), outputs[k] = next (prompt ++ outputs.take k)

theorem greedy_nil (next : List Nat → Nat) (prompt : List Nat) : Greedy next prompt [] :=
  fun _ h => absurd h (Nat.not_lt_zero _)

theorem Greedy.push {next : List Nat → Nat} {prompt outputs : List Nat}
    (h : Greedy next prompt outputs) :
    Greedy next prompt (outputs ++ [next (prompt ++ outputs)]) := by
  intro k hk
  rw [List.length_append, List.length_singleton] at hk
  by_cases hlt : k < outputs.length
  · rw [List.getElem_append_left hlt, List.take_append_of_le_length (Nat.le_of_lt hlt)]
    exact h k hlt
  · have hkl : k = outputs.length := by omega
    subst hkl
    simp

/-- The plain greedy reference: each token is the argmax of the model on the prompt and the tokens
before it. -/
def greedyTokens (logits : List Nat → List Score) (prompt : List Nat) :
    Nat → Except PyError (List Nat)
  | 0 => .ok []
  | n + 1 => do
    let outputs ← greedyTokens logits prompt n
    let token ← sampleGreedy (logits (prompt ++ outputs))
    pure (outputs ++ [token])

/-- Greedy outputs are those of the reference. -/
theorem Greedy.greedyTokens {logits : List Nat → List Score} {next : List Nat → Nat}
    (hnext : ∀ tokens, sampleGreedy (logits tokens) = .ok (next tokens)) {prompt outputs : List Nat}
    (h : Greedy next prompt outputs) : ∀ k ≤ outputs.length,
      Nifre.greedyTokens logits prompt k = .ok (outputs.take k)
  | 0, _ => by rw [Nifre.greedyTokens, List.take_zero]
  | k + 1, hk => by
    rw [Nifre.greedyTokens, h.greedyTokens hnext k (Nat.le_of_succ_le hk)]
    show (do let token ← sampleGreedy (logits (prompt ++ outputs.take k))
             pure (outputs.take k ++ [token])) = _
    rw [hnext, ← h k hk]
    show Except.ok (outputs.take k ++ [outputs[k]]) = _
    rw [List.take_append_getElem hk]

/-- What a request brings: a prompt in play, tokens to generate, and both fit. -/
structure Job (limit : Nat) (InPlay : List Nat → Prop) (q : InferenceRequest Nat) : Prop where
  prompt : q.promptTokenIds ≠ []
  maxNewTokens : 1 ≤ q.maxNewTokens
  fits : q.promptTokenIds.length + q.maxNewTokens - 1 ≤ limit
  chunk : 1 ≤ q.prefillChunkSize
  inPlay : InPlay q.promptTokenIds

/-- What a forward pass leaves of a request. -/
structure SameJob (q q' : InferenceRequest Nat) : Prop extends Scheduler.SameStatus q q' where
  prompt : q'.promptTokenIds = q.promptTokenIds
  chunk : q'.prefillChunkSize = q.prefillChunkSize
  status : q'.status = q.status

theorem SameJob.refl (q : InferenceRequest Nat) : SameJob q q :=
  ⟨Scheduler.SameStatus.refl q, rfl, rfl, rfl⟩

theorem SameJob.trans {q q' q'' : InferenceRequest Nat} (h : SameJob q q') (h' : SameJob q' q'') :
    SameJob q q'' where
  requestId := h'.requestId.trans h.requestId
  state := h'.state.trans h.state
  batchIdx := h'.batchIdx.trans h.batchIdx
  output := h'.output.trans h.output
  maxNewTokens := h'.maxNewTokens.trans h.maxNewTokens
  prompt := h'.prompt.trans h.prompt
  chunk := h'.chunk.trans h.chunk
  status := h'.status.trans h.status

theorem SameJob.job {limit : Nat} {InPlay : List Nat → Prop} {q q' : InferenceRequest Nat}
    (h : SameJob q q') (hq : Job limit InPlay q) : Job limit InPlay q' where
  prompt := by rw [h.prompt]; exact hq.prompt
  maxNewTokens := by rw [h.maxNewTokens]; exact hq.maxNewTokens
  fits := by rw [h.prompt, h.maxNewTokens]; exact hq.fits
  chunk := by rw [h.chunk]; exact hq.chunk
  inPlay := by rw [h.prompt]; exact hq.inPlay

/-- A running request whose slot is not prepared. -/
structure Fresh (q : InferenceRequest Nat) : Prop where
  prepared : q.slotPrepared = false
  offset : q.prefillOffset = 0
  state : q.state = .prefill
  output : q.outputTokenIds = []

/-- A request in the middle of its prompt, with the first part in its slot. -/
structure Filling (q : InferenceRequest Nat) (held : List Nat) : Prop where
  prepared : q.slotPrepared = true
  offset : q.prefillOffset < q.promptTokenIds.length
  state : q.state = .prefill
  output : q.outputTokenIds = []
  held : held = q.promptTokenIds.take q.prefillOffset

/-- A request with its whole prompt in its slot. -/
structure Filled (q : InferenceRequest Nat) (held : List Nat) : Prop where
  prepared : q.slotPrepared = true
  offset : q.prefillOffset = q.promptTokenIds.length
  state : q.state = .prefill
  output : q.outputTokenIds = []
  held : held = q.promptTokenIds

/-- A request that generates: everything but its last token is in its slot. -/
structure Decoding (next : List Nat → Nat) (q : InferenceRequest Nat) (held : List Nat) : Prop where
  prepared : q.slotPrepared = true
  offset : q.prefillOffset = q.promptTokenIds.length
  state : q.state = .decode
  output : q.outputTokenIds ≠ []
  held : held = q.promptTokenIds ++ q.outputTokenIds.dropLast
  greedy : Greedy next q.promptTokenIds q.outputTokenIds

/-- A running request between two steps. -/
inductive Phase (next : List Nat → Nat) (q : InferenceRequest Nat) (held : List Nat) : Prop
  | fresh : Fresh q → Phase next q held
  | filling : Filling q held → Phase next q held
  | decoding : Decoding next q held → Phase next q held

/-- A request of a prefill batch and the token it was given. -/
inductive Advanced (next : List Nat → Nat) (q : InferenceRequest Nat) (held : List Nat) :
    Option Nat → Prop
  | more : Filling q held → Advanced next q held none
  | filled : Filled q held → Advanced next q held (some (next q.promptTokenIds))

namespace ModelRunner

/-- A forward pass over the requests `rs`: other requests and other slots are as before. -/
structure Touches (rs : List Ref) (s s' : ModelRunner Row) (held held' : Nat → List Nat) :
    Prop where
  batchSize : s'.cache.batchSize = s.cache.batchSize
  slots : ∀ b, (∀ r ∈ rs, (s.requests r).batchIdx ≠ some b) → held' b = held b
  others : ∀ r, r ∉ rs → s'.requests r = s.requests r
  job : ∀ r, SameJob (s.requests r) (s'.requests r)

theorem Touches.trans {rs : List Ref} {s s' s'' : ModelRunner Row} {held held' held'' : Nat → List Nat}
    (h : Touches rs s s' held held') (h' : Touches rs s' s'' held' held'') :
    Touches rs s s'' held held'' where
  batchSize := h'.batchSize.trans h.batchSize
  slots := by
    intro b hb
    rw [h'.slots b fun r hr => by rw [(h.job r).batchIdx]; exact hb r hr, h.slots b hb]
  others := fun r hr => (h'.others r hr).trans (h.others r hr)
  job := fun r => (h.job r).trans (h'.job r)

theorem Touches.mono {rs rs' : List Ref} {s s' : ModelRunner Row} {held held' : Nat → List Nat}
    (h : Touches rs s s' held held') (hsub : ∀ r ∈ rs, r ∈ rs') : Touches rs' s s' held held' where
  batchSize := h.batchSize
  slots := fun b hb => h.slots b fun r hr => hb r (hsub r hr)
  others := fun r hr => h.others r fun hc => hr (hsub r hc)
  job := h.job

theorem touches_refl (rs : List Ref) (s : ModelRunner Row) (held : Nat → List Nat) :
    Touches rs s s held held :=
  ⟨rfl, fun _ _ => rfl, fun _ _ => rfl, fun _ => SameJob.refl _⟩

/-- The requests of a batch run in slots of their own. -/
structure InBatch (limit : Nat) (InPlay : List Nat → Prop) (rs : List Ref) (s : ModelRunner Row) :
    Prop where
  nodup : rs.Nodup
  slot : ∀ r ∈ rs, ∃ b, (s.requests r).batchIdx = some b ∧ b < s.cache.batchSize
  apart : ∀ r ∈ rs, ∀ r' ∈ rs, (s.requests r).batchIdx = (s.requests r').batchIdx → r = r'
  job : ∀ r ∈ rs, Job limit InPlay (s.requests r)

theorem InBatch.touched {limit : Nat} {InPlay : List Nat → Prop} {rs rs' : List Ref}
    {s s' : ModelRunner Row} {held held' : Nat → List Nat} (h : InBatch limit InPlay rs s)
    (ht : Touches rs' s s' held held') : InBatch limit InPlay rs s' where
  nodup := h.nodup
  slot := by
    intro r hr
    rw [(ht.job r).batchIdx, ht.batchSize]
    exact h.slot r hr
  apart := by
    intro r hr r' hr' he
    rw [(ht.job r).batchIdx, (ht.job r').batchIdx] at he
    exact h.apart r hr r' hr' he
  job := fun r hr => (ht.job r).job (h.job r hr)

theorem InBatch.tail {limit : Nat} {InPlay : List Nat → Prop} {r : Ref} {rs : List Ref}
    {s : ModelRunner Row} (h : InBatch limit InPlay (r :: rs) s) : InBatch limit InPlay rs s where
  nodup := (List.nodup_cons.mp h.nodup).2
  slot := fun r' hr' => h.slot r' (List.mem_cons_of_mem r hr')
  apart := fun r₁ h₁ r₂ h₂ => h.apart r₁ (List.mem_cons_of_mem r h₁) r₂ (List.mem_cons_of_mem r h₂)
  job := fun r' hr' => h.job r' (List.mem_cons_of_mem r hr')

variable {chain : Int → List Nat → Int} {model : InferenceModel Row Score}
  {Holds : KVCacheType Row → (Nat → List Nat) → Prop} {InPlay : List Nat → Prop}
  {Allowed : Bool → Prop} {next : List Nat → Nat}

theorem batchIdx_ok {q : InferenceRequest Nat} {b : Nat} (h : q.batchIdx = some b) :
    batchIdx q = .ok b := by
  rw [batchIdx, h]

/-! ## prefill -/

/-- One request changed in what a forward pass changes, and nothing but its slot did. -/
theorem touches_update {s : ModelRunner Row} {held held' : Nat → List Nat} {r : Ref} {b : Nat}
    (hb : (s.requests r).batchIdx = some b) {q : InferenceRequest Nat} {c : KVCacheType Row}
    (hq : SameJob (s.requests r) q) (hc : c.batchSize = s.cache.batchSize)
    (hheld : ∀ i, i ≠ b → held' i = held i) :
    Touches [r] s ⟨Function.update s.requests r q, c⟩ held held' where
  batchSize := hc
  slots := fun i hi => hheld i fun he => hi r List.mem_cons_self (he ▸ hb)
  others := fun r' hr' => Function.update_of_ne (List.ne_of_not_mem_cons hr') _ _
  job := by
    intro r'
    by_cases hrr : r' = r
    · subst hrr
      simp only [Function.update_self]
      exact hq
    · simp only [Function.update_of_ne hrr]
      exact SameJob.refl _

theorem loadPrefix_run (hserves : Serves chain model Holds InPlay Allowed next)
    {s : ModelRunner Row} {held : Nat → List Nat} (hc : Holds s.cache held) {b : Nat}
    (hlt : b < s.cache.batchSize) {prompt : List Nat} (hprompt : prompt ≠ [])
    (hplay : InPlay prompt) :
    ∃ n c', (loadPrefix chain b prompt).run s = .ok n { s with cache := c' } ∧
      c'.batchSize = s.cache.batchSize ∧ n < prompt.length ∧
      Holds c' (if n = 0 then held else Function.update held b (prompt.take n)) := by
  unfold loadPrefix
  rw [Exec.run_bind_ok (EStateM.run_get s)]
  cases hp : s.cache.hasPrefix with
  | false => exact ⟨0, s.cache, rfl, rfl, List.length_pos_iff.mpr hprompt, hc⟩
  | true =>
    obtain ⟨n, c', hrun, hn, hlen, hh⟩ := hserves.tryLoadPrefix hc hlt hp hprompt hplay
    exact ⟨n, c', Exec.run_within_ok hrun, hn, hlen, hh⟩

/-- **The first loop of `prefill` for one request**: its slot holds its prompt up to the offset. -/
theorem prepareSlot_run (hserves : Serves chain model Holds InPlay Allowed next)
    {s : ModelRunner Row} {held : Nat → List Nat} (hc : Holds s.cache held) {r : Ref} {b : Nat}
    (hb : (s.requests r).batchIdx = some b) (hlt : b < s.cache.batchSize)
    (hjob : Job model.config.maxSeqLen InPlay (s.requests r))
    (hphase : Fresh (s.requests r) ∨ Filling (s.requests r) (held b)) :
    ∃ s' held', (prepareSlot chain r).run s = .ok () s' ∧ Holds s'.cache held' ∧
      Touches [r] s s' held held' ∧ Filling (s'.requests r) (held' b) := by
  unfold prepareSlot
  rw [Exec.run_bind_ok (EStateM.run_get s)]
  rcases hphase with hfresh | hfill
  · obtain ⟨n, c', hload, hsize, hn, hh⟩ := loadPrefix_run hserves hc hlt hjob.prompt hjob.inPlay
    simp only [hfresh.prepared, if_true, batchIdx_ok hb, Exec.ofExcept_ok, pure_bind]
    rw [Exec.run_bind_ok hload]
    by_cases h0 : 0 < n
    · rw [if_neg (Nat.ne_of_gt h0)] at hh
      simp only [if_pos h0]
      refine ⟨⟨Function.update s.requests r { s.requests r with
          prefillOffset := n, prefixCacheHitTokens := n, slotPrepared := true }, c'⟩, _, ?_, hh,
        touches_update hb ⟨⟨rfl, rfl, rfl, rfl, rfl⟩, rfl, rfl, rfl⟩ hsize
          fun i hi => Function.update_of_ne hi _ _, ?_⟩
      · rw [Exec.run_bind_ok (EStateM.run_modify _ _), EStateM.run_modify]
        simp [update]
      · simp only [Function.update_self]
        exact ⟨rfl, hn, hfresh.state, hfresh.output, rfl⟩
    · have hzero : n = 0 := by omega
      subst hzero
      rw [if_pos rfl] at hh
      obtain ⟨c'', hreset, hsize', hh'⟩ := hserves.resetSlot hh (hsize ▸ hlt)
      simp only [if_neg (Nat.lt_irrefl 0), if_pos hfresh.offset]
      refine ⟨⟨Function.update s.requests r { s.requests r with slotPrepared := true }, c''⟩, _, ?_,
        hh', touches_update hb ⟨⟨rfl, rfl, rfl, rfl, rfl⟩, rfl, rfl, rfl⟩ (hsize'.trans hsize)
          fun i hi => Function.update_of_ne hi _ _, ?_⟩
      · rw [onCache, Exec.run_bind_ok (Exec.run_within_ok hreset), EStateM.run_modify]
        rfl
      · simp only [Function.update_self]
        exact ⟨rfl, by rw [hfresh.offset]; exact Nat.lt_of_le_of_lt (Nat.zero_le _) hn,
          hfresh.state, hfresh.output, by rw [hfresh.offset, List.take_zero]⟩
  · simp only [hfill.prepared, Bool.true_eq_false, if_false]
    exact ⟨s, held, rfl, hc, touches_refl _ _ _, hfill⟩

theorem prepareAll_run (hserves : Serves chain model Holds InPlay Allowed next) :
    ∀ (rs : List Ref) {s : ModelRunner Row} {held : Nat → List Nat}, Holds s.cache held →
      InBatch model.config.maxSeqLen InPlay rs s →
      (∀ r ∈ rs, ∀ b, (s.requests r).batchIdx = some b →
        Fresh (s.requests r) ∨ Filling (s.requests r) (held b)) →
      ∃ s' held', (forM rs (prepareSlot chain)).run s = .ok () s' ∧ Holds s'.cache held' ∧
        Touches rs s s' held held' ∧
        ∀ r ∈ rs, ∀ b, (s'.requests r).batchIdx = some b → Filling (s'.requests r) (held' b)
  | [], s, held, hc, _, _ => ⟨s, held, rfl, hc, touches_refl _ _ _, nofun⟩
  | r :: rs, s, held, hc, hbatch, hphase => by
    obtain ⟨b, hb, hlt⟩ := hbatch.slot r List.mem_cons_self
    obtain ⟨s₁, held₁, hrun, hc₁, ht, hfill⟩ := prepareSlot_run hserves hc hb hlt
      (hbatch.job r List.mem_cons_self) (hphase r List.mem_cons_self b hb)
    have hr : r ∉ rs := (List.nodup_cons.mp hbatch.nodup).1
    have hne : ∀ r' ∈ rs, r' ≠ r := fun r' hr' he => hr (he ▸ hr')
    -- the slot of `r` is not that of a later request
    have hslot : ∀ r' ∈ rs, (s.requests r').batchIdx ≠ some b := fun r' hr' he =>
      hne r' hr' (hbatch.apart r' (List.mem_cons_of_mem r hr') r List.mem_cons_self (he.trans hb.symm))
    obtain ⟨s₂, held₂, hrun₂, hc₂, ht₂, hfill₂⟩ := prepareAll_run hserves rs hc₁
      (hbatch.tail.touched ht) (by
        intro r' hr' b' hb'
        rw [ht.others r' (by simpa using hne r' hr')] at hb' ⊢
        rw [ht.slots b' fun r'' hr'' he => ?_]
        · exact hphase r' (List.mem_cons_of_mem r hr') b' hb'
        · rw [List.mem_singleton.mp hr''] at he
          exact hslot r' hr' (by rw [hb', ← he, hb]))
    refine ⟨s₂, held₂, ?_, hc₂, (ht.mono (by simp)).trans
      (ht₂.mono fun r' hr' => List.mem_cons_of_mem r hr'), ?_⟩
    · rw [List.forM_cons, Exec.run_bind_ok hrun, hrun₂]
    · intro r' hr' b' hb'
      rcases List.mem_cons.mp hr' with rfl | hm
      · have hreq : s₂.requests r' = s₁.requests r' := ht₂.others r' hr
        have hbb : b' = b := by
          rw [hreq, (ht.job r').batchIdx, hb] at hb'
          exact (Option.some.inj hb').symm
        subst hbb
        rw [hreq, ht₂.slots b' fun r'' hr'' => by rw [(ht.job r'').batchIdx]; exact hslot r'' hr'']
        exact hfill
      · exact hfill₂ r' hm b' hb'

/-- **The next chunk of a prompt**: it is not empty, and continues the part before the offset. -/
theorem chunkTokens_spec {q : InferenceRequest Nat} (hchunk : 1 ≤ q.prefillChunkSize)
    (hoff : q.prefillOffset < q.promptTokenIds.length) :
    chunkTokens q ≠ [] ∧
      q.prefillOffset + (chunkTokens q).length ≤ q.promptTokenIds.length ∧
      q.promptTokenIds.take q.prefillOffset ++ chunkTokens q
        = q.promptTokenIds.take (q.prefillOffset + (chunkTokens q).length) := by
  obtain ⟨n, hn⟩ : ∃ n : Nat, min (q.prefillOffset + q.prefillChunkSize) (q.numPromptTokens : Int)
      = n := ⟨(min (q.prefillOffset + q.prefillChunkSize) (q.numPromptTokens : Int)).toNat, by
    unfold InferenceRequest.numPromptTokens; omega⟩
  have hlow : q.prefillOffset < n := by unfold InferenceRequest.numPromptTokens at hn; omega
  have hhigh : n ≤ q.promptTokenIds.length := by
    unfold InferenceRequest.numPromptTokens at hn; omega
  have hslice : chunkTokens q = (q.promptTokenIds.take n).drop q.prefillOffset := by
    unfold chunkTokens pySlice
    simp only [hn, Int.toNat_natCast]
    rw [if_neg (by omega)]
  have hlen : (chunkTokens q).length = n - q.prefillOffset := by
    rw [hslice, List.length_drop, List.length_take, Nat.min_eq_left hhigh]
  have hsum : q.prefillOffset + (chunkTokens q).length = n := by omega
  refine ⟨fun hnil => ?_, by omega, ?_⟩
  · rw [hnil] at hlen
    simp only [List.length_nil] at hlen
    omega
  · rw [hsum, hslice]
    have htake : q.promptTokenIds.take q.prefillOffset
        = (q.promptTokenIds.take n).take q.prefillOffset := by
      rw [List.take_take, Nat.min_eq_left (Nat.le_of_lt hlow)]
    rw [htake, List.take_append_drop]

/-- The offset of a request after its chunk. -/
def advanced (q : InferenceRequest Nat) (chunkLen : Nat) : InferenceRequest Nat :=
  { q with prefillOffset := q.prefillOffset + chunkLen }

/-- **The last loop of `prefill`**: the offsets advance, and the complete requests get a token. -/
theorem advanceRows_run (logits : Logits Score) (chunkLen token : Ref → Nat) :
    ∀ (rs : List Ref) (i : Nat) {s : ModelRunner Row}, rs.Nodup →
      (∀ (j : Nat) (h : j < rs.length), sampleRow logits (i + j) = .ok (token rs[j])) →
      (advanceRows logits i rs (rs.map chunkLen)).run s
        = .ok (rs.map fun r => if (advanced (s.requests r) (chunkLen r)).prefillComplete
            then some (token r) else none)
          { s with requests := fun r => if r ∈ rs then advanced (s.requests r) (chunkLen r)
            else s.requests r }
  | [], i, s, _, _ => by simp [advanceRows, pure, EStateM.pure, EStateM.run]
  | r :: rs, i, s, hnd, hrow => by
    obtain ⟨hr, hnd⟩ := List.nodup_cons.mp hnd
    have hrow0 : sampleRow logits i = .ok (token r) := hrow 0 (by simp)
    have hrest := fun s' => advanceRows_run logits chunkLen token rs (i + 1) (s := s') hnd
      fun j hj => by
        have := hrow (j + 1) (by simpa using hj)
        rwa [← Nat.add_assoc, Nat.add_right_comm] at this
    rw [List.map_cons, advanceRows, Exec.run_bind_ok (EStateM.run_modify _ _)]
    set s₁ := s.update r fun request => advanced request (chunkLen r) with hs₁
    have hreq : s₁.requests r = advanced (s.requests r) (chunkLen r) := by simp [hs₁, update]
    have hother : ∀ r' ∈ rs, s₁.requests r' = s.requests r' := by
      intro r' hr'
      have hne : r' ≠ r := fun he => hr (he ▸ hr')
      simp [hs₁, update, hne]
    have hsample : (sampleComplete logits i r).run s₁
        = .ok (if (advanced (s.requests r) (chunkLen r)).prefillComplete
            then some (token r) else none) s₁ := by
      rw [sampleComplete, Exec.run_bind_ok (EStateM.run_get s₁), hreq, hrow0]
      split <;> rfl
    show (sampleComplete logits i r >>= fun result =>
      advanceRows logits (i + 1) rs (rs.map chunkLen) >>= fun results =>
        pure (result :: results)).run s₁ = _
    rw [Exec.run_bind_ok hsample, Exec.run_bind_ok (hrest s₁)]
    show EStateM.Result.ok _ _ = EStateM.Result.ok _ _
    congr 1
    · rw [List.map_cons]
      congr 1
      exact List.map_congr_left fun r' hr' => by rw [hother r' hr']
    · congr 1
      funext r'
      by_cases hrr : r' = r
      · subst hrr
        rw [if_neg hr, if_pos List.mem_cons_self, hreq]
      · by_cases hm : r' ∈ rs
        · rw [if_pos hm, if_pos (List.mem_cons_of_mem r hm), hother r' hm]
        · rw [if_neg hm, if_neg (by simp [hrr, hm])]
          simp [hs₁, update, hrr]

theorem batchTokenIds_ok {tokenLists : List (List Nat)} (h : tokenLists ≠ []) (padId : Nat) :
    ∃ tokenIds, batchTokenIds tokenLists padId = .ok (tokenIds, tokenLists.map List.length) := by
  unfold batchTokenIds
  cases hm : (tokenLists.map List.length).max? with
  | none => exact absurd (List.map_eq_nil_iff.mp (List.max?_eq_none_iff.mp hm)) h
  | some maxLen => exact ⟨_, rfl⟩

/-- The slot of a request of a batch. -/
def slot (s : ModelRunner Row) (r : Ref) : Nat := (s.requests r).batchIdx.getD 0

theorem InBatch.batchIdx_eq {limit : Nat} {rs : List Ref} {s : ModelRunner Row}
    (h : InBatch limit InPlay rs s) {r : Ref} (hr : r ∈ rs) :
    (s.requests r).batchIdx = some (s.slot r) := by
  obtain ⟨b, hb, -⟩ := h.slot r hr
  rw [ModelRunner.slot, hb, Option.getD_some]

/-- The rows of a batch are in slots of their own. -/
theorem InBatch.fitsIn {limit : Nat} {rs : List Ref} {s : ModelRunner Row}
    (h : InBatch limit InPlay rs s) (hne : rs ≠ []) {held : Nat → List Nat}
    {tokens : Ref → List Nat} (htokens : ∀ r ∈ rs, tokens r ≠ [])
    (hfits : ∀ r ∈ rs, (held (s.slot r)).length + (tokens r).length ≤ limit) :
    FitsIn s.cache.batchSize limit held (rs.map fun r => (s.slot r, tokens r)) where
  ne_nil := by simpa using hne
  nodup := by
    rw [List.map_map]
    refine List.Nodup.map_on (fun r hr r' hr' he => h.apart r hr r' hr' ?_) h.nodup
    rw [h.batchIdx_eq hr, h.batchIdx_eq hr']
    exact congrArg some he
  slot_lt := by
    intro row hrow
    obtain ⟨r, hr, rfl⟩ := List.mem_map.mp hrow
    obtain ⟨b, hb, hlt⟩ := h.slot r hr
    rw [h.batchIdx_eq hr] at hb
    cases hb
    exact hlt
  tokens := by
    intro row hrow
    obtain ⟨r, hr, rfl⟩ := List.mem_map.mp hrow
    exact htokens r hr
  fits := by
    intro row hrow
    obtain ⟨r, hr, rfl⟩ := List.mem_map.mp hrow
    exact hfits r hr

theorem InBatch.mapM_batchIdx {limit : Nat} {rs : List Ref} {s : ModelRunner Row}
    (h : InBatch limit InPlay rs s) :
    rs.mapM (fun r => batchIdx (s.requests r)) = .ok (rs.map s.slot) :=
  Exec.mapM_ok fun _ hr => batchIdx_ok (h.batchIdx_eq hr)

/-- Slots without a row keep what they hold. -/
theorem InBatch.feed_other {limit : Nat} {rs : List Ref} {s : ModelRunner Row}
    (h : InBatch limit InPlay rs s) (held : Nat → List Nat) (tokens : Ref → List Nat) {b : Nat}
    (hb : ∀ r ∈ rs, (s.requests r).batchIdx ≠ some b) :
    feed held (rs.map fun r => (s.slot r, tokens r)) b = held b := by
  refine feed_of_notMem fun hm => ?_
  rw [List.map_map] at hm
  obtain ⟨r, hr, he⟩ := List.mem_map.mp hm
  exact hb r hr ((h.batchIdx_eq hr).trans (congrArg some he))

/-- **`prefill` of a batch**: every request of it advances by one chunk, and those whose prompt is
complete get the token that follows it. -/
theorem prefill_run (hserves : Serves chain model Holds InPlay Allowed next) {rs : List Ref}
    (hne : rs ≠ []) {s : ModelRunner Row} {held : Nat → List Nat} (hc : Holds s.cache held)
    (hbatch : InBatch model.config.maxSeqLen InPlay rs s)
    (hphase : ∀ r ∈ rs, ∀ b, (s.requests r).batchIdx = some b →
      Fresh (s.requests r) ∨ Filling (s.requests r) (held b)) :
    ∃ (tokens : Ref → Option Nat) (s' : ModelRunner Row) (held' : Nat → List Nat),
      (prefill chain model rs).run s = .ok (rs.map tokens) s' ∧ Holds s'.cache held' ∧
      Touches rs s s' held held' ∧ ∀ r ∈ rs, ∀ b, (s'.requests r).batchIdx = some b →
        Advanced next (s'.requests r) (held' b) (tokens r) := by
  obtain ⟨s₁, held₁, hrun₁, hc₁, ht₁, hfill⟩ := prepareAll_run hserves rs hc hbatch hphase
  have hbatch₁ := hbatch.touched ht₁
  have hfill' : ∀ r ∈ rs, Filling (s₁.requests r) (held₁ (s₁.slot r)) := fun r hr =>
    hfill r hr _ (hbatch₁.batchIdx_eq hr)
  have hchunk : ∀ r ∈ rs, _ := fun r hr =>
    chunkTokens_spec (hbatch₁.job r hr).chunk (hfill' r hr).offset
  have hheld : ∀ r ∈ rs, (held₁ (s₁.slot r)).length = (s₁.requests r).prefillOffset := by
    intro r hr
    rw [(hfill' r hr).held, List.length_take, Nat.min_eq_left (Nat.le_of_lt (hfill' r hr).offset)]
  set chunk : Ref → List Nat := fun r => chunkTokens (s₁.requests r) with hchunkdef
  -- the rows of the batch
  have hfits : FitsIn s₁.cache.batchSize model.config.maxSeqLen held₁
      (rs.map fun r => (s₁.slot r, chunk r)) := by
    refine hbatch₁.fitsIn hne (fun r hr => (hchunk r hr).1) fun r hr => ?_
    have hjob := hbatch₁.job r hr
    have hle : (s₁.requests r).prefillOffset + (chunk r).length
        ≤ (s₁.requests r).promptTokenIds.length := (hchunk r hr).2.1
    have hfits := hjob.fits
    have hmax := hjob.maxNewTokens
    rw [hheld r hr]
    omega
  have hchunks : rs.map chunk ≠ [] := by simpa using hne
  obtain ⟨tokenIds, hids⟩ := batchTokenIds_ok hchunks model.config.padTokenId
  have hsnd : (rs.map fun r => (s₁.slot r, chunk r)).map Prod.snd = rs.map chunk := by
    rw [List.map_map]; rfl
  have hfst : (rs.map fun r => (s₁.slot r, chunk r)).map Prod.fst = rs.map s₁.slot := by
    rw [List.map_map]; rfl
  obtain ⟨logits, c', hcall, hsize, hc', hsample⟩ := hserves.prefill hc₁ hfits (by rw [hsnd]; exact hids)
  rw [hfst] at hcall
  have hlens : (rs.map chunk).map List.length = rs.map fun r => (chunk r).length := by
    rw [List.map_map]; rfl
  rw [hlens] at hids hcall
  have hrows := advanceRows_run logits (fun r => (chunk r).length)
    (fun r => next (held₁ (s₁.slot r) ++ chunk r)) rs 0 (s := { s₁ with cache := c' }) hbatch₁.nodup
    fun j hj => by
      have := hsample j (by simpa using hj)
      simpa using this
  refine ⟨fun r => if (advanced (s₁.requests r) (chunk r).length).prefillComplete
      then some (next (held₁ (s₁.slot r) ++ chunk r)) else none, { s₁ with
      cache := c'
      requests := fun r => if r ∈ rs then advanced (s₁.requests r) (chunk r).length
        else s₁.requests r }, feed held₁ (rs.map fun r => (s₁.slot r, chunk r)), ?_, hc',
    ht₁.trans ?_, ?_⟩
  · rw [prefill, Exec.run_bind_ok hrun₁, Exec.run_bind_ok (EStateM.run_get s₁)]
    have hids' : batchTokenIds (rs.map fun r => chunkTokens (s₁.requests r)) model.config.padTokenId
        = .ok (tokenIds, rs.map fun r => (chunk r).length) := hids
    have hcache : (onCache (model.call tokenIds (some (rs.map fun r => (chunk r).length))
        (rs.map s₁.slot))).run s₁ = .ok logits { s₁ with cache := c' } := Exec.run_within_ok hcall
    simp only [hids', hbatch₁.mapM_batchIdx, Exec.ofExcept_ok, pure_bind]
    rw [Exec.run_bind_ok hcache]
    exact hrows
  · refine ⟨hsize, fun b hb => hbatch₁.feed_other held₁ chunk hb, fun r hr => if_neg hr, fun r => ?_⟩
    by_cases hr : r ∈ rs
    · simp only [if_pos hr]
      exact ⟨⟨rfl, rfl, rfl, rfl, rfl⟩, rfl, rfl, rfl⟩
    · simp only [if_neg hr]
      exact SameJob.refl _
  · intro r hr b hb
    simp only [if_pos hr] at hb ⊢
    have hbs : b = s₁.slot r := Option.some.inj (hb.symm.trans (hbatch₁.batchIdx_eq hr))
    subst hbs
    have hfill := hfill' r hr
    obtain ⟨hne', hle, htake⟩ := hchunk r hr
    have hpos : 0 < (chunk r).length := List.length_pos_iff.mpr hne'
    rw [feed_of_mem hfits.nodup (List.mem_map.mpr ⟨r, hr, rfl⟩), hfill.held, htake]
    by_cases hdone : (advanced (s₁.requests r) (chunk r).length).prefillComplete = true
    · rw [if_pos hdone]
      have hoff : (s₁.requests r).prefillOffset + (chunk r).length
          = (s₁.requests r).promptTokenIds.length :=
        Nat.le_antisymm hle (of_decide_eq_true hdone)
      rw [hoff, List.take_length]
      exact .filled ⟨hfill.prepared, hoff, hfill.state, hfill.output, rfl⟩
    · rw [if_neg hdone]
      have hoff : (s₁.requests r).prefillOffset + (chunk r).length
          < (s₁.requests r).promptTokenIds.length :=
        Nat.lt_of_not_le fun hle' => hdone (decide_eq_true hle')
      exact .more ⟨hfill.prepared, hoff, hfill.state, hfill.output, rfl⟩

/-! ## decode -/

/-- **`decode` of a batch**: every slot of it takes the last token, and every request gets the token
that follows what its slot holds then. -/
theorem decode_run (hserves : Serves chain model Holds InPlay Allowed next) {rs : List Ref}
    (hne : rs ≠ []) {s : ModelRunner Row} {held : Nat → List Nat} (hc : Holds s.cache held)
    (hbatch : InBatch model.config.maxSeqLen InPlay rs s)
    (hphase : ∀ r ∈ rs, ∀ b, (s.requests r).batchIdx = some b → Decoding next (s.requests r) (held b))
    (hroom : ∀ r ∈ rs, ((s.requests r).numGenerated : Int) < (s.requests r).maxNewTokens) :
    ∃ (c' : KVCacheType Row) (held' : Nat → List Nat), (decode model rs).run s
        = .ok (rs.map fun r => next ((s.requests r).promptTokenIds ++ (s.requests r).outputTokenIds))
          { s with cache := c' } ∧
      Holds c' held' ∧ Touches rs s { s with cache := c' } held held' ∧
      ∀ r ∈ rs, ∀ b, (s.requests r).batchIdx = some b →
        held' b = (s.requests r).promptTokenIds ++ (s.requests r).outputTokenIds := by
  have hdec : ∀ r ∈ rs, Decoding next (s.requests r) (held (s.slot r)) := fun r hr =>
    hphase r hr _ (hbatch.batchIdx_eq hr)
  set last : Ref → Nat := fun r => (s.requests r).outputTokenIds.getLastD 0 with hlastdef
  have hlast : ∀ r ∈ rs, (s.requests r).outputTokenIds.getLast? = some (last r) := by
    intro r hr
    show _ = some ((s.requests r).outputTokenIds.getLastD 0)
    rw [List.getLastD_eq_getLast?, List.getLast?_eq_some_getLast (hdec r hr).output]
    rfl
  have houtput : ∀ r ∈ rs, (s.requests r).outputTokenIds.dropLast ++ [last r]
      = (s.requests r).outputTokenIds := fun r hr =>
    List.dropLast_append_getLast? (last r) (hlast r hr)
  -- the last token is the only one that is not in the slot yet
  have hheld : ∀ r ∈ rs, held (s.slot r) ++ [last r]
      = (s.requests r).promptTokenIds ++ (s.requests r).outputTokenIds := by
    intro r hr
    rw [(hdec r hr).held, List.append_assoc, houtput r hr]
  have hfits : FitsIn s.cache.batchSize model.config.maxSeqLen held
      (rs.map fun r => (s.slot r, [last r])) := by
    refine hbatch.fitsIn hne (fun _ _ => List.cons_ne_nil _ _) fun r hr => ?_
    have hjob := hbatch.job r hr
    have hlen := congrArg List.length (hheld r hr)
    rw [List.length_append, List.length_append] at hlen
    have := hjob.fits
    have := hroom r hr
    unfold InferenceRequest.numGenerated at this
    omega
  have hrows : (rs.map fun r => (s.slot r, last r)).map (fun row => (row.1, [row.2]))
      = rs.map fun r => (s.slot r, [last r]) := by
    rw [List.map_map]; rfl
  have hfits' := hfits
  rw [← hrows] at hfits'
  obtain ⟨logits, c', hcall, hsize, hc', hsample⟩ := hserves.decode hc hfits'
  rw [hrows] at hc'
  rw [List.map_map, List.map_map] at hcall
  refine ⟨c', _, ?_, hc', ⟨hsize, fun b hb => hbatch.feed_other held (fun r => [last r]) hb,
    fun _ _ => rfl, fun _ => SameJob.refl _⟩, ?_⟩
  · have htokens : rs.mapM (fun r => lastToken (s.requests r)) = .ok (rs.map fun r => [last r]) :=
      Exec.mapM_ok fun r hr => by rw [lastToken, hlast r hr]
    -- row `i` of the scores belongs to the `i`-th request
    have hresult : (List.range rs.length).mapM (sampleRow logits) = .ok (rs.map fun r =>
        next ((s.requests r).promptTokenIds ++ (s.requests r).outputTokenIds)) := by
      rw [Exec.mapM_ok (g := fun i => next ((s.requests (rs.getD i 0)).promptTokenIds
          ++ (s.requests (rs.getD i 0)).outputTokenIds))]
      · refine congrArg Except.ok (List.ext_getElem (by simp) fun i hi hi' => ?_)
        have hlt : i < rs.length := by simpa using hi'
        simp only [List.getElem_map, List.getElem_range, List.getD_eq_getElem _ _ hlt]
      · intro i hi
        have hlt : i < rs.length := List.mem_range.mp hi
        have hs := hsample i (by simpa using hlt)
        simp only [List.getElem_map] at hs
        rw [List.getD_eq_getElem _ _ hlt, hs, hheld _ (List.getElem_mem hlt)]
    rw [decode, Exec.run_bind_ok (EStateM.run_get s)]
    simp only [htokens, hbatch.mapM_batchIdx, Exec.ofExcept_ok, pure_bind]
    have hcache : (onCache (model.call (rs.map fun r => [last r]) none (rs.map s.slot))).run s
        = .ok logits { s with cache := c' } := Exec.run_within_ok hcall
    rw [Exec.run_bind_ok hcache, hresult]
    rfl
  · intro r hr b hb
    have hbs : b = s.slot r := Option.some.inj (hb.symm.trans (hbatch.batchIdx_eq hr))
    subst hbs
    rw [feed_of_mem hfits.nodup (List.mem_map.mpr ⟨r, hr, rfl⟩), hheld r hr]

end ModelRunner

end Nifre
