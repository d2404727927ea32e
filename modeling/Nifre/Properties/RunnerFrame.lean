import Nifre.Properties.Serving
import Nifre.Lib.Hoare

/-!
# What a forward pass leaves, whatever the model does

On either exit, a forward pass only changes how far the requests have come in their prompts. If it
returns, every request of the batch has come further or is given a token.
-/

namespace Nifre

variable {Row Score : Type}

/-- Nothing of the prompt counts as processed before the slot is prepared. -/
def InferenceRequest.Unstarted (q : InferenceRequest Nat) : Prop :=
  q.slotPrepared = false → q.prefillOffset = 0

theorem InferenceRequest.prefillComplete_iff {q : InferenceRequest Nat} :
    q.prefillComplete = true ↔ q.promptTokenIds.length ≤ q.prefillOffset := by
  rw [prefillComplete, decide_eq_true_eq]
  rfl

/-- What a forward pass leaves of a request, on either exit. -/
structure Forwarded (q q' : InferenceRequest Nat) : Prop extends SameJob q q' where
  prepared : q.slotPrepared = true → q'.slotPrepared = true
  offset : q.Unstarted → q.prefillOffset ≤ q'.prefillOffset
  unstarted : q.Unstarted → q'.Unstarted

theorem Forwarded.refl (q : InferenceRequest Nat) : Forwarded q q :=
  ⟨SameJob.refl q, id, fun _ => Nat.le_refl _, id⟩

theorem Forwarded.trans {q q' q'' : InferenceRequest Nat} (h : Forwarded q q')
    (h' : Forwarded q' q'') : Forwarded q q'' where
  toSameJob := h.toSameJob.trans h'.toSameJob
  prepared := fun hp => h'.prepared (h.prepared hp)
  offset := fun hu => (h.offset hu).trans (h'.offset (h.unstarted hu))
  unstarted := fun hu => h'.unstarted (h.unstarted hu)

theorem Forwarded.prefillComplete {q q' : InferenceRequest Nat} (h : Forwarded q q')
    (hu : q.Unstarted) (hc : q.prefillComplete = true) : q'.prefillComplete = true := by
  rw [InferenceRequest.prefillComplete_iff] at hc ⊢
  rw [h.prompt]
  exact hc.trans (h.offset hu)

/-- The calls of a step take the cache from one state to another that `K` relates to it. -/
structure CacheSteps (chain : Int → List Nat → Int) (model : InferenceModel Row Score)
    (K : KVCacheType Row → KVCacheType Row → Prop) : Prop where
  refl : ∀ c, K c c
  trans : ∀ {c c' c''}, K c c' → K c' c'' → K c c''
  call : ∀ tokenIds inputLens slots c, K c (Exec.after (model.call tokenIds inputLens slots) c)
  resetSlot : ∀ (b : Nat) c, K c (Exec.after (KVCacheType.resetSlot (b : Int)) c)
  tryLoadPrefix : ∀ (b : Nat) prompt c,
    K c (Exec.after (KVCacheType.tryLoadPrefix chain (b : Int) prompt) c)
  registerPrefix : ∀ (b : Nat) prompt c,
    K c (Exec.after (KVCacheType.registerPrefix chain (b : Int) prompt) c)

/-- Any cache may become any other: what is true whatever the model does. -/
theorem cacheSteps_any (chain : Int → List Nat → Int) (model : InferenceModel Row Score) :
    CacheSteps chain model fun _ _ => True :=
  ⟨fun _ => trivial, fun _ _ => trivial, fun _ _ _ _ => trivial, fun _ _ => trivial,
    fun _ _ _ => trivial, fun _ _ _ => trivial⟩

/-- A batch has the lengths of its rows. -/
theorem batchTokenIds_lens {tokenLists tokenIds : List (List Nat)} {padId : Nat}
    {inputLens : List Nat} (h : batchTokenIds tokenLists padId = .ok (tokenIds, inputLens)) :
    inputLens = tokenLists.map List.length := by
  unfold batchTokenIds at h
  split at h
  · cases h
  · cases h
    rfl

namespace ModelRunner

/-- The request objects are those of `requests` with a forward pass between them, and the cache
is one that `c` may become. -/
structure Forwards (K : KVCacheType Row → KVCacheType Row → Prop)
    (requests : Ref → InferenceRequest Nat) (c : KVCacheType Row) (s : ModelRunner Row) : Prop where
  forwarded : ∀ r, Forwarded (requests r) (s.requests r)
  cache : K c s.cache

variable {chain : Int → List Nat → Int} {model : InferenceModel Row Score}
  {K : KVCacheType Row → KVCacheType Row → Prop} {requests : Ref → InferenceRequest Nat}
  {c : KVCacheType Row} {rs : List Ref}

theorem Forwards.update {s : ModelRunner Row} (h : Forwards K requests c s) {r : Ref}
    {f : InferenceRequest Nat → InferenceRequest Nat}
    (hf : Forwarded (s.requests r) (f (s.requests r))) : Forwards K requests c (s.update r f) := by
  refine ⟨fun r' => ?_, h.cache⟩
  by_cases he : r' = r
  · subst he
    simpa [ModelRunner.update] using (h.forwarded r').trans hf
  · simpa [ModelRunner.update, he] using h.forwarded r'

theorem forwards_refl (hK : CacheSteps chain model K) (s : ModelRunner Row) :
    Forwards K s.requests s.cache s :=
  ⟨fun _ => .refl _, hK.refl _⟩

theorem Forwards.trans (hK : CacheSteps chain model K) {s t : ModelRunner Row}
    (h : Forwards K requests c s) (h' : Forwards K s.requests s.cache t) :
    Forwards K requests c t :=
  ⟨fun r => (h.forwarded r).trans (h'.forwarded r), hK.trans h.cache h'.cache⟩

/-- Work on the cache leaves the request objects alone. -/
theorem onCache_forwards {α : Type} (hK : CacheSteps chain model K) {m : KVCacheType.M Row α}
    (hm : ∀ c, K c (Exec.after m c)) (J : (Ref → InferenceRequest Nat) → Prop) :
    Exec.Keeps (fun s => J s.requests ∧ K c s.cache) (onCache m) :=
  Exec.Keeps.within fun s hs => ⟨hs.1, hK.trans hs.2 (hm s.cache)⟩

theorem loadPrefix_forwards (hK : CacheSteps chain model K) (b : Nat) (tokenIds : List Nat)
    (J : (Ref → InferenceRequest Nat) → Prop) :
    Exec.Keeps (fun s => J s.requests ∧ K c s.cache) (loadPrefix chain b tokenIds : M Row Nat) :=
  Exec.Keeps.get_bind fun s hs => Exec.Keeps.ite
    (fun _ => onCache_forwards hK (hK.tryLoadPrefix b tokenIds) J) (fun _ => Exec.Keeps.pure 0) s hs

/-- **A slot is prepared**: the request starts with the tokens of a cached prefix, if any. -/
theorem prepareSlot_forwards (hK : CacheSteps chain model K) (r : Ref) :
    Exec.Triple (Forwards K requests c) (prepareSlot chain r)
      (fun _ s => Forwards K requests c s ∧ (s.requests r).slotPrepared = true)
      (Forwards K requests c) := by
  refine .get_bind fun s hs => .ite (fun hnot => ?_) fun hp => .pure _ fun t ht => ?_
  · refine .ofExcept_bind (fun b _ => ?_) fun t ht => ht ▸ hs
    -- the request changes only once it is known what was loaded
    set J : ModelRunner Row → Prop := fun t => t.requests = s.requests ∧ K c t.cache with hJ
    have hback : ∀ t, J t → Forwards K requests c t := fun t ht =>
      ⟨fun r' => by rw [ht.1]; exact hs.forwarded r', ht.2⟩
    have hload := (loadPrefix_forwards hK b (s.requests r).promptTokenIds (c := c)
      (· = s.requests)).triple
    have hfinal : ∀ (f : InferenceRequest Nat → InferenceRequest Nat) (t : ModelRunner Row), J t →
        Forwarded (s.requests r) (f (s.requests r)) → (f (s.requests r)).slotPrepared = true →
        Forwards K requests c (t.update r f) ∧
          ((t.update r f).requests r).slotPrepared = true := by
      intro f t ht hf hprepared
      refine ⟨(hback t ht).update (by rw [ht.1]; exact hf), ?_⟩
      simpa [ModelRunner.update, ht.1] using hprepared
    have hprepared : Forwarded (s.requests r) { s.requests r with slotPrepared := true } :=
      ⟨⟨⟨rfl, rfl, rfl, rfl, rfl⟩, rfl, rfl, rfl⟩, fun _ => rfl, fun _ => Nat.le_refl _,
        fun _ h => by cases h⟩
    refine Exec.Triple.bind (R := fun _ => J) (hload.conseq (by rintro t rfl; exact ⟨rfl, hs.cache⟩)
      (fun _ _ h => h) hback) fun loaded => .ite (fun hpos => ?_) fun _ => .ite (fun _ => ?_)
      fun _ => .modify fun t ht => hfinal _ t ht hprepared rfl
    · intro t ht
      have hstarted : Forwarded (s.requests r) { s.requests r with
          prefillOffset := loaded, prefixCacheHitTokens := loaded, slotPrepared := true } :=
        ⟨⟨⟨rfl, rfl, rfl, rfl, rfl⟩, rfl, rfl, rfl⟩, fun _ => rfl,
          fun hu => (hu hnot).symm ▸ Nat.zero_le _, fun _ h => by cases h⟩
      have := hfinal (fun q => { q with
        prefillOffset := loaded, prefixCacheHitTokens := loaded, slotPrepared := true }) t ht
        hstarted rfl
      simpa [ModelRunner.update] using this
    · have hreset := (onCache_forwards hK (hK.resetSlot b) (c := c) (· = s.requests)).triple
      exact Exec.Triple.bind (R := fun _ => J) (hreset.conseq (fun _ h => h) (fun _ _ h => h) hback)
        fun _ => .modify fun t ht => hfinal _ t ht hprepared rfl
  · subst ht
    exact ⟨hs, by simpa using hp⟩

theorem prepareSlot_keeps (hK : CacheSteps chain model K) (r : Ref) :
    Exec.Keeps (Forwards K requests c) (prepareSlot chain r) :=
  Exec.keeps_iff_triple.mpr
    ((prepareSlot_forwards hK r).conseq (fun _ h => h) (fun _ _ h => h.1) fun _ h => h)

/-- A slot that is prepared stays prepared. -/
theorem prepareSlot_keeps_prepared (hK : CacheSteps chain model K) (r r' : Ref) :
    Exec.Keeps (fun s : ModelRunner Row => (s.requests r).slotPrepared = true)
      (prepareSlot chain r') :=
  fun s hs => ((prepareSlot_keeps hK r' s (forwards_refl hK s)).forwarded r).prepared hs

theorem prepareAll_forwards (hK : CacheSteps chain model K) :
    Exec.Triple (Forwards K requests c) (forM rs (prepareSlot chain) : M Row PUnit)
      (fun _ s => Forwards K requests c s ∧ ∀ r ∈ rs, (s.requests r).slotPrepared = true)
      (Forwards K requests c) := by
  intro s hs
  have hall := (Exec.Keeps.forM rs fun r _ => prepareSlot_keeps hK r).triple s hs
  have heach := fun r (hr : r ∈ rs) =>
    Exec.Triple.forM_mem (fun r' _ => prepareSlot_keeps hK r')
      (fun r' _ => prepareSlot_keeps_prepared hK r r') hr
      ((prepareSlot_forwards hK r).conseq (fun _ h => h) (fun _ _ h => h.2) fun _ _ => trivial) s hs
  cases hrun : (forM rs (prepareSlot chain) : M Row PUnit).run s with
  | ok u t =>
    rw [hrun] at hall heach
    exact ⟨hall, heach⟩
  | error e t =>
    rw [hrun] at hall
    exact hall

/-! ## prefill and decode -/

/-- The rows of a prefill have advanced by `lens`, and those that were complete have a token. -/
def RowsAdvanced (requests : Ref → InferenceRequest Nat) (s : ModelRunner Row) :
    List Ref → List Nat → List (Option Nat) → Prop
  | r :: rs, n :: lens, token :: tokens =>
    (requests r).prefillOffset + n ≤ (s.requests r).prefillOffset ∧
      ((requests r).prefillComplete = true → token.isSome) ∧ RowsAdvanced requests s rs lens tokens
  | [], [], [] => True
  | _, _, _ => False

theorem advanceRows_forwards [LinearOrder Score] (hK : CacheSteps chain model K)
    (logits : Logits Score) (i : Nat) {lens : List Nat} (hlen : rs.length = lens.length)
    (hun : ∀ r, (requests r).Unstarted) (hprep : ∀ r ∈ rs, (requests r).slotPrepared = true) :
    Exec.Triple (Forwards K requests c) (advanceRows logits i rs lens : M Row _)
      (fun tokens s => Forwards K requests c s ∧ RowsAdvanced requests s rs lens tokens)
      (Forwards K requests c) := by
  induction rs generalizing lens i requests c with
  | nil =>
    cases lens with
    | nil => exact .pure _ fun _ hs => ⟨hs, trivial⟩
    | cons n lens => cases hlen
  | cons r rs ih =>
    rcases lens with - | ⟨n, lens⟩
    · cases hlen
    have hlen' : rs.length = lens.length := Nat.succ.inj hlen
    have hprep' : ∀ r' ∈ rs, (requests r').slotPrepared = true :=
      fun r' hr' => hprep r' (List.mem_cons_of_mem r hr')
    set P : ModelRunner Row → Prop := fun s => Forwards K requests c s ∧
      (requests r).prefillOffset + n ≤ (s.requests r).prefillOffset with hP
    rw [advanceRows]
    refine Exec.Triple.bind (R := fun _ => P) (.modify fun s hs => ?_) fun _ =>
      Exec.Triple.bind (R := fun token s => P s ∧
        ((requests r).prefillComplete = true → token.isSome)) ?_ fun token => ?_
    · have hr := (hs.forwarded r).prepared (hprep r List.mem_cons_self)
      refine ⟨hs.update ⟨⟨⟨rfl, rfl, rfl, rfl, rfl⟩, rfl, rfl, rfl⟩, fun h => h,
        fun _ => Nat.le_add_right _ _, fun _ h => absurd (hr.symm.trans h) (by decide)⟩, ?_⟩
      have := (hs.forwarded r).offset (hun r)
      simp only [ModelRunner.update, Function.update_self]
      omega
    · refine .get_bind fun s hs => .ite (fun _ => ?_) fun hnot => .pure _ fun t ht => ?_
      · refine Exec.Triple.bind (R := fun _ => P) (.ofExcept (fun _ _ t ht => ht ▸ hs)
          fun t ht => ht ▸ hs.1) fun _ => .pure _ fun t ht => ⟨ht, fun _ => rfl⟩
      · exact ⟨ht ▸ hs,
          fun hc => absurd ((hs.1.forwarded r).prefillComplete (hun r) hc) hnot⟩
    · -- the rows after this one keep what it has reached
      have hkeep : Exec.Keeps P (advanceRows logits (i + 1) rs lens) := by
        refine Exec.keeps_iff_triple.mpr fun s hs => ?_
        have hun' : ∀ r', (s.requests r').Unstarted :=
          fun r' => (hs.1.forwarded r').unstarted (hun r')
        have hs' := (ih (c := s.cache) (i + 1) hlen' hun'
          fun r' hr' => (hs.1.forwarded r').prepared (hprep' r' hr')) s (forwards_refl hK s)
        have hP' : ∀ t, Forwards K s.requests s.cache t → P t := fun t ht =>
          ⟨hs.1.trans hK ht,
            hs.2.trans ((ht.forwarded r).offset ((hs.1.forwarded r).unstarted (hun r)))⟩
        cases hrun : (advanceRows logits (i + 1) rs lens : M Row _).run s with
        | ok tokens t => rw [hrun] at hs'; exact hP' t hs'.1
        | error e t => rw [hrun] at hs'; exact hP' t hs'
      have hrest := hkeep.triple.and (ih (c := c) (i + 1) hlen' hun hprep')
      rintro s ⟨hs, htoken⟩
      exact Exec.Triple.bind (P := fun s => P s ∧ Forwards K requests c s)
        (hrest.conseq (fun _ h => h) (fun _ _ h => h) fun _ h => h.2)
        (fun tokens => .pure _ fun t ht => ⟨ht.2.1, ht.1.2, htoken, ht.2.2⟩) s ⟨hs, hs.1⟩

/-- Either the request has come further in its prompt, or it was given a token. -/
def Came (q q' : InferenceRequest Nat) (token : Option Nat) : Prop :=
  q.prefillOffset < q'.prefillOffset ∨ token.isSome

theorem length_chunkTokens {q : InferenceRequest Nat} (hchunk : 1 ≤ q.prefillChunkSize)
    (hmore : ¬q.prefillComplete = true) : 1 ≤ (chunkTokens q).length := by
  rw [InferenceRequest.prefillComplete_iff] at hmore
  unfold chunkTokens pySlice InferenceRequest.numPromptTokens
  simp only
  rw [if_neg (by omega), List.length_drop, List.length_take]
  omega

/-- The request has come a chunk further in its prompt, or to the end of it. -/
def ChunkDone (q q' : InferenceRequest Nat) : Prop :=
  min q.promptTokenIds.length (q.prefillOffset + q.prefillChunkSize.toNat) ≤ q'.prefillOffset

/-- A chunk that was started further on ends further on. -/
theorem chunkDone_of_forwarded {q q₁ q' : InferenceRequest Nat} (h : Forwarded q q₁)
    (hu : q.Unstarted) (hchunk : 1 ≤ q₁.prefillChunkSize)
    (hrow : q₁.prefillOffset + (chunkTokens q₁).length ≤ q'.prefillOffset) : ChunkDone q q' := by
  have hoffset := h.offset hu
  have hlen : (chunkTokens q₁).length
      = min q₁.prefillChunkSize.toNat (q₁.promptTokenIds.length - q₁.prefillOffset) := by
    unfold chunkTokens pySlice InferenceRequest.numPromptTokens
    simp only
    rw [if_neg (by omega), List.length_drop, List.length_take]
    omega
  unfold ChunkDone
  rw [← h.prompt, ← h.chunk]
  omega

/-- The rows of a batch that advanced by their chunks have come further. -/
theorem came_of_rowsAdvanced {requests₁ : Ref → InferenceRequest Nat} {s : ModelRunner Row} :
    ∀ {rs : List Ref} {tokens : List (Option Nat)},
      RowsAdvanced requests₁ s rs (rs.map fun r => (chunkTokens (requests₁ r)).length) tokens →
      tokens.length = rs.length ∧ ∀ p ∈ rs.zip tokens, 1 ≤ (requests₁ p.1).prefillChunkSize →
        Came (requests₁ p.1) (s.requests p.1) p.2 ∧
        (requests₁ p.1).prefillOffset + (chunkTokens (requests₁ p.1)).length
          ≤ (s.requests p.1).prefillOffset
  | [], [], _ => ⟨rfl, fun _ hp => nomatch hp⟩
  | r :: rs, token :: tokens, ⟨hoffset, htoken, hrest⟩ => by
    obtain ⟨hlen, hcame⟩ := came_of_rowsAdvanced hrest
    refine ⟨congrArg Nat.succ hlen, fun p hp hchunk => ?_⟩
    rcases List.mem_cons.mp hp with rfl | hp
    · refine ⟨?_, hoffset⟩
      by_cases hc : (requests₁ r).prefillComplete = true
      · exact Or.inr (htoken hc)
      · have := length_chunkTokens (q := requests₁ r) hchunk hc
        exact Or.inl (by simp only at hoffset ⊢; omega)
    · exact hcame p hp hchunk

variable [LinearOrder Score]

/-- **A prefill** lets every request of the batch come a chunk further, or gives it a token, as long
as chunks are not empty. -/
theorem prefill_forwards (hK : CacheSteps chain model K) (hun : ∀ r, (requests r).Unstarted) :
    Exec.Triple (Forwards K requests c) (prefill chain model rs)
      (fun tokens s => Forwards K requests c s ∧ tokens.length = rs.length ∧ ∀ p ∈ rs.zip tokens,
        1 ≤ (requests p.1).prefillChunkSize →
          Came (requests p.1) (s.requests p.1) p.2 ∧ ChunkDone (requests p.1) (s.requests p.1))
      (Forwards K requests c) := by
  refine (prepareAll_forwards hK).bind fun _ => .get_bind fun s hs => ?_
  obtain ⟨hs, hprep⟩ := hs
  have hun' : ∀ r, (s.requests r).Unstarted := fun r => (hs.forwarded r).unstarted (hun r)
  have hback : ∀ t, t = s → Forwards K requests c t := fun t ht => ht ▸ hs
  refine .ofExcept_bind (fun (tokenIds, inputLens) hbatch => .ofExcept_bind (fun slots _ => ?_) hback)
    hback
  have hlens : inputLens = rs.map fun r => (chunkTokens (s.requests r)).length := by
    rw [batchTokenIds_lens hbatch, List.map_map]
    rfl
  have hcall := (onCache_forwards hK (hK.call tokenIds (some inputLens) slots) (c := s.cache)
    (· = s.requests)).triple
  have hsame : ∀ t : ModelRunner Row, t.requests = s.requests ∧ K s.cache t.cache →
      Forwards K s.requests s.cache t := fun t ht => ⟨fun r => by rw [ht.1]; exact .refl _, ht.2⟩
  refine Exec.Triple.bind (R := fun _ t => t.requests = s.requests ∧ K s.cache t.cache)
    (hcall.conseq (by rintro t rfl; exact ⟨rfl, hK.refl _⟩) (fun _ _ h => h)
      fun t ht => hs.trans hK (hsame t ht)) fun logits => ?_
  have hlen : rs.length = inputLens.length := by rw [hlens, List.length_map]
  have hrows := advanceRows_forwards hK logits 0 hlen hun' hprep (c := s.cache)
  refine hrows.conseq hsame (fun tokens t ht => ?_) fun t ht => hs.trans hK ht
  rw [hlens] at ht
  obtain ⟨hlen, hcame⟩ := came_of_rowsAdvanced ht.2
  refine ⟨hs.trans hK ht.1, hlen, fun p hp hchunk => ?_⟩
  have hchunk' : 1 ≤ (s.requests p.1).prefillChunkSize := by
    rw [(hs.forwarded p.1).chunk]
    exact hchunk
  obtain ⟨hcame, hrow⟩ := hcame p hp hchunk'
  refine ⟨hcame.imp_left fun hlt => ?_,
    chunkDone_of_forwarded (hs.forwarded p.1) (hun p.1) hchunk' hrow⟩
  exact ((hs.forwarded p.1).offset (hun p.1)).trans_lt hlt

/-- **A decode** gives every request of the batch a token. -/
theorem decode_forwards (hK : CacheSteps chain model K) :
    Exec.Triple (Forwards K requests c) (decode model rs)
      (fun tokens s => Forwards K requests c s ∧ tokens.length = rs.length)
      (Forwards K requests c) := by
  refine .get_bind fun s hs => ?_
  have hback : ∀ t, t = s → Forwards K requests c t := fun t ht => ht ▸ hs
  refine .ofExcept_bind (fun tokens _ => .ofExcept_bind (fun slots _ => ?_) hback) hback
  have hcall := (onCache_forwards hK (hK.call tokens none slots) (c := s.cache)
    (· = s.requests)).triple
  have hsame : ∀ t : ModelRunner Row, t.requests = s.requests ∧ K s.cache t.cache →
      Forwards K requests c t := fun t ht =>
    hs.trans hK ⟨fun r => by rw [ht.1]; exact .refl _, ht.2⟩
  refine Exec.Triple.bind (R := fun _ t => t.requests = s.requests ∧ K s.cache t.cache)
    (hcall.conseq (by rintro t rfl; exact ⟨rfl, hK.refl _⟩) (fun _ _ h => h) hsame) fun logits =>
      .ofExcept (fun tokens htokens t ht => ⟨hsame t ht, ?_⟩) hsame
  rw [Exec.length_of_mapM_ok htokens, List.length_range]

end ModelRunner

end Nifre
