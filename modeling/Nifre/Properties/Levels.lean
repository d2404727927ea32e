import Nifre.Properties.Passes
import Nifre.Properties.PrefillPass

/-!
# Levels

Between the calls the cursor of a slot is at the level of the request that holds it: its offset
while it prefills, all its tokens but the last one while it decodes. A forward pass moves the
cursors before the requests catch up, so in between a cursor may be ahead.
-/

namespace Nifre

/-- The tokens of a request that its slot holds. -/
def InferenceRequest.level (q : InferenceRequest Nat) : Int :=
  if q.state = .prefill then q.prefillOffset else q.numPromptTokens + q.numGenerated - 1

namespace ModelRunner

variable {Row Score : Type} {chain : Int → List Nat → Int} {model : InferenceModel Row Score}
  {size : Nat} {R : List Ref} {ahead : Ref → Nat} {s s' : ModelRunner Row}

/-- The requests of `R` hold different slots, and the cursor of each that is prepared is at its
level, or `ahead` of it. -/
structure Leveled (model : InferenceModel Row Score) (size : Nat) (R : List Ref)
    (ahead : Ref → Nat) (s : ModelRunner Row) : Prop where
  native : s.cache.Native model size
  slot_lt : ∀ r ∈ R, ∀ b, (s.requests r).batchIdx = some b → b < size
  apart : ∀ r ∈ R, ∀ r' ∈ R, ∀ b, (s.requests r).batchIdx = some b →
    (s.requests r').batchIdx = some b → r = r'
  unstarted : ∀ r, (s.requests r).Unstarted
  offset : ∀ r, (s.requests r).prefillOffset ≤ (s.requests r).numPromptTokens
  fresh : ∀ r, (s.requests r).state = .waiting → (s.requests r).slotPrepared = false
  level : ∀ r ∈ R, ∀ b, (s.requests r).batchIdx = some b → (s.requests r).slotPrepared = true →
    (s.cache.cursor b : Int) = (s.requests r).level + ahead r

/-- The cache changes in the slot of one request at most, and that request is not prepared. -/
theorem Leveled.cache (h : Leveled model size R ahead s) {r : Ref} (hr : r ∈ R) {b : Nat}
    (hb : (s.requests r).batchIdx = some b) (hfresh : (s.requests r).slotPrepared = false)
    {c : KVCacheType Row} (hnative : c.Native model size)
    (hsame : KVCacheType.SameSlots [b] s.cache c) :
    Leveled model size R ahead { s with cache := c } where
  native := hnative
  slot_lt := h.slot_lt
  apart := h.apart
  unstarted := h.unstarted
  offset := h.offset
  fresh := h.fresh
  level := fun r' hr' b' hb' hprepared => by
    have hne : b' ≠ b := by
      rintro rfl
      rw [h.apart r' hr' r hr b' hb' hb, hfresh] at hprepared
      cases hprepared
    rw [hsame.cursor fun hi => hne (List.mem_singleton.mp hi)]
    exact h.level r' hr' b' hb' hprepared

/-- One request changes, and its cursor is at its level then. -/
theorem Leveled.update (h : Leveled model size R ahead s) {r : Ref}
    {f : InferenceRequest Nat → InferenceRequest Nat}
    (hslot : (f (s.requests r)).batchIdx = (s.requests r).batchIdx)
    (hunstarted : (f (s.requests r)).Unstarted)
    (hoffset : (f (s.requests r)).prefillOffset ≤ (f (s.requests r)).numPromptTokens)
    (hfresh : (f (s.requests r)).state = .waiting → (f (s.requests r)).slotPrepared = false)
    (hlevel : ∀ b, (s.requests r).batchIdx = some b → (f (s.requests r)).slotPrepared = true →
      (s.cache.cursor b : Int) = (f (s.requests r)).level + ahead r) :
    Leveled model size R ahead (s.update r f) := by
  have hslots : ∀ r', ((s.update r f).requests r').batchIdx = (s.requests r').batchIdx := by
    intro r'
    by_cases he : r' = r
    · subst he
      simpa [ModelRunner.update] using hslot
    · simp [ModelRunner.update, he]
  refine ⟨h.native, fun r' hr' b hb => ?_, fun r₁ h₁ r₂ h₂ b hb₁ hb₂ => ?_, fun r' => ?_,
    fun r' => ?_, fun r' => ?_, fun r' hr' b hb hprepared => ?_⟩
  · exact h.slot_lt r' hr' b ((hslots r').symm.trans hb)
  · exact h.apart r₁ h₁ r₂ h₂ b ((hslots r₁).symm.trans hb₁) ((hslots r₂).symm.trans hb₂)
  · by_cases he : r' = r
    · subst he
      simpa [ModelRunner.update] using hunstarted
    · simpa [ModelRunner.update, he] using h.unstarted r'
  · by_cases he : r' = r
    · subst he
      simpa [ModelRunner.update] using hoffset
    · simpa [ModelRunner.update, he] using h.offset r'
  · by_cases he : r' = r
    · subst he
      simpa [ModelRunner.update] using hfresh
    · simpa [ModelRunner.update, he] using h.fresh r'
  · rw [hslots] at hb
    by_cases he : r' = r
    · subst he
      simp only [ModelRunner.update, Function.update_self] at hprepared ⊢
      exact hlevel b hb hprepared
    · simp only [ModelRunner.update, Function.update_of_ne he] at hprepared ⊢
      exact h.level r' hr' b hb hprepared

/-! ## A slot is prepared -/

/-- A request whose slot is prepared now, with as many tokens as its offset says. -/
theorem Leveled.prepared (h : Leveled model size R (fun _ => 0) s) {r : Ref} {b : Nat}
    (hb : (s.requests r).batchIdx = some b) {f : InferenceRequest Nat → InferenceRequest Nat}
    (hslot : (f (s.requests r)).batchIdx = (s.requests r).batchIdx)
    (hprepared : (f (s.requests r)).slotPrepared = true)
    (hstate : (f (s.requests r)).state = .prefill)
    (hoffset : (f (s.requests r)).prefillOffset ≤ (f (s.requests r)).numPromptTokens)
    (hcursor : s.cache.cursor b = (f (s.requests r)).prefillOffset) :
    Leveled model size R (fun _ => 0) (s.update r f) := by
  refine h.update hslot (fun hfresh => ?_) hoffset (fun hwait => ?_) fun b' hb' _ => ?_
  · rw [hprepared] at hfresh
    cases hfresh
  · rw [hstate] at hwait
    cases hwait
  · cases hb.symm.trans hb'
    rw [InferenceRequest.level, if_pos hstate, hcursor]
    exact (Int.add_zero _).symm

variable (chain) in
/-- A request once its slot is prepared. -/
def asPrepared (c : KVCacheType Row) (q : InferenceRequest Nat) : InferenceRequest Nat :=
  if q.slotPrepared = false then
    { q with prefillOffset := (c.restored chain q.promptTokenIds).cursor }
  else q

variable (chain) in
/-- The slot `b` of a request once it is prepared. -/
def slotAsPrepared (c : KVCacheType Row) (q : InferenceRequest Nat) (b : Nat) : Slot Row :=
  if q.slotPrepared = false then c.restored chain q.promptTokenIds else c.slot b

variable (chain) in
/-- The row of a request in a prefill. -/
def prefillRow (s : ModelRunner Row) (r : Ref) : PassRow Row :=
  ⟨slotAsPrepared chain s.cache (s.requests r) (s.slot r),
    chunkTokens (asPrepared chain s.cache (s.requests r))⟩

variable (chain) in
/-- The pass of a prefill, from what is known before the slots are prepared. Blocks that are still
in a slot may be given back then. -/
def prefillPlan (rs : List Ref) (s : ModelRunner Row) : Pass Row where
  rows := rs.map (prefillRow chain s)
  blockSize := s.cache.blockSize
  freeBlocks := s.cache.freeBlocks
  exact := rs.all fun r =>
    (s.requests r).slotPrepared || (s.cache.slot (s.slot r)).table.isEmpty

variable (chain) in
/-- The slot of a request cannot be prepared: there are blocks in the table that a prefix is to be
loaded into, or a block is to be given back twice. -/
def Blocked (s : ModelRunner Row) (r : Ref) : Prop :=
  (s.requests r).slotPrepared = false ∧
    if 0 < (s.cache.restored chain (s.requests r).promptTokenIds).cursor then
      (s.cache.slot (s.slot r)).table ≠ []
    else ¬s.cache.Unrepeated (s.slot r)

instance : DecidablePred (Blocked chain s) := fun _ => inferInstanceAs (Decidable (_ ∧ ite _ _ _))

/-- What preparing the slots of `rs` leaves. -/
structure AllPrepared (chain : Int → List Nat → Int) (rs : List Ref) (s s' : ModelRunner Row) :
    Prop where
  same : KVCacheType.SameSlots (rs.map s.slot) s.cache s'.cache
  restored : ∀ prompt, s'.cache.restored chain prompt = s.cache.restored chain prompt
  free : s.cache.freeBlocks ≤ s'.cache.freeBlocks
  free_eq : (prefillPlan chain rs s).exact = true → s'.cache.freeBlocks = s.cache.freeBlocks
  others : ∀ r ∉ rs, s'.requests r = s.requests r
  slots : ∀ r, s'.slot r = s.slot r
  rows : ∀ r ∈ rs, ⟨s'.cache.slot (s.slot r), chunkTokens (s'.requests r)⟩ = prefillRow chain s r
  unblocked : ∀ r ∈ rs, ¬Blocked chain s r

namespace AllPrepared

variable {rs : List Ref} {s'' : ModelRunner Row} {r : Ref}

/-- The pass is the one that was known. -/
theorem of (h : AllPrepared chain rs s s') : Pass.Of s'.cache
    (rs.map fun r => (s'.slot r, chunkTokens (s'.requests r))) (prefillPlan chain rs s) where
  rows := by
    rw [Pass.rowsOf, List.map_map]
    refine (List.map_congr_left fun r hr => ?_).symm
    rw [Function.comp_apply, ← h.rows r hr, h.slots r]
  blockSize := h.same.blockSize.symm
  freeBlocks := h.free
  exact := fun hexact => (h.free_eq hexact).symm

/-- Nothing is to be prepared. -/
theorem nil (s : ModelRunner Row) : AllPrepared chain [] s s :=
  ⟨.refl _, fun _ => rfl, le_rfl, fun _ => rfl, fun _ _ => rfl, fun _ => rfl, nofun, nofun⟩

/-- The slot is prepared already. -/
theorem ready (h : (s.requests r).slotPrepared = true) : AllPrepared chain [r] s s := by
  refine ⟨.refl _, fun _ => rfl, le_rfl, fun _ => rfl, fun _ _ => rfl, fun _ => rfl,
    fun r' hr' => ?_, fun r' hr' hblocked => ?_⟩ <;> obtain rfl := List.mem_singleton.mp hr'
  · have hready : ¬(s.requests r').slotPrepared = false := by rw [h]; decide
    rw [prefillRow, slotAsPrepared, asPrepared, if_neg hready, if_neg hready]
  · exact nomatch h.symm.trans hblocked.1

/-- One slot that was not is prepared. -/
theorem single {b : Nat} (hfresh : (s.requests r).slotPrepared = false) (hslot : s.slot r = b)
    {q : InferenceRequest Nat} (hself : s'.requests r = q)
    (hbatch : q.batchIdx = (s.requests r).batchIdx)
    (hother : ∀ r' ≠ r, s'.requests r' = s.requests r')
    (hsame : KVCacheType.SameSlots [b] s.cache s'.cache)
    (hrestored : ∀ prompt, s'.cache.restored chain prompt = s.cache.restored chain prompt)
    (hfree : s.cache.freeBlocks ≤ s'.cache.freeBlocks)
    (hfree_eq : (s.cache.slot b).table = [] → s'.cache.freeBlocks = s.cache.freeBlocks)
    (hrow : ⟨s'.cache.slot b, chunkTokens q⟩ = prefillRow chain s r)
    (hunblocked : ¬Blocked chain s r) : AllPrepared chain [r] s s' := by
  subst hslot hself
  refine ⟨hsame, hrestored, hfree, fun hexact => hfree_eq ?_, fun r' hr' => ?_, fun r' => ?_,
    fun r' hr' => ?_, List.forall_mem_singleton.mpr hunblocked⟩
  · have hall := List.all_eq_true.mp hexact r List.mem_cons_self
    rw [hfresh, Bool.false_or] at hall
    exact List.isEmpty_iff.mp hall
  · exact hother r' fun he => hr' (List.mem_singleton.mpr he)
  · by_cases he : r' = r
    · rw [he, ModelRunner.slot, ModelRunner.slot, hbatch]
    · rw [ModelRunner.slot, ModelRunner.slot, hother r' he]
  · obtain rfl := List.mem_singleton.mp hr'
    exact hrow

/-- One slot is prepared, and then the others. -/
theorem cons (hr : r ∉ rs) (hslot : s.slot r ∉ rs.map s.slot) (h : AllPrepared chain [r] s s')
    (h' : AllPrepared chain rs s' s'') : AllPrepared chain (r :: rs) s s'' := by
  have hslots : rs.map s'.slot = rs.map s.slot := List.map_congr_left fun r' _ => h.slots r'
  have hother : ∀ r' ∈ rs, s'.requests r' = s.requests r' := fun r' hr' =>
    h.others r' fun hmem => hr (List.mem_singleton.mp hmem ▸ hr')
  have hslot' : ∀ r' ∈ rs, s'.cache.slot (s.slot r') = s.cache.slot (s.slot r') :=
    fun r' hr' => h.same.slot _ fun hmem =>
      hslot (List.mem_singleton.mp hmem ▸ List.mem_map_of_mem hr')
  have hsame := h'.same
  rw [hslots] at hsame
  refine ⟨(h.same.mono fun i hi => List.mem_cons.mpr (Or.inl (List.mem_singleton.mp hi))).trans
    (hsame.mono fun i hi => List.mem_cons_of_mem _ hi), fun prompt =>
    (h'.restored prompt).trans (h.restored prompt), h.free.trans h'.free, fun hexact => ?_,
    fun r' hr' => ?_, fun r' => (h'.slots r').trans (h.slots r'), fun r' hr' => ?_,
    fun r' hr' hblocked => ?_⟩
  · rw [prefillPlan, List.all_cons, Bool.and_eq_true] at hexact
    refine (h'.free_eq ?_).trans (h.free_eq ?_)
    · rw [prefillPlan, List.all_eq_true]
      intro r' hr'
      rw [hother r' hr', h.slots, hslot' r' hr']
      exact List.all_eq_true.mp hexact.2 r' hr'
    · rw [prefillPlan, List.all_cons, Bool.and_eq_true]
      exact ⟨hexact.1, rfl⟩
  · rw [List.mem_cons, not_or] at hr'
    rw [h'.others r' hr'.2, h.others r' fun hmem => hr'.1 (List.mem_singleton.mp hmem)]
  · rcases List.mem_cons.mp hr' with rfl | hr'
    · rw [hsame.slot _ hslot, h'.others r' hr]
      exact h.rows r' List.mem_cons_self
    · rw [← h.slots, h'.rows r' hr', prefillRow, prefillRow, slotAsPrepared, slotAsPrepared,
        asPrepared, asPrepared, hother r' hr', h.slots, hslot' r' hr', h.restored]
  · rcases List.mem_cons.mp hr' with rfl | hr'
    · exact h.unblocked r' List.mem_cons_self hblocked
    · refine h'.unblocked r' hr' ?_
      rw [Blocked, KVCacheType.Unrepeated, hother r' hr', h.slots, hslot' r' hr', h.restored]
      exact hblocked

end AllPrepared

variable (chain) in
/-- **A load** fills its slot with what is restored, if anything is. -/
theorem loadPrefix_cases (hnative : s.cache.Native model size) {b : Nat} (hb : b < size)
    (prompt : List Nat) :
    let restored := s.cache.restored chain prompt
    (∃ c, (loadPrefix chain b prompt).run s = .ok restored.cursor { s with cache := c } ∧
      KVCacheType.Loaded chain model size s.cache b c ∧ restored.cursor ≤ prompt.length ∧
      (0 < restored.cursor → c.slot b = restored ∧ (s.cache.slot b).table = []) ∧
      (restored.cursor = 0 → (c.slot b).table = (s.cache.slot b).table)) ∨
    ∃ e c, (loadPrefix chain b prompt).run s = .error e { s with cache := c } ∧
      KVCacheType.Loaded chain model size s.cache b c := by
  intro restored
  unfold loadPrefix
  rw [Exec.run_bind_ok (EStateM.run_get s)]
  by_cases hprefix : s.cache.hasPrefix = true
  · rw [if_pos hprefix]
    rcases KVCacheType.tryLoadPrefix_cases chain hnative hb prompt with
      ⟨c, hrun, hloaded, hslot, htable⟩ | ⟨e, c, hrun, hloaded⟩
    · exact Or.inl ⟨c, Exec.run_within_ok hrun, hloaded,
        KVCacheType.tryLoadPrefix_le hnative.short hrun, hslot, htable⟩
    · exact Or.inr ⟨e, c, Exec.run_within_error hrun, hloaded⟩
  · -- a cache without a prefix cache restores nothing
    have hempty : s.cache.restored chain prompt = .empty := by
      have hfalse := eq_false_of_ne_true hprefix
      generalize s.cache = c at hfalse
      cases c with
      | dense c => rfl
      | paged c => cases hfalse
      | hf c => cases hfalse
    simp only [restored, if_neg hprefix, hempty]
    exact Or.inl ⟨s.cache, rfl, .refl chain hnative, Nat.zero_le _,
      fun h0 => absurd h0 (Nat.lt_irrefl 0), fun _ => rfl⟩

section

variable {r : Ref} {b : Nat} {c c' : KVCacheType Row}

/-- The row of a request whose slot is not prepared. -/
theorem prefillRow_eq (hfresh : (s.requests r).slotPrepared = false) :
    prefillRow chain s r = ⟨s.cache.restored chain (s.requests r).promptTokenIds,
      chunkTokens { s.requests r with
        prefillOffset := (s.cache.restored chain (s.requests r).promptTokenIds).cursor }⟩ := by
  rw [prefillRow, slotAsPrepared, asPrepared, if_pos hfresh, if_pos hfresh]

/-- A slot is prepared by a load. -/
theorem Leveled.loaded (h : Leveled model size R (fun _ => 0) s) (hr : r ∈ R)
    (hb : (s.requests r).batchIdx = some b) (hfresh : (s.requests r).slotPrepared = false)
    (hstate : (s.requests r).state = .prefill)
    (hloaded : KVCacheType.Loaded chain model size s.cache b c) {restored : Slot Row}
    (hrestored : s.cache.restored chain (s.requests r).promptTokenIds = restored)
    (hpos : 0 < restored.cursor) (hfull : c.slot b = restored ∧ (s.cache.slot b).table = [])
    (hle : restored.cursor ≤ (s.requests r).promptTokenIds.length) :
    let s' := ({ s with cache := c } : ModelRunner Row).update r fun q => { q with
      prefillOffset := restored.cursor
      prefixCacheHitTokens := restored.cursor
      slotPrepared := true }
    Leveled model size R (fun _ => 0) s' ∧ AllPrepared chain [r] s s' := by
  intro s'
  have hs := h.cache hr hb hfresh hloaded.native hloaded.same
  have hslot : s.slot r = b := by rw [ModelRunner.slot, hb, Option.getD_some]
  have hother : ∀ r' ≠ r, s'.requests r' = s.requests r' :=
    fun r' hne => Function.update_of_ne hne _ _
  have hself : s'.requests r = _ := Function.update_self r _ _
  refine ⟨hs.prepared hb rfl rfl hstate hle (congrArg Slot.cursor hfull.1), .single hfresh hslot
    hself rfl hother hloaded.same hloaded.restored hloaded.free.ge (fun _ => hloaded.free) ?_ ?_⟩
  · have hcache : s'.cache.slot b = restored := hfull.1
    rw [prefillRow_eq hfresh, hrestored, hcache]
    rfl
  · rintro ⟨-, hblocked⟩
    rw [hrestored, if_pos hpos, hslot] at hblocked
    exact hblocked hfull.2

/-- A slot is prepared by a reset. -/
theorem Leveled.reset (h : Leveled model size R (fun _ => 0) s) (hr : r ∈ R)
    (hb : (s.requests r).batchIdx = some b) (hfresh : (s.requests r).slotPrepared = false)
    (hstate : (s.requests r).state = .prefill)
    (hloaded : KVCacheType.Loaded chain model size s.cache b c)
    (hnone : (s.cache.restored chain (s.requests r).promptTokenIds).cursor = 0)
    (htable : (c.slot b).table = (s.cache.slot b).table)
    (hreset : KVCacheType.Reset model size c b c') :
    let s' := ({ s with cache := c' } : ModelRunner Row).update r fun q =>
      { q with slotPrepared := true }
    Leveled model size R (fun _ => 0) s' ∧ AllPrepared chain [r] s s' := by
  intro s'
  have hsame := hloaded.same.trans hreset.same
  have hs := h.cache hr hb hfresh hreset.native hsame
  have hzero := h.unstarted r hfresh
  have hslot : s.slot r = b := by rw [ModelRunner.slot, hb, Option.getD_some]
  have hother : ∀ r' ≠ r, s'.requests r' = s.requests r' :=
    fun r' hne => Function.update_of_ne hne _ _
  have hself : s'.requests r = _ := Function.update_self r _ _
  have hcursor : c'.cursor b = (s.requests r).prefillOffset := by
    rw [hzero]
    exact congrArg Slot.cursor hreset.slot
  refine ⟨hs.prepared hb rfl rfl hstate (h.offset r) hcursor, .single hfresh hslot hself rfl hother
    hsame (fun prompt => (hreset.restored chain prompt).trans (hloaded.restored prompt))
    (hloaded.free.ge.trans hreset.free) (fun hempty => ?_) ?_ ?_⟩
  · exact (hreset.free_eq (htable.trans hempty)).trans hloaded.free
  · have hcache : s'.cache.slot b = .empty := hreset.slot
    rw [prefillRow_eq hfresh, KVCacheType.restored_eq_empty hnone, hcache]
    simp only [chunkTokens, hzero]
    rfl
  · rintro ⟨-, hblocked⟩
    rw [if_neg (by omega), hslot, KVCacheType.Unrepeated, ← htable] at hblocked
    exact hblocked hreset.clear

end

variable (chain) in
/-- **A slot is prepared**, or that raises and the cache has changed at most. -/
theorem prepareSlot_cases (h : Leveled model size R (fun _ => 0) s) {r : Ref} (hr : r ∈ R)
    (hstate : (s.requests r).state = .prefill) :
    (∃ e c, (prepareSlot chain r).run s = .error e { s with cache := c } ∧
      Leveled model size R (fun _ => 0) { s with cache := c }) ∨
    ∃ s', (prepareSlot chain r).run s = .ok () s' ∧ Leveled model size R (fun _ => 0) s' ∧
      AllPrepared chain [r] s s' := by
  unfold prepareSlot
  rw [Exec.run_bind_ok (EStateM.run_get s)]
  by_cases hfresh : (s.requests r).slotPrepared = false
  · simp only [if_pos hfresh]
    cases hb : (s.requests r).batchIdx with
    | none =>
      rw [batchIdx, hb]
      exact Or.inl ⟨_, s.cache, rfl, h⟩
    | some b =>
      rw [batchIdx, hb, Exec.ofExcept_ok, pure_bind]
      have hlt := h.slot_lt r hr b hb
      rcases loadPrefix_cases chain h.native hlt (s.requests r).promptTokenIds with
        ⟨c, hrun, hloaded, hle, hfull, htable⟩ | ⟨e, c, hrun, hloaded⟩
      · rw [Exec.run_bind_ok hrun]
        by_cases hpos : 0 < (s.cache.restored chain (s.requests r).promptTokenIds).cursor
        · rw [if_pos hpos]
          refine Or.inr ⟨_, ?_, h.loaded hr hb hfresh hstate hloaded rfl hpos (hfull hpos) hle⟩
          show EStateM.Result.ok () (ModelRunner.update (ModelRunner.update _ r _) r _) = _
          simp [ModelRunner.update]
        · have hnone := Nat.eq_zero_of_not_pos hpos
          rw [if_neg hpos, if_pos (h.unstarted r hfresh)]
          rcases KVCacheType.resetSlot_cases hloaded.native hlt with
            ⟨c', hreset, hdone⟩ | ⟨-, err, herr⟩
          · have hrun' : (onCache (KVCacheType.resetSlot (b : Int))).run { s with cache := c }
                = .ok () { s with cache := c' } := Exec.run_within_ok hreset
            refine Or.inr ⟨_, ?_, h.reset hr hb hfresh hstate hloaded hnone (htable hnone) hdone⟩
            rw [Exec.run_bind_ok hrun']
            rfl
          · have herr' : (onCache (KVCacheType.resetSlot (b : Int))).run { s with cache := c }
                = .error err { s with cache := c } := Exec.run_within_error herr
            exact Or.inl ⟨err, c, Exec.run_bind_error herr',
              h.cache hr hb hfresh hloaded.native hloaded.same⟩
      · exact Or.inl ⟨e, c, Exec.run_bind_error hrun,
          h.cache hr hb hfresh hloaded.native hloaded.same⟩
  · simp only [if_neg hfresh]
    exact Or.inr ⟨s, rfl, h, .ready (eq_true_of_ne_false hfresh)⟩

variable (chain) in
/-- **All slots of a batch are prepared**, or one of them raises. -/
theorem prepareAll_cases : ∀ {rs : List Ref} {s : ModelRunner Row},
    Leveled model size R (fun _ => 0) s → rs.Nodup →
    (∀ r ∈ rs, r ∈ R ∧ (s.requests r).state = .prefill ∧
      (s.requests r).batchIdx = some (s.slot r)) →
    let m : M Row PUnit := forM rs (prepareSlot chain)
    (∃ e s', m.run s = .error e s' ∧ Leveled model size R (fun _ => 0) s') ∨
    ∃ s', m.run s = .ok () s' ∧ Leveled model size R (fun _ => 0) s' ∧ AllPrepared chain rs s s'
  | [], s, h, _, _ => Or.inr ⟨s, rfl, h, .nil s⟩
  | r :: rs, s, h, hnd, hrs => by
    intro m
    obtain ⟨hr, hnd'⟩ := List.nodup_cons.mp hnd
    have hm : m = (do prepareSlot chain r; forM rs (prepareSlot chain)) := List.forM_cons
    obtain ⟨hmem, hstate, hb⟩ := hrs r List.mem_cons_self
    rcases prepareSlot_cases chain h hmem hstate with
      ⟨e, c, hrun, h₁⟩ | ⟨s₁, hrun, h₁, hprepared⟩
    · exact Or.inl ⟨e, _, by rw [hm, Exec.run_bind_error hrun], h₁⟩
    · rw [hm, Exec.run_bind_ok hrun]
      have hrs₁ : ∀ r' ∈ rs, r' ∈ R ∧ (s₁.requests r').state = .prefill ∧
          (s₁.requests r').batchIdx = some (s₁.slot r') := fun r' hr' => by
        rw [ModelRunner.slot, hprepared.others r' fun hi => hr (List.mem_singleton.mp hi ▸ hr')]
        exact hrs r' (List.mem_cons_of_mem r hr')
      rcases prepareAll_cases h₁ hnd' hrs₁ with ⟨e, s', hrest, h'⟩ | ⟨s', hrest, h', hprepared'⟩
      · exact Or.inl ⟨e, s', hrest, h'⟩
      · refine Or.inr ⟨s', hrest, h', .cons hr (fun hslot => ?_) hprepared hprepared'⟩
        obtain ⟨r', hr', he⟩ := List.mem_map.mp hslot
        obtain ⟨hmem', -, hb'⟩ := hrs r' (List.mem_cons_of_mem r hr')
        exact hr (h.apart r' hmem' r hmem _ (he ▸ hb') hb ▸ hr')

/-! ## The model is called -/

theorem mapM_batchIdx_eq {rs : List Ref} {slots : List Nat}
    (h : rs.mapM (fun r => batchIdx (s.requests r)) = .ok slots) :
    slots = rs.map s.slot ∧ ∀ r ∈ rs, (s.requests r).batchIdx = some (s.slot r) := by
  have hall : ∀ r ∈ rs, (s.requests r).batchIdx = some (s.slot r) := by
    intro r hr
    obtain ⟨b, hb⟩ := Exec.ok_of_mapM_ok h r hr
    have hb' := batchIdx_eq_ok hb
    rw [ModelRunner.slot, hb', Option.getD_some]
  have hmap := Exec.mapM_ok fun r hr => batchIdx_ok (hall r hr)
  rw [hmap] at h
  cases h
  exact ⟨rfl, hall⟩

variable {Harmless Stops : Pass Row → Prop} {rs : List Ref}
  {tokens : Ref → List Nat} {tokenIds : List (List Nat)} {inputLens : Option (List Nat)}

/-- **A harmless pass** puts the cursors of its rows ahead by their tokens, or moves none. -/
theorem Leveled.call (hmodel : model.AllOrNone Harmless Stops)
    (h : Leveled model size R (fun _ => 0) s) (hne : rs ≠ []) (hnd : rs.Nodup)
    (hrs : ∀ r ∈ rs, r ∈ R) (hslots : ∀ r ∈ rs, (s.requests r).batchIdx = some (s.slot r))
    (htokens : BatchOf model.config.padTokenId (rs.map fun r => (s.slot r, tokens r))
      tokenIds inputLens) {p : Pass Row} (hof : p.Of s.cache (rs.map fun r => (s.slot r, tokens r)))
    (hharmless : Harmless p) :
    (∃ e c, (onCache (model.call tokenIds inputLens (rs.map s.slot))).run s
        = .error e { s with cache := c } ∧
      Leveled model size R (fun _ => 0) { s with cache := c }) ∨
    ∃ logits c, (onCache (model.call tokenIds inputLens (rs.map s.slot))).run s
        = .ok logits { s with cache := c } ∧
      Leveled model size R (fun r => if r ∈ rs then (tokens r).length else 0)
        { s with cache := c } ∧
      Fed model size s.cache (rs.map fun r => (s.slot r, tokens r)) c ∧ ¬Stops p ∧
      (Sampled (rs.map fun r => (s.slot r, tokens r)) logits ∨ ∀ r ∈ rs, tokens r = []) := by
  have hfst : (rs.map fun r => (s.slot r, tokens r)).map Prod.fst = rs.map s.slot := by
    rw [List.map_map]
    rfl
  have hinj : ∀ r ∈ rs, ∀ r' ∈ R, (s.requests r').batchIdx = some (s.slot r) → r' = r :=
    fun r hr r' hr' hb => h.apart r' hr' r (hrs r hr) _ hb (hslots r hr)
  have hbatch : Batch model.config.padTokenId size (rs.map fun r => (s.slot r, tokens r))
      tokenIds inputLens := by
    refine ⟨htokens, ?_, List.forall_mem_map.mpr fun r hr =>
      h.slot_lt r (hrs r hr) _ (hslots r hr)⟩
    rw [hfst]
    refine hnd.map_on fun r hr r' hr' he => ?_
    exact hinj r' hr' r (hrs r hr) (he ▸ hslots r hr)
  have hcall := hmodel.call _ size _ _ _ p hbatch (by simpa using hne) h.native hof hharmless
  rw [hfst] at hcall
  cases hrun : (model.call tokenIds inputLens (rs.map s.slot)).run s.cache with
  | error e c =>
    rw [hrun] at hcall
    refine Or.inl ⟨e, c, Exec.run_within_error hrun, ?_⟩
    exact { h with
      native := hcall.1
      level := fun r hr b hb hp => by rw [hcall.2]; exact h.level r hr b hb hp }
  | ok logits c =>
    rw [hrun] at hcall
    obtain ⟨hfed, hstops, hrest⟩ := hcall
    refine Or.inr ⟨logits, c, Exec.run_within_ok hrun, ?_, hfed, hstops, ?_⟩
    · refine { h with native := hfed.native, level := fun r hr b hb hp => ?_ }
      have hbefore := h.level r hr b hb hp
      by_cases hmem : r ∈ rs
      · cases (hslots r hmem).symm.trans hb
        have hfed := hfed.fed _ (List.mem_map_of_mem hmem)
        rw [if_pos hmem]
        simp only at hfed
        rw [hfed, Int.natCast_add, hbefore]
        exact congrArg (· + _) (Int.add_zero _)
      · rw [if_neg hmem, hfed.same.cursor, hbefore]
        rw [hfst]
        intro hb'
        obtain ⟨r', hr', rfl⟩ := List.mem_map.mp hb'
        exact hmem (hinj r' hr' r hr hb ▸ hr')
    · exact hrest.imp_right List.forall_mem_map.mp

/-! ## prefill -/

variable [LinearOrder Score]

theorem sampleRow_of_sampled {rows : List (Nat × List Nat)} {logits : Logits Score}
    (h : Sampled rows logits) {i : Nat} (hi : i < rows.length) :
    ∃ t, sampleRow logits i = .ok t := by
  obtain ⟨scores, hlast, hne⟩ := h.2 i hi
  obtain ⟨t, ht⟩ := sampleGreedy_ok hne
  exact ⟨t, (sampleRow_of_lastLogits hlast).trans ht⟩

/-- Where every row can be sampled from, the rows advance without an error. -/
theorem advanceRows_returns {logits : Logits Score} {i : Nat} (lens : List Nat)
    (hsample : ∀ j < rs.length, ∃ t, sampleRow logits (i + j) = .ok t) :
    ∃ results s', (advanceRows logits i rs lens).run s = .ok results s' ∧ s'.cache = s.cache := by
  induction rs generalizing i lens s with
  | nil => exact ⟨[], s, by cases lens <;> rfl, rfl⟩
  | cons r rs ih =>
    rcases lens with - | ⟨n, lens⟩
    · exact ⟨[], s, rfl, rfl⟩
    rw [advanceRows, Exec.run_bind_ok (EStateM.run_modify _ s)]
    set s₀ : ModelRunner Row := s.update r fun request =>
      { request with prefillOffset := request.prefillOffset + n } with hs₀
    obtain ⟨token, hfirst⟩ : ∃ token, (sampleComplete logits i r).run s₀ = .ok token s₀ := by
      unfold sampleComplete
      rw [Exec.run_bind_ok (EStateM.run_get s₀)]
      obtain ⟨t, ht⟩ := hsample 0 (Nat.succ_pos _)
      rw [Nat.add_zero] at ht
      split
      · rw [ht]
        exact ⟨some t, rfl⟩
      · exact ⟨none, rfl⟩
    have hsample' : ∀ j < rs.length, ∃ t, sampleRow logits (i + 1 + j) = .ok t := fun j hj => by
      have hj' := hsample (j + 1) (Nat.succ_lt_succ hj)
      rwa [Nat.add_comm j 1, ← Nat.add_assoc] at hj'
    obtain ⟨results, s', hrest, hcache⟩ := ih lens hsample' (s := s₀)
    rw [Exec.run_bind_ok hfirst, Exec.run_bind_ok hrest]
    exact ⟨token :: results, s', rfl, hcache⟩

/-- Rows without tokens do not advance. -/
theorem advanceRows_nil {logits : Logits Score} (i : Nat) {lens : List Nat}
    (hnil : ∀ n ∈ lens, n = 0) : Exec.Keeps (· = s) (advanceRows logits i rs lens) := by
  induction rs generalizing i lens with
  | nil => cases lens <;> exact Exec.Keeps.pure _
  | cons r rs ih =>
    rcases lens with - | ⟨n, lens⟩
    · exact Exec.Keeps.pure _
    obtain rfl := hnil n List.mem_cons_self
    set J : ModelRunner Row → Prop := fun t => t = s with hJ
    have hadvance : ∀ t, J t → J (t.update r fun request =>
        { request with prefillOffset := request.prefillOffset + 0 }) := fun t ht => by
      rw [hJ] at ht ⊢
      simp [ModelRunner.update, ht]
    have hsample : Exec.Keeps J (sampleComplete logits i r) :=
      Exec.Keeps.get_bind fun t ht => Exec.Keeps.ite (fun _ => Exec.Keeps.bind
        (Exec.Keeps.ofExcept _) fun _ => Exec.Keeps.pure _) (fun _ => Exec.Keeps.pure _) t ht
    have hrest : Exec.Keeps J (advanceRows logits (i + 1) rs lens) :=
      ih (i + 1) fun n hn => hnil n (List.mem_cons_of_mem 0 hn)
    rw [advanceRows]
    exact (Exec.Keeps.modify hadvance).bind fun _ => hsample.bind fun _ =>
      hrest.bind fun _ => Exec.Keeps.pure _

omit [LinearOrder Score] in
/-- The requests catch up with their cursors. -/
theorem Leveled.advanced {len : Ref → Nat}
    (h : Leveled model size R (fun r => if r ∈ rs then len r else 0) s)
    (hstate : ∀ r ∈ rs, (s.requests r).state = .prefill ∧ (s.requests r).slotPrepared = true)
    (hfit : ∀ r ∈ rs, (s.requests r).prefillOffset + len r ≤ (s.requests r).numPromptTokens)
    (hin : ∀ r ∈ rs, s'.requests r
      = { s.requests r with prefillOffset := (s.requests r).prefillOffset + len r })
    (hout : ∀ r ∉ rs, s'.requests r = s.requests r) (hcache : s'.cache = s.cache) :
    Leveled model size R (fun _ => 0) s' := by
  have hslot : ∀ r, (s'.requests r).batchIdx = (s.requests r).batchIdx := by
    intro r
    by_cases hr : r ∈ rs
    · rw [hin r hr]
    · rw [hout r hr]
  refine ⟨hcache ▸ h.native, fun r hr b hb => h.slot_lt r hr b (hslot r ▸ hb),
    fun r hr r' hr' b hb hb' => h.apart r hr r' hr' b (hslot r ▸ hb) (hslot r' ▸ hb'),
    fun r => ?_, fun r => ?_, fun r => ?_, fun r hr b hb hp => ?_⟩
  · by_cases hr : r ∈ rs
    · rw [hin r hr]
      exact fun hfresh => absurd ((hstate r hr).2.symm.trans hfresh) (by decide)
    · rw [hout r hr]
      exact h.unstarted r
  · by_cases hr : r ∈ rs
    · rw [hin r hr]
      exact hfit r hr
    · rw [hout r hr]
      exact h.offset r
  · by_cases hr : r ∈ rs
    · rw [hin r hr]
      exact h.fresh r
    · rw [hout r hr]
      exact h.fresh r
  · rw [hslot] at hb
    rw [hcache]
    by_cases hmem : r ∈ rs
    · have hbefore := h.level r hr b hb (hstate r hmem).2
      rw [if_pos hmem] at hbefore
      rw [hbefore, hin r hmem]
      simp only [InferenceRequest.level, (hstate r hmem).1, if_true]
      rfl
    · rw [hout r hmem] at hp ⊢
      have hbefore := h.level r hr b hb hp
      rwa [if_neg hmem] at hbefore

/-- **The rows advance by their chunks**, all of them or none, and the cache and the other requests
are left. -/
theorem Leveled.advance (logits : Logits Score)
    (h : Leveled model size R
      (fun r => if r ∈ rs then (chunkTokens (s.requests r)).length else 0) s) (hnd : rs.Nodup)
    (hstate : ∀ r ∈ rs, (s.requests r).state = .prefill ∧ (s.requests r).slotPrepared = true)
    (hsampled : Sampled (rs.map fun r => (s.slot r, chunkTokens (s.requests r))) logits ∨
      ∀ r ∈ rs, chunkTokens (s.requests r) = []) :
    let after := Exec.after (advanceRows logits 0 rs
      (rs.map fun r => (chunkTokens (s.requests r)).length)) s
    Leveled model size R (fun _ => 0) after ∧ after.cache = s.cache ∧
      ∀ r ∉ rs, after.requests r = s.requests r := by
  intro after
  set lens := rs.map fun r => (chunkTokens (s.requests r)).length with hlens
  rcases hsampled with hsampled | hnil
  · have hsample : ∀ j < rs.length, ∃ t, sampleRow logits (0 + j) = .ok t := fun j hj =>
      sampleRow_of_sampled hsampled (by simpa using hj)
    obtain ⟨results, s', hadvance, hcache⟩ := advanceRows_returns lens hsample (s := s)
    have hafter : after = s' := Exec.after_of_ok hadvance
    obtain ⟨hin, hout, -, -⟩ := advanceRows_ok hnd hadvance
    rw [hafter]
    exact ⟨h.advanced hstate (fun r _ => offset_add_chunk_le (h.offset r)) hin hout hcache, hcache,
      hout⟩
  · have hzero : ∀ n ∈ lens, n = 0 := by
      rw [hlens]
      exact List.forall_mem_map.mpr fun r hr => by rw [hnil r hr]; rfl
    have hsame : after = s := advanceRows_nil 0 hzero _ rfl
    have hnone : (fun r => if r ∈ rs then (chunkTokens (s.requests r)).length else 0)
        = fun _ => 0 := funext fun r => by
      split
      · next hr => rw [hnil r hr]; rfl
      · rfl
    rw [hnone] at h
    rw [hsame]
    exact ⟨h, rfl, fun _ _ => rfl⟩

/-- What a pass over `rs` that returned leaves of the rest, where `need` blocks were missing. -/
structure Undisturbed (rs : List Ref) (need : Nat) (s s' : ModelRunner Row) : Prop where
  same : KVCacheType.SameSlots (rs.map s.slot) s.cache s'.cache
  free : s.cache.freeBlocks ≤ s'.cache.freeBlocks + need
  requests : ∀ r ∉ rs, s'.requests r = s.requests r

variable (chain) in
/-- **A prefill whose pass is harmless** leaves the cursors at their levels, on either exit. If it
returns it has left the other slots alone. -/
theorem prefill_leveled (hmodel : model.AllOrNone Harmless Stops)
    (h : Leveled model size R (fun _ => 0) s) (hne : rs ≠ []) (hnd : rs.Nodup)
    (hrs : ∀ r ∈ rs, r ∈ R ∧ (s.requests r).state = .prefill ∧
      (s.requests r).batchIdx = some (s.slot r))
    (hharmless : (∃ r ∈ rs, Blocked chain s r) ∨ Harmless (prefillPlan chain rs s)) :
    Leveled model size R (fun _ => 0) (Exec.after (prefill chain model rs) s) ∧
      ∀ results s', (prefill chain model rs).run s = .ok results s' →
        Undisturbed rs (prefillPlan chain rs s).shortage s s' ∧ (∀ r ∈ rs, ¬Blocked chain s r) ∧
          ¬Stops (prefillPlan chain rs s) := by
  unfold prefill
  rcases prepareAll_cases chain h hnd hrs with
    ⟨e, t, hrun, hprepared⟩ | ⟨t, hrun, hlevel, hprepared⟩
  · rw [Exec.after_of_error (Exec.run_bind_error hrun), Exec.run_bind_error hrun]
    exact ⟨hprepared, nofun⟩
  have hharmless := hharmless.resolve_left fun ⟨r, hr, hblocked⟩ =>
    hprepared.unblocked r hr hblocked
  rw [Exec.after_bind, hrun, Exec.run_bind_ok hrun]
  simp only
  rw [Exec.after_bind, EStateM.run_get, Exec.run_bind_ok (EStateM.run_get t)]
  simp only
  cases hbatch : batchTokenIds (rs.map fun r => chunkTokens (t.requests r))
      model.config.padTokenId with
  | error e => exact ⟨hlevel, nofun⟩
  | ok batch =>
    obtain ⟨tokenIds, inputLens⟩ := batch
    cases hslots : rs.mapM fun r => batchIdx (t.requests r) with
    | error e => exact ⟨hlevel, nofun⟩
    | ok slots =>
      obtain ⟨rfl, hslot⟩ := mapM_batchIdx_eq hslots
      have hrows : BatchOf model.config.padTokenId
          (rs.map fun r => (t.slot r, chunkTokens (t.requests r))) tokenIds (some inputLens) := by
        refine .padded ?_
        rw [List.map_map]
        exact hbatch
      simp only [Exec.ofExcept_ok, pure_bind]
      rcases hlevel.call hmodel hne hnd (fun r hr => (hrs r hr).1) hslot hrows hprepared.of
        hharmless with ⟨e, c, hcall, hlevel⟩ | ⟨logits, c, hcall, hlevel, hfed, hstops, hrest⟩
      · rw [Exec.after_of_error (Exec.run_bind_error hcall), Exec.run_bind_error hcall]
        exact ⟨hlevel, nofun⟩
      · rw [Exec.after_bind, hcall, Exec.run_bind_ok hcall]
        simp only
        -- the slots are prepared, and no request has another state than before
        have hall : Exec.Triple (Forwards (fun _ _ => True) s.requests s.cache)
            (forM rs (prepareSlot chain) : M Row PUnit) _ _ :=
          prepareAll_forwards (cacheSteps_any chain model)
        have hforwards := hall s (forwards_refl (cacheSteps_any chain model) s)
        rw [hrun] at hforwards
        obtain ⟨hforwards, hready⟩ := hforwards
        have hlens : inputLens = rs.map fun r => (chunkTokens (t.requests r)).length := by
          rw [batchTokenIds_lens hbatch, List.map_map]
          rfl
        rw [hlens]
        have hlevel : Leveled model size R (fun r => if r ∈ rs then
            (chunkTokens (({ t with cache := c } : ModelRunner Row).requests r)).length else 0)
            { t with cache := c } := hlevel
        obtain ⟨hdone, hcache, hothers⟩ := hlevel.advance logits hnd (fun r hr =>
          ⟨(hforwards.forwarded r).state.trans (hrs r hr).2.1, hready r hr⟩) hrest
        refine ⟨hdone, fun results s' hadvance => ⟨?_, hprepared.unblocked, hstops⟩⟩
        rw [Exec.after_of_ok hadvance] at hcache hothers
        have hslots : (rs.map fun r => (t.slot r, chunkTokens (t.requests r))).map Prod.fst
            = rs.map s.slot := by
          rw [List.map_map]
          exact List.map_congr_left fun r _ => hprepared.slots r
        have hsame := hfed.same
        have hfree := hfed.free
        rw [hslots] at hsame
        rw [← hprepared.of.shortage_eq] at hfree
        refine ⟨?_, ?_, fun r hr => (hothers r hr).trans (hprepared.others r hr)⟩
        · rw [hcache]
          exact hprepared.same.trans hsame
        · rw [hcache]
          exact hprepared.free.trans hfree

/-! ## decode -/

/-- The slots that a decode gives back before its last row has its token. -/
def released (rs : List Ref) (s : ModelRunner Row) : List Nat :=
  rs.dropLast.filterMap fun r =>
    if (s.requests r).maxNewTokens ≤ ((s.requests r).numGenerated + 1 : Nat) then
      (s.requests r).batchIdx
    else none

/-- The last token of a request. -/
def lastTokenOf (q : InferenceRequest Nat) : Nat := q.outputTokenIds.getLast?.getD 0

/-- The rows of a decode, each with its slot. -/
def decodeRows (rs : List Ref) (s : ModelRunner Row) : List (Nat × List Nat) :=
  rs.map fun r => (s.slot r, [lastTokenOf (s.requests r)])

variable (chain) in
/-- The pass of a decode of `rs`, from what is known before the prefill of `ps` in the same step. -/
def decodePlan (ps rs : List Ref) (s : ModelRunner Row) : Pass Row where
  rows := Pass.rowsOf s.cache (decodeRows rs s)
  blockSize := s.cache.blockSize
  freeBlocks := s.cache.freeBlocks - (prefillPlan chain ps s).shortage
  exact := ps.isEmpty

/-- What a decode that returned leaves: every cursor of the batch is one token ahead. -/
structure Decoded (model : InferenceModel Row Score) (size : Nat) (R rs : List Ref)
    (s : ModelRunner Row) (tokens : List Nat) (c : KVCacheType Row) : Prop where
  length : tokens.length = rs.length
  leveled : Leveled model size R (fun r => if r ∈ rs then 1 else 0) { s with cache := c }
  unrepeated : ∀ b ∈ released rs s, c.Unrepeated b

/-- **A decode whose pass is harmless** moves the cursors of all its rows, or none. -/
theorem decode_cases (hmodel : model.AllOrNone Harmless Stops)
    (h : Leveled model size R (fun _ => 0) s) (hne : rs ≠ []) (hnd : rs.Nodup)
    (hrs : ∀ r ∈ rs, r ∈ R) {p : Pass Row} (hof : p.Of s.cache (decodeRows rs s))
    (hharmless : Harmless p) (hreleasable : ∀ b ∈ released rs s, s.cache.Unrepeated b) :
    (∃ e c, (decode model rs).run s = .error e { s with cache := c } ∧
      Leveled model size R (fun _ => 0) { s with cache := c }) ∨
    ∃ tokens c, (decode model rs).run s = .ok tokens { s with cache := c } ∧
      Decoded model size R rs s tokens c := by
  unfold decode
  rw [Exec.run_bind_ok (EStateM.run_get s)]
  cases htokens : rs.mapM fun r => lastToken (s.requests r) with
  | error e => exact Or.inl ⟨e, s.cache, rfl, h⟩
  | ok tokenIds =>
    cases hslots : rs.mapM fun r => batchIdx (s.requests r) with
    | error e => exact Or.inl ⟨e, s.cache, rfl, h⟩
    | ok slots =>
      obtain ⟨rfl, hslot⟩ := mapM_batchIdx_eq hslots
      -- every request has a last token
      have hlastToken : ∀ r ∈ rs, lastToken (s.requests r) = .ok [lastTokenOf (s.requests r)] := by
        intro r hr
        obtain ⟨t, ht⟩ := Exec.ok_of_mapM_ok htokens r hr
        unfold lastToken at ht ⊢
        cases hout : (s.requests r).outputTokenIds.getLast? with
        | none => rw [hout] at ht; cases ht
        | some t' =>
          rw [lastTokenOf, hout]
          rfl
      have hids : tokenIds = rs.map fun r => [lastTokenOf (s.requests r)] := by
        have hmap := Exec.mapM_ok hlastToken
        rw [hmap] at htokens
        cases htokens
        rfl
      have hrows : BatchOf model.config.padTokenId (decodeRows rs s) tokenIds none := by
        have hsingle : BatchOf model.config.padTokenId _ _ _ :=
          .single (rs.map fun r => (s.slot r, lastTokenOf (s.requests r)))
        rw [List.map_map, List.map_map] at hsingle
        rw [hids]
        exact hsingle
      simp only [Exec.ofExcept_ok, pure_bind]
      rcases h.call hmodel hne hnd hrs hslot hrows hof hharmless with
        ⟨e, c, hcall, hlevel⟩ | ⟨logits, c, hcall, hlevel, hfed, -, hsampled | hnil⟩
      · exact Or.inl ⟨e, c, Exec.run_bind_error hcall, hlevel⟩
      · have hsample : ∀ i ∈ List.range rs.length, ∃ t, sampleRow logits i = .ok t := fun i hi =>
          sampleRow_of_sampled hsampled (by simpa using hi)
        choose! token htoken using hsample
        refine Or.inr ⟨(List.range rs.length).map token, c, ?_, by simp, hlevel,
          fun b hb => hfed.all_unrepeated (hreleasable b hb)⟩
        rw [Exec.run_bind_ok hcall, Exec.mapM_ok htoken]
        rfl
      · obtain ⟨r₀, hr₀⟩ := List.exists_mem_of_ne_nil rs hne
        cases hnil r₀ hr₀

end ModelRunner

end Nifre
