import Nifre.Properties.Levels
import Nifre.Properties.Capacity
import Nifre.Properties.EngineSteps
import Nifre.Properties.Picks

/-!
# The levels over a step

Every piece of a step leaves the cursors of the running requests at their levels, on either exit, if
the forward passes are harmless and no block is in a table twice when its slot is given back early.
-/

namespace Nifre

open Scheduler (Live Inv)

namespace Engine

variable {Row Score : Type} {chain : Int → List Nat → Int} {model : InferenceModel Row Score}
  {ahead ahead' : Ref → Nat} {e e' : Engine Row} {c : KVCacheType Row}

/-- The cursor of a running request that is prepared is at its level, or `ahead` of it. -/
def AtLevels (ahead : Ref → Nat) (c : KVCacheType Row) (s : Scheduler Nat) : Prop :=
  ∀ r ∈ s.running.values, ∀ b, (s.requests r).batchIdx = some b →
    (s.requests r).slotPrepared = true → (c.cursor b : Int) = (s.requests r).level + ahead r

/-- What holds of the engine between the pieces of a step. -/
structure Leveled (model : InferenceModel Row Score) (ahead : Ref → Nat) (e : Engine Row) :
    Prop where
  live : Live e.scheduler
  inv : Inv e.scheduler
  offset : ∀ r, (e.scheduler.requests r).prefillOffset ≤ (e.scheduler.requests r).numPromptTokens
  fresh : ∀ r, (e.scheduler.requests r).state = .waiting →
    (e.scheduler.requests r).slotPrepared = false
  uncached : e.cache = none → ∀ r ∈ e.scheduler.running.values,
    (e.scheduler.requests r).slotPrepared = false
  cached : ∀ c, e.cache = some c → ∃ size, e.scheduler.maxConcurrentRequests ≤ size ∧
    c.Native model size ∧ AtLevels ahead c e.scheduler

/-- What the model runner is handed. -/
theorem Leveled.runner (h : Leveled model ahead e) (hc : e.cache = some c) :
    ∃ size, e.scheduler.maxConcurrentRequests ≤ size ∧
      ModelRunner.Leveled model size e.scheduler.running.values ahead
        ⟨e.scheduler.requests, c⟩ := by
  obtain ⟨size, hmax, hnative, hlevels⟩ := h.cached c hc
  refine ⟨size, hmax, hnative, fun r hr b hb => ?_, fun r hr r' hr' b hb hb' => ?_,
    h.live.unstarted, h.offset, h.fresh, hlevels⟩
  · exact Nat.lt_of_lt_of_le (h.inv.running_slot_lt hr hb) hmax
  · exact h.inv.apart hr hr' (hb.trans hb'.symm)

/-- What it gives back. -/
theorem Leveled.withRunner (h : Leveled model ahead e) {t : ModelRunner Row} {size : Nat}
    (hf : ∀ r, Forwarded (e.scheduler.requests r) (t.requests r))
    (hmax : e.scheduler.maxConcurrentRequests ≤ size)
    (ht : ModelRunner.Leveled model size e.scheduler.running.values ahead' t) :
    Leveled model ahead' (withRunner t e) where
  live := h.live.forward hf
  inv := (stepClosed_inv model).forward e t.requests h.live h.inv hf
  offset := ht.offset
  fresh := ht.fresh
  uncached := fun hnone => by cases hnone
  cached := fun c hc => by
    cases hc
    exact ⟨size, hmax, ht.native, ht.level⟩

/-- The cache changes and no cursor does. -/
theorem Leveled.withCache (h : Leveled model ahead e) (hc : e.cache = some c)
    {c' : KVCacheType Row} (hsame : ∀ size, e.scheduler.maxConcurrentRequests ≤ size →
      c.Native model size → c'.Native model size ∧ KVCacheType.SameSlots [] c c') :
    Leveled model ahead { e with cache := some c' } where
  live := h.live
  inv := h.inv
  offset := h.offset
  fresh := h.fresh
  uncached := fun hnone => by cases hnone
  cached := fun c'' hc'' => by
    cases hc''
    obtain ⟨size, hmax, hnative, hlevels⟩ := h.cached c hc
    obtain ⟨hnative', hslots⟩ := hsame size hmax hnative
    refine ⟨size, hmax, hnative', fun r hr b hb hp => ?_⟩
    rw [hslots.cursor_eq]
    exact hlevels r hr b hb hp

/-! ## The cache is made -/

/-- **A cache that is made** has a slot for everyone, and no one is prepared. -/
theorem ensureCache_leveled {Harmless Stops : Pass Row → Prop}
    (hmodel : model.AllOrNone Harmless Stops) :
    Exec.Keeps (fun e => Leveled model ahead e ∧
      e.maxConcurrentRequests = e.scheduler.maxConcurrentRequests) (ensureCache model) := by
  refine Exec.Keeps.get_bind fun e he => ?_
  cases hc : e.cache with
  | some c => exact he
  | none =>
    simp only
    cases hmake : makeCache model e.usePagedKvCache e.usePrefixCache
        e.maxConcurrentRequests.toNat with
    | error err => exact he
    | ok c =>
      obtain ⟨h, hslots⟩ := he
      refine ⟨⟨h.live, h.inv, h.offset, h.fresh, fun hnone => ?_, fun c' hc' => ?_⟩, hslots⟩
      · cases hnone
      · cases hc'
        refine ⟨_, ?_, hmodel.makeCache hmake, fun r hr b hb hp => ?_⟩
        · rw [hslots, Int.toNat_natCast]
          exact le_rfl
        · exact absurd ((h.uncached hc r hr).symm.trans hp) (by decide)

/-- **The requests that get a slot** are not prepared yet. -/
theorem Leveled.assigned (h : Leveled model ahead e) :
    Leveled model ahead { e with scheduler := e.scheduler.assignWaitingToSlots } := by
  set I : Scheduler Nat → Prop := fun s => Leveled model ahead { e with scheduler := s } with hI
  have hall : I e.scheduler.assignWaitingToSlots := by
    refine Scheduler.assignRounds_induct (I := I) (fun s r waiting b freeSlots hs hw hf => ?_) _ h
    have hwaiting := (hs.live.waiting r (by rw [hw]; exact List.mem_cons_self)).2
    have hunprepared := hs.fresh r hwaiting
    have hlive : Live (s.assignSlot r waiting b freeSlots) := hs.live.assignSlot hw
    have hinv := hs.inv.assignSlot hw hf
    have hrunning : ∀ r' ∈ (s.running.insert (s.requests r).requestId r).values, r' ≠ r →
        r' ∈ s.running.values := by
      intro r' hr' hne
      obtain ⟨id, hid⟩ := OrderedDict.mem_values_iff.mp hr'
      rcases OrderedDict.mem_insert.mp hid with ⟨-, he⟩ | ⟨-, hold⟩
      · exact absurd he hne
      · exact OrderedDict.mem_values_iff.mpr ⟨id, hold⟩
    rw [Scheduler.assignSlot_eq] at hlive hinv ⊢
    set q : InferenceRequest Nat := { s.requests r with batchIdx := some b, state := .prefill }
      with hq
    have hself : Function.update s.requests r q r = q := Function.update_self r q s.requests
    have hother : ∀ r' ≠ r, Function.update s.requests r q r' = s.requests r' :=
      fun r' hne => Function.update_of_ne hne q s.requests
    refine ⟨hlive, hinv, fun r' => ?_, fun r' hw' => ?_, fun hnone r' hr' => ?_, fun c hc => ?_⟩
    · by_cases he : r' = r
      · subst he
        simp only [hself]
        exact hs.offset r'
      · simp only [hother r' he]
        exact hs.offset r'
    · by_cases he : r' = r
      · subst he
        simp only [hself]
        exact hunprepared
      · simp only [hother r' he] at hw' ⊢
        exact hs.fresh r' hw'
    · by_cases he : r' = r
      · subst he
        simp only [hself]
        exact hunprepared
      · simp only [hother r' he]
        exact hs.uncached hnone r' (hrunning r' hr' he)
    · obtain ⟨size, hmax, hnative, hlevels⟩ := hs.cached c hc
      refine ⟨size, hmax, hnative, fun r' hr' b' hb' hp => ?_⟩
      by_cases he : r' = r
      · subst he
        simp only [hself] at hp
        exact absurd (hunprepared.symm.trans hp) (by decide)
      · simp only [hother r' he] at hb' hp ⊢
        exact hlevels r' (hrunning r' hr' he) b' hb' hp
  exact hall

/-! ## A request gets a token -/

/-- A request changes and goes on, and its cursor is at its level then. -/
theorem Leveled.changed (h : Leveled model ahead e) {r : Ref} {s : Scheduler Nat}
    (hlive : Live s) (hinv : Inv s) (hmax : s.maxConcurrentRequests
      = e.scheduler.maxConcurrentRequests)
    (hrunning : ∀ r' ∈ s.running.values, r' ∈ e.scheduler.running.values)
    (hother : ∀ r' ≠ r, s.requests r' = e.scheduler.requests r')
    (hoffset : (s.requests r).prefillOffset ≤ (s.requests r).numPromptTokens)
    (hfresh : (s.requests r).state ≠ .waiting)
    (hprepared : (s.requests r).slotPrepared = (e.scheduler.requests r).slotPrepared)
    (hahead : ∀ r' ≠ r, ahead' r' = ahead r')
    (hlevel : ∀ c, e.cache = some c → r ∈ s.running.values → ∀ b, (s.requests r).batchIdx = some b →
      (s.requests r).slotPrepared = true → (c.cursor b : Int) = (s.requests r).level + ahead' r) :
    Leveled model ahead' { e with scheduler := s } where
  live := hlive
  inv := hinv
  offset := fun r' => by
    by_cases he : r' = r
    · exact he ▸ hoffset
    · rw [hother r' he]
      exact h.offset r'
  fresh := fun r' hw => by
    by_cases he : r' = r
    · exact absurd (he ▸ hw) hfresh
    · rw [hother r' he] at hw ⊢
      exact h.fresh r' hw
  uncached := fun hnone r' hr' => by
    have hbefore := h.uncached hnone r' (hrunning r' hr')
    by_cases he : r' = r
    · subst he
      exact hprepared.trans hbefore
    · rw [hother r' he]
      exact hbefore
  cached := fun c hc => by
    obtain ⟨size, hsize, hnative, hlevels⟩ := h.cached c hc
    refine ⟨size, hmax ▸ hsize, hnative, fun r' hr' b hb hp => ?_⟩
    by_cases he : r' = r
    · subst he
      exact hlevel c hc hr' b hb hp
    · rw [hother r' he] at hb hp ⊢
      rw [hahead r' he]
      exact hlevels r' (hrunning r' hr') b hb hp

/-- **A slot without a running request is reset**, unless a block is in its table twice. -/
theorem Leveled.resetSlot (h : Leveled model ahead e) (hc : e.cache = some c) {b : Nat}
    (hb : b < e.scheduler.maxConcurrentRequests)
    (hfree : ∀ r ∈ e.scheduler.running.values, (e.scheduler.requests r).batchIdx ≠ some b) :
    (∃ c', (onCache (KVCacheType.resetSlot (b : Int))).run e = .ok () { e with cache := some c' } ∧
      Leveled model ahead { e with cache := some c' } ∧
      ∃ size, KVCacheType.Reset model size c b c') ∨
    ¬c.Unrepeated b ∧ ∃ err, (onCache (KVCacheType.resetSlot (b : Int))).run e = .error err e := by
  obtain ⟨size, hmax, hnative, hlevels⟩ := h.cached c hc
  rcases KVCacheType.resetSlot_cases hnative (Nat.lt_of_lt_of_le hb hmax) with
    ⟨c', hrun, hreset⟩ | ⟨hrepeated, err, hrun⟩
  · refine Or.inl ⟨c', onCache_run hc hrun, { h with
      uncached := fun hnone => by cases hnone
      cached := fun c'' hc'' => ?_ }, size, hreset⟩
    cases hc''
    refine ⟨size, hmax, hreset.native, fun r hr b' hb' hp => ?_⟩
    have hne : b' ≠ b := fun he => hfree r hr (he ▸ hb')
    rw [hreset.same.cursor fun hi => hne (List.mem_singleton.mp hi)]
    exact hlevels r hr b' hb' hp
  · refine Or.inr ⟨hrepeated, err, ?_⟩
    rw [onCache, Exec.run_bind_ok (EStateM.run_get e)]
    simp only [hc]
    have hsame : { e with cache := some c } = e := by rw [← hc]
    exact (Exec.run_within_error hrun).trans (congrArg _ hsame)

/-- A request whose cursor is a token ahead gets that token. -/
theorem Leveled.pushToken (h : Leveled model ahead e) {r : Ref}
    (hr : r ∈ e.scheduler.running.values) (hd : (e.scheduler.requests r).state = .decode)
    (hahead : ahead r = 1) {tokenId : Nat}
    (hmore : ¬Scheduler.LastToken (e.scheduler.requests r)) {s' : Scheduler Nat}
    (hs' : s' = e.scheduler.update r fun q => Scheduler.pushToken q tokenId) (hlive : Live s') :
    Leveled model (Function.update ahead r 0) { e with scheduler := s' } := by
  have hself : s'.requests r = Scheduler.pushToken (e.scheduler.requests r) tokenId := by
    rw [hs']
    exact Function.update_self _ _ _
  have hdecode : (s'.requests r).state = .decode := by rw [hself]; exact hd
  refine h.changed (r := r) hlive (hs' ▸ h.inv.pushToken hr hd tokenId hmore)
    (by rw [hs']; rfl) (fun r' hr' => by rwa [hs'] at hr')
    (fun r' hne => by rw [hs']; exact Function.update_of_ne hne _ _) ?_ ?_ ?_
    (fun r' hne => Function.update_of_ne hne _ _) (fun c hc _ b' hb' hp => ?_)
  · rw [hself]
    exact h.offset r
  · rw [hdecode]
    exact fun h => absurd h (by decide)
  · rw [hself]
    rfl
  · have hlevel : (s'.requests r).level = (e.scheduler.requests r).level + 1 := by
      rw [InferenceRequest.level, if_neg (by rw [hdecode]; decide), hself, InferenceRequest.level,
        if_neg (by rw [hd]; decide)]
      simp only [Scheduler.pushToken, InferenceRequest.numGenerated,
        InferenceRequest.numPromptTokens, List.length_append, List.length_singleton]
      omega
    rw [hself] at hb' hp
    obtain ⟨size, -, -, hlevels⟩ := h.cached c hc
    rw [Function.update_self, hlevel, hlevels r hr b' hb' hp, hahead]
    omega

/-- A request gets its last token, and gives its slot back. -/
theorem Leveled.completeWith (h : Leveled model ahead e) {r : Ref}
    (hr : r ∈ e.scheduler.running.values) (hd : (e.scheduler.requests r).state = .decode) {b : Nat}
    (hb : (e.scheduler.requests r).batchIdx = some b) {tokenId : Nat}
    (hlast : Scheduler.LastToken (e.scheduler.requests r)) {s' : Scheduler Nat}
    (hs' : s' = e.scheduler.completeWith r b tokenId) (hlive : Live s') :
    Leveled model (Function.update ahead r 0) { e with scheduler := s' } := by
  have hself : s'.requests r = { Scheduler.pushToken (e.scheduler.requests r) tokenId with
      state := .finished, batchIdx := none } := by
    rw [hs']
    exact Function.update_self _ _ _
  have hleft : ∀ r' ∈ s'.running.values, r' ∈ e.scheduler.running.values ∧ r' ≠ r := by
    rw [hs']
    exact fun r' => (Scheduler.mem_erase_values h.inv hr).mp
  refine h.changed (r := r) hlive (hs' ▸ h.inv.completeWith hr hd hb tokenId hlast)
    (by rw [hs']; rfl) (fun r' hr' => (hleft r' hr').1)
    (fun r' hne => by rw [hs']; exact Function.update_of_ne hne _ _) ?_ ?_ ?_
    (fun r' hne => Function.update_of_ne hne _ _) (fun c _ hr' => absurd rfl (hleft r hr').2)
  · rw [hself]
    exact h.offset r
  · rw [hself]
    nofun
  · rw [hself]
    rfl

/-- No block is in the table of slot `b` twice. -/
def Unrepeated (b : Nat) (e : Engine Row) : Prop := ∀ c, e.cache = some c → c.Unrepeated b

/-- The slots of requests that have one. -/
def slotsOf (rs : List Ref) (e : Engine Row) : List Nat :=
  rs.map fun r => (e.scheduler.requests r).batchIdx.getD 0

/-- What handling the requests of `rs` leaves of the others, where `need` blocks were missing. -/
structure Spared (rs : List Ref) (need : Nat) (e e' : Engine Row) : Prop where
  running : ∀ r ∈ e.scheduler.running.values, r ∉ rs → r ∈ e'.scheduler.running.values
  requests : ∀ r ∉ rs, e'.scheduler.requests r = e.scheduler.requests r
  cache : ∀ c, e.cache = some c → ∃ c', e'.cache = some c' ∧
    KVCacheType.SameSlots (e.slotsOf rs) c c' ∧ c.freeBlocks ≤ c'.freeBlocks + need

namespace Spared

variable {rs : List Ref} {r : Ref} {need need' : Nat} {e₁ : Engine Row}

theorem refl (rs : List Ref) (e : Engine Row) : Spared rs 0 e e :=
  ⟨fun _ hr _ => hr, fun _ _ => rfl, fun c hc => ⟨c, hc, .refl c, le_rfl⟩⟩

theorem trans (h : Spared rs need e e₁) (hslots : e₁.slotsOf rs = e.slotsOf rs)
    (h' : Spared rs need' e₁ e') : Spared rs (need + need') e e' := by
  refine ⟨fun r hr hn => h'.running r (h.running r hr hn) hn,
    fun r hn => (h'.requests r hn).trans (h.requests r hn), fun c hc => ?_⟩
  obtain ⟨c₁, hc₁, hsame, hfree⟩ := h.cache c hc
  obtain ⟨c', hc', hsame', hfree'⟩ := h'.cache c₁ hc₁
  rw [hslots] at hsame'
  exact ⟨c', hc', hsame.trans hsame', by omega⟩

/-- One request is handled, and then the others. -/
theorem cons (hr : r ∉ rs) (h : Spared [r] need e e₁) (h' : Spared rs need' e₁ e') :
    Spared (r :: rs) (need + need') e e' := by
  have hothers : ∀ r' ∈ rs, e₁.scheduler.requests r' = e.scheduler.requests r' := fun r' hr' =>
    h.requests r' fun hmem => hr (List.mem_singleton.mp hmem ▸ hr')
  have hslots : e₁.slotsOf rs = e.slotsOf rs :=
    List.map_congr_left fun r' hr' => by rw [hothers r' hr']
  refine ⟨fun r' hr' hn => ?_, fun r' hn => ?_, fun c hc => ?_⟩
  · rw [List.mem_cons, not_or] at hn
    exact h'.running r' (h.running r' hr' fun hi => hn.1 (List.mem_singleton.mp hi)) hn.2
  · rw [List.mem_cons, not_or] at hn
    exact (h'.requests r' hn.2).trans (h.requests r' fun hi => hn.1 (List.mem_singleton.mp hi))
  · obtain ⟨c₁, hc₁, hsame, hfree⟩ := h.cache c hc
    obtain ⟨c', hc', hsame', hfree'⟩ := h'.cache c₁ hc₁
    rw [hslots] at hsame'
    exact ⟨c', hc', (hsame.mono fun i hi => List.mem_cons.mpr
      (Or.inl (List.mem_singleton.mp hi))).trans
        (hsame'.mono fun i hi => List.mem_cons_of_mem _ hi), by omega⟩

end Spared

/-- **A token for a request whose cursor is a token ahead.** It raises only when the request is
complete and a block is in its slot's table twice. -/
theorem acceptToken_leveled (h : Leveled model ahead e) {r : Ref}
    (hr : r ∈ e.scheduler.running.values) (hd : (e.scheduler.requests r).state = .decode) {b : Nat}
    (hb : (e.scheduler.requests r).batchIdx = some b) (hahead : ahead r = 1) (requestId : String)
    (tokenId : Nat) :
    ∃ e', Leveled model (Function.update ahead r 0) e' ∧ Spared [r] 0 e e' ∧
      (∀ i, Unrepeated i e → Unrepeated i e') ∧
      ((do
        onScheduler (Scheduler.markDecodeDone r tokenId)
        emitToken requestId tokenId
        releaseCacheSlot (some b) r).run e = .ok () e' ∨
      (∃ err, (do
        onScheduler (Scheduler.markDecodeDone r tokenId)
        emitToken requestId tokenId
        releaseCacheSlot (some b) r).run e = .error err e') ∧
        Scheduler.LastToken (e.scheduler.requests r) ∧ ¬Unrepeated b e) := by
  have hlive := (h.live.decodeOutcome
    (Scheduler.markDecodeDone_outcome e.scheduler r tokenId)).1
  obtain ⟨b', hb', hrun⟩ := Scheduler.markDecodeDone_run h.inv hr hd tokenId
  cases hb.symm.trans hb'
  rw [hrun] at hlive
  by_cases hlast : (e.scheduler.requests r).maxNewTokens
      ≤ ((e.scheduler.requests r).numGenerated + 1 : Nat)
  · rw [if_pos hlast] at hrun hlive
    set s' := e.scheduler.completeWith r b tokenId with hs'
    have hother : ∀ r' ≠ r, s'.requests r' = e.scheduler.requests r' :=
      fun r' hne => Function.update_of_ne hne _ _
    have hleft : ∀ r', r' ∈ s'.running.values ↔ r' ∈ e.scheduler.running.values ∧ r' ≠ r :=
      fun r' => Scheduler.mem_erase_values h.inv hr
    -- no request that still runs is in the slot
    have hslot : ∀ r' ∈ s'.running.values, (s'.requests r').batchIdx ≠ some b := by
      intro r' hr' hb'
      obtain ⟨hmem, hne⟩ := (hleft r').mp hr'
      rw [hother r' hne] at hb'
      exact hne (h.inv.apart hmem hr (hb'.trans hb.symm))
    have hrunning : ∀ r' ∈ e.scheduler.running.values, r' ∉ [r] → r' ∈ s'.running.values :=
      fun r' hr' hne => (hleft r').mpr ⟨hr', fun he => hne (List.mem_singleton.mpr he)⟩
    have hrequests : ∀ r' ∉ [r], s'.requests r' = e.scheduler.requests r' :=
      fun r' hne => hother r' fun he => hne (List.mem_singleton.mpr he)
    have hfinished : (s'.requests r).state = .finished := by
      simp [hs', Scheduler.completeWith]
    obtain ⟨emitted, hemit⟩ := emitToken_run requestId tokenId { e with scheduler := s' }
    set e₁ : Engine Row := { e with scheduler := s', emitted := emitted } with he₁
    have h' := h.completeWith hr hd hb hlast hs' hlive
    have h₁ : Leveled model (Function.update ahead r 0) e₁ := { h' with }
    rw [Exec.run_bind_ok (onScheduler_run hrun), Exec.run_bind_ok hemit, releaseCacheSlot,
      Exec.run_bind_ok (EStateM.run_get e₁), if_neg (not_not.mpr hfinished)]
    cases hc : e.cache with
    | none =>
      refine ⟨e₁, h₁, ⟨hrunning, hrequests, fun c hc' => ?_⟩, fun _ hi => hi, Or.inl rfl⟩
      cases hc.symm.trans hc'
    | some c =>
      rcases h₁.resetSlot hc (h.inv.running_slot_lt hr hb) hslot with
        ⟨c', hreset, hdone, size, hkept⟩ | ⟨hrepeated, err, hreset⟩
      · refine ⟨_, hdone, ⟨hrunning, hrequests, fun c'' hc'' => ?_⟩, fun i hi c'' hc'' => ?_,
          Or.inl hreset⟩
        · cases hc.symm.trans hc''
          have hslots : e.slotsOf [r] = [b] := by simp [slotsOf, hb]
          rw [hslots]
          exact ⟨c', rfl, hkept.same, hkept.free⟩
        · cases hc''
          exact hkept.unrepeated (hi c hc)
      · exact ⟨e₁, h₁, ⟨hrunning, hrequests, fun c' hc' => ⟨c', hc', .refl c', le_rfl⟩⟩,
          fun _ hi => hi, Or.inr ⟨⟨err, hreset⟩, hlast, fun hb => hrepeated (hb c hc)⟩⟩
  · rw [if_neg hlast] at hrun hlive
    set s' : Scheduler Nat := e.scheduler.update r fun q => Scheduler.pushToken q tokenId with hs'
    have hdecode : (s'.requests r).state ≠ .finished := by
      simp [hs', Scheduler.update, Scheduler.pushToken, hd]
    obtain ⟨emitted, hemit⟩ := emitToken_run requestId tokenId { e with scheduler := s' }
    have h' := h.pushToken hr hd hahead hlast hs' hlive
    refine ⟨{ e with scheduler := s', emitted := emitted }, { h' with }, ⟨fun r' hr' _ => hr',
      fun r' hne => Function.update_of_ne (fun he => hne (List.mem_singleton.mpr he)) _ _,
      fun c hc => ⟨c, hc, .refl c, le_rfl⟩⟩, fun _ hi => hi, Or.inl ?_⟩
    have hmark : (Scheduler.markDecodeDone r tokenId).run e.scheduler = .ok () s' := hrun
    rw [Exec.run_bind_ok (onScheduler_run hmark), Exec.run_bind_ok hemit]
    exact releaseCacheSlot_running (e := { e with scheduler := s', emitted := emitted }) hdecode _

/-! ## The tokens of a prefill -/

variable (chain) in
theorem registerComplete_leveled (h : Leveled model ahead e) {r : Ref}
    (hr : r ∈ e.scheduler.running.values) :
    Leveled model ahead (Exec.after (registerComplete chain r) e) ∧
      (Exec.after (registerComplete chain r) e).scheduler = e.scheduler ∧
      Spared [r] 0 e (Exec.after (registerComplete chain r) e) := by
  unfold registerComplete
  rw [Exec.after_bind, EStateM.run_get]
  simp only
  split
  · obtain ⟨b, hb⟩ := Option.ne_none_iff_exists'.mp (h.inv.running r hr).batchIdx
    rw [ModelRunner.batchIdx_ok hb, Exec.ofExcept_ok, pure_bind, onCache, Exec.after_bind,
      EStateM.run_get]
    simp only
    cases hc : e.cache with
    | none => exact ⟨h, rfl, .refl [r] e⟩
    | some c =>
      simp only
      rw [Exec.after_within]
      have hregister := fun size (hmax : e.scheduler.maxConcurrentRequests ≤ size)
          (hnative : c.Native model size) =>
        KVCacheType.registerPrefix_native chain hnative
          (Nat.lt_of_lt_of_le (h.inv.running_slot_lt hr hb) hmax)
          (e.scheduler.requests r).promptTokenIds
      obtain ⟨size, hmax, hnative, -⟩ := h.cached c hc
      obtain ⟨-, hsame, hfree⟩ := hregister size hmax hnative
      refine ⟨h.withCache hc fun size hmax hnative => ?_, rfl, fun _ hr' _ => hr', fun _ _ => rfl,
        fun c' hc' => ?_⟩
      · obtain ⟨hnative', hsame, -⟩ := hregister size hmax hnative
        exact ⟨hnative', hsame⟩
      · cases hc.symm.trans hc'
        exact ⟨_, rfl, hsame.mono fun i hi => absurd hi List.not_mem_nil, hfree⟩
  · exact ⟨h, rfl, .refl [r] e⟩

/-- A request whose prompt is in its slot starts to decode, a token ahead. -/
theorem Leveled.startDecode (h : Leveled model (fun _ => 0) e) {r : Ref}
    (hr : r ∈ e.scheduler.running.values) (hs : (e.scheduler.requests r).state = .prefill)
    (hdone : (e.scheduler.requests r).prefillComplete = true) :
    Leveled model (Function.update (fun _ => 0) r 1) { e with
      scheduler := e.scheduler.update r fun request => { request with state := .decode } } := by
  have hout : (e.scheduler.requests r).outputTokenIds = [] := by
    rcases (h.inv.running r hr).state with ⟨-, hout⟩ | ⟨hd, -⟩
    · exact hout
    · exact absurd (hs.symm.trans hd) (by decide)
  have hoffset : (e.scheduler.requests r).prefillOffset
      = (e.scheduler.requests r).numPromptTokens :=
    Nat.le_antisymm (h.offset r) (of_decide_eq_true hdone)
  set q : InferenceRequest Nat := { e.scheduler.requests r with state := .decode } with hq
  have hdecode : q.state = .decode := rfl
  have hlevel : (e.scheduler.requests r).level = q.level + 1 := by
    have hgenerated : q.numGenerated = 0 := by
      rw [InferenceRequest.numGenerated, hq, hout]
      rfl
    have hprompt : q.numPromptTokens = (e.scheduler.requests r).numPromptTokens := rfl
    rw [InferenceRequest.level, if_pos hs, hoffset, InferenceRequest.level,
      if_neg (by rw [hdecode]; decide), hgenerated, hprompt]
    omega
  have hself : (e.scheduler.update r fun request => { request with state := .decode }).requests r
      = q := Function.update_self _ _ _
  refine h.changed (r := r) (h.live.update ⟨rfl, rfl, rfl, rfl, rfl⟩
      (h.live.notMem_waiting (r := r) (by rw [hs]; decide)) fun _ => Or.inr rfl)
    (h.inv.progress hr rfl rfl ⟨Or.inr ⟨rfl, Or.inl hout⟩, (h.inv.running r hr).batchIdx⟩) rfl
    (fun r' hr' => hr') (fun r' hne => Function.update_of_ne hne _ _) ?_ ?_ ?_
    (fun r' hne => Function.update_of_ne hne _ _) (fun c hc _ b hb hp => ?_)
  · rw [hself]
    exact h.offset r
  · rw [hself, hdecode]
    exact fun h => absurd h (by decide)
  · rw [hself]
  · rw [hself] at hb hp ⊢
    obtain ⟨size, -, -, hlevels⟩ := h.cached c hc
    rw [Function.update_self, hlevels r hr b hb hp, hlevel]
    exact Int.add_zero _

variable (chain) in
/-- **The loop of `_run_prefill`, for one request**, on either exit. -/
theorem finishPrefill_leveled (h : Leveled model (fun _ => 0) e) {r : Ref}
    (hr : r ∈ e.scheduler.running.values) (tokenId : Option Nat) :
    Leveled model (fun _ => 0) (Exec.after (finishPrefill chain r tokenId) e) ∧
      Spared [r] 0 e (Exec.after (finishPrefill chain r tokenId) e) := by
  obtain ⟨h₁, hsame, hspared⟩ := registerComplete_leveled chain h hr
  unfold finishPrefill
  rw [Exec.after_bind]
  unfold Exec.after at h₁ hsame hspared
  cases hrun : (registerComplete chain r).run e with
  | error err e₁ =>
    rw [hrun] at h₁ hspared
    exact ⟨h₁, hspared⟩
  | ok u e₁ =>
    rw [hrun] at h₁ hsame hspared
    have h₁ : Leveled model (fun _ => 0) e₁ := h₁
    have hsame : e₁.scheduler = e.scheduler := hsame
    have hspared : Spared [r] 0 e e₁ := hspared
    rw [← hsame] at hr
    simp only
    cases tokenId with
    | none => exact ⟨h₁, hspared⟩
    | some tokenId =>
      simp only
      rw [Exec.after_bind, EStateM.run_get]
      simp only
      rw [Exec.after_bind]
      by_cases hdone : (e₁.scheduler.requests r).state = .prefill ∧
          (e₁.scheduler.requests r).prefillComplete = true
      · rw [onScheduler_run (Scheduler.markPrefillDone_run hdone.1 hdone.2)]
        simp only
        obtain ⟨b, hb⟩ := Option.ne_none_iff_exists'.mp (h₁.inv.running r hr).batchIdx
        have h₂ := h₁.startDecode hr hdone.1 hdone.2
        set e₂ : Engine Row := { e₁ with scheduler := e₁.scheduler.update r fun request =>
          { request with state := .decode } } with he₂
        have hself : e₂.scheduler.requests r
            = { e₁.scheduler.requests r with state := .decode } := Function.update_self _ _ _
        have hstarted : Spared [r] 0 e₁ e₂ := ⟨fun _ hr' _ => hr',
          fun r' hne => Function.update_of_ne (fun he => hne (List.mem_singleton.mpr he)) _ _,
          fun c hc => ⟨c, hc, .refl c, le_rfl⟩⟩
        have hslots₁ : e₁.slotsOf [r] = e.slotsOf [r] := by
          rw [slotsOf, slotsOf, hsame]
        have hslots₂ : e₂.slotsOf [r] = e.slotsOf [r] := by
          rw [← hslots₁]
          simp [slotsOf, hself]
        -- on either exit of the token the request is at its level again
        obtain ⟨e₃, h₃, hspared₃, -, hrun⟩ := acceptToken_leveled h₂ (b := b) hr
          (by rw [hself]) (by rw [hself]; exact hb) (Function.update_self r 1 _)
          (e₁.scheduler.requests r).requestId tokenId
        rw [Function.update_idem, Function.update_eq_self] at h₃
        have hspared₃ := (hspared.trans hslots₁ hstarted).trans hslots₂ hspared₃
        rw [hb]
        rcases hrun with hrun | ⟨⟨err, hrun⟩, -⟩
        · rw [Exec.after_of_ok hrun]
          exact ⟨h₃, hspared₃⟩
        · rw [Exec.after_of_error hrun]
          exact ⟨h₃, hspared₃⟩
      · obtain ⟨err, herr⟩ := Scheduler.markPrefillDone_error hdone
        rw [onScheduler_error herr]
        exact ⟨h₁, hspared⟩

variable (chain) in
/-- The loop of `_run_prefill`, on either exit. -/
theorem finishPrefills_leveled (tokenIds : List (Option Nat)) : ∀ {rs : List Ref}
    {e : Engine Row}, Leveled model (fun _ => 0) e → rs.Nodup →
      (∀ r ∈ rs, r ∈ e.scheduler.running.values) →
      let after := Exec.after (forM (rs.zip tokenIds) fun (r, tokenId) =>
        finishPrefill chain r tokenId) e
      Leveled model (fun _ => 0) after ∧ Spared rs 0 e after := by
  induction tokenIds with
  | nil =>
    intro rs e h _ _
    rw [List.zip_nil_right]
    exact ⟨h, .refl rs e⟩
  | cons tokenId tokenIds ih =>
    rintro (- | ⟨r, rs⟩) e h hnd hrs
    · exact ⟨h, .refl [] e⟩
    · obtain ⟨hr, hnd'⟩ := List.nodup_cons.mp hnd
      obtain ⟨h₁, hspared⟩ := finishPrefill_leveled chain h
        (hrs r List.mem_cons_self) tokenId
      rw [List.zip_cons_cons, List.forM_cons, Exec.after_bind]
      unfold Exec.after at h₁ hspared
      cases hrun : (finishPrefill chain r tokenId).run e with
      | error err e₁ =>
        rw [hrun] at h₁ hspared
        have hspared : Spared [r] 0 e e₁ := hspared
        exact ⟨h₁, hspared.cons hr (.refl rs e₁)⟩
      | ok u e₁ =>
        rw [hrun] at h₁ hspared
        have hspared : Spared [r] 0 e e₁ := hspared
        obtain ⟨h₂, hspared₂⟩ := ih h₁ hnd' fun r' hr' =>
          hspared.running r' (hrs r' (List.mem_cons_of_mem r hr'))
            fun hi => hr (List.mem_singleton.mp hi ▸ hr')
        exact ⟨h₂, hspared.cons hr hspared₂⟩

/-! ## The tokens of a decode -/

/-- The loop of `_run_decode`, on either exit: the requests catch up with their cursors, unless a
block is in a table twice that is not the last one. -/
theorem finishDecodes_leveled {tokenIds : List Nat} : ∀ {rs : List Ref} {e : Engine Row},
    tokenIds.length = rs.length → Leveled model (fun r => if r ∈ rs then 1 else 0) e → rs.Nodup →
      (∀ r ∈ rs, r ∈ e.scheduler.running.values ∧ (e.scheduler.requests r).state = .decode) →
      (∀ r ∈ rs.dropLast, Scheduler.LastToken (e.scheduler.requests r) →
        ∀ b, (e.scheduler.requests r).batchIdx = some b → Unrepeated b e) →
      Leveled model (fun _ => 0) (Exec.after (forM (rs.zip tokenIds) fun (r, tokenId) =>
        finishDecode r tokenId) e) := by
  induction tokenIds with
  | nil =>
    intro rs e hlen h _ _ _
    obtain rfl := List.length_eq_zero_iff.mp hlen.symm
    simp only [List.not_mem_nil, if_false] at h
    exact h
  | cons tokenId tokenIds ih =>
    rintro (- | ⟨r, rs⟩) e hlen h hnd hrs hreleased
    · cases hlen
    · obtain ⟨hr, hnd'⟩ := List.nodup_cons.mp hnd
      obtain ⟨hmem, hd⟩ := hrs r List.mem_cons_self
      obtain ⟨b, hb⟩ := Option.ne_none_iff_exists'.mp (h.inv.running r hmem).batchIdx
      obtain ⟨e₁, h₁, hspared, hblocks, hrun⟩ := acceptToken_leveled h hmem hd hb
        (if_pos List.mem_cons_self) (e.scheduler.requests r).requestId tokenId
      have hahead : Function.update (fun r' => if r' ∈ r :: rs then 1 else 0) r 0
          = fun r' => if r' ∈ rs then 1 else 0 := by
        funext r'
        by_cases he : r' = r
        · subst he
          rw [Function.update_self, if_neg hr]
        · simp [he]
      rw [hahead] at h₁
      have hfirst := Exec.run_bind_ok (EStateM.run_get e) (f := fun e => do
        let request := e.scheduler.requests r
        onScheduler (Scheduler.markDecodeDone r tokenId)
        emitToken request.requestId tokenId
        releaseCacheSlot request.batchIdx r)
      simp only [hb] at hfirst
      rw [List.zip_cons_cons, List.forM_cons, Exec.after_bind]
      rcases hrun with hrun | ⟨⟨err, hrun⟩, hlast, hrepeated⟩
      · have hfirst : (finishDecode r tokenId).run e = .ok () e₁ := hfirst.trans hrun
        simp only [hfirst]
        have hne : ∀ r' ∈ rs, r' ∉ [r] := fun r' hr' hi => hr (List.mem_singleton.mp hi ▸ hr')
        refine ih (Nat.succ.inj hlen) h₁ hnd' (fun r' hr' => ?_) fun r' hr' hlast b' hb' => ?_
        · obtain ⟨hmem', hrest⟩ := hrs r' (List.mem_cons_of_mem r hr')
          rw [hspared.requests r' (hne r' hr')]
          exact ⟨hspared.running r' hmem' (hne r' hr'), hrest⟩
        · rw [hspared.requests r' (hne r' (List.mem_of_mem_dropLast hr'))] at hlast hb'
          refine hblocks b' (hreleased r' ?_ hlast b' hb')
          rw [List.dropLast_cons_of_ne_nil (List.ne_nil_of_mem (List.mem_of_mem_dropLast hr'))]
          exact List.mem_cons_of_mem r hr'
      · have hfirst : (finishDecode r tokenId).run e = .error err e₁ := hfirst.trans hrun
        simp only [hfirst]
        -- only the last row may raise
        cases rs with
        | nil =>
          simp only [List.not_mem_nil, if_false] at h₁
          exact h₁
        | cons r' rs =>
          refine absurd (hreleased r ?_ hlast b hb) hrepeated
          rw [List.dropLast_cons_of_ne_nil (List.cons_ne_nil r' rs)]
          exact List.mem_cons_self

/-! ## Forward passes -/

theorem onRunner_error {α : Type} {m : ModelRunner.M Row α} {err : PyError} {s : ModelRunner Row}
    (hc : e.cache = some c) (h : m.run ⟨e.scheduler.requests, c⟩ = .error err s) :
    (onRunner m).run e = .error err (withRunner s e) := by
  rw [onRunner, Exec.run_bind_ok (EStateM.run_get e)]
  simp only [hc]
  exact Exec.run_within_error h

variable [LinearOrder Score] {Harmless Stops : Pass Row → Prop} {ps rs : List Ref}

omit [LinearOrder Score] in
/-- A running request has a slot. -/
theorem Leveled.batchIdx_eq (h : Leveled model ahead e) {r : Ref}
    (hr : r ∈ e.scheduler.running.values) : (e.scheduler.requests r).batchIdx
      = some ((e.scheduler.requests r).batchIdx.getD 0) := by
  obtain ⟨b, hb⟩ := Option.ne_none_iff_exists'.mp (h.inv.running r hr).batchIdx
  rw [hb, Option.getD_some]

variable (chain) in
/-- **`_run_prefill`** of running requests that prefill, on either exit. If it returns it has left
the other requests and their slots alone. -/
theorem runPrefill_leveled (hmodel : model.AllOrNone Harmless Stops)
    (h : Leveled model (fun _ => 0) e) (hc : e.cache = some c) (hne : ps ≠ []) (hnd : ps.Nodup)
    (hps : ∀ r ∈ ps, r ∈ e.scheduler.running.values ∧ (e.scheduler.requests r).state = .prefill) :
    let s : ModelRunner Row := ⟨e.scheduler.requests, c⟩
    let plan := ModelRunner.prefillPlan chain ps s
    ((∃ r ∈ ps, ModelRunner.Blocked chain s r) ∨ Harmless plan) →
    Leveled model (fun _ => 0) (Exec.after (runPrefill chain model ps) e) ∧
      ∀ u e', (runPrefill chain model ps).run e = .ok u e' → Spared ps plan.shortage e e' ∧
        (∀ r ∈ ps, ¬ModelRunner.Blocked chain s r) ∧ ¬Stops plan := by
  intro s plan hharmless
  unfold runPrefill
  obtain ⟨size, hmax, hrunner⟩ := h.runner hc
  obtain ⟨hleveled, hrest⟩ := ModelRunner.prefill_leveled chain hmodel hrunner hne hnd
    (fun r hr => ⟨(hps r hr).1, (hps r hr).2, h.batchIdx_eq (hps r hr).1⟩) hharmless
  have hall : Exec.Triple (ModelRunner.Forwards (fun _ _ => True) e.scheduler.requests c)
      (ModelRunner.prefill chain model ps) _ _ :=
    ModelRunner.prefill_forwards (cacheSteps_any chain model) h.live.unstarted
  have hforwards := hall s (ModelRunner.forwards_refl (cacheSteps_any chain model) s)
  unfold Exec.after at hleveled
  cases hrun : (ModelRunner.prefill chain model ps).run s with
  | error err t =>
    rw [hrun] at hleveled hforwards
    have herror := onRunner_error hc hrun
    rw [Exec.after_of_error (Exec.run_bind_error herror), Exec.run_bind_error herror]
    exact ⟨h.withRunner hforwards.forwarded hmax hleveled, nofun⟩
  | ok tokenIds t =>
    rw [hrun] at hleveled hforwards
    have hok := onRunner_run hc hrun
    rw [Exec.after_bind, hok, Exec.run_bind_ok hok]
    have h₁ := h.withRunner hforwards.1.forwarded hmax hleveled
    obtain ⟨h₂, hspared⟩ := finishPrefills_leveled chain tokenIds h₁ hnd fun r hr => (hps r hr).1
    obtain ⟨hundisturbed, hknown⟩ := hrest tokenIds t hrun
    refine ⟨h₂, fun u e' hfinish => ⟨?_, hknown⟩⟩
    rw [Exec.after_of_ok hfinish] at hspared
    have hpass : Spared ps plan.shortage e (withRunner t e) :=
      ⟨fun _ hr _ => hr, hundisturbed.requests, fun c' hc' => by
        cases hc.symm.trans hc'
        exact ⟨t.cache, rfl, hundisturbed.same, hundisturbed.free⟩⟩
    have hslots : (withRunner t e).slotsOf ps = e.slotsOf ps :=
      List.map_congr_left fun r _ => congrArg (Option.getD · 0) (hforwards.1.forwarded r).batchIdx
    exact hpass.trans hslots hspared

/-- **`_run_decode`** of running requests that decode, on either exit. -/
theorem runDecode_leveled (hmodel : model.AllOrNone Harmless Stops)
    (h : Leveled model (fun _ => 0) e) (hc : e.cache = some c) (hne : rs ≠ []) (hnd : rs.Nodup)
    (hrs : ∀ r ∈ rs, r ∈ e.scheduler.running.values ∧ (e.scheduler.requests r).state = .decode)
    {p : Pass Row} (hof : p.Of c (ModelRunner.decodeRows rs ⟨e.scheduler.requests, c⟩))
    (hharmless : Harmless p) (hreleasable : ∀ b ∈ ModelRunner.released rs
      (⟨e.scheduler.requests, c⟩ : ModelRunner Row), c.Unrepeated b) :
    Leveled model (fun _ => 0) (Exec.after (runDecode model rs) e) := by
  unfold runDecode
  rw [Exec.after_bind]
  obtain ⟨size, hmax, hrunner⟩ := h.runner hc
  have hsame : ∀ r, Forwarded (e.scheduler.requests r) (e.scheduler.requests r) :=
    fun r => .refl _
  rcases ModelRunner.decode_cases hmodel hrunner hne hnd (fun r hr => (hrs r hr).1) hof hharmless
    hreleasable with ⟨err, c', hrun, hleveled⟩ | ⟨tokenIds, c', hrun, hdecoded⟩
  · rw [onRunner_error hc hrun]
    exact h.withRunner hsame hmax hleveled
  · rw [onRunner_run hc hrun]
    have h₁ := h.withRunner hsame hmax hdecoded.leveled
    refine finishDecodes_leveled hdecoded.length h₁ hnd hrs
      fun r hr hlast b hb c'' hc'' => ?_
    cases hc''
    have hlast : (e.scheduler.requests r).maxNewTokens
      ≤ ((e.scheduler.requests r).numGenerated + 1 : Nat) := hlast
    exact hdecoded.unrepeated b (List.mem_filterMap.mpr ⟨r, hr, (if_pos hlast).trans hb⟩)

/-! ## A step -/

/-- The batches of a step, once requests have got their slots. -/
def picked (s : Scheduler Nat) : ScheduleResult where
  prefillRequests := Scheduler.pickPrefill s s.running.values
    (Scheduler.pickDecode s s.running.values s.maxTokensPerStep).2
  decodeRequests := (Scheduler.pickDecode s s.running.values s.maxTokensPerStep).1

/-- The cache that a step works on: the one that is there, or the one that is made. -/
def stepCache (model : InferenceModel Row Score) (e : Engine Row) :
    Except PyError (KVCacheType Row) :=
  match e.cache with
  | some c => .ok c
  | none => makeCache model e.usePagedKvCache e.usePrefixCache e.maxConcurrentRequests.toNat

/-- The batches `ps` and `rs` of a step are harmless, from what is known before it. The prefill is
harmless or a slot cannot be prepared; and it is known to stop, or the decode is harmless and gives
back no block twice before its last row. -/
def BatchesHarmless (chain : Int → List Nat → Int) (Harmless Stops : Pass Row → Prop)
    (ps rs : List Ref) (s : ModelRunner Row) : Prop :=
  (∃ r ∈ ps, ModelRunner.Blocked chain s r) ∨
    (ps ≠ [] → Harmless (ModelRunner.prefillPlan chain ps s)) ∧
      (ps ≠ [] ∧ Stops (ModelRunner.prefillPlan chain ps s) ∨
        (rs ≠ [] → Harmless (ModelRunner.decodePlan chain ps rs s)) ∧
          ∀ b ∈ ModelRunner.released rs s, s.cache.Unrepeated b)

instance [DecidablePred Harmless] [DecidablePred Stops] (s : ModelRunner Row) :
    Decidable (BatchesHarmless chain Harmless Stops ps rs s) := by
  unfold BatchesHarmless
  infer_instance

variable (chain model) in
/-- The forward passes of a step are harmless, from what is known before it. -/
def PassesHarmless (Harmless Stops : Pass Row → Prop) (e : Engine Row) : Prop :=
  let s := e.scheduler.assignWaitingToSlots
  match e.stepCache model with
  | .error _ => True
  | .ok c => BatchesHarmless chain Harmless Stops (picked s).prefillRequests
    (picked s).decodeRequests ⟨s.requests, c⟩

instance [DecidablePred Harmless] [DecidablePred Stops] :
    Decidable (e.PassesHarmless chain model Harmless Stops) := by
  unfold PassesHarmless
  cases e.stepCache model <;> infer_instance

omit [LinearOrder Score] in
/-- A request that is not in the batch is in another slot. -/
theorem Leveled.slot_notMem (h : Leveled model ahead e) {r : Ref}
    (hr : r ∈ e.scheduler.running.values) (hps : ∀ r ∈ ps, r ∈ e.scheduler.running.values)
    (hn : r ∉ ps) : (e.scheduler.requests r).batchIdx.getD 0 ∉ e.slotsOf ps := by
  intro hmem
  obtain ⟨r', hr', he⟩ := List.mem_map.mp hmem
  have hb := h.batchIdx_eq hr
  have hb' := h.batchIdx_eq (hps r' hr')
  exact hn (h.inv.apart (hps r' hr') hr (hb'.trans ((congrArg some he).trans hb.symm)) ▸ hr')

/-- The decode half of a step, on either exit, after a prefill half that has returned. -/
theorem decodeBatch_leveled (hmodel : model.AllOrNone Harmless Stops)
    (h : Leveled model (fun _ => 0) e) (hc : e.cache = some c)
    (hps : ∀ r ∈ ps, r ∈ e.scheduler.running.values) (hnd : rs.Nodup)
    (hrs : ∀ r ∈ rs, r ∈ e.scheduler.running.values ∧ (e.scheduler.requests r).state = .decode)
    (hapart : ∀ r ∈ rs, r ∉ ps) (h' : Leveled model (fun _ => 0) e')
    (hspared : Spared ps (ModelRunner.prefillPlan chain ps ⟨e.scheduler.requests, c⟩).shortage e e')
    (hsame : ps = [] → e' = e) (hharmless :
      (rs ≠ [] → Harmless (ModelRunner.decodePlan chain ps rs ⟨e.scheduler.requests, c⟩)) ∧
        ∀ b ∈ ModelRunner.released rs (⟨e.scheduler.requests, c⟩ : ModelRunner Row),
          c.Unrepeated b) :
    Leveled model (fun _ => 0) (Exec.after (decodeBatch model rs) e') := by
  unfold decodeBatch
  by_cases hne : rs = []
  · rw [if_neg (not_not.mpr hne)]
    exact h'
  rw [if_pos hne]
  obtain ⟨c', hc', hslots, hfree⟩ := hspared.cache c hc
  have hrequests : ∀ r ∈ rs, e'.scheduler.requests r = e.scheduler.requests r :=
    fun r hr => hspared.requests r (hapart r hr)
  have hslot : ∀ r ∈ rs, (e.scheduler.requests r).batchIdx.getD 0 ∉ e.slotsOf ps := fun r hr =>
    h.slot_notMem (hrs r hr).1 hps (hapart r hr)
  have hrows : ModelRunner.decodeRows rs (⟨e'.scheduler.requests, c'⟩ : ModelRunner Row)
      = ModelRunner.decodeRows rs ⟨e.scheduler.requests, c⟩ :=
    List.map_congr_left fun r hr => by simp only [ModelRunner.slot, hrequests r hr]
  refine runDecode_leveled hmodel h' hc' hne hnd (fun r hr => ?_) (p := ModelRunner.decodePlan chain
    ps rs ⟨e.scheduler.requests, c⟩) ⟨?_, hslots.blockSize.symm, ?_, fun hexact => ?_⟩
    (hharmless.1 hne) fun b hb => ?_
  · rw [hrequests r hr]
    exact ⟨hspared.running r (hrs r hr).1 (hapart r hr), (hrs r hr).2⟩
  · rw [hrows]
    refine List.map_congr_left fun row hrow => ?_
    obtain ⟨r, hr, rfl⟩ := List.mem_map.mp hrow
    simp only [ModelRunner.slot, hslots.slot _ (hslot r hr)]
  · exact Nat.sub_le_of_le_add hfree
  · -- without a prefill nothing has changed
    obtain rfl := List.isEmpty_iff.mp hexact
    obtain rfl := hsame rfl
    cases hc.symm.trans hc'
    rfl
  · have hreleased : ModelRunner.released rs (⟨e'.scheduler.requests, c'⟩ : ModelRunner Row)
        = ModelRunner.released rs (⟨e.scheduler.requests, c⟩ : ModelRunner Row) :=
      List.filterMap_congr fun r hr => by
        simp only [hrequests r (List.mem_of_mem_dropLast hr)]
    rw [hreleased] at hb
    refine (hslots.unrepeated ?_).mpr (hharmless.2 b hb)
    obtain ⟨r, hr, hgiven⟩ := List.mem_filterMap.mp hb
    split at hgiven
    · have hnot := hslot r (List.mem_of_mem_dropLast hr)
      rw [hgiven] at hnot
      exact hnot
    · cases hgiven

omit [LinearOrder Score] in
/-- The cache is there once it is ensured. -/
theorem ensureCache_stepCache {u : Unit} (h : (ensureCache model).run e = .ok u e') :
    ∃ c, e.stepCache model = .ok c ∧ e' = { e with cache := some c } := by
  unfold ensureCache at h
  rw [Exec.run_bind_ok (EStateM.run_get e)] at h
  unfold stepCache
  cases hc : e.cache with
  | some c =>
    rw [hc] at h
    cases h
    exact ⟨c, rfl, by rw [← hc]⟩
  | none =>
    rw [hc] at h
    simp only at h
    cases hmake : makeCache model e.usePagedKvCache e.usePrefixCache
        e.maxConcurrentRequests.toNat with
    | error err => rw [hmake] at h; cases h
    | ok c => rw [hmake] at h; cases h; exact ⟨c, rfl, rfl⟩

variable (chain) in
/-- **The two halves of a step**, on either exit. -/
theorem batches_leveled (hmodel : model.AllOrNone Harmless Stops)
    (h : Leveled model (fun _ => 0) e) (hc : e.cache = some c) (hpnd : ps.Nodup)
    (hps : ∀ r ∈ ps, r ∈ e.scheduler.running.values ∧ (e.scheduler.requests r).state = .prefill)
    (hnd : rs.Nodup)
    (hrs : ∀ r ∈ rs, r ∈ e.scheduler.running.values ∧ (e.scheduler.requests r).state = .decode)
    (hharmless : BatchesHarmless chain Harmless Stops ps rs ⟨e.scheduler.requests, c⟩) :
    Leveled model (fun _ => 0) (Exec.after (do
      prefillBatch chain model ps
      decodeBatch model rs : M Row Unit) e) := by
  have hrunning : ∀ r ∈ ps, r ∈ e.scheduler.running.values := fun r hr => (hps r hr).1
  have hapart : ∀ r ∈ rs, r ∉ ps := fun r hr hp =>
    absurd ((hps r hp).2.symm.trans (hrs r hr).2) (by decide)
  rw [Exec.after_bind, prefillBatch]
  by_cases hne : ps = []
  · rw [if_neg (not_not.mpr hne)]
    have hdecode := (hharmless.resolve_left fun ⟨r, hr, _⟩ => by
      rw [hne] at hr
      cases hr).2.resolve_left fun hstops => hstops.1 hne
    refine decodeBatch_leveled hmodel h hc hrunning hnd hrs hapart h ?_ (fun _ => rfl) hdecode
    rw [hne]
    exact .refl [] e
  · rw [if_pos hne]
    obtain ⟨h₁, hrest⟩ := runPrefill_leveled chain hmodel h hc hne hpnd hps
      (hharmless.imp_right fun hharmless => hharmless.1 hne)
    unfold Exec.after at h₁
    cases hrun : (runPrefill chain model ps).run e with
    | error err e₁ =>
      rw [hrun] at h₁
      exact h₁
    | ok u e₁ =>
      rw [hrun] at h₁
      obtain ⟨hspared, hunblocked, hstops⟩ := hrest u e₁ hrun
      have hdecode := (hharmless.resolve_left fun ⟨r, hr, hblocked⟩ =>
        hunblocked r hr hblocked).2.resolve_left fun hstopped => hstops hstopped.2
      exact decodeBatch_leveled hmodel h hc hrunning hnd hrs hapart h₁ hspared
        (fun hnil => absurd hnil hne) hdecode

/-- **A step whose passes are harmless** leaves the cursors at their levels, on either exit. -/
theorem step_leveled (hmodel : model.AllOrNone Harmless Stops) (h : Leveled model (fun _ => 0) e)
    (hslots : e.maxConcurrentRequests = e.scheduler.maxConcurrentRequests)
    (hharmless : e.PassesHarmless chain model Harmless Stops) :
    Leveled model (fun _ => 0) (Exec.after (step chain model) e) := by
  unfold step
  rw [Exec.after_bind, EStateM.run_get]
  simp only
  by_cases hwork : e.scheduler.hasWork = false
  · rw [if_pos hwork]
    exact h
  rw [if_neg hwork, Exec.after_bind]
  have h₁ := (ensureCache_leveled hmodel e ⟨h, hslots⟩).1
  unfold Exec.after at h₁
  cases hensure : (ensureCache model).run e with
  | error err e₁ =>
    rw [hensure] at h₁
    exact h₁
  | ok u e₁ =>
    rw [hensure] at h₁
    have h₁ : Leveled model (fun _ => 0) e₁ := h₁
    obtain ⟨c, hcache, rfl⟩ := ensureCache_stepCache hensure
    have hsched : (onScheduler Scheduler.schedule).run { e with cache := some c }
        = .ok (picked e.scheduler.assignWaitingToSlots)
          { e with cache := some c, scheduler := e.scheduler.assignWaitingToSlots } :=
      onScheduler_run (Scheduler.schedule_eq e.scheduler)
    have h₂ : Leveled model (fun _ => 0)
        { e with cache := some c, scheduler := e.scheduler.assignWaitingToSlots } := h₁.assigned
    rw [PassesHarmless, hcache] at hharmless
    simp only
    rw [Exec.after_bind, hsched]
    simp only
    set s := e.scheduler.assignWaitingToSlots with hs
    have hprefill := Scheduler.pickPrefill_sublist s s.running.values
      (Scheduler.pickDecode s s.running.values s.maxTokensPerStep).2
    have hdecode := Scheduler.pickDecode_sublist s s.running.values s.maxTokensPerStep
    have hnd : s.running.values.Nodup := h₂.inv.running_nodup
    have h₃ := batches_leveled chain hmodel h₂ rfl (hprefill.nodup (hnd.filter _))
      (fun r hr => by simpa using List.mem_filter.mp (hprefill.subset hr))
      (hdecode.nodup (hnd.filter _))
      (fun r hr => by simpa using List.mem_filter.mp (hdecode.subset hr)) hharmless
    have hreturned := Exec.after_returned (do
      prefillBatch chain model (picked s).prefillRequests
      decodeBatch model (picked s).decodeRequests : M Row Unit) true
      { e with cache := some c, scheduler := s }
    rw [bind_assoc] at hreturned
    rw [hreturned]
    exact h₃

end Engine

end Nifre
