import Nifre.Properties.PrefixHit
import Nifre.Properties.RunnerFrame

/-!
# What a prefill does to its requests

Where a prefill returns, every request of its batch starts with the tokens that were restored for
it, if its slot was not prepared yet, and advances by its chunk. The others stay as they are.
-/

namespace Nifre

namespace ModelRunner

variable {Row Score : Type} {chain : Int → List Nat → Int} {s s' : ModelRunner Row} {rs : List Ref}

/-! ## The slots are prepared -/

/-- The request with a prepared slot, with `loaded` tokens restored if it was not prepared yet. -/
def started (loaded : Nat) (q : InferenceRequest Nat) : InferenceRequest Nat :=
  if q.slotPrepared then q
  else
    { q with
      prefillOffset := if 0 < loaded then loaded else q.prefillOffset
      prefixCacheHitTokens := if 0 < loaded then loaded else q.prefixCacheHitTokens
      slotPrepared := true }

theorem loadPrefix_requests {b : Nat} {prompt : List Nat} {n : Nat}
    (h : (loadPrefix chain b prompt).run s = .ok n s') : s'.requests = s.requests := by
  unfold loadPrefix at h
  rw [Exec.run_bind_ok (EStateM.run_get s)] at h
  split at h
  · obtain ⟨c', -, rfl⟩ := onCache_eq_ok h
    rfl
  · cases h
    rfl

/-- **A slot is prepared.** -/
theorem prepareSlot_started {r : Ref} (h : (prepareSlot chain r).run s = .ok () s') :
    ∃ loaded, s'.requests = Function.update s.requests r (started loaded (s.requests r)) := by
  unfold prepareSlot at h
  rw [Exec.run_bind_ok (EStateM.run_get s)] at h
  by_cases hfresh : (s.requests r).slotPrepared = false
  · simp only [if_pos hfresh] at h
    obtain ⟨b, s₀, hb, h⟩ := Exec.run_bind_eq_ok h
    obtain ⟨loaded, s₁, hload, h⟩ := Exec.run_bind_eq_ok h
    obtain ⟨-, rfl⟩ := Exec.ofExcept_eq_ok hb
    have hreq : s₁.requests = s₀.requests := loadPrefix_requests hload
    refine ⟨loaded, ?_⟩
    rw [started, if_neg (by simp [hfresh])]
    by_cases hpos : 0 < loaded
    · rw [if_pos hpos, Exec.run_bind_ok (EStateM.run_modify _ s₁), EStateM.run_modify] at h
      cases h
      simp [update, hreq, hpos]
    · rw [if_neg hpos] at h
      split at h
      · obtain ⟨u, s₂, hreset, h⟩ := Exec.run_bind_eq_ok h
        obtain ⟨c', -, rfl⟩ := onCache_eq_ok hreset
        rw [EStateM.run_modify] at h
        cases h
        simp [update, hreq, hpos]
      · rw [EStateM.run_modify] at h
        cases h
        simp [update, hreq, hpos]
  · simp only [if_neg hfresh] at h
    cases h
    refine ⟨0, ?_⟩
    rw [started, if_pos (by simpa using hfresh), Function.update_eq_self]

theorem prepareAll_started (hnd : rs.Nodup)
    (h : (forM rs (prepareSlot chain) : M Row PUnit).run s = .ok ⟨⟩ s') :
    (∀ r ∈ rs, ∃ loaded, s'.requests r = started loaded (s.requests r)) ∧
      ∀ r ∉ rs, s'.requests r = s.requests r := by
  induction rs generalizing s with
  | nil =>
    cases h
    exact ⟨nofun, fun _ _ => rfl⟩
  | cons r rs ih =>
    obtain ⟨hr, hnd'⟩ := List.nodup_cons.mp hnd
    rw [List.forM_cons] at h
    obtain ⟨u, s₁, hfirst, hrest⟩ := Exec.run_bind_eq_ok h
    obtain ⟨loaded, hreq⟩ := prepareSlot_started hfirst
    obtain ⟨hin, hout⟩ := ih hnd' hrest
    refine ⟨fun r' hr' => ?_, fun r' hr' => ?_⟩
    · rcases List.mem_cons.mp hr' with rfl | hr'
      · exact ⟨loaded, by rw [hout r' hr, hreq, Function.update_self]⟩
      · have hne : r' ≠ r := fun he => hr (he ▸ hr')
        obtain ⟨loaded', hstarted⟩ := hin r' hr'
        exact ⟨loaded', by rw [hstarted, hreq, Function.update_of_ne hne]⟩
    · rw [List.mem_cons, not_or] at hr'
      rw [hout r' hr'.2, hreq, Function.update_of_ne hr'.1]

/-! ## The rows advance -/

variable [LinearOrder Score]

/-- **The rows advance** by their lengths, and those that are complete by then have a token. -/
theorem advanceRows_ok {logits : Logits Score} {i : Nat} {len : Ref → Nat}
    {tokens : List (Option Nat)} (hnd : rs.Nodup)
    (h : (advanceRows logits i rs (rs.map len)).run s = .ok tokens s') :
    (∀ r ∈ rs, s'.requests r
        = { s.requests r with prefillOffset := (s.requests r).prefillOffset + len r }) ∧
      (∀ r ∉ rs, s'.requests r = s.requests r) ∧ tokens.length = rs.length ∧
      ∀ p ∈ rs.zip tokens, p.2.isSome = (s'.requests p.1).prefillComplete := by
  induction rs generalizing s i tokens with
  | nil =>
    cases h
    exact ⟨nofun, fun _ _ => rfl, rfl, nofun⟩
  | cons r rs ih =>
    obtain ⟨hr, hnd'⟩ := List.nodup_cons.mp hnd
    rw [List.map_cons, advanceRows, Exec.run_bind_ok (EStateM.run_modify _ s)] at h
    set s₀ : ModelRunner Row := s.update r fun request =>
      { request with prefillOffset := request.prefillOffset + len r } with hs₀
    obtain ⟨token, s₁, hsample, h⟩ := Exec.run_bind_eq_ok h
    obtain ⟨rest, s₂, hrest, h⟩ := Exec.run_bind_eq_ok h
    cases h
    -- the token is sampled from the request that has advanced
    have htoken : s₁ = s₀ ∧ token.isSome = (s₀.requests r).prefillComplete := by
      unfold sampleComplete at hsample
      rw [Exec.run_bind_ok (EStateM.run_get s₀)] at hsample
      split at hsample
      · next hc =>
        cases hrow : sampleRow logits i with
        | error e => rw [hrow] at hsample; cases hsample
        | ok t =>
          rw [hrow] at hsample
          cases hsample
          exact ⟨rfl, hc.symm⟩
      · next hc =>
        cases hsample
        exact ⟨rfl, (Bool.eq_false_iff.mpr hc).symm⟩
    obtain ⟨rfl, hcomplete⟩ := htoken
    obtain ⟨hin, hout, hlength, hall⟩ := ih hnd' hrest
    have hself : s'.requests r
        = { s.requests r with prefillOffset := (s.requests r).prefillOffset + len r } := by
      rw [hout r hr, hs₀]
      simp [update]
    refine ⟨fun r' hr' => ?_, fun r' hr' => ?_, congrArg Nat.succ hlength, fun p hp => ?_⟩
    · rcases List.mem_cons.mp hr' with rfl | hr'
      · exact hself
      · have hne : r' ≠ r := fun he => hr (he ▸ hr')
        rw [hin r' hr', hs₀]
        simp [update, hne]
    · rw [List.mem_cons, not_or] at hr'
      rw [hout r' hr'.2, hs₀]
      simp [update, hr'.1]
    · rcases List.mem_cons.mp hp with rfl | hp
      · simp only
        rw [hcomplete, hout r hr]
      · exact hall p hp

/-! ## The whole pass -/

/-- The request after its chunk. -/
def chunked (q : InferenceRequest Nat) : InferenceRequest Nat :=
  advanced q (chunkTokens q).length

variable (chain) in
omit [LinearOrder Score] in
/-- The real lengths of the rows that a prefill hands to the model. -/
def forwardedLens (rs : List Ref) (s : ModelRunner Row) : List Nat :=
  match (forM rs (prepareSlot chain) : M Row PUnit).run s with
  | .ok _ t => rs.map fun r => (chunkTokens (t.requests r)).length
  | .error _ _ => []

/-- What a prefill that returned did to its requests. -/
structure Passed (chain : Int → List Nat → Int) (rs : List Ref) (s s' : ModelRunner Row)
    (tokens : List (Option Nat)) (loaded : Ref → Nat) : Prop where
  inside : ∀ r ∈ rs, s'.requests r = chunked (started (loaded r) (s.requests r))
  outside : ∀ r ∉ rs, s'.requests r = s.requests r
  length : tokens.length = rs.length
  tokens : ∀ p ∈ rs.zip tokens, p.2.isSome = (s'.requests p.1).prefillComplete
  forwarded : forwardedLens chain rs s
    = rs.map fun r => (chunkTokens (started (loaded r) (s.requests r))).length

/-- **A prefill that returned.** -/
theorem prefill_ok {model : InferenceModel Row Score} {tokens : List (Option Nat)}
    (hnd : rs.Nodup) (h : (prefill chain model rs).run s = .ok tokens s') :
    ∃ loaded, Passed chain rs s s' tokens loaded := by
  obtain ⟨u, t, hprepare, h⟩ := Exec.run_bind_eq_ok h
  rw [Exec.run_bind_ok (EStateM.run_get t)] at h
  obtain ⟨⟨tokenIds, inputLens⟩, t₁, hbatch, h⟩ := Exec.run_bind_eq_ok h
  obtain ⟨slots, t₂, hslots, h⟩ := Exec.run_bind_eq_ok h
  obtain ⟨logits, t₃, hcall, h⟩ := Exec.run_bind_eq_ok h
  obtain ⟨hbatch, rfl⟩ := Exec.ofExcept_eq_ok hbatch
  obtain ⟨-, rfl⟩ := Exec.ofExcept_eq_ok hslots
  obtain ⟨c, -, rfl⟩ := onCache_eq_ok hcall
  obtain ⟨hin, hout⟩ := prepareAll_started hnd hprepare
  choose! loaded hloaded using hin
  have hlens : inputLens = rs.map fun r => (chunkTokens (t₂.requests r)).length := by
    rw [batchTokenIds_lens hbatch, List.map_map]
    rfl
  rw [hlens] at h
  obtain ⟨hadvanced, hkept, hlength, htokens⟩ := advanceRows_ok hnd h
  refine ⟨loaded, fun r hr => ?_, fun r hr => ?_, hlength, htokens, ?_⟩
  · rw [hadvanced r hr, chunked, ← hloaded r hr]
    rfl
  · rw [hkept r hr]
    exact hout r hr
  · unfold forwardedLens
    rw [hprepare]
    exact List.map_congr_left fun r hr => by rw [hloaded r hr]

end ModelRunner

end Nifre
