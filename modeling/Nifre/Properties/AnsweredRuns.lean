import Nifre.Properties.Admissions
import Nifre.Properties.Answering
import Nifre.Properties.EngineRuns
import Nifre.Properties.TokensCounted

/-!
# Runs whose steps return

Where a model and its cache only promise something of the calls that return, so does the engine:
every step that returns keeps `Coherent`, as long as no prompt was restored as a whole. Over a run
of such steps, the completed requests have the outputs of plain greedy generation.

* `Engine.step_answers` — one step
* `Engine.run_answers` — a run
-/

namespace Nifre

open Scheduler (Inv)
open InferenceRequest (GoesOn HitPart)

/-- Nothing is restored for a request that goes on. -/
theorem InferenceRequest.GoesOn.hitPart_iff {q q' : InferenceRequest Nat} (h : GoesOn q q') :
    q'.HitPart ↔ q.HitPart := by
  unfold HitPart
  rw [h.hit, h.prompt]

namespace Engine

variable {Row Score : Type} {chain : Int → List Nat → Int} {model : InferenceModel Row Score}
  {Holds : KVCacheType Row → (Nat → List Nat) → Prop} {InPlay : List Nat → Prop}
  {Allowed : Bool → Prop} {next : List Nat → Nat} {e e' : Engine Row} {held : Nat → List Nat}
  {batch : List Ref}

theorem onCache_eq_ok {α : Type} {m : KVCacheType.M Row α} {a : α} {c : KVCacheType Row}
    (hc : e.cache = some c) (h : (onCache m).run e = .ok a e') :
    ∃ c', m.run c = .ok a c' ∧ e' = { e with cache := some c' } := by
  unfold onCache at h
  rw [Exec.run_bind_ok (EStateM.run_get e)] at h
  simp only [hc] at h
  cases hm : m.run c with
  | ok a' c' =>
    have hrun := Exec.run_within_ok (g := fun _ : Engine Row => c)
      (p := fun c e => { e with cache := some c }) (s := e) hm
    cases hrun.symm.trans h
    exact ⟨c', rfl, rfl⟩
  | error err c' =>
    have hrun := Exec.run_within_error (g := fun _ : Engine Row => c)
      (p := fun c e => { e with cache := some c }) (s := e) hm
    cases hrun.symm.trans h

variable [LinearOrder Score]

/-! ## Handling a token -/

/-- **A token for a request of the batch**: it goes on decoding, or completes and its slot is
cleared. -/
theorem acceptToken_answers (hanswers : Answers chain model Holds InPlay Allowed next) {r : Ref}
    {b : Nat} (h : Coherent model Holds InPlay Allowed next e held (r :: batch))
    (hr : r ∈ e.scheduler.running.values) (hb : (e.scheduler.requests r).batchIdx = some b)
    (hq : Awaiting next (e.scheduler.requests r) (held b)) {requestId : String} {token : Nat}
    (htoken : token = next ((e.scheduler.requests r).promptTokenIds
      ++ (e.scheduler.requests r).outputTokenIds))
    (hrun : (do
        onScheduler (Scheduler.markDecodeDone r token)
        emitToken requestId token
        releaseCacheSlot (some b) r).run e = .ok () e') :
    ∃ held', Coherent model Holds InPlay Allowed next e' held' batch ∧
      Others r b e e' held held' := by
  obtain ⟨b', hb', hmark⟩ := Scheduler.markDecodeDone_run h.scheduler hr hq.state token
  cases hb.symm.trans hb'
  obtain ⟨c, hc, hh, hlt⟩ := h.running_cache hr
  have hjob := h.job r (h.scheduler.running_lt hr)
  have hgreedy : Greedy next (e.scheduler.requests r).promptTokenIds
      ((e.scheduler.requests r).outputTokenIds ++ [token]) := htoken ▸ hq.greedy.push
  by_cases hlast : (e.scheduler.requests r).maxNewTokens
      ≤ ((e.scheduler.requests r).numGenerated + 1 : Nat)
  · rw [if_pos hlast] at hmark
    set s' := e.scheduler.completeWith r b token with hs'
    have hinv : Inv s' := h.scheduler.completeWith hr hq.state hb token hlast
    have hrequest : (s'.requests r).state = .finished := by simp [hs', Scheduler.completeWith]
    have hgone : r ∉ s'.running.values := fun hm =>
      ((Scheduler.mem_erase_values h.scheduler hr).mp hm).2 rfl
    have hother : ∀ r', r' ≠ r → s'.requests r' = e.scheduler.requests r' :=
      fun r' hne => Function.update_of_ne hne _ _
    -- no other request runs in the slot
    have hslot : ∀ r' ∈ s'.running.values, (s'.requests r').batchIdx ≠ some b := by
      intro r' hr' he
      obtain ⟨hm, hne⟩ := (Scheduler.mem_erase_values h.scheduler hr).mp hr'
      rw [hother r' hne] at he
      exact hne (h.scheduler.apart hm hr (he.trans hb.symm))
    obtain ⟨emitted, hemit⟩ := emitToken_run requestId token { e with scheduler := s' }
    rw [Exec.run_bind_ok (onScheduler_run hmark), Exec.run_bind_ok hemit, releaseCacheSlot,
      Exec.run_bind_ok (EStateM.run_get _)] at hrun
    simp only [if_neg (not_not.mpr hrequest), hc] at hrun
    obtain ⟨c', hreset, rfl⟩ := onCache_eq_ok (c := c) rfl hrun
    obtain ⟨hsize, hh'⟩ := hanswers.resetSlot hh (hlt b hb) hreset
    have hleft := (h.completeWith hr List.mem_cons_self hinv hgreedy).leave hgone
    have hco := hleft.cleared hc hsize hslot hh'
    exact ⟨_, { hco with }, fun r' hr' hne =>
      (Scheduler.mem_erase_values h.scheduler hr).mpr ⟨hr', hne⟩, hother,
      fun i hi => Function.update_of_ne hi _ _⟩
  · rw [if_neg hlast] at hmark
    set s' : Scheduler Nat := { e.scheduler with
      requests := Function.update e.scheduler.requests r
        (Scheduler.pushToken (e.scheduler.requests r) token) } with hs'
    have hrequest : s'.requests r = Scheduler.pushToken (e.scheduler.requests r) token := by
      simp [hs']
    have hstate : (s'.requests r).state ≠ .finished := by
      rw [hrequest]
      show (e.scheduler.requests r).state ≠ .finished
      rw [hq.state]
      decide
    obtain ⟨emitted, hemit⟩ := emitToken_run requestId token { e with scheduler := s' }
    rw [Exec.run_bind_ok (onScheduler_run hmark), Exec.run_bind_ok hemit,
      releaseCacheSlot_running (e := { e with scheduler := s', emitted := emitted }) hstate] at hrun
    cases hrun
    have hp : Coherent model Holds InPlay Allowed next { e with scheduler := s' } held
        (r :: batch) :=
      h.progress hr List.mem_cons_self (h.scheduler.pushToken hr hq.state token hlast)
        ⟨hjob.prompt, hjob.maxNewTokens, hjob.fits, hjob.chunk, hjob.inPlay⟩
    have hset := hp.settle fun i hi => by
      have hib : i = b := by
        rw [hrequest] at hi
        exact Option.some.inj (hi.symm.trans hb)
      subst hib
      refine .decoding ?_
      rw [hrequest]
      refine ⟨hq.prepared, hq.offset, hq.state, by simp [Scheduler.pushToken], ?_, hgreedy⟩
      rw [hq.held]
      simp [Scheduler.pushToken]
    exact ⟨held, { hset with }, fun r' hr' _ => hr', fun r' hne => Function.update_of_ne hne _ _,
      fun _ _ => rfl⟩

/-! ## Prefill -/

theorem registerComplete_answers (hanswers : Answers chain model Holds InPlay Allowed next)
    {r : Ref} {b : Nat} (h : Coherent model Holds InPlay Allowed next e held batch)
    (hr : r ∈ e.scheduler.running.values) (hb : (e.scheduler.requests r).batchIdx = some b)
    {token : Option Nat} (hadv : Advanced next (e.scheduler.requests r) (held b) token)
    (hrun : (registerComplete chain r).run e = .ok () e') :
    ∃ c, e' = { e with cache := some c } ∧
      Coherent model Holds InPlay Allowed next { e with cache := some c } held batch := by
  obtain ⟨c, hc, hh, hlt⟩ := h.running_cache hr
  unfold registerComplete at hrun
  rw [Exec.run_bind_ok (EStateM.run_get e)] at hrun
  by_cases hreg : (e.scheduler.requests r).prefillComplete = true ∧
      (e.cache.any fun c => c.hasPrefix) = true
  · have hheld : held b = (e.scheduler.requests r).promptTokenIds := by
      cases hadv with
      | more hfill => exact absurd hfill.offset (Nat.not_lt.mpr (of_decide_eq_true hreg.1))
      | filled hfilled => exact hfilled.held
    simp only [if_pos hreg, ModelRunner.batchIdx_ok hb, Exec.ofExcept_ok, pure_bind] at hrun
    obtain ⟨c', hregister, rfl⟩ := onCache_eq_ok hc hrun
    rw [← hheld] at hregister
    obtain ⟨hsize, hh'⟩ := hanswers.registerPrefix hh (hlt b hb)
      (hheld ▸ (h.job r (h.scheduler.running_lt hr)).inPlay) hregister
    exact ⟨c', rfl, h.withCache hc hsize hh'⟩
  · simp only [if_neg hreg] at hrun
    cases hrun
    exact ⟨c, by rw [← hc], h.withCache hc rfl hh⟩

/-- **The loop of `_run_prefill`, for one request.** -/
theorem finishPrefill_answers (hanswers : Answers chain model Holds InPlay Allowed next) {r : Ref}
    {b : Nat} (h : Coherent model Holds InPlay Allowed next e held (r :: batch))
    (hr : r ∈ e.scheduler.running.values) (hb : (e.scheduler.requests r).batchIdx = some b)
    {token : Option Nat} (hadv : Advanced next (e.scheduler.requests r) (held b) token)
    (hrun : (finishPrefill chain r token).run e = .ok () e') :
    ∃ held', Coherent model Holds InPlay Allowed next e' held' batch ∧
      Others r b e e' held held' := by
  unfold finishPrefill at hrun
  obtain ⟨u, e₁, hregister, hrun⟩ := Exec.run_bind_eq_ok hrun
  obtain ⟨c, rfl, h₁⟩ := registerComplete_answers hanswers h hr hb hadv hregister
  cases hadv with
  | more hfill =>
    cases hrun
    refine ⟨held, h₁.settle fun i hi => ?_, fun r' hr' _ => hr', fun _ _ => rfl, fun _ _ => rfl⟩
    cases hb.symm.trans hi
    exact .filling hfill
  | filled hfilled =>
    have hdone : (e.scheduler.requests r).prefillComplete = true :=
      decide_eq_true (Nat.le_of_eq hfilled.offset.symm)
    have hjob := h.job r (h.scheduler.running_lt hr)
    set q : InferenceRequest Nat := { e.scheduler.requests r with state := .decode } with hq
    set s' : Scheduler Nat := { e.scheduler with
      requests := Function.update e.scheduler.requests r q } with hs'
    have hmark : (Scheduler.markPrefillDone r).run e.scheduler = .ok () s' :=
      Scheduler.markPrefillDone_run hfilled.state hdone
    have hinv : Inv s' := h.scheduler.progress hr rfl rfl
      ⟨Or.inr ⟨rfl, Or.inl hfilled.output⟩, (h.scheduler.running r hr).batchIdx⟩
    have h₂ := h₁.progress hr List.mem_cons_self hinv
      ⟨hjob.prompt, hjob.maxNewTokens, hjob.fits, hjob.chunk, hjob.inPlay⟩
    have hreq : s'.requests r = q := Function.update_self _ _ _
    have hout : (s'.requests r).promptTokenIds ++ (s'.requests r).outputTokenIds
        = (e.scheduler.requests r).promptTokenIds := by
      rw [hreq]
      show (e.scheduler.requests r).promptTokenIds ++ (e.scheduler.requests r).outputTokenIds = _
      rw [hfilled.output, List.append_nil]
    -- the prompt is in the slot, and the first token is to come
    have hawait : Awaiting next (s'.requests r) (held b) := by
      refine ⟨?_, ?_, ?_, ?_, ?_⟩
      · rw [hreq]; exact hfilled.prepared
      · rw [hreq]; exact hfilled.offset
      · rw [hreq]
      · rw [hout, hfilled.held]
      · rw [hreq]
        show Greedy next _ (e.scheduler.requests r).outputTokenIds
        rw [hfilled.output]
        exact greedy_nil _ _
    simp only at hrun
    rw [Exec.run_bind_ok (EStateM.run_get _)] at hrun
    simp only at hrun
    rw [Exec.run_bind_ok (onScheduler_run (e := { e with cache := some c }) hmark), hb] at hrun
    obtain ⟨held', hco, hothers⟩ := acceptToken_answers hanswers h₂ hr (by rw [hreq]; exact hb)
      hawait (by rw [hout]) hrun
    exact ⟨held', hco, hothers.running, fun r' hne =>
      (hothers.requests r' hne).trans (Function.update_of_ne hne _ _), hothers.held⟩

omit [LinearOrder Score] in
/-- The requests of a list that wait for their tokens to be handled, one after the other. -/
theorem finishAll_answers {α : Type} {I : InferenceRequest Nat → List Nat → α → Prop}
    {finish : Ref → α → M Row Unit}
    (hfinish : ∀ {e e' : Engine Row} {held : Nat → List Nat} {r : Ref} {batch : List Ref} {b : Nat}
      {token : α}, Coherent model Holds InPlay Allowed next e held (r :: batch) →
      r ∈ e.scheduler.running.values → (e.scheduler.requests r).batchIdx = some b →
      I (e.scheduler.requests r) (held b) token → (finish r token).run e = .ok () e' →
      ∃ held', Coherent model Holds InPlay Allowed next e' held' batch ∧
        Others r b e e' held held')
    (tokens : Ref → α) : ∀ (rs : List Ref) {e : Engine Row} {held : Nat → List Nat},
      Coherent model Holds InPlay Allowed next e held rs → rs.Nodup →
      (∀ r ∈ rs, r ∈ e.scheduler.running.values) →
      (∀ r ∈ rs, ∀ b, (e.scheduler.requests r).batchIdx = some b →
        I (e.scheduler.requests r) (held b) (tokens r)) →
      (forM (rs.map fun r => (r, tokens r)) fun (r, token) => finish r token).run e = .ok () e' →
      ∃ held', Coherent model Holds InPlay Allowed next e' held' [] ∧
        ∀ r ∈ e.scheduler.running.values, r ∉ rs →
          r ∈ e'.scheduler.running.values ∧ e'.scheduler.requests r = e.scheduler.requests r
  | [], e, held, h, _, _, _, hloop => by
    cases hloop
    exact ⟨held, h, fun _ hr _ => ⟨hr, rfl⟩⟩
  | r :: rs, e, held, h, hnd, hrun, hp, hloop => by
    obtain ⟨hr, hnd⟩ := List.nodup_cons.mp hnd
    have hmem := hrun r List.mem_cons_self
    obtain ⟨b, hb⟩ := Option.ne_none_iff_exists'.mp (h.scheduler.running r hmem).batchIdx
    rw [List.map_cons, List.forM_cons] at hloop
    obtain ⟨u, e₁, hfirst, hrest⟩ := Exec.run_bind_eq_ok hloop
    obtain ⟨held₁, h₁, ho⟩ := hfinish h hmem hb (hp r List.mem_cons_self b hb) hfirst
    have hne : ∀ r' ∈ rs, r' ≠ r := fun r' hr' he => hr (he ▸ hr')
    obtain ⟨held₂, h₂, hkeep⟩ := finishAll_answers hfinish tokens rs h₁ hnd
      (fun r' hr' => ho.running r' (hrun r' (List.mem_cons_of_mem r hr')) (hne r' hr'))
      (by
        intro r' hr' b' hb'
        rw [ho.requests r' (hne r' hr')] at hb' ⊢
        -- another running request is in another slot
        have hbb : b' ≠ b := by
          rintro rfl
          exact hne r' hr' (h.scheduler.apart (hrun r' (List.mem_cons_of_mem r hr')) hmem
            (hb'.trans hb.symm))
        rw [ho.held b' hbb]
        exact hp r' (List.mem_cons_of_mem r hr') b' hb') hrest
    refine ⟨held₂, h₂, fun r' hr' hn => ?_⟩
    rw [List.mem_cons, not_or] at hn
    obtain ⟨hm, hreq⟩ := hkeep r' (ho.running r' hr' hn.1) hn.2
    exact ⟨hm, hreq.trans (ho.requests r' hn.1)⟩

section

variable {base : Ref → InferenceRequest Nat}

omit [LinearOrder Score] in
theorem finishPrefill_goOn (r : Ref) (token : Option Nat) :
    Exec.Keeps (GoOn base) (finishPrefill chain r token : M Row Unit) := by
  refine (registerComplete_goOn chain r).bind fun _ => ?_
  cases token with
  | none => exact Exec.Keeps.pure _
  | some token =>
    refine Exec.Keeps.get.bind fun _ => ?_
    exact (onScheduler_goOn (Scheduler.markPrefillDone_goOn r)).bind fun _ =>
      (onScheduler_goOn (Scheduler.markDecodeDone_goOn r token)).bind fun _ =>
        (emitToken_goOn _ token).bind fun _ => releaseCacheSlot_goOn _ r

omit [LinearOrder Score] in
theorem finishDecode_goOn (r : Ref) (token : Nat) :
    Exec.Keeps (GoOn base) (finishDecode r token : M Row Unit) :=
  Exec.Keeps.get.bind fun _ => (onScheduler_goOn (Scheduler.markDecodeDone_goOn r token)).bind
    fun _ => (emitToken_goOn _ token).bind fun _ => releaseCacheSlot_goOn _ r

theorem decodeBatch_goOn (rs : List Ref) :
    Exec.Keeps (GoOn base) (decodeBatch model rs : M Row Unit) :=
  Exec.Keeps.ite (fun _ => (onRunner_decode_goOn model rs).bind fun _ =>
    Exec.Keeps.forM _ fun p _ => finishDecode_goOn p.1 p.2) fun _ => Exec.Keeps.pure _

end

/-- **`_run_prefill`** of running requests that prefill. -/
theorem runPrefill_answers (hanswers : Answers chain model Holds InPlay Allowed next)
    (h : Coherent model Holds InPlay Allowed next e held []) {rs : List Ref} (hne : rs ≠ [])
    (hnd : rs.Nodup) (hrs : ∀ r ∈ rs, r ∈ e.scheduler.running.values)
    (hstate : ∀ r ∈ rs, (e.scheduler.requests r).state = .prefill)
    (hrun : (runPrefill chain model rs).run e = .ok () e')
    (hpart : ∀ r ∈ rs, (e'.scheduler.requests r).HitPart) :
    ∃ held', Coherent model Holds InPlay Allowed next e' held' [] ∧
      ∀ r ∈ e.scheduler.running.values, r ∉ rs →
        r ∈ e'.scheduler.running.values ∧ e'.scheduler.requests r = e.scheduler.requests r := by
  unfold runPrefill at hrun
  obtain ⟨results, e₁, hrunner, hloop⟩ := Exec.run_bind_eq_ok hrun
  obtain ⟨c, s, hc, hpass, rfl⟩ := Metered.onRunner_eq_ok hrunner
  -- after the forward pass nothing is restored any more
  have hgo : GoOn s.requests e' := by
    have hkeeps : Exec.Keeps (GoOn s.requests)
        (forM (rs.zip results) fun p => (finishPrefill chain p.1 p.2 : M Row Unit)) :=
      Exec.Keeps.forM _ fun p _ => finishPrefill_goOn p.1 p.2
    have hafter := hkeeps (withRunner s e) fun _ => .refl _
    rwa [Exec.after_of_ok hloop] at hafter
  obtain ⟨tokens, held₁, rfl, hh₁, ht, hadv⟩ := ModelRunner.prefill_answers hanswers hne
    (s := ⟨e.scheduler.requests, c⟩) (h.cache c hc).2 (h.inBatch hc hnd hrs) (by
      intro r hr b hb
      cases h.running r (hrs r hr) (List.not_mem_nil) b hb with
      | fresh hf => exact Or.inl hf
      | filling hf => exact Or.inr hf
      | decoding hd => exact absurd (hd.state.symm.trans (hstate r hr)) (by decide)) hpass
    fun r hr => (hgo r).hitPart_iff.mp (hpart r hr)
  rw [← List.map_prod_left_eq_zip] at hloop
  obtain ⟨held₂, h₂, hkeep⟩ := finishAll_answers
    (I := fun q held token => Advanced next q held token)
    (fun hco hr hb hp hfin => finishPrefill_answers hanswers hco hr hb hp hfin) tokens rs
    (h.forward hc hrs ht hh₁) hnd hrs hadv hloop
  refine ⟨held₂, h₂, fun r hr hn => ?_⟩
  obtain ⟨hm, hreq⟩ := hkeep r hr hn
  exact ⟨hm, hreq.trans (ht.others r hn)⟩

/-! ## Decode -/

/-- The sampled token of a decoding request is handled. -/
theorem finishDecode_answers (hanswers : Answers chain model Holds InPlay Allowed next) {r : Ref}
    (h : Coherent model Holds InPlay Allowed next e held (r :: batch))
    (hr : r ∈ e.scheduler.running.values) {b : Nat}
    (hb : (e.scheduler.requests r).batchIdx = some b) {token : Nat}
    (hp : Awaiting next (e.scheduler.requests r) (held b) ∧
      token = next ((e.scheduler.requests r).promptTokenIds ++
        (e.scheduler.requests r).outputTokenIds))
    (hrun : (finishDecode r token).run e = .ok () e') :
    ∃ held', Coherent model Holds InPlay Allowed next e' held' batch ∧
      Others r b e e' held held' := by
  rw [finishDecode, Exec.run_bind_ok (EStateM.run_get e)] at hrun
  simp only [hb] at hrun
  exact acceptToken_answers hanswers h hr hb hp.1 hp.2 hrun

/-- **`_run_decode`** of running requests that decode. -/
theorem runDecode_answers (hanswers : Answers chain model Holds InPlay Allowed next)
    (h : Coherent model Holds InPlay Allowed next e held []) {rs : List Ref} (hne : rs ≠ [])
    (hnd : rs.Nodup) (hrs : ∀ r ∈ rs, r ∈ e.scheduler.running.values)
    (hstate : ∀ r ∈ rs, (e.scheduler.requests r).state = .decode)
    (hrun : (runDecode model rs).run e = .ok () e') :
    ∃ held', Coherent model Holds InPlay Allowed next e' held' [] := by
  have hdec : ∀ r ∈ rs, ∀ b, (e.scheduler.requests r).batchIdx = some b →
      Decoding next (e.scheduler.requests r) (held b) := by
    intro r hr b hb
    cases h.running r (hrs r hr) (List.not_mem_nil) b hb with
    | fresh hf => exact absurd (hf.state.symm.trans (hstate r hr)) (by decide)
    | filling hf => exact absurd (hf.state.symm.trans (hstate r hr)) (by decide)
    | decoding hd => exact hd
  have hroom : ∀ r ∈ rs, ((e.scheduler.requests r).numGenerated : Int)
      < (e.scheduler.requests r).maxNewTokens := by
    intro r hr
    obtain ⟨b, hb⟩ := Option.ne_none_iff_exists'.mp (h.scheduler.running r (hrs r hr)).batchIdx
    rcases (h.scheduler.running r (hrs r hr)).state with ⟨hs, -⟩ | ⟨-, hout | hlt⟩
    · exact absurd (hs.symm.trans (hstate r hr)) (by decide)
    · exact absurd hout (hdec r hr b hb).output
    · exact hlt
  unfold runDecode at hrun
  obtain ⟨results, e₁, hrunner, hloop⟩ := Exec.run_bind_eq_ok hrun
  obtain ⟨c, s, hc, hpass, rfl⟩ := Metered.onRunner_eq_ok hrunner
  obtain ⟨held₁, rfl, hh₁, ht, hreq, hheld⟩ := ModelRunner.decode_answers hanswers hne
    (s := ⟨e.scheduler.requests, c⟩) (h.cache c hc).2 (h.inBatch hc hnd hrs) hdec hroom hpass
  rw [← List.map_prod_left_eq_zip] at hloop
  obtain ⟨held₂, h₂, -⟩ := finishAll_answers
    (I := fun q held token => Awaiting next q held ∧
      token = next (q.promptTokenIds ++ q.outputTokenIds))
    (fun hco hr hb hp hfin => finishDecode_answers hanswers hco hr hb hp hfin)
    (fun r => next ((e.scheduler.requests r).promptTokenIds
      ++ (e.scheduler.requests r).outputTokenIds))
    rs (h.forward hc hrs ht hh₁) hnd hrs (by
      intro r hr b hb
      have hkept : (withRunner s e).scheduler.requests = e.scheduler.requests := hreq
      rw [hkept] at hb ⊢
      have hd := hdec r hr b hb
      exact ⟨⟨hd.prepared, hd.offset, hd.state, hheld r hr b hb, hd.greedy⟩, rfl⟩) hloop
  exact ⟨held₂, h₂⟩

/-! ## A step -/

theorem ensureCache_answers (hanswers : Answers chain model Holds InPlay Allowed next)
    (h : Coherent model Holds InPlay Allowed next e held [])
    (hrun : (ensureCache model).run e = .ok () e') :
    ∃ c held', e' = { e with cache := some c } ∧
      Coherent model Holds InPlay Allowed next { e with cache := some c } held' [] := by
  unfold ensureCache at hrun
  rw [Exec.run_bind_ok (EStateM.run_get e)] at hrun
  cases hc : e.cache with
  | some c =>
    rw [hc] at hrun
    cases hrun
    exact ⟨c, held, by rw [← hc], h.withCache hc rfl (h.cache c hc).2⟩
  | none =>
    have hmax : e.maxConcurrentRequests.toNat = e.scheduler.maxConcurrentRequests := by
      rw [h.concurrency, Int.toNat_natCast]
    have hidle := h.noCache hc
    simp only [hc, hmax] at hrun
    obtain ⟨c, e₁, hmake, hset⟩ := Exec.run_bind_eq_ok hrun
    obtain ⟨hmake, rfl⟩ := Exec.ofExcept_eq_ok hmake
    cases hset
    obtain ⟨hsize, hh⟩ := hanswers.makeCache h.allowed hmake
    refine ⟨c, fun _ => [], rfl,
      { h with cache := ?_, noCache := fun hnone => absurd hnone (by simp), running := ?_ }⟩
    · intro c' hc'
      cases hc'
      exact ⟨Nat.le_of_eq hsize.symm, hh⟩
    · intro r hr
      have hr' : r ∈ e₁.scheduler.running.values := hr
      rw [hidle] at hr'
      cases hr'

/-- **The prefill half of a step** leaves the requests that decode alone. -/
theorem prefillBatch_answers (hanswers : Answers chain model Holds InPlay Allowed next)
    (h : Coherent model Holds InPlay Allowed next e held []) {rs ds : List Ref} (hnd : rs.Nodup)
    (hp : ∀ r ∈ rs, r ∈ e.scheduler.running.values ∧ (e.scheduler.requests r).state = .prefill)
    (hd : ∀ r ∈ ds, r ∈ e.scheduler.running.values ∧ (e.scheduler.requests r).state = .decode)
    (hrun : (prefillBatch chain model rs).run e = .ok () e')
    (hpart : ∀ r ∈ rs, (e'.scheduler.requests r).HitPart) :
    ∃ held', Coherent model Holds InPlay Allowed next e' held' [] ∧
      ∀ r ∈ ds, r ∈ e'.scheduler.running.values ∧ (e'.scheduler.requests r).state = .decode := by
  unfold prefillBatch at hrun
  by_cases hne : rs ≠ []
  · rw [if_pos hne] at hrun
    obtain ⟨held', h', hkeep⟩ := runPrefill_answers hanswers h hne hnd (fun r hr => (hp r hr).1)
      (fun r hr => (hp r hr).2) hrun hpart
    refine ⟨held', h', fun r hr => ?_⟩
    obtain ⟨hm, hstate⟩ := hd r hr
    have hn : r ∉ rs := fun hc => absurd ((hp r hc).2.symm.trans hstate) (by decide)
    obtain ⟨hm', hreq⟩ := hkeep r hm hn
    exact ⟨hm', by rw [hreq]; exact hstate⟩
  · rw [if_neg hne] at hrun
    cases hrun
    exact ⟨held, h, hd⟩

theorem decodeBatch_answers (hanswers : Answers chain model Holds InPlay Allowed next)
    (h : Coherent model Holds InPlay Allowed next e held []) {rs : List Ref} (hnd : rs.Nodup)
    (hd : ∀ r ∈ rs, r ∈ e.scheduler.running.values ∧ (e.scheduler.requests r).state = .decode)
    (hrun : (decodeBatch model rs).run e = .ok () e') :
    ∃ held', Coherent model Holds InPlay Allowed next e' held' [] := by
  unfold decodeBatch at hrun
  by_cases hne : rs ≠ []
  · rw [if_pos hne] at hrun
    exact runDecode_answers hanswers h hne hnd (fun r hr => (hd r hr).1) (fun r hr => (hd r hr).2)
      hrun
  · rw [if_neg hne] at hrun
    cases hrun
    exact ⟨held, h⟩

/-- **A step that returns** keeps what the slots hold in line with the requests, unless a prompt
was restored as a whole. -/
theorem step_answers (hanswers : Answers chain model Holds InPlay Allowed next)
    (h : Coherent model Holds InPlay Allowed next e held []) {more : Bool}
    (hrun : (step chain model).run e = .ok more e')
    (hpart : ∀ r < e.scheduler.created, (e'.scheduler.requests r).HitPart) :
    ∃ held', Coherent model Holds InPlay Allowed next e' held' [] := by
  by_cases hwork : e.scheduler.hasWork = false
  · cases hrun.symm.trans (step_noWork hwork)
    exact ⟨held, h⟩
  · unfold step at hrun
    rw [Exec.run_bind_ok (EStateM.run_get e), if_neg hwork] at hrun
    obtain ⟨u, e₁, hensure, hrun⟩ := Exec.run_bind_eq_ok hrun
    obtain ⟨c, held₁, rfl, h₁⟩ := ensureCache_answers hanswers h hensure
    obtain ⟨result, hsched, hprefill, hdecode⟩ := Scheduler.schedule_run e.scheduler
    rw [Exec.run_bind_ok (onScheduler_run (e := { e with cache := some c }) hsched)] at hrun
    obtain ⟨u, e₃, hrun₃, hrun⟩ := Exec.run_bind_eq_ok hrun
    obtain ⟨u, e₄, hrun₄, hpure⟩ := Exec.run_bind_eq_ok hrun
    cases hpure
    have h₂ := h₁.assignWaitingToSlots (by simp)
    have hnd := h₂.scheduler.running_nodup
    have hp : ∀ r ∈ result.prefillRequests, _ := fun r hr => List.mem_filter.mp (hprefill.subset hr)
    -- the decode half restores nothing
    have hgo : GoOn e₃.scheduler.requests e' := by
      have hkeeps : Exec.Keeps (GoOn e₃.scheduler.requests)
          (decodeBatch model result.decodeRequests : M Row Unit) := decodeBatch_goOn _
      have hafter := hkeeps e₃ fun _ => .refl _
      rwa [Exec.after_of_ok hrun₄] at hafter
    have hlt : ∀ r ∈ result.prefillRequests, r < e.scheduler.created := by
      intro r hr
      have hlt := h₂.scheduler.running_lt (hp r hr).1
      rwa [(Scheduler.assignWaitingToSlots_settings e.scheduler).1] at hlt
    obtain ⟨held₃, h₃, hd₃⟩ := prefillBatch_answers hanswers h₂ (hprefill.nodup (hnd.filter _))
      (fun r hr => by simpa using hp r hr)
      (fun r hr => by simpa using List.mem_filter.mp (hdecode.subset hr)) hrun₃
      fun r hr => (hgo r).hitPart_iff.mp (hpart r (hlt r hr))
    exact decodeBatch_answers hanswers h₃ (hdecode.nodup (hnd.filter _)) hd₃ hrun₄

/-! ## Runs -/

/-- A step that returns, and has restored no prompt as a whole. -/
structure Answered (chain : Int → List Nat → Int) (model : InferenceModel Row Score)
    (e : Engine Row) : Prop where
  returns : Exec.Returns (step chain model) e
  hitPart : ∀ r < e.scheduler.created,
    ((Exec.after (step chain model) e).scheduler.requests r).HitPart

instance (chain : Int → List Nat → Int) (model : InferenceModel Row Score) (e : Engine Row) :
    Decidable (Answered chain model e) :=
  decidable_of_iff (Exec.Returns (step chain model) e ∧ ∀ r < e.scheduler.created,
    ((Exec.after (step chain model) e).scheduler.requests r).HitPart)
    ⟨fun h => ⟨h.1, h.2⟩, fun h => ⟨h.1, h.2⟩⟩

/-- Of the calls, only the steps have to go through. -/
def StepAnswered (chain : Int → List Nat → Int) (model : InferenceModel Row Score)
    (e : Engine Row) : Op → Prop
  | .step => Answered chain model e
  | _ => True

instance (chain : Int → List Nat → Int) (model : InferenceModel Row Score) (e : Engine Row)
    (op : Op) : Decidable (StepAnswered chain model e op) :=
  match op with
  | .step => inferInstanceAs (Decidable (Answered chain model e))
  | .addRequest .. | .cancelRequest .. | .reconfigure .. | .registerTokenCallback _
  | .unregisterTokenCallback _ => inferInstanceAs (Decidable True)

theorem next_answers (hanswers : Answers chain model Holds InPlay Allowed next)
    (h : Coherent model Holds InPlay Allowed next e held []) {op : Op}
    (hop : Legal model InPlay Allowed e op) (hstep : StepAnswered chain model e op) :
    ∃ held', Coherent model Holds InPlay Allowed next (Engine.next chain model e op) held' [] := by
  cases op with
  | addRequest requestId promptTokenIds maxNewTokens =>
    obtain ⟨hid, hprompt, hmax, hfits, hplay⟩ := hop
    refine ⟨held, ?_⟩
    rw [Engine.next, call, Exec.after_dropped, Exec.after_of_ok (addRequest_run e _ _ _)]
    exact addRequest_coherent h hid hprompt hmax hfits hplay
  | step =>
    obtain ⟨⟨more, e', hrun⟩, hpart⟩ := hstep
    rw [Exec.after_of_ok hrun] at hpart
    rw [Engine.next, call, Exec.after_dropped, Exec.after_of_ok hrun]
    exact step_answers hanswers h hrun hpart
  | cancelRequest requestId status =>
    refine ⟨held, ?_⟩
    rw [Engine.next, call, Exec.after_dropped]
    exact cancelRequest_coherent h requestId status
  | reconfigure prefillChunkSize maxTokensPerStep maxConcurrentRequests usePaged usePrefix =>
    refine ⟨held, ?_⟩
    rw [Engine.next, call, Exec.after_dropped]
    exact reconfigure_coherent h _ _ _ _ hop
  | registerTokenCallback requestId => exact ⟨held, { h with }⟩
  | unregisterTokenCallback requestId => exact ⟨held, { h with }⟩

omit [LinearOrder Score] in
/-- A legal run, with more said of its prompts. -/
theorem legal_and {Q : List Nat → Prop} {ops : List Op} {next : Engine Row → Op → Engine Row}
    (h : Exec.Along (Legal model InPlay Allowed) next e ops)
    (hQ : ∀ prompt ∈ prompts ops, Q prompt) :
    Exec.Along (Legal model (fun prompt => InPlay prompt ∧ Q prompt) Allowed) next e ops := by
  have hmem : ∀ op ∈ ops, ∀ requestId promptTokenIds maxNewTokens,
      op = .addRequest requestId promptTokenIds maxNewTokens → Q promptTokenIds := by
    rintro op hop requestId promptTokenIds maxNewTokens rfl
    exact hQ _ (mem_prompts hop)
  refine (h.and_mem hmem).of_invariant (J := fun _ => True)
    (fun e op _ hop => ⟨?_, trivial⟩) trivial
  obtain ⟨hlegal, hin⟩ := hop
  cases op with
  | addRequest requestId promptTokenIds maxNewTokens =>
    obtain ⟨hid, hne, hmax, hfits, hplay⟩ := hlegal
    exact ⟨hid, hne, hmax, hfits, hplay, hin _ _ _ rfl⟩
  | reconfigure _ _ _ _ usePrefix => exact hlegal
  | _ => trivial

/-- **Every run of calls whose steps go through** keeps what the slots hold in line with the
requests. -/
theorem run_answers (hanswers : Answers chain model Holds InPlay Allowed next)
    {maxConcurrentRequests prefillChunkSize maxTokensPerStep : Int}
    {usePagedKvCache usePrefixCache : Bool} (hchunk : 1 ≤ prefillChunkSize)
    (hallowed : Allowed (model.supportsPrefixCache && usePrefixCache))
    (h : new model maxConcurrentRequests prefillChunkSize maxTokensPerStep usePagedKvCache
      usePrefixCache = .ok e) {ops : List Op}
    (hlegal : Exec.Along (fun e op => Legal model InPlay Allowed e op ∧
      StepAnswered chain model e op) (Engine.next chain model) e ops) :
    ∃ held, Coherent model Holds InPlay Allowed next (ops.foldl (Engine.next chain model) e) held
      [] :=
  Exec.Along.foldl (J := fun e => ∃ held, Coherent model Holds InPlay Allowed next e held [])
    (fun _ _ ⟨_, h⟩ hop => next_answers hanswers h hop.1 hop.2)
    ⟨fun _ => [], new_coherent hchunk hallowed h _⟩ hlegal

end Engine

end Nifre
