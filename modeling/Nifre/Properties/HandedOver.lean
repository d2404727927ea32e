import Nifre.Lib.Ghost
import Nifre.Lib.Hoare
import Nifre.Properties.Offsets

/-!
# What is handed to the model

A step with a book: whenever the model is called, the rows of the call are entered, each with its
request and its real tokens. But for the book the step is the one of the engine.

* `Handing.step_shadows` — the step with the book does what the step does
* `Handing.prefill_entered`, `Handing.decode_entered` — what the two forward passes enter
-/

namespace Nifre

open Exec (Shadows)

/-- A part of the system, and the rows that the model was called with so far. -/
structure Handing (σ : Type) where
  state : σ
  handed : List (Ref × List Nat)

/-- The last tokens of a batch are one token each. -/
theorem ModelRunner.lastToken_lengths {requests : Ref → InferenceRequest Nat} {rs : List Ref}
    {tokens : List (List Nat)} (h : rs.mapM (fun r => lastToken (requests r)) = .ok tokens) :
    tokens.map List.length = List.replicate rs.length 1 := by
  rw [← Exec.length_of_mapM_ok h, ← List.length_map (f := List.length)]
  refine List.eq_replicate_of_mem fun n hn => ?_
  obtain ⟨row, hrow, rfl⟩ := List.mem_map.mp hn
  obtain ⟨r, -, hr⟩ := Exec.mem_of_mapM_ok h row hrow
  unfold lastToken at hr
  split at hr
  · cases hr
  · cases hr
    rfl

namespace Handing

variable {Row Score σ α : Type}

abbrev M (σ : Type) := EStateM PyError (Handing σ)

/-! ## The step with the book -/

/-- Work that calls no model. -/
def quiet (m : EStateM PyError σ α) : M σ α :=
  Exec.within (·.state) (fun t s => { s with state := t }) m

/-- The rows that the model is called with. -/
def hand (rows : List (Ref × List Nat)) : M σ Unit :=
  modify fun s => { s with handed := s.handed ++ rows }

def onRunner (m : M (ModelRunner Row) α) : M (Engine Row) α := do
  let s ← get
  match s.state.cache with
  | none => throw (.attributeError "'NoneType' object has no attribute 'reset_slot'")
  | some c =>
    Exec.within
      (fun s : Handing (Engine Row) =>
        (⟨⟨s.state.scheduler.requests, c⟩, s.handed⟩ : Handing (ModelRunner Row)))
      (fun t s => ⟨Engine.withRunner t.state s.state, t.handed⟩) m

variable [LinearOrder Score] (chain : Int → List Nat → Int) (model : InferenceModel Row Score)

/-- `ModelRunner.prefill`: the rows are the chunks, without their padding. -/
def prefill (requests : List Ref) : M (ModelRunner Row) (List (Option Nat)) := do
  quiet (forM requests (ModelRunner.prepareSlot chain))
  let s ← get
  let tokenLists := requests.map fun r => ModelRunner.chunkTokens (s.state.requests r)
  let (tokenIds, inputLens) ←
    Exec.ofExcept (batchTokenIds tokenLists model.config.padTokenId)
  let cacheBatchIndices ←
    Exec.ofExcept (requests.mapM fun r => ModelRunner.batchIdx (s.state.requests r))
  hand (requests.zip tokenLists)
  let logits ← quiet (ModelRunner.onCache (model.call tokenIds (some inputLens) cacheBatchIndices))
  quiet (ModelRunner.advanceRows logits 0 requests inputLens)

/-- `ModelRunner.decode`. -/
def decode (requests : List Ref) : M (ModelRunner Row) (List Nat) := do
  let s ← get
  let tokens ← Exec.ofExcept (requests.mapM fun r => ModelRunner.lastToken (s.state.requests r))
  let cacheBatchIndices ←
    Exec.ofExcept (requests.mapM fun r => ModelRunner.batchIdx (s.state.requests r))
  hand (requests.zip tokens)
  let logits ← quiet (ModelRunner.onCache (model.call tokens none cacheBatchIndices))
  Exec.ofExcept ((List.range requests.length).mapM (ModelRunner.sampleRow logits))

def runPrefill (requests : List Ref) : M (Engine Row) Unit := do
  let tokenIds ← onRunner (prefill chain model requests)
  quiet (forM (requests.zip tokenIds) fun (r, tokenId) => Engine.finishPrefill chain r tokenId)

def runDecode (requests : List Ref) : M (Engine Row) Unit := do
  let tokenIds ← onRunner (decode model requests)
  quiet (forM (requests.zip tokenIds) fun (r, tokenId) => Engine.finishDecode r tokenId)

def prefillBatch (requests : List Ref) : M (Engine Row) Unit :=
  if requests ≠ [] then runPrefill chain model requests else pure ()

def decodeBatch (requests : List Ref) : M (Engine Row) Unit :=
  if requests ≠ [] then runDecode model requests else pure ()

/-- `Engine.step`. -/
def step : M (Engine Row) Bool := do
  let s ← get
  if s.state.scheduler.hasWork = false then
    pure false
  else
    quiet (Engine.ensureCache model)
    let result ← quiet (Engine.onScheduler Scheduler.schedule)
    prefillBatch chain model result.prefillRequests
    decodeBatch model result.decodeRequests
    pure true

/-! ## It is the step of the engine -/

variable {chain model}

theorem quiet_shadows (m : EStateM PyError σ α) : Shadows state (quiet m) m :=
  Shadows.within (fun _ _ => rfl) m

theorem prefill_shadows (rs : List Ref) :
    Shadows state (prefill chain model rs) (ModelRunner.prefill chain model rs) := by
  refine (quiet_shadows _).bind fun _ => Shadows.get_bind fun s => ?_
  refine Shadows.bind (Shadows.ofExcept _) fun batch => Shadows.bind (Shadows.ofExcept _)
    fun slots => Shadows.modify_bind (fun _ => rfl) ?_
  exact (quiet_shadows _).bind fun logits => quiet_shadows _

theorem decode_shadows (rs : List Ref) :
    Shadows state (decode model rs) (ModelRunner.decode model rs) := by
  refine Shadows.get_bind fun s => Shadows.bind (Shadows.ofExcept _) fun tokens => ?_
  refine Shadows.bind (Shadows.ofExcept _) fun slots => Shadows.modify_bind (fun _ => rfl) ?_
  exact (quiet_shadows _).bind fun logits => Shadows.ofExcept _

theorem onRunner_shadows {m : M (ModelRunner Row) α} {m' : ModelRunner.M Row α}
    (h : Shadows state m m') : Shadows state (onRunner m) (Engine.onRunner m') := by
  refine Shadows.get_bind fun s => ?_
  cases s.state.cache with
  | none => exact fun _ => rfl
  | some c => exact h.within_part (fun _ => rfl) fun _ _ => rfl

variable (chain model) in
/-- **The step with the book** is the step of the engine. -/
theorem step_shadows : Shadows state (step chain model) (Engine.step chain model) := by
  refine Shadows.get_bind fun s => Shadows.ite (Shadows.pure _) ?_
  refine (quiet_shadows _).bind fun _ => (quiet_shadows _).bind fun result => ?_
  refine (Shadows.ite ?_ (Shadows.pure _)).bind fun _ =>
    (Shadows.ite ?_ (Shadows.pure _)).bind fun _ => Shadows.pure _
  · exact (onRunner_shadows (prefill_shadows _)).bind fun _ => quiet_shadows _
  · exact (onRunner_shadows (decode_shadows _)).bind fun _ => quiet_shadows _

variable (chain model) in
theorem step_state (s : Handing (Engine Row)) :
    (Exec.after (step chain model) s).state = Engine.next chain model s.state .step := by
  rw [Engine.next, Engine.call, Exec.after_dropped]
  exact (step_shadows chain model).after s

/-! ## What is entered -/

open Exec (Triple)

/-- The real tokens of some rows. -/
def tokens (rows : List (Ref × List Nat)) : Nat := (rows.map fun p => p.2.length).sum

theorem tokens_zip {rs : List Ref} {tokenLists : List (List Nat)}
    (h : tokenLists.length = rs.length) :
    tokens (rs.zip tokenLists) = (tokenLists.map List.length).sum := by
  unfold tokens
  have hmap : (rs.zip tokenLists).map (fun p => p.2.length)
      = ((rs.zip tokenLists).map Prod.snd).map List.length := (List.map_map ..).symm
  rw [hmap, List.map_snd_zip h.le]

/-- After `before` the book has one row for each of the requests, of `limit` tokens together at
most. -/
def Entered (before : List (Ref × List Nat)) (rs : List Ref) (limit : Int)
    (handed : List (Ref × List Nat)) : Prop :=
  ∃ rows, handed = before ++ rows ∧ rows.map Prod.fst = rs ∧ (tokens rows : Int) ≤ limit

/-- The same for the first few of the requests. -/
def PartlyEntered (before : List (Ref × List Nat)) (rs : List Ref) (limit : Int)
    (handed : List (Ref × List Nat)) : Prop :=
  ∃ first, first <+: rs ∧ Entered before first limit handed

variable {before handed handed' : List (Ref × List Nat)} {rs rs' : List Ref} {limit limit' : Int}

theorem Entered.refl (before : List (Ref × List Nat)) : Entered before [] 0 before :=
  ⟨[], (List.append_nil _).symm, rfl, Int.le_refl 0⟩

theorem Entered.partly (h : Entered before rs limit handed) :
    PartlyEntered before rs limit handed :=
  ⟨rs, List.prefix_rfl, h⟩

/-- Nothing is entered. -/
theorem partlyEntered_refl (hlimit : 0 ≤ limit) : PartlyEntered before rs limit before :=
  ⟨[], List.nil_prefix, [], (List.append_nil _).symm, rfl, hlimit⟩

theorem Entered.append (h : Entered before rs limit handed)
    (h' : Entered handed rs' limit' handed') :
    Entered before (rs ++ rs') (limit + limit') handed' := by
  obtain ⟨rows, rfl, rfl, hle⟩ := h
  obtain ⟨rows', rfl, rfl, hle'⟩ := h'
  refine ⟨rows ++ rows', List.append_assoc _ _ _, List.map_append, ?_⟩
  unfold tokens at *
  rw [List.map_append, List.sum_append]
  omega

theorem Entered.append_partly (h : Entered before rs limit handed)
    (h' : PartlyEntered handed rs' limit' handed') :
    PartlyEntered before (rs ++ rs') (limit + limit') handed' := by
  obtain ⟨first, hfirst, hentered⟩ := h'
  exact ⟨rs ++ first, (List.prefix_append_right_inj rs).mpr hfirst, h.append hentered⟩

theorem PartlyEntered.mono (h : PartlyEntered before rs limit handed) (hrs : rs <+: rs')
    (hlimit : limit ≤ limit') : PartlyEntered before rs' limit' handed := by
  obtain ⟨first, hfirst, rows, hrows, hrefs, hle⟩ := h
  exact ⟨first, hfirst.trans hrs, rows, hrows, hrefs, hle.trans hlimit⟩

/-- Quiet work leaves the book alone. -/
theorem quiet_triple (m : EStateM PyError σ α) (t₀ : σ) (before : List (Ref × List Nat)) :
    Triple (fun s => s.state = t₀ ∧ s.handed = before) (quiet m)
      (fun a s => m.run t₀ = .ok a s.state ∧ s.handed = before) fun s => s.handed = before := by
  rintro ⟨_, _⟩ ⟨rfl, rfl⟩
  unfold quiet
  split
  · next a t hr =>
    cases hm : m.run _ with
    | ok a' t' =>
      rw [Exec.run_within_ok hm] at hr
      cases hr
      exact ⟨rfl, rfl⟩
    | error e t' =>
      rw [Exec.run_within_error hm] at hr
      cases hr
  · next e t hr =>
    cases hm : m.run _ with
    | ok a' t' =>
      rw [Exec.run_within_ok hm] at hr
      cases hr
    | error e' t' =>
      rw [Exec.run_within_error hm] at hr
      cases hr
      rfl

theorem quiet_keeps {J : List (Ref × List Nat) → Prop} (m : EStateM PyError σ α) :
    Exec.Keeps (fun s => J s.handed) (quiet m) :=
  Exec.Keeps.within fun _ h => h

/-- Once the rows are entered, the rest of a pass is quiet. -/
theorem hand_quiet {β : Type} {rows : List (Ref × List Nat)} {m : EStateM PyError σ α}
    {f : α → M σ β} (hrefs : rows.map Prod.fst = rs) (hle : (tokens rows : Int) ≤ limit)
    (hf : ∀ a, Exec.Keeps (fun s => Entered before rs limit s.handed) (f a)) :
    Triple (fun s => s.handed = before) (do hand rows; let a ← quiet m; f a)
      (fun _ s => Entered before rs limit s.handed)
      fun s => PartlyEntered before rs limit s.handed := by
  refine Triple.bind (R := fun _ s => Entered before rs limit s.handed)
    (Triple.modify fun s hs => ⟨rows, by rw [hs], hrefs, hle⟩) fun _ => ?_
  refine ((quiet_keeps m).triple.conseq (fun _ h => h) (fun _ _ h => h)
    fun _ h => h.partly).bind fun a => ?_
  exact (hf a).triple.conseq (fun _ h => h) (fun _ _ h => h) fun _ h => h.partly

/-- **A prefill** enters the chunks that it cuts once the slots are prepared. -/
theorem prefill_entered {rs : List Ref} {t₀ : ModelRunner Row} (hlimit : 0 ≤ limit)
    (h : ∀ t, (forM rs (ModelRunner.prepareSlot chain) : ModelRunner.M Row PUnit).run t₀
      = .ok ⟨⟩ t →
        ((rs.map fun r => (ModelRunner.chunkTokens (t.requests r)).length).sum : Int) ≤ limit) :
    Triple (fun s => s.state = t₀ ∧ s.handed = before) (prefill chain model rs)
      (fun _ s => Entered before rs limit s.handed)
      fun s => PartlyEntered before rs limit s.handed := by
  have hnone : ∀ s : Handing (ModelRunner Row), s.handed = before →
      PartlyEntered before rs limit s.handed := fun s hs => hs ▸ partlyEntered_refl hlimit
  refine ((quiet_triple _ t₀ before).conseq (fun _ h => h) (fun _ _ h => h) hnone).bind fun _ => ?_
  refine Triple.get_bind fun s hs => ?_
  refine Triple.ofExcept_bind (fun batch _ => ?_) fun _ he => hnone _ (he ▸ hs.2)
  refine Triple.ofExcept_bind (fun slots _ => ?_) fun _ he => hnone _ (he ▸ hs.2)
  refine (hand_quiet ?_ ?_ fun logits => quiet_keeps _).conseq
    (fun _ he => he ▸ hs.2) (fun _ _ h => h) fun _ h => h
  · exact List.map_fst_zip (by simp)
  · rw [tokens_zip (by simp), List.map_map]
    exact h s.state hs.1

/-- **A decode** enters one token for each request. -/
theorem decode_entered (rs : List Ref) (before : List (Ref × List Nat)) :
    Triple (fun s => s.handed = before) (decode model rs)
      (fun _ s => Entered before rs rs.length s.handed)
      fun s => PartlyEntered before rs rs.length s.handed := by
  have hnone : ∀ s : Handing (ModelRunner Row), s.handed = before →
      PartlyEntered before rs rs.length s.handed :=
    fun s hs => hs ▸ partlyEntered_refl (Int.natCast_nonneg _)
  refine Triple.get_bind fun s hs => ?_
  refine Triple.ofExcept_bind (fun toks htoks => ?_) fun _ he => hnone _ (he ▸ hs)
  refine Triple.ofExcept_bind (fun slots _ => ?_) fun _ he => hnone _ (he ▸ hs)
  have hlen := Exec.length_of_mapM_ok htoks
  refine (hand_quiet ?_ ?_ fun logits => ?_).conseq (fun _ he => he ▸ hs) (fun _ _ h => h)
    fun _ h => h
  · exact List.map_fst_zip hlen.ge
  · rw [tokens_zip hlen, ModelRunner.lastToken_lengths htoks, List.sum_replicate, smul_eq_mul,
      mul_one]
  · exact Exec.Keeps.ofExcept _

/-- What the runner enters, the engine does. -/
theorem onRunner_triple {m : M (ModelRunner Row) α} {e : Engine Row} (hlimit : 0 ≤ limit)
    (h : ∀ c, e.cache = some c → Triple
      (fun s => s.state = ⟨e.scheduler.requests, c⟩ ∧ s.handed = before) m
      (fun _ s => Entered before rs limit s.handed)
      fun s => PartlyEntered before rs limit s.handed) :
    Triple (fun s => s.state = e ∧ s.handed = before) (onRunner m)
      (fun _ s => Entered before rs limit s.handed)
      fun s => PartlyEntered before rs limit s.handed := by
  refine Triple.get_bind fun s hs => ?_
  obtain ⟨rfl, rfl⟩ := hs
  cases hc : s.state.cache with
  | none => exact fun _ he => he ▸ partlyEntered_refl hlimit
  | some c =>
    refine Triple.within ?_
    rintro _ rfl _ rfl
    exact h c hc _ ⟨rfl, rfl⟩

end Handing

end Nifre
