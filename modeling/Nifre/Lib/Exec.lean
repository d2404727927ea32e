import Mathlib.Logic.Basic

/-!
# Computations that return or raise and keep their state

`EStateM` keeps the state reached when an exception is raised, which is how a method of a
mutable object behaves: what was assigned before the `raise` stays assigned.

* `after` — the state left behind, on either exit
* `within`, `embed` — a computation on a part of the state
* `Keeps` — an invariant that holds on both exits, with its rules
* `Throws` — which exceptions are raised
* `runAll` — a run of calls, each started from the state the one before it left
* `Along` — what holds at every step of a run
* `replies` — the results of a run in which no call raises, and two systems in lockstep
-/

namespace Exec

variable {ε σ τ α β : Type}

/-- The state a result carries, whether it is a return or a raise. -/
def stateOf : EStateM.Result ε σ α → σ
  | .ok _ s => s
  | .error _ s => s

@[simp] theorem stateOf_ok (a : α) (s : σ) : stateOf (.ok a s : EStateM.Result ε σ α) = s := rfl

@[simp] theorem stateOf_error (e : ε) (s : σ) :
    stateOf (.error e s : EStateM.Result ε σ α) = s := rfl

/-- The state left behind by `m` started in `s`. -/
def after (m : EStateM ε σ α) (s : σ) : σ := stateOf (m.run s)

theorem after_of_ok {m : EStateM ε σ α} {s t : σ} {a : α} (h : m.run s = .ok a t) :
    after m s = t := by
  rw [after, h, stateOf_ok]

theorem after_of_error {m : EStateM ε σ α} {s t : σ} {e : ε} (h : m.run s = .error e t) :
    after m s = t := by
  rw [after, h, stateOf_error]

/-- The computation returned a value. -/
def Returns (m : EStateM ε σ α) (s : σ) : Prop := ∃ a t, m.run s = .ok a t

instance (m : EStateM ε σ α) (s : σ) : Decidable (Returns m s) :=
  match h : m.run s with
  | .ok a t => isTrue ⟨a, t, h⟩
  | .error _ _ => isFalse fun ⟨_, _, hok⟩ => by rw [h] at hok; cases hok

/-- The value a computation returns, if it does. -/
def value? (m : EStateM ε σ α) (s : σ) : Option α :=
  match m.run s with
  | .ok a _ => some a
  | .error _ _ => none

theorem exists_of_value? {m : EStateM ε σ α} {s : σ} {a : α} (h : value? m s = some a) :
    ∃ t, m.run s = .ok a t := by
  unfold value? at h
  split at h
  · next a' t hr =>
    cases h
    exact ⟨t, hr⟩
  · cases h

/-- What a computation ended with, without its state. -/
def outcome : EStateM.Result ε σ α → Except ε α
  | .ok a _ => .ok a
  | .error e _ => .error e

@[simp] theorem outcome_ok (a : α) (s : σ) : outcome (.ok a s : EStateM.Result ε σ α) = .ok a := rfl

@[simp] theorem outcome_error (e : ε) (s : σ) :
    outcome (.error e s : EStateM.Result ε σ α) = .error e := rfl

/-! ## Peeling a sequence apart -/

theorem run_bind_ok {m : EStateM ε σ α} {f : α → EStateM ε σ β} {s t : σ} {a : α}
    (h : m.run s = .ok a t) : (m >>= f).run s = (f a).run t := by
  rw [EStateM.run_bind, h]

theorem run_bind_error {m : EStateM ε σ α} {f : α → EStateM ε σ β} {s t : σ} {e : ε}
    (h : m.run s = .error e t) : (m >>= f).run s = .error e t := by
  rw [EStateM.run_bind, h]

/-- The rest of a computation sees of the first part only what it does. -/
theorem run_bind_congr {m m' : EStateM ε σ α} {s : σ} (h : m.run s = m'.run s)
    (f : α → EStateM ε σ β) : (m >>= f).run s = (m' >>= f).run s := by
  cases hr : m'.run s with
  | ok a t => rw [run_bind_ok hr, run_bind_ok (h.trans hr)]
  | error e t => rw [run_bind_error hr, run_bind_error (h.trans hr)]

theorem run_map_ok {m : EStateM ε σ α} {f : α → β} {s t : σ} {a : α} (h : m.run s = .ok a t) :
    (f <$> m).run s = .ok (f a) t := by
  rw [← bind_pure_comp, run_bind_ok h]
  rfl

/-- `try … finally …` where both parts return. -/
theorem run_tryFinally_ok {m : EStateM ε σ α} {f : EStateM ε σ β} {s t u : σ} {a : α} {b : β}
    (hm : m.run s = .ok a t) (hf : f.run t = .ok b u) : (tryFinally m f).run s = .ok a u := by
  have hboth : (tryFinally' m fun _ => f).run s = .ok (a, b) u := by
    simp only [tryFinally', EStateM.run] at hm hf ⊢
    rw [hm]
    simp only
    rw [hf]
  exact run_map_ok hboth

/-- A sequence that returned: the first part returned, and the rest ran from there. -/
theorem run_bind_eq_ok {m : EStateM ε σ α} {f : α → EStateM ε σ β} {s u : σ} {b : β}
    (h : (m >>= f).run s = .ok b u) : ∃ a t, m.run s = .ok a t ∧ (f a).run t = .ok b u := by
  rw [EStateM.run_bind] at h
  cases hm : m.run s with
  | ok a t => exact ⟨a, t, rfl, by rw [hm] at h; exact h⟩
  | error e t => rw [hm] at h; cases h

/-- A sequence that raised: the first part raised, or it returned and the rest raised. -/
theorem run_bind_eq_error {m : EStateM ε σ α} {f : α → EStateM ε σ β} {s u : σ} {e : ε}
    (h : (m >>= f).run s = .error e u) :
    m.run s = .error e u ∨ ∃ a t, m.run s = .ok a t ∧ (f a).run t = .error e u := by
  rw [EStateM.run_bind] at h
  cases hm : m.run s with
  | ok a t => exact Or.inr ⟨a, t, rfl, by rw [hm] at h; exact h⟩
  | error e' t =>
    rw [hm] at h
    left
    cases h
    rfl

/-! ## A part of the state -/

/-- Run `m` on the part `get s` of the state and put the part back, on either exit. -/
def within (get : σ → τ) (put : τ → σ → σ) (m : EStateM ε τ α) : EStateM ε σ α := fun s =>
  match m.run (get s) with
  | .ok a t => .ok a (put t s)
  | .error e t => .error e (put t s)

theorem run_within_ok {g : σ → τ} {p : τ → σ → σ} {m : EStateM ε τ α} {s : σ} {t : τ} {a : α}
    (h : m.run (g s) = .ok a t) : (within g p m).run s = .ok a (p t s) := by
  show within g p m s = _
  rw [within, h]

theorem run_within_error {g : σ → τ} {p : τ → σ → σ} {m : EStateM ε τ α} {s : σ} {t : τ}
    {e : ε} (h : m.run (g s) = .error e t) :
    (within g p m).run s = .error e (p t s) := by
  show within g p m s = _
  rw [within, h]

theorem after_within (get : σ → τ) (put : τ → σ → σ) (m : EStateM ε τ α) (s : σ) :
    after (within get put m) s = put (after m (get s)) s := by
  unfold after
  cases h : m.run (get s) with
  | ok a t => rw [run_within_ok h, stateOf_ok, stateOf_ok]
  | error e t => rw [run_within_error h, stateOf_error, stateOf_error]

/-- A result over a part of the state, as one over the whole. -/
def embed (put : τ → σ) : EStateM.Result ε τ α → EStateM.Result ε σ α
  | .ok a t => .ok a (put t)
  | .error e t => .error e (put t)

theorem stateOf_embed (put : τ → σ) (r : EStateM.Result ε τ α) :
    stateOf (embed put r) = put (stateOf r) := by
  cases r <;> rfl

/-- Raise the error of a pure computation, or return its value. -/
def ofExcept : Except ε α → EStateM ε σ α
  | .ok a => pure a
  | .error e => throw e

@[simp] theorem ofExcept_ok (a : α) : (ofExcept (.ok a) : EStateM ε σ α) = pure a := rfl

@[simp] theorem ofExcept_error (e : ε) : (ofExcept (.error e) : EStateM ε σ α) = throw e := rfl

/-- A pure computation that returned. -/
theorem ofExcept_eq_ok {x : Except ε α} {s t : σ} {a : α}
    (h : (ofExcept x : EStateM ε σ α).run s = .ok a t) : x = .ok a ∧ t = s := by
  cases x with
  | error e => cases h
  | ok a' =>
    cases h
    exact ⟨rfl, rfl⟩

/-- Two continuations that agree on what was computed. -/
theorem ofExcept_bind_congr {x : Except ε α} {f g : α → EStateM ε σ β}
    (h : ∀ a, x = .ok a → f a = g a) : (ofExcept x >>= f) = (ofExcept x >>= g) := by
  cases x with
  | ok a => exact h a rfl
  | error e => rfl

/-- A pure sequence that returned. -/
theorem bind_eq_ok {m : Except ε α} {f : α → Except ε β} {b : β} (h : (m >>= f) = .ok b) :
    ∃ a, m = .ok a ∧ f a = .ok b := by
  cases m with
  | error e => cases h
  | ok a => exact ⟨a, rfl, h⟩

/-- A pure computation at every element of a list. -/
theorem mapM_ok {f : α → Except ε β} {g : α → β} : ∀ {l : List α}, (∀ a ∈ l, f a = .ok (g a)) →
    l.mapM f = .ok (l.map g)
  | [], _ => rfl
  | a :: l, h => by
    rw [List.mapM_cons, h a List.mem_cons_self,
      mapM_ok fun b hb => h b (List.mem_cons_of_mem a hb)]
    rfl

/-- **One error for all**: where every element gives a value or the same error, one element that
gives the error is enough. -/
theorem mapM_error {f : α → Except ε β} {e : ε} : ∀ {l : List α},
    (∀ a ∈ l, (∃ b, f a = .ok b) ∨ f a = .error e) → (∃ a ∈ l, f a = .error e) →
      l.mapM f = .error e
  | [], _, ⟨_, ha, _⟩ => nomatch ha
  | a :: l, h, hex => by
    rw [List.mapM_cons]
    rcases h a List.mem_cons_self with ⟨b, hb⟩ | herr
    · have hrest : ∃ a' ∈ l, f a' = .error e := by
        obtain ⟨a', ha', he⟩ := hex
        rcases List.mem_cons.mp ha' with rfl | ha'
        · rw [hb] at he
          cases he
        · exact ⟨a', ha', he⟩
      rw [hb, mapM_error (fun a' ha' => h a' (List.mem_cons_of_mem a ha')) hrest]
      rfl
    · rw [herr]
      rfl

/-- Where the results at the elements of a list come from. -/
theorem mem_of_mapM_ok {f : α → Except ε β} : ∀ {l : List α} {bs : List β}, l.mapM f = .ok bs →
    ∀ b ∈ bs, ∃ a ∈ l, f a = .ok b
  | [], _, h, _, hb => by cases h; cases hb
  | a :: l, _, h, b, hb => by
    rw [List.mapM_cons] at h
    obtain ⟨b₁, h₁, h⟩ := bind_eq_ok h
    obtain ⟨bs, hrest, h⟩ := bind_eq_ok h
    cases h
    rcases List.mem_cons.mp hb with rfl | hb
    · exact ⟨a, List.mem_cons_self, h₁⟩
    · obtain ⟨a', ha', he⟩ := mem_of_mapM_ok hrest b hb
      exact ⟨a', List.mem_cons_of_mem a ha', he⟩

/-- Where the results at all elements of a list are there, each of them is. -/
theorem ok_of_mapM_ok {f : α → Except ε β} : ∀ {l : List α} {bs : List β}, l.mapM f = .ok bs →
    ∀ a ∈ l, ∃ b, f a = .ok b
  | [], _, _, _, ha => nomatch ha
  | a :: l, _, h, a', ha' => by
    rw [List.mapM_cons] at h
    obtain ⟨b, hb, h⟩ := bind_eq_ok h
    obtain ⟨bs, hrest, -⟩ := bind_eq_ok h
    rcases List.mem_cons.mp ha' with rfl | ha'
    · exact ⟨b, hb⟩
    · exact ok_of_mapM_ok hrest a' ha'

theorem length_of_mapM_ok {f : α → Except ε β} : ∀ {l : List α} {bs : List β},
    l.mapM f = .ok bs → bs.length = l.length
  | [], _, h => by cases h; rfl
  | a :: l, _, h => by
    rw [List.mapM_cons] at h
    obtain ⟨b, -, h⟩ := bind_eq_ok h
    obtain ⟨bs, hrest, h⟩ := bind_eq_ok h
    cases h
    exact congrArg Nat.succ (length_of_mapM_ok hrest)

/-- Reading at every element of a list. -/
theorem run_mapM_read {f : α → EStateM ε σ β} {g : α → β} {s : σ} : ∀ {l : List α},
    (∀ a ∈ l, (f a).run s = .ok (g a) s) → (l.mapM f).run s = .ok (l.map g) s
  | [], _ => rfl
  | a :: l, h => by
    rw [List.mapM_cons, run_bind_ok (h a List.mem_cons_self),
      run_bind_ok (run_mapM_read fun b hb => h b (List.mem_cons_of_mem a hb))]
    rfl

/-! ## Invariants on both exits -/

/-- `m` leaves `I` true however it ends. -/
def Keeps (I : σ → Prop) (m : EStateM ε σ α) : Prop := ∀ s, I s → I (after m s)

theorem Keeps.pure {I : σ → Prop} (a : α) : Keeps I (Pure.pure a : EStateM ε σ α) :=
  fun _ h => h

theorem Keeps.throw {I : σ → Prop} (e : ε) : Keeps I (throw e : EStateM ε σ α) :=
  fun _ h => h

theorem Keeps.get {I : σ → Prop} : Keeps I (MonadState.get : EStateM ε σ σ) :=
  fun _ h => h

theorem Keeps.modify {I : σ → Prop} {f : σ → σ} (h : ∀ s, I s → I (f s)) :
    Keeps I (modify f : EStateM ε σ PUnit) :=
  fun s hs => h s hs

theorem after_bind (m : EStateM ε σ α) (f : α → EStateM ε σ β) (s : σ) :
    after (m >>= f) s = match m.run s with
      | .ok a t => after (f a) t
      | .error _ t => t := by
  unfold after
  rw [EStateM.run_bind]
  cases m.run s <;> rfl

/-- What is returned at the end does not matter. -/
theorem after_returned (m : EStateM ε σ α) (b : β) (s : σ) :
    after (m >>= fun _ => Pure.pure b) s = after m s := by
  rw [after_bind, after]
  cases m.run s <;> rfl

/-- A call whose result is dropped. -/
theorem after_dropped (m : EStateM ε σ α) (s : σ) : after (do let _ ← m) s = after m s :=
  after_returned m () s

theorem Keeps.bind {I : σ → Prop} {m : EStateM ε σ α} {f : α → EStateM ε σ β}
    (hm : Keeps I m) (hf : ∀ a, Keeps I (f a)) : Keeps I (m >>= f) := by
  intro s hs
  have h1 := hm s hs
  rw [after_bind]
  unfold after at h1
  cases hr : m.run s with
  | ok a t => rw [hr] at h1; exact hf a t h1
  | error e t => rw [hr] at h1; exact h1

/-- As `Keeps.bind`, from one state. -/
theorem Keeps.bind_at {I : σ → Prop} {m : EStateM ε σ α} {f : α → EStateM ε σ β} {s : σ}
    (hm : I (after m s)) (hf : ∀ a, Keeps I (f a)) : I (after (m >>= f) s) := by
  rw [after_bind]
  cases hr : m.run s with
  | ok a t => exact hf a t (after_of_ok hr ▸ hm)
  | error e t => exact after_of_error hr ▸ hm

/-- The continuation may use what the state looked like when it was read. -/
theorem Keeps.get_bind {I : σ → Prop} {f : σ → EStateM ε σ β}
    (h : ∀ s, I s → I (after (f s) s)) : Keeps I (MonadState.get >>= f) :=
  fun s hs => h s hs

/-- The continuation may use what was computed. -/
theorem Keeps.ofExcept_bind {I : σ → Prop} {x : Except ε α} {f : α → EStateM ε σ β}
    (h : ∀ a, x = .ok a → Keeps I (f a)) : Keeps I (ofExcept x >>= f) := by
  cases x with
  | ok a => exact h a rfl
  | error e => exact fun _ hs => hs

theorem Keeps.ofExcept {I : σ → Prop} (x : Except ε α) : Keeps I (ofExcept x : EStateM ε σ α) := by
  cases x <;> exact fun _ hs => hs

theorem Keeps.ite {I : σ → Prop} {c : Prop} [Decidable c] {m m' : EStateM ε σ α}
    (h : c → Keeps I m) (h' : ¬c → Keeps I m') : Keeps I (if c then m else m') := by
  by_cases hc : c
  · rw [if_pos hc]; exact h hc
  · rw [if_neg hc]; exact h' hc

theorem Keeps.forM {I : σ → Prop} {f : α → EStateM ε σ PUnit} :
    ∀ (l : List α), (∀ a ∈ l, Keeps I (f a)) → Keeps I (forM l f)
  | [], _ => Keeps.pure _
  | a :: l, h => by
    rw [List.forM_cons]
    exact Keeps.bind (h a List.mem_cons_self)
      fun _ => Keeps.forM l fun b hb => h b (List.mem_cons_of_mem a hb)

theorem Keeps.mapM {I : σ → Prop} {f : α → EStateM ε σ β} :
    ∀ (l : List α), (∀ a ∈ l, Keeps I (f a)) → Keeps I (l.mapM f)
  | [], _ => Keeps.pure _
  | a :: l, h => by
    rw [List.mapM_cons]
    exact Keeps.bind (h a List.mem_cons_self) fun _ =>
      Keeps.bind (Keeps.mapM l fun b hb => h b (List.mem_cons_of_mem a hb)) fun _ => Keeps.pure _

theorem Keeps.within {I : σ → Prop} {get : σ → τ} {put : τ → σ → σ} {m : EStateM ε τ α}
    (h : ∀ s, I s → I (put (after m (get s)) s)) : Keeps I (within get put m) := by
  intro s hs
  rw [after_within]
  exact h s hs

/-! ## What is raised -/

/-- Every exception that `m` raises is a `P`. -/
def Throws (P : ε → Prop) (m : EStateM ε σ α) : Prop := ∀ s e t, m.run s = .error e t → P e

theorem Throws.pure {P : ε → Prop} (a : α) : Throws P (Pure.pure a : EStateM ε σ α) :=
  fun _ _ _ h => by cases h

theorem Throws.throw {P : ε → Prop} {e : ε} (h : P e) :
    Throws P (throw e : EStateM ε σ α) :=
  fun _ _ _ ht => by cases ht; exact h

theorem Throws.modify {P : ε → Prop} (f : σ → σ) : Throws P (modify f : EStateM ε σ PUnit) :=
  fun _ _ _ h => by cases h

theorem Throws.bind {P : ε → Prop} {m : EStateM ε σ α} {f : α → EStateM ε σ β}
    (hm : Throws P m) (hf : ∀ a, Throws P (f a)) : Throws P (m >>= f) := by
  intro s e u h
  rcases run_bind_eq_error h with h | ⟨a, t, -, h⟩
  · exact hm s e u h
  · exact hf a t e u h

theorem Throws.get_bind {P : ε → Prop} {f : σ → EStateM ε σ β} (h : ∀ s, Throws P (f s)) :
    Throws P (MonadState.get >>= f) :=
  Throws.bind (fun _ _ _ h => by cases h) h

theorem Throws.ofExcept {P : ε → Prop} {x : Except ε α} (h : ∀ e, x = .error e → P e) :
    Throws P (ofExcept x : EStateM ε σ α) := by
  cases x with
  | ok a => exact Throws.pure a
  | error e => exact Throws.throw (h e rfl)

theorem Throws.ite {P : ε → Prop} {c : Prop} [Decidable c] {m m' : EStateM ε σ α}
    (h : Throws P m) (h' : Throws P m') : Throws P (if c then m else m') := by
  by_cases hc : c
  · rw [if_pos hc]; exact h
  · rw [if_neg hc]; exact h'

theorem Throws.within {P : ε → Prop} {get : σ → τ} {put : τ → σ → σ} {m : EStateM ε τ α}
    (h : Throws P m) : Throws P (within get put m) := by
  intro s e t ht
  cases hr : m.run (get s) with
  | ok a u =>
    rw [run_within_ok hr] at ht
    cases ht
  | error e' u =>
    rw [run_within_error hr] at ht
    cases ht
    exact h _ _ _ hr

/-! ## All or nothing -/

/-- `m` keeps `I` from the state `s` on, and leaves `s` alone when it raises exactly if `whole`.
When it returns, `whole` holds. -/
def WholeIff (I : σ → Prop) (whole : Prop) (m : EStateM ε σ α) (s : σ) : Prop :=
  match m.run s with
  | .ok _ s' => whole ∧ I s'
  | .error _ s' => (s' = s ↔ whole) ∧ I s'

theorem WholeIff.of_ok {I : σ → Prop} {whole : Prop} {m : EStateM ε σ α} {s s' : σ} {a : α}
    (h : m.run s = .ok a s') (hw : whole) (hI : I s') : WholeIff I whole m s := by
  unfold WholeIff
  rw [h]
  exact ⟨hw, hI⟩

theorem WholeIff.of_error {I : σ → Prop} {whole : Prop} {m : EStateM ε σ α} {s s' : σ} {e : ε}
    (h : m.run s = .error e s') (hw : s' = s ↔ whole) (hI : I s') : WholeIff I whole m s := by
  unfold WholeIff
  rw [h]
  exact ⟨hw, hI⟩

/-- What the word says: an error leaves the state alone. -/
theorem WholeIff.iff {I : σ → Prop} {whole : Prop} {m : EStateM ε σ α} {s : σ}
    (h : WholeIff I whole m s) : (∀ e s', m.run s = .error e s' → s' = s) ↔ whole := by
  unfold WholeIff at h
  cases hr : m.run s with
  | ok a s' =>
    rw [hr] at h
    exact iff_of_true (fun _ _ he => nomatch he) h.1
  | error e s' =>
    rw [hr] at h
    refine Iff.trans ⟨fun hall => hall e s' rfl, ?_⟩ h.1
    rintro hs e₂ s₂ ⟨⟩
    exact hs

theorem WholeIff.after {I : σ → Prop} {whole : Prop} {m : EStateM ε σ α} {s : σ}
    (h : WholeIff I whole m s) : I (after m s) := by
  unfold WholeIff at h
  cases hr : m.run s with
  | ok a s' =>
    rw [hr] at h
    rw [after_of_ok hr]
    exact h.2
  | error e s' =>
    rw [hr] at h
    rw [after_of_error hr]
    exact h.2

/-- On a part of the state: the part that was put back is there, and nothing else has changed. -/
theorem WholeIff.within {I : σ → Prop} {J : τ → Prop} {whole : Prop} {get : σ → τ}
    {put : τ → σ → σ} {m : EStateM ε τ α} {s : σ} (hput : put (get s) s = s)
    (hget : ∀ t, get (put t s) = t) (hI : ∀ t, J t → I (put t s)) (h : WholeIff J whole m (get s)) :
    WholeIff I whole (within get put m) s := by
  unfold WholeIff at h
  cases hr : m.run (get s) with
  | ok a t =>
    rw [hr] at h
    exact .of_ok (run_within_ok hr) h.1 (hI t h.2)
  | error e t =>
    rw [hr] at h
    refine .of_error (run_within_error hr) (Iff.trans ⟨fun hs => ?_, ?_⟩ h.1) (hI t h.2)
    · rw [← hget t, hs]
    · rintro rfl
      exact hput

/-- What follows without raising changes nothing about it. -/
theorem WholeIff.bind {I J : σ → Prop} {whole : Prop} {m : EStateM ε σ α} {f : α → EStateM ε σ β}
    {s : σ} (h : WholeIff J whole m s)
    (hf : ∀ a s', J s' → ∃ b s'', (f a).run s' = .ok b s'' ∧ I s'') (hJ : ∀ s', J s' → I s') :
    WholeIff I whole (m >>= f) s := by
  unfold WholeIff at h
  cases hr : m.run s with
  | ok a s' =>
    rw [hr] at h
    obtain ⟨b, s'', hb, hI⟩ := hf a s' h.2
    exact .of_ok (by rw [run_bind_ok hr]; exact hb) h.1 hI
  | error e s' =>
    rw [hr] at h
    exact .of_error (run_bind_error hr) h.1 (hJ s' h.2)

/-! ## Runs of calls -/

/-- The state after a run of calls. A call that raises does not end the run. -/
def runAll {op : Type} (call : op → EStateM ε σ α) (ops : List op) (s : σ) : σ :=
  ops.foldl (fun s o => after (call o) s) s

@[simp] theorem runAll_nil {op : Type} (call : op → EStateM ε σ α) (s : σ) :
    runAll call [] s = s := rfl

@[simp] theorem runAll_cons {op : Type} (call : op → EStateM ε σ α) (o : op) (ops : List op)
    (s : σ) : runAll call (o :: ops) s = runAll call ops (after (call o) s) := rfl

/-- What every call of a run keeps holds after the run. -/
theorem runAll_keeps {op : Type} {call : op → EStateM ε σ α} {I : σ → Prop} {ops : List op} {s : σ}
    (h : ∀ o ∈ ops, Keeps I (call o)) (hs : I s) : I (runAll call ops s) := by
  induction ops generalizing s with
  | nil => exact hs
  | cons o ops ih =>
    exact ih (fun o' ho => h o' (List.mem_cons_of_mem o ho)) (h o List.mem_cons_self s hs)

/-! ## Along a run -/

section

variable {op spec : Type}

/-- `P` holds of every operation of a run, in the state where it is issued. -/
def Along (P : spec → op → Prop) (next : spec → op → spec) : spec → List op → Prop
  | _, [] => True
  | a, o :: ops => P a o ∧ Along P next (next a o) ops

instance Along.decidable (P : spec → op → Prop) [∀ a o, Decidable (P a o)]
    (next : spec → op → spec) : ∀ (a : spec) (ops : List op), Decidable (Along P next a ops)
  | _, [] => inferInstanceAs (Decidable True)
  | a, o :: ops =>
    have := Along.decidable P next (next a o) ops
    inferInstanceAs (Decidable (_ ∧ _))

variable {P Q : spec → op → Prop} {next : spec → op → spec} {J : spec → Prop}

/-- **An invariant that legal steps keep** gives what it implies at every step of a legal run. -/
theorem Along.of_invariant (hstep : ∀ a o, J a → P a o → Q a o ∧ J (next a o)) {ops : List op}
    {a : spec} (ha : J a) (h : Along P next a ops) : Along Q next a ops := by
  induction ops generalizing a with
  | nil => trivial
  | cons o ops ih =>
    obtain ⟨hp, hrest⟩ := h
    obtain ⟨hq, hj⟩ := hstep a o ha hp
    exact ⟨hq, ih hj hrest⟩

/-- Two conditions along one run. -/
theorem Along.and {ops : List op} {a : spec} (h : Along P next a ops) (h' : Along Q next a ops) :
    Along (fun a o => P a o ∧ Q a o) next a ops := by
  induction ops generalizing a with
  | nil => trivial
  | cons o ops ih => exact ⟨⟨h.1, h'.1⟩, ih h.2 h'.2⟩

/-- What holds of the operations themselves may be added to what holds along the run. -/
theorem Along.and_mem {R : op → Prop} {ops : List op} {a : spec} (h : Along P next a ops)
    (hR : ∀ o ∈ ops, R o) : Along (fun a o => P a o ∧ R o) next a ops := by
  induction ops generalizing a with
  | nil => trivial
  | cons o ops ih =>
    exact ⟨⟨h.1, hR o List.mem_cons_self⟩, ih h.2 fun o' ho => hR o' (List.mem_cons_of_mem o ho)⟩

/-- What holds of the operations themselves holds along the run. -/
theorem along_of_forall {R : op → Prop} {ops : List op} {a : spec} (hR : ∀ o ∈ ops, R o) :
    Along (fun _ o => R o) next a ops := by
  induction ops generalizing a with
  | nil => trivial
  | cons o ops ih =>
    exact ⟨hR o List.mem_cons_self, ih fun o' ho => hR o' (List.mem_cons_of_mem o ho)⟩

/-- The invariant holds after a legal run. -/
theorem Along.foldl (hstep : ∀ a o, J a → P a o → J (next a o)) {ops : List op} {a : spec}
    (ha : J a) (h : Along P next a ops) : J (ops.foldl next a) := by
  induction ops generalizing a with
  | nil => exact ha
  | cons o ops ih => exact ih (hstep a o ha h.1) h.2

/-- **A goal is reached by repeating one operation**, if the operation keeps the invariant and
lowers a measure until the goal holds. -/
theorem exists_replicate_of_measure {G : spec → Prop} {o : op} (μ : spec → Nat)
    (hstep : ∀ a, J a → G a ∨ (J (next a o) ∧ μ (next a o) < μ a)) {a : spec} (ha : J a) :
    ∃ n, J ((List.replicate n o).foldl next a) ∧ G ((List.replicate n o).foldl next a) := by
  induction hμ : μ a using Nat.strongRecOn generalizing a with
  | ind m ih =>
    rcases hstep a ha with hgoal | ⟨hnext, hlt⟩
    · exact ⟨0, ha, hgoal⟩
    · obtain ⟨n, hn⟩ := ih _ (hμ ▸ hlt) hnext rfl
      exact ⟨n + 1, hn⟩

theorem along_append {ops ops' : List op} {a : spec} :
    Along P next a (ops ++ ops') ↔ Along P next a ops ∧ Along P next (ops.foldl next a) ops' := by
  induction ops generalizing a with
  | nil => exact (iff_of_eq (true_and _)).symm
  | cons o ops ih => exact (and_congr_right fun _ => ih).trans and_assoc.symm

/-- Two properties that agree where an invariant holds agree along a run. -/
theorem along_congr (hstep : ∀ a o, J a → (P a o ↔ Q a o) ∧ J (next a o)) {ops : List op}
    {a : spec} (ha : J a) : Along P next a ops ↔ Along Q next a ops := by
  induction ops generalizing a with
  | nil => exact Iff.rfl
  | cons o ops ih => exact and_congr (hstep a o ha).1 (ih (hstep a o ha).2)

/-- As `along_congr` along a legal run, where the second property is what keeps the invariant. -/
theorem Along.congr {L : spec → op → Prop}
    (hstep : ∀ a o, J a → L a o → (P a o ↔ Q a o) ∧ (Q a o → J (next a o))) {ops : List op}
    {a : spec} (ha : J a) (h : Along L next a ops) : Along P next a ops ↔ Along Q next a ops := by
  induction ops generalizing a with
  | nil => exact Iff.rfl
  | cons o ops ih =>
    obtain ⟨hiff, hnext⟩ := hstep a o ha h.1
    show P a o ∧ _ ↔ Q a o ∧ _
    rw [hiff]
    exact and_congr_right fun hq => ih (hnext hq) h.2

end

/-! ## Replies of a run -/

/-- The results of a run of calls; a call that raises ends it. -/
def replies {op : Type} (call : op → EStateM ε σ α) : List op → EStateM ε σ (List α)
  | [] => pure []
  | o :: ops => do
    let r ← call o
    let rs ← replies call ops
    pure (r :: rs)

theorem replies_cons_ok {op : Type} {call : op → EStateM ε σ α} {o : op} {ops : List op}
    {s t u : σ} {r : α} {rs : List α} (h : (call o).run s = .ok r t)
    (hrest : (replies call ops).run t = .ok rs u) :
    (replies call (o :: ops)).run s = .ok (r :: rs) u := by
  rw [replies, run_bind_ok h, run_bind_ok hrest]
  rfl

/-- **Two systems in lockstep with one specification**: if every legal call goes through in both
with the same result, then so does every legal run. -/
theorem replies_lockstep {op spec : Type} {call : op → EStateM ε σ α} {call' : op → EStateM ε τ α}
    {legal : spec → op → Prop} {next : spec → op → spec} {R : spec → σ → τ → Prop}
    (hstep : ∀ a s t o, R a s t → legal a o → ∃ r s' t', (call o).run s = .ok r s' ∧
      (call' o).run t = .ok r t' ∧ R (next a o) s' t')
    {ops : List op} {a : spec} {s : σ} {t : τ} (h : R a s t) (hlegal : Along legal next a ops) :
    ∃ rs s' t', (replies call ops).run s = .ok rs s' ∧ (replies call' ops).run t = .ok rs t' ∧
      R (ops.foldl next a) s' t' := by
  induction ops generalizing a s t with
  | nil => exact ⟨[], s, t, rfl, rfl, h⟩
  | cons o ops ih =>
    obtain ⟨hl, hrest⟩ := hlegal
    obtain ⟨r, s₁, t₁, hs, ht, hR⟩ := hstep a s t o h hl
    obtain ⟨rs, s₂, t₂, hs', ht', hR'⟩ := ih hR hrest
    exact ⟨r :: rs, s₂, t₂, replies_cons_ok hs hs', replies_cons_ok ht ht', hR'⟩

end Exec
