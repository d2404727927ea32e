import Nifre.Lib.Exec

/-!
# Pre- and postconditions on both exits

* `Triple P m Q E` — from a state with `P`, `m` returns with `Q` or raises with `E`
* its rules for sequences, branches, reads, writes and loops
* `Keeps` is the case where all three conditions are one invariant
-/

namespace Exec

variable {ε σ τ α β : Type}

/-- From a state with `P`, the computation returns with `Q` or raises with `E`. -/
def Triple (P : σ → Prop) (m : EStateM ε σ α) (Q : α → σ → Prop) (E : σ → Prop) : Prop :=
  ∀ s, P s → match m.run s with
    | .ok a t => Q a t
    | .error _ t => E t

variable {P P' : σ → Prop} {Q Q' : α → σ → Prop} {E E' I : σ → Prop} {m m' : EStateM ε σ α}

theorem Triple.of_ok (h : Triple P m Q E) {s t : σ} {a : α} (hs : P s) (hr : m.run s = .ok a t) :
    Q a t := by
  have := h s hs
  rwa [hr] at this

/-- A triple whose postconditions agree says what is left on either exit. -/
theorem Triple.after (h : Triple P m (fun _ => I) I) {s : σ} (hs : P s) : I (after m s) := by
  have := h s hs
  unfold Exec.after
  cases hr : m.run s with
  | ok a t => rwa [hr] at this
  | error e t => rwa [hr] at this

theorem keeps_iff_triple : Keeps I m ↔ Triple I m (fun _ => I) I := by
  constructor
  · intro h s hs
    have := h s hs
    unfold Exec.after at this
    cases hr : m.run s with
    | ok a t => rwa [hr] at this
    | error e t => rwa [hr] at this
  · exact fun h s hs => h.after hs

theorem Keeps.triple (h : Keeps I m) : Triple I m (fun _ => I) I := keeps_iff_triple.mp h

/-! ## Rules -/

theorem Triple.conseq (h : Triple P m Q E) (hP : ∀ s, P' s → P s) (hQ : ∀ a t, Q a t → Q' a t)
    (hE : ∀ t, E t → E' t) : Triple P' m Q' E' := by
  intro s hs
  have := h s (hP s hs)
  cases hr : m.run s with
  | ok a t => rw [hr] at this; exact hQ a t this
  | error e t => rw [hr] at this; exact hE t this

/-- From one state that meets the precondition. -/
theorem Triple.of_state (h : Triple P m Q E) {s : σ} (hs : P s) : Triple (· = s) m Q E := by
  rintro _ rfl
  exact h _ hs

theorem Triple.bind {R : α → σ → Prop} {Q : β → σ → Prop} {f : α → EStateM ε σ β}
    (hm : Triple P m R E) (hf : ∀ a, Triple (R a) (f a) Q E) : Triple P (m >>= f) Q E := by
  intro s hs
  have h := hm s hs
  rw [EStateM.run_bind]
  cases hr : m.run s with
  | ok a t => rw [hr] at h; exact hf a t h
  | error e t => rw [hr] at h; exact h

theorem Triple.and (h : Triple P m Q E) (h' : Triple P' m Q' E') :
    Triple (fun s => P s ∧ P' s) m (fun a t => Q a t ∧ Q' a t) fun t => E t ∧ E' t := by
  intro s hs
  have h₁ := h s hs.1
  have h₂ := h' s hs.2
  cases hr : m.run s with
  | ok a t => rw [hr] at h₁ h₂; exact ⟨h₁, h₂⟩
  | error e t => rw [hr] at h₁ h₂; exact ⟨h₁, h₂⟩

theorem Triple.pure (a : α) (h : ∀ s, P s → Q a s) :
    Triple P (Pure.pure a : EStateM ε σ α) Q E :=
  fun s hs => h s hs

theorem Triple.throw (e : ε) (h : ∀ s, P s → E s) :
    Triple P (throw e : EStateM ε σ α) Q E :=
  fun s hs => h s hs

theorem Triple.modify {Q : PUnit → σ → Prop} {f : σ → σ} (h : ∀ s, P s → Q ⟨⟩ (f s)) :
    Triple P (modify f : EStateM ε σ PUnit) Q E :=
  fun s hs => h s hs

/-- The rest of the computation may use the state that was read. -/
theorem Triple.get_bind {Q : β → σ → Prop} {f : σ → EStateM ε σ β}
    (h : ∀ s, P s → Triple (· = s) (f s) Q E) : Triple P (MonadState.get >>= f) Q E :=
  fun s hs => h s hs s rfl

/-- The rest of the computation may use what was computed. -/
theorem Triple.ofExcept_bind {Q : β → σ → Prop} {x : Except ε α} {f : α → EStateM ε σ β}
    (h : ∀ a, x = .ok a → Triple P (f a) Q E) (hE : ∀ s, P s → E s) :
    Triple P (ofExcept x >>= f) Q E := by
  cases x with
  | ok a => exact h a rfl
  | error e => exact fun s hs => hE s hs

theorem Triple.ofExcept {x : Except ε α} (h : ∀ a, x = .ok a → ∀ s, P s → Q a s)
    (hE : ∀ s, P s → E s) : Triple P (ofExcept x : EStateM ε σ α) Q E := by
  cases x with
  | ok a => exact fun s hs => h a rfl s hs
  | error e => exact fun s hs => hE s hs

theorem Triple.ite {c : Prop} [Decidable c] (h : c → Triple P m Q E) (h' : ¬c → Triple P m' Q E) :
    Triple P (if c then m else m') Q E := by
  by_cases hc : c
  · rw [if_pos hc]; exact h hc
  · rw [if_neg hc]; exact h' hc

theorem Triple.within {get : σ → τ} {put : τ → σ → σ} {m : EStateM ε τ α}
    {Q : α → σ → Prop} (h : ∀ s, P s → Triple (· = get s) m (fun a t => Q a (put t s))
      fun t => E (put t s)) : Triple P (within get put m) Q E := by
  intro s hs
  have := h s hs (get s) rfl
  cases hr : m.run (get s) with
  | ok a t => rw [hr] at this; rw [run_within_ok hr]; exact this
  | error e t => rw [hr] at this; rw [run_within_error hr]; exact this

/-! ## Loops -/

/-- **What one round establishes and every round keeps** holds after the loop. -/
theorem Triple.forM_mem {J : σ → Prop} {f : α → EStateM ε σ PUnit} {a : α} {l : List α}
    (hI : ∀ b ∈ l, Keeps I (f b)) (hJ : ∀ b ∈ l, Keeps J (f b)) (ha : a ∈ l)
    (hstep : Triple I (f a) (fun _ => J) fun _ => True) :
    Triple I (forM l f) (fun _ => J) fun _ => True := by
  induction l with
  | nil => cases ha
  | cons b l ih =>
    rw [List.forM_cons]
    have hrest : ∀ c ∈ l, Keeps J (f c) := fun c hc => hJ c (List.mem_cons_of_mem b hc)
    rcases List.mem_cons.mp ha with rfl | hmem
    · exact hstep.bind fun _ => (Keeps.forM l hrest).triple.conseq (fun _ h => h) (fun _ _ h => h)
        fun _ _ => trivial
    · exact ((hI b List.mem_cons_self).triple.conseq (fun _ h => h) (fun _ _ h => h)
        fun _ _ => trivial).bind fun _ =>
          ih (fun c hc => hI c (List.mem_cons_of_mem b hc)) hrest hmem

/-- What every round keeps, and what every result of a round is. -/
theorem Triple.mapM {f : α → EStateM ε σ β} {R : β → Prop} : ∀ {l : List α},
    (∀ a ∈ l, Triple I (f a) (fun b s => R b ∧ I s) I) →
    Triple I (l.mapM f) (fun bs s => bs.length = l.length ∧ (∀ b ∈ bs, R b) ∧ I s) I
  | [], _ => .pure _ fun _ hs => ⟨rfl, nofun, hs⟩
  | a :: l, h => by
    rw [List.mapM_cons]
    refine Triple.bind (h a List.mem_cons_self) fun b => ?_
    rintro s ⟨hb, hs⟩
    exact Triple.bind (Triple.mapM fun a' ha' => h a' (List.mem_cons_of_mem a ha'))
      (fun bs => .pure _ fun t ht =>
        ⟨congrArg Nat.succ ht.1, List.forall_mem_cons.mpr ⟨hb, ht.2.1⟩, ht.2.2⟩) s hs

end Exec
