import Nifre.Lib.Exec

/-!
# Ghost state

A computation may keep book on the side. What it does to the part of the state that is not book
keeping is what the computation without the books does.
-/

namespace Exec

variable {ε σ τ α β : Type}

/-- On the part `view` of the state, `m` does what `m'` does. -/
def Shadows (view : σ → τ) (m : EStateM ε σ α) (m' : EStateM ε τ α) : Prop :=
  ∀ s, embed view (m.run s) = m'.run (view s)

variable {view : σ → τ} {m : EStateM ε σ α} {m' : EStateM ε τ α}

theorem Shadows.after (h : Shadows view m m') (s : σ) :
    view (after m s) = Exec.after m' (view s) := by
  rw [Exec.after, Exec.after, ← h s, stateOf_embed]

theorem Shadows.pure (a : α) :
    Shadows view (Pure.pure a : EStateM ε σ α) (Pure.pure a : EStateM ε τ α) :=
  fun _ => rfl

theorem Shadows.ofExcept (x : Except ε α) :
    Shadows view (Exec.ofExcept x : EStateM ε σ α) (Exec.ofExcept x : EStateM ε τ α) := by
  cases x with
  | ok a => exact fun _ => rfl
  | error e => exact fun _ => rfl

theorem Shadows.bind {f : α → EStateM ε σ β} {f' : α → EStateM ε τ β} (h : Shadows view m m')
    (hf : ∀ a, Shadows view (f a) (f' a)) : Shadows view (m >>= f) (m' >>= f') := by
  intro s
  have hm := h s
  cases hr : m.run s with
  | ok a t =>
    rw [hr] at hm
    rw [run_bind_ok hr, run_bind_ok hm.symm]
    exact hf a t
  | error e t =>
    rw [hr] at hm
    rw [run_bind_error hr, run_bind_error hm.symm]
    rfl

theorem Shadows.get_bind {f : σ → EStateM ε σ β} {f' : τ → EStateM ε τ β}
    (h : ∀ s, Shadows view (f s) (f' (view s))) :
    Shadows view (MonadState.get >>= f) (MonadState.get >>= f') := by
  intro s
  rw [run_bind_ok (EStateM.run_get s), run_bind_ok (EStateM.run_get (view s))]
  exact h s s

/-- The state is read for the books only. -/
theorem Shadows.read_bind {f : σ → EStateM ε σ β} {m' : EStateM ε τ β}
    (h : ∀ s, Shadows view (f s) m') : Shadows view (MonadState.get >>= f) m' := by
  intro s
  rw [run_bind_ok (EStateM.run_get s)]
  exact h s s

/-- An entry in the books. -/
theorem Shadows.modify_bind {f : σ → σ} {m : PUnit → EStateM ε σ β} {m' : EStateM ε τ β}
    (hf : ∀ s, view (f s) = view s) (h : Shadows view (m ⟨⟩) m') :
    Shadows view (modify f >>= m) m' := by
  intro s
  rw [run_bind_ok (EStateM.run_modify f s), h (f s), hf s]

/-- Work on the part itself. -/
theorem Shadows.within {put : τ → σ → σ} (h : ∀ t s, view (put t s) = t) (m : EStateM ε τ α) :
    Shadows view (within view put m) m := by
  intro s
  cases hr : m.run (view s) with
  | ok a t =>
    rw [run_within_ok hr]
    exact congrArg (EStateM.Result.ok a) (h t s)
  | error e t =>
    rw [run_within_error hr]
    exact congrArg (EStateM.Result.error e) (h t s)

/-- Work on a part of both states. -/
theorem Shadows.within_part {σ' τ' : Type} {part : σ' → τ'} {m : EStateM ε σ' α}
    {m' : EStateM ε τ' α} {get : σ → σ'} {put : σ' → σ → σ} {get' : τ → τ'} {put' : τ' → τ → τ}
    (h : Shadows part m m') (hget : ∀ s, part (get s) = get' (view s))
    (hput : ∀ t s, view (put t s) = put' (part t) (view s)) :
    Shadows view (Exec.within get put m) (Exec.within get' put' m') := by
  intro s
  have hm := h (get s)
  rw [hget] at hm
  cases hr : m.run (get s) with
  | ok a t =>
    rw [hr] at hm
    rw [run_within_ok hr, run_within_ok hm.symm]
    exact congrArg (EStateM.Result.ok a) (hput t s)
  | error e t =>
    rw [hr] at hm
    rw [run_within_error hr, run_within_error hm.symm]
    exact congrArg (EStateM.Result.error e) (hput t s)

theorem Shadows.ite {c : Prop} [Decidable c] {n : EStateM ε σ α} {n' : EStateM ε τ α}
    (h : Shadows view m m') (hn : Shadows view n n') :
    Shadows view (if c then m else n) (if c then m' else n') := by
  split
  · exact h
  · exact hn

theorem Shadows.forM {f : α → EStateM ε σ PUnit} {f' : α → EStateM ε τ PUnit} :
    ∀ l : List α, (∀ a ∈ l, Shadows view (f a) (f' a)) →
      Shadows view (ForM.forM l f : EStateM ε σ PUnit) (ForM.forM l f' : EStateM ε τ PUnit)
  | [], _ => Shadows.pure _
  | a :: l, h => by
    rw [List.forM_cons, List.forM_cons]
    exact (h a List.mem_cons_self).bind fun _ =>
      Shadows.forM l fun b hb => h b (List.mem_cons_of_mem a hb)

end Exec
