import Mathlib.Order.Monotone.Basic

/-!
# Steps until there is none

A step may be taken as long as there is one. Steps that lower a measure come to an end, and never
lead back to where they have been.
-/

namespace Descent

variable {α : Type} (next : α → Option α)

/-- Where one is after `n` steps, or after as many as there are. -/
def orbit (a : α) : Nat → α
  | 0 => a
  | n + 1 => (next (orbit a n)).getD (orbit a n)

variable {next} {a : α}

theorem orbit_succ {n : Nat} {b : α} (h : next (orbit next a n) = some b) :
    orbit next a (n + 1) = b := by
  rw [orbit, h, Option.getD_some]

/-- One step, and then the others. -/
theorem orbit_next {b : α} (h : next a = some b) : ∀ n, orbit next a (n + 1) = orbit next b n
  | 0 => orbit_succ h
  | n + 1 => by
    rw [orbit, orbit_next h n]
    rfl

/-- **Steps that lower a measure come to an end.** -/
theorem exists_stop (μ : α → Nat) (hlt : ∀ a b, next a = some b → μ b < μ a) (a : α) :
    ∃ n, next (orbit next a n) = none ∧ ∀ i < n, next (orbit next a i) ≠ none := by
  induction hμ : μ a using Nat.strongRecOn generalizing a with
  | ind m ih =>
    cases hnext : next a with
    | none => exact ⟨0, hnext, fun i hi => absurd hi (Nat.not_lt_zero i)⟩
    | some b =>
      obtain ⟨n, hstop, hbefore⟩ := ih (μ b) (hμ ▸ hlt a b hnext) b rfl
      refine ⟨n + 1, by rw [orbit_next hnext]; exact hstop, fun i hi => ?_⟩
      cases i with
      | zero =>
        show next a ≠ none
        rw [hnext]
        exact Option.some_ne_none b
      | succ i =>
        rw [orbit_next hnext]
        exact hbefore i (Nat.lt_of_succ_lt_succ hi)

/-- **As long as there are steps, no place is visited twice.** -/
theorem orbit_injective {μ : α → Nat} (hlt : ∀ a b, next a = some b → μ b < μ a) {n : Nat}
    (hbefore : ∀ i < n, next (orbit next a i) ≠ none) :
    ∀ i ≤ n, ∀ j ≤ n, orbit next a i = orbit next a j → i = j := by
  have hstep : ∀ i < n, μ (orbit next a (i + 1)) < μ (orbit next a i) := by
    intro i hi
    obtain ⟨b, hb⟩ := Option.ne_none_iff_exists'.mp (hbefore i hi)
    rw [orbit_succ hb]
    exact hlt _ _ hb
  -- the measure of a later place is lower
  have hlower : ∀ i d, i + d + 1 ≤ n → μ (orbit next a (i + d + 1)) < μ (orbit next a i) := by
    intro i d
    induction d with
    | zero => exact fun hi => hstep i hi
    | succ d ih => exact fun hi => (hstep _ hi).trans (ih (Nat.le_of_succ_le hi))
  intro i hi j hj heq
  rcases Nat.lt_trichotomy i j with hij | hij | hij
  · obtain ⟨d, rfl⟩ := Nat.exists_eq_add_of_lt hij
    exact absurd (congrArg μ heq) (hlower i d hj).ne'
  · exact hij
  · obtain ⟨d, rfl⟩ := Nat.exists_eq_add_of_lt hij
    exact absurd (congrArg μ heq) (hlower j d hi).ne

end Descent
