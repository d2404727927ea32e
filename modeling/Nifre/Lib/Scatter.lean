import Mathlib.Data.List.Basic
import Mathlib.Logic.Function.Basic

/-!
# Scattering a sequence into a memory

A sequence is stored in a memory through an address map: position `p` of the sequence lives
at `addr p`. Writing a run of positions touches those addresses only, and reads back what was
written as long as the map separates the positions of the run.
-/

namespace Scatter

variable {A V : Type} [DecidableEq A]

/-- Store `vs` at the positions `p, p+1, ..` of the sequence. -/
def scatter (addr : Nat → A) : Nat → List V → (A → V) → A → V
  | _, [], mem => mem
  | p, v :: vs, mem => scatter addr (p + 1) vs (Function.update mem (addr p) v)

/-- The values at positions `0 .. n-1` of the sequence. -/
def gather (addr : Nat → A) (n : Nat) (mem : A → V) : List V := (List.range n).map (mem <| addr ·)

variable {addr : Nat → A}

/-- **Addresses outside the run keep their value.** -/
theorem scatter_of_ne {a : A} : ∀ {p : Nat} {vs : List V} {mem : A → V},
    (∀ j < vs.length, addr (p + j) ≠ a) → scatter addr p vs mem a = mem a
  | _, [], _, _ => rfl
  | p, v :: vs, mem, h => by
    have hrest : ∀ j < vs.length, addr (p + 1 + j) ≠ a := fun j hj => by
      have := h (j + 1) (Nat.succ_lt_succ hj)
      rwa [Nat.add_assoc, Nat.add_comm 1 j]
    have hhead : a ≠ addr p := Ne.symm (h 0 (Nat.zero_lt_succ _))
    rw [scatter, scatter_of_ne hrest, Function.update_of_ne hhead]

/-- **A written position reads back**, when the positions of the run have distinct addresses. -/
theorem scatter_addr : ∀ {p : Nat} {vs : List V} {mem : A → V} {j : Nat} (hj : j < vs.length),
    (∀ i < vs.length, ∀ i' < vs.length, addr (p + i) = addr (p + i') → i = i') →
    scatter addr p vs mem (addr (p + j)) = vs[j]
  | p, v :: vs, mem, 0, _, hinj => by
    have hne : ∀ i < vs.length, addr (p + 1 + i) ≠ addr (p + 0) := by
      intro i hi he
      have := hinj (i + 1) (Nat.succ_lt_succ hi) 0 (Nat.zero_lt_succ _)
        (by rw [← he, Nat.add_assoc, Nat.add_comm 1 i])
      omega
    rw [scatter, scatter_of_ne hne, Nat.add_zero, Function.update_self]
    rfl
  | p, v :: vs, mem, j + 1, hj, hinj => by
    have hinj' : ∀ i < vs.length, ∀ i' < vs.length,
        addr (p + 1 + i) = addr (p + 1 + i') → i = i' := by
      intro i hi i' hi' he
      have := hinj (i + 1) (Nat.succ_lt_succ hi) (i' + 1) (Nat.succ_lt_succ hi')
        (by rwa [Nat.add_assoc, Nat.add_comm 1 i, Nat.add_assoc, Nat.add_comm 1 i'] at he)
      omega
    have hstep : p + (j + 1) = p + 1 + j := by omega
    rw [scatter, hstep, scatter_addr (Nat.lt_of_succ_lt_succ hj) hinj']
    rfl

omit [DecidableEq A] in
@[simp] theorem length_gather (addr : Nat → A) (n : Nat) (mem : A → V) :
    (gather addr n mem).length = n := by
  simp [gather]

end Scatter
