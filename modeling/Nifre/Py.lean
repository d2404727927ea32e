import Mathlib.Tactic.Common
import Mathlib.Data.List.Basic

/-!
# What the code uses of Python

The exceptions it raises, list indexing with negative indices, and slices.
-/

namespace Nifre

/-- The exceptions the modelled code raises. -/
inductive PyError where
  | valueError (msg : String)
  | indexError (msg : String)
  | keyError (msg : String)
  | runtimeError (msg : String)
  | blockPoolExhausted (msg : String)
  | assertionError
  | zeroDivisionError
  | typeError (msg : String)
  | attributeError (msg : String)
  deriving DecidableEq, Repr

/-- The position `xs[i]` reads in a list of length `n`; a negative index counts from the end. -/
def pyIndex (n : Nat) (i : Int) : Option Nat :=
  if 0 ≤ i then (if i < n then some i.toNat else none)
  else if -(n : Int) ≤ i then some (i + n).toNat
  else none

@[simp] theorem pyIndex_natCast {n i : Nat} (h : i < n) : pyIndex n (i : Int) = some i := by
  simp [pyIndex, h]

theorem eq_of_pyIndex_natCast {n i j : Nat} (h : pyIndex n (i : Int) = some j) : j = i := by
  by_cases hlt : i < n
  · rw [pyIndex_natCast hlt] at h
    exact (Option.some.inj h).symm
  · simp [pyIndex, hlt] at h

theorem lt_of_pyIndex {n j : Nat} {i : Int} (h : pyIndex n i = some j) : j < n := by
  unfold pyIndex at h
  split at h
  · split at h
    · cases h; omega
    · cases h
  · split at h
    · cases h; omega
    · cases h

/-- `xs[start:stop]`; a negative `stop` counts from the end. -/
def pySlice {α : Type} (xs : List α) (start : Nat) (stop : Int) : List α :=
  (xs.take (if stop < 0 then (stop + xs.length).toNat else stop.toNat)).drop start

/-- `xs[-n:]`. The slice `xs[-0:]` is the whole list. -/
def lastSlice {α : Type} (n : Nat) (xs : List α) : List α :=
  if n = 0 then xs else xs.drop (xs.length - n)

/-- On a left-padded row the slice is the real part, as soon as there is one. -/
theorem lastSlice_append {α : Type} {pad real : List α} (h : real ≠ []) :
    lastSlice real.length (pad ++ real) = real := by
  rw [lastSlice, if_neg (by simpa using h), List.length_append, Nat.add_sub_cancel]
  exact List.drop_left

end Nifre
