import Nifre.Py
import Mathlib.Order.Basic
import Mathlib.Data.List.MinMax

/-!
# Greedy sampling
-/

namespace Nifre

variable {Score : Type} [LinearOrder Score]

/-- `sample_greedy(..).item()`: the index of the first of the largest scores. -/
def sampleGreedy (scores : List Score) : Except PyError Nat :=
  match scores.max? with
  | none => .error (.indexError "argmax(): Expected reduction dim to have non-zero size")
  | some m => .ok (scores.idxOf m)

theorem sampleGreedy_ok {scores : List Score} (h : scores ≠ []) :
    ∃ t, sampleGreedy scores = .ok t := by
  unfold sampleGreedy
  cases hm : scores.max? with
  | none => exact absurd (List.max?_eq_none_iff.mp hm) h
  | some m => exact ⟨_, rfl⟩

theorem sampleGreedy_lt {scores : List Score} {t : Nat} (h : sampleGreedy scores = .ok t) :
    t < scores.length := by
  unfold sampleGreedy at h
  split at h
  · cases h
  · rename_i m hm
    cases h
    exact List.idxOf_lt_length_of_mem (List.max?_mem hm)

end Nifre
