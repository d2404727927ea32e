import Mathlib.Algebra.BigOperators.Group.List.Basic
import Mathlib.Algebra.Field.Basic

/-!
# The softmax of masked scores

Scores are elements of a field, or minus infinity, which is `none`. The exponential function is a
parameter: no law of it is used.
-/

namespace Softmax

variable {F : Type}

/-- The scores behind the mask are minus infinity. -/
def maskedFill (mask : Nat → Bool) (scores : List F) : List (Option F) :=
  scores.mapIdx fun j s => if mask j then none else some s

@[simp] theorem length_maskedFill (mask : Nat → Bool) (scores : List F) :
    (maskedFill mask scores).length = scores.length := by
  simp [maskedFill]

variable [Field F] (exp : F → F)

/-- `exp`, with `exp (-∞) = 0`. -/
def weight : Option F → F
  | none => 0
  | some s => exp s

def softmax (scores : List (Option F)) : List F :=
  scores.map fun s => weight exp s / (scores.map (weight exp)).sum

/-- The mean of the values with the weights. -/
def mix (weights values : List F) : F := (List.zipWith (· * ·) weights values).sum

theorem sum_weight_hidden {hidden : List (Option F)} (h : ∀ s ∈ hidden, s = none) :
    (hidden.map (weight exp)).sum = 0 := by
  refine List.sum_eq_zero fun x hx => ?_
  obtain ⟨s, hs, rfl⟩ := List.mem_map.mp hx
  rw [h s hs]
  rfl

theorem mix_zeros {weights : List F} (h : ∀ w ∈ weights, w = 0) (values : List F) :
    mix weights values = 0 := by
  induction weights generalizing values with
  | nil => rfl
  | cons w weights ih =>
    cases values with
    | nil => rfl
    | cons v values =>
      have hrest : (List.zipWith (· * ·) weights values).sum = 0 :=
        ih (fun w' hw' => h w' (List.mem_cons_of_mem w hw')) values
      rw [mix, List.zipWith_cons_cons, List.sum_cons, hrest, h w List.mem_cons_self, zero_mul,
        add_zero]

/-- **What is hidden has no influence**, whatever its values are. -/
theorem mix_softmax_append {scores hidden : List (Option F)} {values : List F}
    (h : ∀ s ∈ hidden, s = none) (hlen : scores.length = values.length) (rest : List F) :
    mix (softmax exp (scores ++ hidden)) (values ++ rest) = mix (softmax exp scores) values := by
  have htotal : ((scores ++ hidden).map (weight exp)).sum = (scores.map (weight exp)).sum := by
    rw [List.map_append, List.sum_append, sum_weight_hidden exp h, add_zero]
  have hzeros : ∀ w ∈ hidden.map (fun s => weight exp s / (scores.map (weight exp)).sum),
      w = 0 := by
    intro w hw
    obtain ⟨s, hs, rfl⟩ := List.mem_map.mp hw
    rw [h s hs, weight, zero_div]
  have hsplit : mix (softmax exp (scores ++ hidden)) (values ++ rest)
      = mix (softmax exp scores) values
        + mix (hidden.map fun s => weight exp s / (scores.map (weight exp)).sum) rest := by
    unfold mix softmax
    rw [htotal, List.map_append, List.zipWith_append (by simpa using hlen), List.sum_append]
  rw [hsplit, mix_zeros hzeros, add_zero]

/-- A mask over what comes after the first `n` scores cuts them off. -/
theorem mix_softmax_maskedFill (scale : F) {mask : Nat → Bool} {n : Nat} {scores values : List F}
    (hlen : scores.length = values.length) (hmask : ∀ j < scores.length, mask j = decide (n ≤ j)) :
    mix (softmax exp ((maskedFill mask scores).map (Option.map (· / scale)))) values
      = mix (softmax exp
            ((maskedFill (fun _ => false) (scores.take n)).map (Option.map (· / scale))))
          (values.take n) := by
  have hsplit : maskedFill mask scores
      = maskedFill (fun _ => false) (scores.take n) ++ (scores.drop n).map fun _ => none := by
    refine List.ext_getElem (by simp; omega) fun j hj hj' => ?_
    have hlt : j < scores.length := by simpa using hj
    by_cases hjn : j < n
    · rw [List.getElem_append_left (by simp; omega)]
      simp [maskedFill, hmask j hlt, hjn]
    · rw [List.getElem_append_right (by simp; omega)]
      simp [maskedFill, hmask j hlt, Nat.le_of_not_lt hjn]
  rw [hsplit, List.map_append]
  conv_lhs => rw [← List.take_append_drop n values]
  refine mix_softmax_append exp (fun s hs => ?_) (by simp [hlen]) _
  simp only [List.map_map, List.mem_map] at hs
  obtain ⟨_, -, rfl⟩ := hs
  rfl

end Softmax
