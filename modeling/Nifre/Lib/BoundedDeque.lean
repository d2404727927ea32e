import Mathlib.Data.List.DropRight
import Mathlib.Data.List.Basic

/-!
# Bounded deques

A deque with a maximal length drops its oldest element when it is full and another is appended. It
holds the last elements of all that were ever appended. If the elements that a test selects are the
last ones, as with a cutoff on ordered time stamps, then bounding and selecting commute.
-/

/-- At most `maxlen` elements, oldest first. -/
structure BoundedDeque (maxlen : Nat) (α : Type) where
  items : List α
  length_le : items.length ≤ maxlen

namespace BoundedDeque

variable {α β : Type} {maxlen : Nat}

def empty : BoundedDeque maxlen α := ⟨[], Nat.zero_le _⟩

/-- A full deque drops its oldest element. -/
def append (d : BoundedDeque maxlen α) (x : α) : BoundedDeque maxlen α where
  items := if d.items.length < maxlen then d.items ++ [x] else (d.items ++ [x]).tail
  length_le := by
    have hle := d.length_le
    split
    · next hlt => exact (List.length_append ..).trans_le hlt
    · simpa using hle

@[simp] theorem items_empty : (empty : BoundedDeque maxlen α).items = [] := rfl

/-! ## The last elements of a list -/

theorem rtake_of_length_le {n : Nat} {xs : List α} (h : xs.length ≤ n) : xs.rtake n = xs := by
  rw [List.rtake, Nat.sub_eq_zero_of_le h, List.drop_zero]

theorem length_rtake (n : Nat) (xs : List α) : (xs.rtake n).length = min n xs.length := by
  rw [List.rtake, List.length_drop]
  omega

/-- What was dropped once does not come back. -/
theorem rtake_rtake_append (n : Nat) (xs ys : List α) :
    (xs.rtake n ++ ys).rtake n = (xs ++ ys).rtake n := by
  have hdrop : xs.rtake n ++ ys = (xs ++ ys).drop (xs.length - n) := by
    rw [List.drop_append_of_le_length (Nat.sub_le _ _), List.rtake]
  have hlen : (xs ++ ys).length = xs.length + ys.length := List.length_append
  rw [hdrop, List.rtake, List.drop_drop, List.rtake, List.length_drop, hlen]
  congr 1
  omega

/-- The last `n` of two lists, by what is left for the first. -/
theorem rtake_append_eq (n : Nat) (xs ys : List α) :
    (xs ++ ys).rtake n = xs.rtake (n - ys.length) ++ ys.rtake n := by
  unfold List.rtake
  rw [List.length_append, List.drop_append]
  have hrest : xs.length + ys.length - n - xs.length = ys.length - n := by omega
  rw [hrest]
  by_cases hfew : ys.length ≤ n
  · have hfront : xs.length + ys.length - n = xs.length - (n - ys.length) := by omega
    rw [hfront]
  · -- nothing is left of the first list
    have hleft : xs.drop (xs.length + ys.length - n) = [] := List.drop_eq_nil_of_le (by omega)
    have hright : xs.drop (xs.length - (n - ys.length)) = [] := List.drop_eq_nil_of_le (by omega)
    rw [hleft, hright]

/-- **Appending keeps the last elements.** -/
@[simp] theorem items_append (d : BoundedDeque maxlen α) (x : α) :
    (d.append x).items = (d.items ++ [x]).rtake maxlen := by
  have hle := d.length_le
  show (if d.items.length < maxlen then d.items ++ [x] else (d.items ++ [x]).tail) = _
  split
  · next hlt => rw [rtake_of_length_le ((List.length_append ..).trans_le hlt)]
  · next hfull =>
    have hlen : (d.items ++ [x]).length - maxlen = 1 := by
      rw [List.length_append, List.length_singleton]
      omega
    rw [List.rtake, hlen, List.drop_one]

theorem mem_append {d : BoundedDeque maxlen α} {x y : α} (h : y ∈ (d.append x).items) :
    y ∈ d.items ∨ y = x := by
  rw [items_append] at h
  simpa using List.mem_of_mem_drop h

/-! ## Selecting -/

/-- **Bounding and selecting commute**, if what comes after a selected element is selected. -/
theorem filter_rtake {p : α → Bool} (n : Nat) {xs : List α}
    (h : xs.Pairwise fun x y => p x = true → p y = true) :
    (xs.rtake n).filter p = (xs.filter p).rtake n := by
  induction xs with
  | nil => simp
  | cons x xs ih =>
    rw [List.pairwise_cons] at h
    by_cases hx : p x = true
    · -- everything from here on is selected
      have hall : (x :: xs).filter p = x :: xs := by
        refine List.filter_eq_self.mpr fun y hy => ?_
        rcases List.mem_cons.mp hy with rfl | hy
        · exact hx
        · exact h.1 y hy hx
      rw [hall, List.filter_eq_self]
      intro y hy
      have hmem : y ∈ (x :: xs).filter p := by
        rw [hall]
        exact List.mem_of_mem_drop hy
      exact (List.mem_filter.mp hmem).2
    · rw [List.filter_cons_of_neg hx, ← ih h.2]
      by_cases hlen : xs.length < n
      · rw [rtake_of_length_le (by rw [List.length_cons]; omega), rtake_of_length_le hlen.le,
          List.filter_cons_of_neg hx]
      · have hcons : (x :: xs).rtake n = xs.rtake n := by
          rw [List.rtake, List.rtake, List.length_cons,
            Nat.succ_sub (Nat.le_of_not_lt hlen), List.drop_succ_cons]
        rw [hcons]

/-- Of ordered keys, those from a cutoff on come last. -/
theorem pairwise_cutoff {K : Type} [Preorder K] [DecidableLE K] {key : α → K} (cutoff : K) {xs : List α}
    (h : xs.Pairwise fun x y => key x ≤ key y) :
    xs.Pairwise fun x y => decide (cutoff ≤ key x) = true → decide (cutoff ≤ key y) = true := by
  refine h.imp fun {x y} hxy hx => ?_
  exact decide_eq_true ((of_decide_eq_true hx).trans hxy)

end BoundedDeque
