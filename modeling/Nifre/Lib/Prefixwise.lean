import Mathlib.Data.List.Basic

/-!
# Functions on lists that read only the past

A prefixwise function has one output for each input, and the outputs up to a position depend on
the inputs up to it. Such a function can be computed in pieces: `fresh` is what is left to compute
when the outputs at the past inputs are known.
-/

structure Prefixwise {α β : Type} (f : List α → List β) : Prop where
  length : ∀ xs, (f xs).length = xs.length
  take : ∀ xs n, (f xs).take n = f (xs.take n)

/-- The outputs at the positions after `past`. -/
def fresh {α β : Type} (f : List α → List β) (past new : List α) : List β :=
  (f (past ++ new)).drop past.length

namespace Prefixwise

variable {α β γ δ : Type} {f : List α → List β} {g : List α → List γ}

/-- It is enough to look at one position. -/
theorem of_getElem? (hlen : ∀ xs, (f xs).length = xs.length)
    (h : ∀ xs n i, i < n → i < xs.length → (f xs)[i]? = (f (xs.take n))[i]?) : Prefixwise f where
  length := hlen
  take := by
    intro xs n
    refine List.ext_getElem? fun i => ?_
    by_cases hin : i < n
    · by_cases hi : i < xs.length
      · rw [List.getElem?_take_of_lt hin, h xs n i hin hi]
      · rw [List.getElem?_eq_none (by simp [hlen]; omega),
          List.getElem?_eq_none (by simp [hlen]; omega)]
    · rw [List.getElem?_eq_none (by simp; omega), List.getElem?_eq_none (by simp [hlen]; omega)]

protected theorem id : Prefixwise (fun xs : List α => xs) := ⟨fun _ => rfl, fun _ _ => rfl⟩

theorem map (hf : Prefixwise f) (h : β → γ) : Prefixwise fun xs => (f xs).map h where
  length := fun xs => by rw [List.length_map, hf.length]
  take := fun xs n => by rw [← List.map_take, hf.take]

theorem zipWith (hf : Prefixwise f) (hg : Prefixwise g) (h : β → γ → δ) :
    Prefixwise fun xs => List.zipWith h (f xs) (g xs) where
  length := fun xs => by rw [List.length_zipWith, hf.length, hg.length, Nat.min_self]
  take := fun xs n => by rw [List.take_zipWith, hf.take, hg.take]

theorem comp {g : List β → List γ} (hg : Prefixwise g) (hf : Prefixwise f) :
    Prefixwise fun xs => g (f xs) where
  length := fun xs => by rw [hg.length, hf.length]
  take := fun xs n => by rw [hg.take, hf.take]

/-- A stack of prefixwise functions. -/
theorem foldl {ι : Type} {step : ι → List β → List β} {stack : List ι} {f : List α → List β}
    (hf : Prefixwise f) (h : ∀ i ∈ stack, Prefixwise (step i)) :
    Prefixwise fun xs => stack.foldl (fun x i => step i x) (f xs) := by
  induction stack generalizing f with
  | nil => exact hf
  | cons i stack ih =>
    exact ih ((h i List.mem_cons_self).comp hf) fun j hj => h j (List.mem_cons_of_mem i hj)

theorem mapIdx (h : Nat → α → β) : Prefixwise (List.mapIdx h) :=
  of_getElem? (fun _ => List.length_mapIdx) fun xs n i hin _ => by
    rw [List.getElem?_mapIdx, List.getElem?_mapIdx, List.getElem?_take_of_lt hin]

@[simp] theorem length_fresh (hf : Prefixwise f) (past new : List α) :
    (fresh f past new).length = new.length := by
  simp [fresh, hf.length]

/-- **The outputs at the past inputs are kept.** -/
theorem append (hf : Prefixwise f) (past new : List α) :
    f (past ++ new) = f past ++ fresh f past new := by
  have hold : f past = (f (past ++ new)).take past.length := by
    rw [hf.take, List.take_left]
  rw [hold, fresh, List.take_append_drop]

@[simp] theorem fresh_of_nil (f : List α → List β) (new : List α) : fresh f [] new = f new := rfl

end Prefixwise

section

variable {α β γ δ : Type}

theorem fresh_map (f : List α → List β) (h : β → γ) (past new : List α) :
    fresh (fun xs => (f xs).map h) past new = (fresh f past new).map h := by
  rw [fresh, fresh, List.map_drop]

theorem fresh_zipWith (f : List α → List β) (g : List α → List γ) (h : β → γ → δ)
    (past new : List α) : fresh (fun xs => List.zipWith h (f xs) (g xs)) past new
      = List.zipWith h (fresh f past new) (fresh g past new) := by
  rw [fresh, fresh, fresh, List.drop_zipWith]

theorem fresh_id (past new : List α) : fresh (fun xs => xs) past new = new := by
  simp [fresh]

theorem fresh_comp {g : List β → List γ} {f : List α → List β} (hf : Prefixwise f)
    (past new : List α) :
    fresh (fun xs => g (f xs)) past new = fresh g (f past) (fresh f past new) := by
  rw [fresh, fresh, ← hf.append, hf.length]

end
