import Mathlib.Algebra.Order.Floor.Ring
import Mathlib.Algebra.Order.Field.Basic
import Mathlib.Data.List.GetD
import Mathlib.Data.List.Sort
import Mathlib.Tactic.Linarith

/-!
# Quantiles and rounding

* `interpolate` — the broken line through the elements of a list; on a sorted list it ascends and
  stays between the bounds of the elements
* `halfEven` — to the nearest integer, a tie to the even one; it ascends
-/

namespace Quantile

variable {F : Type*} [Field F] [LinearOrder F] [IsStrictOrderedRing F] [FloorRing F]

/-! ## The broken line through a list -/

/-- The value at `t`, where the elements stand at `0`, `1`, .. -/
def interpolate (xs : List F) (t : F) : F :=
  let lower := ⌊t⌋.toNat
  let upper := min (lower + 1) (xs.length - 1)
  xs.getD lower 0 + (xs.getD upper 0 - xs.getD lower 0) * (t - lower)

omit [IsStrictOrderedRing F] [FloorRing F] [Field F] in
theorem getD_le_getD [Zero F] {xs : List F} (hs : xs.Pairwise (· ≤ ·)) {i j : Nat} (hij : i ≤ j)
    (hj : j < xs.length) : xs.getD i 0 ≤ xs.getD j 0 := by
  rw [List.getD_eq_getElem _ _ (by omega), List.getD_eq_getElem _ _ hj]
  rcases Nat.lt_or_eq_of_le hij with hlt | rfl
  · exact List.pairwise_iff_getElem.mp hs i j (by omega) hj hlt
  · exact le_rfl

/-- The place of `t` among the elements. -/
theorem floor_spec {t : F} (h : 0 ≤ t) : (⌊t⌋.toNat : F) ≤ t ∧ t - ⌊t⌋.toNat < 1 := by
  have hcast : ((⌊t⌋.toNat : Nat) : F) = (⌊t⌋ : Int) := by
    have := Int.toNat_of_nonneg (Int.floor_nonneg.mpr h)
    exact_mod_cast congrArg (Int.cast : Int → F) this
  rw [hcast]
  exact ⟨Int.floor_le t, by linarith [Int.lt_floor_add_one t]⟩

theorem floor_lt_length {xs : List F} {t : F} (h : 0 ≤ t) (hlt : t < xs.length) :
    ⌊t⌋.toNat < xs.length := by
  have hle := (floor_spec h).1
  exact_mod_cast lt_of_le_of_lt hle hlt

/-- **Between two neighbours** the line lies between their values. -/
theorem interpolate_between {xs : List F} (hs : xs.Pairwise (· ≤ ·)) {t : F} (h : 0 ≤ t)
    (hlt : t < xs.length) : xs.getD ⌊t⌋.toNat 0 ≤ interpolate xs t ∧
      interpolate xs t ≤ xs.getD (min (⌊t⌋.toNat + 1) (xs.length - 1)) 0 := by
  obtain ⟨hle, hone⟩ := floor_spec h
  have hpos := floor_lt_length h hlt
  have hstep := getD_le_getD hs (i := ⌊t⌋.toNat) (j := min (⌊t⌋.toNat + 1) (xs.length - 1))
    (by omega) (by omega)
  unfold interpolate
  simp only
  constructor
  · have : 0 ≤ (xs.getD (min (⌊t⌋.toNat + 1) (xs.length - 1)) 0 - xs.getD ⌊t⌋.toNat 0)
        * (t - ⌊t⌋.toNat) := mul_nonneg (by linarith) (by linarith)
    linarith
  · have : (xs.getD (min (⌊t⌋.toNat + 1) (xs.length - 1)) 0 - xs.getD ⌊t⌋.toNat 0)
        * (t - ⌊t⌋.toNat)
        ≤ xs.getD (min (⌊t⌋.toNat + 1) (xs.length - 1)) 0 - xs.getD ⌊t⌋.toNat 0 :=
      mul_le_of_le_one_right (by linarith) (by linarith)
    linarith

/-- **The line through a sorted list ascends.** -/
theorem interpolate_mono {xs : List F} (hs : xs.Pairwise (· ≤ ·)) {t t' : F} (h : 0 ≤ t)
    (hle : t ≤ t') (hlt : t' < xs.length) : interpolate xs t ≤ interpolate xs t' := by
  have hfloor : ⌊t⌋.toNat ≤ ⌊t'⌋.toNat := Int.toNat_le_toNat (Int.floor_le_floor hle)
  have hpos := floor_lt_length (h.trans hle) hlt
  rcases Nat.lt_or_eq_of_le hfloor with hless | hsame
  · -- a whole element lies between them
    calc interpolate xs t ≤ xs.getD (min (⌊t⌋.toNat + 1) (xs.length - 1)) 0 :=
          (interpolate_between hs h (hle.trans_lt hlt)).2
      _ ≤ xs.getD ⌊t'⌋.toNat 0 := getD_le_getD hs (by omega) hpos
      _ ≤ interpolate xs t' := (interpolate_between hs (h.trans hle) hlt).1
  · have hstep := getD_le_getD hs (i := ⌊t'⌋.toNat) (j := min (⌊t'⌋.toNat + 1) (xs.length - 1))
      (by omega) (by omega)
    unfold interpolate
    simp only [hsame]
    have := mul_le_mul_of_nonneg_left (sub_le_sub_right hle (⌊t'⌋.toNat : F))
      (sub_nonneg.mpr hstep)
    linarith

/-- **Bounds of the elements bound the line.** -/
theorem interpolate_mem {xs : List F} (hs : xs.Pairwise (· ≤ ·)) {t lo hi : F} (h : 0 ≤ t)
    (hlt : t < xs.length) (hbounds : ∀ x ∈ xs, lo ≤ x ∧ x ≤ hi) :
    lo ≤ interpolate xs t ∧ interpolate xs t ≤ hi := by
  have hpos := floor_lt_length h hlt
  obtain ⟨hlow, hhigh⟩ := interpolate_between hs h hlt
  have hmem : ∀ {i : Nat}, i < xs.length → xs.getD i 0 ∈ xs := fun hi => by
    rw [List.getD_eq_getElem _ _ hi]
    exact List.getElem_mem hi
  exact ⟨(hbounds _ (hmem hpos)).1.trans hlow,
    hhigh.trans (hbounds _ (hmem (show min (⌊t⌋.toNat + 1) (xs.length - 1) < xs.length by
      omega))).2⟩

/-! ## Half to even -/

def halfEven (x : F) : Int :=
  let lower := ⌊x⌋
  let rest := x - lower
  if rest + rest < 1 then lower
  else if 1 < rest + rest then lower + 1
  else if lower % 2 = 0 then lower else lower + 1

omit [IsStrictOrderedRing F] in
theorem floor_le_halfEven (x : F) : ⌊x⌋ ≤ halfEven x := by
  unfold halfEven
  simp only
  split_ifs <;> omega

omit [IsStrictOrderedRing F] in
theorem halfEven_le_floor (x : F) : halfEven x ≤ ⌊x⌋ + 1 := by
  unfold halfEven
  simp only
  split_ifs <;> omega

/-- **Rounding ascends.** -/
theorem halfEven_mono {x y : F} (h : x ≤ y) : halfEven x ≤ halfEven y := by
  rcases lt_or_eq_of_le (Int.floor_le_floor h) with hless | hsame
  · exact (halfEven_le_floor x).trans (hless.trans_le (floor_le_halfEven y))
  · unfold halfEven
    simp only [hsame]
    split_ifs <;> first | omega | (exfalso; linarith)

end Quantile
