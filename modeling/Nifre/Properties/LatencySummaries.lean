import Nifre.Lib.Quantile
import Nifre.Observability.MetricsStore
import Mathlib.Algebra.Order.BigOperators.Group.List

/-!
# Summaries of latencies

* `percentile_eq` — a percentile is read off the line through the sorted samples
* `latencySummary_ordered` — the percentiles ascend, also after rounding
* `latencySummary_le` — and stay below a bound of the samples
-/

namespace Nifre

open Quantile (interpolate halfEven)

/-! ## Summaries -/

section

variable {F : Type} [Field F] [LinearOrder F] [FloorRing F]

variable [IsStrictOrderedRing F]

theorem roundTo_eq (digits : Nat) (x : F) :
    roundTo digits x = (halfEven (x * 10 ^ digits) : F) / 10 ^ digits := by
  have hless (t : F) : t + t < 1 ↔ t < 1 / 2 := by
    constructor <;> intro h <;> linarith
  have hmore (t : F) : 1 < t + t ↔ 1 / 2 < t := by
    constructor <;> intro h <;> linarith
  simp only [roundTo, halfEven, hless, hmore]

theorem roundTo_mono (digits : Nat) {x y : F} (h : x ≤ y) :
    roundTo digits x ≤ roundTo digits y := by
  have hpos : (0 : F) < 10 ^ digits := by positivity
  rw [roundTo_eq, roundTo_eq, div_le_div_iff_of_pos_right hpos]
  exact_mod_cast Quantile.halfEven_mono (mul_le_mul_of_nonneg_right h hpos.le)

theorem roundTo_zero (digits : Nat) : roundTo digits (0 : F) = 0 := by
  simp [roundTo]

theorem roundTo_nonneg (digits : Nat) {x : F} (h : 0 ≤ x) : 0 ≤ roundTo digits x := by
  rw [← roundTo_zero digits]
  exact roundTo_mono digits h

/-- The place of a percentile in the sorted samples. -/
def rank (n : Nat) (fraction : F) : F := ((n : F) - 1) * fraction

omit [FloorRing F] in
theorem rank_mem {n : Nat} (hn : 0 < n) {p : F} (h : 0 ≤ p) (hle : p ≤ 100) :
    0 ≤ rank n (p / 100) ∧ rank n (p / 100) < n := by
  have hone : (1 : F) ≤ n := by exact_mod_cast hn
  have hp : p / 100 ≤ 1 := by linarith
  refine ⟨mul_nonneg (by linarith) (by linarith), ?_⟩
  have : rank n (p / 100) ≤ (n : F) - 1 := mul_le_of_le_one_right (by linarith) hp
  linarith

omit [FloorRing F] in
theorem rank_mono {n : Nat} (hn : 0 < n) {p p' : F} (h : p ≤ p') :
    rank n (p / 100) ≤ rank n (p' / 100) := by
  have hone : (1 : F) ≤ n := by exact_mod_cast hn
  exact mul_le_mul_of_nonneg_left (by linarith) (by linarith)

omit [IsStrictOrderedRing F] in
/-- **A percentile** is read off the line through the sorted samples. -/
theorem percentile_eq {values : List F} (h : values ≠ []) (p : F) :
    percentile values p
      = interpolate (values.insertionSort (· ≤ ·)) (rank values.length (p / 100)) := by
  unfold percentile interpolate rank
  rw [if_neg (by simpa using h)]
  simp only [List.length_insertionSort]
  split
  · next hsame =>
    rw [← hsame]
    simp
  · rfl

theorem percentile_mono {values : List F} {p p' : F} (h : 0 ≤ p) (hle : p ≤ p') (hle' : p' ≤ 100) :
    percentile values p ≤ percentile values p' := by
  by_cases hv : values = []
  · simp [hv, percentile]
  · have hn := List.length_pos_iff.mpr hv
    rw [percentile_eq hv, percentile_eq hv]
    refine Quantile.interpolate_mono (List.pairwise_insertionSort _ _) (rank_mem hn h
      (hle.trans hle')).1 (rank_mono hn hle) ?_
    rw [List.length_insertionSort]
    exact (rank_mem hn (h.trans hle) hle').2

/-- A percentile lies between the bounds of the samples. -/
theorem percentile_mem {values : List F} (hv : values ≠ []) {p lo hi : F} (h : 0 ≤ p)
    (hle : p ≤ 100) (hbounds : ∀ x ∈ values, lo ≤ x ∧ x ≤ hi) :
    lo ≤ percentile values p ∧ percentile values p ≤ hi := by
  obtain ⟨hzero, hlt⟩ := rank_mem (List.length_pos_iff.mpr hv) h hle
  rw [percentile_eq hv]
  refine Quantile.interpolate_mem (List.pairwise_insertionSort _ _) hzero ?_ fun x hx => ?_
  · rwa [List.length_insertionSort]
  · exact hbounds x ((List.mem_insertionSort _).mp hx)

theorem mean_mem {values : List F} (hv : values ≠ []) {lo hi : F}
    (hbounds : ∀ x ∈ values, lo ≤ x ∧ x ≤ hi) :
    lo ≤ values.sum / values.length ∧ values.sum / values.length ≤ hi := by
  have hpos : (0 : F) < values.length := by exact_mod_cast List.length_pos_iff.mpr hv
  have hlow := List.card_nsmul_le_sum values lo fun x hx => (hbounds x hx).1
  have hhigh := List.sum_le_card_nsmul values hi fun x hx => (hbounds x hx).2
  rw [nsmul_eq_mul] at hlow hhigh
  rw [le_div_iff₀ hpos, div_le_iff₀ hpos]
  exact ⟨by linarith, by linarith⟩

theorem roundMs_mono {x y : F} (h : x ≤ y) : roundTo 2 (x * 1000) ≤ roundTo 2 (y * 1000) :=
  roundTo_mono 2 (mul_le_mul_of_nonneg_right h (by norm_num))

/-- What a reader may rely on in a summary. -/
structure LatencySummary.Ordered (l : LatencySummary F) : Prop where
  p50 : 0 ≤ l.p50Ms
  p95 : l.p50Ms ≤ l.p95Ms
  p99 : l.p95Ms ≤ l.p99Ms
  mean : 0 ≤ l.meanMs

/-- **The percentiles of a summary ascend.** -/
theorem latencySummary_ordered {samples : List F} (h : ∀ x ∈ samples, 0 ≤ x) :
    (latencySummary samples).Ordered := by
  unfold latencySummary
  split
  · exact ⟨le_rfl, le_rfl, le_rfl, le_rfl⟩
  · next hs =>
    have hs : samples ≠ [] := by simpa using hs
    have hsum : ∀ x ∈ samples, 0 ≤ x ∧ x ≤ samples.sum := fun x hx =>
      ⟨h x hx, List.single_le_sum h x hx⟩
    exact ⟨roundTo_nonneg 2 (mul_nonneg
        (percentile_mem hs (by norm_num) (by norm_num) hsum).1 (by norm_num)),
      roundMs_mono (percentile_mono (by norm_num) (by norm_num) (by norm_num)),
      roundMs_mono (percentile_mono (by norm_num) (by norm_num) (by norm_num)),
      roundTo_nonneg 2 (mul_nonneg (mean_mem hs hsum).1 (by norm_num))⟩

/-- **A bound of the samples** bounds the summary, once it is rounded itself. -/
theorem latencySummary_le {samples : List F} {hi : F} (hpos : 0 ≤ hi)
    (h : ∀ x ∈ samples, 0 ≤ x ∧ x ≤ hi) :
    (latencySummary samples).p99Ms ≤ roundTo 2 (hi * 1000) ∧
      (latencySummary samples).meanMs ≤ roundTo 2 (hi * 1000) := by
  unfold latencySummary
  split
  · have := roundTo_nonneg 2 (mul_nonneg hpos (by norm_num : (0 : F) ≤ 1000))
    exact ⟨this, this⟩
  · next hs =>
    have hs : samples ≠ [] := by simpa using hs
    exact ⟨roundMs_mono (percentile_mem hs (by norm_num) (by norm_num) h).2,
      roundMs_mono (mean_mem hs h).2⟩

end

end Nifre
