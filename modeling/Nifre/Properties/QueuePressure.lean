import Nifre.Autotune.Classifier
import Nifre.Lib.SlidingWindow
import Mathlib.Algebra.Order.Field.Rat
import Mathlib.Data.Rat.Cast.Order

/-!
# Sustained queue pressure

A queue that has been long for the whole window is seen as such exactly when some observation falls
into the first tenth of the window: the window is measured by the samples that are left in it.
-/

namespace Nifre

namespace WorkloadClassifier

open SlidingWindow

section Calls

variable {F : Type} [OfScientific F] [Zero F] [Sub F] [Mul F] [LinearOrder F]

/-- The samples of the calls. -/
abbrev sample (snapshot : WorkloadSnapshot F) : F × Int :=
  (snapshot.timestamp, snapshot.queuedRequests)

/-- The queue was long throughout the samples, and they are enough and long enough apart. -/
def SeesPressure (config : ClassifierConfig F) (samples : List (F × Int)) : Prop :=
  config.queueHighMinSamples ≤ samples.length ∧
    (∀ s ∈ samples, config.queueHighThreshold ≤ s.2) ∧
    ∃ first ∈ samples.head?, ∃ last ∈ samples.getLast?,
      config.queueHighWindowSec * 0.9 ≤ last.1 - first.1

instance (config : ClassifierConfig F) (samples : List (F × Int)) :
    Decidable (SeesPressure config samples) :=
  inferInstanceAs (Decidable (_ ∧ _ ∧ _))

omit [Zero F] in
theorem queueSustainedHigh_ok (c : WorkloadClassifier F)
    (hmin : 0 < c.config.queueHighMinSamples) :
    ∃ high, c.queueSustainedHigh = .ok high ∧
      (high = true ↔ SeesPressure c.config c.queueSamples) := by
  unfold queueSustainedHigh SeesPressure
  simp only
  by_cases hfew : (c.queueSamples.length : Int) < c.config.queueHighMinSamples
  · rw [if_pos hfew]
    exact ⟨false, rfl, iff_of_false (by decide) fun h => by omega⟩
  rw [if_neg hfew]
  by_cases hall : (c.queueSamples.all fun s => c.config.queueHighThreshold ≤ s.2) = true
  · rw [if_neg (not_not.mpr hall)]
    have hlong : ∀ s ∈ c.queueSamples, c.config.queueHighThreshold ≤ s.2 := fun s hs => by
      simpa using List.all_eq_true.mp hall s hs
    cases hfirst : c.queueSamples.head? with
    | none =>
      rw [List.head?_eq_none_iff.mp hfirst] at hfew
      exact absurd hmin (by simpa using hfew)
    | some first =>
      cases hlast : c.queueSamples.getLast? with
      | none =>
        rw [List.getLast?_eq_none_iff.mp hlast] at hfirst
        cases hfirst
      | some last =>
        refine ⟨_, rfl, ?_⟩
        rw [decide_eq_true_iff]
        constructor
        · exact fun h => ⟨by omega, hlong, first, rfl, last, rfl, h⟩
        · rintro ⟨-, -, first', h', last', h'', h⟩
          cases h'
          cases h''
          exact h
  · rw [if_pos hall]
    refine ⟨false, rfl, iff_of_false (by decide) fun h => hall ?_⟩
    exact List.all_eq_true.mpr fun s hs => by simpa using h.2.1 s hs

/-- The samples after a call. -/
def pushed (c : WorkloadClassifier F) (snapshot : WorkloadSnapshot F) : WorkloadClassifier F :=
  { c with
    queueSamples := prune Prod.fst (snapshot.timestamp - c.config.queueHighWindowSec)
      (c.queueSamples ++ [sample snapshot]) }

theorem observe_run (c : WorkloadClassifier F) (snapshot : WorkloadSnapshot F) :
    (observe snapshot).run c
      = (Exec.ofExcept ((c.pushed snapshot).classify snapshot)).run (c.pushed snapshot) := rfl

theorem after_observe (c : WorkloadClassifier F) (snapshot : WorkloadSnapshot F) :
    Exec.after (observe snapshot) c = c.pushed snapshot := by
  unfold Exec.after
  rw [observe_run]
  cases (c.pushed snapshot).classify snapshot <;> rfl

/-- A call returns, and the label says what the samples show. -/
theorem observe_labels (c : WorkloadClassifier F) (snapshot : WorkloadSnapshot F)
    (hmin : 0 < c.config.queueHighMinSamples) :
    ∃ labels, (observe snapshot).run c = .ok labels (c.pushed snapshot) ∧
      (labels.queueHigh = true ↔ SeesPressure c.config (c.pushed snapshot).queueSamples) := by
  obtain ⟨high, hrun, hiff⟩ := queueSustainedHigh_ok (c.pushed snapshot) hmin
  rw [observe_run]
  unfold classify
  rw [hrun]
  exact ⟨_, rfl, hiff⟩

/-- The classifier after the calls. -/
def observed (config : ClassifierConfig F) (snapshots : List (WorkloadSnapshot F)) :
    WorkloadClassifier F :=
  snapshots.foldl (fun c snapshot => Exec.after (observe snapshot) c) { config := config }

theorem observed_eq (config : ClassifierConfig F) (snapshots : List (WorkloadSnapshot F)) :
    observed config snapshots =
      { config := config
        queueSamples := slide Prod.fst (fun s => s.1 - config.queueHighWindowSec)
          (snapshots.map sample) } := by
  induction snapshots using List.reverseRecOn with
  | nil => rfl
  | append_singleton snapshots snapshot ih =>
    unfold observed at ih ⊢
    rw [List.foldl_append, ih, List.foldl_cons, List.foldl_nil, after_observe, List.map_append,
      List.map_singleton, slide_append]
    rfl

end Calls

section Pressure

variable {F : Type} [Field F] [LinearOrder F] [IsStrictOrderedRing F]

/-- The longest gap between two calls with which the window still holds enough samples. -/
def maxGap (config : ClassifierConfig F) : F :=
  config.queueHighWindowSec / ((config.queueHighMinSamples : F) - 1)

/-- The queue was long at every call for at least the length of the window, and there were enough
calls. -/
def Sustained (config : ClassifierConfig F) (samples : List (F × Int)) (now : F) : Prop :=
  ∃ start ∈ samples, start.1 ≤ now - config.queueHighWindowSec ∧
    (∀ s ∈ samples, start.1 ≤ s.1 → config.queueHighThreshold ≤ s.2) ∧
    config.queueHighMinSamples ≤ samples.countP fun s => start.1 ≤ s.1

/-- Some call was made in the first tenth of the window. -/
def EarlySample (config : ClassifierConfig F) (samples : List (F × Int)) (now : F) : Prop :=
  ∃ s ∈ samples, now - config.queueHighWindowSec ≤ s.1 ∧
    config.queueHighWindowSec * 0.9 ≤ now - s.1

variable {config : ClassifierConfig F} {samples : List (F × Int)} {now : F}

/-- The window holds enough samples: the calls are close enough, and they reach back. -/
theorem Sustained.enough (h : Sustained config samples now)
    (hwindow : 0 < config.queueHighWindowSec) (hmin : 2 ≤ config.queueHighMinSamples)
    (hspaced : Spaced Prod.fst (maxGap config) samples)
    (hlast : ∃ x ∈ samples.getLast?, x.1 = now) :
    config.queueHighMinSamples
      ≤ (prune Prod.fst (now - config.queueHighWindowSec) samples).length := by
  have hone : (1 : F) ≤ (config.queueHighMinSamples : F) - 1 := by
    have : ((2 : Int) : F) ≤ (config.queueHighMinSamples : F) := by exact_mod_cast hmin
    push_cast at this
    linarith
  have hpos : 0 < maxGap config := div_pos hwindow (by linarith)
  have hcast : ((config.queueHighMinSamples - 1).toNat : F)
      = (config.queueHighMinSamples : F) - 1 := by
    have : (((config.queueHighMinSamples - 1).toNat : Int) : F)
        = ((config.queueHighMinSamples - 1 : Int) : F) := by
      rw [Int.toNat_of_nonneg (by omega)]
    push_cast at this
    exact this
  -- the window is as long as one gap less than the samples wanted
  have hgaps : ((config.queueHighMinSamples - 1).toNat : F) * maxGap config
      = config.queueHighWindowSec := by
    rw [hcast, maxGap, mul_div_cancel₀]
    linarith
  obtain ⟨start, hmem, hback, -, -⟩ := h
  obtain ⟨last, hget, hnow⟩ := hlast
  cases samples with
  | nil => cases hmem
  | cons x samples =>
    have hfirst : x.1 ≤ start.1 := by
      rcases List.mem_cons.mp hmem with rfl | hmem
      · exact le_refl _
      · exact (List.pairwise_cons.mp hspaced.ordered).1 start hmem
    rw [List.getLast?_eq_some_getLast (List.cons_ne_nil _ _), Option.mem_some_iff] at hget
    have hlen := hspaced.lt_length_prune hpos (config.queueHighMinSamples - 1).toNat now
      (by rw [hget]; exact hnow) (by rw [hgaps]; linarith)
    rw [hgaps] at hlen
    omega

/-- What the samples show, in terms of all calls. -/
theorem Sustained.seesPressure_iff {earlier : List (F × Int)} {last : F × Int}
    (h : Sustained config (earlier ++ [last]) last.1)
    (hwindow : 0 < config.queueHighWindowSec) (hmin : 2 ≤ config.queueHighMinSamples)
    (hspaced : Spaced Prod.fst (maxGap config) (earlier ++ [last])) :
    SeesPressure config
        (prune Prod.fst (last.1 - config.queueHighWindowSec) (earlier ++ [last])) ↔
      EarlySample config (earlier ++ [last]) last.1 := by
  have hmany := h.enough hwindow hmin hspaced ⟨last, by simp, rfl⟩
  have hordered := hspaced.ordered
  have hmem : ∀ s, s ∈ prune Prod.fst (last.1 - config.queueHighWindowSec) (earlier ++ [last]) ↔
      s ∈ earlier ++ [last] ∧ last.1 - config.queueHighWindowSec ≤ s.1 := fun s =>
    mem_prune hordered
  have hend := prune_append_singleton Prod.fst earlier
    (show last.1 - config.queueHighWindowSec ≤ last.1 by linarith)
  obtain ⟨start, -, hback, hlong, -⟩ := h
  constructor
  · rintro ⟨-, -, first, hfirst, final, hfinal, hspan⟩
    rw [hend, List.getLast?_concat, Option.mem_some_iff] at hfinal
    obtain ⟨hin, hwithin⟩ := (hmem first).mp (List.mem_of_mem_head? hfirst)
    exact ⟨first, hin, hwithin, by rw [hfinal]; exact hspan⟩
  · rintro ⟨s, hs, hwithin, hearly⟩
    have hkept := (hmem s).mpr ⟨hs, hwithin⟩
    refine ⟨hmany, fun x hx => ?_, ?_⟩
    · obtain ⟨hin, hx⟩ := (hmem x).mp hx
      exact hlong x hin (le_trans hback hx)
    · cases hw : prune Prod.fst (last.1 - config.queueHighWindowSec) (earlier ++ [last]) with
      | nil =>
        rw [hw] at hkept
        cases hkept
      | cons first rest =>
        have hle : first.1 ≤ s.1 := by
          have hsub := hordered.sublist
            (prune_sublist Prod.fst (last.1 - config.queueHighWindowSec) _)
          rw [hw] at hsub hkept
          rcases List.mem_cons.mp hkept with rfl | hs
          · exact le_refl _
          · exact (List.pairwise_cons.mp hsub).1 s hs
        refine ⟨first, rfl, last, ?_, by linarith⟩
        rw [← hw, hend]
        simp

/-- **Sustained queue pressure is seen exactly when some call was made in the first tenth of the
window**, by calls that are close enough for the number of samples. -/
theorem queueHigh_iff (config : ClassifierConfig F) (hwindow : 0 < config.queueHighWindowSec)
    (hmin : 2 ≤ config.queueHighMinSamples) (earlier : List (WorkloadSnapshot F))
    (snapshot : WorkloadSnapshot F)
    (hspaced : Spaced Prod.fst (maxGap config) (earlier.map sample ++ [sample snapshot]))
    (hsustained : Sustained config (earlier.map sample ++ [sample snapshot]) snapshot.timestamp) :
    (∃ labels c', (observe snapshot).run (observed config earlier) = .ok labels c' ∧
        labels.queueHigh = true) ↔
      EarlySample config (earlier.map sample ++ [sample snapshot]) snapshot.timestamp := by
  rw [← hsustained.seesPressure_iff hwindow hmin hspaced]
  have hconfig : (observed config earlier).config = config := by rw [observed_eq]
  have hcut : (earlier.map sample ++ [sample snapshot]).Pairwise fun x y =>
      x.1 - config.queueHighWindowSec ≤ y.1 - config.queueHighWindowSec :=
    hspaced.ordered.imp fun h => sub_le_sub_right h _
  have hsamples : ((observed config earlier).pushed snapshot).queueSamples
      = prune Prod.fst (snapshot.timestamp - config.queueHighWindowSec)
          (earlier.map sample ++ [sample snapshot]) := by
    rw [pushed, hconfig, ← slide_eq_prune hcut, slide_append, observed_eq]
  obtain ⟨labels, hrun, hlabels⟩ := observe_labels (observed config earlier) snapshot
    (by rw [hconfig]; omega)
  rw [hconfig, hsamples] at hlabels
  rw [hrun]
  constructor
  · rintro ⟨labels', c', hok, hhigh⟩
    cases hok
    exact hlabels.mp hhigh
  · exact fun h => ⟨labels, _, rfl, hlabels.mpr h⟩

/-- Three requests in the queue. -/
def busyAt (t : ℚ) : WorkloadSnapshot ℚ := ⟨t, 3, 0, 0, 0, 0, 0, 0, 0⟩

/-- Calls every 30 seconds see the pressure. -/
theorem every30_seen :
    ∃ labels c', (observe (busyAt 60)).run (observed {} [busyAt 0, busyAt 30]) = .ok labels c' ∧
      labels.queueHigh = true := by
  refine (queueHigh_iff {} ?_ ?_ [busyAt 0, busyAt 30] (busyAt 60) ?_ ?_).mpr ?_
  · decide +kernel
  · decide
  · exact .cons_cons (by decide +kernel) (.cons_cons (by decide +kernel) (.singleton _))
  · exact ⟨(0, 3), by decide, by decide +kernel, by decide +kernel, by decide +kernel⟩
  · exact ⟨(0, 3), by decide, by decide +kernel, by decide +kernel⟩

/-- Calls every 25 seconds miss it: the samples left span 50 seconds of the 54 that are wanted. -/
theorem every25_missed :
    Spaced Prod.fst (maxGap {}) ([busyAt 0, busyAt 25, busyAt 50, busyAt 75].map sample) ∧
      Sustained {} ([busyAt 0, busyAt 25, busyAt 50, busyAt 75].map sample) 75 ∧
      ¬∃ labels c', (observe (busyAt 75)).run
          (observed {} [busyAt 0, busyAt 25, busyAt 50]) = .ok labels c' ∧
        labels.queueHigh = true := by
  refine ⟨?_, ?_, ?_⟩
  · exact .cons_cons (by decide +kernel) (.cons_cons (by decide +kernel)
      (.cons_cons (by decide +kernel) (.singleton _)))
  · exact ⟨(0, 3), by decide, by decide +kernel, by decide +kernel, by decide +kernel⟩
  · rintro ⟨labels, c', hrun, hhigh⟩
    obtain ⟨labels', hrun', hlabels⟩ := observe_labels
      (observed ({} : ClassifierConfig ℚ) [busyAt 0, busyAt 25, busyAt 50]) (busyAt 75)
      (by decide +kernel)
    rw [hrun] at hrun'
    cases hrun'
    exact absurd (hlabels.mp hhigh) (by decide +kernel)

end Pressure

end WorkloadClassifier

end Nifre
