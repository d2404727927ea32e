import Nifre.Properties.MetricsRuns
import Mathlib.Algebra.BigOperators.Group.List.Lemmas
import Mathlib.Algebra.Field.Rat
import Mathlib.Algebra.Order.Ring.Rat

/-!
# Windowed rates

A rate counts the events of a deque that lie in the window. The deque holds the last events and the
window selects the last events, so the rate is that of the events in the window, up to as many as
the deque can hold.
-/

namespace Nifre

namespace MetricsStore

variable {F : Type} [Field F] [LinearOrder F]

/-- Within the last `windowSec` before `now`. -/
def Within (windowSec now ts : F) : Prop := now - windowSec ≤ ts ∧ ts ≤ now

instance (windowSec now ts : F) : Decidable (Within windowSec now ts) :=
  inferInstanceAs (Decidable (_ ∧ _))

/-- The completions within the window, with their tokens. -/
def completionsWithin (windowSec now : F) (events : List (Event F)) : List (F × Nat × Nat) :=
  (events.flatMap Event.completions).filter fun e => Within windowSec now e.1

/-- The decode steps within the window. -/
def decodeStepsWithin (windowSec now : F) (events : List (Event F)) : List F :=
  (events.flatMap Event.decodeSteps).filter fun ts => Within windowSec now ts

/-- The clock does not go back, from event to event and to the time `now`. -/
def Ordered (events : List (Event F)) (now : F) : Prop :=
  (events.flatMap Event.times ++ [now]).Pairwise (· ≤ ·)

omit [Field F] [LinearOrder F] in
theorem flatMap_sublist {α : Type} {f g : Event F → List α} (h : ∀ e, (f e).Sublist (g e))
    (events : List (Event F)) : (events.flatMap f).Sublist (events.flatMap g) := by
  induction events with
  | nil => exact List.Sublist.refl _
  | cons e events ih =>
    rw [List.flatMap_cons, List.flatMap_cons]
    exact (h e).append ih

omit [Field F] [LinearOrder F] in
theorem completionTimes_sublist (events : List (Event F)) :
    ((events.flatMap Event.completions).map Prod.fst).Sublist (events.flatMap Event.times) := by
  rw [List.map_flatMap]
  refine flatMap_sublist (fun e => ?_) events
  cases e with
  | completion => exact List.Sublist.refl _
  | _ => exact List.nil_sublist _

omit [Field F] [LinearOrder F] in
theorem decodeTimes_sublist (events : List (Event F)) :
    (events.flatMap Event.decodeSteps).Sublist (events.flatMap Event.times) := by
  refine flatMap_sublist (fun e => ?_) events
  cases e with
  | decodeStep => exact List.Sublist.refl _
  | _ => exact List.nil_sublist _

omit [Field F] in
/-- Times that were read in order are in order, and not after the time of the query. -/
theorem Ordered.sublist {events : List (Event F)} {now : F} (h : Ordered events now)
    {times : List F} (hsub : times.Sublist (events.flatMap Event.times)) :
    times.Pairwise (· ≤ ·) ∧ ∀ ts ∈ times, ts ≤ now := by
  unfold Ordered at h
  rw [List.pairwise_append] at h
  exact ⟨h.1.sublist hsub, fun ts hts => h.2.2 ts (hsub.subset hts) now (by simp)⟩

/-- What the cutoff selects of the last `n` elements: the last `n` in the window. -/
theorem filter_cutoff_rtake {α : Type} {key : α → F} {xs : List α} {windowSec now : F}
    (hordered : (xs.map key).Pairwise (· ≤ ·)) (hle : ∀ x ∈ xs.map key, x ≤ now) (n : Nat) :
    (xs.rtake n).filter (fun x => decide (now - windowSec ≤ key x))
      = (xs.filter fun x => Within windowSec now (key x)).rtake n := by
  have hpairs : xs.Pairwise fun x y => key x ≤ key y := List.pairwise_map.mp hordered
  rw [BoundedDeque.filter_rtake n (BoundedDeque.pairwise_cutoff _ hpairs)]
  congr 1
  refine List.filter_congr fun x hx => ?_
  have hnow : key x ≤ now := hle _ (List.mem_map_of_mem hx)
  simp [Within, hnow]

/-- **A rate is that of the events in the window**, up to as many as the deque can hold. -/
theorem rate_mul (s : MetricsStore F) (hwindow : s.windowSec ≠ 0) {times : List F} {now : F}
    (hordered : times.Pairwise (· ≤ ·)) (hle : ∀ ts ∈ times, ts ≤ now) (n : Nat) :
    s.rate (times.rtake n) now * s.windowSec
      = (min n (times.filter fun ts => Within s.windowSec now ts).length : Nat) := by
  have hselect : (times.rtake n).filter (fun ts => decide (now - s.windowSec ≤ ts))
      = (times.filter fun ts => Within s.windowSec now ts).rtake n :=
    filter_cutoff_rtake (by rwa [List.map_id']) (by rwa [List.map_id']) n
  unfold rate
  simp only [if_neg hwindow]
  rw [div_mul_cancel₀ _ hwindow, ← BoundedDeque.length_rtake]
  exact congrArg (fun xs : List F => (xs.length : F)) hselect

variable {windowSec now : F} {events : List (Event F)}

theorem requestsPerSec_mul (hwindow : windowSec ≠ 0) (hordered : Ordered events now) :
    ((new windowSec).recordAll events).requestsPerSec now * windowSec
      = (min 5000 (completionsWithin windowSec now events).length : Nat) := by
  have hsec : ((new windowSec).recordAll events).windowSec = windowSec := recordAll_windowSec _ _
  obtain ⟨htimes, hle⟩ := hordered.sublist (completionTimes_sublist events)
  have hitems : ((new windowSec).recordAll events).completionTimestamps.items
      = ((events.flatMap Event.completions).map Prod.fst).rtake 5000 := by
    rw [List.map_flatMap]
    exact completionTimestamps_appends.items_recordAll (new windowSec) events
  have hrate := rate_mul _ (hsec.symm ▸ hwindow) htimes hle 5000
  rw [hsec, List.filter_map, List.length_map] at hrate
  unfold requestsPerSec
  rw [hitems]
  exact hrate

theorem decodeIterationsPerSec_mul (hwindow : windowSec ≠ 0) (hordered : Ordered events now) :
    ((new windowSec).recordAll events).decodeIterationsPerSec now * windowSec
      = (min 5000 (decodeStepsWithin windowSec now events).length : Nat) := by
  have hsec : ((new windowSec).recordAll events).windowSec = windowSec := recordAll_windowSec _ _
  obtain ⟨htimes, hle⟩ := hordered.sublist (decodeTimes_sublist events)
  have hitems : ((new windowSec).recordAll events).decodeIterationTimestamps.items
      = (events.flatMap Event.decodeSteps).rtake 5000 :=
    decodeIterationTimestamps_appends.items_recordAll (new windowSec) events
  have hrate := rate_mul _ (hsec.symm ▸ hwindow) htimes hle 5000
  rw [hsec] at hrate
  unfold decodeIterationsPerSec
  rw [hitems]
  exact hrate

theorem tokensPerSec_mul (hwindow : windowSec ≠ 0) (hordered : Ordered events now) :
    (((new windowSec).recordAll events).tokenRates now).1 * windowSec
      = ((((completionsWithin windowSec now events).rtake 10000).map
          fun e => e.2.1 + e.2.2).sum : Nat) := by
  have hsec : ((new windowSec).recordAll events).windowSec = windowSec := recordAll_windowSec _ _
  obtain ⟨htimes, hle⟩ := hordered.sublist (completionTimes_sublist events)
  have hitems : ((new windowSec).recordAll events).tokenEvents.items
      = (events.flatMap Event.completions).rtake 10000 :=
    tokenEvents_appends.items_recordAll (new windowSec) events
  have hselect : ((events.flatMap Event.completions).rtake 10000).filter
      (fun e => decide (now - windowSec ≤ e.1))
      = (completionsWithin windowSec now events).rtake 10000 := filter_cutoff_rtake htimes hle 10000
  unfold tokenRates
  simp only [hsec, if_neg hwindow, hitems]
  rw [hselect, div_mul_cancel₀ _ hwindow, List.sum_map_add]

/-- **Windowed rates**: the rates of requests and of decode iterations are those of the window, up
to 5000 events of each kind, and the tokens are those of its last 10000 completions. -/
theorem windowedRates (hwindow : windowSec ≠ 0) (hordered : Ordered events now) :
    let s := (new windowSec).recordAll events
    s.requestsPerSec now * windowSec
        = (min 5000 (completionsWithin windowSec now events).length : Nat) ∧
      s.decodeIterationsPerSec now * windowSec
        = (min 5000 (decodeStepsWithin windowSec now events).length : Nat) ∧
      (s.tokenRates now).1 * windowSec
        = ((((completionsWithin windowSec now events).rtake 10000).map
            fun e => e.2.1 + e.2.2).sum : Nat) :=
  ⟨requestsPerSec_mul hwindow hordered, decodeIterationsPerSec_mul hwindow hordered,
    tokensPerSec_mul hwindow hordered⟩

/-- Two completions, then a decode step, in half a minute. -/
def halfMinute : List (Event ℚ) :=
  [.completion 10 (some 1) 2 3 4 "ok", .completion 35 (some 1) 2 5 6 "ok", .decodeStep 40 1]

/-- Of the two completions one is older than the window. -/
theorem halfMinute_windowedRates :
    (completionsWithin 20 50 halfMinute = [(35, 5, 6)] ∧
      decodeStepsWithin 20 50 halfMinute = [40]) ∧
    let s := (new 20).recordAll halfMinute
    s.requestsPerSec 50 * 20 = (min 5000 (completionsWithin 20 50 halfMinute).length : Nat) ∧
      s.decodeIterationsPerSec 50 * 20
        = (min 5000 (decodeStepsWithin 20 50 halfMinute).length : Nat) ∧
      (s.tokenRates 50).1 * 20 = ((((completionsWithin 20 50 halfMinute).rtake 10000).map
        fun e => e.2.1 + e.2.2).sum : Nat) :=
  ⟨by decide +kernel, windowedRates (by decide) (by unfold Ordered; decide)⟩

/-- Requests that all finish at the same time. -/
def allAtOnce (n : Nat) : List (Event ℚ) := List.replicate n (.completion 0 none 1 1 1 "ok")

theorem allAtOnce_completions (n : Nat) :
    (allAtOnce n).flatMap Event.completions = List.replicate n ((0 : ℚ), 1, 1) := by
  unfold allAtOnce
  rw [List.flatMap_replicate]
  exact List.flatten_replicate_singleton

theorem allAtOnce_ordered (n : Nat) {now : ℚ} (hnow : 0 ≤ now) : Ordered (allAtOnce n) now := by
  have htimes : (allAtOnce n).flatMap Event.times = List.replicate n 0 := by
    unfold allAtOnce
    rw [List.flatMap_replicate]
    exact List.flatten_replicate_singleton
  unfold Ordered
  rw [htimes, List.pairwise_append]
  refine ⟨List.pairwise_replicate.mpr (Or.inr le_rfl), by simp, fun x hx y hy => ?_⟩
  rw [List.eq_of_mem_replicate hx, List.mem_singleton.mp hy]
  exact hnow

/-- **Of 5001 requests in the window one is not counted.** A window of no length has no rate, even
if a request finishes at that very time. -/
theorem allAtOnce_notCounted :
    (Ordered (allAtOnce 5001) 1 ∧
      ((new 60).recordAll (allAtOnce 5001)).requestsPerSec 1 * 60
        ≠ (completionsWithin 60 1 (allAtOnce 5001)).length) ∧
    (Ordered (allAtOnce 1) 0 ∧
      ((new 0).recordAll (allAtOnce 1)).requestsPerSec 0 * 0
        ≠ (completionsWithin 0 0 (allAtOnce 1)).length) := by
  have hordered : Ordered (allAtOnce 5001) 1 := allAtOnce_ordered 5001 (by decide)
  refine ⟨⟨hordered, ?_⟩, allAtOnce_ordered 1 le_rfl, by decide +kernel⟩
  have hlen : (completionsWithin 60 1 (allAtOnce 5001)).length = 5001 := by
    unfold completionsWithin
    rw [allAtOnce_completions, List.filter_replicate_of_pos (by decide +kernel),
      List.length_replicate]
  rw [requestsPerSec_mul (by decide) hordered, hlen]
  decide

end MetricsStore

end Nifre
