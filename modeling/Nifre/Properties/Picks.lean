import Nifre.Properties.SchedulerSteps

/-!
# What the scheduler picks

* `Scheduler.pickDecode_eq` — the first decoding requests, one token of the budget each
* `Scheduler.pickPrefill_sum` — the next chunks of the prefilling requests stay within the budget
* `Scheduler.mem_pickPrefill` — the first prefilling request is picked if its chunk fits
-/

namespace Nifre

namespace Scheduler

variable {Tok : Type} {s : Scheduler Tok}

/-- The requests among `l` that decode. -/
def decoding (s : Scheduler Tok) (l : List Ref) : List Ref :=
  l.filter fun r => (s.requests r).state = .decode

/-- **As many decoding requests as the budget has tokens**, in their order. -/
theorem pickDecode_eq {budget : Int} (hb : 0 ≤ budget) (l : List Ref) :
    pickDecode s l budget = ((s.decoding l).take budget.toNat,
      budget - ((s.decoding l).take budget.toNat).length) := by
  induction l generalizing budget with
  | nil => simp [pickDecode, decoding]
  | cons r l ih =>
    rw [pickDecode]
    by_cases hs : (s.requests r).state = .decode
    · have hcons : s.decoding (r :: l) = r :: s.decoding l :=
        List.filter_cons_of_pos (by simpa using hs)
      rw [if_neg (not_not.mpr hs), hcons]
      by_cases hout : budget < 1
      · rw [if_pos hout, show budget.toNat = 0 by omega]
        simp
      · obtain ⟨n, hn⟩ : ∃ n, budget.toNat = n + 1 :=
          Nat.exists_eq_add_one.mpr (by omega)
        have hrest : (budget - 1).toNat = n := by omega
        rw [if_neg hout, ih (by omega), hn, hrest, List.take_succ_cons, List.length_cons]
        simp only [Prod.mk.injEq, true_and]
        omega
    · have hcons : s.decoding (r :: l) = s.decoding l :=
        List.filter_cons_of_neg (by simpa using hs)
      rw [if_pos hs, ih hb, hcons]

/-- The decoding requests leave a budget that is not negative. -/
theorem pickDecode_left {budget : Int} (hb : 0 ≤ budget) (l : List Ref) :
    (pickDecode s l budget).2 + (pickDecode s l budget).1.length = budget ∧
      0 ≤ (pickDecode s l budget).2 := by
  rw [pickDecode_eq hb]
  have hlen := List.length_take_le budget.toNat (s.decoding l)
  simp only
  omega

/-- **The chunks that are picked fit in the budget together.** -/
theorem pickPrefill_sum {budget : Int} (hb : 0 ≤ budget) (l : List Ref) :
    ((pickPrefill s l budget).map fun r => prefillChunkTokens (s.requests r)).sum ≤ budget := by
  induction l generalizing budget with
  | nil => simpa [pickPrefill] using hb
  | cons r l ih =>
    rw [pickPrefill]
    by_cases hs : (s.requests r).state = .prefill
    · rw [if_neg (not_not.mpr hs)]
      simp only
      by_cases hfit : budget < prefillChunkTokens (s.requests r)
      · rw [if_pos hfit]
        exact ih hb
      · have hrest := @ih (budget - prefillChunkTokens (s.requests r)) (by omega)
        rw [if_neg hfit, List.map_cons, List.sum_cons]
        omega
    · rw [if_pos hs]
      exact ih hb

/-- **The first request that prefills is picked** if its chunk is within the budget. -/
theorem mem_pickPrefill {budget : Int} {l : List Ref} {r : Ref}
    (hfirst : l.find? (fun r => (s.requests r).state = .prefill) = some r)
    (hfit : prefillChunkTokens (s.requests r) ≤ budget) : r ∈ pickPrefill s l budget := by
  induction l with
  | nil => cases hfirst
  | cons r' l ih =>
    rw [pickPrefill]
    by_cases hs : (s.requests r').state = .prefill
    · rw [List.find?_cons_of_pos (by simpa using hs)] at hfirst
      cases hfirst
      rw [if_neg (not_not.mpr hs)]
      simp only
      rw [if_neg (Int.not_lt.mpr hfit)]
      exact List.mem_cons_self
    · rw [List.find?_cons_of_neg (by simpa using hs)] at hfirst
      rw [if_pos hs]
      exact ih hfirst

/-- A call of `schedule` returns the picks from the requests that run then. -/
theorem schedule_eq (s : Scheduler Tok) : schedule.run s = .ok
    { prefillRequests := pickPrefill s.assignWaitingToSlots s.assignWaitingToSlots.running.values
        (pickDecode s.assignWaitingToSlots s.assignWaitingToSlots.running.values
          s.assignWaitingToSlots.maxTokensPerStep).2
      decodeRequests := (pickDecode s.assignWaitingToSlots
        s.assignWaitingToSlots.running.values s.assignWaitingToSlots.maxTokensPerStep).1 }
    s.assignWaitingToSlots := rfl

end Scheduler

end Nifre
