import Nifre.Observability.MetricsStore
import Mathlib.Data.List.Flatten

/-!
# What the metrics store holds after a run

Each deque holds the last of what was recorded for it, and each counter has counted everything.
-/

namespace Nifre

namespace MetricsStore

variable {F : Type}

/-! ## What an event adds -/

/-- The time of a completion, with its tokens. -/
def Event.completions : Event F → List (F × Nat × Nat)
  | .completion now _ _ inputTokens outputTokens _ => [(now, inputTokens, outputTokens)]
  | _ => []

def Event.ttfts : Event F → List F
  | .completion _ ttftSec _ _ _ _ => ttftSec.toList
  | _ => []

def Event.decodeSteps : Event F → List F
  | .decodeStep now _ => [now]
  | _ => []

/-- The time that was read, if any. -/
def Event.times : Event F → List F
  | .completion now _ _ _ _ _ => [now]
  | .decodeStep now _ => [now]
  | _ => []

/-- A completion with an error. -/
def Event.isError : Event F → Bool
  | .completion _ _ _ _ _ status => status = "error"
  | _ => false

/-! ## Deques -/

/-- What an event does to a deque: nothing, or it appends what it selects. -/
def Appends {α : Type} {n : Nat} (deque : MetricsStore F → BoundedDeque n α)
    (select : Event F → List α) : Prop :=
  ∀ s e, (deque (s.record e) = deque s ∧ select e = []) ∨
    ∃ x, deque (s.record e) = (deque s).append x ∧ select e = [x]

/-- **A deque holds the last of all that the events selected for it.** -/
theorem Appends.items_recordAll {α : Type} {n : Nat} {deque : MetricsStore F → BoundedDeque n α}
    {select : Event F → List α} (h : Appends deque select) (s : MetricsStore F)
    (events : List (Event F)) :
    (deque (s.recordAll events)).items = ((deque s).items ++ events.flatMap select).rtake n := by
  induction events generalizing s with
  | nil =>
    rw [List.flatMap_nil, List.append_nil, BoundedDeque.rtake_of_length_le (deque s).length_le]
    rfl
  | cons e events ih =>
    have hrest : (deque (s.recordAll (e :: events))).items
        = ((deque (s.record e)).items ++ events.flatMap select).rtake n := ih (s.record e)
    rw [hrest, List.flatMap_cons]
    rcases h s e with ⟨hdeque, hselect⟩ | ⟨x, hdeque, hselect⟩
    · rw [hdeque, hselect, List.nil_append]
    · rw [hdeque, hselect, BoundedDeque.items_append, BoundedDeque.rtake_rtake_append,
        List.append_assoc]

/-- Counting the status leaves everything else as it was. -/
structure SameDeques (s s' : MetricsStore F) : Prop where
  tokenEvents : s'.tokenEvents = s.tokenEvents
  completionTimestamps : s'.completionTimestamps = s.completionTimestamps
  ttftSamples : s'.ttftSamples = s.ttftSamples
  decodeIterationTimestamps : s'.decodeIterationTimestamps = s.decodeIterationTimestamps
  windowSec : s'.windowSec = s.windowSec

theorem countStatus_deques (status : String) (s : MetricsStore F) :
    SameDeques s (s.countStatus status) := by
  unfold countStatus
  split
  · exact ⟨rfl, rfl, rfl, rfl, rfl⟩
  · split <;> exact ⟨rfl, rfl, rfl, rfl, rfl⟩

theorem tokenEvents_appends : Appends (F := F) tokenEvents Event.completions := by
  intro s e
  cases e with
  | completion now ttftSec totalLatencySec inputTokens outputTokens status =>
    exact Or.inr ⟨_, congrArg (·.append (now, inputTokens, outputTokens))
      (countStatus_deques status s).tokenEvents, rfl⟩
  | _ => exact Or.inl ⟨rfl, rfl⟩

theorem completionTimestamps_appends :
    Appends (F := F) completionTimestamps fun e => e.completions.map Prod.fst := by
  intro s e
  cases e with
  | completion now ttftSec totalLatencySec inputTokens outputTokens status =>
    have hsame := (countStatus_deques status s).completionTimestamps
    exact Or.inr ⟨_, congrArg (·.append now) hsame, rfl⟩
  | _ => exact Or.inl ⟨rfl, rfl⟩

theorem ttftSamples_appends : Appends (F := F) ttftSamples Event.ttfts := by
  intro s e
  cases e with
  | completion now ttftSec totalLatencySec inputTokens outputTokens status =>
    have hsame := (countStatus_deques status s).ttftSamples
    cases ttftSec with
    | none => exact Or.inl ⟨hsame, rfl⟩
    | some ttft => exact Or.inr ⟨_, congrArg (·.append ttft) hsame, rfl⟩
  | _ => exact Or.inl ⟨rfl, rfl⟩

theorem decodeIterationTimestamps_appends :
    Appends (F := F) decodeIterationTimestamps Event.decodeSteps := by
  intro s e
  cases e with
  | completion now ttftSec totalLatencySec inputTokens outputTokens status =>
    exact Or.inl ⟨(countStatus_deques status s).decodeIterationTimestamps, rfl⟩
  | decodeStep now durationSec => exact Or.inr ⟨now, rfl, rfl⟩
  | _ => exact Or.inl ⟨rfl, rfl⟩

/-! ## Counters -/

/-- **A counter to which every event adds what it measures.** -/
theorem counter_recordAll {counter : MetricsStore F → Nat} {measure : Event F → Nat}
    (hstep : ∀ s e, counter (s.record e) = counter s + measure e) (s : MetricsStore F)
    (events : List (Event F)) :
    counter (s.recordAll events) = counter s + (events.map measure).sum := by
  induction events generalizing s with
  | nil => rfl
  | cons e events ih =>
    show counter ((s.record e).recordAll events) = _
    rw [ih, hstep, List.map_cons, List.sum_cons, Nat.add_assoc]

theorem recordAll_totalErrors (s : MetricsStore F) (events : List (Event F)) :
    (s.recordAll events).totalErrors
      = s.totalErrors + (events.map fun e => if e.isError then 1 else 0).sum := by
  refine @counter_recordAll F totalErrors _ (fun s e => ?_) s events
  cases e with
  | completion now ttftSec totalLatencySec inputTokens outputTokens status =>
    show (s.countStatus status).totalErrors
      = s.totalErrors + if (decide (status = "error")) = true then 1 else 0
    unfold countStatus
    split
    · next htimeout => simp [htimeout]
    · split
      · next herror => simp [herror]
      · next herror => simp [herror]
  | _ => rfl

theorem recordAll_finishedTotal (s : MetricsStore F) (events : List (Event F)) :
    (s.recordAll events).finishedTotal
      = s.finishedTotal + (events.map fun e => e.completions.length).sum := by
  refine @counter_recordAll F finishedTotal _ (fun s e => ?_) s events
  cases e with
  | completion now ttftSec totalLatencySec inputTokens outputTokens status =>
    show (s.countStatus status).finishedTotal = s.finishedTotal + 1
    unfold countStatus finishedTotal
    split
    · simp only
      omega
    · split <;> simp only <;> omega
  | _ => rfl

theorem recordAll_windowSec (s : MetricsStore F) (events : List (Event F)) :
    (s.recordAll events).windowSec = s.windowSec := by
  induction events generalizing s with
  | nil => rfl
  | cons e events ih =>
    refine (ih (s.record e)).trans ?_
    cases e with
    | completion now ttftSec totalLatencySec inputTokens outputTokens status =>
      exact (countStatus_deques status s).windowSec
    | _ => rfl

end MetricsStore

end Nifre
