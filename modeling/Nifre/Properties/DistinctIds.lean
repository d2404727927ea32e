import Nifre.Properties.FreeSlots
import Nifre.Properties.Reconfigure

/-!
# Runs with distinct ids

As long as every new request has an id of its own, the queues stay in order, whatever the model
does and on either exit of every call.
-/

namespace Nifre

variable {Row Score : Type}

/-! ## Transitions of one request -/

namespace Scheduler

variable {s : Scheduler Nat}

theorem Inv.startDecode (h : Inv s) {r : Ref} (hr : r < s.created)
    (hs : (s.requests r).state = .prefill) :
    Inv (s.update r fun q => { q with state := .decode }) := by
  have hrun : r ∈ s.running.values := h.mem_running hr (by simp [hs]) (by simp [hs])
  have hout : (s.requests r).outputTokenIds = [] := by
    rcases (h.running r hrun).state with ⟨-, ho⟩ | ⟨hd, -⟩
    · exact ho
    · cases hs.symm.trans hd
  exact h.progress hrun (q := { s.requests r with state := .decode }) rfl rfl
    ⟨Or.inr ⟨rfl, Or.inl hout⟩, (h.running r hrun).batchIdx⟩

/-- **A token for a request that decodes**: it goes on, or completes and gives its slot back. -/
theorem Inv.decoded (h : Inv s) {r : Ref} (hr : r < s.created)
    (hd : (s.requests r).state = .decode) (tokenId : Nat) :
    ∃ s', (markDecodeDone r tokenId).run s = .ok () s' ∧ Inv s' ∧
      s'.maxConcurrentRequests = s.maxConcurrentRequests ∧
      s'.maxTokensPerStep = s.maxTokensPerStep := by
  have hrun : r ∈ s.running.values := h.mem_running hr (by simp [hd]) (by simp [hd])
  obtain ⟨b, hb, hmark⟩ := markDecodeDone_run h hrun hd tokenId
  by_cases hlast : (s.requests r).maxNewTokens ≤ ((s.requests r).numGenerated + 1 : Nat)
  · rw [if_pos hlast] at hmark
    exact ⟨_, hmark, h.completeWith hrun hd hb tokenId hlast, rfl, rfl⟩
  · rw [if_neg hlast] at hmark
    exact ⟨_, hmark, h.pushToken hrun hd tokenId hlast, rfl, rfl⟩

/-- What a cancellation leaves, on either exit. -/
theorem Inv.cancelled (h : Inv s) (requestId status : String) :
    Inv (Exec.after (cancelRequest requestId status) s) ∧
      (Exec.after (cancelRequest requestId status) s).maxConcurrentRequests
        = s.maxConcurrentRequests ∧
      (Exec.after (cancelRequest requestId status) s).maxTokensPerStep = s.maxTokensPerStep := by
  rcases cancelRequest_run h requestId status with
    ⟨r, hr, -, hrun⟩ | ⟨r, hr, b, -, hb, hrun⟩ | ⟨-, -, err, hrun⟩
  · rw [Exec.after_of_ok hrun]
    exact ⟨h.dropWaiting hr status, rfl, rfl⟩
  · rw [Exec.after_of_ok hrun]
    exact ⟨h.failRunning hr hb status, rfl, rfl⟩
  · rw [Exec.after_of_error hrun]
    exact ⟨h, rfl, rfl⟩

/-- The scheduler accepted the number of slots, so no running request loses its slot. -/
theorem Inv.withMax (h : Inv s) {newMax : Int} {cacheInitialized : Bool}
    (ha : s.AcceptsMax newMax cacheInitialized) :
    Inv (s.withMax newMax) ∧ (s.withMax newMax).maxConcurrentRequests = newMax := by
  obtain ⟨hpos, ha⟩ := ha
  unfold Scheduler.withMax
  by_cases hsame : newMax = s.maxConcurrentRequests
  · rw [if_pos hsame]
    exact ⟨h, hsame.symm⟩
  · rw [if_neg hsame]
    obtain ⟨-, -, hheld⟩ := ha.resolve_left hsame
    refine ⟨h.resized fun r hr b hb => ?_, Int.toNat_of_nonneg (Int.le_of_lt hpos)⟩
    have := hheld r hr b (Option.mem_toList.mpr hb)
    omega

end Scheduler

/-! ## Calls -/

namespace Engine

open Scheduler (Inv)

variable {e : Engine Row} {chain : Int → List Nat → Int} {model : InferenceModel Row Score}

theorem inv_assigned (h : Inv e.scheduler) (changes : EngineChanges) :
    Inv (e.assigned changes).scheduler :=
  h.touch (fun _ => Scheduler.SameStatus.refl _)
    (changes.maxTokensPerStep.getD e.scheduler.maxTokensPerStep)

theorem inv_reconfigured (h : Inv e.scheduler) {changes : EngineChanges}
    (hslots : SlotsAllowed e changes) : Inv (e.reconfigured changes).scheduler := by
  have hassigned := inv_assigned h changes
  unfold reconfigured
  cases hv : changes.maxConcurrentRequests with
  | none => exact hassigned
  | some v => exact (hassigned.withMax (hslots v hv)).1

theorem stepClosed_inv (model : InferenceModel Row Score) :
    StepClosed model (fun _ _ => True) fun e => Inv e.scheduler where
  made := fun _ _ h _ _ => h
  cache := fun _ _ _ h _ _ => h
  forward := fun e _ _ h hf => h.touch (fun r => (hf r).toSameStatus) e.scheduler.maxTokensPerStep
  assign := fun _ _ _ _ _ _ h hw hfree => h.assignSlot hw hfree
  startDecode := fun _ _ _ h hr hs _ => h.startDecode hr hs
  handle := fun e r tokenId _ h hr hd => by
    obtain ⟨s', hmark, hinv, -⟩ := h.decoded hr hd tokenId
    unfold handled
    rw [hmark]
    exact hinv

/-- **One call**: the queues stay in order if a new request has an id of its own. -/
theorem next_inv [LinearOrder Score] (hlive : Scheduler.Live e.scheduler) (h : Inv e.scheduler)
    {op : Op} (hid : NewId e op) : Inv (Engine.next chain model e op).scheduler := by
  cases op with
  | addRequest requestId promptTokenIds maxNewTokens =>
    rw [Engine.next, call, Exec.after_dropped, Exec.after_of_ok (addRequest_run e _ _ _)]
    exact h.add ⟨rfl, rfl, rfl⟩ hid
  | step =>
    rw [Engine.next, call, Exec.after_dropped]
    exact ((stepClosed_inv model).step (cacheSteps_any chain model) e ⟨hlive, h, rfl⟩).inv
  | cancelRequest requestId status =>
    rw [Engine.next, call, Exec.after_dropped]
    exact cancelRequest_pieces (J := fun e => Inv e.scheduler)
      (fun _ h => (h.cancelled requestId status).1) (fun _ _ _ h _ => h) e h
  | reconfigure prefillChunkSize maxTokensPerStep maxConcurrentRequests usePaged usePrefix =>
    rw [Engine.next, call, Exec.after_dropped]
    have hout := reconfigure_outcome e
      ⟨prefillChunkSize, maxTokensPerStep, maxConcurrentRequests, usePaged, usePrefix⟩
    unfold reconfigureWith at hout
    unfold Exec.after
    generalize (reconfigure prefillChunkSize maxTokensPerStep maxConcurrentRequests usePaged
      usePrefix : M Row EngineConfig).run e = result at hout
    cases hout with
    | refused err _ => exact h
    | halfway err _ _ _ => exact inv_assigned h _
    | done _ _ hslots => exact inv_reconfigured h hslots
  | registerTokenCallback requestId => exact h
  | unregisterTokenCallback requestId => exact h

theorem new_inv [LinearOrder Score] {maxConcurrentRequests prefillChunkSize maxTokensPerStep : Int}
    {usePagedKvCache usePrefixCache : Bool}
    (h : new model maxConcurrentRequests prefillChunkSize maxTokensPerStep usePagedKvCache
      usePrefixCache = .ok e) : Inv e.scheduler := by
  obtain ⟨s, hs, he⟩ := Exec.bind_eq_ok h
  cases he
  exact Scheduler.new_inv hs

end Engine

end Nifre
