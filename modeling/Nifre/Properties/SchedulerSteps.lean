import Nifre.Properties.SchedulerInvariant

/-!
# What a method of the scheduler does

For each method, from a state with the invariant, the ways it ends and the state it leaves then.
-/

namespace Nifre

namespace Scheduler

variable {Tok : Type} {s : Scheduler Tok}

/-! ## add_request -/

theorem create_run (q : InferenceRequest Tok) : (create q).run s = .ok s.created
    { s with requests := Function.update s.requests s.created q, created := s.created + 1 } := rfl

theorem addRequest_run {r : Ref} (h : (s.requests r).state = .waiting) :
    (addRequest r).run s = .ok () { s with waiting := s.waiting ++ [r] } := by
  rw [addRequest, Exec.run_bind_ok (EStateM.run_get s), if_neg (not_not.mpr h)]
  rfl

/-! ## schedule -/

/-- The assignment loop is a sequence of single assignments. -/
theorem assignRounds_induct {I : Scheduler Tok → Prop}
    (hstep : ∀ s r waiting b freeSlots, I s → s.waiting = r :: waiting →
      s.freeSlots = b :: freeSlots → I (s.assignSlot r waiting b freeSlots)) :
    ∀ (rounds : Nat) {s : Scheduler Tok}, I s → I (assignRounds rounds s)
  | 0, _, h => h
  | rounds + 1, s, h => by
    rw [assignRounds]
    split
    · next r waiting b freeSlots hw hf =>
      exact assignRounds_induct hstep rounds (hstep s r waiting b freeSlots h hw hf)
    · exact h

/-- One assignment, as a record. -/
theorem assignSlot_eq (s : Scheduler Tok) (r : Ref) (waiting : List Ref) (b : Nat)
    (freeSlots : List Nat) : s.assignSlot r waiting b freeSlots =
      { s with
        waiting := waiting
        freeSlots := freeSlots
        requests := Function.update s.requests r
          { s.requests r with batchIdx := some b, state := .prefill }
        running := s.running.insert (s.requests r).requestId r } := by
  simp [assignSlot, update]

theorem Inv.assignSlot (h : Inv s) {r : Ref} {waiting : List Ref} {b : Nat} {freeSlots : List Nat}
    (hw : s.waiting = r :: waiting) (hf : s.freeSlots = b :: freeSlots) :
    Inv (s.assignSlot r waiting b freeSlots) := by
  have hr : Waits (s.requests r) := h.waiting r (by rw [hw]; exact List.mem_cons_self)
  rw [assignSlot_eq]
  exact h.assign (q := { s.requests r with batchIdx := some b, state := .prefill }) hw hf rfl rfl
    ⟨Or.inl ⟨rfl, hr.output⟩, nofun⟩

theorem Inv.assignWaitingToSlots (h : Inv s) : Inv s.assignWaitingToSlots :=
  assignRounds_induct (fun _ _ _ _ _ hi hw hf => hi.assignSlot hw hf) _ h

/-- The picked requests are running, in their order, and in the state asked for. -/
theorem pickDecode_sublist (s : Scheduler Tok) : ∀ (l : List Ref) (budget : Int),
    (pickDecode s l budget).1.Sublist (l.filter fun r => (s.requests r).state = .decode)
  | [], _ => List.Sublist.refl _
  | r :: rest, budget => by
    rw [pickDecode]
    by_cases hs : (s.requests r).state = .decode
    · rw [if_neg (not_not.mpr hs), List.filter_cons_of_pos (by simpa using hs)]
      split
      · exact List.nil_sublist _
      · exact (pickDecode_sublist s rest _).cons_cons r
    · rw [if_pos hs, List.filter_cons_of_neg (by simpa using hs)]
      exact pickDecode_sublist s rest budget

theorem pickPrefill_sublist (s : Scheduler Tok) : ∀ (l : List Ref) (budget : Int),
    (pickPrefill s l budget).Sublist (l.filter fun r => (s.requests r).state = .prefill)
  | [], _ => List.Sublist.refl _
  | r :: rest, budget => by
    rw [pickPrefill]
    by_cases hs : (s.requests r).state = .prefill
    · rw [if_neg (not_not.mpr hs), List.filter_cons_of_pos (by simpa using hs)]
      simp only
      split
      · exact (pickPrefill_sublist s rest budget).cons r
      · exact (pickPrefill_sublist s rest _).cons_cons r
    · rw [if_pos hs, List.filter_cons_of_neg (by simpa using hs)]
      exact pickPrefill_sublist s rest budget

theorem schedule_run (s : Scheduler Tok) :
    ∃ result, schedule.run s = .ok result s.assignWaitingToSlots ∧
      result.prefillRequests.Sublist (s.assignWaitingToSlots.running.values.filter
        fun r => (s.assignWaitingToSlots.requests r).state = .prefill) ∧
      result.decodeRequests.Sublist (s.assignWaitingToSlots.running.values.filter
        fun r => (s.assignWaitingToSlots.requests r).state = .decode) :=
  ⟨_, rfl, pickPrefill_sublist _ _ _, pickDecode_sublist _ _ _⟩

/-! ## mark_prefill_done, mark_decode_done -/

theorem markPrefillDone_run {r : Ref} (hs : (s.requests r).state = .prefill)
    (hc : (s.requests r).prefillComplete = true) : (markPrefillDone r).run s
      = .ok () (s.update r fun request => { request with state := .decode }) := by
  unfold markPrefillDone
  rw [Exec.run_bind_ok (EStateM.run_get s), if_neg (not_not.mpr hs), if_neg (by simp [hc])]
  rfl

theorem markPrefillDone_error {r : Ref} (h : ¬((s.requests r).state = .prefill ∧
    (s.requests r).prefillComplete = true)) : ∃ e, (markPrefillDone r).run s = .error e s := by
  unfold markPrefillDone
  rw [Exec.run_bind_ok (EStateM.run_get s)]
  by_cases hs : (s.requests r).state = .prefill
  · have hc : (s.requests r).prefillComplete = false := by
      cases hc : (s.requests r).prefillComplete with
      | false => rfl
      | true => exact absurd ⟨hs, hc⟩ h
    rw [if_neg (not_not.mpr hs), if_pos hc]
    exact ⟨_, rfl⟩
  · rw [if_pos hs]
    exact ⟨_, rfl⟩

/-- A request with one more token. -/
def pushToken (q : InferenceRequest Tok) (tokenId : Tok) : InferenceRequest Tok :=
  { q with outputTokenIds := q.outputTokenIds ++ [tokenId] }

/-- The scheduler after a request completed with its last token and gave slot `b` back. -/
def completeWith (s : Scheduler Tok) (r : Ref) (b : Nat) (tokenId : Tok) : Scheduler Tok :=
  { s with
    requests := Function.update s.requests r
      { pushToken (s.requests r) tokenId with state := .finished, batchIdx := none }
    running := s.running.erase (s.requests r).requestId
    completed := s.completed.insert (s.requests r).requestId r
    freeSlots := s.freeSlots ++ [b] }

/-- **A token for a decoding request**: it goes on, or completes if it was the last one. -/
theorem markDecodeDone_run (h : Inv s) {r : Ref} (hr : r ∈ s.running.values)
    (hd : (s.requests r).state = .decode) (tokenId : Tok) :
    ∃ b, (s.requests r).batchIdx = some b ∧ (markDecodeDone r tokenId).run s
      = .ok () (if (s.requests r).maxNewTokens ≤ ((s.requests r).numGenerated + 1 : Nat)
        then s.completeWith r b tokenId
        else { s with requests := Function.update s.requests r (pushToken (s.requests r) tokenId) }) := by
  obtain ⟨b, hb⟩ := Option.ne_none_iff_exists'.mp (h.running r hr).batchIdx
  refine ⟨b, hb, ?_⟩
  have hkey : s.running.contains (s.requests r).requestId = true :=
    OrderedDict.contains_iff.mpr (OrderedDict.mem_keys_of_mem (h.running_entry hr))
  have hlen : (pushToken (s.requests r) tokenId).numGenerated = (s.requests r).numGenerated + 1 := by
    simp [pushToken, InferenceRequest.numGenerated]
  unfold markDecodeDone
  rw [Exec.run_bind_ok (EStateM.run_get s), if_neg (not_not.mpr hd)]
  set s₁ := s.update r fun request => pushToken request tokenId with hs₁
  have hreq : s₁.requests r = pushToken (s.requests r) tokenId := by simp [hs₁, update]
  show (set s₁ >>= fun _ => if (s₁.requests r).maxNewTokens ≤ ((s₁.requests r).numGenerated : Int)
    then finishRequest r else pure () : M Tok Unit).run s = _
  rw [Exec.run_bind_ok (EStateM.run_set s₁ s), hreq, hlen]
  have hmax : (pushToken (s.requests r) tokenId).maxNewTokens = (s.requests r).maxNewTokens := rfl
  rw [hmax]
  by_cases hlast : (s.requests r).maxNewTokens ≤ ((s.requests r).numGenerated + 1 : Nat)
  · rw [if_pos hlast, if_pos hlast]
    unfold finishRequest
    rw [Exec.run_bind_ok (EStateM.run_modify _ s₁), Exec.run_bind_ok (EStateM.run_get _)]
    have hid : ((s₁.update r fun request => { request with state := .finished }).requests r).requestId
        = (s.requests r).requestId := by simp [update, hreq, pushToken]
    have hrun : (s₁.update r fun request => { request with state := .finished }).running
        = s.running := rfl
    simp only [hid, hrun, hkey]
    simp [freeSlot, update, hs₁, pushToken, hb, completeWith]
  · rw [if_neg hlast, if_neg hlast]
    rfl

theorem markDecodeDone_error {r : Ref} (hd : (s.requests r).state ≠ .decode) (tokenId : Tok) :
    ∃ e, (markDecodeDone r tokenId).run s = .error e s := by
  unfold markDecodeDone
  rw [Exec.run_bind_ok (EStateM.run_get s), if_pos hd]
  exact ⟨_, rfl⟩

theorem Inv.pushToken (h : Inv s) {r : Ref} (hr : r ∈ s.running.values)
    (hd : (s.requests r).state = .decode) (tokenId : Tok)
    (hmore : ¬(s.requests r).maxNewTokens ≤ ((s.requests r).numGenerated + 1 : Nat)) :
    Inv { s with requests := Function.update s.requests r (pushToken (s.requests r) tokenId) } := by
  refine h.progress (q := Scheduler.pushToken (s.requests r) tokenId) hr rfl rfl
    ⟨Or.inr ⟨hd, Or.inr ?_⟩, (h.running r hr).batchIdx⟩
  have hlen : (Scheduler.pushToken (s.requests r) tokenId).numGenerated
      = (s.requests r).numGenerated + 1 := by
    simp [Scheduler.pushToken, InferenceRequest.numGenerated]
  rw [hlen]
  exact Int.not_le.mp hmore

theorem Inv.completeWith (h : Inv s) {r : Ref} (hr : r ∈ s.running.values)
    (hd : (s.requests r).state = .decode) {b : Nat} (hb : (s.requests r).batchIdx = some b)
    (tokenId : Tok) (hlast : (s.requests r).maxNewTokens ≤ ((s.requests r).numGenerated + 1 : Nat)) :
    Inv (s.completeWith r b tokenId) := by
  refine h.complete
    (q := { Scheduler.pushToken (s.requests r) tokenId with state := .finished, batchIdx := none })
    hr hb rfl ⟨rfl, rfl⟩ ?_
  intro hmax
  have hmax' : 1 ≤ (s.requests r).maxNewTokens := hmax
  show ((Scheduler.pushToken (s.requests r) tokenId).numGenerated : Int)
    = (s.requests r).maxNewTokens
  have hlen : (Scheduler.pushToken (s.requests r) tokenId).numGenerated
      = (s.requests r).numGenerated + 1 := by
    simp [Scheduler.pushToken, InferenceRequest.numGenerated]
  rw [hlen]
  -- before the last token there were fewer than `max_new_tokens`
  have hfew : ((s.requests r).numGenerated : Int) < (s.requests r).maxNewTokens := by
    rcases (h.running r hr).state with ⟨hs, -⟩ | ⟨-, hout | hlt⟩
    · rw [hd] at hs; cases hs
    · have : (s.requests r).numGenerated = 0 := by
        unfold InferenceRequest.numGenerated
        rw [hout]
        rfl
      omega
    · exact hlt
  omega

/-! ## cancel_request -/

/-- The scheduler after a waiting request was cancelled. -/
def dropWaiting (s : Scheduler Tok) (r : Ref) (status : String) : Scheduler Tok :=
  { s with
    requests := Function.update s.requests r
      { s.requests r with state := .finished, status := status }
    waiting := s.waiting.erase r
    failed := s.failed.insert (s.requests r).requestId r }

/-- The scheduler after a running request was cancelled and gave slot `b` back. -/
def failRunning (s : Scheduler Tok) (r : Ref) (b : Nat) (status : String) : Scheduler Tok :=
  { s with
    requests := Function.update s.requests r
      { s.requests r with state := .finished, status := status, batchIdx := none }
    running := s.running.erase (s.requests r).requestId
    failed := s.failed.insert (s.requests r).requestId r
    freeSlots := s.freeSlots ++ [b] }

theorem Inv.dropWaiting (h : Inv s) {r : Ref} (hr : r ∈ s.waiting) (status : String) :
    Inv (s.dropWaiting r status) :=
  h.drop (q := { s.requests r with state := .finished, status := status }) hr rfl
    ⟨rfl, (h.waiting r hr).batchIdx⟩

theorem Inv.failRunning (h : Inv s) {r : Ref} (hr : r ∈ s.running.values) {b : Nat}
    (hb : (s.requests r).batchIdx = some b) (status : String) : Inv (s.failRunning r b status) :=
  h.fail (q := { s.requests r with state := .finished, status := status, batchIdx := none }) hr hb
    rfl ⟨rfl, rfl⟩

/-- One reference carries an id. -/
theorem Inv.filter_id (h : Inv s) {l : List Ref} (hnd : l.Nodup) (hlt : ∀ r ∈ l, r < s.created)
    {r : Ref} (hr : r ∈ l) :
    (l.filter fun r' => (s.requests r').requestId = (s.requests r).requestId) = [r] ∧
      (l.filter fun r' => ¬(s.requests r').requestId = (s.requests r).requestId) = l.erase r := by
  have hid : ∀ r' ∈ l, ((s.requests r').requestId = (s.requests r).requestId ↔ r' = r) :=
    fun r' hr' => ⟨fun he => h.ids r' (hlt r' hr') r (hlt r hr) he, fun he => by rw [he]⟩
  constructor
  · rw [List.filter_congr (q := fun r' => decide (r' = r)) fun r' hr' => by
      rw [decide_eq_decide]; exact hid r' hr']
    have := hnd.filter fun r' => decide (r' = r)
    have hmem : ∀ r', r' ∈ l.filter (fun r' => decide (r' = r)) ↔ r' = r := fun r' => by
      simp only [List.mem_filter, decide_eq_true_eq]
      exact ⟨fun hm => hm.2, fun he => ⟨he ▸ hr, he⟩⟩
    exact List.perm_singleton.mp ((List.perm_ext_iff_of_nodup this (List.nodup_singleton r)).mpr
      fun a => by rw [hmem, List.mem_singleton])
  · rw [hnd.erase_eq_filter]
    refine List.filter_congr fun r' hr' => ?_
    rw [Bool.eq_iff_iff]
    simp [hid r' hr']

theorem Inv.waiting_nodup (h : Inv s) : s.waiting.Nodup := h.arrival.imp fun hlt => Nat.ne_of_lt hlt

/-- **The ways `cancel_request` ends.** -/
theorem cancelRequest_run (h : Inv s) (requestId status : String) :
    (∃ r ∈ s.waiting, (s.requests r).requestId = requestId ∧
      (cancelRequest requestId status).run s = .ok r (s.dropWaiting r status)) ∨
    (∃ r ∈ s.running.values, ∃ b, (s.requests r).requestId = requestId ∧
      (s.requests r).batchIdx = some b ∧
      (cancelRequest requestId status).run s = .ok r (s.failRunning r b status)) ∨
    ((∀ r ∈ s.waiting, (s.requests r).requestId ≠ requestId) ∧ requestId ∉ s.running.keys ∧
      ∃ e, (cancelRequest requestId status).run s = .error e s) := by
  by_cases hw : ∃ r ∈ s.waiting, (s.requests r).requestId = requestId
  · obtain ⟨r, hr, rfl⟩ := hw
    obtain ⟨hone, hrest⟩ := h.filter_id h.waiting_nodup (fun _ hm => h.waiting_lt hm) hr
    refine Or.inl ⟨r, hr, rfl, ?_⟩
    unfold cancelRequest
    rw [Exec.run_bind_ok (EStateM.run_get s)]
    simp only [hone, hrest, List.getLast?_singleton]
    rw [Exec.run_bind_ok (EStateM.run_set _ s)]
    rfl
  · have hnone : ∀ r ∈ s.waiting, (s.requests r).requestId ≠ requestId := fun r hr he => hw ⟨r, hr, he⟩
    have hempty : (s.waiting.filter fun r => (s.requests r).requestId = requestId) = [] :=
      List.filter_eq_nil_iff.mpr fun r hr => by simpa using hnone r hr
    have hall : (s.waiting.filter fun r => ¬(s.requests r).requestId = requestId) = s.waiting :=
      List.filter_eq_self.mpr fun r hr => by simpa using hnone r hr
    right
    cases hf : s.running.find? requestId with
    | none =>
      refine Or.inr ⟨hnone, OrderedDict.find?_eq_none_iff.mp hf,
        .keyError s!"unknown request_id: {requestId}", ?_⟩
      · unfold cancelRequest
        rw [Exec.run_bind_ok (EStateM.run_get s)]
        simp only [hempty, hall, List.getLast?_nil, hf]
        rw [Exec.run_bind_ok (EStateM.run_set _ s)]
        rfl
    | some r =>
      have hm := OrderedDict.find?_eq_some_iff.mp hf
      have hr : r ∈ s.running.values := OrderedDict.mem_values_iff.mpr ⟨_, hm⟩
      have hid := h.runningKey _ _ hm
      obtain ⟨b, hb⟩ := Option.ne_none_iff_exists'.mp (h.running r hr).batchIdx
      refine Or.inl ⟨r, hr, b, hid, hb, ?_⟩
      unfold cancelRequest
      rw [Exec.run_bind_ok (EStateM.run_get s)]
      simp only [hempty, hall, List.getLast?_nil, hf]
      rw [Exec.run_bind_ok (EStateM.run_set _ s)]
      simp [freeSlot, update, failRunning, hb, hid]

/-! ## reconfigure -/

/-- Slots beyond the old number are not free yet, so all of them are added. -/
theorem addSlots_eq {freeSlots : List Nat} {oldMax newMax : Nat} (h : ∀ b ∈ freeSlots, b < oldMax) :
    addSlots freeSlots oldMax newMax = freeSlots ++ List.range' oldMax (newMax - oldMax) := by
  unfold addSlots
  have hgen : ∀ (n start : Nat) (free : List Nat), (∀ b ∈ free, b < start) →
      (List.range' start n).foldl (fun free slot => if slot ∈ free then free else free ++ [slot]) free
        = free ++ List.range' start n := by
    intro n
    induction n with
    | zero => intro start free _; simp
    | succ n ih =>
      intro start free hfree
      have hnot : start ∉ free := fun hc => Nat.lt_irrefl _ (hfree start hc)
      rw [List.range'_succ, List.foldl_cons, if_neg hnot, ih (start + 1) (free ++ [start])]
      · simp
      · intro b hb
        rcases List.mem_append.mp hb with hb | hb
        · exact Nat.lt_succ_of_lt (hfree b hb)
        · rw [List.mem_singleton.mp hb]
          exact Nat.lt_succ_self start
  exact hgen _ _ _ h

theorem Inv.slot_lt (h : Inv s) {b : Nat} (hb : some b ∈ s.slots) : b < s.maxConcurrentRequests := by
  rw [h.slots] at hb
  obtain ⟨b', hb', he⟩ := Multiset.mem_map.mp hb
  cases he
  exact Multiset.mem_range.mp hb'

theorem Inv.free_lt (h : Inv s) {b : Nat} (hb : b ∈ s.freeSlots) : b < s.maxConcurrentRequests :=
  h.slot_lt (Multiset.mem_add.mpr (Or.inl (Multiset.mem_coe.mpr (List.mem_map.mpr ⟨b, hb, rfl⟩))))

theorem Inv.running_slot_lt (h : Inv s) {r : Ref} (hr : r ∈ s.running.values) {b : Nat}
    (hb : (s.requests r).batchIdx = some b) : b < s.maxConcurrentRequests :=
  h.slot_lt (Multiset.mem_add.mpr (Or.inr (Multiset.mem_coe.mpr (List.mem_map.mpr ⟨r, hr, hb⟩))))

/-- The scheduler with another number of slots. -/
def resized (s : Scheduler Tok) (n : Nat) : Scheduler Tok :=
  { s with
    freeSlots := (if s.maxConcurrentRequests < n then addSlots s.freeSlots s.maxConcurrentRequests n
      else s.freeSlots.filter fun slot => slot < n).insertionSort (· ≤ ·)
    maxConcurrentRequests := n }

/-- **Move**: slots are added at the end, or removed where no request runs. -/
theorem Inv.resized (h : Inv s) {n : Nat}
    (hrun : ∀ r ∈ s.running.values, ∀ b, (s.requests r).batchIdx = some b → b < n) :
    Inv (s.resized n) := by
  refine h.resize ?_
  by_cases hlt : s.maxConcurrentRequests < n
  · have hperm := (List.perm_insertionSort (· ≤ ·) (addSlots s.freeSlots s.maxConcurrentRequests n)).map
      (some : Nat → Option Nat)
    rw [if_pos hlt, Multiset.coe_eq_coe.mpr hperm, addSlots_eq fun b hb => h.free_lt hb,
      List.map_append, ← Multiset.coe_add]
    have hslots := h.slots
    unfold Scheduler.slots at hslots
    have hrange : (Multiset.range n).map some = (Multiset.range s.maxConcurrentRequests).map some
        + ↑((List.range' s.maxConcurrentRequests (n - s.maxConcurrentRequests)).map some) := by
      have happ := List.range'_append_1 (s := 0) (m := s.maxConcurrentRequests)
        (n := n - s.maxConcurrentRequests)
      rw [Nat.zero_add, Nat.add_sub_cancel' (Nat.le_of_lt hlt)] at happ
      rw [Multiset.range, Multiset.range, Multiset.map_coe, Multiset.map_coe, Multiset.coe_add,
        ← List.map_append, List.range_eq_range', List.range_eq_range', happ]
    rw [hrange, ← hslots]
    abel
  · have hle : n ≤ s.maxConcurrentRequests := Nat.le_of_not_lt hlt
    have hperm := (List.perm_insertionSort (· ≤ ·) (s.freeSlots.filter fun slot => slot < n)).map
      (some : Nat → Option Nat)
    rw [if_neg hlt, Multiset.coe_eq_coe.mpr hperm]
    -- keep the slots below `n` on both sides of the invariant
    have hslots := congrArg (Multiset.filter fun o : Option Nat => ∀ b ∈ o, b < n) h.slots
    unfold Scheduler.slots at hslots
    rw [Multiset.filter_add] at hslots
    have hfree : Multiset.filter (fun o : Option Nat => ∀ b ∈ o, b < n)
        (↑(s.freeSlots.map some) : Multiset (Option Nat))
        = ↑((s.freeSlots.filter fun slot => slot < n).map some) := by
      rw [Multiset.filter_coe, List.filter_map]
      congr 2
      exact List.filter_congr fun b _ => by simp
    have hrun' : Multiset.filter (fun o : Option Nat => ∀ b ∈ o, b < n)
        (↑(s.running.values.map fun r => (s.requests r).batchIdx) : Multiset (Option Nat))
        = ↑(s.running.values.map fun r => (s.requests r).batchIdx) := by
      refine Multiset.filter_eq_self.mpr fun o ho b hb => ?_
      obtain ⟨r, hr, rfl⟩ := List.mem_map.mp (Multiset.mem_coe.mp ho)
      exact hrun r hr b hb
    have hrange : Multiset.filter (fun o : Option Nat => ∀ b ∈ o, b < n)
        ((Multiset.range s.maxConcurrentRequests).map some) = (Multiset.range n).map some := by
      rw [Multiset.filter_map]
      congr 1
      refine (Multiset.Nodup.ext ((Multiset.nodup_range _).filter _) (Multiset.nodup_range _)).mpr
        fun b => ?_
      simp only [Multiset.mem_filter, Multiset.mem_range, Function.comp_apply]
      exact ⟨fun ⟨_, hb⟩ => hb b rfl, fun hb => ⟨Nat.lt_of_lt_of_le hb hle, fun b' hb' => by
        cases hb'; exact hb⟩⟩
    rw [hfree, hrun', hrange] at hslots
    exact hslots

/-- **The ways `_apply_max_concurrent` ends**: it raises and changes nothing, or resizes. -/
theorem applyMaxConcurrent_run (h : Inv s) (newMax : Int) (cacheInitialized : Bool) :
    (∃ e, (applyMaxConcurrent newMax cacheInitialized).run s = .error e s) ∨
    (newMax = s.maxConcurrentRequests ∧ 0 < s.maxConcurrentRequests ∧
      (applyMaxConcurrent newMax cacheInitialized).run s = .ok () s) ∨
    (∃ n : Nat, newMax = n ∧ 0 < n ∧ n ≠ s.maxConcurrentRequests ∧
      (cacheInitialized = true → n ≤ s.maxConcurrentRequests) ∧ Inv (s.resized n) ∧
      (applyMaxConcurrent newMax cacheInitialized).run s = .ok () (s.resized n)) := by
  unfold applyMaxConcurrent
  by_cases hpos : newMax ≤ 0
  · rw [if_pos hpos]
    exact Or.inl ⟨_, rfl⟩
  · rw [if_neg hpos, Exec.run_bind_ok (EStateM.run_get s)]
    simp only
    by_cases hsame : newMax = s.maxConcurrentRequests
    · rw [if_pos hsame]
      exact Or.inr (Or.inl ⟨hsame, by omega, rfl⟩)
    · rw [if_neg hsame]
      by_cases hgrow : cacheInitialized = true ∧ (s.maxConcurrentRequests : Int) < newMax
      · rw [if_pos hgrow]
        exact Or.inl ⟨_, rfl⟩
      · rw [if_neg hgrow]
        by_cases hmany : newMax < s.running.size
        · rw [if_pos hmany]
          exact Or.inl ⟨_, rfl⟩
        · rw [if_neg hmany]
          split
          · exact Or.inl ⟨_, rfl⟩
          · next hnone =>
            have hn : newMax = (newMax.toNat : Int) := by omega
            have hrun : ∀ r ∈ s.running.values, ∀ b, (s.requests r).batchIdx = some b →
                b < newMax.toNat := by
              intro r hr b hb
              have hf := List.findSome?_eq_none_iff.mp hnone r hr
              rw [hb] at hf
              have : ¬newMax ≤ (b : Int) := by simpa [Option.filter] using hf
              omega
            refine Or.inr (Or.inr ⟨newMax.toNat, hn, by omega, by omega, ?_, h.resized hrun, ?_⟩)
            · intro hc
              have : ¬(s.maxConcurrentRequests : Int) < newMax := fun hlt => hgrow ⟨hc, hlt⟩
              omega
            · have hif : ((s.maxConcurrentRequests : Int) < newMax) ↔
                  s.maxConcurrentRequests < newMax.toNat := by omega
              have hfilter : (s.freeSlots.filter fun slot : Nat => slot < newMax)
                  = s.freeSlots.filter fun slot => slot < newMax.toNat := by
                refine List.filter_congr fun b _ => ?_
                rw [decide_eq_decide]
                omega
              simp only [hif, hfilter]
              rfl

/-- What `reconfigure` leaves alone. -/
structure SameQueues (s s' : Scheduler Tok) : Prop where
  requests : s'.requests = s.requests
  created : s'.created = s.created
  waiting : s'.waiting = s.waiting
  running : s'.running = s.running
  completed : s'.completed = s.completed
  failed : s'.failed = s.failed

/-- **The ways `reconfigure` ends**: it raises and the slots are as before, or it returns with the
number of slots asked for. -/
theorem reconfigure_run (h : Inv s) (maxTokensPerStep maxConcurrentRequests : Option Int)
    (cacheInitialized : Bool) :
    (∃ e s', (reconfigure maxTokensPerStep maxConcurrentRequests cacheInitialized).run s
        = .error e s' ∧ Inv s' ∧ SameQueues s s' ∧
      s'.maxConcurrentRequests = s.maxConcurrentRequests) ∨
    (∃ s', (reconfigure maxTokensPerStep maxConcurrentRequests cacheInitialized).run s
        = .ok () s' ∧ Inv s' ∧ SameQueues s s' ∧
      (maxConcurrentRequests = none → s'.maxConcurrentRequests = s.maxConcurrentRequests) ∧
      (∀ v, maxConcurrentRequests = some v →
        v = s'.maxConcurrentRequests ∧ 0 < s'.maxConcurrentRequests) ∧
      (cacheInitialized = true → s'.maxConcurrentRequests ≤ s.maxConcurrentRequests)) := by
  -- what follows the budget, from a state that differs in the budget only
  have hrest : ∀ (budget : Int), ∀ o : Option Int,
      (∃ e s', (reconfigure none o cacheInitialized).run
            { s with maxTokensPerStep := budget } = .error e s' ∧ Inv s' ∧ SameQueues s s' ∧
        s'.maxConcurrentRequests = s.maxConcurrentRequests) ∨
      (∃ s', (reconfigure none o cacheInitialized).run
            { s with maxTokensPerStep := budget } = .ok () s' ∧ Inv s' ∧ SameQueues s s' ∧
        (o = none → s'.maxConcurrentRequests = s.maxConcurrentRequests) ∧
        (∀ v, o = some v → v = s'.maxConcurrentRequests ∧ 0 < s'.maxConcurrentRequests) ∧
        (cacheInitialized = true → s'.maxConcurrentRequests ≤ s.maxConcurrentRequests)) := by
    intro budget o
    have hb : Inv { s with maxTokensPerStep := budget } :=
      h.touch (fun r => SameStatus.refl _) budget
    have hsame : SameQueues s { s with maxTokensPerStep := budget } := ⟨rfl, rfl, rfl, rfl, rfl, rfl⟩
    cases o with
    | none =>
      exact Or.inr ⟨_, rfl, hb, hsame, fun _ => rfl, fun _ h => (by cases h), fun _ => Nat.le_refl _⟩
    | some v =>
      rcases applyMaxConcurrent_run hb v cacheInitialized with ⟨e, hrun⟩ | ⟨hv, hpos, hrun⟩ |
        ⟨n, hv, hpos, -, hle, hi, hrun⟩
      · exact Or.inl ⟨e, _, hrun, hb, hsame, rfl⟩
      · exact Or.inr ⟨_, hrun, hb, hsame, fun h => (by cases h), fun w hw => by cases hw; exact ⟨hv, hpos⟩,
          fun _ => Nat.le_refl _⟩
      · exact Or.inr ⟨_, hrun, hi, ⟨rfl, rfl, rfl, rfl, rfl, rfl⟩, fun h => (by cases h),
          fun w hw => by cases hw; exact ⟨hv, hpos⟩, hle⟩
  cases maxTokensPerStep with
  | none => exact hrest s.maxTokensPerStep maxConcurrentRequests
  | some v =>
    by_cases hv : v ≤ 0
    · simp only [reconfigure, if_pos hv]
      exact Or.inl ⟨_, s, rfl, h, ⟨rfl, rfl, rfl, rfl, rfl, rfl⟩, rfl⟩
    · have hbudget := hrest v maxConcurrentRequests
      simp only [reconfigure, if_neg hv] at hbudget ⊢
      exact hbudget

end Scheduler

end Nifre
