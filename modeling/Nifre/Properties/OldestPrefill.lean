import Nifre.Properties.Admissions
import Nifre.Properties.Picks
import Mathlib.Algebra.Order.Floor.Div

/-!
# The oldest prefill is not starved

At most one request less than there are slots decodes beside a request that prefills. If the budget
covers its chunk besides these, the request that has prefilled longest is picked, and it completes
its prompt after as many steps as its prompt has chunks left.

* `Scheduler.Foremost` — what holds of the request until its prompt is complete
* `Scheduler.next_foremost` — under every call that does not cancel it
* `Scheduler.oldestPrefill_served` — the pick, and the number of steps
-/

namespace Nifre

namespace Scheduler

variable {Tok : Type} {s s' : Scheduler Tok} {log : List Ref} {r : Ref}

/-! ## The pick -/

/-- The request in `PREFILL` that has been running longest, by the log. -/
def oldestPrefill (log : List Ref) (s : Scheduler Tok) : Option Ref :=
  log.find? fun r => r ∈ s.running.values ∧ (s.requests r).state = .prefill

theorem InOrder.oldestPrefill_eq (h : InOrder log s) : oldestPrefill log s =
    s.running.values.find? fun r => (s.requests r).state = .prefill := by
  conv_rhs => rw [h.running_eq, List.find?_filter]
  refine congrArg (fun p => log.find? p) (funext fun r => ?_)
  simp

/-- A chunk fits in the budget besides a decode in every other slot. -/
def Covered (s : Scheduler Tok) (r : Ref) : Prop :=
  (s.requests r).prefillChunkSize + s.maxConcurrentRequests - 1 ≤ s.maxTokensPerStep

instance (s : Scheduler Tok) (r : Ref) : Decidable (Covered s r) :=
  inferInstanceAs (Decidable (_ ≤ _))

/-- No more requests run than there are slots. -/
theorem Inv.running_length_le (h : Inv s) :
    s.running.values.length ≤ s.maxConcurrentRequests := by
  have hcard := congrArg Multiset.card h.slots
  rw [Scheduler.slots, Multiset.card_add, Multiset.coe_card, Multiset.coe_card, List.length_map,
    List.length_map, Multiset.card_map, Multiset.card_range] at hcard
  omega

/-- What is left of the budget after the decodes. -/
theorem pickDecode_budget_le (l : List Ref) (budget : Int) :
    budget - (s.decoding l).length ≤ (pickDecode s l budget).2 := by
  have hlen := (pickDecode_sublist s l budget).length_le
  have hsum : ∀ (l : List Ref) (budget : Int),
      (pickDecode s l budget).2 = budget - (pickDecode s l budget).1.length := by
    intro l
    induction l with
    | nil => simp [pickDecode]
    | cons r l ih =>
      intro budget
      rw [pickDecode]
      by_cases hs : (s.requests r).state = .decode
      · rw [if_neg (not_not.mpr hs)]
        by_cases hout : budget < 1
        · rw [if_pos hout]
          simp
        · rw [if_neg hout]
          simp only [ih, List.length_cons]
          omega
      · rw [if_pos hs]
        exact ih budget
  rw [hsum]
  unfold decoding
  omega

/-- **A covered request that is the first to prefill is picked.** -/
theorem mem_prefillRequests (h : Inv s)
    (hfirst : s.running.values.find? (fun r => (s.requests r).state = .prefill) = some r)
    (hcover : Covered s r) :
    r ∈ pickPrefill s s.running.values (pickDecode s s.running.values s.maxTokensPerStep).2 := by
  refine mem_pickPrefill hfirst ?_
  have hleft := pickDecode_budget_le (s := s) s.running.values s.maxTokensPerStep
  have hslots := h.running_length_le
  -- the request itself does not decode
  have hfew : (s.decoding s.running.values).length < s.running.values.length := by
    refine List.length_filter_lt_length_iff_exists.mpr ⟨r, List.mem_of_find?_eq_some hfirst, ?_⟩
    have hs := List.find?_some hfirst
    simp only [decide_eq_true_eq] at hs
    simp [hs]
  unfold Covered at hcover
  have hchunk : prefillChunkTokens (s.requests r) ≤ (s.requests r).prefillChunkSize :=
    Int.min_le_left _ _
  omega

/-! ## What a call leaves of a request -/

/-- A request keeps what it asks for, and does not fall behind. -/
structure Grown (q q' : InferenceRequest Tok) : Prop where
  requestId : q'.requestId = q.requestId
  prompt : q'.promptTokenIds = q.promptTokenIds
  chunk : q'.prefillChunkSize = q.prefillChunkSize
  offset : q.prefillOffset ≤ q'.prefillOffset

theorem Grown.refl (q : InferenceRequest Tok) : Grown q q := ⟨rfl, rfl, rfl, le_rfl⟩

theorem Grown.trans {q q' q'' : InferenceRequest Tok} (h : Grown q q') (h' : Grown q' q'') :
    Grown q q'' :=
  ⟨h'.requestId.trans h.requestId, h'.prompt.trans h.prompt, h'.chunk.trans h.chunk,
    h.offset.trans h'.offset⟩

theorem Grown.complete {q q' : InferenceRequest Tok} (h : Grown q q')
    (hc : q.prefillComplete = true) : q'.prefillComplete = true := by
  unfold InferenceRequest.prefillComplete InferenceRequest.numPromptTokens at hc ⊢
  rw [decide_eq_true_eq] at hc ⊢
  rw [h.prompt]
  exact hc.trans h.offset

theorem grown_update {r' : Ref} {q : InferenceRequest Tok}
    (hreq : s'.requests = Function.update s.requests r' q) (hq : Grown (s.requests r') q) (r : Ref) :
    Grown (s.requests r) (s'.requests r) := by
  rw [hreq]
  by_cases he : r = r'
  · subst he
    rw [Function.update_self]
    exact hq
  · rw [Function.update_of_ne he]
    exact .refl _

theorem assignWaitingToSlots_grown (s : Scheduler Tok) (r : Ref) :
    Grown (s.requests r) (s.assignWaitingToSlots.requests r) := by
  refine assignRounds_induct (I := fun s' => Grown (s.requests r) (s'.requests r))
    (fun s' r' waiting b freeSlots h _ _ => ?_) _ (.refl _)
  rw [assignSlot_eq]
  exact h.trans (grown_update rfl (by exact ⟨rfl, rfl, rfl, le_rfl⟩) r)

theorem next_grown (hi : Inv s) {op : Op Tok} (hl : s.Legal op) (hr : r < s.created) :
    Grown (s.requests r) ((s.next op).requests r) := by
  have hmoved := next_moved hi hl
  generalize s.next op = s' at hmoved
  cases hmoved with
  | raised => exact .refl _
  | added =>
    simp only [Function.update_of_ne (Nat.ne_of_lt hr)]
    exact .refl _
  | assigned => exact assignWaitingToSlots_grown s r
  | advanced => exact grown_update rfl (by exact ⟨rfl, rfl, rfl, Nat.le_add_right _ _⟩) r
  | started => exact grown_update rfl (by exact ⟨rfl, rfl, rfl, le_rfl⟩) r
  | pushed => exact grown_update rfl (by exact ⟨rfl, rfl, rfl, le_rfl⟩) r
  | completed => exact grown_update rfl (by exact ⟨rfl, rfl, rfl, le_rfl⟩) r
  | dropped => exact grown_update rfl (by exact ⟨rfl, rfl, rfl, le_rfl⟩) r
  | failed => exact grown_update rfl (by exact ⟨rfl, rfl, rfl, le_rfl⟩) r
  | resized s' _ _ _ _ hs =>
    rw [hs.requests]
    exact .refl _

theorem next_created_le (hi : Inv s) {op : Op Tok} (hl : s.Legal op) :
    s.created ≤ (s.next op).created := by
  have hmoved := next_moved hi hl
  generalize s.next op = s' at hmoved
  cases hmoved with
  | added => exact Nat.le_succ _
  | assigned => exact (assignWaitingToSlots_settings s).1.ge
  | resized s' _ _ _ _ hs => exact hs.created.ge
  | _ => exact le_rfl

theorem foldl_grown {ops : List (Op Tok)} (hi : Inv s) (hl : Exec.Along Legal next s ops)
    (hr : r < s.created) : Inv (ops.foldl next s) ∧ r < (ops.foldl next s).created ∧
      Grown (s.requests r) ((ops.foldl next s).requests r) := by
  induction ops generalizing s with
  | nil => exact ⟨hi, hr, .refl _⟩
  | cons op ops ih =>
    obtain ⟨hi', hr', hg⟩ := ih (next_inv hi hl.1).1 hl.2 (hr.trans_le (next_created_le hi hl.1))
    exact ⟨hi', hr', (next_grown hi hl.1 hr).trans hg⟩

/-! ## The first to prefill -/

/-- No request that came before `r` prefills, and no request that comes will be before it. -/
structure Foremost (r : Ref) (s : Scheduler Tok) : Prop where
  running : r ∈ s.running.values
  state : (s.requests r).state = .prefill
  first : ∀ r' ∈ s.running.values, (s.requests r').state = .prefill → r ≤ r'
  waiting : ∀ r' ∈ s.waiting, r < r'

/-- The log says who is the first to prefill. -/
theorem InOrder.foremost (h : InOrder log s) (hr : oldestPrefill log s = some r) :
    Foremost r s := by
  obtain ⟨hsorted, -, hrest⟩ := List.pairwise_append.mp h.sorted
  have hmem : r ∈ s.running.values ∧ (s.requests r).state = .prefill := by
    simpa using List.find?_some hr
  obtain ⟨l, l', hlog, hbefore⟩ := (List.find?_eq_some_iff_append.mp hr).2
  refine ⟨hmem.1, hmem.2, fun r' hrun hs => ?_, hrest r (List.mem_of_find?_eq_some hr)⟩
  have hr' := h.running.subset hrun
  rw [hlog] at hr' hsorted
  rcases List.mem_append.mp hr' with hm | hm
  · have := hbefore r' hm
    simp [hrun, hs] at this
  · rcases List.mem_cons.mp hm with rfl | hm
    · exact le_rfl
    · exact ((List.pairwise_cons.mp (List.pairwise_append.mp hsorted).2.1).1 r' hm).le

/-- And the other way round, the first to prefill is found first. -/
theorem Foremost.find?_eq (h : Foremost r s) (hlog : InOrder log s) :
    s.running.values.find? (fun r => (s.requests r).state = .prefill) = some r := by
  have hsorted := (List.pairwise_append.mp hlog.sorted).1.sublist hlog.running
  obtain ⟨l, l', hl⟩ := List.append_of_mem h.running
  rw [hl] at hsorted ⊢
  refine List.find?_eq_some_iff_append.mpr ⟨by simpa using h.state, l, l', rfl, fun r' hr' => ?_⟩
  have hlt := (List.pairwise_append.mp hsorted).2.2 r' hr' r List.mem_cons_self
  have hne : (s.requests r').state ≠ .prefill := fun hs =>
    absurd (h.first r' (by rw [hl]; exact List.mem_append_left _ hr') hs) (Nat.not_le.mpr hlt)
  simp [hne]

/-- Another request changes, or leaves the queues. -/
theorem Foremost.change (h : Foremost r s) {r' : Ref} {q : InferenceRequest Tok} (hne : r' ≠ r)
    (hreq : s'.requests = Function.update s.requests r' q)
    (hrunning : ∀ a, a ∈ s'.running.values → a ∈ s.running.values) (hr : r ∈ s'.running.values)
    (hwaiting : ∀ a, a ∈ s'.waiting → a ∈ s.waiting)
    (hq : q.state = .prefill → (s.requests r').state = .prefill) : Foremost r s' := by
  refine ⟨hr, ?_, fun a ha hs => ?_, fun a ha => h.waiting a (hwaiting a ha)⟩
  · rw [hreq, Function.update_of_ne hne.symm]
    exact h.state
  · refine h.first a (hrunning a ha) ?_
    rw [hreq] at hs
    by_cases he : a = r'
    · subst he
      rw [Function.update_self] at hs
      exact hq hs
    · rwa [Function.update_of_ne he] at hs

/-- The queues are the same, and so are the states of the requests. -/
theorem Foremost.congr (h : Foremost r s)
    (hstate : ∀ a, (s'.requests a).state = (s.requests a).state) (hrunning : s'.running = s.running)
    (hwaiting : s'.waiting = s.waiting) : Foremost r s' where
  running := hrunning ▸ h.running
  state := (hstate r).trans h.state
  first := fun a ha hs => h.first a (hrunning ▸ ha) ((hstate a).symm.trans hs)
  waiting := hwaiting ▸ h.waiting

theorem Foremost.assignWaitingToSlots (h : Foremost r s) (hi : Inv s) :
    Foremost r s.assignWaitingToSlots := by
  refine (assignRounds_induct (I := fun s => Inv s ∧ Foremost r s)
    (fun s r' waiting b freeSlots ⟨hi, h⟩ hw hf => ⟨hi.assignSlot hw hf, ?_⟩) _ ⟨hi, h⟩).2
  have hwait : r' ∈ s.waiting := by rw [hw]; exact List.mem_cons_self
  have hlt := h.waiting r' hwait
  have hkey := hi.notMem_keys hi.runningKey (fun _ => hi.running_lt) (hi.waiting_lt hwait)
    (waiting_notMem hi hwait).1
  have hvalues : (s.running.insert (s.requests r').requestId r').values
      = s.running.values ++ [r'] := by
    rw [OrderedDict.values, OrderedDict.insert_of_notMem hkey, List.map_append]
    rfl
  rw [assignSlot_eq]
  refine ⟨?_, ?_, fun a ha hs => ?_, fun a ha => h.waiting a (by rw [hw]; exact .tail _ ha)⟩
  · rw [hvalues]
    exact List.mem_append_left _ h.running
  · simp only [Function.update_of_ne (Nat.ne_of_lt hlt)]
    exact h.state
  · rw [hvalues] at ha
    rcases List.mem_append.mp ha with ha | ha
    · have hne : a ≠ r' := fun he => (waiting_notMem hi hwait).1 (he ▸ ha)
      simp only [Function.update_of_ne hne] at hs
      exact h.first a ha hs
    · rw [List.mem_singleton.mp ha]
      exact hlt.le

/-- The call is not a cancellation of the request. -/
def Spares (s : Scheduler Tok) (r : Ref) : Op Tok → Prop
  | .cancelRequest requestId _ => requestId ≠ (s.requests r).requestId
  | _ => True

instance (s : Scheduler Tok) (r : Ref) (op : Op Tok) : Decidable (Spares s r op) :=
  match op with
  | .addRequest .. => inferInstanceAs (Decidable True)
  | .schedule => inferInstanceAs (Decidable True)
  | .advance _ _ => inferInstanceAs (Decidable True)
  | .markPrefillDone _ => inferInstanceAs (Decidable True)
  | .markDecodeDone _ _ => inferInstanceAs (Decidable True)
  | .cancelRequest _ _ => inferInstanceAs (Decidable (_ ≠ _))
  | .reconfigure .. => inferInstanceAs (Decidable True)

/-- **No call puts another request before the first one**, which prefills until its prompt is
complete. -/
theorem next_foremost (hi : Inv s) {op : Op Tok} (hl : s.Legal op) (h : Foremost r s)
    (hspare : Spares s r op) :
    Foremost r (s.next op) ∨ ((s.next op).requests r).prefillComplete = true := by
  have hsame : ∀ a, a ∈ s.running.values → a ∈ s.running.values := fun _ => id
  -- a request that decodes is another one, and so is one that leaves
  have hnotDecode : ∀ {r'}, (s.requests r').state = .decode → r' ≠ r := by
    rintro r' hd rfl
    exact nomatch h.state.symm.trans hd
  have herase : ∀ {r'}, r' ∈ s.running.values → r' ≠ r →
      (∀ a, a ∈ (s.running.erase (s.requests r').requestId).values → a ∈ s.running.values) ∧
        r ∈ (s.running.erase (s.requests r').requestId).values := fun hr' hne =>
    ⟨fun a ha => ((mem_erase_values hi hr').mp ha).1,
      (mem_erase_values hi hr').mpr ⟨h.running, hne.symm⟩⟩
  have hmoved := next_moved hi hl
  generalize s.next op = s' at hmoved
  cases hmoved with
  | raised => exact Or.inl h
  | added =>
    have hold : ∀ a, a ∈ s.running.values → a ≠ s.created := fun a ha =>
      Nat.ne_of_lt (hi.running_lt ha)
    refine Or.inl ⟨h.running, ?_, fun a ha hs => ?_, fun a ha => ?_⟩
    · simp only [Function.update_of_ne (hold r h.running)]
      exact h.state
    · simp only [Function.update_of_ne (hold a ha)] at hs
      exact h.first a ha hs
    · rcases List.mem_append.mp ha with ha | ha
      · exact h.waiting a ha
      · rw [List.mem_singleton.mp ha]
        exact hi.running_lt h.running
  | assigned => exact Or.inl (h.assignWaitingToSlots hi)
  | advanced r' n =>
    refine Or.inl (h.congr (fun a => ?_) rfl rfl)
    by_cases he : a = r'
    · subst he
      simp
    · simp [he]
  | started r' hr' hs hc =>
    by_cases he : r' = r
    · subst he
      refine Or.inr ?_
      simp only [Function.update_self]
      exact hc
    · exact Or.inl (h.change he rfl hsame h.running (fun _ => id) nofun)
  | pushed r' tokenId hr' hd _ =>
    exact Or.inl (h.change (hnotDecode hd) rfl hsame h.running (fun _ => id) id)
  | completed r' b tokenId hr' hd _ _ =>
    obtain ⟨hsub, hr⟩ := herase hr' (hnotDecode hd)
    exact Or.inl (h.change (hnotDecode hd) rfl hsub hr (fun _ => id) nofun)
  | dropped r' status hw =>
    have hne : r' ≠ r := by
      rintro rfl
      exact (waiting_notMem hi hw).1 h.running
    exact Or.inl (h.change hne rfl hsame h.running (fun _ => List.mem_of_mem_erase) nofun)
  | failed r' b status hr' _ =>
    have hne : r' ≠ r := by
      rintro rfl
      exact hspare rfl
    obtain ⟨hsub, hr⟩ := herase hr' hne
    exact Or.inl (h.change hne rfl hsub hr (fun _ => id) nofun)
  | resized s' _ _ _ _ hs => exact Or.inl (h.congr (fun a => by rw [hs.requests]) hs.running hs.waiting)

/-! ## Steps -/

/-- Steps of a run: a call of `schedule` each, and the calls until the next one. -/
def steps (rounds : List (List (Op Tok))) : List (Op Tok) :=
  rounds.flatMap fun calls => .schedule :: calls

/-- The request is covered at every step, the model runner advances it by its chunk whenever it is
picked, and nobody cancels it. -/
def Attended (r : Ref) : Scheduler Tok → List (List (Op Tok)) → Prop
  | _, [] => True
  | s, calls :: rounds => Covered s r ∧
    (∀ result s', schedule.run s = .ok result s' → r ∈ result.prefillRequests →
      ∃ n : Nat, prefillChunkTokens (s.requests r) ≤ n ∧ .advance r n ∈ calls) ∧
    (∀ op ∈ calls, Spares s r op) ∧ Attended r (calls.foldl next (s.next .schedule)) rounds

/-- The calls of a step leave the first request first, or complete its prompt. -/
theorem foldl_foremost {ops : List (Op Tok)} (hi : Inv s) (hl : Exec.Along Legal next s ops)
    (h : Foremost r s) (hspare : ∀ op ∈ ops, Spares s r op) :
    Foremost r (ops.foldl next s) ∨ ((ops.foldl next s).requests r).prefillComplete = true := by
  induction ops generalizing s with
  | nil => exact Or.inl h
  | cons op ops ih =>
    have hr := hi.running_lt h.running
    have hi' := (next_inv hi hl.1).1
    have hr' := hr.trans_le (next_created_le hi hl.1)
    have hg := next_grown hi hl.1 hr
    rcases next_foremost hi hl.1 h (hspare op List.mem_cons_self) with h' | hc
    · refine ih hi' hl.2 h' fun op' hop' => ?_
      have := hspare op' (List.mem_cons_of_mem op hop')
      unfold Spares at this ⊢
      rw [hg.requestId]
      exact this
    · exact Or.inr ((foldl_grown hi' hl.2 hr').2.2.complete hc)

/-- **An advance among the calls** is not taken back by the others. -/
theorem foldl_advance {ops : List (Op Tok)} (hi : Inv s) (hl : Exec.Along Legal next s ops)
    (hr : r < s.created) {n : Nat} (hop : .advance r n ∈ ops) :
    (s.requests r).prefillOffset + n ≤ ((ops.foldl next s).requests r).prefillOffset := by
  obtain ⟨before, after, rfl⟩ := List.append_of_mem hop
  obtain ⟨hbefore, hafter⟩ := Exec.along_append.mp hl
  obtain ⟨hi₁, hr₁, hg₁⟩ := foldl_grown hi hbefore hr
  obtain ⟨-, -, hg₂⟩ := foldl_grown (next_inv hi₁ hafter.1).1 hafter.2
    (hr₁.trans_le (next_created_le hi₁ hafter.1))
  have hstep : (((before.foldl next s).next (.advance r n)).requests r).prefillOffset
      = ((before.foldl next s).requests r).prefillOffset + n := by
    generalize before.foldl next s = t
    show ((t.update r fun request =>
      { request with prefillOffset := request.prefillOffset + n }).requests r).prefillOffset = _
    simp [update]
  have := hg₁.offset
  have := hg₂.offset
  rw [List.foldl_append, List.foldl_cons]
  omega

theorem complete_iff {q : InferenceRequest Tok} :
    q.prefillComplete = true ↔ q.numPromptTokens ≤ q.prefillOffset := by
  rw [InferenceRequest.prefillComplete, decide_eq_true_eq]

/-- **A call of `schedule` picks the request that has prefilled longest**, if it is covered. -/
theorem schedule_foremost (hi : Inv s) (hlog : InOrder log s) (h : Foremost r (s.next .schedule))
    (hcover : Covered s r) :
    ∃ result, schedule.run s = .ok result (s.next .schedule) ∧ r ∈ result.prefillRequests := by
  refine ⟨_, schedule_eq s, mem_prefillRequests hi.assignWaitingToSlots
    (h.find?_eq (hlog.assignWaitingToSlots hi)) ?_⟩
  unfold Covered at hcover ⊢
  obtain ⟨-, hbudget, hmax⟩ := assignWaitingToSlots_settings s
  rw [(assignWaitingToSlots_grown s r).chunk, hbudget, hmax]
  exact hcover

/-- **One step** brings the first request a chunk further, or completes its prompt. -/
theorem step_foremost {calls : List (Op Tok)} (hi : Inv s) (hlog : InOrder log s)
    (hl : Exec.Along Legal next s (.schedule :: calls)) (h : Foremost r (s.next .schedule))
    (hcover : Covered s r)
    (hadvance : ∀ result s', schedule.run s = .ok result s' → r ∈ result.prefillRequests →
      ∃ n : Nat, prefillChunkTokens (s.requests r) ≤ n ∧ .advance r n ∈ calls)
    (hspare : ∀ op ∈ calls, Spares s r op) {s' : Scheduler Tok}
    (hs' : s' = calls.foldl next (s.next .schedule)) :
    (Foremost r (s'.next .schedule) ∨ (s'.requests r).prefillComplete = true) ∧
      min ((s.requests r).numPromptTokens : Int)
        ((s.requests r).prefillOffset + (s.requests r).prefillChunkSize)
        ≤ (s'.requests r).prefillOffset := by
  have hi₁ : Inv (s.next .schedule) := hi.assignWaitingToSlots
  have hg : Grown (s.requests r) ((s.next .schedule).requests r) := assignWaitingToSlots_grown s r
  obtain ⟨hi₂, -, -⟩ := foldl_grown hi₁ hl.2 (hi₁.running_lt h.running)
  constructor
  · have hspare' : ∀ op ∈ calls, Spares (s.next .schedule) r op := fun op hop => by
      have := hspare op hop
      unfold Spares at this ⊢
      rw [hg.requestId]
      exact this
    rw [hs']
    exact (foldl_foremost hi₁ hl.2 h hspare').imp_left fun h' => h'.assignWaitingToSlots hi₂
  · obtain ⟨result, hrun, hpicked⟩ := schedule_foremost hi hlog h hcover
    obtain ⟨n, hn, hop⟩ := hadvance result _ hrun hpicked
    have hafter := foldl_advance hi₁ hl.2 (hi₁.running_lt h.running) hop
    have hoffset := hg.offset
    rw [← hs'] at hafter
    unfold prefillChunkTokens at hn
    omega

/-- **As many steps as chunks are left complete the prompt.** -/
theorem steps_complete {rounds : List (List (Op Tok))} (hi : Inv s) (hlog : InOrder log s)
    (hl : Exec.Along Legal next s (steps rounds)) (hr : r < s.created)
    (h : Foremost r (s.next .schedule) ∨ (s.requests r).prefillComplete = true)
    (hat : Attended r s rounds) (hchunk : 0 ≤ (s.requests r).prefillChunkSize)
    (hmany : ((s.requests r).numPromptTokens : Int)
      ≤ (s.requests r).prefillOffset + rounds.length * (s.requests r).prefillChunkSize) :
    (((steps rounds).foldl next s).requests r).prefillComplete = true := by
  induction rounds generalizing s log with
  | nil =>
    refine complete_iff.mpr ?_
    rw [List.length_nil] at hmany
    show (s.requests r).numPromptTokens ≤ (s.requests r).prefillOffset
    omega
  | cons calls rounds ih =>
    rcases h with h | hc
    · have hsplit : steps (calls :: rounds) = (.schedule :: calls) ++ steps rounds := rfl
      rw [hsplit] at hl ⊢
      obtain ⟨hfirst, hrest⟩ := Exec.along_append.mp hl
      obtain ⟨hcover, hadvance, hspare, hat'⟩ := hat
      obtain ⟨hi', hr', hg⟩ := foldl_grown hi hfirst hr
      obtain ⟨-, hlog'⟩ := run_inOrder hi hlog hfirst
      rw [List.foldl_cons] at hi' hr' hg hlog' hrest
      obtain ⟨h', hfar⟩ := step_foremost hi hlog hfirst h hcover hadvance hspare rfl
      rw [List.foldl_append, List.foldl_cons]
      refine ih hi' hlog' hrest hr' h' hat' (hg.chunk ▸ hchunk) ?_
      have hprompt : ((calls.foldl next (s.next .schedule)).requests r).numPromptTokens
          = (s.requests r).numPromptTokens := congrArg List.length hg.prompt
      rw [hprompt, hg.chunk]
      rw [List.length_cons, Nat.cast_succ, Int.add_mul, Int.one_mul] at hmany
      -- either the prompt is complete by now, or the request came a chunk further
      have hrounds := Int.mul_nonneg (Int.natCast_nonneg rounds.length) hchunk
      omega
    · exact (foldl_grown hi hl hr).2.2.complete hc

/-- **The oldest prefill is never starved when the budget covers it**: in every run, a call of
`schedule` picks the request in `PREFILL` that has been running longest, if it is covered. If it is
covered at every step and not cancelled, it has completed its prompt after as many steps as there
are chunks left of it, whatever else arrives or decodes. -/
theorem oldestPrefill_served {maxConcurrentRequests maxTokensPerStep : Int} {s₀ : Scheduler Tok}
    (hnew : new maxConcurrentRequests maxTokensPerStep = .ok s₀) {ops : List (Op Tok)}
    (hl : Exec.Along Legal next s₀ ops) :
    let s := ops.foldl next s₀
    ∀ r, oldestPrefill (admissions s₀ (ops ++ [.schedule])) (s.next .schedule) = some r →
      (Covered s r → ∃ result, schedule.run s = .ok result (s.next .schedule) ∧
        r ∈ result.prefillRequests) ∧
      ∀ rounds, Exec.Along Legal next s (steps rounds) → Attended r s rounds →
        1 ≤ (s.requests r).prefillChunkSize →
        ((s.requests r).numPromptTokens - (s.requests r).prefillOffset)
          ⌈/⌉ (s.requests r).prefillChunkSize.toNat ≤ rounds.length →
        (((steps rounds).foldl next s).requests r).prefillComplete = true := by
  intro s r hr
  obtain ⟨hi, hlog⟩ := run_inOrder (new_inv hnew) (new_inOrder hnew) hl
  have hlegal : s.Legal .schedule := trivial
  have hforemost : Foremost r (s.next .schedule) := by
    refine (next_inOrder hi hlog hlegal).foremost ?_
    rw [admissions_append] at hr
    simpa [admissions] using hr
  have hcreated : r < s.created := by
    rw [← (assignWaitingToSlots_settings s).1]
    exact hi.assignWaitingToSlots.running_lt hforemost.running
  refine ⟨schedule_foremost hi hlog hforemost, fun rounds hsteps hat hchunk hmany => ?_⟩
  refine steps_complete hi hlog hsteps hcreated (Or.inl hforemost) hat (by omega) ?_
  rw [ceilDiv_le_iff_le_mul (by omega), Nat.mul_comm] at hmany
  have hrounds : ((rounds.length * (s.requests r).prefillChunkSize.toNat : Nat) : Int)
      = rounds.length * (s.requests r).prefillChunkSize := by
    rw [Nat.cast_mul, Int.toNat_of_nonneg (by omega)]
  omega

/-- A decode in the one slot and a chunk of two tokens beside it. -/
def besideDecode : List (Op Nat) :=
  [.addRequest "a" [1] 9 2, .addRequest "b" [1, 2, 3] 1 2, .addRequest "c" [1] 1 2, .schedule,
    .advance 0 1, .markPrefillDone 0, .markDecodeDone 0 7]

/-- Three tokens cover a decode and a chunk of two, so two steps complete the prompt. -/
theorem besideDecode_served : ∃ s₀ : Scheduler Nat, new 2 3 = .ok s₀ ∧
    let s := besideDecode.foldl next s₀
    let rounds : List (List (Op Nat)) := [[.advance 1 2, .markDecodeDone 0 7],
      [.addRequest "d" [1] 1 1, .advance 1 1, .cancelRequest "c" "timeout"]]
    (s.requests 1).prefillComplete = false ∧
      (((steps rounds).foldl next s).requests 1).prefillComplete = true := by
  obtain ⟨s₀, h⟩ : ∃ s₀ : Scheduler Nat, new 2 3 = .ok s₀ := ⟨_, rfl⟩
  refine ⟨s₀, h, ?_, ?_⟩
  · cases h
    decide +kernel
  · have hlegal : Exec.Along Legal next s₀ besideDecode := by
      cases h
      decide +kernel
    refine (oldestPrefill_served h hlegal 1 ?_).2 [[.advance 1 2, .markDecodeDone 0 7],
      [.addRequest "d" [1] 1 1, .advance 1 1, .cancelRequest "c" "timeout"]] ?_ ?_ ?_ ?_
    · cases h
      decide +kernel
    · cases h
      decide +kernel
    · refine ⟨?_, fun _ _ _ _ => ⟨2, ?_, List.mem_cons_self⟩, ?_, ?_, fun _ _ _ _ =>
        ⟨1, ?_, List.mem_cons_of_mem _ List.mem_cons_self⟩, ?_, trivial⟩ <;>
      · cases h
        decide +kernel
    · cases h
      decide +kernel
    · cases h
      decide +kernel

end Scheduler

end Nifre
