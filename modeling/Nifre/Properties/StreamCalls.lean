import Nifre.Properties.Emissions

/-!
# The calls of `generate` and `generate_stream`

What a stream has yielded and what is in its queue are together the tokens of its request, in every
interleaving, as long as its callback is registered. Once the request is seen to be finished nothing
more comes, so draining the queue after that look loses nothing.

* `Follows` — a stream and its request
* `Ordered` — what holds of a worker and its callers in every interleaving
* `next_ordered` — every action keeps it
-/

namespace Nifre

variable {Row Score : Type}

namespace EngineWorker

open Scheduler (Inv Live)
open Engine (Emits Continued)

/-! ## A stream and its request -/

/-- The call has left `generate_stream`. -/
def StreamCall.Ended (c : StreamCall) : Prop := ∃ thrown, c.phase = .ended thrown

/-- The call saw its request finished. -/
def StreamCall.Saw (c : StreamCall) : Prop := c.phase = .drain true ∨ c.phase = .drainAgain

/-- Request `r` is the one of the call, and the tokens it got are those yielded and those queued. -/
structure Follows (e : Engine Row) (c : StreamCall) (r : Ref) : Prop where
  created : r < e.scheduler.created
  requestId : (e.scheduler.requests r).requestId = c.requestId
  notFailed : r ∉ e.scheduler.failed.values
  registered : c.requestId ∈ e.tokenCallbacks ↔ ¬StreamCall.Ended c
  exact : ¬StreamCall.Ended c → (e.scheduler.requests r).outputTokenIds = c.yielded ++ c.queue
  seen : StreamCall.Saw c → (e.scheduler.requests r).state = .finished

variable {e e' : Engine Row} {c : StreamCall} {r : Ref}

/-- The queue after some calls of the token callbacks. -/
def StreamCall.hear (c : StreamCall) (calls : List (String × Nat)) : StreamCall :=
  { c with queue := c.queue ++ heard calls c.requestId }

/-- **A step of the engine**: the new tokens of the request are put into the queue. -/
theorem Follows.emits (h : Follows e c r) (he : Emits e e') :
    Follows e' (StreamCall.hear c (e'.emitted.drop e.emitted.length)) r := by
  obtain ⟨-, hcreated, hcallbacks, hfailed, news, hnews, hall⟩ := he
  have hdrop : e'.emitted.drop e.emitted.length = news := by rw [hnews, List.drop_left]
  have hr := hall r h.created
  rw [hdrop]
  constructor
  · rw [hcreated]
    exact h.created
  · exact hr.requestId.trans h.requestId
  · rw [hfailed]
    exact h.notFailed
  · rw [hcallbacks]
    exact h.registered
  · intro hlive
    obtain ⟨tokens, htokens, hheard⟩ := hr.output
    have hmem := h.registered.mpr hlive
    rw [h.requestId] at hheard
    rw [htokens, h.exact hlive, hheard hmem, List.append_assoc]
    rfl
  · exact fun hs => (hr.finished (h.seen hs)).1

/-- A change of the engine that is not about the request. -/
theorem Follows.frame (h : Follows e c r) (hcreated : e.scheduler.created ≤ e'.scheduler.created)
    (hreq : e'.scheduler.requests r = e.scheduler.requests r)
    (hfailed : r ∈ e'.scheduler.failed.values → r ∈ e.scheduler.failed.values)
    (hcallbacks : c.requestId ∈ e'.tokenCallbacks ↔ c.requestId ∈ e.tokenCallbacks) :
    Follows e' c r where
  created := Nat.lt_of_lt_of_le h.created hcreated
  requestId := by
    rw [hreq]
    exact h.requestId
  notFailed := fun hm => h.notFailed (hfailed hm)
  registered := hcallbacks.trans h.registered
  exact := by
    rw [hreq]
    exact h.exact
  seen := by
    rw [hreq]
    exact h.seen

/-- The call goes on to another phase inside `generate_stream`. -/
theorem Follows.goto (h : Follows e c r) {phase : StreamPhase} (hlive : ¬StreamCall.Ended c)
    (hphase : ∀ thrown, phase ≠ .ended thrown)
    (hseen : phase = .drain true ∨ phase = .drainAgain →
      (e.scheduler.requests r).state = .finished) :
    Follows e { c with phase := phase } r := by
  have hlive' : ¬StreamCall.Ended { c with phase := phase } := fun ⟨thrown, ht⟩ => hphase thrown ht
  exact ⟨h.created, h.requestId, h.notFailed,
    iff_of_true (h.registered.mpr hlive) hlive', fun _ => h.exact hlive, hseen⟩

/-- A token goes from the queue to the consumer. -/
theorem Follows.yield (h : Follows e c r) (hlive : ¬StreamCall.Ended c) {token : Nat}
    {queue : List Nat} (hq : c.queue = token :: queue) :
    Follows e { c with queue := queue, yielded := c.yielded ++ [token] } r where
  created := h.created
  requestId := h.requestId
  notFailed := h.notFailed
  registered := h.registered
  exact := fun _ => by
    rw [h.exact hlive, hq]
    simp
  seen := h.seen

/-! ## All callers -/

/-- **What holds of a worker and its callers in every interleaving** with distinct ids. -/
structure Ordered (w : EngineWorker Row) : Prop where
  live : Live w.engine.scheduler
  inv : Inv w.engine.scheduler
  callbacks : w.engine.tokenCallbacks.Nodup
  ids : (w.streams.map (·.requestId)).Nodup
  streams : ∀ c ∈ w.streams, ∃ r, Follows w.engine c r
  generates : ∀ g ∈ w.generates, (∃ r < w.engine.scheduler.created,
    (w.engine.scheduler.requests r).requestId = g.requestId) ∧
      ∀ c ∈ w.streams, c.requestId ≠ g.requestId
  failed : ∀ r ∈ w.engine.scheduler.failed.values, (w.engine.scheduler.requests r).status ≠ "ok"

variable {w : EngineWorker Row}

theorem new_ordered {model : InferenceModel Row Score}
    {maxConcurrentRequests prefillChunkSize maxTokensPerStep : Int}
    {usePagedKvCache usePrefixCache : Bool} [LinearOrder Score]
    (h : Engine.new model maxConcurrentRequests prefillChunkSize maxTokensPerStep usePagedKvCache
      usePrefixCache = .ok e) : Ordered (new e) := by
  have hlive := Engine.new_live h
  have hinv := Engine.new_inv h
  obtain ⟨s, hs, he⟩ := Exec.bind_eq_ok h
  cases he
  refine ⟨hlive, hinv, List.nodup_nil, List.nodup_nil, nofun, nofun, fun r hr => ?_⟩
  unfold Scheduler.new at hs
  split at hs
  · cases hs
  · split at hs
    · cases hs
    · cases hs
      cases hr

/-- Distinct streams hear their own tokens. -/
theorem deliver_of_nodup (calls : List (String × Nat)) : ∀ {streams : List StreamCall},
    (streams.map (·.requestId)).Nodup →
      deliver calls streams = streams.map fun c => StreamCall.hear c calls
  | [], _ => rfl
  | c :: rest, h => by
    rw [List.map_cons, List.nodup_cons] at h
    have hnone : ¬∃ d ∈ rest, d.requestId = c.requestId := fun ⟨d, hd, he⟩ =>
      h.1 (he ▸ List.mem_map_of_mem hd)
    rw [deliver, if_neg hnone, deliver_of_nodup calls h.2]
    rfl

theorem Ordered.deliver_eq (h : Ordered w) (calls : List (String × Nat)) :
    deliver calls w.streams = w.streams.map fun c => StreamCall.hear c calls :=
  deliver_of_nodup calls h.ids

/-- **A step of the engine**, on either exit. -/
theorem Ordered.stepped (h : Ordered w) (hlive : Live e'.scheduler) (he : Emits w.engine e')
    (loop : LoopPhase) : Ordered (w.stepped e' loop) := by
  have hstreams : (w.stepped e' loop).streams
      = w.streams.map fun c => StreamCall.hear c (e'.emitted.drop w.engine.emitted.length) :=
    h.deliver_eq _
  obtain ⟨hinv, hcreated, hcallbacks, hfailed, news, hnews, hall⟩ := id he
  constructor
  · exact hlive
  · exact hinv
  · show e'.tokenCallbacks.Nodup
    rw [hcallbacks]
    exact h.callbacks
  · rw [hstreams, List.map_map]
    exact h.ids
  · intro c hc
    rw [hstreams] at hc
    obtain ⟨c₀, hc₀, rfl⟩ := List.mem_map.mp hc
    obtain ⟨r, hr⟩ := h.streams c₀ hc₀
    exact ⟨r, hr.emits he⟩
  · intro g hg
    obtain ⟨⟨r, hr, hid⟩, hother⟩ := h.generates g hg
    refine ⟨⟨r, hcreated ▸ hr, (hall r hr).requestId.trans hid⟩, fun c hc => ?_⟩
    rw [hstreams] at hc
    obtain ⟨c₀, hc₀, rfl⟩ := List.mem_map.mp hc
    exact hother c₀ hc₀
  · intro r hr
    have hr' : r ∈ w.engine.scheduler.failed.values := hfailed ▸ hr
    show (e'.scheduler.requests r).status ≠ "ok"
    rw [(hall r (h.inv.failed_lt r hr')).status]
    exact h.failed r hr'

/-- The id of a new request is not one of an earlier request. -/
def NewId (w : EngineWorker Row) : Action → Prop
  | .generate requestId _ _ _ =>
    ∀ r < w.engine.scheduler.created, (w.engine.scheduler.requests r).requestId ≠ requestId
  | .generateStream requestId _ _ =>
    ∀ r < w.engine.scheduler.created, (w.engine.scheduler.requests r).requestId ≠ requestId
  | _ => True

instance (w : EngineWorker Row) : ∀ a : Action, Decidable (NewId w a)
  | .generate .. => inferInstanceAs (Decidable (∀ _ < _, _))
  | .generateStream .. => inferInstanceAs (Decidable (∀ _ < _, _))
  | .loop | .stop | .caller .. | .stream _ | .close _ => inferInstanceAs (Decidable True)

/-! ## Submitting -/

/-- A new request is added, and no callback changes but its own. -/
theorem Ordered.add (h : Ordered w) {requestId : String} (promptTokenIds : List Nat)
    (maxNewTokens : Int)
    (hid : ∀ r < w.engine.scheduler.created,
      (w.engine.scheduler.requests r).requestId ≠ requestId) :
    Ordered { w with
      engine := Exec.after (Engine.addRequest requestId promptTokenIds maxNewTokens) w.engine } := by
  rw [Exec.after_of_ok (Engine.addRequest_run w.engine requestId promptTokenIds maxNewTokens)]
  have hold : ∀ r < w.engine.scheduler.created, (Engine.withRequest w.engine.scheduler
      (w.engine.newRequest requestId promptTokenIds maxNewTokens)).requests r
        = w.engine.scheduler.requests r := fun r hr => Engine.withRequest_old _ _ hr
  constructor
  · exact h.live.add rfl fun _ => rfl
  · exact h.inv.add ⟨rfl, rfl, rfl⟩ hid
  · exact h.callbacks
  · exact h.ids
  · intro c hc
    obtain ⟨r, hr⟩ := h.streams c hc
    exact ⟨r, hr.frame (Nat.le_succ _) (hold r hr.created) id Iff.rfl⟩
  · intro g hg
    obtain ⟨⟨r, hr, hgid⟩, hother⟩ := h.generates g hg
    exact ⟨⟨r, Nat.lt_succ_of_lt hr, (congrArg _ (hold r hr)).trans hgid⟩, hother⟩
  · intro r hr
    show ((Engine.withRequest _ _).requests r).status ≠ "ok"
    rw [hold r (h.inv.failed_lt r hr)]
    exact h.failed r hr

/-- The new request has the next reference. -/
theorem added_new (w : EngineWorker Row) (requestId : String) (promptTokenIds : List Nat)
    (maxNewTokens : Int) :
    let e := Exec.after (Engine.addRequest requestId promptTokenIds maxNewTokens) w.engine
    e.scheduler.created = w.engine.scheduler.created + 1 ∧
      e.scheduler.requests w.engine.scheduler.created
        = w.engine.newRequest requestId promptTokenIds maxNewTokens ∧
      e.scheduler.failed = w.engine.scheduler.failed ∧ e.tokenCallbacks = w.engine.tokenCallbacks := by
  rw [Exec.after_of_ok (Engine.addRequest_run w.engine requestId promptTokenIds maxNewTokens)]
  exact ⟨rfl, Engine.withRequest_new _ _, rfl, rfl⟩

/-- The id of a stream is not that of a new request. -/
theorem Ordered.stream_ne (h : Ordered w) {requestId : String}
    (hid : ∀ r < w.engine.scheduler.created,
      (w.engine.scheduler.requests r).requestId ≠ requestId) (c : StreamCall) (hc : c ∈ w.streams) :
    c.requestId ≠ requestId := by
  obtain ⟨r, hr⟩ := h.streams c hc
  exact hr.requestId ▸ hid r hr.created

theorem Ordered.generate (h : Ordered w) {requestId : String} (promptTokenIds : List Nat)
    (maxNewTokens : Int) (hasDeadline : Bool)
    (hid : ∀ r < w.engine.scheduler.created,
      (w.engine.scheduler.requests r).requestId ≠ requestId) :
    Ordered (w.generate requestId promptTokenIds maxNewTokens hasDeadline) := by
  have hadd := h.add promptTokenIds maxNewTokens hid
  obtain ⟨hcreated, hnew, -, -⟩ := added_new w requestId promptTokenIds maxNewTokens
  refine { hadd with generates := fun g hg => ?_ }
  rcases List.mem_append.mp hg with hg | hg
  · exact hadd.generates g hg
  · rw [List.mem_singleton.mp hg]
    refine ⟨⟨w.engine.scheduler.created, ?_, ?_⟩, fun c hc => h.stream_ne hid c hc⟩
    · exact hcreated.symm ▸ Nat.lt_succ_self _
    · exact congrArg InferenceRequest.requestId hnew

theorem Ordered.generateStream (h : Ordered w) {requestId : String} (promptTokenIds : List Nat)
    (maxNewTokens : Int)
    (hid : ∀ r < w.engine.scheduler.created,
      (w.engine.scheduler.requests r).requestId ≠ requestId) :
    Ordered (w.generateStream requestId promptTokenIds maxNewTokens) := by
  have hadd := h.add promptTokenIds maxNewTokens hid
  obtain ⟨hcreated, hnew, hfailed, hcallbacks⟩ := added_new w requestId promptTokenIds maxNewTokens
  have hrun : Exec.after (do
      let requestId ← Engine.addRequest requestId promptTokenIds maxNewTokens
      Engine.registerTokenCallback requestId : Engine.M Row Unit) w.engine
      = { Exec.after (Engine.addRequest requestId promptTokenIds maxNewTokens) w.engine with
          tokenCallbacks := requestId :: w.engine.tokenCallbacks.erase requestId } := by
    rw [Exec.after_bind, Engine.addRequest_run, Exec.after_of_ok (Engine.addRequest_run _ _ _ _)]
    rfl
  -- the callbacks of the other requests stay
  have hother : ∀ id, id ≠ requestId →
      (id ∈ requestId :: w.engine.tokenCallbacks.erase requestId ↔
        id ∈ w.engine.tokenCallbacks) := fun id hne => by
    rw [List.mem_cons, List.mem_erase_of_ne hne]
    exact or_iff_right hne
  unfold EngineWorker.generateStream
  rw [hrun]
  constructor
  · exact hadd.live
  · exact hadd.inv
  · exact List.nodup_cons.mpr ⟨h.callbacks.not_mem_erase, h.callbacks.erase requestId⟩
  · show ((w.streams ++ [_]).map _).Nodup
    rw [List.map_append, List.map_singleton]
    refine List.nodup_append.mpr ⟨h.ids, List.nodup_singleton _, fun id hm id' hm' => ?_⟩
    obtain ⟨c, hc, rfl⟩ := List.mem_map.mp hm
    rw [List.mem_singleton.mp hm']
    exact h.stream_ne hid c hc
  · intro c hc
    rcases List.mem_append.mp hc with hc | hc
    · obtain ⟨r, hr⟩ := hadd.streams c hc
      refine ⟨r, hr.frame (Nat.le_refl _) rfl id ?_⟩
      exact (hother _ (h.stream_ne hid c hc)).trans (by rw [hcallbacks])
    · rw [List.mem_singleton.mp hc]
      have hlive : ¬StreamCall.Ended ⟨requestId, [], [], .test⟩ := fun ⟨_, ht⟩ => nomatch ht
      refine ⟨w.engine.scheduler.created, hcreated.symm ▸ Nat.lt_succ_self _,
        congrArg InferenceRequest.requestId hnew, fun hm => ?_,
        iff_of_true List.mem_cons_self hlive, fun _ => ?_, ?_⟩
      · rw [hfailed] at hm
        exact absurd (h.inv.failed_lt _ hm) (Nat.lt_irrefl _)
      · exact congrArg InferenceRequest.outputTokenIds hnew
      · rintro (hs | hs) <;> cases hs
  · intro g hg
    obtain ⟨hg', hne⟩ := hadd.generates g hg
    refine ⟨hg', fun c hc => ?_⟩
    rcases List.mem_append.mp hc with hc | hc
    · exact hne c hc
    · rw [List.mem_singleton.mp hc]
      obtain ⟨r, hr, hgid⟩ := (h.generates g hg).1
      exact fun he => hid r hr (hgid.trans he.symm)
  · exact hadd.failed

/-! ## Deadlines -/

/-- What a cancellation leaves: nothing changed, or one request that was not finished failed. -/
theorem cancelRequest_cases (h : Inv e.scheduler) (requestId status : String) :
    let e' := Exec.after (Engine.cancelRequest requestId status) e
    e' = e ∨ ∃ r q, (e.scheduler.requests r).state ≠ .finished ∧
      (e.scheduler.requests r).requestId = requestId ∧ q.requestId = requestId ∧
      q.status = status ∧ e'.scheduler.requests = Function.update e.scheduler.requests r q ∧
      e'.scheduler.failed = e.scheduler.failed.insert requestId r ∧
      e'.scheduler.created = e.scheduler.created ∧ e'.tokenCallbacks = e.tokenCallbacks := by
  rcases Engine.cancelRequest_run h requestId status with
    ⟨r, hr, hid, hrun⟩ | ⟨r, hr, b, hid, -, hrun⟩ | ⟨-, -, err, hrun⟩
  · rw [Exec.after_of_ok hrun]
    refine Or.inr ⟨r, { e.scheduler.requests r with state := .finished, status := status },
      by simp [(h.waiting r hr).state], hid, hid, rfl, rfl, ?_, rfl, rfl⟩
    exact congrArg (e.scheduler.failed.insert · r) hid
  · rw [Exec.after_of_ok hrun]
    refine Or.inr ⟨r, { e.scheduler.requests r with
      state := .finished, status := status, batchIdx := none }, ?_, hid, hid, rfl, rfl, ?_, rfl, rfl⟩
    · rcases (h.running r hr).state with ⟨hs, -⟩ | ⟨hs, -⟩ <;> simp [hs]
    · exact congrArg (e.scheduler.failed.insert · r) hid
  · rw [Exec.after_of_error hrun]
    exact Or.inl rfl

/-- The request of a call of `generate` is cancelled; those of the streams go on. -/
theorem Ordered.cancel (h : Ordered w) {g : GenerateCall} (hg : g ∈ w.generates)
    (hlive : Live (Exec.after (Engine.cancelRequest g.requestId "timeout") w.engine).scheduler)
    (hinv : Inv (Exec.after (Engine.cancelRequest g.requestId "timeout") w.engine).scheduler) :
    Ordered { w with
      engine := Exec.after (Engine.cancelRequest g.requestId "timeout") w.engine } := by
  have hcases := cancelRequest_cases h.inv g.requestId "timeout"
  generalize Exec.after (Engine.cancelRequest g.requestId "timeout") w.engine = e'
    at hlive hinv hcases
  rcases hcases with rfl | ⟨r, q, hstate, hid, hqid, hqstatus, hreq, hfailed, hcreated, hcallbacks⟩
  · exact h
  have hother : ∀ r', r' ≠ r → e'.scheduler.requests r' = w.engine.scheduler.requests r' :=
    fun r' hne => by rw [hreq, Function.update_of_ne hne]
  have hids : ∀ r', (e'.scheduler.requests r').requestId
      = (w.engine.scheduler.requests r').requestId := fun r' => by
    by_cases he : r' = r
    · rw [he, hreq, Function.update_self, hqid, hid]
    · rw [hother r' he]
  have hmem : ∀ r' ∈ e'.scheduler.failed.values,
      r' = r ∨ r' ∈ w.engine.scheduler.failed.values := fun r' hr' => by
    rw [hfailed] at hr'
    obtain ⟨id, hm⟩ := OrderedDict.mem_values_iff.mp hr'
    rcases OrderedDict.mem_insert.mp hm with ⟨-, he⟩ | ⟨-, hold⟩
    · exact Or.inl he
    · exact Or.inr (OrderedDict.mem_values_iff.mpr ⟨id, hold⟩)
  constructor
  · exact hlive
  · exact hinv
  · exact hcallbacks ▸ h.callbacks
  · exact h.ids
  · intro c hc
    obtain ⟨r', hr'⟩ := h.streams c hc
    have hne : r' ≠ r := by
      rintro rfl
      exact (h.generates g hg).2 c hc (hr'.requestId.symm.trans hid)
    exact ⟨r', hr'.frame hcreated.ge (hother r' hne) (fun hm => (hmem r' hm).resolve_left hne)
      (by rw [hcallbacks])⟩
  · intro g' hg'
    obtain ⟨⟨r', hr', hgid⟩, hne⟩ := h.generates g' hg'
    exact ⟨⟨r', hcreated ▸ hr', (hids r').trans hgid⟩, hne⟩
  · intro r' hr'
    by_cases he : r' = r
    · show (e'.scheduler.requests r').status ≠ "ok"
      rw [he, hreq, Function.update_self, hqstatus]
      decide
    · show (e'.scheduler.requests r').status ≠ "ok"
      rw [hother r' he]
      exact h.failed r' ((hmem r' hr').resolve_left he)

/-- A call of `generate` goes on to another phase. -/
theorem Ordered.setGenerate (h : Ordered w) {i : Nat} {g : GenerateCall}
    (hg : w.generates[i]? = some g) (phase : GeneratePhase) :
    Ordered (w.setGenerate i { g with phase := phase }) := by
  refine { h with generates := fun g' hg' => ?_ }
  rcases List.mem_or_eq_of_mem_set hg' with hg' | rfl
  · exact h.generates g' hg'
  · exact h.generates g (List.mem_of_getElem? hg)

/-! ## A step of a stream -/

/-- One stream goes on; the engine may drop its callback. -/
theorem Ordered.setStream (h : Ordered w) {i : Nat} {c c' : StreamCall}
    (hc : w.streams[i]? = some c) (hid : c'.requestId = c.requestId)
    (hfollows : ∀ r, Follows w.engine c r → Follows w.engine c' r) :
    Ordered (w.setStream i c') := by
  have hmem : ∀ d ∈ w.streams.set i c', d ∈ w.streams ∨ d = c' :=
    fun d hd => List.mem_or_eq_of_mem_set hd
  obtain ⟨hi, hget⟩ := List.getElem?_eq_some_iff.mp hc
  constructor
  · exact h.live
  · exact h.inv
  · exact h.callbacks
  · show ((w.streams.set i c').map _).Nodup
    have hsame : (w.streams.set i c').map (·.requestId) = w.streams.map (·.requestId) := by
      rw [List.map_set, hid, ← hget, ← List.getElem_map (f := StreamCall.requestId)
        (h := by rwa [List.length_map]), List.set_getElem_self]
    rw [hsame]
    exact h.ids
  · intro d hd
    rcases hmem d hd with hd | rfl
    · exact h.streams d hd
    · obtain ⟨r, hr⟩ := h.streams c (List.mem_of_getElem? hc)
      exact ⟨r, hfollows r hr⟩
  · intro g hg
    obtain ⟨hg', hne⟩ := h.generates g hg
    refine ⟨hg', fun d hd => ?_⟩
    rcases hmem d hd with hd | rfl
    · exact hne d hd
    · rw [hid]
      exact hne c (List.mem_of_getElem? hc)
  · exact h.failed

/-- A request that the scheduler lists as completed or failed is finished. -/
theorem Ordered.finished (h : Ordered w) {c : StreamCall} {r : Ref} (hr : Follows w.engine c r)
    (hf : w.isFinished c.requestId = true) : (w.engine.scheduler.requests r).state = .finished := by
  have hown : ∀ id r', (w.engine.scheduler.requests r').requestId = id →
      r' < w.engine.scheduler.created → id = c.requestId → r' = r := fun id r' hid hlt he =>
    h.inv.ids r' hlt r hr.created (hid.trans (he.trans hr.requestId.symm))
  rcases Bool.or_eq_true_iff.mp hf with hc | hc
  · obtain ⟨r', hm⟩ := OrderedDict.mem_keys_iff.mp (OrderedDict.contains_iff.mp hc)
    have hvalue := OrderedDict.mem_values_iff.mpr ⟨_, hm⟩
    have he := hown _ r' (h.inv.completedKey _ _ hm) (h.inv.completed_lt r' hvalue) rfl
    exact he ▸ (h.inv.completed r' hvalue).1.state
  · obtain ⟨r', hm⟩ := OrderedDict.mem_keys_iff.mp (OrderedDict.contains_iff.mp hc)
    have hvalue := OrderedDict.mem_values_iff.mpr ⟨_, hm⟩
    have he := hown _ r' (h.inv.failedKey _ _ hm) (h.inv.failed_lt r' hvalue) rfl
    exact he ▸ (h.inv.failed r' hvalue).state

/-- The `finally` block: the callback of the stream is unregistered, those of the others stay. -/
theorem Ordered.close (h : Ordered w) {i : Nat} {c : StreamCall} (hc : w.streams[i]? = some c)
    {thrown : Bool} (hphase : c.phase = .closing thrown) :
    Ordered ({ w with
      engine := Exec.after (Engine.unregisterTokenCallback c.requestId) w.engine }.setStream i
        { c with phase := .ended thrown }) := by
  have hlive : ¬StreamCall.Ended c := fun ⟨t, ht⟩ => nomatch hphase.symm.trans ht
  have hmem := List.mem_of_getElem? hc
  -- another stream has another id
  have hother : ∀ d ∈ w.streams.set i { c with phase := .ended thrown },
      d = { c with phase := .ended thrown } ∨ (d ∈ w.streams ∧ d.requestId ≠ c.requestId) := by
    intro d hd
    obtain ⟨j, hj, rfl⟩ := List.getElem_of_mem hd
    rw [List.length_set] at hj
    by_cases he : i = j
    · subst he
      exact Or.inl (List.getElem_set_self _)
    · rw [List.getElem_set_of_ne he]
      refine Or.inr ⟨List.getElem_mem hj, fun hid => he ?_⟩
      obtain ⟨hlt, hget⟩ := List.getElem?_eq_some_iff.mp hc
      have hi : i < (w.streams.map (·.requestId)).length := by rwa [List.length_map]
      have hj : j < (w.streams.map (·.requestId)).length := by rwa [List.length_map]
      have heq : (w.streams.map (·.requestId))[i] = (w.streams.map (·.requestId))[j] := by
        rw [List.getElem_map, List.getElem_map, hget, hid]
      exact h.ids.getElem_inj_iff.mp heq
  have hset : Ordered (w.setStream i { c with phase := .closing thrown }) :=
    h.setStream hc rfl fun r hr => by
      rw [← hphase]
      exact hr
  constructor
  · exact h.live
  · exact h.inv
  · exact h.callbacks.erase _
  · have hids := hset.ids
    unfold EngineWorker.setStream at hids ⊢
    rw [List.map_set] at hids ⊢
    exact hids
  · intro d hd
    rcases hother d hd with rfl | ⟨hd, hne⟩
    · obtain ⟨r, hr⟩ := h.streams c hmem
      have hended : StreamCall.Ended { c with phase := .ended thrown } := ⟨thrown, rfl⟩
      refine ⟨r, hr.created, hr.requestId, hr.notFailed, ?_, fun hn => absurd hended hn, ?_⟩
      · exact iff_of_false h.callbacks.not_mem_erase (not_not.mpr hended)
      · rintro (hs | hs) <;> cases hs
    · obtain ⟨r, hr⟩ := h.streams d hd
      exact ⟨r, hr.frame (Nat.le_refl _) rfl id (List.mem_erase_of_ne hne)⟩
  · intro g hg
    obtain ⟨hg', hne⟩ := h.generates g hg
    refine ⟨hg', fun d hd => ?_⟩
    rcases hother d hd with rfl | ⟨hd, -⟩
    · exact hne c hmem
    · exact hne d hd
  · exact h.failed

/-- **The next action of a stream.** -/
theorem Ordered.stepStream (h : Ordered w) {i : Nat} {c : StreamCall} (hc : w.streams[i]? = some c) :
    Ordered (w.stepStream i c) := by
  obtain ⟨requestId, queue, yielded, phase⟩ := c
  -- outside the `finally` block the call is still registered
  have hlive : (∀ thrown, phase ≠ .ended thrown) →
      ¬StreamCall.Ended ⟨requestId, queue, yielded, phase⟩ := fun hne ⟨t, ht⟩ => hne t ht
  unfold EngineWorker.stepStream
  cases phase with
  | test =>
    refine h.setStream hc rfl fun r hr => hr.goto (hlive nofun) (fun t => ?_) ?_
    · split <;> exact nofun
    · split <;> rintro (hs | hs) <;> cases hs
  | poll =>
    refine h.setStream hc rfl fun r hr => hr.goto (hlive nofun) nofun ?_
    rintro (hs | hs)
    · exact h.finished hr (StreamPhase.drain.inj hs)
    · cases hs
  | drain finished =>
    cases queue with
    | cons token queue => exact h.setStream hc rfl fun r hr => hr.yield (hlive nofun) rfl
    | nil =>
      refine h.setStream hc rfl fun r hr => hr.goto (hlive nofun) (fun t => ?_) fun hs => ?_
      · split <;> exact nofun
      · cases finished with
        | true => exact hr.seen (Or.inl rfl)
        | false => rcases hs with hs | hs <;> cases hs
  | drainAgain =>
    cases queue with
    | cons token queue => exact h.setStream hc rfl fun r hr => hr.yield (hlive nofun) rfl
    | nil =>
      refine h.setStream hc rfl fun r hr => hr.goto (hlive nofun) nofun ?_
      rintro (hs | hs) <;> cases hs
  | closing thrown => exact h.close hc rfl
  | ended thrown => exact h

theorem Ordered.closeStream (h : Ordered w) {i : Nat} {c : StreamCall}
    (hc : w.streams[i]? = some c) : Ordered (w.closeStream i c) := by
  have hgo : (∀ t, c.phase ≠ .ended t) → Ordered (w.setStream i { c with phase := .closing true }) := by
    intro hne
    refine h.setStream hc rfl fun r hr => hr.goto (fun ⟨t, ht⟩ => hne t ht) (fun t => nofun) ?_
    rintro (hs | hs) <;> cases hs
  unfold EngineWorker.closeStream
  split
  · next hphase => exact hgo fun t ht => nomatch hphase.symm.trans ht
  · next hphase => exact hgo fun t ht => nomatch hphase.symm.trans ht
  · exact h

/-! ## Every action -/

variable [LinearOrder Score] {chain : Int → List Nat → Int} {model : InferenceModel Row Score}

theorem Ordered.stepLoop (h : Ordered w) : Ordered (w.stepLoop chain model) := by
  have hgoto : ∀ loop, Ordered { w with loop := loop } := fun _ =>
    ⟨h.live, h.inv, h.callbacks, h.ids, h.streams, h.generates, h.failed⟩
  have hemits := Engine.step_emits chain model h.live h.inv
  have hlive : Live (Exec.after (Engine.step chain model) w.engine).scheduler := by
    have hnext : Live (Engine.next chain model w.engine .step).scheduler :=
      Engine.next_live h.live .step
    rwa [Engine.next, Engine.call, Exec.after_dropped] at hnext
  unfold EngineWorker.stepLoop
  split
  · exact hgoto _
  · unfold EngineWorker.stepLocked
    split
    · exact hgoto _
    · split
      · split
        · next hrun =>
          rw [Exec.after_of_ok hrun] at hemits hlive
          exact h.stepped hlive hemits _
        · next hrun =>
          rw [Exec.after_of_error hrun] at hemits hlive
          exact h.stepped hlive hemits _
      · exact hgoto _
  · exact h
  · exact h

omit [LinearOrder Score] in
theorem Ordered.stepGenerate (h : Ordered w) {i : Nat} {g : GenerateCall}
    (hg : w.generates[i]? = some g) (expired : Bool) : Ordered (w.stepGenerate i g expired) := by
  have hlive : Live (Exec.after (Engine.cancelRequest g.requestId "timeout") w.engine).scheduler :=
    Engine.cancelRequest_pieces (J := fun e => Live e.scheduler)
      (fun e he => he.cancelOutcome (Scheduler.cancelRequest_outcome e.scheduler _ _))
      (fun _ _ _ he _ => he) w.engine h.live
  have hinv : Inv (Exec.after (Engine.cancelRequest g.requestId "timeout") w.engine).scheduler :=
    Engine.cancelRequest_pieces (J := fun e => Inv e.scheduler)
      (fun e he => (he.cancelled _ _).1) (fun _ _ _ he _ => he) w.engine h.inv
  have hcancel := h.cancel (List.mem_of_getElem? hg) hlive hinv
  unfold EngineWorker.stepGenerate
  cases g.phase with
  | test => exact h.setGenerate hg _
  | poll =>
    simp only
    split
    · exact h.setGenerate hg _
    · split
      · exact h.setGenerate hg _
      · split
        · unfold timeOut
          split
          · next hrun =>
            rw [Exec.after_of_ok hrun] at hcancel
            split <;> exact hcancel.setGenerate hg _
          · next hrun =>
            rw [Exec.after_of_error hrun] at hcancel
            exact hcancel.setGenerate hg _
        · exact h.setGenerate hg _
  | returned r => exact h
  | raised => exact h

/-- **Every action keeps the callers in order.** -/
theorem next_ordered (h : Ordered w) {a : Action} (hid : NewId w a) :
    Ordered (next chain model w a) := by
  cases a with
  | loop => exact h.stepLoop
  | stop => exact ⟨h.live, h.inv, h.callbacks, h.ids, h.streams, h.generates, h.failed⟩
  | generate requestId promptTokenIds maxNewTokens hasDeadline =>
    exact h.generate promptTokenIds maxNewTokens hasDeadline hid
  | generateStream requestId promptTokenIds maxNewTokens =>
    exact h.generateStream promptTokenIds maxNewTokens hid
  | caller i expired =>
    rw [EngineWorker.next]
    split
    · exact h
    · next g hg => exact h.stepGenerate hg expired
  | stream i =>
    rw [EngineWorker.next]
    split
    · exact h
    · next c hc => exact h.stepStream hc
  | close i =>
    rw [EngineWorker.next]
    split
    · exact h
    · next c hc => exact h.closeStream hc

/-! ## Streams that end -/

/-- The loop of the stream is over, and not by an exception. -/
def StreamCall.Over (c : StreamCall) : Prop := c.phase = .closing false ∨ c.phase = .ended false

/-- A stream that is over has yielded all tokens of its request, which is finished. -/
def Whole (e : Engine Row) (c : StreamCall) : Prop :=
  StreamCall.Over c → ∀ r < e.scheduler.created, (e.scheduler.requests r).requestId = c.requestId →
    (e.scheduler.requests r).state = .finished ∧
      (e.scheduler.requests r).outputTokenIds = c.yielded

/-- The stream does not leave its loop for `stop` while there are tokens to come. -/
def NotCut (w : EngineWorker Row) : Action → Prop
  | .stream i => ∀ c ∈ w.streams[i]?, c.phase = .test → w.stopped = true →
    w.isFinished c.requestId = true ∧ c.queue = []
  | _ => True

instance (w : EngineWorker Row) : ∀ a : Action, Decidable (NotCut w a)
  | .stream i => inferInstanceAs (Decidable (∀ c ∈ w.streams[i]?, _ → _ → _ ∧ _))
  | .loop | .stop | .generate .. | .generateStream .. | .caller .. | .close _ =>
    inferInstanceAs (Decidable True)

omit [LinearOrder Score] in
/-- A finished request with the id of a stream stays as it is. -/
theorem Whole.frame (h : Whole e c) {c' : StreamCall} (hover : StreamCall.Over c' → StreamCall.Over c)
    (hid : c'.requestId = c.requestId) (hyielded : c'.yielded = c.yielded)
    (hstay : ∀ r < e'.scheduler.created, (e'.scheduler.requests r).requestId = c.requestId →
      r < e.scheduler.created ∧ (e.scheduler.requests r).requestId = c.requestId ∧
        ((e.scheduler.requests r).state = .finished → (e'.scheduler.requests r).state = .finished ∧
          (e'.scheduler.requests r).outputTokenIds = (e.scheduler.requests r).outputTokenIds)) :
    Whole e' c' := by
  intro ho r hr hrid
  rw [hid] at hrid
  obtain ⟨hlt, hold, hfin⟩ := hstay r hr hrid
  obtain ⟨hs, hout⟩ := h (hover ho) r hlt hold
  obtain ⟨hs', hout'⟩ := hfin hs
  exact ⟨hs', by rw [hout', hout, hyielded]⟩

omit [LinearOrder Score] in
theorem Whole.emits (h : Whole e c) (he : Emits e e') (calls : List (String × Nat)) :
    Whole e' (StreamCall.hear c calls) := by
  obtain ⟨-, hcreated, -, -, news, -, hall⟩ := he
  refine h.frame id rfl rfl fun r hr hid => ?_
  rw [hcreated] at hr
  exact ⟨hr, (hall r hr).requestId.symm.trans hid, (hall r hr).finished⟩

omit [LinearOrder Score] in
theorem Whole.add (h : Whole w.engine c) {requestId : String} (promptTokenIds : List Nat)
    (maxNewTokens : Int) (hne : c.requestId ≠ requestId) :
    Whole (Exec.after (Engine.addRequest requestId promptTokenIds maxNewTokens) w.engine) c := by
  rw [Exec.after_of_ok (Engine.addRequest_run w.engine requestId promptTokenIds maxNewTokens)]
  refine h.frame id rfl rfl fun r hr hid => ?_
  rcases Nat.lt_succ_iff_lt_or_eq.mp hr with hlt | rfl
  · have hold := Engine.withRequest_old w.engine.scheduler
      (w.engine.newRequest requestId promptTokenIds maxNewTokens) hlt
    refine ⟨hlt, (congrArg _ hold.symm).trans hid, fun hs => ?_⟩
    exact ⟨(congrArg _ hold).trans hs, congrArg _ hold⟩
  · have hnew := Engine.withRequest_new w.engine.scheduler
      (w.engine.newRequest requestId promptTokenIds maxNewTokens)
    exact absurd (hid.symm.trans (congrArg _ hnew)) hne

omit [LinearOrder Score] in
theorem Whole.cancel (h : Whole e c) (hinv : Inv e.scheduler) (requestId status : String) :
    Whole (Exec.after (Engine.cancelRequest requestId status) e) c := by
  have hcases := cancelRequest_cases hinv requestId status
  generalize Exec.after (Engine.cancelRequest requestId status) e = e' at hcases
  rcases hcases with rfl | ⟨r', q, hstate, hid', hqid, -, hreq, -, hcreated, -⟩
  · exact h
  refine h.frame id rfl rfl fun r hr hid => ?_
  rw [hcreated] at hr
  by_cases he : r = r'
  · subst he
    rw [hreq, Function.update_self, hqid] at hid
    exact ⟨hr, hid'.trans hid, fun hs => absurd hs hstate⟩
  · rw [hreq, Function.update_of_ne he] at hid ⊢
    exact ⟨hr, hid, fun hs => ⟨hs, rfl⟩⟩

omit [LinearOrder Score] in
/-- One stream goes on. -/
theorem whole_setStream (hall : ∀ d ∈ w.streams, Whole w.engine d) {i : Nat} {c' : StreamCall}
    (hc' : Whole w.engine c') : ∀ d ∈ (w.setStream i c').streams, Whole w.engine d := by
  intro d hd
  rcases List.mem_or_eq_of_mem_set hd with hd | rfl
  · exact hall d hd
  · exact hc'

omit [LinearOrder Score] in
/-- A stream that leaves its loop with its request finished and its queue empty is whole. -/
theorem Ordered.whole (h : Ordered w) (hc : c ∈ w.streams)
    (hlive : ¬StreamCall.Ended c) (hq : c.queue = []) (hfin : ∀ r, Follows w.engine c r →
      (w.engine.scheduler.requests r).state = .finished) (phase : StreamPhase) :
    Whole w.engine { c with phase := phase } := by
  intro _ r hr hid
  obtain ⟨r', hr'⟩ := h.streams c hc
  have he : r = r' := h.inv.ids r hr r' hr'.created (hid.trans hr'.requestId.symm)
  rw [he]
  refine ⟨hfin r' hr', ?_⟩
  rw [hr'.exact hlive, hq, List.append_nil]

omit [LinearOrder Score] in
/-- **A stream that is over has missed nothing**, if it was not cut. -/
theorem whole_stepStream (h : Ordered w) (hall : ∀ d ∈ w.streams, Whole w.engine d) {i : Nat}
    (hc : w.streams[i]? = some c) (hcut : c.phase = .test → w.stopped = true →
      w.isFinished c.requestId = true ∧ c.queue = []) :
    ∀ d ∈ (w.stepStream i c).streams, Whole (w.stepStream i c).engine d := by
  have hmem := List.mem_of_getElem? hc
  obtain ⟨requestId, queue, yielded, phase⟩ := c
  have hnot : ∀ {d : StreamCall}, ¬StreamCall.Over d → Whole w.engine d :=
    fun hn ho => absurd ho hn
  unfold EngineWorker.stepStream
  cases phase with
  | test =>
    have hlive : ¬StreamCall.Ended ⟨requestId, queue, yielded, .test⟩ := fun ⟨t, ht⟩ => nomatch ht
    refine whole_setStream hall ?_
    by_cases hs : w.stopped = true
    · obtain ⟨hfin, hq⟩ := hcut rfl hs
      exact h.whole hmem hlive hq (fun r hr => h.finished hr hfin) _
    · refine hnot ?_
      rw [if_neg hs]
      rintro (ho | ho) <;> cases ho
  | poll =>
    refine whole_setStream hall (hnot ?_)
    rintro (ho | ho) <;> cases ho
  | drain finished =>
    cases queue with
    | cons token queue =>
      refine whole_setStream hall (hnot ?_)
      rintro (ho | ho) <;> cases ho
    | nil =>
      refine whole_setStream hall (hnot ?_)
      cases finished <;> rintro (ho | ho) <;> cases ho
  | drainAgain =>
    cases queue with
    | cons token queue =>
      refine whole_setStream hall (hnot ?_)
      rintro (ho | ho) <;> cases ho
    | nil =>
      have hlive : ¬StreamCall.Ended ⟨requestId, [], yielded, .drainAgain⟩ :=
        fun ⟨t, ht⟩ => nomatch ht
      -- its request was finished when the queue was drained
      exact whole_setStream hall (h.whole hmem hlive rfl (fun r hr => hr.seen (Or.inr rfl)) _)
  | closing thrown =>
    intro d hd
    rcases List.mem_or_eq_of_mem_set hd with hd | rfl
    · exact (hall d hd).frame id rfl rfl fun r hr hid => ⟨hr, hid, fun hs => ⟨hs, rfl⟩⟩
    · refine (hall _ hmem).frame ?_ rfl rfl fun r hr hid => ⟨hr, hid, fun hs => ⟨hs, rfl⟩⟩
      rintro (ho | ho)
      · cases ho
      · cases ho
        exact Or.inl rfl
  | ended thrown => exact hall

/-- **Every action keeps the streams that are over whole**, unless it cuts one. -/
theorem next_whole (h : Ordered w) (hall : ∀ d ∈ w.streams, Whole w.engine d) {a : Action}
    (hid : NewId w a) (hcut : NotCut w a) :
    ∀ d ∈ (next chain model w a).streams, Whole (next chain model w a).engine d := by
  cases a with
  | loop =>
    have hemits := Engine.step_emits chain model h.live h.inv
    -- what a step emits reaches the queues before anyone else sees the engine
    have hstep : ∀ e' loop, Emits w.engine e' →
        ∀ d ∈ (w.stepped e' loop).streams, Whole (w.stepped e' loop).engine d := by
      intro e' loop he d hd
      have hd' : d ∈ deliver _ w.streams := hd
      rw [h.deliver_eq] at hd'
      obtain ⟨c, hc, rfl⟩ := List.mem_map.mp hd'
      exact (hall c hc).emits he _
    show ∀ d ∈ (w.stepLoop chain model).streams, Whole (w.stepLoop chain model).engine d
    unfold EngineWorker.stepLoop
    split
    · exact hall
    · unfold EngineWorker.stepLocked
      split
      · exact hall
      · split
        · split
          · next hrun =>
            rw [Exec.after_of_ok hrun] at hemits
            exact hstep _ _ hemits
          · next hrun =>
            rw [Exec.after_of_error hrun] at hemits
            exact hstep _ _ hemits
        · exact hall
    · exact hall
    · exact hall
  | stop => exact hall
  | generate requestId promptTokenIds maxNewTokens hasDeadline =>
    exact fun d hd => (hall d hd).add promptTokenIds maxNewTokens (h.stream_ne hid d hd)
  | generateStream requestId promptTokenIds maxNewTokens =>
    intro d hd
    have hadd : ∀ {c : StreamCall}, Whole (Exec.after (Engine.addRequest requestId promptTokenIds
        maxNewTokens) w.engine) c → Whole (w.generateStream requestId promptTokenIds
          maxNewTokens).engine c := fun hc => by
      unfold EngineWorker.generateStream
      rw [Exec.after_of_ok (Engine.addRequest_run _ _ _ _)] at hc
      simp only [Exec.after_bind, Engine.addRequest_run]
      exact hc
    rcases List.mem_append.mp hd with hd | hd
    · exact hadd ((hall d hd).add promptTokenIds maxNewTokens (h.stream_ne hid d hd))
    · -- the new call is neither drained nor done
      rw [List.mem_singleton.mp hd]
      rintro (ho | ho) <;> cases ho
  | caller i expired =>
    rw [EngineWorker.next]
    split
    · exact hall
    · next g hg =>
      have hcancel : ∀ d ∈ w.streams,
          Whole (Exec.after (Engine.cancelRequest g.requestId "timeout") w.engine) d :=
        fun d hd => (hall d hd).cancel h.inv _ _
      unfold EngineWorker.stepGenerate
      cases g.phase with
      | poll =>
        simp only
        split
        · exact hall
        · split
          · exact hall
          · split
            · unfold timeOut
              split
              · next hrun =>
                rw [Exec.after_of_ok hrun] at hcancel
                split <;> exact hcancel
              · next hrun =>
                rw [Exec.after_of_error hrun] at hcancel
                exact hcancel
            · exact hall
      | _ => exact hall
  | stream i =>
    rw [EngineWorker.next]
    split
    · exact hall
    · next c hc => exact whole_stepStream h hall hc (hcut c hc)
  | close i =>
    rw [EngineWorker.next]
    split
    · exact hall
    · next c hc =>
      have hgo : ∀ d ∈ (w.setStream i { c with phase := .closing true }).streams,
          Whole w.engine d := by
        refine whole_setStream hall fun ho => ?_
        rcases ho with ho | ho <;> cases ho
      unfold EngineWorker.closeStream
      split
      · exact hgo
      · exact hgo
      · exact hall

end EngineWorker

end Nifre
