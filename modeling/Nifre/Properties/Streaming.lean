import Nifre.Properties.Completions
import Nifre.Properties.ContinuousBatching
import Nifre.Properties.StreamCalls

/-!
# What the callers are told

A stream that ends by itself has yielded the output of its request, unless `stop` cut it. What
`generate` returns with status `ok` is complete in every interleaving.

* `stream_exact` — streaming loses and duplicates nothing
* `reports_complete` — nothing is reported as complete that is not, unless `stop` cut a stream
-/

namespace Nifre

variable {Row Score : Type}

namespace EngineWorker

open Scheduler (Inv Live Produced)

/-! ## What a call of `generate` returns -/

/-- Request `r` is the one of the call, and it is finished. -/
structure Picked (e : Engine Row) (g : GenerateCall) (r : Ref) : Prop where
  created : r < e.scheduler.created
  requestId : (e.scheduler.requests r).requestId = g.requestId
  state : (e.scheduler.requests r).state = .finished

/-- The calls that returned have returned their own requests. -/
def Returned (w : EngineWorker Row) : Prop :=
  ∀ g ∈ w.generates, ∀ r, g.phase = .returned r → Picked w.engine g r

/-- What an action leaves of the requests before it: finished ones stay finished. -/
def Stays (e e' : Engine Row) : Prop :=
  e.scheduler.created ≤ e'.scheduler.created ∧ ∀ r < e.scheduler.created,
    (e'.scheduler.requests r).requestId = (e.scheduler.requests r).requestId ∧
      ((e.scheduler.requests r).state = .finished → (e'.scheduler.requests r).state = .finished)

variable {e e' : Engine Row} {w : EngineWorker Row}

theorem Stays.refl (e : Engine Row) : Stays e e := ⟨Nat.le_refl _, fun _ _ => ⟨rfl, id⟩⟩

theorem Stays.picked (h : Stays e e') {g : GenerateCall} {r : Ref} (hp : Picked e g r) :
    Picked e' g r := by
  obtain ⟨hid, hfin⟩ := h.2 r hp.created
  exact ⟨Nat.lt_of_lt_of_le hp.created h.1, hid.trans hp.requestId, hfin hp.state⟩

theorem Stays.of_emits (h : Engine.Emits e e') : Stays e e' := by
  obtain ⟨-, hcreated, -, -, news, -, hall⟩ := h
  exact ⟨hcreated.ge, fun r hr => ⟨(hall r hr).requestId, fun hs => ((hall r hr).finished hs).1⟩⟩

theorem stays_addRequest (e : Engine Row) (requestId : String) (promptTokenIds : List Nat)
    (maxNewTokens : Int) :
    Stays e (Exec.after (Engine.addRequest requestId promptTokenIds maxNewTokens) e) := by
  rw [Exec.after_of_ok (Engine.addRequest_run e requestId promptTokenIds maxNewTokens)]
  refine ⟨Nat.le_succ _, fun r hr => ?_⟩
  show ((Engine.withRequest _ _).requests r).requestId = _ ∧ _
  rw [Engine.withRequest_old _ _ hr]
  exact ⟨rfl, id⟩

theorem stays_cancelRequest (h : Inv e.scheduler) (requestId status : String) :
    Stays e (Exec.after (Engine.cancelRequest requestId status) e) := by
  have hcases := cancelRequest_cases h requestId status
  generalize Exec.after (Engine.cancelRequest requestId status) e = e' at hcases
  rcases hcases with he | ⟨r', q, hstate, hid', hqid, -, hreq, -, hcreated, -⟩
  · rw [he]
    exact Stays.refl e
  refine ⟨hcreated.ge, fun r _ => ?_⟩
  by_cases he : r = r'
  · subst he
    rw [hreq, Function.update_self, hqid]
    exact ⟨hid'.symm, fun hs => absurd hs hstate⟩
  · rw [hreq, Function.update_of_ne he]
    exact ⟨rfl, id⟩

/-- What is listed as completed under an id is the finished request with that id. -/
theorem picked_of_completed (h : Inv e.scheduler) {g : GenerateCall} {r : Ref}
    (hf : e.scheduler.completed.find? g.requestId = some r) : Picked e g r := by
  have hm := OrderedDict.find?_eq_some_iff.mp hf
  have hv := OrderedDict.mem_values_iff.mpr ⟨_, hm⟩
  exact ⟨h.completed_lt r hv, h.completedKey _ _ hm, (h.completed r hv).1.state⟩

theorem picked_of_failed (h : Inv e.scheduler) {g : GenerateCall} {r : Ref}
    (hf : e.scheduler.failed.find? g.requestId = some r) : Picked e g r := by
  have hm := OrderedDict.find?_eq_some_iff.mp hf
  have hv := OrderedDict.mem_values_iff.mpr ⟨_, hm⟩
  exact ⟨h.failed_lt r hv, h.failedKey _ _ hm, (h.failed r hv).state⟩

theorem Returned.stays (h : Returned w) {w' : EngineWorker Row} (he : Stays w.engine w'.engine)
    (hg : w'.generates = w.generates) : Returned w' :=
  fun g hm r hr => he.picked (h g (hg ▸ hm) r hr)

theorem Returned.engine (h : Returned w) (he : Stays w.engine e') :
    Returned { w with engine := e' } := h.stays he rfl

/-- One call of `generate` goes on. -/
theorem Returned.setGenerate (h : Returned w) {i : Nat} {g : GenerateCall} {phase : GeneratePhase}
    (hp : ∀ r, phase = .returned r → Picked w.engine g r) :
    Returned (w.setGenerate i { g with phase := phase }) := by
  intro g' hg' r hr
  rcases List.mem_or_eq_of_mem_set hg' with hm | rfl
  · exact h g' hm r hr
  · obtain ⟨hcreated, hid, hstate⟩ := hp r hr
    exact ⟨hcreated, hid, hstate⟩

theorem Returned.stepGenerate (h : Returned w) (hord : Ordered w) (i : Nat) (g : GenerateCall)
    (expired : Bool) : Returned (w.stepGenerate i g expired) := by
  have hinv : Inv (Exec.after (Engine.cancelRequest g.requestId "timeout") w.engine).scheduler :=
    Engine.cancelRequest_pieces (J := fun e => Inv e.scheduler)
      (fun e he => (he.cancelled _ _).1) (fun _ _ _ he _ => he) w.engine hord.inv
  have hstays := stays_cancelRequest hord.inv g.requestId "timeout"
  unfold EngineWorker.stepGenerate
  cases g.phase with
  | test =>
    refine h.setGenerate fun r hr => ?_
    split at hr <;> cases hr
  | poll =>
    simp only
    split
    · next r hf =>
      refine h.setGenerate fun r' hr => ?_
      cases hr
      exact picked_of_completed hord.inv hf
    · split
      · next r hf =>
        refine h.setGenerate fun r' hr => ?_
        cases hr
        exact picked_of_failed hord.inv hf
      · split
        · unfold timeOut
          split
          · next hrun =>
            rw [Exec.after_of_ok hrun] at hstays hinv
            have hcancelled := h.engine hstays
            split
            · next r hf =>
              refine hcancelled.setGenerate fun r' hr => ?_
              cases hr
              exact picked_of_failed hinv hf
            · exact hcancelled.setGenerate fun _ hr => by cases hr
          · next hrun =>
            rw [Exec.after_of_error hrun] at hstays
            exact (h.engine hstays).setGenerate fun _ hr => by cases hr
        · exact h.setGenerate fun _ hr => by cases hr
  | returned r => exact h
  | raised => exact h

variable [LinearOrder Score] {chain : Int → List Nat → Int} {model : InferenceModel Row Score}

theorem Returned.stepLoop (h : Returned w) (hord : Ordered w) :
    Returned (w.stepLoop chain model) := by
  have hstays := Stays.of_emits (Engine.step_emits chain model hord.live hord.inv)
  unfold EngineWorker.stepLoop
  split
  · exact h
  · unfold EngineWorker.stepLocked
    split
    · exact h
    · split
      · split
        · next hrun =>
          rw [Exec.after_of_ok hrun] at hstays
          exact h.stays hstays rfl
        · next hrun =>
          rw [Exec.after_of_error hrun] at hstays
          exact h.stays hstays rfl
      · exact h
  · exact h
  · exact h

theorem next_returned (h : Returned w) (hord : Ordered w) (a : Action) :
    Returned (next chain model w a) := by
  cases a with
  | loop => exact h.stepLoop hord
  | stop => exact h
  | generate requestId promptTokenIds maxNewTokens hasDeadline =>
    intro g hg r hr
    have hstays := stays_addRequest w.engine requestId promptTokenIds maxNewTokens
    rcases List.mem_append.mp hg with hg | hg
    · exact hstays.picked (h g hg r hr)
    · rw [List.mem_singleton.mp hg] at hr
      cases hr
  | generateStream requestId promptTokenIds maxNewTokens =>
    refine h.stays ?_ rfl
    have hstays := stays_addRequest w.engine requestId promptTokenIds maxNewTokens
    show Stays w.engine (w.generateStream requestId promptTokenIds maxNewTokens).engine
    unfold EngineWorker.generateStream
    rw [Exec.after_of_ok (Engine.addRequest_run _ _ _ _)] at hstays
    simp only [Exec.after_bind, Engine.addRequest_run]
    exact hstays
  | caller i expired =>
    rw [EngineWorker.next]
    split
    · exact h
    · exact h.stepGenerate hord _ _ expired
  | stream i =>
    rw [EngineWorker.next]
    split
    · exact h
    · next c _ =>
      unfold EngineWorker.stepStream
      split
      · exact h
      · exact h
      · split <;> exact h
      · split <;> exact h
      · have hstays : Stays w.engine
            (Exec.after (Engine.unregisterTokenCallback c.requestId) w.engine) := Stays.refl _
        exact h.stays hstays rfl
      · exact h
  | close i =>
    rw [EngineWorker.next]
    split
    · exact h
    · next c _ =>
      unfold EngineWorker.closeStream
      split <;> exact h

/-! ## Runs -/

/-- What holds of the callers after actions that draw new ids and cut no stream. -/
def Tracked (w : EngineWorker Row) : Prop :=
  Ordered w ∧ (∀ c ∈ w.streams, Whole w.engine c) ∧ Returned w

theorem tracked_run {maxConcurrentRequests prefillChunkSize maxTokensPerStep : Int}
    {usePagedKvCache usePrefixCache : Bool} {actions : List Action}
    (h : Engine.new model maxConcurrentRequests prefillChunkSize maxTokensPerStep usePagedKvCache
      usePrefixCache = .ok e)
    (hrun : Exec.Along (fun w a => NewId w a ∧ NotCut w a) (next chain model) (new e) actions) :
    Tracked (actions.foldl (next chain model) (new e)) := by
  refine hrun.foldl ?_ ⟨new_ordered h, nofun, nofun⟩
  rintro w a ⟨hord, hwhole, hret⟩ ⟨hid, hcut⟩
  exact ⟨next_ordered hord hid, next_whole hord hwhole hid hcut, next_returned hret hord a⟩

/-- Only `stop` sets the flag. -/
theorem next_stopped {a : Action} (ha : a ≠ .stop) (hw : w.stopped = false) :
    (next chain model w a).stopped = false := by
  cases a with
  | stop => exact absurd rfl ha
  | loop =>
    show (w.stepLoop chain model).stopped = false
    unfold EngineWorker.stepLoop
    split
    · exact hw
    · unfold EngineWorker.stepLocked
      split
      · exact hw
      · split
        · split <;> exact hw
        · exact hw
    · exact hw
    · exact hw
  | generate => exact hw
  | generateStream => exact hw
  | caller i expired =>
    rw [EngineWorker.next]
    split
    · exact hw
    · unfold EngineWorker.stepGenerate
      split
      · exact hw
      · split
        · exact hw
        · split
          · exact hw
          · split
            · unfold timeOut
              split
              · split <;> exact hw
              · exact hw
            · exact hw
      · exact hw
      · exact hw
  | stream i =>
    rw [EngineWorker.next]
    split
    · exact hw
    · unfold EngineWorker.stepStream
      split
      · exact hw
      · exact hw
      · split <;> exact hw
      · split <;> exact hw
      · exact hw
      · exact hw
  | close i =>
    rw [EngineWorker.next]
    split
    · exact hw
    · unfold EngineWorker.closeStream
      split <;> exact hw

omit [LinearOrder Score] in
theorem notCut_of_running (hw : w.stopped = false) (a : Action) : NotCut w a := by
  cases a with
  | stream i =>
    intro c _ _ hs
    rw [hw] at hs
    cases hs
  | _ => trivial

/-- Without `stop` no stream is cut. -/
theorem notCut_along {actions : List Action} (hstop : ∀ a ∈ actions, a ≠ .stop)
    (hw : w.stopped = false) (hrun : Exec.Along NewId (next chain model) w actions) :
    Exec.Along (fun w a => NewId w a ∧ NotCut w a) (next chain model) w actions := by
  refine Exec.Along.of_invariant (J := fun w => w.stopped = false) ?_ hw (hrun.and_mem hstop)
  rintro w a hw ⟨hid, ha⟩
  exact ⟨⟨hid, notCut_of_running hw a⟩, next_stopped ha hw⟩

omit [LinearOrder Score] in
/-- A stream that ended by itself has yielded the output of its request, which is completed. -/
theorem Tracked.ended (h : Tracked w) {c : StreamCall} (hc : c ∈ w.streams)
    (hend : c.phase = .ended false) : ∃ r,
      w.engine.scheduler.completed.find? c.requestId = some r ∧
        c.yielded = (w.engine.scheduler.requests r).outputTokenIds ∧
          Produced (w.engine.scheduler.requests r) := by
  obtain ⟨hord, hwhole, -⟩ := h
  obtain ⟨r, hr⟩ := hord.streams c hc
  obtain ⟨hfin, hout⟩ := hwhole c hc (Or.inr hend) r hr.created hr.requestId
  obtain ⟨id, hm⟩ := OrderedDict.mem_values_iff.mp
    ((hord.inv.mem_ended hr.created hfin).resolve_right hr.notFailed)
  have hid : id = c.requestId := (hord.inv.completedKey id r hm).symm.trans hr.requestId
  exact ⟨r, hid ▸ OrderedDict.find?_eq_some_iff.mpr hm, hout.symm,
    (hord.inv.completed r (OrderedDict.mem_values_iff.mpr ⟨id, hm⟩)).2⟩

/-! ## Streaming -/

/-- **Streaming loses and duplicates nothing.** As long as `stop` is not called, a stream that has
ended has unregistered its callback, and unless its consumer closed it, it has yielded the output
of its completed request. -/
theorem stream_exact {maxConcurrentRequests prefillChunkSize maxTokensPerStep : Int}
    {usePagedKvCache usePrefixCache : Bool} {actions : List Action}
    (h : Engine.new model maxConcurrentRequests prefillChunkSize maxTokensPerStep usePagedKvCache
      usePrefixCache = .ok e)
    (hids : Exec.Along NewId (next chain model) (new e) actions)
    (hstop : ∀ a ∈ actions, a ≠ .stop) :
    let w := actions.foldl (next chain model) (new e)
    ∀ c ∈ w.streams, ∀ thrown, c.phase = .ended thrown →
      c.requestId ∉ w.engine.tokenCallbacks ∧ (thrown = false →
        ∃ r, w.engine.scheduler.completed.find? c.requestId = some r ∧
          c.yielded = (w.engine.scheduler.requests r).outputTokenIds) := by
  intro w c hc thrown hend
  have htracked : Tracked w := tracked_run h (notCut_along hstop rfl hids)
  refine ⟨fun hm => ?_, fun hthrown => ?_⟩
  · obtain ⟨r, hr⟩ := htracked.1.streams c hc
    exact hr.registered.mp hm ⟨thrown, hend⟩
  · subst hthrown
    obtain ⟨r, hfind, hout, -⟩ := htracked.ended hc hend
    exact ⟨r, hfind, hout⟩

/-- A stream and a blocking call, with the stream polled between the steps. -/
def twoClients : List Action :=
  [.generateStream "a" [1, 2] 2, .generate "b" [1] 1 true, .loop, .loop, .stream 0, .stream 0,
    .stream 0, .stream 0, .caller 0 false, .loop, .loop, .loop, .caller 0 false, .stream 0,
    .stream 0, .stream 0, .stream 0, .stream 0, .stream 0, .stream 0]

theorem twoClients_exact : ∃ e, Engine.new (recallModel ⟨1, 8, 0, 2⟩ sumScores) 2 2 8 true false
    = .ok e ∧
    let w := twoClients.foldl (next (fun _ _ => 0) (recallModel ⟨1, 8, 0, 2⟩ sumScores)) (new e)
    w.streams.map (·.phase) = [.ended false] ∧
    ∀ c ∈ w.streams, ∀ thrown, c.phase = .ended thrown →
      c.requestId ∉ w.engine.tokenCallbacks ∧ (thrown = false →
        ∃ r, w.engine.scheduler.completed.find? c.requestId = some r ∧
          c.yielded = (w.engine.scheduler.requests r).outputTokenIds) := by
  obtain ⟨e, h⟩ : ∃ e, Engine.new (recallModel ⟨1, 8, 0, 2⟩ sumScores) 2 2 8 true false = .ok e :=
    ⟨_, rfl⟩
  refine ⟨e, h, ?_, stream_exact h ?_ (by decide)⟩
  · cases h
    decide +kernel
  · cases h
    decide +kernel

/-! ## Shutdown -/

open OpenaiApi

/-- The event tells the client that the completion is over. -/
def Closes : SseEvent → Prop
  | .data payload => payload.finishReason = some "length"
  | .done => True

/-- The stream has yielded all tokens of its request. -/
def Delivered (e : Engine Row) (c : StreamCall) : Prop :=
  ∃ r < e.scheduler.created, (e.scheduler.requests r).requestId = c.requestId ∧
    c.yielded = (e.scheduler.requests r).outputTokenIds ∧ Produced (e.scheduler.requests r)

/-- **No truncated completion is reported as complete**, by any of the three interfaces. -/
structure Truthful (w : EngineWorker Row) : Prop where
  generate : ∀ g ∈ w.generates, ∀ r, g.phase = .returned r →
    (w.engine.scheduler.requests r).status = "ok" →
      (w.engine.scheduler.requests r).requestId = g.requestId ∧
        Produced (w.engine.scheduler.requests r)
  stream : ∀ c ∈ w.streams, c.phase = .ended false → Delivered w.engine c
  events : ∀ c ∈ w.streams, ∀ ctx, ∀ event ∈ eventsOf ctx c, Closes event →
    Delivered w.engine c ∧ (eventsOf ctx c).filterMap SseEvent.text?
      = c.yielded.map fun tokenId => ctx.tokenizer.decode [tokenId]

/-- While the stream goes on no chunk has a finish reason. -/
theorem not_closes_soFar {ctx : StreamContext} {pendingTokenId : Option Nat} {tokens : List Nat} :
    ∀ event ∈ eventsSoFar ctx pendingTokenId tokens, ¬Closes event := by
  induction tokens generalizing pendingTokenId with
  | nil => exact nofun
  | cons tokenId rest ih =>
    intro event hm
    rcases List.mem_append.mp hm with hm | hm
    · cases pendingTokenId with
      | none => cases hm
      | some pending =>
        rw [List.mem_singleton.mp hm]
        exact nofun
    · exact ih event hm

omit [LinearOrder Score] in
theorem Tracked.delivered (h : Tracked w) {c : StreamCall} (hc : c ∈ w.streams)
    (hend : c.phase = .ended false) : Delivered w.engine c := by
  obtain ⟨r, hfind, hout, hproduced⟩ := h.ended hc hend
  have hm := OrderedDict.find?_eq_some_iff.mp hfind
  exact ⟨r, h.1.inv.completed_lt r (OrderedDict.mem_values_iff.mpr ⟨_, hm⟩),
    h.1.inv.completedKey _ _ hm, hout, hproduced⟩

omit [LinearOrder Score] in
theorem Tracked.truthful (h : Tracked w) : Truthful w where
  generate := by
    intro g hg r hr hok
    obtain ⟨hcreated, hid, hstate⟩ := h.2.2 g hg r hr
    refine ⟨hid, ?_⟩
    -- a failed request has another status
    have hc := (h.1.inv.mem_ended hcreated hstate).resolve_right fun hf => h.1.failed r hf hok
    exact (h.1.inv.completed r hc).2
  stream := fun c hc hend => h.delivered hc hend
  events := by
    intro c hc ctx event hm hcloses
    unfold eventsOf at hm ⊢
    split at hm
    · next hend =>
      rw [if_pos hend]
      exact ⟨h.delivered hc hend, texts_stream ctx c.yielded⟩
    · exact absurd hcloses (not_closes_soFar event hm)

/-- **Nothing is reported as complete that is not**, in every state of a run that draws new ids and
where no stream finds the stop flag set while there are tokens to come. -/
theorem reports_complete {maxConcurrentRequests prefillChunkSize maxTokensPerStep : Int}
    {usePagedKvCache usePrefixCache : Bool} {actions : List Action}
    (h : Engine.new model maxConcurrentRequests prefillChunkSize maxTokensPerStep usePagedKvCache
      usePrefixCache = .ok e)
    (hrun : Exec.Along (fun w a => NewId w a ∧ NotCut w a) (next chain model) (new e) actions) :
    Truthful (actions.foldl (next chain model) (new e)) :=
  (tracked_run h hrun).truthful

/-- The flag is set after the stream has yielded everything, but before it has seen that its
request is finished. -/
def lateStop : List Action :=
  [.generateStream "a" [1, 2] 1, .stream 0, .stream 0, .loop, .loop, .stream 0, .stream 0, .stop,
    .stream 0, .stream 0]

theorem lateStop_truthful : ∃ e, Engine.new (recallModel ⟨1, 8, 0, 2⟩ sumScores) 2 2 8 true false
    = .ok e ∧ Truthful (lateStop.foldl
      (next (fun _ _ => 0) (recallModel ⟨1, 8, 0, 2⟩ sumScores)) (new e)) := by
  obtain ⟨e, h⟩ : ∃ e, Engine.new (recallModel ⟨1, 8, 0, 2⟩ sumScores) 2 2 8 true false = .ok e :=
    ⟨_, rfl⟩
  refine ⟨e, h, reports_complete h ?_⟩
  cases h
  decide +kernel

/-- A stream and a blocking call of three tokens each, stopped after two. -/
def cutClients : List Action :=
  [.generateStream "a" [1, 2] 3, .generate "b" [1] 3 false, .loop, .loop, .loop, .loop, .stream 0,
    .stream 0, .stream 0, .stream 0, .stream 0, .stop, .stream 0, .stream 0, .caller 0 false]

/-- The blocking call raises; the stream ends as if it were complete, and so do its events. -/
theorem cutClients_reported : ∃ e, Engine.new (recallModel ⟨1, 8, 0, 2⟩ sumScores) 2 2 8 true false
    = .ok e ∧
    Exec.Along NewId (next (fun _ _ => 0) (recallModel ⟨1, 8, 0, 2⟩ sumScores)) (new e) cutClients ∧
    let w := cutClients.foldl (next (fun _ _ => 0) (recallModel ⟨1, 8, 0, 2⟩ sumScores)) (new e)
    w.generates.map (·.phase) = [.raised] ∧ w.streams.map (·.phase) = [.ended false] ∧
      (∀ ctx : StreamContext, w.streams.map (eventsOf ctx)
        = [[ctx.chunk 3 none, ctx.chunk 1 (some "length"), .done]]) ∧
      (w.engine.scheduler.requests 0).maxNewTokens = 3 ∧ ¬Truthful w := by
  obtain ⟨e, h⟩ : ∃ e, Engine.new (recallModel ⟨1, 8, 0, 2⟩ sumScores) 2 2 8 true false = .ok e :=
    ⟨_, rfl⟩
  refine ⟨e, h, ?_, ?_⟩
  · cases h
    decide +kernel
  · cases h
    intro w
    have hstreams : w.streams = [⟨"a", [], [3, 1], .ended false⟩] := by decide +kernel
    refine ⟨by decide +kernel, by decide +kernel, fun ctx => ?_, by decide +kernel, fun ht => ?_⟩
    · rw [hstreams]
      rfl
    · obtain ⟨r, hr, hid, -, hproduced⟩ := ht.stream ⟨"a", [], [3, 1], .ended false⟩
        (by rw [hstreams]; exact List.mem_singleton_self _) rfl
      have hall : ∀ r < w.engine.scheduler.created,
          (w.engine.scheduler.requests r).requestId = "a" →
            1 ≤ (w.engine.scheduler.requests r).maxNewTokens ∧
              ((w.engine.scheduler.requests r).numGenerated : Int)
                ≠ (w.engine.scheduler.requests r).maxNewTokens := by decide +kernel
      obtain ⟨hmax, hne⟩ := hall r hr hid
      exact hne (hproduced hmax)

end EngineWorker

end Nifre
