import Nifre.Properties.GenerateCalls
import Nifre.Properties.Emissions

/-!
# What `generate_stream` yields

The consumer of a stream may call the engine between two tokens: submit and cancel other requests,
step, or change the settings. Whatever it calls, as long as it leaves the request of the stream
alone, the stream ends and has yielded the tokens of the greedy reference, each once and in order.

* `Engine.Heard` — the queue and what was taken from it are the output of the request
* `Engine.Heard.polite` — every call of a polite consumer keeps this
* `Engine.drain_run`, `Engine.streamLoop_run` — the inner and the outer loop
* `generateStream_yields` — a stream
-/

namespace Nifre

open Scheduler (Inv)

variable {Row Score : Type}

namespace Engine

open EngineWorker (heard heard_append)

variable {chain : Int → List Nat → Int} {model : InferenceModel Row Score}
  {Known : Nat → Prop}
  {call : List (List Nat) → Option (List Nat) → List Nat → KVCacheType.M Row (Logits Score)}
  {Holds : KVCacheType Row → (Nat → List Nat) → Prop} {InPlay : List Nat → Prop}
  {Allowed : Bool → Prop} {next : List Nat → Nat} {e e' : Engine Row} {held : Nat → List Nat}
  {job : Submission} {r : Ref} {start : Nat} {yielded : List Nat}

/-! ## The queue of a stream -/

/-- What the callback of request `r` was called with since `start`. -/
def sinceStart (requestId : String) (start : Nat) (e : Engine Row) : List Nat :=
  heard (e.emitted.drop start) requestId

/-- The calls of the callback of `r` since `start` are its output so far. -/
structure Heard (job : Submission) (r : Ref) (start : Nat) (e : Engine Row) : Prop where
  asked : Asked job.requestId job.promptTokenIds job.maxNewTokens r e
  registered : job.requestId ∈ e.tokenCallbacks
  started : start ≤ e.emitted.length
  output : e.sinceStart job.requestId start = (e.scheduler.requests r).outputTokenIds

/-- A request that is not touched, and no further calls. -/
theorem Heard.frame (h : Heard job r start e)
    (hcreated : e.scheduler.created ≤ e'.scheduler.created)
    (hrequest : e'.scheduler.requests r = e.scheduler.requests r)
    (hfailed : r ∈ e'.scheduler.failed.values → r ∈ e.scheduler.failed.values)
    (hcallbacks : job.requestId ∈ e.tokenCallbacks → job.requestId ∈ e'.tokenCallbacks)
    (hemitted : e'.emitted = e.emitted) : Heard job r start e' where
  asked :=
    { created := Nat.lt_of_lt_of_le h.asked.created hcreated
      requestId := by rw [hrequest]; exact h.asked.requestId
      prompt := by rw [hrequest]; exact h.asked.prompt
      maxNewTokens := by rw [hrequest]; exact h.asked.maxNewTokens
      failed := fun hm => h.asked.failed (hfailed hm) }
  registered := hcallbacks h.registered
  started := hemitted ▸ h.started
  output := by
    rw [sinceStart, hemitted, hrequest]
    exact h.output

/-- What a step adds to the output, the callback is called with. -/
theorem Heard.emits (h : Heard job r start e) (he : Emits e e') (hasks : SameAsks e e') :
    Heard job r start e' ∧
      e.sinceStart job.requestId start <+: e'.sinceStart job.requestId start := by
  obtain ⟨-, hcreated, hcallbacks, -, news, hnews, hall⟩ := he
  have hcont := hall r h.asked.created
  obtain ⟨tokens, htokens, hheard⟩ := hcont.output
  have hsince : e'.sinceStart job.requestId start
      = e.sinceStart job.requestId start ++ heard news job.requestId := by
    rw [sinceStart, hnews, List.drop_append_of_le_length h.started, heard_append]
    rfl
  have hid := h.asked.requestId
  refine ⟨⟨h.asked.sameAsks hasks hcreated hcont.requestId, hcallbacks.symm ▸ h.registered, ?_, ?_⟩,
    hsince ▸ List.prefix_append _ _⟩
  · rw [hnews, List.length_append]
    exact Nat.le_add_right_of_le h.started
  · rw [hsince, h.output, htokens, hheard (hid.symm ▸ h.registered), hid]

/-! ## Polite consumers -/

variable [LinearOrder Score]

/-- The call leaves the request and its callback alone, and the chunks fit after it. -/
def Polite (chain : Int → List Nat → Int) (model : InferenceModel Row Score) (requestId : String)
    (e : Engine Row) : Op → Prop
  | .step => True
  | .addRequest id prompt n => ChunksFit (Engine.next chain model e (.addRequest id prompt n))
  | .reconfigure chunk budget concurrent usePaged usePrefix =>
    ChunksFit (Engine.next chain model e (.reconfigure chunk budget concurrent usePaged usePrefix))
  | .cancelRequest id _ => id ≠ requestId
  | .registerTokenCallback id => id ≠ requestId
  | .unregisterTokenCallback id => id ≠ requestId

omit [LinearOrder Score] in
/-- What the cancellation of another request leaves. -/
theorem cancelRequest_others (h : Inv e.scheduler) {requestId : String}
    (hne : requestId ≠ (e.scheduler.requests r).requestId) (status : String) :
    ∃ s, Exec.after (cancelRequest requestId status) e = { e with scheduler := s } ∧
      s.created = e.scheduler.created ∧ s.maxTokensPerStep = e.scheduler.maxTokensPerStep ∧
      s.requests r = e.scheduler.requests r ∧
      (r ∈ s.failed.values → r ∈ e.scheduler.failed.values) ∧
      ∀ r', (s.requests r').prefillChunkSize = (e.scheduler.requests r').prefillChunkSize ∧
        (s.requests r').promptTokenIds = (e.scheduler.requests r').promptTokenIds := by
  have hfailed : ∀ {d : OrderedDict String Ref} {r' : Ref} {k : String}, r ≠ r' →
      r ∈ (d.insert k r').values → r ∈ d.values := by
    intro d r' k hrr hm
    obtain ⟨id, hid⟩ := OrderedDict.mem_values_iff.mp hm
    rcases OrderedDict.mem_insert.mp hid with ⟨-, he⟩ | ⟨-, hm⟩
    · exact absurd he hrr
    · exact OrderedDict.mem_values_iff.mpr ⟨id, hm⟩
  have hrequests : ∀ {r' : Ref} {q : InferenceRequest Nat},
      q.prefillChunkSize = (e.scheduler.requests r').prefillChunkSize →
      q.promptTokenIds = (e.scheduler.requests r').promptTokenIds → ∀ r'',
      (Function.update e.scheduler.requests r' q r'').prefillChunkSize
          = (e.scheduler.requests r'').prefillChunkSize ∧
        (Function.update e.scheduler.requests r' q r'').promptTokenIds
          = (e.scheduler.requests r'').promptTokenIds := by
    intro r' q hchunk hprompt r''
    by_cases he : r'' = r'
    · subst he
      rw [Function.update_self]
      exact ⟨hchunk, hprompt⟩
    · rw [Function.update_of_ne he]
      exact ⟨rfl, rfl⟩
  rcases cancelRequest_run h requestId status with
    ⟨r', -, hid, hrun⟩ | ⟨r', -, b, hid, -, hrun⟩ | ⟨-, -, err, hrun⟩
  · have hrr : r ≠ r' := fun he => hne (he ▸ hid.symm)
    exact ⟨_, Exec.after_of_ok hrun, rfl, rfl, Function.update_of_ne hrr _ _, hfailed hrr,
      hrequests rfl rfl⟩
  · have hrr : r ≠ r' := fun he => hne (he ▸ hid.symm)
    exact ⟨_, Exec.after_of_ok hrun, rfl, rfl, Function.update_of_ne hrr _ _, hfailed hrr,
      hrequests rfl rfl⟩
  · exact ⟨_, Exec.after_of_error hrun, rfl, rfl, rfl, id, fun _ => ⟨rfl, rfl⟩⟩

/-- **What the consumer calls keeps the queue in line with the output**, and adds to it at most. -/
theorem Heard.polite (h : Heard job r start e)
    (hserves : ServesKnown chain model call Known Holds InPlay Allowed next)
    (hmakes : Makes { model with call := call } Allowed)
    (hs : Steady { model with call := call } Holds InPlay Allowed next e) {op : Op}
    (hop : Legal model InPlay Allowed e op) (hpolite : Polite chain model job.requestId e op)
    (hnext : Engine.next chain model e op = e') :
    Steady { model with call := call } Holds InPlay Allowed next e' ∧ Heard job r start e' ∧
      e.sinceStart job.requestId start <+: e'.sinceStart job.requestId start := by
  obtain ⟨held, hco⟩ := hs.coherent
  have hlegal : Exec.Along (Legal model InPlay Allowed) (Engine.next chain model) e [op] :=
    ⟨hop, trivial⟩
  have hco' : ∃ held', Coherent { model with call := call } Holds InPlay Allowed next
      (Engine.next chain model e op) held' [] :=
    (run_known hserves hco hlegal).1
  have halways := (callClosed_chunked chain model).next hs.always op
  rw [hnext] at hco' halways
  -- apart from a step nothing is emitted
  have hframe : ChunksFit e' → Heard job r start e' → e'.emitted = e.emitted →
      Steady { model with call := call } Holds InPlay Allowed next e' ∧ Heard job r start e' ∧
        e.sinceStart job.requestId start <+: e'.sinceStart job.requestId start := by
    intro hfit hheard hemitted
    refine ⟨⟨hco', halways, hfit⟩, hheard, ?_⟩
    rw [sinceStart, sinceStart, hemitted]
  cases op with
  | step =>
    obtain ⟨more, e₁, hrun, hnext₁, hs₁, hasks, -⟩ := hs.step hserves hmakes
    cases hnext₁.symm.trans hnext
    have hemits := step_emits chain model hs.always.live hco.scheduler
    rw [Exec.after_of_ok hrun] at hemits
    obtain ⟨hheard, hext⟩ := h.emits hemits hasks
    exact ⟨hs₁, hheard, hext⟩
  | addRequest id prompt n =>
    rw [Polite, hnext] at hpolite
    rw [Engine.next, Engine.call, Exec.after_dropped, Exec.after_of_ok (addRequest_run e _ _ _)]
      at hnext
    subst hnext
    exact hframe hpolite (h.frame (Nat.le_succ _) (withRequest_old _ _ h.asked.created)
      (fun hm => hm) (fun hm => hm) rfl) rfl
  | cancelRequest id status =>
    rw [Engine.next, Engine.call, Exec.after_dropped] at hnext
    obtain ⟨s, hafter, hcreated, hbudget, hrequest, hfailed, hsame⟩ :=
      cancelRequest_others hco.scheduler
        (fun he => hpolite (he.trans h.asked.requestId)) status
    rw [hafter] at hnext
    subst hnext
    refine hframe (fun r' hr' => ?_) (h.frame hcreated.ge hrequest hfailed (fun hm => hm) rfl) rfl
    show min (s.requests r').prefillChunkSize ((s.requests r').promptTokenIds.length : Int)
      ≤ s.maxTokensPerStep
    rw [(hsame r').1, (hsame r').2, hbudget]
    exact hs.fits r' (hcreated ▸ hr')
  | reconfigure chunk budget concurrent usePaged usePrefix =>
    rw [Polite, hnext] at hpolite
    set J : Engine Row → Prop := fun e' => Heard job r start e' ∧ e'.emitted = e.emitted with hJ
    have hset : ∀ {e₁ e₂ : Engine Row}, J e₁ →
        Scheduler.SameQueues e₁.scheduler e₂.scheduler → e₂.tokenCallbacks = e₁.tokenCallbacks →
        e₂.emitted = e₁.emitted → J e₂ := by
      intro e₁ e₂ h₁ hq hcallbacks hemitted
      refine ⟨h₁.1.frame hq.created.ge (congrFun hq.requests r) (fun hm => ?_) (fun hm => ?_)
        hemitted, hemitted.trans h₁.2⟩
      · rwa [hq.failed] at hm
      · rwa [hcallbacks]
    have hsame : ∀ s : Scheduler Nat, Scheduler.SameQueues s s :=
      fun _ => ⟨rfl, rfl, rfl, rfl, rfl, rfl⟩
    have hkept : J e' := by
      rw [← hnext, Engine.next, Engine.call, Exec.after_dropped]
      exact reconfigure_pieces (fun _ _ h₁ => hset h₁ (hsame _) rfl rfl)
        (fun _ _ _ h₁ => hset h₁ (hsame _) rfl rfl) (fun _ _ _ h₁ => hset h₁ (hsame _) rfl rfl)
        (fun _ _ _ h₁ => hset h₁ (hsame _) rfl rfl) (fun _ e₁ h₁ => reconfigureScheduler_pieces
          (fun _ _ h₂ hs₂ => hset h₂ hs₂.toSameQueues rfl rfl)
          (fun _ _ h₂ => hset h₂ (hsame _) rfl rfl) e₁ h₁) e ⟨h, rfl⟩
    exact hframe hpolite hkept.1 hkept.2
  | registerTokenCallback id =>
    subst hnext
    refine hframe hs.fits (h.frame (Nat.le_refl _) rfl (fun hm => hm) (fun hm => ?_) rfl) rfl
    exact List.mem_cons_of_mem _ ((List.mem_erase_of_ne hpolite.symm).mpr hm)
  | unregisterTokenCallback id =>
    subst hnext
    exact hframe hs.fits (h.frame (Nat.le_refl _) rfl (fun hm => hm)
      (fun hm => (List.mem_erase_of_ne hpolite.symm).mpr hm) rfl) rfl

/-- A consumer that is polite to a stream, whatever it has seen. -/
def PoliteConsumer (chain : Int → List Nat → Int) (model : InferenceModel Row Score)
    (InPlay : List Nat → Prop) (Allowed : Bool → Prop) (requestId : String)
    (consumer : Consumer Row) : Prop :=
  ∀ yielded e, Exec.Along (fun e op => Legal model InPlay Allowed e op ∧
    Polite chain model requestId e op) (Engine.next chain model) e (consumer yielded e)

theorem Heard.polites (h : Heard job r start e)
    (hserves : ServesKnown chain model call Known Holds InPlay Allowed next)
    (hmakes : Makes { model with call := call } Allowed)
    (hs : Steady { model with call := call } Holds InPlay Allowed next e) {ops : List Op}
    (hops : Exec.Along (fun e op => Legal model InPlay Allowed e op ∧
      Polite chain model job.requestId e op) (Engine.next chain model) e ops)
    (hlast : ops.foldl (Engine.next chain model) e = e') :
    Steady { model with call := call } Holds InPlay Allowed next e' ∧ Heard job r start e' ∧
      e.sinceStart job.requestId start <+: e'.sinceStart job.requestId start := by
  subst hlast
  refine hops.foldl (J := fun e' =>
    Steady { model with call := call } Holds InPlay Allowed next e' ∧ Heard job r start e' ∧
      e.sinceStart job.requestId start <+: e'.sinceStart job.requestId start) ?_
    ⟨hs, h, List.prefix_refl _⟩
  rintro e₁ op ⟨hs₁, h₁, hext⟩ ⟨hop, hpolite⟩
  obtain ⟨hs₂, h₂, hmore⟩ := h₁.polite hserves hmakes hs₁ hop hpolite rfl
  exact ⟨hs₂, h₂, hext.trans hmore⟩

/-! ## The loops -/

omit [LinearOrder Score] in
/-- A request has no more tokens than it asked for. -/
theorem Heard.length_le (h : Heard job r start e)
    (hs : Steady model Holds InPlay Allowed next e) :
    (e.sinceStart job.requestId start).length ≤ job.maxNewTokens.toNat := by
  obtain ⟨held, hco⟩ := hs.coherent
  rw [h.output]
  have hmax := h.asked.maxNewTokens
  by_cases hfin : (e.scheduler.requests r).state = .finished
  · have hm := (hco.scheduler.mem_ended h.asked.created hfin).resolve_right h.asked.failed
    have hnum := (hco.scheduler.completed r hm).2 (hco.job r h.asked.created).maxNewTokens
    rw [InferenceRequest.numGenerated] at hnum
    omega
  · have := (hco.unfinished h.asked.created hfin).2
    omega

theorem drain_idle (hall : yielded = e.sinceStart job.requestId start) (consumer : Consumer Row)
    {fuel : Nat} (hfuel : 0 < fuel) :
    (drain chain model job.requestId start consumer fuel yielded).run e = .ok (some yielded) e := by
  obtain ⟨fuel, rfl⟩ := Nat.exists_eq_succ_of_ne_zero (Nat.ne_of_gt hfuel)
  have hnone : e.queued job.requestId start yielded.length = none := by
    rw [hall]
    exact List.getElem?_eq_none (Nat.le_refl _)
  rw [Nat.succ_eq_add_one, drain, Exec.run_bind_ok (EStateM.run_get e)]
  simp only [hnone]
  rfl

/-- **The inner loop yields what is in the queue**, and what the consumer's calls add to it. -/
theorem drain_run (hserves : ServesKnown chain model call Known Holds InPlay Allowed next)
    (hmakes : Makes { model with call := call } Allowed) {consumer : Consumer Row}
    (hconsumer : PoliteConsumer chain model InPlay Allowed job.requestId consumer) :
    ∀ (m : Nat) {e : Engine Row} {yielded : List Nat},
      Steady { model with call := call } Holds InPlay Allowed next e → Heard job r start e →
      yielded <+: e.sinceStart job.requestId start →
      job.maxNewTokens.toNat - yielded.length ≤ m →
      ∃ n e', Steady { model with call := call } Holds InPlay Allowed next e' ∧
        Heard job r start e' ∧
        e.sinceStart job.requestId start <+: e'.sinceStart job.requestId start ∧
        ∀ fuel, n < fuel → (drain chain model job.requestId start consumer fuel yielded).run e
          = .ok (some (e'.sinceStart job.requestId start)) e' := by
  intro m
  induction m with
  | zero =>
    intro e yielded hs h hext hm
    have hle := h.length_le hs
    have hall := hext.eq_of_length_le (by omega)
    exact ⟨0, e, hs, h, List.prefix_refl _, fun fuel hfuel => hall ▸ drain_idle hall consumer hfuel⟩
  | succ m ih =>
    intro e yielded hs h hext hm
    by_cases hall : yielded = e.sinceStart job.requestId start
    · exact ⟨0, e, hs, h, List.prefix_refl _,
        fun fuel hfuel => hall ▸ drain_idle hall consumer hfuel⟩
    · -- one more token, and what the consumer calls then
      obtain ⟨rest, hrest⟩ := hext
      cases rest with
      | nil => exact absurd (by rw [← hrest, List.append_nil]) hall
      | cons token rest =>
        have hsome : e.queued job.requestId start yielded.length = some token := by
          show (e.sinceStart job.requestId start)[yielded.length]? = some token
          rw [← hrest]
          simp
        obtain ⟨hs₁, h₁, hmore⟩ := h.polites hserves hmakes hs
          (hconsumer (yielded ++ [token]) e) rfl
        have hext₁ : yielded ++ [token] <+: e.sinceStart job.requestId start :=
          ⟨rest, by rw [List.append_assoc, List.singleton_append, hrest]⟩
        have hlt : yielded.length < (e.sinceStart job.requestId start).length := by
          rw [← hrest]
          simp
        have hle := h.length_le hs
        obtain ⟨n, e', hs', h', hmore', hdrain⟩ := ih hs₁ h₁ (hext₁.trans hmore)
          (by rw [List.length_append, List.length_singleton]; omega)
        refine ⟨n + 1, e', hs', h', hmore.trans hmore', fun fuel hfuel => ?_⟩
        obtain ⟨fuel, rfl⟩ := Nat.exists_eq_succ_of_ne_zero
          (Nat.ne_of_gt (Nat.zero_lt_of_lt hfuel))
        rw [Nat.succ_eq_add_one, drain, Exec.run_bind_ok (EStateM.run_get e)]
        simp only [hsome]
        rw [Exec.run_bind_ok (EStateM.run_modify _ e)]
        exact hdrain fuel (by omega)

theorem streamLoop_ended (hinv : Inv e.scheduler) (h : Heard job r start e)
    (hfin : (e.scheduler.requests r).state = .finished) (consumer : Consumer Row) {fuel : Nat}
    (hfuel : 0 < fuel) : (streamLoop chain model job.requestId start consumer fuel yielded).run e
      = .ok (some yielded) e := by
  obtain ⟨fuel, rfl⟩ := Nat.exists_eq_succ_of_ne_zero (Nat.ne_of_gt hfuel)
  have hend := (isEnded_iff hinv h.asked.created).mpr hfin
  rw [h.asked.requestId] at hend
  rw [Nat.succ_eq_add_one, streamLoop, Exec.run_bind_ok (EStateM.run_get e), if_pos hend]
  rfl

/-- **The outer loop ends** with the whole output of the request yielded. -/
theorem streamLoop_run (hserves : ServesKnown chain model call Known Holds InPlay Allowed next)
    (hmakes : Makes { model with call := call } Allowed) {consumer : Consumer Row}
    (hconsumer : PoliteConsumer chain model InPlay Allowed job.requestId consumer) {e : Engine Row}
    (hs : Steady { model with call := call } Holds InPlay Allowed next e)
    (h : Heard job r start e) :
    ∃ n e', Steady { model with call := call } Holds InPlay Allowed next e' ∧
      Heard job r start e' ∧ (e'.scheduler.requests r).state = .finished ∧
      ∀ fuel, n < fuel → (streamLoop chain model job.requestId start consumer fuel
          (e.sinceStart job.requestId start)).run e
        = .ok (some (e'.sinceStart job.requestId start)) e' := by
  induction hm : job.maxNewTokens.toNat - (e.sinceStart job.requestId start).length
    using Nat.strongRecOn generalizing e with
  | ind m ihm =>
    obtain ⟨n, hfinishes⟩ := hs.finishes hserves hmakes
    have hfin := hfinishes r h.asked.created
    clear hfinishes
    induction n generalizing e with
    | zero =>
      exact ⟨0, e, hs, h, hfin, fun _ hfuel => streamLoop_ended hs.inv h hfin consumer hfuel⟩
    | succ n ihn =>
      by_cases hdone : (e.scheduler.requests r).state = .finished
      · exact ⟨0, e, hs, h, hdone, fun _ hfuel => streamLoop_ended hs.inv h hdone consumer hfuel⟩
      obtain ⟨more, e₁, hrun, hnext, hs₁, hasks, -⟩ := hs.step hserves hmakes
      have hemits := step_emits chain model hs.always.live hs.inv
      rw [Exec.after_of_ok hrun] at hemits
      obtain ⟨h₁, hext⟩ := h.emits hemits hasks
      rw [List.replicate_succ, List.foldl_cons, hnext] at hfin
      -- the step, the inner loop and the outer loop again
      have hround : ∀ {n₁ n₂ : Nat} {e₂ e' : Engine Row},
          (∀ fuel, n₁ < fuel → (drain chain model job.requestId start consumer fuel
            (e.sinceStart job.requestId start)).run e₁
              = .ok (some (e₂.sinceStart job.requestId start)) e₂) →
          (∀ fuel, n₂ < fuel → (streamLoop chain model job.requestId start consumer fuel
            (e₂.sinceStart job.requestId start)).run e₂
              = .ok (some (e'.sinceStart job.requestId start)) e') →
          ∀ fuel, max n₁ n₂ + 1 < fuel → (streamLoop chain model job.requestId start consumer fuel
            (e.sinceStart job.requestId start)).run e
              = .ok (some (e'.sinceStart job.requestId start)) e' := by
        intro n₁ n₂ e₂ e' hdrain hrest fuel hfuel
        obtain ⟨fuel, rfl⟩ := Nat.exists_eq_succ_of_ne_zero
          (Nat.ne_of_gt (Nat.zero_lt_of_lt hfuel))
        have hend := fun hc => hdone ((isEnded_iff hs.inv h.asked.created).mp hc)
        rw [h.asked.requestId] at hend
        rw [Nat.succ_eq_add_one, streamLoop, Exec.run_bind_ok (EStateM.run_get e), if_neg hend,
          Exec.run_bind_ok hrun, Exec.run_bind_ok (hdrain fuel (by omega))]
        exact hrest fuel (by omega)
      by_cases hsame : e.sinceStart job.requestId start = e₁.sinceStart job.requestId start
      · -- no token: fewer steps are left
        obtain ⟨n₂, e', hs', h', hfin', hrest⟩ := ihn hs₁ h₁ (hsame ▸ hm) hfin
        have hidle : ∀ fuel, 0 < fuel → (drain chain model job.requestId start consumer fuel
            (e.sinceStart job.requestId start)).run e₁
              = .ok (some (e₁.sinceStart job.requestId start)) e₁ :=
          fun fuel hfuel => hsame ▸ drain_idle hsame consumer hfuel
        exact ⟨_, e', hs', h', hfin', hround hidle hrest⟩
      · -- a token: fewer tokens are left
        have hlt : (e.sinceStart job.requestId start).length
            < (e₁.sinceStart job.requestId start).length := by
          by_contra hnot
          exact hsame (hext.eq_of_length_le (Nat.not_lt.mp hnot))
        obtain ⟨n₁, e₂, hs₂, h₂, hmore, hdrain⟩ := drain_run hserves hmakes hconsumer _ hs₁ h₁
          hext (Nat.le_refl _)
        have hle := hmore.length_le
        have hle₂ := h₂.length_le hs₂
        obtain ⟨n₂, e', hs', h', hfin', hrest⟩ := ihm _ (by omega) hs₂ h₂ rfl
        exact ⟨_, e', hs', h', hfin', hround hdrain hrest⟩

end Engine

/-! ## A stream -/

variable [LinearOrder Score] [Inhabited Row] {Known : Nat → Prop} {logits : List Nat → List Score}
  {call : List (List Nat) → Option (List Nat) → List Nat → KVCacheType.M Row (Logits Score)}
  {chain : Int → List Nat → Int} {model : InferenceModel Row Score}

/-- **`generate_stream` yields the tokens of the greedy reference**, each once and in order, and
ends, whatever a polite consumer calls between two of them. -/
theorem generateStream_yields (hagrees : model.AgreesOn Known call)
    (hmodel : Backend logits { model with call := call })
    (hnext : ∀ tokens, Known (nextToken logits tokens))
    {maxConcurrentRequests prefillChunkSize maxTokensPerStep : Int} {usePagedKvCache : Bool}
    (hchunk : 1 ≤ prefillChunkSize) {e₀ : Engine Row}
    (hnew : Engine.new model maxConcurrentRequests prefillChunkSize maxTokensPerStep
      usePagedKvCache false = .ok e₀) {ops : List Engine.Op} {job : Engine.Submission}
    (hlegal : Exec.Along (Engine.Legal model (fun prompt => ∀ t ∈ prompt, Known t) (· = false))
      (Engine.next chain model) e₀ (ops ++ [job.op])) {e : Engine Row}
    (he : ops.foldl (Engine.next chain model) e₀ = e)
    (hfit : Engine.ChunksFit (Engine.next chain model e job.op)) {consumer : Engine.Consumer Row}
    (hconsumer : Engine.PoliteConsumer chain model (fun prompt => ∀ t ∈ prompt, Known t) (· = false)
      job.requestId consumer) :
    ∃ n r e' outputs, (∀ fuel, n < fuel → (Engine.generateStream chain model job.requestId
        job.promptTokenIds job.maxNewTokens consumer fuel).run e = .ok (some outputs) e') ∧
      greedyTokens logits job.promptTokenIds job.maxNewTokens.toNat = .ok outputs ∧
      (job.requestId, r) ∈ e'.scheduler.completed.entries ∧
      (e'.scheduler.requests r).outputTokenIds = outputs := by
  obtain ⟨Holds, hknown, hmakes⟩ := hmodel.servesKnown hagrees hnext chain
  have hs := Engine.run_steady hknown hchunk (Bool.and_false _) hnew hlegal
    (by rw [List.foldl_append, he]; rfl) hfit
  obtain ⟨⟨held₀, hco₀⟩, -⟩ := Engine.run_known hknown (Engine.new_known hchunk (Bool.and_false _)
    hnew fun _ => []) (Exec.along_append.mp hlegal).1
  rw [he] at hco₀
  obtain ⟨hadd, hask⟩ := Engine.asked_addRequest hco₀.scheduler job
    (rfl : Engine.next chain model e job.op = _)
  set e₁ := Engine.next chain model e job.op with he₁
  set e₂ := Engine.next chain model e₁ (.registerTokenCallback job.requestId) with he₂
  have hs₂ : Engine.Steady { model with call := call } Holds (fun prompt => ∀ t ∈ prompt, Known t)
      (· = false) (nextToken logits) e₂ := by
    obtain ⟨held, hco⟩ := hs.coherent
    exact ⟨⟨held, { hco with }⟩, (Engine.callClosed_chunked chain model).next hs.always _, hs.fits⟩
  have hnone : e₂.sinceStart job.requestId e₁.emitted.length = [] := by
    rw [Engine.sinceStart, he₂, Engine.next, Engine.call]
    exact congrArg (EngineWorker.heard · job.requestId) List.drop_length
  have hheard : Engine.Heard job e.scheduler.created e₁.emitted.length e₂ := by
    refine ⟨{ hask with }, List.mem_cons_self, Nat.le_refl _, ?_⟩
    have hnew := Engine.withRequest_new e.scheduler
      (e.newRequest job.requestId job.promptTokenIds job.maxNewTokens)
    rw [hnone, he₂, he₁, Engine.next_addRequest]
    exact (congrArg InferenceRequest.outputTokenIds hnew).symm
  obtain ⟨n, e₃, hs₃, h₃, hfin, hloop⟩ :=
    Engine.streamLoop_run hknown hmakes hconsumer hs₂ hheard
  rw [hnone] at hloop
  have hentry := h₃.asked.completed hs₃.inv hfin
  refine ⟨n, e.scheduler.created,
    Engine.next chain model e₃ (.unregisterTokenCallback job.requestId), _,
    fun fuel hfuel => ?_, ?_, hentry, h₃.output.symm⟩
  · rw [Engine.generateStream, Exec.run_bind_ok hadd, Exec.run_bind_ok (EStateM.run_get e₁)]
    show (do
      Engine.registerTokenCallback job.requestId
      tryFinally _ _ : Engine.M Row (Option (List Nat))).run e₁ = _
    have hregister : (Engine.registerTokenCallback job.requestId).run e₁ = .ok () e₂ := rfl
    rw [Exec.run_bind_ok hregister]
    exact Exec.run_tryFinally_ok (hloop fuel hfuel)
      (Engine.unregisterTokenCallback_run chain model _ _)
  · obtain ⟨held₃, hco₃⟩ := hs₃.coherent
    have hgreedy := hco₃.greedyTokens (sampleGreedy_nextToken hmodel.vocabulary)
      (OrderedDict.mem_values_iff.mpr ⟨_, hentry⟩)
    rwa [h₃.asked.prompt, h₃.asked.maxNewTokens, ← h₃.output] at hgreedy

/-- A consumer that cancels request `b` after the first token, and steps the engine itself. -/
def steppingConsumer : Engine.Consumer Nat := fun yielded _ =>
  if yielded.length = 1 then [.cancelRequest "b" "timeout", .step] else [.step]

/-- The stream of request `c` beside requests `a` and `b`. -/
theorem thirdJob_yields : ∃ e₀, Engine.new (recallModel ⟨1, 8, 0, 2⟩ sumScores) 2 8 16 true false
    = .ok e₀ ∧
    let model := recallModel ⟨1, 8, 0, 2⟩ sumScores
    let e := (besideOther 3).foldl (Engine.next (fun _ _ => 0) model) e₀
    ∃ n r e' outputs, (∀ fuel, n < fuel → (Engine.generateStream (fun _ _ => 0) model
        thirdJob.requestId thirdJob.promptTokenIds thirdJob.maxNewTokens steppingConsumer
        fuel).run e = .ok (some outputs) e') ∧
      greedyTokens sumScores thirdJob.promptTokenIds thirdJob.maxNewTokens.toNat = .ok outputs ∧
      (thirdJob.requestId, r) ∈ e'.scheduler.completed.entries ∧
      (e'.scheduler.requests r).outputTokenIds = outputs := by
  obtain ⟨e₀, h⟩ : ∃ e₀, Engine.new (recallModel ⟨1, 8, 0, 2⟩ sumScores) 2 8 16 true false
    = .ok e₀ := ⟨_, rfl⟩
  refine ⟨e₀, h, generateStream_yields (recallModel ⟨1, 8, 0, 2⟩ sumScores).agreesOn_self
    (.rowLocal (recallModel_rowLocal Nat.zero_lt_one sumScores_ne_nil) rfl (by decide))
    (fun _ => trivial) (by decide) h ?_ rfl ?_ fun yielded e => ?_⟩
  · cases h
    decide +kernel
  · cases h
    decide +kernel
  · have hother : "b" ≠ thirdJob.requestId := by decide
    unfold steppingConsumer
    split
    · exact ⟨⟨trivial, hother⟩, ⟨trivial, trivial⟩, trivial⟩
    · exact ⟨⟨trivial, trivial⟩, trivial⟩

end Nifre
