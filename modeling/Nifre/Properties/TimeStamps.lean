import Nifre.Properties.Ledger

/-!
# The time stamps of a request

* `RequestTimes.InOrder` — created, first token, last token, finished stand in this order
* `Timely` — so they do for every request, and no recorded latency is negative or longer than the
  engine is up; every piece of a step, every call and every timeout keeps this
* `latencies_ordered` — on a clock that does not go back, the dashboard shows ascending percentiles
-/

namespace Nifre

variable {F : Type} [Field F] [LinearOrder F] [IsStrictOrderedRing F]

/-! ## Samples -/

/-- The stamps that there are stand in the order in which they are made, and none is from the
future or from before `t₀`. -/
structure RequestTimes.InOrder (t₀ t : F) (x : RequestTimes F) : Prop where
  created : t₀ ≤ x.createdAt ∧ x.createdAt ≤ t
  first : ∀ a ∈ x.firstTokenAt, x.createdAt ≤ a ∧ a ≤ t
  last : ∀ b ∈ x.lastTokenAt, b ≤ t ∧ ∃ a ∈ x.firstTokenAt, a ≤ b
  finished : ∀ c ∈ x.finishedAt, c ≤ t ∧ x.createdAt ≤ c ∧ ∀ b ∈ x.lastTokenAt, b ≤ c

omit [Field F] [IsStrictOrderedRing F] in
theorem RequestTimes.InOrder.mono {t₀ t t' : F} {x : RequestTimes F} (h : x.InOrder t₀ t)
    (hle : t ≤ t') : x.InOrder t₀ t' where
  created := ⟨h.created.1, h.created.2.trans hle⟩
  first := fun a ha => ⟨(h.first a ha).1, (h.first a ha).2.trans hle⟩
  last := fun b hb => ⟨(h.last b hb).1.trans hle, (h.last b hb).2⟩
  finished := fun c hc => ⟨(h.finished c hc).1.trans hle, (h.finished c hc).2⟩

omit [Field F] [IsStrictOrderedRing F] in
theorem RequestTimes.InOrder.new {t₀ t : F} (h : t₀ ≤ t) :
    ({ createdAt := t } : RequestTimes F).InOrder t₀ t :=
  ⟨⟨h, le_rfl⟩, nofun, nofun, nofun⟩

omit [Field F] [IsStrictOrderedRing F] in
theorem RequestTimes.InOrder.le_last {t₀ t b : F} {x : RequestTimes F} (h : x.InOrder t₀ t)
    (hb : b ∈ x.lastTokenAt) : t₀ ≤ b := by
  obtain ⟨-, a, ha, hle⟩ := h.last b hb
  exact h.created.1.trans ((h.first a ha).1.trans hle)

/-- The samples of a deque are durations of at most `d`. -/
def Durations {n : Nat} (d : F) (samples : BoundedDeque n F) : Prop :=
  ∀ x ∈ samples.items, 0 ≤ x ∧ x ≤ d

omit [IsStrictOrderedRing F] in
theorem Durations.append {n : Nat} {d : F} {samples : BoundedDeque n F} (h : Durations d samples)
    {x : F} (hx : 0 ≤ x) (hle : x ≤ d) : Durations d (samples.append x) := by
  intro y hy
  rcases BoundedDeque.mem_append hy with hold | rfl
  · exact h y hold
  · exact ⟨hx, hle⟩

omit [IsStrictOrderedRing F] in
theorem Durations.mono {n : Nat} {d d' : F} {samples : BoundedDeque n F} (h : Durations d samples)
    (hle : d ≤ d') : Durations d' samples :=
  fun x hx => ⟨(h x hx).1, (h x hx).2.trans hle⟩

/-- The latencies of requests are at most `d` long, those of forward passes at most `p`. -/
structure MetricsStore.Sampled (d p : F) (s : MetricsStore F) : Prop where
  ttft : Durations d s.ttftSamples
  total : Durations d s.totalLatencySamples
  interToken : Durations d s.interTokenSamples
  prefill : Durations p s.prefillStepSamples
  decode : Durations p s.decodeStepSamples

namespace MetricsStore.Sampled

variable {d p : F} {s : MetricsStore F}

omit [IsStrictOrderedRing F] in
theorem mono (h : s.Sampled d p) {d' : F} (hle : d ≤ d') : s.Sampled d' p :=
  ⟨h.ttft.mono hle, h.total.mono hle, h.interToken.mono hle, h.prefill, h.decode⟩

omit [IsStrictOrderedRing F] in
theorem recordCompletion (h : s.Sampled d p) (now : F) {ttftSec : Option F} {totalLatencySec : F}
    (inputTokens outputTokens : Nat) (status : String)
    (httft : ∀ x ∈ ttftSec, 0 ≤ x ∧ x ≤ d) (htotal : 0 ≤ totalLatencySec ∧ totalLatencySec ≤ d) :
    (s.recordCompletion now ttftSec totalLatencySec inputTokens outputTokens
      status).Sampled d p := by
  have hcount : (s.countStatus status).Sampled d p := by
    unfold MetricsStore.countStatus
    split
    · exact ⟨h.ttft, h.total, h.interToken, h.prefill, h.decode⟩
    · split <;> exact ⟨h.ttft, h.total, h.interToken, h.prefill, h.decode⟩
  refine ⟨?_, hcount.total.append htotal.1 htotal.2, hcount.interToken, hcount.prefill,
    hcount.decode⟩
  cases ttftSec with
  | none => exact hcount.ttft
  | some x => exact hcount.ttft.append (httft x rfl).1 (httft x rfl).2

omit [IsStrictOrderedRing F] in
theorem onPrefixCacheHits {c : MetricsCollector F} (h : c.store.Sampled d p) (requests : List Ref)
    (objects : Ref → InferenceRequest Nat) :
    (c.onPrefixCacheHits requests objects).store.Sampled d p ∧
      (c.onPrefixCacheHits requests objects).times = c.times ∧
      (c.onPrefixCacheHits requests objects).clock = c.clock := by
  unfold MetricsCollector.onPrefixCacheHits
  induction requests generalizing c with
  | nil => exact ⟨h, rfl, rfl⟩
  | cons r requests ih =>
    rw [List.foldl_cons]
    split
    · exact ih (c := c.onPrefixCacheHit _) ⟨h.ttft, h.total, h.interToken, h.prefill, h.decode⟩
    · exact ih h

end MetricsStore.Sampled

/-! ## The stamps of all requests -/

namespace Metered

open Scheduler (Live)

variable {Row Score : Type} {t₀ t p : F} {rs : List Ref} {s : Metered F Row}

/-- The clock does not go back, and shows `t` or later when it is read next. The stamps of every
request are in order, and every latency on record is a duration since `t₀`.
A request that decodes has its first stamps, and so has one of the batch `rs` whose prompt is
processed; a completed one has all. -/
structure Timely (t₀ t p : F) (rs : List Ref) (s : Metered F Row) : Prop where
  start : t₀ ≤ t
  soon : t ≤ s.metrics.now
  clock : Monotone s.metrics.clock
  order : ∀ r < s.engine.scheduler.created, (s.metrics.times r).InOrder t₀ t
  sampled : s.metrics.store.Sampled (t - t₀) p
  decoding : ∀ r < s.engine.scheduler.created, (s.engine.scheduler.requests r).state = .decode →
    (s.metrics.times r).lastTokenAt.isSome
  prefilled : ∀ r ∈ rs, (s.engine.scheduler.requests r).prefillComplete = true →
    (s.metrics.times r).lastTokenAt.isSome
  finished : ∀ r < s.engine.scheduler.created, (s.metrics.times r).finishedAt.isSome →
    (s.engine.scheduler.requests r).state = .finished
  completed : ∀ r ∈ s.engine.scheduler.completed.values, r < s.engine.scheduler.created ∧
    (s.engine.scheduler.requests r).state = .finished ∧
      (s.metrics.times r).lastTokenAt.isSome ∧ (s.metrics.times r).finishedAt.isSome

theorem Timely.mono (h : Timely t₀ t p rs s) {t' : F} (hle : t ≤ t') (hsoon : t' ≤ s.metrics.now) :
    Timely t₀ t' p rs s where
  start := h.start.trans hle
  soon := hsoon
  clock := h.clock
  order := fun r hr => (h.order r hr).mono hle
  sampled := h.sampled.mono (by linarith)
  decoding := h.decoding
  prefilled := h.prefilled
  finished := h.finished
  completed := h.completed

/-- Until the clock is read again. -/
theorem Timely.untilNow (h : Timely t₀ t p rs s) : Timely t₀ s.metrics.now p rs s :=
  h.mono h.soon le_rfl

/-- **The clock is read.** -/
theorem Timely.tick (h : Timely t₀ t p rs s) :
    Timely t₀ s.metrics.now p rs { s with metrics := s.metrics.tick } :=
  { h.untilNow with
    soon := h.clock (Nat.zero_le 1)
    clock := fun _ _ hle => h.clock (Nat.succ_le_succ hle) }

omit [IsStrictOrderedRing F] in
/-- The requests of a batch are a matter of the prefill half only. -/
theorem Timely.base (h : Timely t₀ t p rs s) : Timely t₀ t p [] s :=
  { h with prefilled := fun _ hr => absurd hr List.not_mem_nil }

omit [IsStrictOrderedRing F] in
/-- **One request gets a stamp** while it is in flight. -/
theorem Timely.stamp (h : Timely t₀ t p rs s) {r : Ref} {rs' : List Ref} {x : RequestTimes F}
    {store : MetricsStore F} (hstore : store.Sampled (t - t₀) p)
    (hstate : (s.engine.scheduler.requests r).state ≠ .finished) (hx : x.InOrder t₀ t)
    (hfin : x.finishedAt = (s.metrics.times r).finishedAt)
    (hlast : (s.metrics.times r).lastTokenAt.isSome → x.lastTokenAt.isSome)
    (hmore : ∀ r' ∈ rs', r' ∉ rs → r' = r ∧
      ((s.engine.scheduler.requests r).prefillComplete = true → x.lastTokenAt.isSome)) :
    Timely t₀ t p rs' { s with
      metrics := ⟨store, Function.update s.metrics.times r x, s.metrics.clock⟩ } := by
  have hself : Function.update s.metrics.times r x r = x := Function.update_self ..
  have hother : ∀ {r'}, r' ≠ r → Function.update s.metrics.times r x r' = s.metrics.times r' :=
    fun hne => Function.update_of_ne hne ..
  refine ⟨h.start, h.soon, h.clock, fun r' hr' => ?_, hstore, fun r' hr' hd => ?_,
    fun r' hr' hc => ?_, fun r' hr' hf => ?_, fun r' hr' => ?_⟩
  · by_cases hne : r' = r
    · subst hne
      simpa only [hself] using hx
    · simpa only [hother hne] using h.order r' hr'
  · by_cases hne : r' = r
    · subst hne
      simpa only [hself] using hlast (h.decoding r' hr' hd)
    · simpa only [hother hne] using h.decoding r' hr' hd
  · by_cases hne : r' = r
    · subst hne
      simp only [hself]
      by_cases hold : r' ∈ rs
      · exact hlast (h.prefilled r' hold hc)
      · exact (hmore r' hr' hold).2 hc
    · have hold : r' ∈ rs := by
        by_contra hnot
        exact hne (hmore r' hr' hnot).1
      simpa only [hother hne] using h.prefilled r' hold hc
  · by_cases hne : r' = r
    · subst hne
      simp only [hself, hfin] at hf
      exact h.finished r' hr' hf
    · simp only [hother hne] at hf
      exact h.finished r' hr' hf
  · have hne : r' ≠ r := by
      rintro rfl
      exact hstate (h.completed r' hr').2.1
    simpa only [hother hne] using h.completed r' hr'

omit [IsStrictOrderedRing F] in
/-- The store records something, and no stamp changes. -/
theorem Timely.rebook (h : Timely t₀ t p rs s) {c : MetricsCollector F}
    (hstore : c.store.Sampled (t - t₀) p) (htimes : c.times = s.metrics.times)
    (hclock : c.clock = s.metrics.clock) : Timely t₀ t p rs { s with metrics := c } := by
  refine ⟨h.start, ?_, ?_, ?_, hstore, ?_, ?_, ?_, ?_⟩ <;>
    simp only [MetricsCollector.now, htimes, hclock]
  · exact h.soon
  · exact h.clock
  · exact h.order
  · exact h.decoding
  · exact h.prefilled
  · exact h.finished
  · exact h.completed

omit [IsStrictOrderedRing F] in
theorem Timely.unfinished (h : Timely t₀ t p rs s) {r : Ref} (hlt : r < s.engine.scheduler.created)
    (hstate : (s.engine.scheduler.requests r).state ≠ .finished) :
    (s.metrics.times r).finishedAt = none := by
  by_contra hsome
  exact hstate (h.finished r hlt (Option.isSome_iff_ne_none.mpr hsome))

omit [IsStrictOrderedRing F] in
/-- **One request in flight moves on**, and nothing is reported. -/
theorem Timely.moved (h : Timely t₀ t p rs s) {r : Ref} {e : Engine Row} {q : InferenceRequest Nat}
    (hcreated : e.scheduler.created = s.engine.scheduler.created)
    (hcompleted : e.scheduler.completed = s.engine.scheduler.completed)
    (hreq : e.scheduler.requests = Function.update s.engine.scheduler.requests r q)
    (hstate : r < s.engine.scheduler.created →
      (s.engine.scheduler.requests r).state ≠ .finished)
    (hdecode : q.state = .decode → (s.metrics.times r).lastTokenAt.isSome)
    (hprefill : q.prefillComplete = (s.engine.scheduler.requests r).prefillComplete) :
    Timely t₀ t p rs { s with engine := e } := by
  have hself : e.scheduler.requests r = q := by rw [hreq, Function.update_self]
  have hother : ∀ {r'}, r' ≠ r → e.scheduler.requests r' = s.engine.scheduler.requests r' :=
    fun hne => by rw [hreq, Function.update_of_ne hne]
  refine ⟨h.start, h.soon, h.clock, fun r' hr' => h.order r' (hcreated ▸ hr'), h.sampled,
    fun r' hr' hd => ?_, fun r' hr' hc => ?_, fun r' hr' hf => ?_, fun r' hr' => ?_⟩
  · by_cases hne : r' = r
    · subst hne
      exact hdecode (hself ▸ hd)
    · simp only [hother hne] at hd
      exact h.decoding r' (hcreated ▸ hr') hd
  · by_cases hne : r' = r
    · subst hne
      simp only [hself, hprefill] at hc
      exact h.prefilled r' hr' hc
    · simp only [hother hne] at hc
      exact h.prefilled r' hr' hc
  · rw [hcreated] at hr'
    have hne : r' ≠ r := by
      rintro rfl
      exact hstate hr' (h.finished r' hr' hf)
    simpa only [hother hne] using h.finished r' hr' hf
  · rw [hcompleted] at hr'
    obtain ⟨hlt, hfinished, hstamps⟩ := h.completed r' hr'
    have hne : r' ≠ r := by
      rintro rfl
      exact hstate hlt hfinished
    simp only [hcreated, hother hne]
    exact ⟨hlt, hfinished, hstamps⟩

omit [IsStrictOrderedRing F] in
/-- **A request ends** and is stamped; one that completes has its first token. -/
theorem Timely.ended (h : Timely t₀ t p rs s) {r : Ref} {e : Engine Row} {q : InferenceRequest Nat}
    {store : MetricsStore F} (hstore : store.Sampled (t - t₀) p)
    (hlt : r < s.engine.scheduler.created)
    (hstate : (s.engine.scheduler.requests r).state ≠ .finished)
    (hcreated : e.scheduler.created = s.engine.scheduler.created)
    (hcompleted : ∀ r' ∈ e.scheduler.completed.values, r' ∈ s.engine.scheduler.completed.values ∨
      (r' = r ∧ (s.metrics.times r).lastTokenAt.isSome))
    (hreq : e.scheduler.requests = Function.update s.engine.scheduler.requests r q)
    (hq : q.state = .finished)
    (hprefill : q.prefillComplete = (s.engine.scheduler.requests r).prefillComplete) :
    Timely t₀ t p rs ⟨e, ⟨store, Function.update s.metrics.times r
      { s.metrics.times r with finishedAt := some t }, s.metrics.clock⟩⟩ := by
  have hself : e.scheduler.requests r = q := by rw [hreq, Function.update_self]
  have hother : ∀ {r'}, r' ≠ r → e.scheduler.requests r' = s.engine.scheduler.requests r' :=
    fun hne => by rw [hreq, Function.update_of_ne hne]
  set times := Function.update s.metrics.times r { s.metrics.times r with finishedAt := some t }
    with htimes
  have hstamped : times r = { s.metrics.times r with finishedAt := some t } :=
    Function.update_self ..
  have hkept : ∀ {r'}, r' ≠ r → times r' = s.metrics.times r' := fun hne =>
    Function.update_of_ne hne ..
  refine ⟨h.start, h.soon, h.clock, fun r' hr' => ?_, hstore, fun r' hr' hd => ?_,
    fun r' hr' hc => ?_, fun r' hr' hf => ?_, fun r' hr' => ?_⟩
  · rw [hcreated] at hr'
    by_cases hne : r' = r
    · subst hne
      have hold := h.order r' hr'
      simp only [hstamped]
      exact ⟨hold.created, hold.first, hold.last, fun c hc => by
        cases hc
        exact ⟨le_rfl, hold.created.2, fun b hb => (hold.last b hb).1⟩⟩
    · simpa only [hkept hne] using h.order r' hr'
  · rw [hcreated] at hr'
    have hne : r' ≠ r := by
      rintro rfl
      simp only [hself, hq] at hd
      cases hd
    simp only [hother hne] at hd
    simpa only [hkept hne] using h.decoding r' hr' hd
  · by_cases hne : r' = r
    · subst hne
      simp only [hself, hprefill] at hc
      simpa only [hstamped] using h.prefilled r' hr' hc
    · simp only [hother hne] at hc
      simpa only [hkept hne] using h.prefilled r' hr' hc
  · by_cases hne : r' = r
    · subst hne
      simpa only [hself] using hq
    · simp only [hkept hne] at hf
      simpa only [hother hne] using h.finished r' (hcreated ▸ hr') hf
  · by_cases hne : r' = r
    · subst hne
      have hlast : (s.metrics.times r').lastTokenAt.isSome := by
        rcases hcompleted r' hr' with hold | ⟨-, hsome⟩
        · exact absurd (h.completed r' hold).2.1 hstate
        · exact hsome
      simp only [hself, hstamped, hcreated]
      exact ⟨hlt, hq, hlast, rfl⟩
    · have hold : r' ∈ s.engine.scheduler.completed.values := by
        rcases hcompleted r' hr' with hold | ⟨he, -⟩
        · exact hold
        · exact absurd he hne
      simpa only [hother hne, hkept hne, hcreated] using h.completed r' hold

/-! ## Hooks -/

/-- A duration since a stamp is one since `t₀`. -/
theorem since_mem {a : F} (h : t₀ ≤ a) (hle : a ≤ t) : 0 ≤ t - a ∧ t - a ≤ t - t₀ :=
  ⟨by linarith, by linarith⟩

omit [IsStrictOrderedRing F] in
/-- A request of a prefill batch is stamped. -/
theorem Timely.stampPrefill (h : Timely t₀ t p rs s) {r : Ref}
    (hlt : r < s.engine.scheduler.created)
    (hstate : (s.engine.scheduler.requests r).state = .prefill) (durationSec : F) :
    Timely t₀ t p (rs ++ [r]) { s with
      metrics := s.metrics.stamp r
        (MetricsCollector.stampPrefill t durationSec (s.engine.scheduler.requests r)) } := by
  have hold := h.order r hlt
  have hnone := h.unfinished hlt (by simp [hstate])
  have hmem : ∀ r' ∈ rs ++ [r], r' ∉ rs → r' = r := fun r' hr' hnot => by
    simpa [hnot] using hr'
  refine h.stamp h.sampled (by simp [hstate]) ?_ ?_ ?_ fun r' hr' hnot => ⟨hmem r' hr' hnot, ?_⟩ <;>
    unfold MetricsCollector.stampPrefill <;> simp only
  · split
    · exact ⟨hold.created, fun a ha => by cases ha; exact ⟨hold.created.2, le_rfl⟩,
        fun b hb => by cases hb; exact ⟨le_rfl, t, rfl, le_rfl⟩, fun c hc => by
          simp only [hnone] at hc
          cases hc⟩
    · exact ⟨hold.created, hold.first, hold.last, hold.finished⟩
  · split <;> rfl
  · intro hsome
    split
    · rfl
    · exact hsome
  · intro hcomplete
    simp [hcomplete]

/-- **A prefill batch is reported.** -/
theorem Timely.prefilledHook (h : Timely t₀ t p [] s) {passes : PassTimes F}
    (hdur : 0 ≤ passes.prefillSec ∧ passes.prefillSec ≤ p)
    (hlt : ∀ r ∈ rs, r < s.engine.scheduler.created)
    (hstate : ∀ r ∈ rs, (s.engine.scheduler.requests r).state = .prefill)
    (tokensProcessed : Int) : Timely t₀ s.metrics.now p rs { s with
      metrics := Metered.prefilledHook passes rs tokensProcessed s.engine.scheduler.requests
        s.metrics } := by
  have hfold : ∀ (l done : List Ref) (c : MetricsCollector F), (∀ r ∈ l, r ∈ rs) →
      Timely t₀ s.metrics.now p done { s with metrics := c } →
      Timely t₀ s.metrics.now p (done ++ l) { s with
        metrics := l.foldl (fun c r => c.stamp r (MetricsCollector.stampPrefill s.metrics.now
          passes.prefillSec (s.engine.scheduler.requests r))) c } := by
    intro l
    induction l with
    | nil => exact fun done c _ h => by simpa using h
    | cons r l ih =>
      intro done c hl h
      have hr := hl r List.mem_cons_self
      have hnext := ih (done ++ [r]) _ (fun r' hr' => hl r' (List.mem_cons_of_mem r hr'))
        (h.stampPrefill (hlt r hr) (hstate r hr) passes.prefillSec)
      simpa using hnext
  obtain ⟨hstore, htimes, hclock⟩ := h.untilNow.sampled.onPrefixCacheHits rs
    s.engine.scheduler.requests
  have hnow : (s.metrics.onPrefixCacheHits rs s.engine.scheduler.requests).now = s.metrics.now :=
    congrFun hclock 0
  unfold Metered.prefilledHook MetricsCollector.onPrefillBatch
  rw [hnow]
  refine hfold rs [] _ (fun _ hr => hr) (h.tick.rebook ?_ htimes ?_)
  · exact ⟨hstore.ttft, hstore.total, hstore.interToken, hstore.prefill.append hdur.1 hdur.2,
      hstore.decode⟩
  · simp only [MetricsCollector.tick, hclock]

/-- **A decoded token is reported.** -/
theorem Timely.onDecodeToken (h : Timely t₀ t p rs s) {r : Ref}
    (hlt : r < s.engine.scheduler.created)
    (hd : (s.engine.scheduler.requests r).state = .decode) (q : InferenceRequest Nat) :
    Timely t₀ s.metrics.now p rs { s with metrics := s.metrics.onDecodeToken r q } := by
  have hread := h.tick
  set t := s.metrics.now with ht
  have hold := hread.order r hlt
  have hnone := h.unfinished hlt (by simp [hd])
  obtain ⟨b, hb⟩ := Option.isSome_iff_exists.mp (h.decoding r hlt hd)
  obtain ⟨hle, a, ha, -⟩ := hold.last b hb
  have hx : ({ s.metrics.times r with lastTokenAt := some t } : RequestTimes F).InOrder t₀ t :=
    ⟨hold.created, hold.first, fun b hb => by
      cases hb
      exact ⟨le_rfl, a, ha, (hold.first a ha).2⟩, fun c hc => by
      simp only [hnone] at hc
      cases hc⟩
  have hstamp : ∀ store : MetricsStore F, store.Sampled (t - t₀) p → Timely t₀ t p rs { s with
      metrics := ⟨store, Function.update s.metrics.times r
        { s.metrics.times r with lastTokenAt := some t }, s.metrics.tick.clock⟩ } :=
    fun store hstore => hread.stamp hstore (by simp [hd]) hx rfl (fun _ => rfl)
      fun _ hr hnot => absurd hr hnot
  obtain ⟨hpos, hup⟩ := since_mem (hold.le_last hb) hle
  have hsampled := hread.sampled
  unfold MetricsCollector.onDecodeToken
  simp only [MetricsCollector.tick, hb]
  split
  · exact hstamp _ ⟨hsampled.ttft, hsampled.total, hsampled.interToken.append hpos hup,
      hsampled.prefill, hsampled.decode⟩
  · exact hstamp _ hsampled

/-- **A completed request is reported** after its last token. -/
theorem Timely.onRequestFinished (h : Timely t₀ t p rs s) {r : Ref} {e : Engine Row}
    {q : InferenceRequest Nat} (hlt : r < s.engine.scheduler.created)
    (hd : (s.engine.scheduler.requests r).state = .decode)
    (hcreated : e.scheduler.created = s.engine.scheduler.created)
    (hcompleted : ∀ r' ∈ e.scheduler.completed.values,
      r' ∈ s.engine.scheduler.completed.values ∨ r' = r)
    (hreq : e.scheduler.requests = Function.update s.engine.scheduler.requests r q)
    (hq : q.state = .finished)
    (hprefill : q.prefillComplete = (s.engine.scheduler.requests r).prefillComplete)
    (q' : InferenceRequest Nat) : Timely t₀ s.metrics.tick.now p rs
      ⟨e, s.metrics.onRequestFinished r q'⟩ := by
  have hread := h.tick
  have hold := hread.order r hlt
  refine (hread.ended ?_ hlt (by simp [hd]) hcreated (fun r' hr' => ?_) hreq hq hprefill).tick
  · refine hread.sampled.recordCompletion _ _ _ _ (fun x hx => ?_) ?_
    · simp only [MetricsCollector.stamp, Function.update_self] at hx
      obtain ⟨a, ha, rfl⟩ := Option.mem_map.mp hx
      obtain ⟨hle, hle'⟩ := hold.first a ha
      constructor
      · linarith
      · linarith [hold.created.1]
    · simp only [MetricsCollector.stamp, Function.update_self]
      exact since_mem hold.created.1 hold.created.2
  · exact (hcompleted r' hr').imp id fun he => ⟨he, h.decoding r hlt hd⟩

/-- **A failed request is reported.** -/
theorem Timely.onRequestFailed (h : Timely t₀ t p rs s) {r : Ref} {e : Engine Row}
    {q : InferenceRequest Nat} (hlt : r < s.engine.scheduler.created)
    (hstate : (s.engine.scheduler.requests r).state ≠ .finished)
    (hcreated : e.scheduler.created = s.engine.scheduler.created)
    (hcompleted : e.scheduler.completed = s.engine.scheduler.completed)
    (hreq : e.scheduler.requests = Function.update s.engine.scheduler.requests r q)
    (hq : q.state = .finished)
    (hprefill : q.prefillComplete = (s.engine.scheduler.requests r).prefillComplete)
    (q' : InferenceRequest Nat) (status : String) :
    Timely t₀ s.metrics.tick.now p rs ⟨e, s.metrics.onRequestFailed r q' status⟩ := by
  have hread := h.tick
  have hold := hread.order r hlt
  refine (hread.ended ?_ hlt hstate hcreated (fun r' hr' => Or.inl (hcompleted ▸ hr')) hreq hq
    hprefill).tick
  have hnone : ∀ x ∈ (none : Option F), 0 ≤ x ∧ x ≤ s.metrics.now - t₀ := fun x hx => by cases hx
  refine hread.sampled.recordCompletion _ _ _ _ hnone ?_
  simp only [MetricsCollector.stamp, Function.update_self]
  exact since_mem hold.created.1 hold.created.2

/-! ## Pieces -/

/-- **A token of a batch**, whatever its hooks report before the end of the request. -/
theorem Timely.accepted (h : Timely t₀ t p rs s) {r : Ref} {tokenId : Nat}
    (hlt : r < s.engine.scheduler.created)
    (hd : (s.engine.scheduler.requests r).state = .decode)
    (before : InferenceRequest Nat → MetricsCollector F → MetricsCollector F)
    (hbefore : ∀ q, ∃ t', Timely t₀ t' p rs { s with metrics := before q s.metrics }) :
    ∃ t', Timely t₀ t' p rs
      (accepted (fun objects c => finishedHook r objects (before (objects r) c)) s r tokenId) := by
  have ho := Scheduler.markDecodeDone_outcome s.engine.scheduler r tokenId
  unfold Metered.accepted Engine.handled
  generalize (Scheduler.markDecodeDone r tokenId).run s.engine.scheduler = result at ho
  cases ho with
  | rejected err hnot => exact absurd hd hnot
  | more _ _ =>
    set q := Scheduler.pushToken (s.engine.scheduler.requests r) tokenId with hq
    have hself : Function.update s.engine.scheduler.requests r q r = q := Function.update_self ..
    have hhook : finishedHook r (Function.update s.engine.scheduler.requests r q)
        (before (Function.update s.engine.scheduler.requests r q r) s.metrics)
          = before q s.metrics := by
      rw [finishedHook, hself, if_neg]
      simp [hq, Scheduler.pushToken, hd]
    obtain ⟨t', hreported⟩ := hbefore q
    simp only [hhook]
    exact ⟨t', hreported.moved (q := q) rfl rfl rfl (fun _ => by simp [hd])
      (fun _ => hreported.decoding r hlt hd) rfl⟩
  | last _ _ _ =>
    set q : InferenceRequest Nat :=
      { Scheduler.pushToken (s.engine.scheduler.requests r) tokenId with
        state := .finished, batchIdx := none } with hq
    have hself : (s.engine.scheduler.finishWith r tokenId).requests r = q := Function.update_self ..
    have hhook : finishedHook r (s.engine.scheduler.finishWith r tokenId).requests
        (before ((s.engine.scheduler.finishWith r tokenId).requests r) s.metrics)
          = (before q s.metrics).onRequestFinished r q := by
      rw [finishedHook, hself, if_pos rfl]
    obtain ⟨t', hreported⟩ := hbefore q
    simp only [hhook]
    refine ⟨_, hreported.onRequestFinished (q := q) hlt hd ?_ (fun r' hr' => ?_) ?_ ?_ ?_ q⟩ <;>
      try rfl
    obtain ⟨id, hm⟩ := OrderedDict.mem_values_iff.mp hr'
    rcases OrderedDict.mem_insert.mp hm with ⟨-, he⟩ | ⟨-, hold⟩
    · exact Or.inr he
    · exact Or.inl (OrderedDict.mem_values_iff.mpr ⟨id, hold⟩)
  | gone err _ _ _ =>
    exact ⟨t, h.moved rfl rfl rfl (fun _ => by simp [hd]) (fun hs => by cases hs) rfl⟩

/-- **Every piece of a step keeps the stamps in order**, up to some time. -/
theorem piecesClosed_timely {passes : PassTimes F}
    (hprefill : 0 ≤ passes.prefillSec ∧ passes.prefillSec ≤ p)
    (hdecode : 0 ≤ passes.decodeSec ∧ passes.decodeSec ≤ p) :
    PiecesClosed passes fun rs (s : Metered F Row) => ∃ t, Timely t₀ t p rs s where
  cache := fun _ _ _ ⟨t, h⟩ => ⟨t, { h with }⟩
  forward := fun s requests _ ⟨t, h⟩ hf => by
    refine ⟨t, h.start, h.soon, h.clock, h.order, h.sampled,
      fun r hr hd => h.decoding r hr ((hf r).state.symm.trans hd),
      fun _ hr => absurd hr List.not_mem_nil,
      fun r hr hs => (hf r).state.trans (h.finished r hr hs), fun r hr => ?_⟩
    obtain ⟨hlt, hstate, hstamps⟩ := h.completed r hr
    exact ⟨hlt, (hf r).state.trans hstate, hstamps⟩
  assign := fun s r waiting b freeSlots hlive ⟨t, h⟩ hw _ => by
    have hr := hlive.waiting r (by rw [hw]; exact List.mem_cons_self)
    rw [Scheduler.assignSlot_eq]
    exact ⟨t, h.moved rfl rfl rfl (fun _ => by simp [hr.2]) (fun hs => by cases hs) rfl⟩
  prefilled := fun _ _ tokensProcessed _ ⟨_, h⟩ hlt hstate =>
    ⟨_, h.prefilledHook hprefill hlt hstate tokensProcessed⟩
  reported := fun _ _ ⟨t, h⟩ => ⟨t, h.base⟩
  startDecode := fun _ s r _ ⟨t, h⟩ hr _ hs hcomplete =>
    ⟨t, h.moved rfl rfl rfl (fun _ => by simp [hs]) (fun _ => h.prefilled r hr hcomplete) rfl⟩
  firstToken := fun _ s r tokenId _ ⟨t, h⟩ hlt hd =>
    h.accepted hlt hd (fun _ c => c) fun _ => ⟨t, h⟩
  decoded := fun s ⟨_, h⟩ => by
    have hsampled := h.tick.sampled
    exact ⟨_, h.tick.rebook ⟨hsampled.ttft, hsampled.total, hsampled.interToken,
      hsampled.prefill, hsampled.decode.append hdecode.1 hdecode.2⟩ rfl rfl⟩
  nextToken := fun s r tokenId _ ⟨_, h⟩ hlt hd =>
    h.accepted hlt hd (fun q c => c.onDecodeToken r q) fun q => ⟨_, h.onDecodeToken hlt hd q⟩

/-! ## Calls and timeouts -/

/-- A request is submitted. -/
theorem Timely.submitted (h : Timely t₀ t p [] s) (requestId : String) (promptTokenIds : List Nat)
    (maxNewTokens : Int) : Timely t₀ s.metrics.now p []
      (Exec.after (addRequest requestId promptTokenIds maxNewTokens) s) := by
  have hread := h.tick
  rw [after_addRequest]
  set q := s.engine.newRequest requestId promptTokenIds maxNewTokens with hq
  set sch := Engine.withRequest s.engine.scheduler q with hsch
  set k := s.engine.scheduler.created with hk
  have hself : sch.requests k = q := Engine.withRequest_new s.engine.scheduler q
  have hother : ∀ {r}, r ≠ k → sch.requests r = s.engine.scheduler.requests r :=
    fun hne => Function.update_of_ne hne ..
  set times := Function.update s.metrics.times k ({ createdAt := s.metrics.now } : RequestTimes F)
    with htimes
  have hnew : times k = { createdAt := s.metrics.now } := Function.update_self ..
  have hkept : ∀ {r}, r ≠ k → times r = s.metrics.times r := fun hne =>
    Function.update_of_ne hne ..
  have hold : ∀ {r}, r < sch.created → r ≠ k → r < k := fun hlt hne =>
    Nat.lt_of_le_of_ne (Nat.le_of_lt_succ hlt) hne
  show Timely t₀ s.metrics.now p [] ⟨{ s.engine with scheduler := sch },
    ⟨s.metrics.store.recordEnqueue, times, s.metrics.tick.clock⟩⟩
  have hsampled := hread.sampled
  refine ⟨hread.start, hread.soon, hread.clock, fun r hr => ?_, ⟨hsampled.ttft, hsampled.total,
    hsampled.interToken, hsampled.prefill, hsampled.decode⟩, fun r hr hd => ?_,
    fun _ hr => absurd hr List.not_mem_nil, fun r hr hf => ?_, fun r hr => ?_⟩
  · by_cases hne : r = k
    · simp only [hne, hnew]
      exact .new hread.start
    · simp only [hkept hne]
      exact hread.order r (hold hr hne)
  · by_cases hne : r = k
    · simp only [hne, hself] at hd
      cases hd
    · simp only [hother hne] at hd
      simpa only [hkept hne] using h.decoding r (hold hr hne) hd
  · by_cases hne : r = k
    · simp only [hne, hnew] at hf
      cases hf
    · simp only [hkept hne] at hf
      simpa only [hother hne] using h.finished r (hold hr hne) hf
  · obtain ⟨hlt, hstate, hstamps⟩ := h.completed r hr
    have hne : r ≠ k := Nat.ne_of_lt hlt
    simp only [hother hne, hkept hne]
    exact ⟨Nat.lt_succ_of_lt hlt, hstate, hstamps⟩

omit [IsStrictOrderedRing F] in
/-- Only the slots and the settings change. -/
theorem Timely.resized (h : Timely t₀ t p [] s) {e : Engine Row}
    (hs : Scheduler.OnlyResized s.engine.scheduler e.scheduler) :
    Timely t₀ t p [] { s with engine := e } := by
  refine ⟨h.start, h.soon, h.clock, ?_, h.sampled, ?_, fun _ hr => absurd hr List.not_mem_nil, ?_,
    ?_⟩ <;>
    simp only [hs.created, hs.requests, hs.completed]
  · exact h.order
  · exact h.decoding
  · exact h.finished
  · exact h.completed

variable [LinearOrder Score] {chain : Int → List Nat → Int} {model : InferenceModel Row Score}

/-- **One act keeps the stamps in order**, on either exit. -/
theorem Timely.nextAct (h : Timely t₀ t p [] s) (hledger : Ledger s)
    (hlive : Live s.engine.scheduler) {a : PassTimes F × Act} (ha : Reported s a)
    (hprefill : 0 ≤ a.1.prefillSec ∧ a.1.prefillSec ≤ p)
    (hdecode : 0 ≤ a.1.decodeSec ∧ a.1.decodeSec ≤ p) :
    ∃ t', Timely t₀ t' p [] (nextAct chain model s a) := by
  obtain ⟨passes, a⟩ := a
  cases a with
  | timeOut requestId =>
    rw [Metered.nextAct, act]
    rcases after_timeOut_cases hledger.inv requestId with
      ⟨r, hr, hafter⟩ | ⟨r, hr, b, hb, hafter⟩ | hafter
    · have hstate := (hledger.inv.waiting r hr).state
      rw [hafter]
      refine ⟨_, h.onRequestFailed (q := { s.engine.scheduler.requests r with
        state := .finished, status := "timeout" }) (hledger.inv.waiting_lt hr) (by simp [hstate])
        ?_ ?_ ?_ ?_ ?_ _ _⟩ <;> rfl
    · have hstate := (hlive.running r hr).2
      have hne : (s.engine.scheduler.requests r).state ≠ .finished := by
        rcases hstate with hs | hs <;> simp [hs]
      rw [hafter]
      refine ⟨_, h.onRequestFailed (q := { s.engine.scheduler.requests r with
        state := .finished, status := "timeout", batchIdx := none }) (hledger.inv.running_lt hr) hne
        ?_ ?_ ?_ ?_ ?_ _ _⟩ <;> rfl
    · rw [hafter]
      exact ⟨t, h⟩
  | call op =>
    have hsetting : isSetting op = true →
        ∃ t', Timely t₀ t' p [] (Exec.after (call chain model passes op) s) := fun hop => by
      rw [after_setting hop]
      exact ⟨t, h.resized (next_setting hop s.engine)⟩
    cases op with
    | cancelRequest => cases ha.2
    | addRequest requestId promptTokenIds maxNewTokens =>
      rw [Metered.nextAct, act, call, Exec.after_dropped]
      exact ⟨_, h.submitted requestId promptTokenIds maxNewTokens⟩
    | step =>
      rw [Metered.nextAct, act, call, Exec.after_dropped]
      exact ((piecesClosed_timely hprefill hdecode).step s ⟨hlive, ⟨t, h⟩, rfl⟩).inv
    | reconfigure => exact hsetting rfl
    | registerTokenCallback => exact hsetting rfl
    | unregisterTokenCallback => exact hsetting rfl

/-- The stamps of a run. -/
theorem Timely.run {acts : List (PassTimes F × Act)} (h : Timely t₀ t p [] s) (hledger : Ledger s)
    (hlive : Live s.engine.scheduler)
    (hacts : Exec.Along Reported (Metered.nextAct chain model) s acts)
    (hsec : ∀ a ∈ acts, (0 ≤ a.1.prefillSec ∧ a.1.prefillSec ≤ p) ∧
      0 ≤ a.1.decodeSec ∧ a.1.decodeSec ≤ p) :
    ∃ t', Timely t₀ t' p [] (acts.foldl (Metered.nextAct chain model) s) := by
  induction acts generalizing s t with
  | nil => exact ⟨t, h⟩
  | cons a acts ih =>
    obtain ⟨hprefill, hdecode⟩ := hsec a List.mem_cons_self
    obtain ⟨t', hnext⟩ : ∃ t', Timely t₀ t' p [] (Metered.nextAct chain model s a) :=
      h.nextAct hledger hlive hacts.1 hprefill hdecode
    refine ih hnext (hledger.nextAct hlive hacts.1) ?_ hacts.2
      fun b hb => hsec b (List.mem_cons_of_mem a hb)
    rw [nextAct_engine hledger.inv]
    exact Engine.next_live hlive _

omit [IsStrictOrderedRing F] [LinearOrder Score] in
theorem attached_timely {e : Engine Row} {maxConcurrentRequests prefillChunkSize
      maxTokensPerStep : Int} {usePagedKvCache usePrefixCache : Bool}
    (hnew : Engine.new model maxConcurrentRequests prefillChunkSize maxTokensPerStep
      usePagedKvCache usePrefixCache = .ok e) (windowSec : F) (times : Ref → RequestTimes F)
    {clock : Nat → F} (hclock : Monotone clock) :
    Timely (clock 0) (clock 0) p [] (attached e windowSec times clock) := by
  obtain ⟨sch, hs, he⟩ := Exec.bind_eq_ok hnew
  cases he
  unfold Scheduler.new at hs
  split at hs
  · cases hs
  split at hs
  · cases hs
  cases hs
  exact ⟨le_rfl, le_rfl, hclock, nofun, ⟨nofun, nofun, nofun, nofun, nofun⟩, nofun, nofun, nofun,
    nofun⟩

/-- **The latencies of every run are in order.** On a clock that does not go back, each completed
request was created before its first token, which came before its last one, which came before it was
finished; and whenever the dashboard is looked at, the percentiles of every latency ascend from 0,
and none is longer than the engine has been up by the next reading of the clock, or than the longest
forward pass. -/
theorem latencies_ordered [FloorRing F] (chain : Int → List Nat → Int) {e : Engine Row}
    {maxConcurrentRequests prefillChunkSize maxTokensPerStep : Int}
    {usePagedKvCache usePrefixCache : Bool}
    (hnew : Engine.new model maxConcurrentRequests prefillChunkSize maxTokensPerStep
      usePagedKvCache usePrefixCache = .ok e) (windowSec : F) (times : Ref → RequestTimes F)
    {clock : Nat → F} (hclock : Monotone clock) (acts : List (PassTimes F × Act))
    (hacts : Exec.Along Reported (Metered.nextAct chain model) (attached e windowSec times clock)
      acts)
    {longest : F} (hlong : 0 ≤ longest)
    (hsec : ∀ a ∈ acts, (0 ≤ a.1.prefillSec ∧ a.1.prefillSec ≤ longest) ∧
      0 ≤ a.1.decodeSec ∧ a.1.decodeSec ≤ longest) :
    let s := acts.foldl (Metered.nextAct chain model) (attached e windowSec times clock)
    let up := s.metrics.now - clock 0
    (∀ r ∈ s.engine.scheduler.completed.values, ∃ first last finished,
      (s.metrics.times r).firstTokenAt = some first ∧ (s.metrics.times r).lastTokenAt = some last ∧
        (s.metrics.times r).finishedAt = some finished ∧ (s.metrics.times r).createdAt ≤ first ∧
        first ≤ last ∧ last ≤ finished) ∧
      ∀ now, (s.snapshot now).ttft.Ordered ∧ (s.snapshot now).totalRequestLatency.Ordered ∧
        (s.snapshot now).interTokenLatency.Ordered ∧ (s.snapshot now).prefillStepLatency.Ordered ∧
        (s.snapshot now).decodeStepLatency.Ordered ∧
        (s.snapshot now).ttft.p99Ms ≤ roundTo 2 (up * 1000) ∧
        (s.snapshot now).totalRequestLatency.p99Ms ≤ roundTo 2 (up * 1000) ∧
        (s.snapshot now).interTokenLatency.p99Ms ≤ roundTo 2 (up * 1000) ∧
        (s.snapshot now).prefillStepLatency.p99Ms ≤ roundTo 2 (longest * 1000) ∧
        (s.snapshot now).decodeStepLatency.p99Ms ≤ roundTo 2 (longest * 1000) := by
  intro s up
  obtain ⟨t, ht⟩ : ∃ t, Timely (clock 0) t longest [] s :=
    (attached_timely hnew windowSec times hclock).run (attached_ledger hnew windowSec times clock)
      (Engine.new_live hnew) hacts hsec
  have h := ht.untilNow
  have hup : 0 ≤ up := sub_nonneg.mpr h.start
  have hordered : ∀ {n : Nat} {d : F} {samples : BoundedDeque n F}, Durations d samples →
      (latencySummary samples.items).Ordered :=
    fun hd => latencySummary_ordered fun x hx => (hd x hx).1
  refine ⟨fun r hr => ?_, fun now => ⟨hordered h.sampled.ttft, hordered h.sampled.total,
    hordered h.sampled.interToken, hordered h.sampled.prefill, hordered h.sampled.decode,
    (latencySummary_le hup h.sampled.ttft).1, (latencySummary_le hup h.sampled.total).1,
    (latencySummary_le hup h.sampled.interToken).1, (latencySummary_le hlong h.sampled.prefill).1,
    (latencySummary_le hlong h.sampled.decode).1⟩⟩
  obtain ⟨hlt, -, hlast, hfinished⟩ := h.completed r hr
  obtain ⟨last, hlast⟩ := Option.isSome_iff_exists.mp hlast
  obtain ⟨finished, hfinished⟩ := Option.isSome_iff_exists.mp hfinished
  have horder := h.order r hlt
  obtain ⟨-, first, hfirst, hle⟩ := horder.last last hlast
  exact ⟨first, last, finished, hfirst, hlast, hfinished, (horder.first first hfirst).1, hle,
    (horder.finished finished hfinished).2.2 last hlast⟩

/-- The run in which one request completes, one is timed out and one waits. -/
theorem oneOfEach_ordered :
    ∃ e, Engine.new (recallModel ⟨1, 8, 0, 2⟩ sumScores) 1 2 2048 true false = .ok e ∧
      let s := oneOfEach.foldl
        (Metered.nextAct PagedKVCache.sumChain (recallModel ⟨1, 8, 0, 2⟩ sumScores))
        (attached e 60 (fun _ => ⟨0, none, none, none, none⟩) everySecond)
      s.engine.scheduler.completed.values = [0] ∧ s.metrics.now = 9 ∧
        (s.metrics.times 0).finishedAt = some 2 ∧ (s.metrics.times 1).lastTokenAt = some 5 ∧
        (s.snapshot 7).totalRequestLatency.Ordered ∧
        (s.snapshot 7).totalRequestLatency.p99Ms ≤ roundTo 2 (9 * 1000) := by
  obtain ⟨e, hnew⟩ : ∃ e, Engine.new (recallModel ⟨1, 8, 0, 2⟩ sumScores) 1 2 2048 true false
      = .ok e := ⟨_, rfl⟩
  refine ⟨e, hnew, ?_⟩
  have hmono : Monotone everySecond := fun _ _ hle => Nat.cast_le.mpr hle
  have hall := latencies_ordered PagedKVCache.sumChain hnew (60 : Rat)
    (fun _ => ⟨0, none, none, none, none⟩) hmono oneOfEach ?_ (by norm_num : (0 : Rat) ≤ 1)
    (by decide +kernel)
  · have hnow : (oneOfEach.foldl
        (Metered.nextAct PagedKVCache.sumChain (recallModel ⟨1, 8, 0, 2⟩ sumScores))
        (attached e 60 (fun _ => ⟨0, none, none, none, none⟩) everySecond)).metrics.now = 9 := by
      cases hnew
      decide +kernel
    refine ⟨?_, hnow, ?_, ?_, (hall.2 7).2.1, ?_⟩
    · cases hnew
      decide +kernel
    · cases hnew
      decide +kernel
    · cases hnew
      decide +kernel
    · have hlatency := (hall.2 7).2.2.2.2.2.2.1
      rwa [hnow, show everySecond 0 = 0 from rfl, sub_zero] at hlatency
  · cases hnew
    decide +kernel

end Metered

end Nifre
