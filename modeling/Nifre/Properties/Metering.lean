import Nifre.Lib.Ghost
import Nifre.Lib.Hoare
import Nifre.Observability.Collector

/-!
# The metrics do not interfere

An engine with a metrics collector does what it does without one, call by call, on either exit. What
is written into the two counters of prompt tokens is written by the prefill half of a step.
-/

namespace Nifre

open Exec (Shadows Keeps)

namespace Metered

variable {F Row Score : Type} [Field F]

/-! ## The engine below -/

/-- On the engine, a method does what the engine's own method does. -/
abbrev Mirrors {α : Type} (m : M F Row α) (m' : Engine.M Row α) : Prop :=
  Shadows Metered.engine m m'

omit [Field F] in
theorem onEngine_mirrors {α : Type} (m : Engine.M Row α) :
    Mirrors (onEngine m : M F Row α) m :=
  Shadows.within (fun _ _ => rfl) m

omit [Field F] in
theorem hook_mirrors {β : Type}
    {f : (Ref → InferenceRequest Nat) → MetricsCollector F → MetricsCollector F}
    {m : PUnit → M F Row β} {m' : Engine.M Row β}
    (h : Mirrors (m ⟨⟩) m') : Mirrors (hook f >>= m) m' :=
  Shadows.modify_bind (fun _ => rfl) h

omit [Field F] in
theorem addRequest_mirrors (requestId : String) (promptTokenIds : List Nat) (maxNewTokens : Int) :
    Mirrors (addRequest requestId promptTokenIds maxNewTokens : M F Row String)
      (Engine.addRequest requestId promptTokenIds maxNewTokens) := by
  refine Shadows.read_bind fun s => ?_
  have h : Mirrors
      (onEngine (Engine.addRequest requestId promptTokenIds maxNewTokens) >>= fun id =>
        hook (fun _ c => (c.onCreate s.engine.scheduler.created).onRequestEnqueued) >>=
          fun _ => pure id : M F Row String)
      (Engine.addRequest requestId promptTokenIds maxNewTokens >>= pure) :=
    (onEngine_mirrors _).bind fun id => hook_mirrors (Shadows.pure id)
  rwa [bind_pure] at h

variable (chain : Int → List Nat → Int)

theorem finishPrefill_mirrors (r : Ref) (tokenId : Option Nat) :
    Mirrors (finishPrefill chain r tokenId : M F Row Unit)
      (Engine.finishPrefill chain r tokenId) := by
  refine (onEngine_mirrors _).bind fun _ => ?_
  cases tokenId with
  | none => exact Shadows.pure _
  | some tokenId =>
    exact Shadows.get_bind fun s => (onEngine_mirrors _).bind fun _ =>
      (onEngine_mirrors _).bind fun _ => (onEngine_mirrors _).bind fun _ =>
        hook_mirrors (onEngine_mirrors _)

theorem finishDecode_mirrors (r : Ref) (tokenId : Nat) :
    Mirrors (finishDecode r tokenId : M F Row Unit) (Engine.finishDecode r tokenId) :=
  Shadows.get_bind fun _ => (onEngine_mirrors _).bind fun _ => (onEngine_mirrors _).bind fun _ =>
    hook_mirrors (hook_mirrors (onEngine_mirrors _))

variable [LinearOrder Score] (model : InferenceModel Row Score) (passes : PassTimes F)

theorem runPrefill_mirrors (requests : List Ref) :
    Mirrors (runPrefill chain model passes requests) (Engine.runPrefill chain model requests) :=
  Shadows.read_bind fun _ => (onEngine_mirrors _).bind fun _ => hook_mirrors (hook_mirrors
    (Shadows.forM _ fun p _ => finishPrefill_mirrors chain p.1 p.2))

theorem runDecode_mirrors (requests : List Ref) :
    Mirrors (runDecode model passes requests) (Engine.runDecode model requests) :=
  (onEngine_mirrors _).bind fun _ => hook_mirrors
    (Shadows.forM _ fun p _ => finishDecode_mirrors p.1 p.2)

theorem step_mirrors : Mirrors (step chain model passes) (Engine.step chain model) := by
  refine Shadows.get_bind fun s => Shadows.ite (Shadows.pure _) ?_
  refine (onEngine_mirrors _).bind fun _ => (onEngine_mirrors _).bind fun result => ?_
  exact (Shadows.ite (runPrefill_mirrors chain model passes _) (Shadows.pure _)).bind fun _ =>
    (Shadows.ite (runDecode_mirrors model passes _) (Shadows.pure _)).bind fun _ => Shadows.pure _

theorem call_mirrors : ∀ op : Engine.Op,
    Mirrors (call chain model passes op) (Engine.call chain model op)
  | .addRequest requestId promptTokenIds maxNewTokens =>
    (addRequest_mirrors requestId promptTokenIds maxNewTokens).bind fun _ => Shadows.pure _
  | .step => (step_mirrors chain model passes).bind fun _ => Shadows.pure _
  | .cancelRequest .. => onEngine_mirrors _
  | .reconfigure .. => onEngine_mirrors _
  | .registerTokenCallback _ => onEngine_mirrors _
  | .unregisterTokenCallback _ => onEngine_mirrors _

/-- **The engine does what it does without a collector.** -/
theorem next_engine (s : Metered F Row) (op : PassTimes F × Engine.Op) :
    (next chain model s op).engine = Engine.next chain model s.engine op.2 :=
  (call_mirrors chain model op.1 op.2).after s

end Metered

/-! ## The counters of prompt tokens -/

namespace MetricsCollector

variable {F : Type} [Field F]

/-- `total_prefill_tokens` and `prefix_cache_tokens_saved`. -/
def counters (c : MetricsCollector F) : Int × Nat :=
  (c.store.totalPrefillTokens, c.store.prefixCacheTokensSaved)

omit [Field F] in
/-- The hits that are reported add up. -/
theorem counters_onPrefixCacheHits (requests : List Ref) (objects : Ref → InferenceRequest Nat)
    (c : MetricsCollector F) : (c.onPrefixCacheHits requests objects).counters
      = (c.counters.1,
        c.counters.2 + (requests.map fun r => (objects r).prefixCacheHitTokens).sum) := by
  unfold onPrefixCacheHits
  induction requests generalizing c with
  | nil => rfl
  | cons r requests ih =>
    rw [List.foldl_cons, ih, List.map_cons, List.sum_cons]
    split
    · simp only [counters, onPrefixCacheHit, MetricsStore.recordPrefixCacheHit, Nat.add_assoc]
    · next hnone =>
      rw [Nat.eq_zero_of_not_pos hnone, Nat.zero_add]

theorem counters_onPrefillBatch (durationSec : F) (requests : List Ref)
    (objects : Ref → InferenceRequest Nat) (tokensProcessed : Int) (c : MetricsCollector F) :
    (c.onPrefillBatch durationSec requests objects tokensProcessed).counters
      = (c.counters.1 + tokensProcessed, c.counters.2) := by
  have hstamps : ∀ c' : MetricsCollector F, (requests.foldl (fun c' r =>
      c'.stamp r (stampPrefill c.now durationSec (objects r))) c').counters = c'.counters := by
    intro c'
    induction requests generalizing c' with
    | nil => rfl
    | cons r requests ih => exact ih _
  exact hstamps _

theorem counters_onDecodeToken (r : Ref) (request : InferenceRequest Nat)
    (c : MetricsCollector F) : (c.onDecodeToken r request).counters = c.counters := by
  simp only [onDecodeToken, tick]
  split
  · rfl
  · split <;> rfl

theorem counters_onRequestFinished (r : Ref) (request : InferenceRequest Nat)
    (c : MetricsCollector F) : (c.onRequestFinished r request).counters = c.counters := by
  simp only [counters, onRequestFinished, MetricsStore.recordCompletion, MetricsStore.countStatus]
  split
  · rfl
  · split <;> rfl

end MetricsCollector

end Nifre
