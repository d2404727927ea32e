import Nifre.Inference.EngineWorker

/-!
# `generate` and `generate_stream` of the engine

Both queue one request and step the engine in the caller's thread until it has ended. The loops are
bounded by fuel. The clock is a parameter: whether the deadline is found expired when it is looked
at for the `turn`-th time.
-/

namespace Nifre

namespace Engine

variable {Row Score : Type}

/-- `request_id in self.scheduler.completed or request_id in self.scheduler.failed`. -/
def isEnded (requestId : String) (e : Engine Row) : Bool :=
  e.scheduler.completed.contains requestId || e.scheduler.failed.contains requestId

/-- `self.scheduler.failed[request_id]`. -/
def failedRequest (requestId : String) : M Row Ref := do
  let e ← get
  match e.scheduler.failed.find? requestId with
  | some r => pure r
  | none => throw (.keyError requestId)

/-- The completed request, else the failed one. -/
def endedRequest (requestId : String) : M Row Ref := do
  let e ← get
  match e.scheduler.completed.find? requestId with
  | some r => pure r
  | none => failedRequest requestId

variable [LinearOrder Score] (chain : Int → List Nat → Int) (model : InferenceModel Row Score)

/-! ## generate -/

/-- How the loop of `generate` was left. -/
inductive Waited where
  /-- Not yet: the fuel is used up. -/
  | running
  /-- The request has ended. -/
  | ended
  /-- `return self.scheduler.failed[request_id]`. -/
  | timedOut (r : Ref)

def generateLoop (requestId : String) (expired : Nat → Bool) : Nat → Nat → M Row Waited
  | 0, _ => pure .running
  | fuel + 1, turn => do
    let e ← get
    if e.isEnded requestId then
      pure .ended
    else if expired turn then
      let _ ← cancelRequest requestId "timeout"
      let r ← failedRequest requestId
      pure (.timedOut r)
    else
      let _ ← step chain model
      generateLoop requestId expired fuel (turn + 1)

/-- `generate`; without a timeout the deadline never expires. -/
def generate (requestId : String) (promptTokenIds : List Nat) (maxNewTokens : Int)
    (expired : Nat → Bool) (fuel : Nat) : M Row (Option Ref) := do
  let requestId ← addRequest requestId promptTokenIds maxNewTokens
  let waited ← tryFinally (generateLoop chain model requestId expired fuel 0)
    (unregisterTokenCallback requestId)
  match waited with
  | .running => pure none
  | .timedOut r => pure (some r)
  | .ended => do
    let r ← endedRequest requestId
    pure (some r)

/-! ## generate_stream -/

/-- What the consumer of a stream calls at a `yield`: it sees the tokens so far and the engine. -/
abbrev Consumer (Row : Type) := List Nat → Engine Row → List Op

/-- `queue.get_nowait()`, after `taken` tokens. The queue gets the calls of the token callback since
it was registered, when `start` calls had been made. -/
def queued (requestId : String) (start taken : Nat) (e : Engine Row) : Option Nat :=
  (EngineWorker.heard (e.emitted.drop start) requestId)[taken]?

/-- The inner loop of `generate_stream`, and the tokens that the stream has yielded. -/
def drain (requestId : String) (start : Nat) (consumer : Consumer Row) :
    Nat → List Nat → M Row (Option (List Nat))
  | 0, _ => pure none
  | fuel + 1, yielded => do
    let e ← get
    match e.queued requestId start yielded.length with
    | none => pure (some yielded)
    | some token => do
      let yielded := yielded ++ [token]
      modify fun e => (consumer yielded e).foldl (next chain model) e
      drain requestId start consumer fuel yielded

def streamLoop (requestId : String) (start : Nat) (consumer : Consumer Row) :
    Nat → List Nat → M Row (Option (List Nat))
  | 0, _ => pure none
  | fuel + 1, yielded => do
    let e ← get
    if e.isEnded requestId then
      pure (some yielded)
    else
      let _ ← step chain model
      let drained ← drain chain model requestId start consumer fuel yielded
      match drained with
      | none => pure none
      | some yielded => streamLoop requestId start consumer fuel yielded

/-- `generate_stream`, consumed to its end: the tokens that it yields. -/
def generateStream (requestId : String) (promptTokenIds : List Nat) (maxNewTokens : Int)
    (consumer : Consumer Row) (fuel : Nat) : M Row (Option (List Nat)) := do
  let requestId ← addRequest requestId promptTokenIds maxNewTokens
  let e ← get
  registerTokenCallback requestId
  tryFinally (streamLoop chain model requestId e.emitted.length consumer fuel [])
    (unregisterTokenCallback requestId)

end Engine

end Nifre
