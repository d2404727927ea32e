import Nifre.Inference.Engine

/-!
# The engine worker

One thread runs the step loop, and any number of callers are inside `generate` or
`generate_stream`. What happens under the lock is one action, and so is every read of the stop flag
or of a token queue outside it. An interleaving is a list of actions.

Sleeping, waiting for a notification and the clock are left out: a deadline may be found expired
whenever it is looked at.
-/

namespace Nifre

/-- Where the worker thread is in `_loop`. -/
inductive LoopPhase where
  /-- At `while not self._stop.is_set()`. -/
  | test
  /-- About to take the lock. -/
  | locked
  | exited
  /-- An exception of `engine.step()` ended the thread. -/
  | raised
  deriving DecidableEq, Repr

/-- Where a caller is in `generate`. -/
inductive GeneratePhase where
  | test
  /-- About to take the lock and look for the request. -/
  | poll
  | returned (r : Ref)
  | raised
  deriving DecidableEq, Repr

/-- A call of `generate`. -/
structure GenerateCall where
  requestId : String
  /-- `timeout_seconds` was given. -/
  hasDeadline : Bool
  phase : GeneratePhase
  deriving DecidableEq, Repr

/-- Where a caller is in `generate_stream`. -/
inductive StreamPhase where
  | test
  /-- About to take the lock and see whether the request is finished. -/
  | poll
  /-- In the first inner loop, with what was seen. -/
  | drain (finished : Bool)
  /-- In the second inner loop. -/
  | drainAgain
  /-- In the `finally` block, reached by an exception thrown at a `yield` or not. -/
  | closing (thrown : Bool)
  | ended (thrown : Bool)
  deriving DecidableEq, Repr

/-- A call of `generate_stream`: its token queue, and what it has yielded. -/
structure StreamCall where
  requestId : String
  queue : List Nat
  yielded : List Nat
  phase : StreamPhase
  deriving DecidableEq, Repr

structure EngineWorker (Row : Type) where
  engine : Engine Row
  /-- `_stop.is_set()`. -/
  stopped : Bool
  loop : LoopPhase
  generates : List GenerateCall
  streams : List StreamCall

namespace EngineWorker

variable {Row Score : Type}

/-- `__init__` and `start`. -/
def new (engine : Engine Row) : EngineWorker Row where
  engine := engine
  stopped := false
  loop := .test
  generates := []
  streams := []

/-! ## Submitting -/

/-- The first critical section of `generate`. -/
def generate (w : EngineWorker Row) (requestId : String) (promptTokenIds : List Nat)
    (maxNewTokens : Int) (hasDeadline : Bool) : EngineWorker Row :=
  { w with
    engine := Exec.after (Engine.addRequest requestId promptTokenIds maxNewTokens) w.engine
    generates := w.generates ++ [⟨requestId, hasDeadline, .test⟩] }

/-- The first critical section of `generate_stream`. -/
def generateStream (w : EngineWorker Row) (requestId : String) (promptTokenIds : List Nat)
    (maxNewTokens : Int) : EngineWorker Row :=
  { w with
    engine := Exec.after (do
      let requestId ← Engine.addRequest requestId promptTokenIds maxNewTokens
      Engine.registerTokenCallback requestId) w.engine
    streams := w.streams ++ [⟨requestId, [], [], .test⟩] }

/-! ## The worker thread -/

/-- The tokens of one request among the calls of the token callbacks. -/
def heard (calls : List (String × Nat)) (requestId : String) : List Nat :=
  (calls.filter fun call => call.1 = requestId).map Prod.snd

/-- The calls of the token callbacks put the tokens into the queues. A callback that is registered
again under one id replaces the one before. -/
def deliver (calls : List (String × Nat)) : List StreamCall → List StreamCall
  | [] => []
  | c :: rest =>
    (if ∃ d ∈ rest, d.requestId = c.requestId then c
      else { c with queue := c.queue ++ heard calls c.requestId }) :: deliver calls rest

/-- The engine after a step, and the tokens delivered. -/
def stepped (w : EngineWorker Row) (engine : Engine Row) (loop : LoopPhase) : EngineWorker Row :=
  { w with
    engine := engine
    loop := loop
    streams := deliver (engine.emitted.drop w.engine.emitted.length) w.streams }

/-! ## The callers -/

def setGenerate (w : EngineWorker Row) (i : Nat) (c : GenerateCall) : EngineWorker Row :=
  { w with generates := w.generates.set i c }

def setStream (w : EngineWorker Row) (i : Nat) (c : StreamCall) : EngineWorker Row :=
  { w with streams := w.streams.set i c }

/-- `request_id in completed or request_id in failed`. -/
def isFinished (w : EngineWorker Row) (requestId : String) : Bool :=
  w.engine.scheduler.completed.contains requestId || w.engine.scheduler.failed.contains requestId

/-- The deadline of a call of `generate` passed: cancel the request and return it. -/
def timeOut (w : EngineWorker Row) (i : Nat) (c : GenerateCall) : EngineWorker Row :=
  match (Engine.cancelRequest c.requestId "timeout").run w.engine with
  | .ok _ engine =>
    match engine.scheduler.failed.find? c.requestId with
    | some r => { w with engine := engine }.setGenerate i { c with phase := .returned r }
    | none => { w with engine := engine }.setGenerate i { c with phase := .raised }
  | .error _ engine => { w with engine := engine }.setGenerate i { c with phase := .raised }

/-- The next action of a call of `generate`; `expired` is what comparing the clock gives. -/
def stepGenerate (w : EngineWorker Row) (i : Nat) (c : GenerateCall) (expired : Bool) :
    EngineWorker Row :=
  match c.phase with
  | .test => w.setGenerate i { c with phase := if w.stopped then .raised else .poll }
  | .poll =>
    match w.engine.scheduler.completed.find? c.requestId with
    | some r => w.setGenerate i { c with phase := .returned r }
    | none =>
      match w.engine.scheduler.failed.find? c.requestId with
      | some r => w.setGenerate i { c with phase := .returned r }
      | none =>
        if c.hasDeadline && expired then w.timeOut i c
        else w.setGenerate i { c with phase := .test }
  | .returned _ => w
  | .raised => w

/-- The next action of a call of `generate_stream`. -/
def stepStream (w : EngineWorker Row) (i : Nat) (c : StreamCall) : EngineWorker Row :=
  match c.phase with
  | .test => w.setStream i { c with phase := if w.stopped then .closing false else .poll }
  | .poll => w.setStream i { c with phase := .drain (w.isFinished c.requestId) }
  | .drain finished =>
    match c.queue with
    | token :: queue => w.setStream i { c with queue := queue, yielded := c.yielded ++ [token] }
    | [] => w.setStream i { c with phase := if finished then .drainAgain else .test }
  | .drainAgain =>
    match c.queue with
    | token :: queue => w.setStream i { c with queue := queue, yielded := c.yielded ++ [token] }
    | [] => w.setStream i { c with phase := .closing false }
  | .closing thrown =>
    { w with engine := Exec.after (Engine.unregisterTokenCallback c.requestId) w.engine }.setStream i
      { c with phase := .ended thrown }
  | .ended _ => w

/-- The consumer of a stream closes the generator at a `yield`. -/
def closeStream (w : EngineWorker Row) (i : Nat) (c : StreamCall) : EngineWorker Row :=
  match c.phase with
  | .drain _ => w.setStream i { c with phase := .closing true }
  | .drainAgain => w.setStream i { c with phase := .closing true }
  | _ => w

/-! ## Interleavings -/

/-- An action of the worker thread, of `stop`, or of a caller. -/
inductive Action where
  | loop
  | stop
  | generate (requestId : String) (promptTokenIds : List Nat) (maxNewTokens : Int)
      (hasDeadline : Bool)
  | generateStream (requestId : String) (promptTokenIds : List Nat) (maxNewTokens : Int)
  | caller (i : Nat) (expired : Bool)
  | stream (i : Nat)
  | close (i : Nat)
  deriving DecidableEq

variable [LinearOrder Score] (chain : Int → List Nat → Int) (model : InferenceModel Row Score)

/-- The critical section of `_loop`. -/
def stepLocked (w : EngineWorker Row) : EngineWorker Row :=
  if w.stopped then { w with loop := .exited }
  else if w.engine.scheduler.hasWork then
    match (Engine.step chain model).run w.engine with
    | .ok _ engine => w.stepped engine .test
    | .error _ engine => w.stepped engine .raised
  else { w with loop := .test }

/-- The next action of the worker thread. -/
def stepLoop (w : EngineWorker Row) : EngineWorker Row :=
  match w.loop with
  | .test => { w with loop := if w.stopped then .exited else .locked }
  | .locked => w.stepLocked chain model
  | .exited => w
  | .raised => w

def next (w : EngineWorker Row) : Action → EngineWorker Row
  | .loop => w.stepLoop chain model
  | .stop => { w with stopped := true }
  | .generate requestId promptTokenIds maxNewTokens hasDeadline =>
    w.generate requestId promptTokenIds maxNewTokens hasDeadline
  | .generateStream requestId promptTokenIds maxNewTokens =>
    w.generateStream requestId promptTokenIds maxNewTokens
  | .caller i expired =>
    match w.generates[i]? with
    | none => w
    | some c => w.stepGenerate i c expired
  | .stream i =>
    match w.streams[i]? with
    | none => w
    | some c => w.stepStream i c
  | .close i =>
    match w.streams[i]? with
    | none => w
    | some c => w.closeStream i c

end EngineWorker

end Nifre
