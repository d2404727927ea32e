import Nifre.Inference.DataModel
import Nifre.Lib.OrderedDict
import Nifre.Lib.Exec
import Mathlib.Data.List.Sort
import Mathlib.Logic.Function.Basic

/-!
# The scheduler

It assigns KV-cache slots to waiting requests and picks the prefill and decode batches of a step.

Request objects are shared with the engine and the model runner, so the queues hold references
into `requests`, the objects created so far.
-/

namespace Nifre

structure Scheduler (Tok : Type) where
  maxConcurrentRequests : Nat
  maxTokensPerStep : Int
  waiting : List Ref
  running : OrderedDict String Ref
  completed : OrderedDict String Ref
  failed : OrderedDict String Ref
  freeSlots : List Nat
  /-- The request objects, and how many were created. -/
  requests : Ref → InferenceRequest Tok
  created : Nat

namespace Scheduler

variable {Tok : Type}

abbrev M (Tok : Type) := EStateM PyError (Scheduler Tok)

/-- `__init__`. -/
def new (maxConcurrentRequests maxTokensPerStep : Int) : Except PyError (Scheduler Tok) :=
  if maxConcurrentRequests ≤ 0 then
    .error (.valueError
      s!"max_concurrent_requests must be positive, got {maxConcurrentRequests}")
  else if maxTokensPerStep ≤ 0 then
    .error (.valueError s!"max_tokens_per_step must be positive, got {maxTokensPerStep}")
  else .ok
    { maxConcurrentRequests := maxConcurrentRequests.toNat
      maxTokensPerStep := maxTokensPerStep
      waiting := []
      running := OrderedDict.empty
      completed := OrderedDict.empty
      failed := OrderedDict.empty
      freeSlots := List.range maxConcurrentRequests.toNat
      requests := fun _ => { requestId := "", promptTokenIds := [], maxNewTokens := 0 }
      created := 0 }

/-- Assign to fields of a request object. -/
def update (s : Scheduler Tok) (r : Ref) (f : InferenceRequest Tok → InferenceRequest Tok) :
    Scheduler Tok :=
  { s with requests := Function.update s.requests r (f (s.requests r)) }

/-- Construct a request object. -/
def create (request : InferenceRequest Tok) : M Tok Ref := do
  let s ← get
  set { s with
    requests := Function.update s.requests s.created request
    created := s.created + 1 }
  pure s.created

def addRequest (r : Ref) : M Tok Unit := do
  let s ← get
  if (s.requests r).state ≠ .waiting then
    throw (.valueError "new requests must start in WAITING")
  else
    set { s with waiting := s.waiting ++ [r] }

/-! ## schedule -/

/-- The body of the `while` loop of `_assign_waiting_to_slots`, for the popped request and slot. -/
def assignSlot (s : Scheduler Tok) (r : Ref) (waiting : List Ref) (batchIdx : Nat)
    (freeSlots : List Nat) : Scheduler Tok :=
  let s := { s with waiting := waiting, freeSlots := freeSlots }
  let s := s.update r fun request => { request with batchIdx := some batchIdx, state := .prefill }
  { s with running := s.running.insert (s.requests r).requestId r }

/-- The `while` loop of `_assign_waiting_to_slots`. Every round takes a waiting request, so their
number bounds the rounds. -/
def assignRounds : Nat → Scheduler Tok → Scheduler Tok
  | 0, s => s
  | rounds + 1, s =>
    match s.waiting, s.freeSlots with
    | r :: waiting, batchIdx :: freeSlots =>
      assignRounds rounds (s.assignSlot r waiting batchIdx freeSlots)
    | _, _ => s

def assignWaitingToSlots (s : Scheduler Tok) : Scheduler Tok := assignRounds s.waiting.length s

def prefillChunkTokens (request : InferenceRequest Tok) : Int :=
  min request.prefillChunkSize ((request.numPromptTokens : Int) - request.prefillOffset)

/-- The loop over the decoding requests, with the budget that is left. -/
def pickDecode (s : Scheduler Tok) : List Ref → Int → List Ref × Int
  | [], budget => ([], budget)
  | r :: rest, budget =>
    if (s.requests r).state ≠ .decode then
      pickDecode s rest budget
    else if budget < 1 then
      ([], budget)
    else
      let (picked, budget) := pickDecode s rest (budget - 1)
      (r :: picked, budget)

/-- The loop over the prefilling requests, with the budget that is left. -/
def pickPrefill (s : Scheduler Tok) : List Ref → Int → List Ref
  | [], _ => []
  | r :: rest, budget =>
    if (s.requests r).state ≠ .prefill then
      pickPrefill s rest budget
    else
      let chunkTokens := prefillChunkTokens (s.requests r)
      if budget < chunkTokens then
        pickPrefill s rest budget
      else
        r :: pickPrefill s rest (budget - chunkTokens)

def schedule : M Tok ScheduleResult := do
  modify assignWaitingToSlots
  let s ← get
  let (decodeRequests, budget) := pickDecode s s.running.values s.maxTokensPerStep
  let prefillRequests := pickPrefill s s.running.values budget
  pure { prefillRequests := prefillRequests, decodeRequests := decodeRequests }

/-! ## reconfigure -/

/-- The slots `old_max, .., new_max - 1` that are not free yet. -/
def addSlots (freeSlots : List Nat) (oldMax newMax : Nat) : List Nat :=
  (List.range' oldMax (newMax - oldMax)).foldl
    (fun free slot => if slot ∈ free then free else free ++ [slot]) freeSlots

def applyMaxConcurrent (newMax : Int) (cacheInitialized : Bool) : M Tok Unit := do
  if newMax ≤ 0 then
    throw (.valueError s!"max_concurrent_requests must be positive, got {newMax}")
  else
    let s ← get
    let oldMax := s.maxConcurrentRequests
    if newMax = oldMax then
      pure ()
    else if cacheInitialized ∧ (oldMax : Int) < newMax then
      throw (.valueError "cannot increase max_concurrent_requests after KV cache is initialized")
    else if newMax < s.running.size then
      throw (.valueError (s!"cannot set max_concurrent_requests to {newMax} with " ++
        s!"{s.running.size} running requests"))
    else
      match s.running.values.findSome? fun r =>
          (s.requests r).batchIdx.filter fun b : Nat => newMax ≤ b with
      | some b =>
        throw (.valueError (s!"running request uses slot {b}, " ++ s!"above new max {newMax}"))
      | none =>
        let freeSlots :=
          if (oldMax : Int) < newMax then addSlots s.freeSlots oldMax newMax.toNat
          else s.freeSlots.filter fun slot : Nat => slot < newMax
        set { s with
          freeSlots := freeSlots.insertionSort (· ≤ ·)
          maxConcurrentRequests := newMax.toNat }

def reconfigure (maxTokensPerStep maxConcurrentRequests : Option Int)
    (cacheInitialized : Bool := false) : M Tok Unit := do
  match maxTokensPerStep with
  | none => pure ()
  | some v =>
    if v ≤ 0 then
      throw (.valueError s!"max_tokens_per_step must be positive, got {v}")
    else
      modify fun s => { s with maxTokensPerStep := v }
  match maxConcurrentRequests with
  | none => pure ()
  | some v => applyMaxConcurrent v cacheInitialized

/-! ## Transitions of a request -/

def markPrefillDone (r : Ref) : M Tok Unit := do
  let s ← get
  let request := s.requests r
  if request.state ≠ .prefill then
    throw (.valueError s!"expected PREFILL, got {request.state}")
  else if request.prefillComplete = false then
    throw (.valueError (s!"prefill incomplete: offset={request.prefillOffset}, " ++
      s!"prompt_len={request.numPromptTokens}"))
  else
    set (s.update r fun request => { request with state := .decode })

/-- Give a request's slot back, if it has one. -/
def freeSlot (s : Scheduler Tok) (r : Ref) : Scheduler Tok :=
  match (s.requests r).batchIdx with
  | none => s
  | some b =>
    { s with freeSlots := s.freeSlots ++ [b] }.update r fun request =>
      { request with batchIdx := none }

def finishRequest (r : Ref) : M Tok Unit := do
  modify fun s => s.update r fun request => { request with state := .finished }
  let s ← get
  let id := (s.requests r).requestId
  if s.running.contains id = false then
    throw (.keyError id)
  else
    set ({ s with
      running := s.running.erase id
      completed := s.completed.insert id r }.freeSlot r)

def markDecodeDone (r : Ref) (tokenId : Tok) : M Tok Unit := do
  let s ← get
  let request := s.requests r
  if request.state ≠ .decode then
    throw (.valueError s!"expected DECODE, got {request.state}")
  else
    let s := s.update r fun request =>
      { request with outputTokenIds := request.outputTokenIds ++ [tokenId] }
    set s
    if (s.requests r).maxNewTokens ≤ (s.requests r).numGenerated then
      finishRequest r

/-- Remove a request from waiting or running and record it as failed. -/
def cancelRequest (requestId : String) (status : String := "timeout") : M Tok Ref := do
  let s ← get
  let hit := fun r => (s.requests r).requestId = requestId
  let found := (s.waiting.filter hit).getLast?
  let s := { s with waiting := s.waiting.filter fun r => ¬hit r }
  match found with
  | some r =>
    let s := s.update r fun request => { request with state := .finished, status := status }
    set { s with failed := s.failed.insert requestId r }
    pure r
  | none =>
    match s.running.find? requestId with
    | none =>
      set s
      throw (.keyError s!"unknown request_id: {requestId}")
    | some r =>
      let s := { s with running := s.running.erase requestId }
      let s := s.update r fun request => { request with state := .finished, status := status }
      let s := s.freeSlot r
      set { s with failed := s.failed.insert requestId r }
      pure r

def hasWork (s : Scheduler Tok) : Bool := ¬(s.waiting.isEmpty ∧ s.running.entries.isEmpty)

end Scheduler

end Nifre
