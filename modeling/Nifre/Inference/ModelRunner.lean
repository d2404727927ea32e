import Nifre.Inference.ModelInterface
import Nifre.Inference.Batching
import Nifre.Sampler

/-!
# Forward passes over a batch of requests
-/

namespace Nifre

/-- What a forward pass works on: the request objects and the cache. -/
structure ModelRunner (Row : Type) where
  requests : Ref → InferenceRequest Nat
  cache : KVCacheType Row

namespace ModelRunner

variable {Row Score : Type} [LinearOrder Score]

abbrev M (Row : Type) := EStateM PyError (ModelRunner Row)

/-- Assign to fields of a request object. -/
def update (s : ModelRunner Row) (r : Ref) (f : InferenceRequest Nat → InferenceRequest Nat) :
    ModelRunner Row :=
  { s with requests := Function.update s.requests r (f (s.requests r)) }

def onCache {α : Type} (m : KVCacheType.M Row α) : M Row α :=
  Exec.within (·.cache) (fun c s => { s with cache := c }) m

/-- The slot of a request of a batch. Only a request that is running is in one, so it has a slot. -/
def batchIdx (request : InferenceRequest Nat) : Except PyError Nat :=
  match request.batchIdx with
  | none => .error (.typeError "list indices must be integers or slices, not NoneType")
  | some b => .ok b

variable (chain : Int → List Nat → Int) (model : InferenceModel Row Score)

/-- The number of tokens restored from a cached prefix, where the cache can. -/
def loadPrefix (b : Nat) (tokenIds : List Nat) : M Row Nat := do
  let s ← get
  if s.cache.hasPrefix then
    onCache (KVCacheType.tryLoadPrefix chain b tokenIds)
  else
    pure 0

/-- The first loop of `prefill`, for one request. -/
def prepareSlot (r : Ref) : M Row Unit := do
  let s ← get
  let request := s.requests r
  if request.slotPrepared = false then
    let b ← Exec.ofExcept (batchIdx request)
    let loaded ← loadPrefix chain b request.promptTokenIds
    if 0 < loaded then
      modify fun s => s.update r fun request =>
        { request with prefillOffset := loaded, prefixCacheHitTokens := loaded }
    else if request.prefillOffset = 0 then
      onCache (KVCacheType.resetSlot b)
    modify fun s => s.update r fun request => { request with slotPrepared := true }

/-- The tokens of a request's next prefill chunk. -/
def chunkTokens (request : InferenceRequest Nat) : List Nat :=
  let start := request.prefillOffset
  let stop := min (start + request.prefillChunkSize) (request.numPromptTokens : Int)
  pySlice request.promptTokenIds start stop

/-- `sample_greedy(logits[i : i + 1, -1, :]).item()`. -/
def sampleRow (logits : Logits Score) (i : Nat) : Except PyError Nat :=
  match logits[i]? with
  | none => .error (.runtimeError "a Tensor with 0 elements cannot be converted to Scalar")
  | some row => match row.getLast? with
    | none => .error (.indexError "index -1 is out of bounds for dimension 1 with size 0")
    | some scores => sampleGreedy scores

/-- The first token of a request, once its prompt is complete. -/
def sampleComplete (logits : Logits Score) (i : Nat) (r : Ref) : M Row (Option Nat) := do
  let s ← get
  if (s.requests r).prefillComplete then
    some <$> Exec.ofExcept (sampleRow logits i)
  else
    pure none

/-- The last loop of `prefill`, from row `i` on. -/
def advanceRows (logits : Logits Score) : Nat → List Ref → List Nat → M Row (List (Option Nat))
  | i, r :: rest, chunkLen :: inputLens => do
    modify fun s => s.update r fun request =>
      { request with prefillOffset := request.prefillOffset + chunkLen }
    let result ← sampleComplete logits i r
    let results ← advanceRows logits (i + 1) rest inputLens
    pure (result :: results)
  | _, _, _ => pure []

/-- Process one prefill chunk per request. Returns the first sampled token where the full prompt
has been cached. -/
def prefill (requests : List Ref) : M Row (List (Option Nat)) := do
  forM requests (prepareSlot chain)
  let s ← get
  let tokenLists := requests.map fun r => chunkTokens (s.requests r)
  let (tokenIds, inputLens) ←
    Exec.ofExcept (batchTokenIds tokenLists model.config.padTokenId)
  let cacheBatchIndices ← Exec.ofExcept (requests.mapM fun r => batchIdx (s.requests r))
  let logits ← onCache (model.call tokenIds (some inputLens) cacheBatchIndices)
  advanceRows logits 0 requests inputLens

/-- `[request.output_token_ids[-1]]`. -/
def lastToken (request : InferenceRequest Nat) : Except PyError (List Nat) :=
  match request.outputTokenIds.getLast? with
  | none => .error (.indexError "list index out of range")
  | some t => .ok [t]

def decode (requests : List Ref) : M Row (List Nat) := do
  let s ← get
  let tokens ← Exec.ofExcept (requests.mapM fun r => lastToken (s.requests r))
  let cacheBatchIndices ← Exec.ofExcept (requests.mapM fun r => batchIdx (s.requests r))
  let logits ← onCache (model.call tokens none cacheBatchIndices)
  Exec.ofExcept ((List.range requests.length).mapM (sampleRow logits))

end ModelRunner

end Nifre
