import Nifre.Inference.ModelInterface

/-!
# Hugging Face models

The adapter between the engine and a causal language model of the transformers library. That
model is a parameter: from the input ids and the past it computes the logits at the input positions
and the past after them, or it raises. The past that it is handed is an object that it extends in
place, so the slot that holds the object sees the change even if the call raises.
-/

namespace Nifre

structure HfCausalLM (Row Score : Type) where
  config : ModelConfig
  /-- `prefix_cache_max_entries` of the caches it makes. -/
  prefixCacheMaxEntries : Nat := 1024
  /-- The bytes of one token in a tensor of keys or of values. -/
  rowBytes : Nat
  /-- `self._model(input_ids, past_key_values=None)`. -/
  scratch : List Nat → Except PyError (List (List Score) × Past Row)
  /-- `self._model(input_ids, past_key_values=past)`; the state is what is left in `past`. -/
  resume : List Nat → EStateM PyError (Past Row) (List (List Score) × Past Row)

namespace HfCausalLM

variable {Row Score : Type} (lm : HfCausalLM Row Score)

def makeKvCache (enablePrefixCache : Bool) : HFKVCache Nat Row :=
  HFKVCache.new lm.config.maxSeqLen enablePrefixCache lm.config.blockSize lm.prefixCacheMaxEntries
    lm.rowBytes

/-- The real tokens of a row: its last `input_len` ones, where that is given. -/
def inputIds (tokenIds : List Nat) : Option Nat → List Nat
  | some n => tokenIds.drop (tokenIds.length - n)
  | none => tokenIds

/-- The call of the model with the past that a slot holds. -/
def outputs (ids : List Nat) (slot : Nat) :
    Option (Past Row) → HFKVCache.M Nat Row (List (List Score) × Past Row)
  | none => Exec.ofExcept (lm.scratch ids)
  | some past => Exec.within (fun _ => past)
    (fun past c => { c with past := Function.update c.past slot (some past) }) (lm.resume ids)

/-- `_forward_row`. -/
def forwardRow (tokenIds : List Nat) (slot : Nat) (inputLen : Option Nat) :
    HFKVCache.M Nat Row (List (List Score)) := do
  let past ← HFKVCache.getPast slot
  let outputs ← lm.outputs (inputIds tokenIds inputLen) slot past
  HFKVCache.setPast slot (some outputs.2)
  -- only the last position is ever sampled
  pure (lastSlice 1 outputs.1)

/-- `torch.cat(logits_rows, dim=0)`. -/
def catRows : Logits Score → Except PyError (Logits Score)
  | [] => .error (.runtimeError "torch.cat(): expected a non-empty list of Tensors")
  | row :: rows =>
    if ∀ r ∈ rows, r.map List.length = row.map List.length then .ok (row :: rows)
    else .error (.runtimeError "Sizes of tensors must match except in dimension 0")

/-- The rows of a batch, each with its slot and its real length. -/
def batchRows (tokenIds : List (List Nat)) (inputLens : Option (List Nat))
    (cacheBatchIndices : List Nat) : List (List Nat × Nat × Option Nat) :=
  tokenIds.zip (cacheBatchIndices.zip (match inputLens with
    | some lens => lens.map some
    | none => List.replicate tokenIds.length none))

/-- `__call__` with a cache of its own kind. -/
def callOn (tokenIds : List (List Nat)) (inputLens : Option (List Nat))
    (cacheBatchIndices : List Nat) : HFKVCache.M Nat Row (Logits Score) := do
  let logitsRows ← (batchRows tokenIds inputLens cacheBatchIndices).mapM
    fun (row : List Nat × Nat × Option Nat) => lm.forwardRow row.1 row.2.1 row.2.2
  Exec.ofExcept (catRows logitsRows)

def call (tokenIds : List (List Nat)) (inputLens : Option (List Nat))
    (cacheBatchIndices : List Nat) : KVCacheType.M Row (Logits Score)
  | .hf c => Exec.embed .hf ((lm.callOn tokenIds inputLens cacheBatchIndices).run c)
  | c => .error (.attributeError "object has no attribute 'get_past'") c

/-- The model as the engine sees it. Its caches are its own, so no empty tensor is needed. -/
def inferenceModel [Inhabited Row] : InferenceModel Row Score where
  config := lm.config
  makeKvCache := some lm.makeKvCache
  supportsPagedKvCache := false
  supportsPrefixCache := true
  emptyDense := fun _ _ => default
  emptyPaged := fun _ _ => default
  call := lm.call

end HfCausalLM

end Nifre
