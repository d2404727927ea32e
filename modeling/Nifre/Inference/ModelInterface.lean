import Nifre.Inference.DataModel
import Nifre.Inference.KVCache
import Nifre.Inference.PagedKVCache
import Nifre.Inference.HfKvCache

/-!
# The model and cache interfaces

The engine works with any of the three caches, and with any causal language model that reads and
writes one of them. Token ids are natural numbers, and `chain` is Python's hash of a tuple.
-/

namespace Nifre

inductive KVCacheType (Row : Type) where
  | dense (c : KVCache Row)
  | paged (c : PagedKVCache Nat Row)
  | hf (c : HFKVCache Nat Row)

namespace KVCacheType

variable {Row : Type}

abbrev M (Row : Type) := EStateM PyError (KVCacheType Row)

def batchSize : KVCacheType Row → Nat
  | dense c => c.batchSize
  | paged c => c.batchSize
  | hf c => c.batchSize

/-- `hasattr(cache, "try_load_prefix")`, which is also `hasattr(cache, "register_prefix")`. -/
def hasPrefix : KVCacheType Row → Bool
  | dense _ => false
  | paged _ => true
  | hf _ => true

def resetSlot (batchIdx : Int) : M Row Unit
  | dense c => Exec.embed dense ((KVCache.resetSlot batchIdx).run c)
  | paged c => Exec.embed paged ((PagedKVCache.resetSlot batchIdx).run c)
  | hf c => Exec.embed hf ((HFKVCache.resetSlot batchIdx).run c)

/-- The write cursor of a slot, `pos[batch_idx]`. -/
def length (batchIdx : Int) : M Row Nat
  | dense c => Exec.embed dense ((KVCache.length batchIdx).run c)
  | paged c => Exec.embed paged ((PagedKVCache.length batchIdx).run c)
  | hf c => Exec.embed hf ((HFKVCache.length batchIdx).run c)

def get (batchIdx layerId : Int) : M Row (List Row × List Row)
  | dense c => Exec.embed dense ((KVCache.get batchIdx layerId).run c)
  | paged c => Exec.embed paged ((PagedKVCache.get batchIdx layerId).run c)
  | hf c => .error (.attributeError "'HFKVCache' object has no attribute 'get'") (hf c)

def append (batchIdx layerId : Int) (key value : List Row) : M Row Unit
  | dense c => Exec.embed dense ((KVCache.append batchIdx layerId key value).run c)
  | paged c => Exec.embed paged ((PagedKVCache.append batchIdx layerId key value).run c)
  | hf c => .error (.attributeError "'HFKVCache' object has no attribute 'append'") (hf c)

variable (chain : Int → List Nat → Int)

def tryLoadPrefix (batchIdx : Int) (tokenIds : List Nat) : M Row Nat
  | dense c => .error (.attributeError "'KVCache' object has no attribute 'try_load_prefix'") (dense c)
  | paged c => Exec.embed paged ((PagedKVCache.tryLoadPrefix chain batchIdx tokenIds).run c)
  | hf c => Exec.embed hf ((HFKVCache.tryLoadPrefix chain batchIdx tokenIds).run c)

def registerPrefix (batchIdx : Int) (tokenIds : List Nat) : M Row Unit
  | dense c => .error (.attributeError "'KVCache' object has no attribute 'register_prefix'") (dense c)
  | paged c => Exec.embed paged ((PagedKVCache.registerPrefix chain batchIdx tokenIds).run c)
  | hf c => Exec.embed hf ((HFKVCache.registerPrefix chain batchIdx tokenIds).run c)

end KVCacheType

/-- The logits of a batch, by row and position. -/
abbrev Logits (Score : Type) := List (List (List Score))

/-- A causal language model the engine can run. -/
structure InferenceModel (Row Score : Type) where
  config : ModelConfig
  /-- `make_kv_cache(device, enable_prefix_cache=..)`, where the model has one. -/
  makeKvCache : Option (Bool → HFKVCache Nat Row)
  supportsPagedKvCache : Bool := true
  supportsPrefixCache : Bool := true
  /-- What the tensors of a new cache of the engine hold. -/
  emptyDense : Nat → Nat × Nat → Row
  emptyPaged : Nat → Int × Nat → Row
  /-- `__call__(token_ids, kv_cache, input_lens, cache_batch_indices)`. -/
  call : (tokenIds : List (List Nat)) → (inputLens : Option (List Nat)) →
    (cacheBatchIndices : List Nat) → KVCacheType.M Row (Logits Score)

end Nifre
