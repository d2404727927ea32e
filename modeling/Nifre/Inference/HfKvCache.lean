import Nifre.Lib.ChainedMap
import Nifre.Lib.Exec
import Nifre.Py
import Mathlib.Algebra.GroupWithZero.Nat

/-!
# The key/value cache for Hugging Face models

A slot holds the `past_key_values` of its sequence. The prefix cache stores, for each full block
of a registered prompt, that block's slice of every layer, under the chained hash of the prompt.

`past_key_values` is its list of layers, each with one row of keys and one of values per token;
the flavours that `_past_layers` tells apart are one type here.
-/

namespace Nifre

open Digest ChainedMap

/-- The keys and values of one layer, along the sequence dimension. -/
structure LayerPast (Row : Type) where
  keys : List Row
  values : List Row
  deriving DecidableEq

abbrev Past (Row : Type) := List (LayerPast Row)

/-- `past_key_values_length`; a `DynamicCache` without layers has length 0. -/
def pastKeyValuesLength {Row : Type} : Option (Past Row) → Nat
  | none => 0
  | some [] => 0
  | some (layer :: _) => layer.keys.length

structure BlockPrefixCache (Tok Row : Type) where
  blockSize : Nat
  maxEntries : Nat
  entries : OrderedDict (Int × List Tok) (Past Row)
  lookups : Nat
  hits : Nat
  misses : Nat
  tokensReused : Nat
  memoryBytes : Int
  /-- The bytes of one token in a tensor of keys or of values. -/
  rowBytes : Nat

namespace BlockPrefixCache

variable {Tok Row : Type} [DecidableEq Tok]

abbrev M (Tok Row : Type) := EStateM PyError (BlockPrefixCache Tok Row)

def rootHash : Int := 0

/-- `__init__`. -/
def new (blockSize maxEntries rowBytes : Nat) : BlockPrefixCache Tok Row where
  blockSize := blockSize
  maxEntries := maxEntries
  entries := OrderedDict.empty
  lookups := 0
  hits := 0
  misses := 0
  tokensReused := 0
  memoryBytes := 0
  rowBytes := rowBytes

/-- The sum of `_tensor_bytes` over the slices of a block. -/
def blockBytes (p : BlockPrefixCache Tok Row) (block : Past Row) : Nat :=
  (block.map fun layer => p.rowBytes * layer.keys.length + p.rowBytes * layer.values.length).sum

variable (chain : Int → List Tok → Int)

/-! ## insert -/

def evictOldest : M Tok Row Unit := do
  let p ← get
  match p.entries.popFirst? with
  | none => throw (.keyError "dictionary is empty")
  | some ((_, block), rest) =>
    set { p with entries := rest, memoryBytes := p.memoryBytes - p.blockBytes block }

/-- `while len(self.entries) >= self.max_entries: self._evict_oldest()`. A round drops an entry or
raises, so one more round than there are entries is enough. -/
def evictWhileFull : Nat → M Tok Row Unit
  | 0 => pure ()
  | rounds + 1 => do
    let p ← get
    if p.maxEntries ≤ p.entries.size then
      evictOldest
      evictWhileFull rounds

/-- `[:, :, start:stop, :]` of every layer. -/
def slices (layers : Past Row) (start stop : Nat) : Past Row :=
  layers.map fun layer =>
    { keys := (layer.keys.take stop).drop start, values := (layer.values.take stop).drop start }

/-- The body of the `for` loop of `insert` for block `blockIdx`. -/
def insertRound (layers : Past Row) (key : Int × List Tok) (blockIdx : Nat) : M Tok Row Unit := do
  let p ← get
  if p.entries.contains key = false then
    evictWhileFull (p.entries.size + 1)
    let p ← get
    let start := blockIdx * p.blockSize
    let blockSlices := slices layers start (start + p.blockSize)
    set { p with
      entries := p.entries.insert key blockSlices
      memoryBytes := p.memoryBytes + p.blockBytes blockSlices }
  let p ← get
  set { p with entries := p.entries.moveToEnd key }

/-- The `for` loop of `insert` from block `blockIdx` with the chain hash `parentHash` on. -/
def insertLoop (layers : Past Row) : List (List Tok) → Nat → Int → M Tok Row Unit
  | [], _, _ => pure ()
  | blockTokens :: rest, blockIdx, parentHash => do
    insertRound layers (parentHash, blockTokens) blockIdx
    insertLoop layers rest (blockIdx + 1) (chain parentHash blockTokens)

def insert (tokenIds : List Tok) (layers : Past Row) (cachedLen : Nat) : M Tok Row Unit := do
  let p ← get
  if p.blockSize = 0 then
    throw .zeroDivisionError
  else
    let numFullBlocks := min tokenIds.length cachedLen / p.blockSize
    insertLoop chain layers ((fullBlocks p.blockSize tokenIds).take numFullBlocks) 0 rootHash

/-! ## lookup -/

/-- The `for` loop of `lookup` from the chain hash `parentHash` on. -/
def lookupLoop : List (List Tok) → Int → OrderedDict (Int × List Tok) (Past Row) →
    List (Past Row) → List (Past Row) × OrderedDict (Int × List Tok) (Past Row)
  | [], _, entries, matched => (matched, entries)
  | blockTokens :: rest, parentHash, entries, matched =>
    match entries.find? (parentHash, blockTokens) with
    | none => (matched, entries)
    | some node =>
      lookupLoop rest (chain parentHash blockTokens) (entries.moveToEnd (parentHash, blockTokens))
        (matched ++ [node])

/-- `block[layer_idx]`. -/
def layerAt (layerIdx : Nat) (block : Past Row) : Except PyError (LayerPast Row) :=
  match block[layerIdx]? with
  | none => .error (.indexError "list index out of range")
  | some layer => .ok layer

/-- `torch.cat` of layer `layerIdx` over the matched blocks. -/
def catLayer (matched : List (Past Row)) (layerIdx : Nat) : Except PyError (LayerPast Row) := do
  let layers ← matched.mapM (layerAt layerIdx)
  pure { keys := layers.flatMap (·.keys), values := layers.flatMap (·.values) }

/-- The concatenated layers of the longest cached prefix. -/
def lookup (tokenIds : List Tok) : M Tok Row (Option (Past Row)) := do
  let p ← get
  if p.blockSize = 0 then
    throw .zeroDivisionError
  else
    -- leave at least one token for the prefill forward pass
    let maxFullBlocks := (tokenIds.length - 1) / p.blockSize
    let (matched, entries) :=
      lookupLoop chain ((fullBlocks p.blockSize tokenIds).take maxFullBlocks) rootHash p.entries []
    let p := { p with entries := entries, lookups := p.lookups + 1 }
    match matched with
    | [] =>
      set { p with misses := p.misses + 1 }
      pure none
    | first :: _ =>
      set { p with
        hits := p.hits + 1
        tokensReused := p.tokensReused + matched.length * p.blockSize }
      match (List.range first.length).mapM (catLayer matched) with
      | .error e => throw e
      | .ok layers => pure (some layers)

def clear : M Tok Row Unit :=
  modify fun p => { p with entries := OrderedDict.empty, memoryBytes := 0 }

/-- A call of a method. -/
inductive Op (Tok Row : Type) where
  | insert (tokenIds : List Tok) (layers : Past Row) (cachedLen : Nat)
  | lookup (tokenIds : List Tok)
  | clear

def perform : Op Tok Row → M Tok Row (Option (Past Row))
  | .insert tokenIds layers cachedLen => do
    BlockPrefixCache.insert chain tokenIds layers cachedLen
    pure none
  | .lookup tokenIds => BlockPrefixCache.lookup chain tokenIds
  | .clear => do
    BlockPrefixCache.clear
    pure none

end BlockPrefixCache

/-! ## The cache of an engine -/

structure HFKVCache (Tok Row : Type) where
  maxSeqLen : Nat
  batchSize : Nat
  pos : Nat → Nat
  past : Nat → Option (Past Row)
  prefixCache : Option (BlockPrefixCache Tok Row)

namespace HFKVCache

variable {Tok Row : Type} [DecidableEq Tok]

abbrev M (Tok Row : Type) := EStateM PyError (HFKVCache Tok Row)

/-- `__init__`. -/
def new (maxSeqLen : Nat) (enablePrefixCache : Bool) (blockSize prefixCacheMaxEntries : Nat)
    (rowBytes : Nat) : HFKVCache Tok Row where
  maxSeqLen := maxSeqLen
  batchSize := 0
  pos := fun _ => 0
  past := fun _ => none
  prefixCache :=
    if enablePrefixCache then some (BlockPrefixCache.new blockSize prefixCacheMaxEntries rowBytes)
    else none

def initBatch (c : HFKVCache Tok Row) (batchSize : Nat) : HFKVCache Tok Row :=
  { c with batchSize := batchSize, pos := fun _ => 0, past := fun _ => none }

def slotOf (batchIdx : Int) : M Tok Row Nat := do
  let c ← get
  match pyIndex c.batchSize batchIdx with
  | none => throw (.indexError "list index out of range")
  | some b => pure b

def getPast (batchIdx : Int) : M Tok Row (Option (Past Row)) := do
  let b ← slotOf batchIdx
  let c ← get
  pure (c.past b)

/-- Assign to the slot's `past_key_values` and write cursor. -/
def store (c : HFKVCache Tok Row) (b : Nat) (past : Option (Past Row)) (length : Nat) :
    HFKVCache Tok Row :=
  { c with past := Function.update c.past b past, pos := Function.update c.pos b length }

def setPast (batchIdx : Int) (past : Option (Past Row)) : M Tok Row Unit := do
  let length := pastKeyValuesLength past
  let c ← get
  if c.maxSeqLen < length then
    throw (.valueError s!"sequence length {length} exceeds max_seq_len {c.maxSeqLen}")
  else
    let b ← slotOf batchIdx
    modify fun c => c.store b past length

def length (batchIdx : Int) : M Tok Row Nat := do
  let b ← slotOf batchIdx
  let c ← get
  pure (c.pos b)

def lengths (c : HFKVCache Tok Row) : List Nat := (List.range c.batchSize).map c.pos

def resetSlot (batchIdx : Int) : M Tok Row Unit := do
  let b ← slotOf batchIdx
  modify fun c => c.store b none 0

variable (chain : Int → List Tok → Int)

def onPrefixCache {α : Type} (p : BlockPrefixCache Tok Row) (m : BlockPrefixCache.M Tok Row α) :
    M Tok Row α :=
  Exec.within (fun _ => p) (fun p c => { c with prefixCache := some p }) m

def registerPrefix (batchIdx : Int) (tokenIds : List Tok) : M Tok Row Unit := do
  let c ← get
  match c.prefixCache with
  | none => pure ()
  | some p =>
    let b ← slotOf batchIdx
    match c.past b with
    | none => pure ()
    | some past =>
      let cachedLen := pastKeyValuesLength (some past)
      onPrefixCache p (BlockPrefixCache.insert chain tokenIds past cachedLen)

def tryLoadPrefix (batchIdx : Int) (tokenIds : List Tok) : M Tok Row Nat := do
  let c ← get
  match c.prefixCache with
  | none => pure 0
  | some p =>
    match ← onPrefixCache p (BlockPrefixCache.lookup chain tokenIds) with
    | none => pure 0
    | some [] => throw (.indexError "list index out of range")
    | some (layer :: layers) =>
      let matchedLen := layer.keys.length
      let b ← slotOf batchIdx
      modify fun c => c.store b (some (layer :: layers)) matchedLen
      pure matchedLen

end HFKVCache

end Nifre
