import Nifre.Inference.BlockTable
import Nifre.Inference.PrefixCache
import Nifre.Lib.Scatter
import Mathlib.Algebra.BigOperators.Group.Finset.Basic
import Mathlib.Algebra.Order.Group.Multiset

/-!
# The paged key/value cache

Physical storage is a pool of blocks per layer. A slot's `BlockTable` says in which block each
of its positions lives, and `PrefixCache` keeps blocks of completed prompts alive.

A row is the `(n_heads, head_dim)` slice of one token. The storage of a layer is a function of
the physical block and the offset in it; what a fresh tensor holds is a parameter.
-/

namespace Nifre

structure PagedKVCache (Tok Row : Type) where
  numLayers : Nat
  maxSeqLen : Nat
  blockSize : Nat
  batchSize : Nat
  numBlocks : Nat
  pos : Nat → Nat
  k : Nat → Int × Nat → Row
  v : Nat → Int × Nat → Row
  allocator : BlockAllocator
  tables : Nat → List Int
  prefixCache : Option (PrefixCache Tok)

namespace PagedKVCache

/-- The arguments of `__init__` that the cache's methods read. -/
structure Config where
  numLayers : Nat
  maxSeqLen : Nat
  blockSize : Nat
  enablePrefixCache : Bool
  prefixCacheMaxEntries : Nat

variable {Tok Row : Type} [DecidableEq Tok]

abbrev M (Tok Row : Type) := EStateM PyError (PagedKVCache Tok Row)

/-- `(max_seq_len + block_size - 1) // block_size`. -/
def blocksPerSlot (maxSeqLen blockSize : Nat) : Nat := BlockTable.blocksNeeded blockSize maxSeqLen

/-- `__init__` and `init_batch`; `emptyK` and `emptyV` are the contents of the new tensors. -/
def initBatch (cfg : Config) (emptyK emptyV : Nat → Int × Nat → Row) (batchSize : Nat) :
    Except PyError (PagedKVCache Tok Row) := do
  if cfg.blockSize = 0 then
    throw (.valueError s!"block_size must be positive, got {cfg.blockSize}")
  let numBlocks := blocksPerSlot cfg.maxSeqLen cfg.blockSize * batchSize
  let allocator ← BlockAllocator.new numBlocks
  let prefixCache ← if cfg.enablePrefixCache
    then some <$> PrefixCache.new cfg.blockSize cfg.prefixCacheMaxEntries
    else pure none
  pure
    { numLayers := cfg.numLayers
      maxSeqLen := cfg.maxSeqLen
      blockSize := cfg.blockSize
      batchSize := batchSize
      numBlocks := numBlocks
      pos := fun _ => 0
      k := emptyK
      v := emptyV
      allocator := allocator
      tables := fun _ => []
      prefixCache := prefixCache }

/-! ## Methods -/

/-- The slot that `self.block_tables[batch_idx]` and `self.pos[batch_idx]` address. -/
def slotOf (batchIdx : Int) : M Tok Row Nat := do
  let c ← get
  match pyIndex c.batchSize batchIdx with
  | none => throw (.indexError "list index out of range")
  | some b => pure b

def onTable {α : Type} (b : Nat) (m : BlockTable.M α) : M Tok Row α :=
  Exec.within (fun c => ⟨c.tables b, c.allocator⟩)
    (fun t c => { c with
      tables := Function.update c.tables b t.physicalBlocks
      allocator := t.allocator }) m

def onPrefixCache {α : Type} (p : PrefixCache Tok) (m : PrefixCache.M Tok α) : M Tok Row α :=
  Exec.within (fun c => ⟨p, c.allocator⟩)
    (fun s c => { c with prefixCache := some s.cache, allocator := s.allocator }) m

variable (chain : Int → List Tok → Int)

/-- Load a cached prefix into a slot. Returns the number of tokens restored. -/
def tryLoadPrefix (batchIdx : Int) (tokenIds : List Tok) : M Tok Row Nat := do
  let c ← get
  match c.prefixCache with
  | none => pure 0
  | some p =>
    let ((numTokens, physicalBlocks), p') := p.lookup chain tokenIds
    set { c with prefixCache := some p' }
    if numTokens = 0 then
      pure 0
    else
      let b ← slotOf batchIdx
      onTable b (BlockTable.importBlocks physicalBlocks)
      modify fun c => { c with pos := Function.update c.pos b numTokens }
      pure numTokens

/-- Store a completed prompt prefix in the shared cache. -/
def registerPrefix (batchIdx : Int) (tokenIds : List Tok) : M Tok Row Unit := do
  let c ← get
  match c.prefixCache with
  | none => pure ()
  | some p =>
    let b ← slotOf batchIdx
    let c ← get
    onPrefixCache p (PrefixCache.insert chain tokenIds (c.tables b))

/-- The write loop of `append`: the rows go to the positions `p, p+1, ..` of slot `b`. -/
def writeRows (b : Nat) (layerId : Int) : Nat → List Row → List Row → M Tok Row Unit
  | _, [], _ => pure ()
  | p, key :: keys, values => do
    let c ← get
    match BlockTable.resolve (c.tables b) c.blockSize p, pyIndex c.numLayers layerId with
    | .error e, _ => throw e
    | .ok _, none => throw (.indexError "list index out of range")
    | .ok at_, some l =>
      modify fun c => { c with k := Function.update c.k l (Function.update (c.k l) at_ key) }
      match values with
      | [] => throw (.indexError "index out of range")
      | value :: values =>
        modify fun c => { c with v := Function.update c.v l (Function.update (c.v l) at_ value) }
        writeRows b layerId (p + 1) keys values

def append (batchIdx layerId : Int) (key value : List Row) : M Tok Row Unit := do
  let b ← slotOf batchIdx
  let c ← get
  let pos := c.pos b
  let n := key.length
  if c.maxSeqLen < pos + n then
    throw .assertionError
  else
    onTable b (BlockTable.ensureCapacity c.blockSize (pos + n : Nat))
    writeRows b layerId pos key value
    if layerId = (c.numLayers : Int) - 1 then
      modify fun c => { c with pos := Function.update c.pos b (c.pos b + n) }

/-- The rows of the first `remaining` positions, block by block. -/
def takeBlocks (mem : Int × Nat → Row) (blockSize : Nat) : List Int → Nat → List Row
  | [], _ => []
  | physicalBlockId :: rest, remaining =>
    if remaining = 0 then []
    else
      let take := min remaining blockSize
      (List.range take).map (fun offset => mem (physicalBlockId, offset))
        ++ takeBlocks mem blockSize rest (remaining - take)

def get (batchIdx layerId : Int) : M Tok Row (List Row × List Row) := do
  let b ← slotOf batchIdx
  let c ← MonadState.get
  if c.pos b = 0 then
    pure ([], [])
  else
    match c.tables b, pyIndex c.numLayers layerId with
    | [], _ => throw (.runtimeError "torch.cat(): expected a non-empty list of Tensors")
    | _ :: _, none => throw (.indexError "list index out of range")
    | physicalBlocks, some l =>
      pure (takeBlocks (c.k l) c.blockSize physicalBlocks (c.pos b),
        takeBlocks (c.v l) c.blockSize physicalBlocks (c.pos b))

def length (batchIdx : Int) : M Tok Row Nat := do
  let b ← slotOf batchIdx
  let c ← MonadState.get
  pure (c.pos b)

def lengths (c : PagedKVCache Tok Row) : List Nat := (List.range c.batchSize).map c.pos

/-- Free a slot's blocks and reset its write cursor. -/
def resetSlot (batchIdx : Int) : M Tok Row Unit := do
  let b ← slotOf batchIdx
  onTable b BlockTable.clear
  modify fun c => { c with pos := Function.update c.pos b 0 }

def allocatedBlocks (c : PagedKVCache Tok Row) : Nat := c.allocator.allocatedCount

end PagedKVCache

end Nifre
