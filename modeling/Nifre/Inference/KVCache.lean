import Nifre.Py
import Mathlib.Logic.Function.Basic

/-!
# The dense key/value cache

One pre-allocated tensor per layer, a row of it for each slot, and a write cursor per slot. As
in the paged cache a row is the slice of one token, and what a fresh tensor holds is a parameter.
-/

namespace Nifre

structure KVCache (Row : Type) where
  numLayers : Nat
  maxSeqLen : Nat
  batchSize : Nat
  pos : Nat → Nat
  k : Nat → Nat × Nat → Row
  v : Nat → Nat × Nat → Row

namespace KVCache

variable {Row : Type}

abbrev M (Row : Type) := EStateM PyError (KVCache Row)

/-- `__init__` and `init_batch`. -/
def initBatch (numLayers maxSeqLen : Nat) (emptyK emptyV : Nat → Nat × Nat → Row)
    (batchSize : Nat) : KVCache Row where
  numLayers := numLayers
  maxSeqLen := maxSeqLen
  batchSize := batchSize
  pos := fun _ => 0
  k := emptyK
  v := emptyV

def slotOf (batchIdx : Int) : M Row Nat := do
  let c ← get
  match pyIndex c.batchSize batchIdx with
  | none => throw (.indexError "index out of range")
  | some b => pure b

def layerOf (layerId : Int) : M Row Nat := do
  let c ← get
  match pyIndex c.numLayers layerId with
  | none => throw (.indexError "list index out of range")
  | some l => pure l

/-- `t[batch_idx, pos : pos + n] = rows`; a single row is broadcast. -/
def assign (t : Nat × Nat → Row) (b pos n : Nat) (rows : List Row) :
    Except PyError (Nat × Nat → Row) :=
  let store (rows : List Row) : Nat × Nat → Row := fun at_ =>
    if at_.1 = b ∧ pos ≤ at_.2 then (rows[at_.2 - pos]?).getD (t at_) else t at_
  match rows with
  | [row] => .ok (store (List.replicate n row))
  | _ => if rows.length = n then .ok (store rows)
    else .error (.runtimeError "shape mismatch: value tensor cannot be broadcast")

def append (batchIdx layerId : Int) (key value : List Row) : M Row Unit := do
  let b ← slotOf batchIdx
  let c ← get
  let pos := c.pos b
  let n := key.length
  if c.maxSeqLen < pos + n then
    throw .assertionError
  else
    let l ← layerOf layerId
    match assign (c.k l) b pos n key with
    | .error e => throw e
    | .ok t => modify fun c => { c with k := Function.update c.k l t }
    match assign (c.v l) b pos n value with
    | .error e => throw e
    | .ok t => modify fun c => { c with v := Function.update c.v l t }
    if layerId = (c.numLayers : Int) - 1 then
      modify fun c => { c with pos := Function.update c.pos b (c.pos b + n) }

def get (batchIdx layerId : Int) : M Row (List Row × List Row) := do
  let b ← slotOf batchIdx
  let l ← layerOf layerId
  let c ← MonadState.get
  pure ((List.range (c.pos b)).map fun p => c.k l (b, p),
    (List.range (c.pos b)).map fun p => c.v l (b, p))

def length (batchIdx : Int) : M Row Nat := do
  let b ← slotOf batchIdx
  let c ← MonadState.get
  pure (c.pos b)

def lengths (c : KVCache Row) : List Nat := (List.range c.batchSize).map c.pos

/-- Clear the write cursor when reusing a cache row for a new request. -/
def resetSlot (batchIdx : Int) : M Row Unit := do
  let b ← slotOf batchIdx
  modify fun c => { c with pos := Function.update c.pos b 0 }

end KVCache

end Nifre
