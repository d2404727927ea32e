import Mathlib.Data.List.Basic
import Mathlib.Logic.Function.Basic

/-!
# What a key/value cache is for

A store keeps, for every slot and layer, the sequence of rows appended there since the slot was
last reset. Rows arrive in rounds: the same number of rows for each layer, from layer `0` to the
last one. The readable length of a slot grows when the last layer of a round is in.

A row is a pair of a key and a value.
-/

namespace Nifre

structure KVStore (Row : Type) where
  len : Nat → Nat
  rows : Nat → Nat → List (Row × Row)

namespace KVStore

variable {Row : Type}

def empty : KVStore Row := ⟨fun _ => 0, fun _ _ => []⟩

/-- Append rows to one layer of a slot. The last layer makes the round readable. -/
def append (numLayers : Nat) (s : KVStore Row) (slot layer : Nat) (kvs : List (Row × Row)) :
    KVStore Row where
  len := if layer + 1 = numLayers then Function.update s.len slot (s.len slot + kvs.length)
    else s.len
  rows := Function.update s.rows slot
    (Function.update (s.rows slot) layer (s.rows slot layer ++ kvs))

def reset (s : KVStore Row) (slot : Nat) : KVStore Row where
  len := Function.update s.len slot 0
  rows := Function.update s.rows slot fun _ => []

/-- The rows of one layer that are readable. -/
def get (s : KVStore Row) (slot layer : Nat) : List (Row × Row) :=
  (s.rows slot layer).take (s.len slot)

/-- The next append of a slot's round: the layers before `layer` have their `n` rows, the others
do not, and the rows fit. -/
structure CanAppend (numLayers maxSeqLen : Nat) (s : KVStore Row) (slot layer n : Nat) : Prop where
  layer_lt : layer < numLayers
  before : ∀ l < layer, (s.rows slot l).length = s.len slot + n
  after : ∀ l < numLayers, layer ≤ l → (s.rows slot l).length = s.len slot
  fits : s.len slot + n ≤ maxSeqLen

instance {numLayers maxSeqLen : Nat} {s : KVStore Row} {slot layer n : Nat} :
    Decidable (CanAppend numLayers maxSeqLen s slot layer n) :=
  decidable_of_iff (layer < numLayers ∧ (∀ l < layer, (s.rows slot l).length = s.len slot + n) ∧
      (∀ l < numLayers, layer ≤ l → (s.rows slot l).length = s.len slot) ∧
      s.len slot + n ≤ maxSeqLen)
    ⟨fun ⟨h1, h2, h3, h4⟩ => ⟨h1, h2, h3, h4⟩, fun ⟨h1, h2, h3, h4⟩ => ⟨h1, h2, h3, h4⟩⟩

/-- No layer is shorter than the readable length. -/
def Covered (numLayers : Nat) (s : KVStore Row) : Prop :=
  ∀ slot l, l < numLayers → s.len slot ≤ (s.rows slot l).length

@[simp] theorem append_rows_self (numLayers : Nat) (s : KVStore Row) (slot layer : Nat)
    (kvs : List (Row × Row)) :
    (s.append numLayers slot layer kvs).rows slot layer = s.rows slot layer ++ kvs := by
  simp [append]

theorem append_rows_of_ne_layer (numLayers : Nat) (s : KVStore Row) (slot : Nat) {layer l : Nat}
    (kvs : List (Row × Row)) (h : l ≠ layer) :
    (s.append numLayers slot layer kvs).rows slot l = s.rows slot l := by
  simp [append, h]

theorem append_rows_of_ne_slot (numLayers : Nat) (s : KVStore Row) {slot b : Nat} (layer : Nat)
    (kvs : List (Row × Row)) (h : b ≠ slot) :
    (s.append numLayers slot layer kvs).rows b = s.rows b := by
  simp [append, h]

theorem append_len_of_ne (numLayers : Nat) (s : KVStore Row) {slot b : Nat} (layer : Nat)
    (kvs : List (Row × Row)) (h : b ≠ slot) :
    (s.append numLayers slot layer kvs).len b = s.len b := by
  unfold append
  split <;> simp [h]

theorem append_len_self (numLayers : Nat) (s : KVStore Row) (slot layer : Nat)
    (kvs : List (Row × Row)) : (s.append numLayers slot layer kvs).len slot
      = if layer + 1 = numLayers then s.len slot + kvs.length else s.len slot := by
  unfold append
  split <;> simp

/-- An append that is next keeps every layer long enough. -/
theorem Covered.append {numLayers maxSeqLen : Nat} {s : KVStore Row} (h : Covered numLayers s)
    {slot layer : Nat} {kvs : List (Row × Row)}
    (hcan : CanAppend numLayers maxSeqLen s slot layer kvs.length) :
    Covered numLayers (s.append numLayers slot layer kvs) := by
  intro b l hl
  by_cases hb : b = slot
  · subst hb
    rw [append_len_self]
    by_cases hll : l = layer
    · subst hll
      rw [append_rows_self, List.length_append]
      have := h b l hl
      split <;> omega
    · rw [append_rows_of_ne_layer numLayers s b kvs hll]
      have hcov := h b l hl
      split
      · next hlast =>
        have := hcan.before l (by omega)
        omega
      · exact hcov
  · rw [append_len_of_ne numLayers s layer kvs hb, append_rows_of_ne_slot numLayers s layer kvs hb]
    exact h b l hl

theorem Covered.reset {numLayers : Nat} {s : KVStore Row} (h : Covered numLayers s) (slot : Nat) :
    Covered numLayers (s.reset slot) := by
  intro b l hl
  by_cases hb : b = slot
  · subst hb
    simp [KVStore.reset]
  · simp only [KVStore.reset, Function.update_of_ne hb]
    exact h b l hl

/-! ### Rounds over several slots -/

/-- The store in the middle of a round: the first `done b` layers of slot `b` have their new rows,
`n b` each. -/
def withRound (numLayers : Nat) (s : KVStore Row) (new : Nat → Nat → List (Row × Row))
    (n done : Nat → Nat) : KVStore Row where
  len := fun b => if done b = numLayers then s.len b + n b else s.len b
  rows := fun b l => if l < done b then s.rows b l ++ new b l else s.rows b l

theorem withRound_zero {numLayers : Nat} (hpos : 0 < numLayers) (s : KVStore Row)
    (new : Nat → Nat → List (Row × Row)) (n : Nat → Nat) :
    s.withRound numLayers new n (fun _ => 0) = s := by
  unfold withRound
  simp [Nat.ne_of_lt hpos]

/-- **The next append of a round.** -/
theorem append_withRound {numLayers : Nat} {s : KVStore Row} {new : Nat → Nat → List (Row × Row)}
    {n done : Nat → Nat} {b l : Nat} (hdone : done b = l) (hl : l < numLayers)
    (hn : (new b l).length = n b) :
    (s.withRound numLayers new n done).append numLayers b l (new b l)
      = s.withRound numLayers new n (Function.update done b (l + 1)) := by
  unfold withRound append
  congr 1
  · funext b'
    by_cases hb : b' = b
    · subst hb
      have hne : l ≠ numLayers := Nat.ne_of_lt hl
      by_cases hlast : l + 1 = numLayers
      · simp [hlast, hdone, hne, hn]
      · simp [hlast, hdone, hne]
    · by_cases hlast : l + 1 = numLayers <;> simp [hlast, hb]
  · funext b' l'
    by_cases hb : b' = b
    · subst hb
      by_cases hll : l' = l
      · subst hll
        simp [hdone]
      · have hiff : l' < l + 1 ↔ l' < l := by omega
        simp [hll, hdone, hiff]
    · simp [hb]

/-- The append is legal when the slot had no unfinished round before. -/
theorem canAppend_withRound {numLayers maxSeqLen : Nat} {s : KVStore Row}
    {new : Nat → Nat → List (Row × Row)} {n done : Nat → Nat} {b l : Nat} (hdone : done b = l)
    (hl : l < numLayers) (hn : ∀ l < numLayers, (new b l).length = n b)
    (hwhole : ∀ l < numLayers, (s.rows b l).length = s.len b) (hfits : s.len b + n b ≤ maxSeqLen) :
    CanAppend numLayers maxSeqLen (s.withRound numLayers new n done) b l (n b) := by
  have hne : done b ≠ numLayers := by omega
  refine ⟨hl, fun l' hl' => ?_, fun l' hl' hle => ?_, ?_⟩
  · simp only [withRound, if_neg hne, if_pos (show l' < done b by omega), List.length_append,
      hn l' (by omega), hwhole l' (by omega)]
  · simp only [withRound, if_neg hne, if_neg (show ¬l' < done b by omega), hwhole l' hl']
  · simp only [withRound, if_neg hne]
    exact hfits

end KVStore

/-! ## Rows that depend on the tokens up to them -/

section

variable {Tok Row : Type}

/-- The rows of a token list, when a token's row is a function of the tokens up to it. -/
def prefixRows (f : List Tok → Row) (toks : List Tok) : List Row :=
  (List.range toks.length).map fun p => f (toks.take (p + 1))

/-- The rows of the tokens `chunk` after the tokens `stored`. -/
def chunkRows (f : List Tok → Row) (stored chunk : List Tok) : List Row :=
  (List.range chunk.length).map fun j => f (stored ++ chunk.take (j + 1))

@[simp] theorem length_prefixRows (f : List Tok → Row) (toks : List Tok) :
    (prefixRows f toks).length = toks.length := by
  simp [prefixRows]

@[simp] theorem length_chunkRows (f : List Tok → Row) (stored chunk : List Tok) :
    (chunkRows f stored chunk).length = chunk.length := by
  simp [chunkRows]

theorem getElem_prefixRows (f : List Tok → Row) (toks : List Tok) (p : Nat)
    (h : p < (prefixRows f toks).length) : (prefixRows f toks)[p] = f (toks.take (p + 1)) := by
  simp [prefixRows]

/-- **A chunk's rows follow those of the tokens before it.** -/
theorem prefixRows_append (f : List Tok → Row) (stored chunk : List Tok) :
    prefixRows f (stored ++ chunk) = prefixRows f stored ++ chunkRows f stored chunk := by
  refine List.ext_getElem (by simp) fun p hp hp' => ?_
  rw [getElem_prefixRows]
  by_cases hlt : p < stored.length
  · rw [List.getElem_append_left (by simpa using hlt), getElem_prefixRows,
      List.take_append_of_le_length hlt]
  · have hsub : p + 1 - stored.length = p - stored.length + 1 := by omega
    rw [List.getElem_append_right (by simpa using hlt)]
    simp [chunkRows, List.take_append, hsub, List.take_of_length_le (show stored.length ≤ p + 1 by omega)]

theorem take_prefixRows (f : List Tok → Row) (toks : List Tok) (n : Nat) :
    (prefixRows f toks).take n = prefixRows f (toks.take n) := by
  refine List.ext_getElem (by simp) fun p hp hp' => ?_
  have hpn : p + 1 ≤ n := by simp at hp; omega
  rw [List.getElem_take, getElem_prefixRows, getElem_prefixRows, List.take_take,
    Nat.min_eq_left hpn]

end

end Nifre
