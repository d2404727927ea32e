import Nifre.Inference.KVCache
import Nifre.Spec.KVStore
import Nifre.Lib.Exec
import Mathlib.Data.List.GetD

/-!
# What the dense cache stores

`Stores c s` says that the tensors of `c` hold the rows of the store `s`. Every method is the
store's operation.
-/

namespace Nifre

namespace KVCache

variable {Row : Type}

/-- The tensors hold the store's rows, those of an unfinished round included. -/
structure Stores (c : KVCache Row) (s : KVStore Row) : Prop where
  pos : ∀ b < c.batchSize, c.pos b = s.len b
  rows : ∀ b < c.batchSize, ∀ l < c.numLayers, ∀ p (hp : p < (s.rows b l).length),
    c.k l (b, p) = (s.rows b l)[p].1 ∧ c.v l (b, p) = (s.rows b l)[p].2
  covered : s.Covered c.numLayers

/-- What no method changes. -/
structure SameShape (c c' : KVCache Row) : Prop where
  numLayers : c'.numLayers = c.numLayers
  maxSeqLen : c'.maxSeqLen = c.maxSeqLen
  batchSize : c'.batchSize = c.batchSize

theorem initBatch_stores (numLayers maxSeqLen : Nat) (emptyK emptyV : Nat → Nat × Nat → Row)
    (batchSize : Nat) :
    Stores (initBatch numLayers maxSeqLen emptyK emptyV batchSize) KVStore.empty where
  pos := fun _ _ => rfl
  rows := fun _ _ _ _ _ hp => absurd hp (Nat.not_lt_zero _)
  covered := fun _ _ _ => Nat.le_refl _

theorem slotOf_run {c : KVCache Row} {b : Nat} (h : b < c.batchSize) :
    (slotOf (b : Int)).run c = .ok b c := by
  unfold slotOf
  rw [Exec.run_bind_ok (EStateM.run_get c), pyIndex_natCast h]
  rfl

theorem layerOf_run {c : KVCache Row} {l : Nat} (h : l < c.numLayers) :
    (layerOf (l : Int)).run c = .ok l c := by
  unfold layerOf
  rw [Exec.run_bind_ok (EStateM.run_get c), pyIndex_natCast h]
  rfl

/-- A tensor after the slice `[b, pos : pos + rows.length]` was assigned. -/
def storeAt (t : Nat × Nat → Row) (b pos : Nat) (rows : List Row) : Nat × Nat → Row := fun at_ =>
  if at_.1 = b ∧ pos ≤ at_.2 then (rows[at_.2 - pos]?).getD (t at_) else t at_

theorem assign_length (t : Nat × Nat → Row) (b pos : Nat) (rows : List Row) :
    assign t b pos rows.length rows = .ok (storeAt t b pos rows) := by
  unfold assign
  match rows with
  | [] => rfl
  | [row] => rfl
  | r :: r' :: rest => exact if_pos rfl

theorem storeAt_of_ne {t : Nat × Nat → Row} {b b' pos : Nat} (rows : List Row) (p : Nat)
    (h : b' ≠ b) : storeAt t b pos rows (b', p) = t (b', p) :=
  if_neg fun hc => h hc.1

theorem storeAt_lt {t : Nat × Nat → Row} {b pos p : Nat} (rows : List Row) (h : p < pos) :
    storeAt t b pos rows (b, p) = t (b, p) :=
  if_neg fun hc => absurd hc.2 (Nat.not_le.mpr h)

theorem storeAt_ge {t : Nat × Nat → Row} {b pos p : Nat} {rows : List Row} (h : pos ≤ p)
    (hp : p - pos < rows.length) : storeAt t b pos rows (b, p) = rows[p - pos] := by
  unfold storeAt
  rw [if_pos ⟨rfl, h⟩, List.getElem?_eq_getElem hp]
  rfl

/-- Assigning the next rows of a slot's layer stores the longer sequence. -/
theorem storeAt_append {t : Nat × Nat → Row} {b : Nat} {old : List Row}
    (h : ∀ p (hp : p < old.length), t (b, p) = old[p]) (new : List Row) (p : Nat)
    (hp : p < (old ++ new).length) :
    storeAt t b old.length new (b, p) = (old ++ new)[p] := by
  by_cases hlt : p < old.length
  · rw [storeAt_lt new hlt, List.getElem_append_left hlt]
    exact h p hlt
  · rw [List.length_append] at hp
    rw [storeAt_ge (Nat.le_of_not_lt hlt) (by omega), List.getElem_append_right (by omega)]

/-- The cache after `kvs` were appended to layer `l` of slot `b`. -/
def appended (c : KVCache Row) (b l : Nat) (kvs : List (Row × Row)) : KVCache Row :=
  { c with
    k := Function.update c.k l (storeAt (c.k l) b (c.pos b) (kvs.map Prod.fst))
    v := Function.update c.v l (storeAt (c.v l) b (c.pos b) (kvs.map Prod.snd))
    pos := if l + 1 = c.numLayers then Function.update c.pos b (c.pos b + kvs.length) else c.pos }

/-- **`append` of rows that fit** goes through. -/
theorem append_run {c : KVCache Row} {b l : Nat} (hb : b < c.batchSize) (hl : l < c.numLayers)
    {kvs : List (Row × Row)} (hfit : c.pos b + kvs.length ≤ c.maxSeqLen) :
    (append (b : Int) (l : Int) (kvs.map Prod.fst) (kvs.map Prod.snd)).run c
      = .ok () (c.appended b l kvs) := by
  have hfits : ¬c.maxSeqLen < c.pos b + (kvs.map Prod.fst).length := by
    rw [List.length_map]
    omega
  have hak := assign_length (c.k l) b (c.pos b) (kvs.map Prod.fst)
  have hav := assign_length (c.v l) b (c.pos b) (kvs.map Prod.snd)
  have hn : (kvs.map Prod.snd).length = (kvs.map Prod.fst).length := by simp
  rw [hn] at hav
  have hlast : ((l : Int) = (c.numLayers : Int) - 1) ↔ l + 1 = c.numLayers := by omega
  unfold append
  rw [Exec.run_bind_ok (slotOf_run hb), Exec.run_bind_ok (EStateM.run_get c), if_neg hfits,
    Exec.run_bind_ok (layerOf_run hl), hak]
  simp only
  rw [Exec.run_bind_ok (EStateM.run_modify _ c), hav]
  simp only
  rw [Exec.run_bind_ok (EStateM.run_modify _ _)]
  simp only [hlast, List.length_map, appended]
  split <;> rfl

/-- **`append` is the store's append**, when it is the next one of the slot's round. -/
theorem append_stores {c : KVCache Row} {s : KVStore Row} (h : Stores c s) {b l : Nat}
    (hb : b < c.batchSize) {kvs : List (Row × Row)}
    (hcan : s.CanAppend c.numLayers c.maxSeqLen b l kvs.length) :
    ∃ c', (append (b : Int) (l : Int) (kvs.map Prod.fst) (kvs.map Prod.snd)).run c = .ok () c'
      ∧ Stores c' (s.append c.numLayers b l kvs) ∧ SameShape c c' := by
  have hl := hcan.layer_lt
  have hpos := h.pos b hb
  have hlen : (s.rows b l).length = c.pos b := (hcan.after l hl (Nat.le_refl l)).trans hpos.symm
  have hfits : c.pos b + kvs.length ≤ c.maxSeqLen := by
    have := hcan.fits
    omega
  refine ⟨c.appended b l kvs, append_run hb hl hfits, ⟨?_, ?_, h.covered.append hcan⟩,
    ⟨rfl, rfl, rfl⟩⟩
  · intro b' hb'
    by_cases hbb : b' = b
    · subst hbb
      rw [KVStore.append_len_self, ← hpos]
      show (if _ then _ else _ : Nat → Nat) b' = _
      split <;> simp
    · rw [KVStore.append_len_of_ne c.numLayers s l kvs hbb, ← h.pos b' hb']
      show (if _ then _ else _ : Nat → Nat) b' = _
      split
      · rw [Function.update_of_ne hbb]
      · rfl
  · intro b' hb' l' hl' p hp
    by_cases hbb : b' = b
    · subst hbb
      by_cases hll : l' = l
      · subst hll
        simp only [KVStore.append_rows_self] at hp ⊢
        simp only [appended, Function.update_self]
        have hrows := h.rows b' hb' l' hl'
        have hk : ∀ q (hq : q < ((s.rows b' l').map Prod.fst).length),
            c.k l' (b', q) = ((s.rows b' l').map Prod.fst)[q] := fun q hq => by
          rw [List.getElem_map]; exact (hrows q (by simpa using hq)).1
        have hv : ∀ q (hq : q < ((s.rows b' l').map Prod.snd).length),
            c.v l' (b', q) = ((s.rows b' l').map Prod.snd)[q] := fun q hq => by
          rw [List.getElem_map]; exact (hrows q (by simpa using hq)).2
        -- the rows there and the new ones, in one list
        have hk' := storeAt_append hk (kvs.map Prod.fst) p (by simpa using hp)
        have hv' := storeAt_append hv (kvs.map Prod.snd) p (by simpa using hp)
        simp only [List.length_map, hlen, ← List.map_append, List.getElem_map] at hk' hv'
        exact ⟨hk', hv'⟩
      · simp only [KVStore.append_rows_of_ne_layer c.numLayers s b' kvs hll] at hp ⊢
        simp only [appended, Function.update_of_ne hll]
        exact h.rows b' hb' l' hl' p hp
    · simp only [KVStore.append_rows_of_ne_slot c.numLayers s l kvs hbb] at hp ⊢
      have hold := h.rows b' hb' l' hl' p hp
      by_cases hll : l' = l
      · subst hll
        simp only [appended, Function.update_self]
        rw [storeAt_of_ne _ _ hbb, storeAt_of_ne _ _ hbb]
        exact hold
      · simp only [appended, Function.update_of_ne hll]
        exact hold

theorem resetSlot_stores {c : KVCache Row} {s : KVStore Row} (h : Stores c s) {b : Nat}
    (hb : b < c.batchSize) :
    ∃ c', (resetSlot (b : Int)).run c = .ok () c' ∧ Stores c' (s.reset b) ∧ SameShape c c' := by
  refine ⟨{ c with pos := Function.update c.pos b 0 }, ?_, ⟨?_, ?_, h.covered.reset b⟩,
    ⟨rfl, rfl, rfl⟩⟩
  · unfold resetSlot
    rw [Exec.run_bind_ok (slotOf_run hb)]
    rfl
  · intro b' hb'
    by_cases hbb : b' = b
    · subst hbb
      simp [KVStore.reset]
    · simp only [KVStore.reset, Function.update_of_ne hbb]
      exact h.pos b' hb'
  · intro b' hb' l hl p hp
    by_cases hbb : b' = b
    · subst hbb
      simp [KVStore.reset] at hp
    · simp only [KVStore.reset, Function.update_of_ne hbb] at hp ⊢
      exact h.rows b' hb' l hl p hp

theorem get_stores {c : KVCache Row} {s : KVStore Row} (h : Stores c s) {b l : Nat}
    (hb : b < c.batchSize) (hl : l < c.numLayers) :
    (get (b : Int) (l : Int)).run c
      = .ok ((s.get b l).map Prod.fst, (s.get b l).map Prod.snd) c := by
  have hcov := h.covered b l hl
  have hpos := h.pos b hb
  have hrows := h.rows b hb l hl
  have hk : (List.range (c.pos b)).map (fun p => c.k l (b, p)) = (s.get b l).map Prod.fst := by
    refine List.ext_getElem (by simp [KVStore.get, hpos, hcov]) fun p hp hp' => ?_
    simp only [List.getElem_map, List.getElem_range, KVStore.get, List.getElem_take]
    exact (hrows p (by simp [hpos] at hp; omega)).1
  have hv : (List.range (c.pos b)).map (fun p => c.v l (b, p)) = (s.get b l).map Prod.snd := by
    refine List.ext_getElem (by simp [KVStore.get, hpos, hcov]) fun p hp hp' => ?_
    simp only [List.getElem_map, List.getElem_range, KVStore.get, List.getElem_take]
    exact (hrows p (by simp [hpos] at hp; omega)).2
  unfold get
  rw [Exec.run_bind_ok (slotOf_run hb), Exec.run_bind_ok (layerOf_run hl),
    Exec.run_bind_ok (EStateM.run_get c), hk, hv]
  rfl

theorem length_stores {c : KVCache Row} {s : KVStore Row} (h : Stores c s) {b : Nat}
    (hb : b < c.batchSize) : (length (b : Int)).run c = .ok (s.len b) c := by
  unfold length
  rw [Exec.run_bind_ok (slotOf_run hb), Exec.run_bind_ok (EStateM.run_get c), h.pos b hb]
  rfl

theorem lengths_stores {c : KVCache Row} {s : KVStore Row} (h : Stores c s) :
    lengths c = (List.range c.batchSize).map s.len :=
  List.map_congr_left fun b hb => h.pos b (List.mem_range.mp hb)

end KVCache

end Nifre
