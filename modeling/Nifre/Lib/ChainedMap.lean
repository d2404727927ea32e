import Nifre.Lib.OrderedDict
import Nifre.Lib.Digest

/-!
# A dictionary keyed along chains

An entry for a block is stored under the digest of the chain of blocks before it, together with
the block itself. A chain is looked up block by block, up to the first block that is missing.

* `keyAt` — the key of block `i` of a chain
* `matched` — what is stored along a chain, up to the first missing block
* `Recorded` — every entry was stored for a block of a known chain
-/

namespace ChainedMap

open Digest

variable {α δ V : Type} [DecidableEq α] [DecidableEq δ] (chain : δ → List α → δ)

/-- The key under which block `i` of the chain is stored. -/
def keyAt (blocks : List (List α)) (h : δ) (i : Nat) : δ × List α :=
  (digest chain h (blocks.take i), blocks.getD i [])

omit [DecidableEq α] [DecidableEq δ] in
/-- The keys of a chain are those of its prefixes. -/
theorem keyAt_take (blocks : List (List α)) (h : δ) {i n : Nat} (hi : i < n) :
    keyAt chain (blocks.take n) h i = keyAt chain blocks h i := by
  rw [keyAt, keyAt, List.take_take, Nat.min_eq_left (Nat.le_of_lt hi), List.getD_eq_getElem?_getD,
    List.getD_eq_getElem?_getD, List.getElem?_take_of_lt hi]

/-- The values stored along the chain of `blocks`, up to the first block that is missing. -/
def matched (entries : OrderedDict (δ × List α) V) : List (List α) → δ → List V
  | [], _ => []
  | b :: rest, h =>
    match entries.find? (h, b) with
    | none => []
    | some v => v :: matched entries rest (chain h b)

theorem matched_moveToEnd (entries : OrderedDict (δ × List α) V) (k : δ × List α) :
    ∀ (blocks : List (List α)) (h : δ),
      matched chain (entries.moveToEnd k) blocks h = matched chain entries blocks h
  | [], _ => rfl
  | b :: rest, h => by
    rw [matched, matched, OrderedDict.find?_moveToEnd]
    split
    · rfl
    · rw [matched_moveToEnd entries k rest]

theorem matched_length_le (entries : OrderedDict (δ × List α) V) :
    ∀ (blocks : List (List α)) (h : δ), (matched chain entries blocks h).length ≤ blocks.length
  | [], _ => Nat.le_refl _
  | b :: rest, h => by
    rw [matched]
    split
    · exact Nat.zero_le _
    · exact Nat.succ_le_succ (matched_length_le entries rest _)

/-- Every matched value is the entry of its place in the chain. -/
theorem matched_mem (entries : OrderedDict (δ × List α) V) :
    ∀ (blocks : List (List α)) (h : δ) (i : Nat) (v : V),
      (matched chain entries blocks h)[i]? = some v →
      (keyAt chain blocks h i, v) ∈ entries.entries
  | [], _, _, _, hi => by simp [matched] at hi
  | b :: rest, h, i, c, hi => by
    rw [matched] at hi
    cases hf : entries.find? (h, b) with
    | none => rw [hf] at hi; simp at hi
    | some v =>
      rw [hf] at hi
      cases i with
      | zero =>
        cases hi
        exact OrderedDict.find?_eq_some_iff.mp hf
      | succ i => exact matched_mem entries rest (chain h b) i c hi

/-- **A lookup matches the whole chain exactly when every key of the chain is stored.** -/
theorem matched_length_eq_iff (entries : OrderedDict (δ × List α) V) :
    ∀ (blocks : List (List α)) (h : δ),
      (matched chain entries blocks h).length = blocks.length ↔
        ∀ i < blocks.length, keyAt chain blocks h i ∈ entries.keys
  | [], _ => by simp [matched]
  | b :: rest, h => by
    rw [matched]
    cases hf : entries.find? (h, b) with
    | none =>
      refine iff_of_false (by simp) fun hall => ?_
      exact OrderedDict.find?_eq_none_iff.mp hf (hall 0 (by simp))
    | some v =>
      have hhead : keyAt chain (b :: rest) h 0 ∈ entries.keys :=
        OrderedDict.mem_keys_of_mem (OrderedDict.find?_eq_some_iff.mp hf)
      rw [List.length_cons, List.length_cons, Nat.succ_inj,
        matched_length_eq_iff entries rest (chain h b)]
      constructor
      · intro hall i hi
        cases i with
        | zero => exact hhead
        | succ i => exact hall i (Nat.lt_of_succ_lt_succ hi)
      · intro hall i hi
        exact hall (i + 1) (Nat.succ_lt_succ hi)

/-! ## Where the entries come from -/

/-- `v` is stored under the key of a block `i` for which `stored` has it. -/
def Recorded (root : δ) (stored : List (List α) → Nat → V → Prop) (key : δ × List α) (v : V) :
    Prop :=
  ∃ blocks i, i < blocks.length ∧ key = keyAt chain blocks root i ∧ stored blocks i v

omit [DecidableEq α] [DecidableEq δ] in
/-- **A key names one block of one chain**, as long as the chains before a block do not
collide. -/
theorem keyAt_inj {root : δ} {S : Set (List (List α))} (h : CollisionFree chain root S)
    {blocks blocks' : List (List α)} (hS : InPlay S blocks.dropLast)
    (hS' : InPlay S blocks'.dropLast) {i j : Nat} (hi : i < blocks.length)
    (hj : j < blocks'.length) (hkey : keyAt chain blocks root i = keyAt chain blocks' root j) :
    i = j ∧ blocks.take (i + 1) = blocks'.take (i + 1) := by
  obtain ⟨hdigest, hblock⟩ := Prod.mk.inj hkey
  -- a chain before a block is one before the last
  have hplay : ∀ {bs : List (List α)} {n : Nat}, InPlay S bs.dropLast → n < bs.length →
      InPlay S (bs.take n) := fun {bs n} hbs hn => by
    refine hbs.ofShorter ?_
    rw [List.dropLast_eq_take]
    exact List.take_prefix_take_left (by omega)
  have hprefix := h _ _ (hplay hS hi) (hplay hS' hj) hdigest
  have hij : i = j := by
    have := congrArg List.length hprefix
    rwa [List.length_take, List.length_take, Nat.min_eq_left hi.le, Nat.min_eq_left hj.le] at this
  subst hij
  refine ⟨rfl, ?_⟩
  rw [List.getD_eq_getElem?_getD, List.getD_eq_getElem?_getD, List.getElem?_eq_getElem hi,
    List.getElem?_eq_getElem hj, Option.getD_some, Option.getD_some] at hblock
  rw [List.take_succ_eq_append_getElem hi, List.take_succ_eq_append_getElem hj, hprefix, hblock]

/-- **What is matched at a place was stored for a chain that agrees up to there.** -/
theorem matched_origin {root : δ} {S : Set (List (List α))} (h : CollisionFree chain root S)
    {stored : List (List α) → Nat → V → Prop} {entries : OrderedDict (δ × List α) V}
    (hrec : ∀ key v, (key, v) ∈ entries.entries → Recorded chain root stored key v)
    (hstored : ∀ blocks i v, stored blocks i v → InPlay S blocks.dropLast) {blocks : List (List α)}
    (hS : InPlay S blocks.dropLast) {i : Nat} {v : V}
    (hi : (matched chain entries blocks root)[i]? = some v) :
    ∃ blocks', i < blocks'.length ∧ stored blocks' i v ∧
      blocks'.take (i + 1) = blocks.take (i + 1) := by
  have hlt : i < blocks.length :=
    (List.getElem?_eq_some_iff.mp hi).1.trans_le (matched_length_le chain entries blocks root)
  obtain ⟨blocks', j, hj, hkey, hv⟩ := hrec _ v (matched_mem chain entries blocks root i v hi)
  obtain ⟨rfl, htake⟩ := keyAt_inj chain h hS (hstored blocks' j v hv) hlt hj hkey
  exact ⟨blocks', hj, hv, htake.symm⟩

end ChainedMap
