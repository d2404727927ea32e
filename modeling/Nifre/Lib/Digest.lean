import Mathlib.Data.List.Basic
import Mathlib.Data.List.Infix
import Mathlib.Data.Set.Function

/-!
# Chained digests of blocks

A list is cut into full blocks, and a prefix of whole blocks is identified by folding a
digest over them. The digest has a fixed range, so it identifies prefixes only as long as
no two of the chains that are really used collide.

* `fullBlocks` — the full blocks of a list
* `digest` — the digest of a chain of blocks
* `CollisionFree` — no two chains in play have the same digest
-/

namespace Digest

variable {α β δ : Type}

/-! ## Full blocks -/

/-- `l[i*bs : (i+1)*bs]` for every full block `i` of `l`. -/
def fullBlocks (bs : Nat) (l : List α) : List (List α) :=
  (List.range (l.length / bs)).map fun i => (l.drop (i * bs)).take bs

@[simp] theorem length_fullBlocks (bs : Nat) (l : List α) :
    (fullBlocks bs l).length = l.length / bs := by
  simp [fullBlocks]

theorem getElem?_fullBlocks {bs : Nat} {l : List α} {i : Nat} (h : i < l.length / bs) :
    (fullBlocks bs l)[i]? = some ((l.drop (i * bs)).take bs) := by
  simp [fullBlocks, h]

/-- More elements leave the full blocks as they are. -/
theorem take_fullBlocks_append (bs : Nat) (l l' : List α) :
    (fullBlocks bs (l ++ l')).take (l.length / bs) = fullBlocks bs l := by
  have hle : l.length / bs ≤ (l ++ l').length / bs := Nat.div_le_div_right (by simp)
  unfold fullBlocks
  rw [← List.map_take, List.take_range, Nat.min_eq_left hle]
  refine List.map_congr_left fun i hi => ?_
  have hend : (i + 1) * bs ≤ l.length :=
    (Nat.mul_le_mul_right bs (List.mem_range.mp hi)).trans (Nat.div_mul_le_self _ _)
  rw [Nat.succ_mul] at hend
  rw [List.drop_append_of_le_length (by omega), List.take_append_of_le_length]
  rw [List.length_drop]
  omega

/-- A full block ends inside the list. -/
theorem block_end_le {bs : Nat} {l : List α} {i : Nat} (h : i < l.length / bs) :
    (i + 1) * bs ≤ l.length :=
  (Nat.mul_le_mul_right bs h).trans (Nat.div_mul_le_self _ _)

/-- The first `i` full blocks are the first `i * bs` elements. -/
theorem flatten_take_fullBlocks {bs : Nat} {l : List α} : ∀ {i : Nat}, i ≤ l.length / bs →
    ((fullBlocks bs l).take i).flatten = l.take (i * bs)
  | 0, _ => by simp
  | i + 1, h => by
    have hi : i < l.length / bs := h
    have hlt : i < (fullBlocks bs l).length := by rw [length_fullBlocks]; exact hi
    have hget : (fullBlocks bs l)[i] = (l.drop (i * bs)).take bs :=
      Option.some.inj ((List.getElem?_eq_getElem hlt).symm.trans (getElem?_fullBlocks hi))
    rw [List.take_succ_eq_append_getElem hlt, List.flatten_append,
      flatten_take_fullBlocks (Nat.le_of_lt hi), hget, Nat.succ_mul, List.take_add]
    simp

/-- The tokens before block `i` and the first `n` tokens of it. -/
theorem flatten_take_append_block {bs : Nat} {l : List α} {i n : Nat} (hi : i < l.length / bs)
    (hn : n ≤ bs) :
    ((fullBlocks bs l).take i).flatten ++ ((fullBlocks bs l).getD i []).take n
      = l.take (i * bs + n) := by
  rw [flatten_take_fullBlocks (Nat.le_of_lt hi), List.getD_eq_getElem?_getD, getElem?_fullBlocks hi,
    Option.getD_some, List.take_take, Nat.min_eq_left hn, List.take_add]

/-! ## Digests of chains -/

/-- The digest of a chain of blocks, from the digest `root` of the empty chain. -/
def digest (chain : δ → β → δ) (root : δ) (blocks : List β) : δ := blocks.foldl chain root

@[simp] theorem digest_nil (chain : δ → β → δ) (root : δ) : digest chain root [] = root := rfl

/-- The chains that are prefixes of one of the block lists in `S`. -/
def InPlay (S : Set (List β)) (c : List β) : Prop := ∃ p ∈ S, c <+: p

theorem InPlay.ofShorter {S : Set (List β)} {c c' : List β} (h : InPlay S c) (hp : c' <+: c) :
    InPlay S c' := by
  obtain ⟨p, hpS, hc⟩ := h
  exact ⟨p, hpS, hp.trans hc⟩

theorem InPlay.self {S : Set (List β)} {p : List β} (h : p ∈ S) : InPlay S p :=
  ⟨p, h, List.prefix_refl p⟩

theorem InPlay.take {S : Set (List β)} {p : List β} (h : p ∈ S) (i : Nat) : InPlay S (p.take i) :=
  ⟨p, h, List.take_prefix i p⟩

/-- No two chains in play have the same digest, so in particular none but the empty one has
the root's. -/
def CollisionFree (chain : δ → β → δ) (root : δ) (S : Set (List β)) : Prop :=
  ∀ c c', InPlay S c → InPlay S c' → digest chain root c = digest chain root c' → c = c'

theorem CollisionFree.mono {chain : δ → β → δ} {root : δ} {S T : Set (List β)}
    (h : CollisionFree chain root T) (hST : S ⊆ T) : CollisionFree chain root S := by
  intro c c' hc hc'
  refine h c c' ?_ ?_
  · obtain ⟨p, hp, hcp⟩ := hc
    exact ⟨p, hST hp, hcp⟩
  · obtain ⟨p, hp, hcp⟩ := hc'
    exact ⟨p, hST hp, hcp⟩

/-- Over a finite list of block lists, collisions are looked for among the prefixes. -/
theorem collisionFree_of_inits {chain : δ → β → δ} {root : δ} {S : Set (List β)}
    {l : List (List β)} (hS : ∀ p ∈ S, p ∈ l)
    (h : ∀ c ∈ l.flatMap List.inits, ∀ c' ∈ l.flatMap List.inits,
      digest chain root c = digest chain root c' → c = c') : CollisionFree chain root S := by
  have hmem : ∀ c, InPlay S c → c ∈ l.flatMap List.inits := by
    rintro c ⟨p, hp, hc⟩
    exact List.mem_flatMap.mpr ⟨p, hS p hp, (List.mem_inits c p).mpr hc⟩
  exact fun c c' hc hc' => h c (hmem c hc) c' (hmem c' hc')

end Digest
