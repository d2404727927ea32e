import Nifre.Lib.ChainedMap
import Nifre.Lib.Lru

/-!
# Chains without gaps

A block of a chain can only be looked up while all blocks before it are stored. The keys are rooted
if the blocks before a stored block are stored. A bounded dictionary that drops the oldest keys may
drop a block and keep the next one of its chain.
-/

namespace ChainedMap

open Digest Lru

variable {α δ V : Type} {chain : δ → List α → δ} {root : δ} {S : Set (List (List α))}

/-! ## The keys of a chain -/

/-- The keys of a chain, from its first block on. -/
def chainKeys (chain : δ → List α → δ) : List (List α) → δ → List (δ × List α)
  | [], _ => []
  | b :: rest, h => (h, b) :: chainKeys chain rest (chain h b)

@[simp] theorem length_chainKeys (blocks : List (List α)) (h : δ) :
    (chainKeys chain blocks h).length = blocks.length := by
  induction blocks generalizing h with
  | nil => rfl
  | cons b rest ih => rw [chainKeys, List.length_cons, ih, List.length_cons]

theorem getElem?_chainKeys (blocks : List (List α)) (h : δ) {i : Nat} (hi : i < blocks.length) :
    (chainKeys chain blocks h)[i]? = some (keyAt chain blocks h i) := by
  induction blocks generalizing h i with
  | nil => cases hi
  | cons b rest ih =>
    cases i with
    | zero => rfl
    | succ i => exact ih (chain h b) (Nat.lt_of_succ_lt_succ hi)

theorem mem_chainKeys {blocks : List (List α)} {h : δ} {key : δ × List α} :
    key ∈ chainKeys chain blocks h ↔ ∃ i < blocks.length, key = keyAt chain blocks h i := by
  constructor
  · intro hkey
    obtain ⟨i, hi⟩ := List.mem_iff_getElem?.mp hkey
    have hlt : i < blocks.length := by
      have := (List.getElem?_eq_some_iff.mp hi).1
      rwa [length_chainKeys] at this
    rw [getElem?_chainKeys blocks h hlt] at hi
    exact ⟨i, hlt, (Option.some.inj hi).symm⟩
  · rintro ⟨i, hi, rfl⟩
    exact List.mem_of_getElem? (getElem?_chainKeys blocks h hi)

/-- The keys of a chain differ, as long as the chains before its blocks do not collide. -/
theorem nodup_chainKeys (hash : CollisionFree chain root S) {blocks : List (List α)}
    (hS : InPlay S blocks.dropLast) : (chainKeys chain blocks root).Nodup := by
  rw [List.nodup_iff_getElem?_ne_getElem?]
  intro i j hij hj hsame
  rw [length_chainKeys] at hj
  rw [getElem?_chainKeys blocks root (hij.trans hj), getElem?_chainKeys blocks root hj] at hsame
  have := (keyAt_inj chain hash hS hS (hij.trans hj) hj (Option.some.inj hsame)).1
  omega

/-! ## What a stored block needs -/

/-- The block of `child` comes right after that of `parent` in a chain in play. -/
def Follows (chain : δ → List α → δ) (root : δ) (S : Set (List (List α)))
    (child parent : δ × List α) : Prop :=
  ∃ before b, InPlay S (before ++ [b]) ∧ child.1 = digest chain root (before ++ [b]) ∧
    parent = (digest chain root before, b)

/-- **With a block of a chain in play, all blocks before it are stored.** -/
def Rooted (chain : δ → List α → δ) (root : δ) (S : Set (List (List α)))
    (keys : List (δ × List α)) : Prop :=
  ∀ blocks i, i < blocks.length → InPlay S (blocks.take i) → keyAt chain blocks root i ∈ keys →
    ∀ j < i, keyAt chain blocks root j ∈ keys

theorem follows_keyAt {blocks : List (List α)} {i : Nat} (hi : i + 1 < blocks.length)
    (hS : InPlay S (blocks.take (i + 1))) :
    Follows chain root S (keyAt chain blocks root (i + 1)) (keyAt chain blocks root i) := by
  have hlt : i < blocks.length := by omega
  have htake : blocks.take (i + 1) = blocks.take i ++ [blocks.getD i []] := by
    rw [List.take_succ_eq_append_getElem hlt, List.getD_eq_getElem?_getD,
      List.getElem?_eq_getElem hlt, Option.getD_some]
  exact ⟨blocks.take i, blocks.getD i [], htake ▸ hS, by rw [keyAt, htake], rfl⟩

/-- Only the block before it in the same chain. -/
theorem follows_keyAt_iff (hash : CollisionFree chain root S) {blocks : List (List α)} {i : Nat}
    (hi : i < blocks.length) (hS : InPlay S (blocks.take i)) {parent : δ × List α} :
    Follows chain root S (keyAt chain blocks root i) parent ↔
      ∃ j, i = j + 1 ∧ parent = keyAt chain blocks root j := by
  constructor
  · rintro ⟨before, b, hplay, hdigest, rfl⟩
    have htake : blocks.take i = before ++ [b] := hash _ _ hS hplay hdigest
    have hlen : i = before.length + 1 := by
      have := congrArg List.length htake
      rw [List.length_take, Nat.min_eq_left hi.le, List.length_append,
        List.length_singleton] at this
      exact this
    refine ⟨before.length, hlen, ?_⟩
    have hbefore : blocks.take before.length = before := by
      have := congrArg (List.take before.length) htake
      rwa [List.take_take, Nat.min_eq_left (by omega), List.take_left' rfl] at this
    have hb : blocks.getD before.length [] = b := by
      have := congrArg (fun l => l.getD before.length []) htake
      simp only [List.getD_eq_getElem?_getD] at this
      rw [List.getElem?_take_of_lt (by omega), List.getElem?_append_right (Nat.le_refl _)] at this
      rw [List.getD_eq_getElem?_getD, this]
      simp
    rw [keyAt, hbefore, hb]
  · rintro ⟨j, rfl, rfl⟩
    exact follows_keyAt hi hS

/-- It is enough that with a block the one right before it is stored. -/
theorem rooted_iff {keys : List (δ × List α)} : Rooted chain root S keys ↔
    ∀ child ∈ keys, ∀ parent, Follows chain root S child parent → parent ∈ keys := by
  constructor
  · rintro h child hchild parent ⟨before, b, hplay, hdigest, rfl⟩
    -- a chain in which the child's block comes after `b`
    have htake : (before ++ [b, child.2]).take (before.length + 1) = before ++ [b] := by
      simp [List.take_append]
    have hkey : keyAt chain (before ++ [b, child.2]) root (before.length + 1) = child := by
      rw [keyAt, htake, ← hdigest]
      simp
    have hparent : keyAt chain (before ++ [b, child.2]) root before.length
        = (digest chain root before, b) := by
      simp [keyAt]
    rw [← hparent]
    refine h _ (before.length + 1) (by simp) (htake ▸ hplay) ?_ _ (Nat.lt_succ_self _)
    rwa [hkey]
  · intro h blocks i hi hS hmem j hj
    induction i with
    | zero => omega
    | succ i ih =>
      have hprev := h _ hmem _ (follows_keyAt hi hS)
      by_cases hji : j = i
      · rwa [hji]
      · refine ih (by omega) (hS.ofShorter ?_) hprev (by omega)
        exact List.take_prefix_take_left (by omega)

theorem rooted_nil : Rooted chain root S [] := fun _ _ _ _ h => (by cases h)

/-- The order of the keys does not matter. -/
theorem Rooted.congr {keys keys' : List (δ × List α)} (h : Rooted chain root S keys)
    (hsame : ∀ key, key ∈ keys' ↔ key ∈ keys) : Rooted chain root S keys' :=
  fun blocks i hi hS hmem j hj =>
    (hsame _).mpr (h blocks i hi hS ((hsame _).mp hmem) j hj)

/-- A lookup goes on as long as the keys are stored. -/
theorem lt_length_matched [DecidableEq α] [DecidableEq δ] {entries : OrderedDict (δ × List α) V}
    {blocks : List (List α)} {h : δ} {i : Nat} (hi : i < blocks.length)
    (hstored : ∀ j ≤ i, keyAt chain blocks h j ∈ entries.keys) :
    i < (matched chain entries blocks h).length := by
  induction blocks generalizing h i with
  | nil => cases hi
  | cons b rest ih =>
    rw [matched]
    cases hf : entries.find? (h, b) with
    | none => exact absurd (hstored 0 (Nat.zero_le i)) (OrderedDict.find?_eq_none_iff.mp hf)
    | some v =>
      cases i with
      | zero => exact Nat.zero_lt_succ _
      | succ i =>
        exact Nat.succ_lt_succ (ih (Nat.lt_of_succ_lt_succ hi) fun j hj =>
          hstored (j + 1) (Nat.succ_le_succ hj))

/-- **Every stored block is found when its chain is looked up.** -/
theorem Rooted.lt_length_matched [DecidableEq α] [DecidableEq δ]
    {entries : OrderedDict (δ × List α) V} (h : Rooted chain root S entries.keys)
    {blocks : List (List α)} {i : Nat} (hi : i < blocks.length) (hS : InPlay S (blocks.take i))
    (hmem : keyAt chain blocks root i ∈ entries.keys) :
    i < (matched chain entries blocks root).length := by
  refine ChainedMap.lt_length_matched hi fun j hj => ?_
  rcases Nat.lt_or_eq_of_le hj with hlt | rfl
  · exact h blocks i hi hS hmem j hlt
  · exact hmem

/-! ## A chain is stored -/

section Touch

variable [DecidableEq α] [DecidableEq δ] {max : Nat} {keys : List (δ × List α)}

/-- There is room for the chain, and no key that has to go comes right before one that stays. -/
def DropsTails (chain : δ → List α → δ) (root : δ) (S : Set (List (List α))) (max : Nat)
    (keys uses : List (δ × List α)) : Prop :=
  uses.length ≤ max ∧
    ∀ parent ∈ (others keys uses).take (surplus max keys uses),
      ∀ child ∈ (others keys uses).drop (surplus max keys uses),
        ¬Follows chain root S child parent

/-- A chain that there is no room for loses its first block. -/
theorem not_rooted_of_long (hash : CollisionFree chain root S) (hmax : 0 < max)
    (hnodup : keys.Nodup) (hfit : keys.length ≤ max) {blocks : List (List α)}
    (hS : InPlay S blocks.dropLast) (hlong : max < blocks.length) :
    ¬Rooted chain root S ((chainKeys chain blocks root).foldl (touch max) keys) := by
  have huses := nodup_chainKeys hash hS
  have hleft : (chainKeys chain blocks root).foldl (touch max) keys
      = (chainKeys chain blocks root).drop (blocks.length - max) := by
    rw [foldl_touch_eq hnodup hfit, huses.dedup, rtake_append_of_le, List.rtake, length_chainKeys]
    rw [length_chainKeys]
    omega
  have hmem : ∀ i < blocks.length, keyAt chain blocks root i
      ∈ (chainKeys chain blocks root).drop (blocks.length - max) ↔ blocks.length - max ≤ i := by
    intro i hi
    constructor
    · intro hin
      obtain ⟨k, hk⟩ := List.mem_iff_getElem?.mp hin
      rw [List.getElem?_drop] at hk
      have hlt := (List.getElem?_eq_some_iff.mp hk).1
      rw [length_chainKeys] at hlt
      rw [getElem?_chainKeys blocks root hlt] at hk
      have := (keyAt_inj chain hash hS hS hlt hi (Option.some.inj hk)).1
      omega
    · intro hle
      refine List.mem_iff_getElem?.mpr ⟨i - (blocks.length - max), ?_⟩
      rw [List.getElem?_drop, Nat.add_sub_cancel' hle]
      exact getElem?_chainKeys blocks root hi
  rw [hleft]
  intro h
  have hlast : InPlay S (blocks.take (blocks.length - 1)) := by
    rwa [← List.dropLast_eq_take]
  have hfirst := h blocks (blocks.length - 1) (by omega) hlast ((hmem _ (by omega)).mpr (by omega))
    0 (by omega)
  have := (hmem 0 (by omega)).mp hfirst
  omega

/-- **Storing a chain keeps the keys rooted exactly when only tails of other chains go.** -/
theorem Rooted.touch_iff (h : Rooted chain root S keys) (hash : CollisionFree chain root S)
    (hmax : 0 < max) (hnodup : keys.Nodup) (hfit : keys.length ≤ max) {blocks : List (List α)}
    (hS : InPlay S blocks.dropLast) :
    Rooted chain root S ((chainKeys chain blocks root).foldl (touch max) keys) ↔
      DropsTails chain root S max keys (chainKeys chain blocks root) := by
  by_cases hroom : blocks.length ≤ max
  · have huses := nodup_chainKeys hash hS
    have hroom' : (chainKeys chain blocks root).length ≤ max := by rwa [length_chainKeys]
    have hmem := mem_foldl_touch_iff hnodup hfit huses hroom'
    have hothers : ∀ key, key ∈ keys → key ∉ chainKeys chain blocks root →
        key ∈ (others keys (chainKeys chain blocks root)).take
            (surplus max keys (chainKeys chain blocks root)) ∨
          key ∈ (others keys (chainKeys chain blocks root)).drop
            (surplus max keys (chainKeys chain blocks root)) := fun key hk hn => by
      rw [← List.mem_append, List.take_append_drop]
      exact List.mem_filter.mpr ⟨hk, by simpa using hn⟩
    have hkept : ∀ key, key ∈ (others keys (chainKeys chain blocks root)).drop
        (surplus max keys (chainKeys chain blocks root)) → key ∈ keys := fun key hk =>
      (List.mem_filter.mp (List.mem_of_mem_drop hk)).1
    rw [rooted_iff]
    constructor
    · refine fun hr => ⟨hroom', fun parent hp child hc hf => ?_⟩
      -- the parent is not among the keys that stay
      rcases (hmem parent).mp (hr child ((hmem child).mpr (Or.inl hc)) parent hf) with hd | hu
      · exact absurd hd (List.disjoint_take_drop (hnodup.filter _) (Nat.le_refl _) hp)
      · exact absurd hu (by simpa using (List.mem_filter.mp (List.mem_of_mem_take hp)).2)
    · rintro ⟨-, htails⟩ child hchild parent hf
      rcases (hmem child).mp hchild with hd | hu
      · by_cases hu : parent ∈ chainKeys chain blocks root
        · exact (hmem parent).mpr (Or.inr hu)
        · rcases hothers parent (rooted_iff.mp h child (hkept child hd) parent hf) hu with hp | hp
          · exact absurd hf (htails parent hp child hd)
          · exact (hmem parent).mpr (Or.inl hp)
      · obtain ⟨i, hi, rfl⟩ := mem_chainKeys.mp hu
        have hplay : InPlay S (blocks.take i) := by
          refine hS.ofShorter ?_
          rw [List.dropLast_eq_take]
          exact List.take_prefix_take_left (by omega)
        obtain ⟨j, rfl, rfl⟩ := (follows_keyAt_iff hash hi hplay).mp hf
        exact (hmem _).mpr (Or.inr (mem_chainKeys.mpr ⟨j, by omega, rfl⟩))
  · refine iff_of_false (not_rooted_of_long hash hmax hnodup hfit hS (by omega)) fun hd => hroom ?_
    have := hd.1
    rwa [length_chainKeys] at this

end Touch

end ChainedMap
