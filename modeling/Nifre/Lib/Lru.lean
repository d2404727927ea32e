import Nifre.Lib.OrderedDict
import Mathlib.Data.List.Dedup
import Mathlib.Data.List.DropRight
import Mathlib.Data.List.Perm.Subperm

/-!
# Least recently used

The keys of a cache of bounded size, oldest use first. A use makes its key the newest, and the
oldest keys go when there are too many. What is left after a run of uses is the newest part of what
a cache without a bound would hold.
-/

namespace Lru

variable {K : Type} [DecidableEq K] {max : Nat}

/-- The key becomes the newest. -/
def promote (keys : List K) (k : K) : List K := keys.filter (· ≠ k) ++ [k]

/-- The same, with room for `max` keys. -/
def touch (max : Nat) (keys : List K) (k : K) : List K := (promote keys k).rtake max

theorem nodup_promote {keys : List K} (h : keys.Nodup) (k : K) : (promote keys k).Nodup := by
  refine (h.filter _).append (List.nodup_singleton k) fun x hx hk => ?_
  rw [List.mem_singleton.mp hk] at hx
  simp at hx

/-- **The uses come last, each at its last place.** -/
theorem foldl_promote (keys uses : List K) :
    uses.foldl promote keys = keys.filter (· ∉ uses) ++ uses.dedup := by
  induction uses generalizing keys with
  | nil => simp
  | cons k uses ih =>
    rw [List.foldl_cons, ih, promote, List.filter_append, List.filter_filter]
    have hkeys : (keys.filter fun x => decide (x ∉ uses) && decide (x ≠ k))
        = keys.filter (· ∉ k :: uses) := by
      refine List.filter_congr fun x _ => ?_
      simp only [List.mem_cons, not_or, Bool.decide_and, Bool.and_comm]
    rw [hkeys, List.append_assoc]
    congr 1
    by_cases hk : k ∈ uses
    · rw [List.dedup_cons_of_mem hk, List.filter_cons_of_neg (by simpa using hk)]
      rfl
    · rw [List.dedup_cons_of_notMem hk, List.filter_cons_of_pos (by simpa using hk)]
      rfl

/-! ## The newest part -/

omit [DecidableEq K] in
theorem rtake_append_of_le {front back : List K} (h : max ≤ back.length) :
    (front ++ back).rtake max = back.rtake max := by
  unfold List.rtake
  rw [List.length_append, Nat.add_sub_assoc h, List.drop_append, List.drop_eq_nil_of_le (by omega)]
  simp

omit [DecidableEq K] in
theorem rtake_of_length_le {keys : List K} (h : keys.length ≤ max) : keys.rtake max = keys := by
  unfold List.rtake
  rw [Nat.sub_eq_zero_of_le h, List.drop_zero]

omit [DecidableEq K] in
theorem length_rtake (keys : List K) : (keys.rtake max).length = min max keys.length := by
  unfold List.rtake
  rw [List.length_drop]
  omega

omit [DecidableEq K] in
/-- What fits is kept, with the newest part of the rest. -/
theorem rtake_append_of_length_le {front back : List K} (h : back.length ≤ max) :
    (front ++ back).rtake max = front.rtake (max - back.length) ++ back := by
  unfold List.rtake
  rw [List.drop_append, List.length_append]
  have hfront : front.length + back.length - max = front.length - (max - back.length) := by omega
  have hback : front.length + back.length - max - front.length = 0 := by omega
  rw [hback, List.drop_zero, hfront]

/-- A use does not make the keys fewer. -/
theorem length_le_promote {keys : List K} (h : keys.Nodup) (k : K) :
    keys.length ≤ (promote keys k).length := by
  refine (List.subperm_of_subset h fun x hx => ?_).length_le
  by_cases hk : x = k
  · simp [promote, hk]
  · simp [promote, hk, hx]

/-- **Keys that are gone do not come back**: a use of the newest part is the newest part of the
use. -/
theorem touch_rtake {keys : List K} (h : keys.Nodup) (k : K) :
    touch max (keys.rtake max) k = touch max keys k := by
  by_cases hfit : keys.length ≤ max
  · rw [rtake_of_length_le hfit]
  obtain ⟨front, hfront⟩ : ∃ front, keys = front ++ keys.rtake max :=
    ⟨keys.take (keys.length - max), (List.take_append_drop _ _).symm⟩
  have hlen : (keys.rtake max).length = max := by
    rw [length_rtake]
    omega
  unfold touch
  generalize keys.rtake max = back at hfront hlen
  subst hfront
  have hpromote : promote (front ++ back) k = front.filter (· ≠ k) ++ promote back k := by
    unfold promote
    rw [List.filter_append, List.append_assoc]
  rw [hpromote, rtake_append_of_le]
  -- the newest part does not get shorter
  exact hlen.symm.le.trans (length_le_promote (List.nodup_append.mp h).2.1 k)

/-- **The cache after a run of uses.** -/
theorem foldl_touch {keys : List K} (h : keys.Nodup) (uses : List K) :
    uses.foldl (touch max) (keys.rtake max) = (uses.foldl promote keys).rtake max := by
  induction uses generalizing keys with
  | nil => rfl
  | cons k uses ih =>
    rw [List.foldl_cons, List.foldl_cons, touch_rtake h]
    exact ih (nodup_promote h k)

theorem foldl_touch_eq {keys : List K} (h : keys.Nodup) (hfit : keys.length ≤ max)
    (uses : List K) :
    uses.foldl (touch max) keys = (keys.filter (· ∉ uses) ++ uses.dedup).rtake max := by
  have : uses.foldl (touch max) (keys.rtake max) = _ := foldl_touch h uses
  rwa [rtake_of_length_le hfit, foldl_promote] at this

/-- The keys that are not used, and how many of them have to go. -/
def others (keys uses : List K) : List K := keys.filter (· ∉ uses)

def surplus (max : Nat) (keys uses : List K) : Nat :=
  (others keys uses).length + uses.length - max

/-- **The oldest of the other keys go.** -/
theorem mem_foldl_touch_iff {keys uses : List K} (hnodup : keys.Nodup) (hfit : keys.length ≤ max)
    (huses : uses.Nodup) (hroom : uses.length ≤ max) (k : K) :
    k ∈ uses.foldl (touch max) keys ↔
      k ∈ (others keys uses).drop (surplus max keys uses) ∨ k ∈ uses := by
  have hdrop : (others keys uses).rtake (max - uses.length)
      = (others keys uses).drop (surplus max keys uses) := by
    unfold List.rtake surplus
    congr 1
    omega
  rw [foldl_touch_eq hnodup hfit, huses.dedup, rtake_append_of_length_le hroom, List.mem_append,
    ← hdrop]
  rfl

/-- **What was used last is there**, as long as there is room for all of it. -/
theorem mem_foldl_touch {keys uses : List K} (h : keys.Nodup) (hfit : keys.length ≤ max)
    (huses : uses.length ≤ max) {k : K} (hk : k ∈ uses) : k ∈ uses.foldl (touch max) keys := by
  rw [foldl_touch_eq h hfit,
    rtake_append_of_length_le ((List.dedup_sublist uses).length_le.trans huses)]
  exact List.mem_append_right _ (List.mem_dedup.mpr hk)

/-! ## Steps of a use -/

theorem length_touch_le (keys : List K) (k : K) : (touch max keys k).length ≤ max := by
  rw [touch, length_rtake]
  exact Nat.min_le_left _ _

/-- A key that is there moves, and nothing goes. -/
theorem touch_of_mem {keys : List K} (hfit : keys.length ≤ max) {k : K}
    (hk : k ∈ keys) : touch max keys k = promote keys k := by
  refine rtake_of_length_le ?_
  have hlt : (keys.filter (· ≠ k)).length < keys.length :=
    List.length_filter_lt_length_iff_exists.mpr ⟨k, hk, by simp⟩
  unfold promote
  rw [List.length_append, List.length_singleton]
  omega

theorem promote_of_notMem {keys : List K} {k : K} (hk : k ∉ keys) :
    promote keys k = keys ++ [k] := by
  unfold promote
  rw [List.filter_eq_self.mpr fun x hx => ?_]
  have : x ≠ k := fun he => hk (he ▸ hx)
  simpa using this

theorem promote_append_singleton {keys : List K} {k : K} (hk : k ∉ keys) :
    promote (keys ++ [k]) k = keys ++ [k] := by
  rw [← promote_of_notMem hk]
  unfold promote
  rw [List.filter_append, List.filter_filter]
  simp

/-- A new key comes after the newest of the old ones. -/
theorem touch_of_notMem {keys : List K} (hmax : 0 < max) {k : K} (hk : k ∉ keys) :
    touch max keys k = keys.rtake (max - 1) ++ [k] := by
  rw [touch, promote_of_notMem hk, rtake_append_of_length_le hmax, List.length_singleton]

omit [DecidableEq K] in
/-- One key goes while there is no room for another. -/
theorem rtake_tail {keys : List K} (hmax : 0 < max) (hfull : max ≤ keys.length) :
    keys.tail.rtake (max - 1) = keys.rtake (max - 1) := by
  cases keys with
  | nil => rfl
  | cons k keys =>
    rw [List.length_cons] at hfull
    exact (@rtake_append_of_le _ _ [k] keys (by omega)).symm

end Lru

namespace OrderedDict

variable {K V : Type} [DecidableEq K]

omit [DecidableEq K] in
theorem length_keys (d : OrderedDict K V) : d.keys.length = d.size := List.length_map _

theorem keys_moveToEnd {d : OrderedDict K V} {k : K} (hk : k ∈ d.keys) :
    (d.moveToEnd k).keys = Lru.promote d.keys k := by
  obtain ⟨v, hv⟩ := mem_keys_iff.mp hk
  unfold moveToEnd
  rw [find?_eq_some_iff.mpr hv]
  show ((d.entries.filter fun e => decide (e.1 ≠ k)) ++ [(k, v)]).map Prod.fst = _
  rw [List.map_append, keys, Lru.promote, List.filter_map]
  rfl

theorem keys_insert_of_notMem {d : OrderedDict K V} {k : K} (hk : k ∉ d.keys) (v : V) :
    (d.insert k v).keys = d.keys ++ [k] := by
  rw [keys, insert_of_notMem hk, List.map_append]
  rfl

/-- **A new key is used**: the oldest keys make room, and the new one comes last. -/
theorem keys_store {d d' : OrderedDict K V} {max : Nat} (hmax : 0 < max) {k : K} (hk : k ∉ d.keys)
    (hroom : d'.keys = d.keys.rtake (max - 1)) (v : V) :
    ((d'.insert k v).moveToEnd k).keys = Lru.touch max d.keys k := by
  have hk' : k ∉ d'.keys := fun h => hk (by
    rw [hroom] at h
    exact List.mem_of_mem_drop h)
  have hlast : k ∈ (d'.insert k v).keys := by
    rw [keys_insert_of_notMem hk']
    simp
  rw [keys_moveToEnd hlast, keys_insert_of_notMem hk', Lru.promote_append_singleton hk', hroom,
    Lru.touch_of_notMem hmax hk]

/-- A key that is there is used. -/
theorem keys_moveToEnd_touch {d : OrderedDict K V} {max : Nat} (hfit : d.size ≤ max) {k : K}
    (hk : k ∈ d.keys) : (d.moveToEnd k).keys = Lru.touch max d.keys k := by
  rw [Lru.touch_of_mem (by rw [length_keys]; exact hfit) hk, keys_moveToEnd hk]

end OrderedDict
