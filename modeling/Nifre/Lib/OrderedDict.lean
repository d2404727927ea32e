import Mathlib.Data.List.Nodup
import Mathlib.Data.Multiset.Basic

/-!
# Dictionaries that remember insertion order

An association list without duplicate keys, oldest entry first. Assigning to a present key
keeps its place, assigning to a new key appends, and `moveToEnd` makes a key the newest.

Everything is stated through membership of `entries`: a lookup, an erase or a move is
described by the pairs it finds, drops or permutes.
-/

/-- An insertion-ordered dictionary, oldest entry first. -/
structure OrderedDict (K V : Type) where
  entries : List (K × V)
  nodup : (entries.map Prod.fst).Nodup

namespace OrderedDict

variable {K V : Type} [DecidableEq K]

omit [DecidableEq K] in
@[ext] theorem ext {d d' : OrderedDict K V} (h : d.entries = d'.entries) : d = d' := by
  cases d; cases d'; cases h; rfl

/-! ## Operations -/

def empty : OrderedDict K V := ⟨[], List.nodup_nil⟩

def keys (d : OrderedDict K V) : List K := d.entries.map Prod.fst

def values (d : OrderedDict K V) : List V := d.entries.map Prod.snd

def size (d : OrderedDict K V) : Nat := d.entries.length

/-- `d.get(k)`. -/
def find? (d : OrderedDict K V) (k : K) : Option V := d.entries.lookup k

/-- `k in d`. -/
def contains (d : OrderedDict K V) (k : K) : Bool := (d.find? k).isSome

/-- `del d[k]`, or nothing where `k` is absent. -/
def erase (d : OrderedDict K V) (k : K) : OrderedDict K V where
  entries := d.entries.filter fun e => e.1 ≠ k
  nodup := d.nodup.sublist (List.filter_sublist.map Prod.fst)

omit [DecidableEq K] in
theorem nodup_append_single {l : List (K × V)} {k : K} {v : V} (h : (l.map Prod.fst).Nodup)
    (hk : k ∉ l.map Prod.fst) : ((l ++ [(k, v)]).map Prod.fst).Nodup := by
  rw [List.map_append]
  exact List.nodup_append.mpr ⟨h, List.nodup_singleton k, fun a ha b hb => by
    rintro rfl
    exact hk (by simpa [List.mem_singleton.mp hb] using ha)⟩

theorem notMem_erase (d : OrderedDict K V) (k : K) : k ∉ (d.erase k).keys := by
  simp [keys, erase]

/-- Append a key that is not there. -/
def push (d : OrderedDict K V) (k : K) (v : V) (h : k ∉ d.keys) : OrderedDict K V where
  entries := d.entries ++ [(k, v)]
  nodup := nodup_append_single d.nodup h

/-- Replace the value of a present key, in place. -/
def replace (d : OrderedDict K V) (k : K) (v : V) : OrderedDict K V where
  entries := d.entries.map fun e => if e.1 = k then (k, v) else e
  nodup := by
    have h : (d.entries.map fun e => if e.1 = k then (k, v) else e).map Prod.fst
        = d.entries.map Prod.fst := by
      rw [List.map_map]
      refine List.map_congr_left fun e _ => ?_
      by_cases he : e.1 = k <;> simp [he]
    rw [h]; exact d.nodup

/-- `d[k] = v`. -/
def insert (d : OrderedDict K V) (k : K) (v : V) : OrderedDict K V :=
  if h : k ∈ d.keys then d.replace k v else d.push k v h

/-- `d.move_to_end(k)`, or nothing where `k` is absent. -/
def moveToEnd (d : OrderedDict K V) (k : K) : OrderedDict K V :=
  match d.find? k with
  | none => d
  | some v => (d.erase k).push k v (d.notMem_erase k)

/-- `d.popitem(last=False)`: the oldest entry and the rest. -/
def popFirst? (d : OrderedDict K V) : Option ((K × V) × OrderedDict K V) :=
  match d with
  | ⟨[], _⟩ => none
  | ⟨e :: rest, h⟩ => some (e, ⟨rest, (List.nodup_cons.mp h).2⟩)

/-! ## Lookup is membership -/

omit [DecidableEq K] in
theorem mem_keys_of_mem {d : OrderedDict K V} {k : K} {v : V} (h : (k, v) ∈ d.entries) :
    k ∈ d.keys := List.mem_map.mpr ⟨(k, v), h, rfl⟩

omit [DecidableEq K] in
theorem mem_keys_iff {d : OrderedDict K V} {k : K} : k ∈ d.keys ↔ ∃ v, (k, v) ∈ d.entries := by
  constructor
  · intro h
    obtain ⟨⟨k', v⟩, hm, rfl⟩ := List.mem_map.mp h
    exact ⟨v, hm⟩
  · rintro ⟨v, hv⟩
    exact mem_keys_of_mem hv

/-- The pairs of a list without duplicate keys are what `lookup` finds. -/
theorem lookup_eq_some_iff {k : K} {v : V} : ∀ {l : List (K × V)}, (l.map Prod.fst).Nodup →
    (l.lookup k = some v ↔ (k, v) ∈ l)
  | [], _ => by simp
  | (k', v') :: l, h => by
    obtain ⟨hk', hl⟩ := List.nodup_cons.mp h
    by_cases hk : k = k'
    · subst hk
      rw [List.lookup_cons_self, Option.some.injEq, List.mem_cons]
      constructor
      · rintro rfl; exact Or.inl rfl
      · rintro (he | hm)
        · exact (Prod.mk.inj he).2.symm
        · exact absurd (List.mem_map.mpr ⟨(k, v), hm, rfl⟩) hk'
    · rw [List.lookup_cons, beq_false_of_ne hk]
      simp only [lookup_eq_some_iff hl, List.mem_cons, Prod.mk.injEq, hk, false_and, false_or]

theorem find?_eq_some_iff {d : OrderedDict K V} {k : K} {v : V} :
    d.find? k = some v ↔ (k, v) ∈ d.entries := lookup_eq_some_iff d.nodup

theorem find?_eq_none_iff {d : OrderedDict K V} {k : K} : d.find? k = none ↔ k ∉ d.keys := by
  rw [mem_keys_iff, Option.eq_none_iff_forall_not_mem]
  simp [Option.mem_def, find?_eq_some_iff]

theorem contains_iff {d : OrderedDict K V} {k : K} : d.contains k = true ↔ k ∈ d.keys := by
  rw [contains, Option.isSome_iff_exists, mem_keys_iff]
  simp only [find?_eq_some_iff]

/-! ## What the operations leave -/

omit [DecidableEq K] in
theorem mem_values_iff {d : OrderedDict K V} {v : V} : v ∈ d.values ↔ ∃ k, (k, v) ∈ d.entries := by
  simp [values]

omit [DecidableEq K] in
/-- No value stands twice where its key can be read off it. -/
theorem nodup_values_of_key {d : OrderedDict K V} {f : V → K}
    (h : ∀ k v, (k, v) ∈ d.entries → f v = k) : d.values.Nodup := by
  have hkeys : d.values.map f = d.entries.map Prod.fst := by
    rw [values, List.map_map]
    exact List.map_congr_left fun e he => h e.1 e.2 he
  exact List.Nodup.of_map f (hkeys ▸ d.nodup)

@[simp] theorem mem_erase {d : OrderedDict K V} {k k' : K} {v : V} :
    (k', v) ∈ (d.erase k).entries ↔ (k', v) ∈ d.entries ∧ k' ≠ k := by
  simp [erase]

theorem erase_entries_perm {d : OrderedDict K V} {k : K} {v : V} (h : (k, v) ∈ d.entries) :
    ((d.erase k).entries ++ [(k, v)]).Perm d.entries := by
  obtain ⟨s, t, hst⟩ := List.append_of_mem h
  have hnd : ((s ++ (k, v) :: t).map Prod.fst).Nodup := hst ▸ d.nodup
  rw [List.map_append, List.map_cons] at hnd
  have hs : s.filter (fun e => e.1 ≠ k) = s := by
    refine List.filter_eq_self.mpr fun e he => ?_
    have := List.nodup_append.mp hnd
    simpa using this.2.2 e.1 (List.mem_map_of_mem he) k List.mem_cons_self
  have ht : t.filter (fun e => e.1 ≠ k) = t := by
    refine List.filter_eq_self.mpr fun e he => ?_
    have hn := (List.nodup_cons.mp (List.nodup_append.mp hnd).2.1).1
    have hne : e.1 ≠ k := by
      rintro rfl
      exact hn (List.mem_map.mpr ⟨e, he, rfl⟩)
    simpa using hne
  have he : (d.erase k).entries = s ++ t := by
    show d.entries.filter _ = _
    rw [hst, List.filter_append, List.filter_cons_of_neg (by simp), hs, ht]
  rw [he, hst]
  have hmiddle : (s ++ (k, v) :: t).Perm ((k, v) :: (s ++ t)) := List.perm_middle
  exact List.perm_append_comm.trans hmiddle.symm

/-- A present key gives its value up. -/
theorem values_erase {d : OrderedDict K V} {k : K} {v : V} (h : (k, v) ∈ d.entries) :
    (↑d.values : Multiset V) = v ::ₘ ↑(d.erase k).values := by
  have hperm := (erase_entries_perm h).map Prod.snd
  rw [List.map_append] at hperm
  rw [Multiset.cons_coe, Multiset.coe_eq_coe]
  exact hperm.symm.trans List.perm_append_comm

/-- Moving a key permutes the entries. -/
theorem moveToEnd_perm (d : OrderedDict K V) (k : K) : (d.moveToEnd k).entries.Perm d.entries := by
  unfold moveToEnd
  split
  · exact List.Perm.refl _
  · next v hv => exact erase_entries_perm (find?_eq_some_iff.mp hv)

@[simp] theorem mem_moveToEnd {d : OrderedDict K V} {k : K} {e : K × V} :
    e ∈ (d.moveToEnd k).entries ↔ e ∈ d.entries := (d.moveToEnd_perm k).mem_iff

@[simp] theorem size_moveToEnd (d : OrderedDict K V) (k : K) : (d.moveToEnd k).size = d.size :=
  (d.moveToEnd_perm k).length_eq

theorem values_moveToEnd (d : OrderedDict K V) (k : K) :
    (↑(d.moveToEnd k).values : Multiset V) = ↑d.values :=
  Multiset.coe_eq_coe.mpr ((d.moveToEnd_perm k).map Prod.snd)

@[simp] theorem mem_keys_moveToEnd {d : OrderedDict K V} {k k' : K} :
    k' ∈ (d.moveToEnd k).keys ↔ k' ∈ d.keys := by
  simp only [mem_keys_iff, mem_moveToEnd]

@[simp] theorem find?_moveToEnd (d : OrderedDict K V) (k k' : K) :
    (d.moveToEnd k).find? k' = d.find? k' := by
  refine Option.ext fun v => ?_
  simp only [find?_eq_some_iff, mem_moveToEnd]

theorem insert_of_notMem {d : OrderedDict K V} {k : K} (h : k ∉ d.keys) (v : V) :
    (d.insert k v).entries = d.entries ++ [(k, v)] := by
  rw [insert, dif_neg h]; rfl

/-- A fresh key adds its value to the values held. -/
theorem values_insert_of_notMem {d : OrderedDict K V} {k : K} (h : k ∉ d.keys) (v : V) :
    (↑(d.insert k v).values : Multiset V) = v ::ₘ ↑d.values := by
  rw [values, insert_of_notMem h, List.map_append, Multiset.cons_coe, Multiset.coe_eq_coe]
  exact List.perm_append_comm

theorem size_insert_of_notMem {d : OrderedDict K V} {k : K} (h : k ∉ d.keys) (v : V) :
    (d.insert k v).size = d.size + 1 := by
  rw [size, insert_of_notMem h, List.length_append]; rfl

theorem size_insert_le (d : OrderedDict K V) (k : K) (v : V) :
    (d.insert k v).size ≤ d.size + 1 := by
  by_cases h : k ∈ d.keys
  · rw [insert, dif_pos h, size, replace, List.length_map]
    exact Nat.le_succ _
  · exact (size_insert_of_notMem h v).le

theorem mem_insert {d : OrderedDict K V} {k k' : K} {v v' : V} :
    (k', v') ∈ (d.insert k v).entries ↔
      (k' = k ∧ v' = v) ∨ (k' ≠ k ∧ (k', v') ∈ d.entries) := by
  by_cases h : k ∈ d.keys
  · rw [insert, dif_pos h]
    show (k', v') ∈ d.entries.map _ ↔ _
    rw [List.mem_map]
    constructor
    · rintro ⟨⟨a, b⟩, hab, he⟩
      by_cases ha : a = k
      · rw [if_pos ha] at he
        exact Or.inl ⟨(Prod.mk.inj he).1.symm, (Prod.mk.inj he).2.symm⟩
      · rw [if_neg ha] at he
        cases he
        exact Or.inr ⟨ha, hab⟩
    · rintro (⟨rfl, rfl⟩ | ⟨hne, hm⟩)
      · obtain ⟨w, hw⟩ := mem_keys_iff.mp h
        exact ⟨(k', w), hw, by simp⟩
      · exact ⟨(k', v'), hm, by simp [hne]⟩
  · rw [insert_of_notMem h, List.mem_append, List.mem_singleton, Prod.mk.injEq]
    constructor
    · rintro (hm | he)
      · exact Or.inr ⟨fun he => h (he ▸ mem_keys_of_mem hm), hm⟩
      · exact Or.inl he
    · rintro (he | ⟨-, hm⟩)
      · exact Or.inr he
      · exact Or.inl hm

omit [DecidableEq K] in
theorem popFirst?_eq_none_iff {d : OrderedDict K V} : d.popFirst? = none ↔ d.size = 0 := by
  unfold popFirst? size
  match d with
  | ⟨[], _⟩ => simp
  | ⟨e :: rest, _⟩ => simp

omit [DecidableEq K] in
theorem popFirst?_eq_some {d d' : OrderedDict K V} {e : K × V} (h : d.popFirst? = some (e, d')) :
    d.entries = e :: d'.entries := by
  unfold popFirst? at h
  match d, h with
  | ⟨e' :: rest, _⟩, h => cases h; rfl

end OrderedDict
