import Nifre.Properties.PagedAccounting
import Nifre.Properties.Serving
import Mathlib.Logic.Relation

/-!
# Slots that stay clear

A call on one slot of the paged cache leaves the other slots alone, and so does a forward pass of
a model that only appends to the slots of its batch. `Clear` says that every slot outside a set of
busy ones has an empty block table and length 0.
-/

namespace Nifre

open Digest

namespace PagedKVCache

variable {Tok Row : Type} [DecidableEq Tok] {chain : Int → List Tok → Int}
  {c : PagedKVCache Tok Row}

/-! ## One call, one slot -/

/-- The slot a call is about. -/
def Op.slot : Op Tok Row → Int
  | .append batchIdx _ _ _ => batchIdx
  | .tryLoadPrefix batchIdx _ => batchIdx
  | .registerPrefix batchIdx _ => batchIdx
  | .resetSlot batchIdx => batchIdx

/-- The table and the length of a slot. -/
def SameSlot (c c' : PagedKVCache Tok Row) (i : Nat) : Prop :=
  c'.tables i = c.tables i ∧ c'.pos i = c.pos i

omit [DecidableEq Tok] in
theorem SameSlot.update {c' : PagedKVCache Tok Row} {b i : Nat} {t : List Int} {n : Nat}
    (hi : i ≠ b) (ht : c'.tables = Function.update c.tables b t)
    (hp : c'.pos = Function.update c.pos b n) : SameSlot c c' i :=
  ⟨by rw [ht, Function.update_of_ne hi], by rw [hp, Function.update_of_ne hi]⟩

variable (chain) in
/-- **A call leaves the other slots alone**, on either exit. -/
theorem call_sameSlot (h : c.Accounted) (op : Op Tok Row) {i : Nat}
    (hi : pyIndex c.batchSize op.slot ≠ some i) :
    SameSlot c (Exec.after (call chain op) c) i := by
  have hne : ∀ {b}, pyIndex c.batchSize op.slot = some b → i ≠ b := fun hb he => hi (he ▸ hb)
  cases op with
  | append batchIdx layerId key value =>
    have ho := append_outcome h batchIdx layerId key value
    show SameSlot c (Exec.stateOf ((append batchIdx layerId key value).run c)) i
    generalize (append batchIdx layerId key value).run c = result at ho
    cases ho with
    | noSlot _ => exact ⟨rfl, rfl⟩
    | tooLong _ _ _ => exact ⟨rfl, rfl⟩
    | exhausted b new a msg hs => exact ⟨Function.update_of_ne (hne hs) _ _, rfl⟩
    | broken b new a k v e hs => exact ⟨Function.update_of_ne (hne hs) _ _, rfl⟩
    | done b new a k v hs =>
      refine ⟨Function.update_of_ne (hne hs) _ _, ?_⟩
      show (if _ then Function.update c.pos b _ else c.pos) i = c.pos i
      split
      · exact Function.update_of_ne (hne hs) _ _
      · rfl
  | tryLoadPrefix batchIdx tokenIds =>
    have ho := tryLoadPrefix_outcome chain h batchIdx tokenIds
    rw [after_load]
    show SameSlot c (Exec.stateOf ((tryLoadPrefix chain batchIdx tokenIds).run c)) i
    generalize (tryLoadPrefix chain batchIdx tokenIds).run c = result at ho
    cases ho with
    | disabled _ => exact ⟨rfl, rfl⟩
    | miss _ _ _ => exact ⟨rfl, rfl⟩
    | noSlot _ _ _ _ => exact ⟨rfl, rfl⟩
    | busy _ _ _ _ _ _ => exact ⟨rfl, rfl⟩
    | hit p b a _ _ hs => exact SameSlot.update (hne hs) rfl rfl
  | registerPrefix batchIdx tokenIds =>
    have ho := registerPrefix_outcome chain h batchIdx tokenIds
    show SameSlot c (Exec.stateOf ((registerPrefix chain batchIdx tokenIds).run c)) i
    generalize (registerPrefix chain batchIdx tokenIds).run c = result at ho
    cases ho with
    | disabled _ => exact ⟨rfl, rfl⟩
    | noSlot _ _ _ => exact ⟨rfl, rfl⟩
    | inserted _ _ _ _ _ _ => exact ⟨rfl, rfl⟩
  | resetSlot batchIdx =>
    have ho := resetSlot_outcome h batchIdx
    show SameSlot c (Exec.stateOf ((resetSlot batchIdx).run c)) i
    generalize (resetSlot batchIdx).run c = result at ho
    cases ho with
    | noSlot _ => exact ⟨rfl, rfl⟩
    | duplicate _ _ _ _ => exact ⟨rfl, rfl⟩
    | cleared b a hs => exact SameSlot.update (hne hs) rfl rfl

/-! ## Clear slots -/

/-- A sound cache with room for `n` slots, where the slots outside `busy` hold nothing. -/
structure Clear (chain : Int → List Tok → Int) (P : Set (List (List Tok))) (blockSize n : Nat)
    (busy : Set Nat) (c : PagedKVCache Tok Row) : Prop where
  sound : Sound chain P c
  blockSize : c.blockSize = blockSize
  room : n ≤ c.batchSize
  clear : ∀ b ∉ busy, c.tables b = [] ∧ c.pos b = 0

variable {P : Set (List (List Tok))} {blockSize n : Nat} {busy : Set Nat}

omit [DecidableEq Tok] in
/-- Fewer slots need to be clear, and there is room for fewer. -/
theorem Clear.mono (h : Clear chain P blockSize n busy c) {busy' : Set Nat} (hbusy : busy ⊆ busy')
    {n' : Nat} (hn : n' ≤ n) : Clear chain P blockSize n' busy' c where
  sound := h.sound
  blockSize := h.blockSize
  room := hn.trans h.room
  clear := fun b hb => h.clear b fun hm => hb (hbusy hm)

theorem Clear.call (hash : CollisionFree chain PrefixCache.rootHash P)
    (h : Clear chain P blockSize n busy c) (op : Op Tok Row)
    (hslot : ∀ b, pyIndex c.batchSize op.slot = some b → b ∈ busy)
    (hP : ∀ tokenIds, op.prompt? = some tokenIds → fullBlocks blockSize tokenIds ∈ P) :
    Clear chain P blockSize n busy (Exec.after (PagedKVCache.call chain op) c) := by
  obtain ⟨hsound, hshape⟩ := h.sound.call hash op (h.blockSize ▸ hP)
  refine ⟨hsound, hshape.blockSize.trans h.blockSize, hshape.batchSize ▸ h.room, fun b hb => ?_⟩
  obtain ⟨ht, hp⟩ := call_sameSlot chain h.sound.accounted op
    (fun hs => hb (hslot b hs))
  rw [ht, hp]
  exact h.clear b hb

/-- **A reset goes through and leaves its slot clear.** -/
theorem Clear.release (hash : CollisionFree chain PrefixCache.rootHash P)
    (h : Clear chain P blockSize n busy c) {b : Nat} (hb : b < n) :
    ∃ c', (PagedKVCache.resetSlot (b : Int)).run c = .ok () c' ∧
      Clear chain P blockSize n (busy \ {b}) c' := by
  have hlt : b < c.batchSize := hb.trans_le h.room
  have hs : pyIndex c.batchSize (b : Int) = some b := pyIndex_natCast hlt
  have hclear := (h.sound.call hash (.resetSlot (b : Int)) nofun)
  have hothers := fun i => call_sameSlot chain h.sound.accounted (.resetSlot (b : Int))
    (i := i)
  have ho := resetSlot_outcome h.sound.accounted (b : Int)
  rw [hs] at ho
  unfold PagedKVCache.call at hclear hothers
  unfold Exec.after at hclear hothers
  cases hr : (PagedKVCache.resetSlot (b : Int)).run c with
  | error e c' =>
    rw [hr] at ho
    cases ho with
    | noSlot hn => cases hn
    | duplicate b' _ hb' hdup =>
      cases hb'
      exact absurd (h.sound.table_nodup hlt) hdup
  | ok x c' =>
    rw [hr] at ho hclear hothers
    refine ⟨c', rfl, hclear.1, hclear.2.blockSize.trans h.blockSize,
      hclear.2.batchSize ▸ h.room, fun i hi => ?_⟩
    by_cases he : i = b
    · subst he
      cases ho with
      | cleared b' a hb' _ _ _ =>
        cases hb'
        exact ⟨Function.update_self _ _ _, Function.update_self _ _ _⟩
    · obtain ⟨ht, hp⟩ := hothers i fun hi => he (eq_of_pyIndex_natCast hi)
      have hnb : i ∉ busy := fun hm => hi ⟨hm, he⟩
      exact ⟨ht.trans (h.clear i hnb).1, hp.trans (h.clear i hnb).2⟩

/-- Into a clear slot a cached prefix can always be loaded. -/
theorem Clear.tryLoadPrefix_returns (h : Clear chain P blockSize n busy c) {b : Nat} (hb : b < n)
    (hclear : c.tables b = []) (tokenIds : List Tok) :
    Exec.Returns (PagedKVCache.tryLoadPrefix chain (b : Int) tokenIds) c := by
  have ho := tryLoadPrefix_outcome chain h.sound.accounted (b : Int) tokenIds
  rw [pyIndex_natCast (hb.trans_le h.room)] at ho
  cases hr : (PagedKVCache.tryLoadPrefix chain (b : Int) tokenIds).run c with
  | ok x c' => exact ⟨x, c', hr⟩
  | error e c' =>
    rw [hr] at ho
    cases ho with
    | noSlot _ _ _ hn => cases hn
    | busy _ b' _ _ hb' ht =>
      cases hb'
      exact absurd hclear ht

end PagedKVCache

/-! ## Any cache -/

namespace KVCacheType

variable {Row : Type} {chain : Int → List Nat → Int} {P : Set (List (List Nat))}
  {blockSize n : Nat} {busy : Set Nat}

/-- Where the cache is paged, its slots outside `busy` hold nothing. -/
def Clear (chain : Int → List Nat → Int) (P : Set (List (List Nat))) (blockSize n : Nat)
    (busy : Set Nat) (c : KVCacheType Row) : Prop :=
  ∀ p, c = .paged p → p.Clear chain P blockSize n busy

theorem Clear.mono {c : KVCacheType Row} (h : c.Clear chain P blockSize n busy) {busy' : Set Nat}
    (hbusy : busy ⊆ busy') {n' : Nat} (hn : n' ≤ n) : c.Clear chain P blockSize n' busy' :=
  fun p hp => (h p hp).mono hbusy hn

/-- **A reset leaves its slot clear.** -/
theorem Clear.release (hash : CollisionFree chain PrefixCache.rootHash P) {c : KVCacheType Row}
    (h : c.Clear chain P blockSize n busy) {b : Nat} (hb : b < n) :
    (Exec.after (resetSlot (b : Int)) c).Clear chain P blockSize n (busy \ {b}) := by
  intro p hp
  cases c with
  | dense d => cases (Exec.stateOf_embed dense _).symm.trans hp
  | hf d => cases (Exec.stateOf_embed hf _).symm.trans hp
  | paged q =>
    obtain ⟨q', hrun, hq'⟩ := (h q rfl).release hash hb
    have hafter : Exec.after (resetSlot (b : Int)) (paged q) = paged q' := by
      refine (Exec.stateOf_embed paged _).trans ?_
      rw [hrun]
      rfl
    cases hafter.symm.trans hp
    exact hq'

/-- A method that does on a paged cache what `op` does. -/
theorem clear_keeps (hash : CollisionFree chain PrefixCache.rootHash P) {α : Type} {m : M Row α}
    (op : PagedKVCache.Op Nat Row) (hslot : ∃ b ∈ busy, op.slot = ((b : Nat) : Int))
    (hP : ∀ tokenIds, op.prompt? = some tokenIds → fullBlocks blockSize tokenIds ∈ P)
    (hpaged : ∀ p, Exec.after m (.paged p) = .paged (Exec.after (PagedKVCache.call chain op) p))
    (hdense : ∀ d, ∃ d', Exec.after m (.dense d) = .dense d')
    (hhf : ∀ d, ∃ d', Exec.after m (.hf d) = .hf d') :
    Exec.Keeps (Clear chain P blockSize n busy) m := by
  obtain ⟨b, hb, hslot⟩ := hslot
  intro c hc p hp
  cases c with
  | dense d =>
    obtain ⟨d', hd⟩ := hdense d
    cases hd.symm.trans hp
  | hf d =>
    obtain ⟨d', hd⟩ := hhf d
    cases hd.symm.trans hp
  | paged q =>
    cases (hpaged q).symm.trans hp
    refine (hc q rfl).call hash op (fun i hi => ?_) hP
    rw [hslot] at hi
    exact eq_of_pyIndex_natCast hi ▸ hb

theorem append_clear (hash : CollisionFree chain PrefixCache.rootHash P) {b : Nat} (hb : b ∈ busy)
    (layerId : Int) (key value : List Row) :
    Exec.Keeps (Clear chain P blockSize n busy) (append (b : Int) layerId key value) :=
  clear_keeps hash (.append b layerId key value) ⟨b, hb, rfl⟩ nofun
    (fun _ => Exec.stateOf_embed paged _) (fun _ => ⟨_, Exec.stateOf_embed dense _⟩)
    fun d => ⟨d, rfl⟩

theorem resetSlot_clear (hash : CollisionFree chain PrefixCache.rootHash P) {b : Nat}
    (hb : b ∈ busy) : Exec.Keeps (Clear chain P blockSize n busy)
      (resetSlot (b : Int) : M Row Unit) :=
  clear_keeps hash (.resetSlot b) ⟨b, hb, rfl⟩ nofun (fun _ => Exec.stateOf_embed paged _)
    (fun _ => ⟨_, Exec.stateOf_embed dense _⟩) fun _ => ⟨_, Exec.stateOf_embed hf _⟩

theorem tryLoadPrefix_clear (hash : CollisionFree chain PrefixCache.rootHash P) {b : Nat}
    (hb : b ∈ busy) {tokenIds : List Nat} (hP : fullBlocks blockSize tokenIds ∈ P) :
    Exec.Keeps (Clear chain P blockSize n busy)
      (tryLoadPrefix chain (b : Int) tokenIds : M Row Nat) :=
  clear_keeps hash (.tryLoadPrefix b tokenIds) ⟨b, hb, rfl⟩
    (fun _ hp => by cases hp; exact hP)
    (fun _ => (Exec.stateOf_embed paged _).trans (by rw [PagedKVCache.after_load]; rfl))
    (fun d => ⟨d, rfl⟩) fun _ => ⟨_, Exec.stateOf_embed hf _⟩

theorem registerPrefix_clear (hash : CollisionFree chain PrefixCache.rootHash P) {b : Nat}
    (hb : b ∈ busy) {tokenIds : List Nat} (hP : fullBlocks blockSize tokenIds ∈ P) :
    Exec.Keeps (Clear chain P blockSize n busy)
      (registerPrefix chain (b : Int) tokenIds : M Row Unit) :=
  clear_keeps hash (.registerPrefix b tokenIds) ⟨b, hb, rfl⟩ (fun _ hp => by cases hp; exact hP)
    (fun _ => Exec.stateOf_embed paged _) (fun d => ⟨d, rfl⟩) fun _ => ⟨_, Exec.stateOf_embed hf _⟩

/-! ## Models that only append -/

/-- One append to a slot of `slots`, returning or raising. -/
inductive AppendTo (slots : List Nat) (c : KVCacheType Row) : KVCacheType Row → Prop
  | intro (b : Nat) (layerId : Int) (key value : List Row) : b ∈ slots →
      AppendTo slots c (Exec.after (append (b : Int) layerId key value) c)

/-- All that a computation does to a cache is to append to slots of `slots`. -/
def OnlyAppends {α : Type} (slots : List Nat) (m : M Row α) : Prop :=
  ∀ c, Relation.ReflTransGen (AppendTo slots) c (Exec.after m c)

variable {α β : Type} {slots : List Nat}

theorem OnlyAppends.clear (hash : CollisionFree chain PrefixCache.rootHash P) {m : M Row α}
    (h : OnlyAppends slots m) (hslots : ∀ b ∈ slots, b ∈ busy) :
    Exec.Keeps (Clear chain P blockSize n busy) m := by
  intro c hc
  refine Relation.ReflTransGen.rec (motive := fun c' _ => Clear chain P blockSize n busy c') hc ?_
    (h c)
  rintro c₁ _ - ⟨b, layerId, key, value, hb⟩ h₁
  exact append_clear hash (hslots b hb) layerId key value c₁ h₁

/-- What an append keeps, the computation keeps. -/
theorem OnlyAppends.keeps {I : KVCacheType Row → Prop} {m : M Row α} (h : OnlyAppends slots m)
    (hI : ∀ b layerId key value, Exec.Keeps I (append b layerId key value)) : Exec.Keeps I m := by
  intro c hc
  refine Relation.ReflTransGen.rec (motive := fun c' _ => I c') hc ?_ (h c)
  rintro c₁ _ - ⟨b, layerId, key, value, -⟩ h₁
  exact hI _ _ _ _ c₁ h₁

theorem onlyAppends_append {b : Nat} (hb : b ∈ slots) (layerId : Int) (key value : List Row) :
    OnlyAppends slots (append (b : Int) layerId key value) :=
  fun _ => .single (.intro b layerId key value hb)

theorem OnlyAppends.of_reads {m : M Row α} (h : ∀ c, Exec.after m c = c) : OnlyAppends slots m :=
  fun c => by rw [h c]

theorem OnlyAppends.bind {m : M Row α} {f : α → M Row β} (hm : OnlyAppends slots m)
    (hf : ∀ a, OnlyAppends slots (f a)) : OnlyAppends slots (m >>= f) := by
  intro c
  have h := hm c
  rw [Exec.after_bind]
  unfold Exec.after at h
  cases hr : m.run c with
  | ok a t =>
    rw [hr] at h
    exact h.trans (hf a t)
  | error e t =>
    rw [hr] at h
    exact h

theorem OnlyAppends.mapM {γ : Type} {f : γ → M Row β} : ∀ (l : List γ),
    (∀ a ∈ l, OnlyAppends slots (f a)) → OnlyAppends slots (l.mapM f)
  | [], _ => .of_reads fun _ => rfl
  | a :: l, h => by
    rw [List.mapM_cons]
    exact (h a List.mem_cons_self).bind fun _ =>
      (OnlyAppends.mapM l fun b hb => h b (List.mem_cons_of_mem a hb)).bind fun _ =>
        .of_reads fun _ => rfl

theorem OnlyAppends.forM {γ : Type} {f : γ → M Row PUnit} : ∀ (l : List γ),
    (∀ a ∈ l, OnlyAppends slots (f a)) → OnlyAppends slots (forM l f)
  | [], _ => .of_reads fun _ => rfl
  | a :: l, h => by
    rw [List.forM_cons]
    exact (h a List.mem_cons_self).bind fun _ =>
      OnlyAppends.forM l fun b hb => h b (List.mem_cons_of_mem a hb)

/-- Reading changes nothing. -/
theorem get_reads (batchIdx layerId : Int) (c : KVCacheType Row) :
    Exec.after (get batchIdx layerId) c = c := by
  cases c with
  | dense d =>
    refine (Exec.stateOf_embed dense _).trans (congrArg dense ?_)
    have hslot : Exec.Keeps (· = d) (KVCache.slotOf batchIdx : KVCache.M Row Nat) :=
      Exec.Keeps.get_bind fun s hs => by
        split <;> exact hs
    have hlayer : Exec.Keeps (· = d) (KVCache.layerOf layerId : KVCache.M Row Nat) :=
      Exec.Keeps.get_bind fun s hs => by
        split <;> exact hs
    exact hslot.bind (fun _ => hlayer.bind fun _ => Exec.Keeps.get.bind fun _ =>
      Exec.Keeps.pure _) d rfl
  | paged p =>
    refine (Exec.stateOf_embed paged _).trans (congrArg paged ?_)
    have hslot : Exec.Keeps (· = p) (PagedKVCache.slotOf batchIdx : PagedKVCache.M Nat Row Nat) :=
      Exec.Keeps.get_bind fun s hs => by
        split <;> exact hs
    refine hslot.bind (fun b => Exec.Keeps.get_bind fun s hs => ?_) p rfl
    refine Exec.Keeps.ite (I := (· = p)) (fun _ => Exec.Keeps.pure _) (fun _ => ?_) s hs
    split
    · exact Exec.Keeps.throw _
    · exact Exec.Keeps.throw _
    · exact Exec.Keeps.pure _
  | hf h => rfl

theorem length_reads (batchIdx : Int) (c : KVCacheType Row) :
    Exec.after (length batchIdx) c = c := by
  cases c with
  | dense d =>
    refine (Exec.stateOf_embed dense _).trans (congrArg dense ?_)
    have hslot : Exec.Keeps (· = d) (KVCache.slotOf batchIdx : KVCache.M Row Nat) :=
      Exec.Keeps.get_bind fun s hs => by
        split <;> exact hs
    exact hslot.bind (fun _ => Exec.Keeps.get.bind fun _ => Exec.Keeps.pure _) d rfl
  | paged p =>
    refine (Exec.stateOf_embed paged _).trans (congrArg paged ?_)
    have hslot : Exec.Keeps (· = p) (PagedKVCache.slotOf batchIdx : PagedKVCache.M Nat Row Nat) :=
      Exec.Keeps.get_bind fun s hs => by
        split <;> exact hs
    exact hslot.bind (fun _ => Exec.Keeps.get.bind fun _ => Exec.Keeps.pure _) p rfl
  | hf h =>
    refine (Exec.stateOf_embed hf _).trans (congrArg hf ?_)
    have hslot : Exec.Keeps (· = h) (HFKVCache.slotOf batchIdx : HFKVCache.M Nat Row Nat) :=
      Exec.Keeps.get_bind fun s hs => by
        split <;> exact hs
    exact hslot.bind (fun _ => Exec.Keeps.get.bind fun _ => Exec.Keeps.pure _) h rfl

end KVCacheType

end Nifre
