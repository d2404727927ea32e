import Nifre.Properties.SharedForward

/-!
# Slots over shared blocks

What the calls of a paged cache with prefix caching do to the tokens that its slots hold, where
they return. A slot may be left behind with tokens of an ended request; nothing is loaded into it
before it is reset.

* `PagedKVCache.tryLoadPrefix_holding` — a slot holds what is restored
* `PagedKVCache.registerPrefix_holding` — a prompt is registered from the slot that holds it
-/

namespace Digest

variable {β δ : Type} {chain : δ → β → δ} {root : δ} {S : Set (List β)}

/-- The empty chain is in play anyway. -/
theorem CollisionFree.insert_nil (h : CollisionFree chain root S) :
    CollisionFree chain root (insert [] S) := by
  have hsplit : ∀ c, InPlay (insert [] S) c → c = [] ∨ InPlay S c := by
    rintro c ⟨p, rfl | hp, hc⟩
    · exact Or.inl (List.prefix_nil.mp hc)
    · exact Or.inr ⟨p, hp, hc⟩
  -- where a chain of `S` is in play, so is the empty one
  have hnil : ∀ {c}, InPlay S c → InPlay S [] := fun hc => hc.ofShorter (List.nil_prefix)
  intro c c' hc hc' he
  rcases hsplit c hc with rfl | hc
  · rcases hsplit c' hc' with rfl | hc'
    · rfl
    · exact h _ _ (hnil hc') hc' he
  · rcases hsplit c' hc' with rfl | hc'
    · exact h _ _ hc (hnil hc) he
    · exact h _ _ hc hc' he

end Digest

namespace Nifre

open Digest

namespace PagedKVCache

variable {Row : Type} {chain : Int → List Nat → Int} {kvOf : Nat → List Nat → Row × Row}
  {P : Set (List (List Nat))} {p p' : PagedKVCache Nat Row} {held : Nat → List Nat} {b : Nat}

theorem update_holding (b : Nat) (tokens : List Nat) :
    Function.update (holding held) b (some ⟨[], tokens, none⟩)
      = holding (Function.update held b tokens) := by
  funext i
  by_cases hib : i = b
  · subst hib
    simp [holding]
  · simp [holding, hib]

/-- The prompt of a slot only says how its tokens go on. -/
theorem lifeStores_prompt {prompt prompt' tokens : List Nat}
    (h : LifeStores kvOf p b (some ⟨prompt, tokens, none⟩))
    (hfollows : Life.Follows tokens prompt') :
    LifeStores kvOf p b (some ⟨prompt', tokens, none⟩) :=
  ⟨⟨hfollows, fun _ _ hr => absurd hr (by simp)⟩, h.2⟩

theorem follows_nil (tokens : List Nat) : Life.Follows tokens [] := Or.inr (List.nil_prefix)

theorem fullBlocks_nil_mem (hnil : [] ∈ P) (blockSize : Nat) :
    fullBlocks blockSize ([] : List Nat) ∈ P := by
  simpa [fullBlocks] using hnil

/-- Empty slots hold nothing. -/
theorem Inv.holding_nil (h : Inv chain kvOf P ⟨p, fun _ => none⟩) (hnil : [] ∈ P) :
    Inv chain kvOf P ⟨p, holding fun _ => []⟩ where
  sound := h.sound
  slots := fun b hb => lifeStores_nothing (h.slots b hb).2 []
  entries := h.entries
  prompts := fun _ _ hℓ => by
    cases hℓ
    exact fullBlocks_nil_mem hnil _

/-- A step of a slot that holds `tokens` afterwards. -/
theorem StepKeeps.holding (h : Inv chain kvOf P ⟨p, holding held⟩) (hnil : [] ∈ P)
    (hk : StepKeeps chain kvOf P (PagedKVCache.holding held) b p p') {prompt tokens : List Nat}
    (hb : LifeStores kvOf p' b (some ⟨prompt, tokens, none⟩)) :
    Inv chain kvOf P ⟨p', PagedKVCache.holding (Function.update held b tokens)⟩ := by
  have hinv := hk.inv h (lifeStores_prompt hb (follows_nil tokens)) fun ℓ hℓ => by
    cases hℓ
    exact fullBlocks_nil_mem hnil _
  rwa [update_holding] at hinv

/-- **A reset slot** holds nothing. -/
theorem resetSlot_holding (hash : CollisionFree chain PrefixCache.rootHash P) (hnil : [] ∈ P)
    (h : Inv chain kvOf P ⟨p, holding held⟩) (hb : b < p.batchSize) :
    ∃ p', (resetSlot (b : Int)).run p = .ok () p' ∧ SameShape p p' ∧
      Inv chain kvOf P ⟨p', holding (Function.update held b [])⟩ := by
  obtain ⟨p', hrun, hk, -, hslot⟩ := reset_keeps h.sound hash hb (fun i hi _ => h.slots i hi)
    h.entries
  exact ⟨p', hrun, hk.shape, hk.holding h hnil (lifeStores_nothing hslot [])⟩

/-- A slot without blocks holds nothing. -/
theorem Inv.held_nil (h : Inv chain kvOf P ⟨p, holding held⟩) (hb : b < p.batchSize)
    (hpos : 0 < p.numLayers) (ht : p.tables b = []) :
    held b = [] ∧ SlotStores p b 0 fun _ => [] := by
  obtain ⟨-, hslot⟩ := h.slots b hb
  have hrows : ∀ l < p.numLayers, (Life.rows kvOf ⟨[], held b, none⟩ l).length = 0 := by
    intro l hl
    have hcover := hslot.cover l hl
    rw [ht, List.length_nil, Nat.zero_mul] at hcover
    omega
  have hlen : (held b).length = 0 := by
    have hle := hslot.len_le 0 hpos
    rw [hrows 0 hpos] at hle
    exact Nat.le_zero.mp hle
  refine ⟨List.eq_nil_of_length_eq_zero hlen, ?_⟩
  rw [hlen] at hslot
  exact hslot.congr fun l hl => (List.eq_nil_of_length_eq_zero (hrows l hl)).symm

/-- **A load that returns**: the slot holds the tokens that were restored, if there are any. -/
theorem tryLoadPrefix_holding (hash : CollisionFree chain PrefixCache.rootHash P) (hnil : [] ∈ P)
    (h : Inv chain kvOf P ⟨p, holding held⟩) (hb : b < p.batchSize) (hpos : 0 < p.numLayers)
    {prompt : List Nat} (hP : fullBlocks p.blockSize prompt ∈ P) {n : Nat}
    (hrun : (tryLoadPrefix chain (b : Int) prompt).run p = .ok n p') :
    SameShape p p' ∧ Inv chain kvOf P
      ⟨p', holding (if n = 0 then held else Function.update held b (prompt.take n))⟩ := by
  obtain ⟨hsound, hshape⟩ := h.sound.call hash (.tryLoadPrefix b prompt) fun t ht => by
    cases ht
    exact hP
  rw [after_load chain b prompt p, Exec.after_of_ok hrun] at hsound hshape
  have ho := tryLoadPrefix_outcome chain h.sound.accounted (b : Int) prompt
  rw [pyIndex_natCast hb, hrun] at ho
  -- without a hit the slots are as before, and a hit needs an empty slot
  cases ho with
  | disabled _ => exact ⟨hshape, h⟩
  | miss q hq _ =>
    exact ⟨hshape, hsound, fun i hi => (h.slots i hi).other rfl fun _ _ => touched_keeps hq,
      h.entries.touched hq prompt, h.prompts⟩
  | hit q b' a hq hne hs ht _ _ _ =>
    cases hs
    obtain ⟨-, hempty⟩ := h.held_nil hb hpos ht
    have hfree : Inv chain kvOf P ⟨p, Function.update (holding held) b none⟩ := by
      refine ⟨h.sound, fun i hi => ?_, h.entries, fun i ℓ hℓ => ?_⟩
      · by_cases hib : i = b
        · subst hib
          simp only [Function.update_self]
          exact ⟨ht, hempty⟩
        · simp only [Function.update_of_ne hib]
          exact h.slots i hi
      · by_cases hib : i = b
        · subst hib
          simp only [Function.update_self] at hℓ
          cases hℓ
        · simp only [Function.update_of_ne hib] at hℓ
          exact h.prompts i ℓ hℓ
    obtain ⟨n, c, hload, hk, -, hstores⟩ := load_keeps hfree hash hb (Function.update_self _ _ _) hP
    cases hrun.symm.trans hload
    have hn : (q.found chain prompt).length * q.blockSize ≠ 0 :=
      Nat.mul_ne_zero (by simpa using hne) (Nat.pos_iff_ne_zero.mp q.blockSize_pos)
    have hk' : StepKeeps chain kvOf P (holding held) b p _ :=
      ⟨hk.sound, hk.shape, fun i hi hib => Function.update_of_ne hib none (holding held) ▸
        hk.others i hi hib, hk.entries⟩
    rw [if_neg hn]
    exact ⟨hshape, hk'.holding h hnil (hstores hn)⟩

/-- **A register that returns** leaves what the slots hold, if the slot holds the prompt. -/
theorem registerPrefix_holding (hash : CollisionFree chain PrefixCache.rootHash P) (hnil : [] ∈ P)
    (h : Inv chain kvOf P ⟨p, holding held⟩) (hb : b < p.batchSize)
    (hP : fullBlocks p.blockSize (held b) ∈ P)
    (hrun : (registerPrefix chain (b : Int) (held b)).run p = .ok () p') :
    SameShape p p' ∧ Inv chain kvOf P ⟨p', holding held⟩ := by
  -- the slot begins with the prompt that it holds
  have hslot : LifeStores kvOf p b (some ⟨held b, held b, none⟩) :=
    lifeStores_prompt (h.slots b hb) (Or.inl (List.prefix_refl _))
  have hstay : StepKeeps chain kvOf P (holding held) b p p :=
    ⟨h.sound, SameShape.refl p, fun i hi _ => h.slots i hi, h.entries⟩
  have hbegun := hstay.inv h hslot fun ℓ hℓ => by
    cases hℓ
    exact hP
  obtain ⟨hinv, hshape⟩ := register_keeps hbegun hash hb (Function.update_self _ _ _)
    (Nat.le_refl _)
  have hstep : System.step chain kvOf
      ⟨p, Function.update (holding held) b (some ⟨held b, held b, none⟩)⟩ (.register b)
      = ⟨p', Function.update (holding held) b (some ⟨held b, held b, none⟩)⟩ := by
    simp only [System.step, Function.update_self, Exec.after_of_ok hrun]
  rw [hstep] at hinv hshape
  refine ⟨hshape, hinv.sound, fun i hi => ?_, hinv.entries, fun i ℓ hℓ => ?_⟩
  · have hstores := hinv.slots i hi
    by_cases hib : i = b
    · subst hib
      simp only [Function.update_self] at hstores
      exact lifeStores_prompt hstores (follows_nil _)
    · simp only [Function.update_of_ne hib] at hstores
      exact hstores
  · cases hℓ
    exact fullBlocks_nil_mem hnil _

end PagedKVCache

end Nifre
