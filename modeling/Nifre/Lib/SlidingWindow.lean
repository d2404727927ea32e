import Mathlib.Algebra.Order.Field.Basic
import Mathlib.Data.List.Chain
import Mathlib.Tactic.Linarith

/-!
# Sliding windows

Samples arrive in the order of their keys, and each arrival drops the samples before a cutoff from
the front. Nothing is lost by dropping early: what is left is what one would keep of all samples.
-/

namespace SlidingWindow

variable {α K : Type*} [LinearOrder K] {key : α → K}

/-- Drop the samples before the cutoff from the front. -/
def prune (key : α → K) (cutoff : K) (samples : List α) : List α :=
  samples.dropWhile fun x => key x < cutoff

theorem prune_append_prune {cutoff cutoff' : K} (h : cutoff ≤ cutoff') (samples rest : List α) :
    prune key cutoff' (prune key cutoff samples ++ rest)
      = prune key cutoff' (samples ++ rest) := by
  induction samples with
  | nil => rfl
  | cons x samples ih =>
    by_cases hx : key x < cutoff
    · have hx' : key x < cutoff' := lt_of_lt_of_le hx h
      have hdrop : prune key cutoff (x :: samples) = prune key cutoff samples :=
        List.dropWhile_cons_of_pos (by simpa using hx)
      have hdrop' : prune key cutoff' (x :: (samples ++ rest))
          = prune key cutoff' (samples ++ rest) :=
        List.dropWhile_cons_of_pos (by simpa using hx')
      rw [hdrop, ih, List.cons_append, hdrop']
    · have hkeep : prune key cutoff (x :: samples) = x :: samples :=
        List.dropWhile_cons_of_neg (by simpa using hx)
      rw [hkeep]

/-- The window after the arrivals, each with its own cutoff. -/
def slide (key cut : α → K) (samples : List α) : List α :=
  samples.foldl (fun window x => prune key (cut x) (window ++ [x])) []

theorem slide_append (cut : α → K) (samples : List α) (x : α) :
    slide key cut (samples ++ [x]) = prune key (cut x) (slide key cut samples ++ [x]) := by
  unfold slide
  rw [List.foldl_append, List.foldl_cons, List.foldl_nil]

/-- The arrivals up to a later cutoff. -/
theorem prune_slide {cut : α → K} {samples : List α}
    (hcut : samples.Pairwise fun x y => cut x ≤ cut y) {cutoff : K}
    (hlast : ∀ x ∈ samples, cut x ≤ cutoff) (rest : List α) :
    prune key cutoff (slide key cut samples ++ rest) = prune key cutoff (samples ++ rest) := by
  induction samples using List.reverseRecOn generalizing rest with
  | nil => rfl
  | append_singleton samples x ih =>
    rw [List.pairwise_append] at hcut
    have hx : cut x ≤ cutoff := hlast x (by simp)
    rw [slide_append, prune_append_prune hx, List.append_assoc, List.append_assoc]
    exact ih hcut.1 (fun y hy => hlast y (by simp [hy])) _

/-- **The window is what one keeps of all samples.** -/
theorem slide_eq_prune {cut : α → K} {samples : List α} {x : α}
    (hcut : (samples ++ [x]).Pairwise fun x y => cut x ≤ cut y) :
    slide key cut (samples ++ [x]) = prune key (cut x) (samples ++ [x]) := by
  rw [List.pairwise_append] at hcut
  rw [slide_append]
  exact prune_slide hcut.1 (fun y hy => hcut.2.2 y hy x (by simp)) [x]

/-- Of ordered samples, those from the cutoff on are kept. -/
theorem mem_prune {cutoff : K} {samples : List α}
    (hordered : samples.Pairwise fun x y => key x ≤ key y) {x : α} :
    x ∈ prune key cutoff samples ↔ x ∈ samples ∧ cutoff ≤ key x := by
  induction samples with
  | nil => simp [prune]
  | cons y samples ih =>
    rw [List.pairwise_cons] at hordered
    obtain ⟨hfirst, hordered⟩ := hordered
    by_cases hy : key y < cutoff
    · have hdrop : prune key cutoff (y :: samples) = prune key cutoff samples :=
        List.dropWhile_cons_of_pos (by simpa using hy)
      rw [hdrop, ih hordered]
      constructor
      · exact fun ⟨hx, hle⟩ => ⟨List.mem_cons_of_mem _ hx, hle⟩
      · rintro ⟨hx, hle⟩
        rcases List.mem_cons.mp hx with rfl | hx
        · exact absurd hy (not_lt.mpr hle)
        · exact ⟨hx, hle⟩
    · have hkeep : prune key cutoff (y :: samples) = y :: samples :=
        List.dropWhile_cons_of_neg (by simpa using hy)
      rw [hkeep]
      refine ⟨fun hx => ⟨hx, ?_⟩, fun h => h.1⟩
      rcases List.mem_cons.mp hx with rfl | hx
      · exact not_lt.mp hy
      · exact le_trans (not_lt.mp hy) (hfirst x hx)

theorem prune_sublist (key : α → K) (cutoff : K) (samples : List α) :
    (prune key cutoff samples).Sublist samples :=
  List.dropWhile_sublist _

/-- A last sample that is not before the cutoff stays the last one. -/
theorem prune_append_singleton (key : α → K) {cutoff : K} (samples : List α) {x : α}
    (hx : cutoff ≤ key x) :
    prune key cutoff (samples ++ [x]) = prune key cutoff samples ++ [x] := by
  induction samples with
  | nil => exact List.dropWhile_cons_of_neg (by simpa using hx)
  | cons y samples ih =>
    by_cases hy : key y < cutoff
    · have hdrop : ∀ rest, prune key cutoff (y :: rest) = prune key cutoff rest := fun rest =>
        List.dropWhile_cons_of_pos (by simpa using hy)
      rw [List.cons_append, hdrop, hdrop, ih]
    · have hkeep : ∀ rest, prune key cutoff (y :: rest) = y :: rest := fun rest =>
        List.dropWhile_cons_of_neg (by simpa using hy)
      rw [List.cons_append, hkeep, hkeep, List.cons_append]

/-! ## Evenly spaced samples -/

section Spaced

variable {F : Type*} [Field F] [LinearOrder F] [IsStrictOrderedRing F] {key : α → F} {gap : F}

/-- The samples are in order, and no two neighbours are more than `gap` apart. -/
def Spaced (key : α → F) (gap : F) (samples : List α) : Prop :=
  samples.IsChain fun x y => key x ≤ key y ∧ key y - key x ≤ gap

omit [IsStrictOrderedRing F] in
theorem Spaced.ordered {samples : List α} (h : Spaced key gap samples) :
    samples.Pairwise fun x y => key x ≤ key y := by
  have hchain : samples.IsChain fun x y => key x ≤ key y := h.imp fun _ _ hxy => hxy.1
  have htrans : IsTrans α fun x y => key x ≤ key y := ⟨fun _ _ _ => le_trans⟩
  exact List.isChain_iff_pairwise.mp hchain

theorem Spaced.span_le {x : α} {samples : List α} (h : Spaced key gap (x :: samples)) :
    key ((x :: samples).getLast (List.cons_ne_nil _ _)) - key x ≤ samples.length * gap := by
  induction samples generalizing x with
  | nil => simp
  | cons y samples ih =>
    obtain ⟨⟨-, hgap⟩, hrest⟩ := List.isChain_cons_cons.mp h
    have hspan := ih hrest
    rw [List.getLast_cons (List.cons_ne_nil _ _), List.length_cons]
    push_cast
    linarith

/-- **A window of `n` gaps holds more than `n` samples**, if they reach back to its beginning. -/
theorem Spaced.lt_length_prune {x : α} {samples : List α} (h : Spaced key gap (x :: samples))
    (hgap : 0 < gap) (n : ℕ) (now : F)
    (hlast : key ((x :: samples).getLast (List.cons_ne_nil _ _)) = now)
    (hback : key x < now - n * gap + gap) :
    n < (prune key (now - n * gap) (x :: samples)).length := by
  induction samples generalizing x with
  | nil =>
    -- the only sample is the last one, so it is within the window
    have hn : (0 : F) ≤ n * gap := mul_nonneg n.cast_nonneg hgap.le
    rw [List.getLast_singleton] at hlast
    rw [hlast] at hback
    have hlt : (n : F) < 1 := by
      by_contra hle
      have := mul_le_mul_of_nonneg_right (not_lt.mp hle) hgap.le
      linarith
    have hkeep : prune key (now - n * gap) [x] = [x] :=
      List.dropWhile_cons_of_neg (by simp only [decide_eq_true_eq, hlast]; linarith)
    rw [hkeep]
    exact_mod_cast hlt
  | cons y samples ih =>
    obtain ⟨⟨-, hstep⟩, hrest⟩ := List.isChain_cons_cons.mp h
    by_cases hx : key x < now - n * gap
    · have hdrop : prune key (now - n * gap) (x :: y :: samples)
          = prune key (now - n * gap) (y :: samples) :=
        List.dropWhile_cons_of_pos (by simpa using hx)
      rw [hdrop]
      refine ih hrest ?_ (by linarith)
      rwa [List.getLast_cons (List.cons_ne_nil _ _)] at hlast
    · have hkeep : prune key (now - n * gap) (x :: y :: samples) = x :: y :: samples :=
        List.dropWhile_cons_of_neg (by simpa using hx)
      have hspan := h.span_le
      rw [hlast] at hspan
      have hlt : (n : F) - 1 < ((y :: samples).length : F) := by
        by_contra hle
        have := mul_le_mul_of_nonneg_right (not_lt.mp hle) hgap.le
        linarith
      rw [hkeep, List.length_cons]
      have : (n : F) < ((y :: samples).length : F) + 1 := by linarith
      exact_mod_cast this

end Spaced

end SlidingWindow
