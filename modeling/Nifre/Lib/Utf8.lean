import Mathlib.Data.List.Basic
import Mathlib.Data.List.Induction

/-!
# Decoding UTF-8 with replacement

A decoder that reads one byte at a time. A byte that cannot start a sequence, and a sequence that
breaks off, are each replaced by U+FFFD; the byte that breaks a sequence off starts afresh.

* `Pending` — a sequence that has begun, with the range its next byte must be in
* `decode` — the text of a list of bytes
* `decode_encode` — the encoding of a text is decoded to it
* `decode_flatten_iff` — pieces may be decoded apart exactly when no sequence runs across a cut
-/

namespace Utf8

/-- U+FFFD. -/
def replacement : Char := '\uFFFD'

/-- A sequence that has begun: `owed` more bytes, the next of them in `lo..hi`, and the bits so
far. -/
structure Pending where
  owed : Nat
  lo : Nat
  hi : Nat
  bits : Nat
  lo_ge : 0x80 ≤ lo
  hi_le : hi ≤ 0xBF
  deriving DecidableEq

namespace Pending

/-- The sequence goes on with `b`. -/
def Accepts (p : Pending) (b : UInt8) : Prop := p.lo ≤ b.toNat ∧ b.toNat ≤ p.hi

instance (p : Pending) (b : UInt8) : Decidable (p.Accepts b) :=
  inferInstanceAs (Decidable (_ ∧ _))

/-- `owed` bytes that may be any continuation bytes. -/
def tails (owed bits : Nat) : Pending := ⟨owed, 0x80, 0xBF, bits, Nat.le_refl _, Nat.le_refl _⟩

/-- The bits with those of `b` after them. -/
def shift (p : Pending) (b : UInt8) : Nat := p.bits * 64 + b.toNat % 64

end Pending

/-! ## The decoder -/

/-- A first byte: what it gives, and what it begins. -/
def first (b : UInt8) : List Char × Option Pending :=
  let n := b.toNat
  if n ≤ 0x7F then ([Char.ofNat n], none)
  else if n ≤ 0xC1 then ([replacement], none)
  else if n ≤ 0xDF then ([], some (.tails 1 (n % 32)))
  else if n = 0xE0 then ([], some ⟨2, 0xA0, 0xBF, 0, by decide, by decide⟩)
  else if n = 0xED then ([], some ⟨2, 0x80, 0x9F, 0xD, by decide, by decide⟩)
  else if n ≤ 0xEF then ([], some (.tails 2 (n % 16)))
  else if n = 0xF0 then ([], some ⟨3, 0x90, 0xBF, 0, by decide, by decide⟩)
  else if n ≤ 0xF3 then ([], some (.tails 3 (n % 8)))
  else if n = 0xF4 then ([], some ⟨3, 0x80, 0x8F, 4, by decide, by decide⟩)
  else ([replacement], none)

/-- One byte. -/
def step : Option Pending → UInt8 → List Char × Option Pending
  | none, b => first b
  | some p, b =>
    if p.Accepts b then
      if p.owed ≤ 1 then ([Char.ofNat (p.shift b)], none)
      else ([], some (.tails (p.owed - 1) (p.shift b)))
    else (replacement :: (first b).1, (first b).2)

/-- The end of the input. -/
def finish : Option Pending → List Char
  | none => []
  | some _ => [replacement]

def decodeFrom : Option Pending → List UInt8 → List Char
  | st, [] => finish st
  | st, b :: bs => (step st b).1 ++ decodeFrom (step st b).2 bs

/-- The text of a list of bytes. -/
def decode (bs : List UInt8) : List Char := decodeFrom none bs

/-- The sequence that a list of bytes leaves unfinished. -/
def unfinished (bs : List UInt8) : Option Pending := bs.foldl (fun st b => (step st b).2) none

/-- The text that a list of bytes gives before its end is known. -/
def given : Option Pending → List UInt8 → List Char
  | _, [] => []
  | st, b :: bs => (step st b).1 ++ given (step st b).2 bs

theorem decodeFrom_append (st : Option Pending) (xs ys : List UInt8) :
    decodeFrom st (xs ++ ys)
      = given st xs ++ decodeFrom (xs.foldl (fun st b => (step st b).2) st) ys := by
  induction xs generalizing st with
  | nil => rfl
  | cons b xs ih =>
    rw [List.cons_append, decodeFrom, ih, given, List.append_assoc]
    rfl

theorem decode_append (xs ys : List UInt8) :
    decode (xs ++ ys) = given none xs ++ decodeFrom (unfinished xs) ys :=
  decodeFrom_append none xs ys

theorem decode_eq_given (xs : List UInt8) :
    decode xs = given none xs ++ finish (unfinished xs) := by
  have := decode_append xs []
  rwa [List.append_nil] at this

/-! ## Cuts -/

/-- The bytes go on with an unfinished sequence. -/
def Continues : Option Pending → List UInt8 → Prop
  | some p, b :: _ => p.Accepts b
  | _, _ => False

instance : ∀ (st : Option Pending) (bs : List UInt8), Decidable (Continues st bs)
  | some p, b :: _ => inferInstanceAs (Decidable (p.Accepts b))
  | some _, [] => isFalse id
  | none, _ => isFalse id

/-- A continuation byte cannot start a sequence. -/
theorem Pending.Accepts.first {p : Pending} {b : UInt8} (h : p.Accepts b) :
    first b = ([replacement], none) := by
  have hlo := Nat.le_trans p.lo_ge h.1
  have hhi := Nat.le_trans h.2 p.hi_le
  unfold Utf8.first
  simp only
  rw [if_neg (by omega), if_pos (by omega)]

/-- Where the bytes do not go on with the sequence, it is replaced and they start afresh. -/
theorem decodeFrom_of_not_continues {st : Option Pending} {bs : List UInt8}
    (h : ¬Continues st bs) : decodeFrom st bs = finish st ++ decode bs := by
  cases st with
  | none => rfl
  | some p =>
    cases bs with
    | nil => rfl
    | cons b bs =>
      have hb : ¬p.Accepts b := h
      rw [decode, decodeFrom, decodeFrom, step, step, if_neg hb]
      rfl

/-- Going on with a sequence never gives a longer text than starting afresh. -/
theorem length_decodeFrom_le (bs : List UInt8) (p : Pending) :
    (decodeFrom (some p) bs).length ≤ (decode bs).length + 1 := by
  induction bs generalizing p with
  | nil => exact Nat.le_refl _
  | cons b bs ih =>
    by_cases hb : p.Accepts b
    · -- as a first byte, `b` would have been replaced
      rw [decode, decodeFrom, decodeFrom, step, step, if_pos hb, hb.first]
      split
      · exact Nat.le_succ _
      · have := ih (.tails (p.owed - 1) (p.shift b))
        simp only [List.nil_append, List.length_append, List.length_singleton]
        unfold decode at this
        omega
    · have hcont : ¬Continues (some p) (b :: bs) := hb
      rw [decodeFrom_of_not_continues hcont, List.length_append, Nat.add_comm]
      exact Nat.le_refl _

/-- **Cutting a sequence gives a longer text**: its two parts are replaced apart. -/
theorem length_decodeFrom_lt {st : Option Pending} {bs : List UInt8} (h : Continues st bs) :
    (decodeFrom st bs).length < (finish st ++ decode bs).length := by
  match st, bs, h with
  | some p, b :: bs, h =>
    have hb : p.Accepts b := h
    rw [decode, decodeFrom, decodeFrom, step, step, if_pos hb, hb.first, finish]
    split
    · simp only [List.length_append, List.length_singleton]
      omega
    · have := length_decodeFrom_le bs (.tails (p.owed - 1) (p.shift b))
      simp only [List.nil_append, List.length_append, List.length_singleton]
      unfold decode at this
      omega

theorem length_decode_append_lt {xs ys : List UInt8} (h : Continues (unfinished xs) ys) :
    (decode (xs ++ ys)).length < (decode xs ++ decode ys).length := by
  rw [decode_append, decode_eq_given xs, List.append_assoc, List.length_append, List.length_append]
  exact Nat.add_lt_add_left (length_decodeFrom_lt h) _

/-- **Two pieces may be decoded apart exactly when the second does not go on with a sequence of the
first.** -/
theorem decode_append_iff (xs ys : List UInt8) :
    decode (xs ++ ys) = decode xs ++ decode ys ↔ ¬Continues (unfinished xs) ys := by
  constructor
  · intro heq h
    have := length_decode_append_lt h
    rw [heq] at this
    exact Nat.lt_irrefl _ this
  · intro h
    rw [decode_append, decode_eq_given xs, List.append_assoc, decodeFrom_of_not_continues h]

/-- The text of two pieces is no longer than their texts. -/
theorem length_decode_append_le (xs ys : List UInt8) :
    (decode (xs ++ ys)).length ≤ (decode xs ++ decode ys).length := by
  by_cases h : Continues (unfinished xs) ys
  · exact Nat.le_of_lt (length_decode_append_lt h)
  · exact Nat.le_of_eq (congrArg List.length ((decode_append_iff xs ys).mpr h))

/-- A cut before piece `i` falls inside a sequence. -/
def CutInside (pieces : List (List UInt8)) (i : Nat) : Prop :=
  Continues (unfinished (pieces.take i).flatten) (pieces.getD i [])

instance (pieces : List (List UInt8)) (i : Nat) : Decidable (CutInside pieces i) :=
  inferInstanceAs (Decidable (Continues _ _))

theorem cutInside_append {pieces : List (List UInt8)} {last : List UInt8} {i : Nat}
    (hi : i < pieces.length) : CutInside (pieces ++ [last]) i ↔ CutInside pieces i := by
  unfold CutInside
  rw [List.take_append_of_le_length (Nat.le_of_lt hi), List.getD_eq_getElem?_getD,
    List.getD_eq_getElem?_getD, List.getElem?_append_left hi]

theorem cutInside_last {pieces : List (List UInt8)} {last : List UInt8} :
    CutInside (pieces ++ [last]) pieces.length ↔ Continues (unfinished pieces.flatten) last := by
  unfold CutInside
  rw [List.take_left, List.getD_eq_getElem?_getD, List.getElem?_concat_length, Option.getD_some]

/-- The text of the pieces is no longer than their texts. -/
theorem length_decode_flatten_le (pieces : List (List UInt8)) :
    (decode pieces.flatten).length ≤ (pieces.flatMap decode).length := by
  induction pieces using List.reverseRecOn with
  | nil => exact Nat.le_refl _
  | append_singleton pieces last ih =>
    have := length_decode_append_le pieces.flatten last
    rw [List.flatten_concat, List.flatMap_append, List.flatMap_singleton]
    simp only [List.length_append] at this ⊢
    omega

/-- **Pieces may be decoded apart exactly when no cut falls inside a sequence.** -/
theorem decode_flatten_iff (pieces : List (List UInt8)) :
    pieces.flatMap decode = decode pieces.flatten ↔
      ∀ i < pieces.length, ¬CutInside pieces i := by
  induction pieces using List.reverseRecOn with
  | nil => exact iff_of_true rfl fun i hi => absurd hi (Nat.not_lt_zero i)
  | append_singleton pieces last ih =>
    have hlast := decode_append_iff pieces.flatten last
    rw [List.flatten_concat, List.flatMap_append, List.flatMap_singleton, List.length_append,
      List.length_singleton]
    constructor
    · intro heq
      have hcut : ¬Continues (unfinished pieces.flatten) last := by
        intro h
        have hlt := length_decode_append_lt h
        have hle := length_decode_flatten_le pieces
        rw [← heq, List.length_append, List.length_append] at hlt
        omega
      rw [hlast.mpr hcut, List.append_cancel_right_eq] at heq
      have hinit := ih.mp heq
      intro i hi
      rcases Nat.lt_succ_iff_lt_or_eq.mp hi with hi | rfl
      · exact (cutInside_append hi).not.mpr (hinit i hi)
      · exact cutInside_last.not.mpr hcut
    · intro hcuts
      have hinit := ih.mpr fun i hi =>
        (cutInside_append hi).not.mp (hcuts i (Nat.lt_succ_of_lt hi))
      rw [hinit, hlast.mpr (cutInside_last.not.mp (hcuts pieces.length (Nat.lt_succ_self _)))]

/-! ## Encoded text -/

theorem toNat_ofNat {n : Nat} (h : n < 256) : (UInt8.ofNat n).toNat = n := by
  rw [UInt8.toNat_ofNat', Nat.mod_eq_of_lt h]

/-- A byte of the form `10xxxxxx` that is in range takes the sequence further. -/
theorem decodeFrom_tail {p : Pending} {n : Nat} (hlo : p.lo ≤ n % 64 + 128)
    (hhi : n % 64 + 128 ≤ p.hi) (bs : List UInt8) :
    decodeFrom (some p) (UInt8.ofNat (n % 64 + 128) :: bs) =
      if p.owed ≤ 1 then Char.ofNat (p.bits * 64 + n % 64) :: decode bs
      else decodeFrom (some (.tails (p.owed - 1) (p.bits * 64 + n % 64))) bs := by
  have hb : (UInt8.ofNat (n % 64 + 128)).toNat = n % 64 + 128 := toNat_ofNat (by omega)
  have hacc : p.Accepts (UInt8.ofNat (n % 64 + 128)) := by
    unfold Pending.Accepts
    rw [hb]
    exact ⟨hlo, hhi⟩
  have hshift : p.shift (UInt8.ofNat (n % 64 + 128)) = p.bits * 64 + n % 64 := by
    rw [Pending.shift, hb]
    omega
  rw [decodeFrom, step, if_pos hacc, hshift]
  split <;> rfl

theorem decodeFrom_tails_one (bits n : Nat) (bs : List UInt8) :
    decodeFrom (some (.tails 1 bits)) (UInt8.ofNat (n % 64 + 128) :: bs)
      = Char.ofNat (bits * 64 + n % 64) :: decode bs :=
  decodeFrom_tail (Nat.le_add_left _ _) (by show n % 64 + 128 ≤ 0xBF; omega) bs

theorem decodeFrom_tails_two (bits m n : Nat) (bs : List UInt8) :
    decodeFrom (some (.tails 2 bits))
        (UInt8.ofNat (m % 64 + 128) :: UInt8.ofNat (n % 64 + 128) :: bs)
      = Char.ofNat ((bits * 64 + m % 64) * 64 + n % 64) :: decode bs := by
  rw [decodeFrom_tail (Nat.le_add_left _ _) (by show m % 64 + 128 ≤ 0xBF; omega)]
  exact decodeFrom_tails_one _ n bs

/-- The first byte of a sequence of three, with the ranges that leave out overlong forms and
surrogates. -/
theorem decodeFrom_three {v : Nat} (hlow : 0x800 ≤ v) (hhigh : v ≤ 0xFFFF)
    (hvalid : v < 0xD800 ∨ 0xDFFF < v) (bs : List UInt8) :
    decode (UInt8.ofNat (v / 4096 % 16 + 0xE0) :: UInt8.ofNat (v / 64 % 64 + 128)
      :: UInt8.ofNat (v % 64 + 128) :: bs) = Char.ofNat v :: decode bs := by
  have hb : (UInt8.ofNat (v / 4096 % 16 + 0xE0)).toNat = v / 4096 + 0xE0 := by
    rw [toNat_ofNat (by omega)]
    omega
  have hv : (v / 4096 * 64 + v / 64 % 64) * 64 + v % 64 = v := by omega
  rw [decode, decodeFrom, step]
  unfold first
  simp only [hb]
  rw [if_neg (by omega), if_neg (by omega), if_neg (by omega)]
  by_cases hE0 : v / 4096 + 0xE0 = 0xE0
  · rw [if_pos hE0, List.nil_append, decodeFrom_tail (by show 0xA0 ≤ _; omega)
      (by show _ ≤ 0xBF; omega)]
    refine (decodeFrom_tails_one _ v bs).trans ?_
    rw [show (0 * 64 + v / 64 % 64) * 64 + v % 64 = v by omega]
  · rw [if_neg hE0]
    by_cases hED : v / 4096 + 0xE0 = 0xED
    · rw [if_pos hED, List.nil_append, decodeFrom_tail (by show 0x80 ≤ _; omega)
        (by show _ ≤ 0x9F; omega)]
      refine (decodeFrom_tails_one _ v bs).trans ?_
      rw [show (0xD * 64 + v / 64 % 64) * 64 + v % 64 = v by omega]
    · rw [if_neg hED, if_pos (by omega), List.nil_append, decodeFrom_tails_two,
        show (v / 4096 + 0xE0) % 16 = v / 4096 by omega, hv]

/-- As `decodeFrom_three`, for a sequence of four. -/
theorem decodeFrom_four {v : Nat} (hlow : 0x10000 ≤ v) (hhigh : v < 0x110000) (bs : List UInt8) :
    decode (UInt8.ofNat (v / 262144 % 8 + 0xF0) :: UInt8.ofNat (v / 4096 % 64 + 128)
      :: UInt8.ofNat (v / 64 % 64 + 128) :: UInt8.ofNat (v % 64 + 128) :: bs)
      = Char.ofNat v :: decode bs := by
  have hb : (UInt8.ofNat (v / 262144 % 8 + 0xF0)).toNat = v / 262144 + 0xF0 := by
    rw [toNat_ofNat (by omega)]
    omega
  have hv : ((v / 262144 * 64 + v / 4096 % 64) * 64 + v / 64 % 64) * 64 + v % 64 = v := by omega
  rw [decode, decodeFrom, step]
  unfold first
  simp only [hb]
  rw [if_neg (by omega), if_neg (by omega), if_neg (by omega), if_neg (by omega), if_neg (by omega),
    if_neg (by omega)]
  by_cases hF0 : v / 262144 + 0xF0 = 0xF0
  · rw [if_pos hF0, List.nil_append, decodeFrom_tail (by show 0x90 ≤ _; omega)
      (by show _ ≤ 0xBF; omega)]
    refine (decodeFrom_tails_two _ _ v bs).trans ?_
    rw [show ((0 * 64 + v / 4096 % 64) * 64 + v / 64 % 64) * 64 + v % 64 = v by omega]
  · rw [if_neg hF0]
    by_cases hF3 : v / 262144 + 0xF0 ≤ 0xF3
    · rw [if_pos hF3, List.nil_append, decodeFrom_tail (by show 0x80 ≤ _; omega)
        (by show _ ≤ 0xBF; omega)]
      refine (decodeFrom_tails_two _ _ v bs).trans ?_
      rw [Pending.tails, show (v / 262144 + 0xF0) % 8 = v / 262144 by omega, hv]
    · rw [if_neg hF3, if_pos (by omega), List.nil_append, decodeFrom_tail (by show 0x80 ≤ _; omega)
        (by show _ ≤ 0x8F; omega)]
      refine (decodeFrom_tails_two _ _ v bs).trans ?_
      rw [show ((4 * 64 + v / 4096 % 64) * 64 + v / 64 % 64) * 64 + v % 64 = v by omega]

/-- The encoding of a character is decoded to it, whatever comes after. -/
theorem decode_encodeChar (c : Char) (bs : List UInt8) :
    decode (String.utf8EncodeChar c ++ bs) = c :: decode bs := by
  have hc : Char.ofNat c.val.toNat = c := Char.ofNat_toNat c
  have hvalid : c.val.toNat < 0xD800 ∨ 0xDFFF < c.val.toNat ∧ c.val.toNat < 0x110000 := c.valid
  unfold String.utf8EncodeChar
  generalize c.val.toNat = v at hc hvalid ⊢
  rw [← hc]
  simp only
  split
  · have hb : (UInt8.ofNat v).toNat = v := toNat_ofNat (by omega)
    rw [List.singleton_append, decode, decodeFrom, step]
    unfold first
    simp only [hb]
    rw [if_pos (by omega)]
    rfl
  · split
    · have hb : (UInt8.ofNat (v / 64 % 32 + 0xC0)).toNat = v / 64 + 0xC0 := by
        rw [toNat_ofNat (by omega)]
        omega
      rw [List.cons_append, List.cons_append, List.nil_append, decode, decodeFrom, step]
      unfold first
      simp only [hb]
      rw [if_neg (by omega), if_neg (by omega), if_pos (by omega), List.nil_append,
        decodeFrom_tails_one, show (v / 64 + 0xC0) % 32 * 64 + v % 64 = v by omega]
    · split
      · exact decodeFrom_three (by omega) (by omega) (by omega) bs
      · exact decodeFrom_four (by omega) (by omega) bs

theorem decode_encode_append (text : List Char) (bs : List UInt8) :
    decode (text.flatMap String.utf8EncodeChar ++ bs) = text ++ decode bs := by
  induction text with
  | nil => rfl
  | cons c text ih => rw [List.flatMap_cons, List.append_assoc, decode_encodeChar, ih]; rfl

/-- **The encoding of a text is decoded to the text.** -/
theorem decode_encode (text : List Char) : decode (text.flatMap String.utf8EncodeChar) = text := by
  have := decode_encode_append text []
  rwa [List.append_nil, show decode [] = [] from rfl, List.append_nil] at this

/-- Nothing goes on with a sequence after whole characters. -/
theorem not_continues_encode (text : List Char) (bs : List UInt8) :
    ¬Continues (unfinished (text.flatMap String.utf8EncodeChar)) bs := by
  rw [← decode_append_iff, decode_encode_append, decode_encode]

/-- No cut between encoded texts falls inside a sequence. -/
theorem not_cutInside_encode (texts : List (List Char)) (i : Nat) :
    ¬CutInside (texts.map fun text => text.flatMap String.utf8EncodeChar) i := by
  have hflat : ((texts.map fun text => text.flatMap String.utf8EncodeChar).take i).flatten
      = (texts.take i).flatten.flatMap String.utf8EncodeChar := by
    rw [← List.map_take, ← List.flatMap_def, List.flatten_eq_flatMap, List.flatMap_assoc]
    rfl
  unfold CutInside
  rw [hflat]
  exact not_continues_encode _ _

end Utf8
