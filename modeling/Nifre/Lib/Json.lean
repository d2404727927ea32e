import Mathlib.Data.List.Nodup
import Nifre.Lib.Exec

/-!
# JSON text

The text that Python's `json.dumps` gives a value, and its reading by `json.loads`. Numbers are
integers: a text with a fraction, an exponent, a `NaN` or an infinity is refused. Strings are
sequences of Unicode scalar values, so half a surrogate pair is refused too.

* `dumps` — the text of a value, in ASCII
* `loads` — the value of a text
* `loads_dumps` — what was written is read back
* `loads_take` — no shorter piece of the text of a list or a dictionary can be read
* `isPrintable_dumps` — a text has printable ASCII characters only
-/

/-- A value, with the items of a dictionary in order. -/
inductive Json
  | null
  | bool (b : Bool)
  | int (n : Int)
  | str (s : String)
  | list (items : List Json)
  | dict (items : List (String × Json))

namespace Json

/-! ## Writing -/

/-- `ESCAPE_DCT`. -/
def shortEscapes : List (Char × Char) :=
  [('\\', '\\'), ('"', '"'), ('\x08', 'b'), ('\x0c', 'f'), ('\n', 'n'), ('\r', 'r'), ('\t', 't')]

/-- A printable ASCII character. -/
def IsPrintable (c : Char) : Prop := 0x20 ≤ c.toNat ∧ c.toNat ≤ 0x7E

instance (c : Char) : Decidable (IsPrintable c) := inferInstanceAs (Decidable (_ ∧ _))

/-- The four digits of a number of 16 bits. -/
def hexDigits (n : Nat) : List Char :=
  [(n / 4096).digitChar, (n / 256 % 16).digitChar, (n / 16 % 16).digitChar, (n % 16).digitChar]

/-- `\uXXXX`. -/
def escapeUnit (n : Nat) : List Char := '\\' :: 'u' :: hexDigits n

/-- A character that has no short escape; above `0xFFFF` as a surrogate pair. -/
def escapeUnicode (c : Char) : List Char :=
  if c.toNat < 0x10000 then escapeUnit c.toNat
  else
    let n := c.toNat - 0x10000
    escapeUnit (0xD800 + n / 1024) ++ escapeUnit (0xDC00 + n % 1024)

/-- A character within a string. -/
def escapeChar (c : Char) : List Char :=
  match shortEscapes.lookup c with
  | some e => ['\\', e]
  | none => if IsPrintable c then [c] else escapeUnicode c

def dumpsString (s : String) : List Char := '"' :: (s.toList.flatMap escapeChar ++ ['"'])

def dumpsInt (n : Int) : List Char :=
  if n < 0 then '-' :: Nat.toDigits 10 n.natAbs else Nat.toDigits 10 n.natAbs

mutual

/-- The text of a value. -/
def dumps : Json → List Char
  | .null => ['n', 'u', 'l', 'l']
  | .bool true => ['t', 'r', 'u', 'e']
  | .bool false => ['f', 'a', 'l', 's', 'e']
  | .int n => dumpsInt n
  | .str s => dumpsString s
  | .list items => '[' :: ([',', ' '].intercalate (dumpsAll items) ++ [']'])
  | .dict items => '{' :: ([',', ' '].intercalate (dumpsItems items) ++ ['}'])

def dumpsAll : List Json → List (List Char)
  | [] => []
  | v :: items => dumps v :: dumpsAll items

def dumpsItems : List (String × Json) → List (List Char)
  | [] => []
  | (k, v) :: items => (dumpsString k ++ ':' :: ' ' :: dumps v) :: dumpsItems items

end

/-! ## Reading -/

/-- Why a text cannot be read. The last two are this reader's own. -/
inductive DecodeError
  | expectingValue
  | unterminatedString
  | invalidControlCharacter
  | invalidEscape
  | invalidUnicodeEscape
  | expectingPropertyName
  | expectingColon
  | expectingComma
  | extraData
  | unsupported
  | outOfFuel
  deriving DecidableEq, Repr

/-- `WHITESPACE`. -/
def isWhitespace (c : Char) : Bool := c = ' ' ∨ c = '\t' ∨ c = '\n' ∨ c = '\r'

def skipWhitespace (cs : List Char) : List Char := cs.dropWhile isWhitespace

/-- `BACKSLASH`. -/
def backslash : List (Char × Char) :=
  [('"', '"'), ('\\', '\\'), ('/', '/'), ('b', '\x08'), ('f', '\x0c'), ('n', '\n'), ('r', '\r'),
    ('t', '\t')]

def hexValue (c : Char) : Option Nat :=
  if 0x30 ≤ c.toNat ∧ c.toNat ≤ 0x39 then some (c.toNat - 0x30)
  else if 0x61 ≤ c.toNat ∧ c.toNat ≤ 0x66 then some (c.toNat - 0x61 + 10)
  else if 0x41 ≤ c.toNat ∧ c.toNat ≤ 0x46 then some (c.toNat - 0x41 + 10)
  else none

/-- `_decode_uXXXX`, after the `u`. -/
def scanUnit : List Char → Except DecodeError (Nat × List Char)
  | a :: b :: c :: d :: rest =>
    match hexValue a, hexValue b, hexValue c, hexValue d with
    | some a, some b, some c, some d => .ok (a * 4096 + b * 256 + c * 16 + d, rest)
    | _, _, _, _ => .error .invalidUnicodeEscape
  | _ => .error .invalidUnicodeEscape

/-- The second half of a surrogate pair. -/
def scanLowSurrogate (high : Nat) : List Char → Except DecodeError (Char × List Char)
  | '\\' :: 'u' :: cs => do
    let (low, rest) ← scanUnit cs
    if 0xDC00 ≤ low ∧ low ≤ 0xDFFF then
      pure (Char.ofNat (0x10000 + ((high - 0xD800) * 1024 + (low - 0xDC00))), rest)
    else
      .error .unsupported
  | _ => .error .unsupported

/-- An escape sequence, after the backslash. -/
def scanEscape : List Char → Except DecodeError (Char × List Char)
  | [] => .error .unterminatedString
  | e :: cs =>
    if e = 'u' then do
      let (n, rest) ← scanUnit cs
      if 0xD800 ≤ n ∧ n ≤ 0xDBFF then scanLowSurrogate n rest
      else if 0xDC00 ≤ n ∧ n ≤ 0xDFFF then .error .unsupported
      else pure (Char.ofNat n, rest)
    else
      match backslash.lookup e with
      | some c => .ok (c, cs)
      | none => .error .invalidEscape

/-- `scanstring`, after the opening quote. -/
def scanString : Nat → List Char → Except DecodeError (List Char × List Char)
  | 0, _ => .error .outOfFuel
  | _ + 1, [] => .error .unterminatedString
  | n + 1, c :: cs =>
    if c = '"' then .ok ([], cs)
    else if c = '\\' then do
      let (c, rest) ← scanEscape cs
      let (s, rest) ← scanString n rest
      pure (c :: s, rest)
    else if c.toNat < 0x20 then .error .invalidControlCharacter
    else do
      let (s, rest) ← scanString n cs
      pure (c :: s, rest)

/-- A fraction or an exponent goes on with the number. -/
def isFloat : List Char → Bool
  | '.' :: c :: _ => c.isDigit
  | 'e' :: c :: cs | 'E' :: c :: cs =>
    c.isDigit || (c = '+' || c = '-') && cs.head?.any Char.isDigit
  | _ => false

/-- The digits of a number: `0`, or a first digit other than `0` and any others. -/
def scanDigits : List Char → Except DecodeError (Nat × List Char)
  | [] => .error .expectingValue
  | c :: cs =>
    if c = '0' then .ok (0, cs)
    else if c.isDigit then
      .ok (Nat.ofDigitChars 10 ((c :: cs).takeWhile Char.isDigit) 0,
        (c :: cs).dropWhile Char.isDigit)
    else .error .expectingValue

/-- `NUMBER_RE`. -/
def scanNumber (cs : List Char) : Except DecodeError (Json × List Char) := do
  let negative := cs.head? = some '-'
  let (n, rest) ← scanDigits (if negative then cs.tail else cs)
  if isFloat rest then .error .unsupported
  else pure (.int (if negative then -n else n), rest)

/-- `d[k] = v` in a dictionary. -/
def setItem (items : List (String × Json)) (item : String × Json) : List (String × Json) :=
  if item.1 ∈ items.map Prod.fst then items.map fun old => if old.1 = item.1 then item else old
  else items ++ [item]

/-- `dict(pairs)`. -/
def dictOf (pairs : List (String × Json)) : List (String × Json) := pairs.foldl setItem []

/-- The constants that stand for a float. -/
def nonFinite : List (List Char) :=
  [['N', 'a', 'N'], ['I', 'n', 'f', 'i', 'n', 'i', 't', 'y'],
    ['-', 'I', 'n', 'f', 'i', 'n', 'i', 't', 'y']]

mutual

/-- `scan_once`: a value at the start of a text. -/
def scanOnce : Nat → List Char → Except DecodeError (Json × List Char)
  | 0, _ => .error .outOfFuel
  | _ + 1, [] => .error .expectingValue
  | n + 1, c :: cs =>
    if c = '"' then do
      let (s, rest) ← scanString n cs
      pure (.str (String.ofList s), rest)
    else if c = '{' then
      if (skipWhitespace cs).head? = some '}' then .ok (.dict [], (skipWhitespace cs).tail)
      else do
        let (items, rest) ← scanMembers n (skipWhitespace cs)
        pure (.dict (dictOf items), rest)
    else if c = '[' then
      if (skipWhitespace cs).head? = some ']' then .ok (.list [], (skipWhitespace cs).tail)
      else do
        let (items, rest) ← scanElements n (skipWhitespace cs)
        pure (.list items, rest)
    else if ['n', 'u', 'l', 'l'].isPrefixOf (c :: cs) then .ok (.null, cs.drop 3)
    else if ['t', 'r', 'u', 'e'].isPrefixOf (c :: cs) then .ok (.bool true, cs.drop 3)
    else if ['f', 'a', 'l', 's', 'e'].isPrefixOf (c :: cs) then .ok (.bool false, cs.drop 4)
    else if nonFinite.any (·.isPrefixOf (c :: cs)) then .error .unsupported
    else scanNumber (c :: cs)

/-- The loop of `JSONArray`, from an element on. -/
def scanElements : Nat → List Char → Except DecodeError (List Json × List Char)
  | 0, _ => .error .outOfFuel
  | n + 1, cs => do
    let (v, rest) ← scanOnce n cs
    match skipWhitespace rest with
    | ']' :: rest => pure ([v], rest)
    | ',' :: rest =>
      let (items, rest) ← scanElements n (skipWhitespace rest)
      pure (v :: items, rest)
    | _ => .error .expectingComma

/-- The loop of `JSONObject`, from a key on. -/
def scanMembers : Nat → List Char → Except DecodeError (List (String × Json) × List Char)
  | 0, _ => .error .outOfFuel
  | _ + 1, [] => .error .expectingPropertyName
  | n + 1, c :: cs =>
    if c = '"' then do
      let (k, rest) ← scanString n cs
      match skipWhitespace rest with
      | ':' :: rest =>
        let (v, rest) ← scanOnce n (skipWhitespace rest)
        match skipWhitespace rest with
        | '}' :: rest => pure ([(String.ofList k, v)], rest)
        | ',' :: rest =>
          let (items, rest) ← scanMembers n (skipWhitespace rest)
          pure ((String.ofList k, v) :: items, rest)
        | _ => .error .expectingComma
      | _ => .error .expectingColon
    else .error .expectingPropertyName

end

/-- The value of a text. -/
def loads (text : List Char) : Except DecodeError Json := do
  let (v, rest) ← scanOnce (text.length + 1) (skipWhitespace text)
  if skipWhitespace rest = [] then pure v else .error .extraData

/-! ## Strings are read back -/

theorem hexValue_digitChar {d : Nat} (h : d < 16) : hexValue d.digitChar = some d := by
  have hall : ∀ e ∈ List.range 16, hexValue e.digitChar = some e := by decide
  exact hall d (List.mem_range.mpr h)

theorem scanUnit_hexDigits {n : Nat} (h : n < 0x10000) (rest : List Char) :
    scanUnit (hexDigits n ++ rest) = .ok (n, rest) := by
  simp only [hexDigits, List.cons_append, List.nil_append, scanUnit,
    hexValue_digitChar (show n / 4096 < 16 by omega),
    hexValue_digitChar (show n / 256 % 16 < 16 by omega),
    hexValue_digitChar (show n / 16 % 16 < 16 by omega),
    hexValue_digitChar (show n % 16 < 16 by omega)]
  rw [show n / 4096 * 4096 + n / 256 % 16 * 256 + n / 16 % 16 * 16 + n % 16 = n by omega]

theorem scanEscape_unit {n : Nat} (h : n < 0x10000) (rest : List Char) :
    scanEscape ('u' :: (hexDigits n ++ rest))
      = if 0xD800 ≤ n ∧ n ≤ 0xDBFF then scanLowSurrogate n rest
        else if 0xDC00 ≤ n ∧ n ≤ 0xDFFF then .error .unsupported
        else .ok (Char.ofNat n, rest) := by
  rw [scanEscape, if_pos rfl, scanUnit_hexDigits h]
  rfl

theorem scanLowSurrogate_unit {high low : Nat} (h : 0xDC00 ≤ low ∧ low ≤ 0xDFFF)
    (rest : List Char) :
    scanLowSurrogate high (escapeUnit low ++ rest)
      = .ok (Char.ofNat (0x10000 + ((high - 0xD800) * 1024 + (low - 0xDC00))), rest) := by
  rw [escapeUnit, List.cons_append, List.cons_append, scanLowSurrogate,
    scanUnit_hexDigits (by omega)]
  exact if_pos h

/-- A character is no surrogate. -/
theorem toNat_valid (c : Char) :
    c.toNat < 0xD800 ∨ 0xDFFF < c.toNat ∧ c.toNat < 0x110000 := c.valid

/-- An escaped character is read back, from the backslash on. -/
theorem scanEscape_escapeUnicode (c : Char) (rest : List Char) :
    ∃ cs, escapeUnicode c ++ rest = '\\' :: cs ∧ scanEscape cs = .ok (c, rest) := by
  have hvalid := toNat_valid c
  unfold escapeUnicode
  split
  · refine ⟨'u' :: (hexDigits c.toNat ++ rest), rfl, ?_⟩
    rw [scanEscape_unit (by omega), if_neg (by omega), if_neg (by omega), Char.ofNat_toNat]
  · refine ⟨'u' :: (hexDigits (0xD800 + (c.toNat - 0x10000) / 1024)
      ++ (escapeUnit (0xDC00 + (c.toNat - 0x10000) % 1024) ++ rest)), by simp [escapeUnit], ?_⟩
    rw [scanEscape_unit (by omega), if_pos (by omega), scanLowSurrogate_unit (by omega)]
    rw [show 0x10000 + ((0xD800 + (c.toNat - 0x10000) / 1024 - 0xD800) * 1024
      + (0xDC00 + (c.toNat - 0x10000) % 1024 - 0xDC00)) = c.toNat by omega, Char.ofNat_toNat]

theorem backslash_shortEscapes {c e : Char} (h : shortEscapes.lookup c = some e) :
    e ≠ 'u' ∧ backslash.lookup e = some c := by
  have hall : ∀ p ∈ shortEscapes, p.2 ≠ 'u' ∧ backslash.lookup p.2 = some p.1 := by decide
  obtain ⟨l, l', hl, -⟩ := List.lookup_eq_some_iff.mp h
  exact hall (c, e) (hl ▸ by simp)

theorem scanString_escape {n : Nat} {cs rest : List Char} {c : Char}
    (h : scanEscape cs = .ok (c, rest)) :
    scanString (n + 1) ('\\' :: cs)
      = (scanString n rest).map fun p => (c :: p.1, p.2) := by
  rw [scanString, if_neg (by decide), if_pos rfl, h]
  change (scanString n rest >>= fun p => pure (c :: p.1, p.2)) = _
  cases scanString n rest <;> rfl

/-- **One character of a string is read back**, however it was written. -/
theorem scanString_escapeChar (c : Char) (n : Nat) (rest : List Char) :
    scanString (n + 1) (escapeChar c ++ rest)
      = (scanString n rest).map fun p => (c :: p.1, p.2) := by
  unfold escapeChar
  split
  next e he =>
    obtain ⟨hu, hback⟩ := backslash_shortEscapes he
    have hscan : scanEscape (e :: rest) = .ok (c, rest) := by rw [scanEscape, if_neg hu, hback]
    exact scanString_escape hscan
  next hnone =>
    split
    next hprint =>
      have hquote : c ≠ '"' := by rintro rfl; exact absurd hnone (by decide)
      have hback : c ≠ '\\' := by rintro rfl; exact absurd hnone (by decide)
      rw [List.singleton_append, scanString, if_neg hquote, if_neg hback,
        if_neg (Nat.not_lt.mpr hprint.1)]
      cases scanString n rest <;> rfl
    next =>
      obtain ⟨cs, hcs, hscan⟩ := scanEscape_escapeUnicode c rest
      rw [hcs]
      exact scanString_escape hscan

/-- **A string is read back.** -/
theorem scanString_flatMap : ∀ (s : List Char) {n : Nat} (rest : List Char), s.length < n →
    scanString n (s.flatMap escapeChar ++ '"' :: rest) = .ok (s, rest)
  | [], n + 1, rest, _ => by rw [List.flatMap_nil, List.nil_append, scanString, if_pos rfl]
  | c :: s, n + 1, rest, h => by
    rw [List.flatMap_cons, List.append_assoc, scanString_escapeChar,
      scanString_flatMap s rest (Nat.lt_of_succ_lt_succ h)]
    rfl

theorem length_le_flatMap (s : List Char) : s.length ≤ (s.flatMap escapeChar).length := by
  induction s with
  | nil => exact Nat.le_refl _
  | cons c s ih =>
    have hpos : 1 ≤ (escapeChar c).length := by
      unfold escapeChar
      split
      · exact Nat.le_add_left _ _
      · split
        · exact Nat.le_refl _
        · unfold escapeUnicode
          split <;> simp [escapeUnit]
    rw [List.flatMap_cons, List.length_append, List.length_cons]
    omega

/-! ## Numbers are read back -/

/-- The text does not go on with a number. -/
def EndsNumber (rest : List Char) : Prop :=
  rest.takeWhile Char.isDigit = [] ∧ isFloat rest = false

theorem takeWhile_append_of_all {p : Char → Bool} {ds rest : List Char}
    (hds : ∀ c ∈ ds, p c = true) (hrest : rest.takeWhile p = []) :
    (ds ++ rest).takeWhile p = ds ∧ (ds ++ rest).dropWhile p = rest := by
  have happend := List.takeWhile_append_dropWhile (p := p) (l := rest)
  rw [hrest, List.nil_append] at happend
  rw [List.takeWhile_append_of_pos hds, List.dropWhile_append_of_pos hds, hrest, List.append_nil]
  exact ⟨rfl, happend⟩

/-- The digits of a number other than zero begin with none. -/
theorem toDigits_head_ne_zero (n : Nat) (h : n ≠ 0) : (Nat.toDigits 10 n).head? ≠ some '0' := by
  induction n using Nat.strongRecOn with
  | ind n ih =>
    rcases Nat.lt_or_ge n 10 with hlt | hge
    · rw [Nat.toDigits_of_lt_base hlt]
      have hall : ∀ d ∈ List.range 10, d ≠ 0 → [d.digitChar].head? ≠ some '0' := by decide
      exact hall n (List.mem_range.mpr hlt) h
    · rw [Nat.toDigits_of_base_le (by decide) hge,
        List.head?_append_of_ne_nil _ Nat.toDigits_ne_nil]
      exact ih (n / 10) (by omega) (by omega)

theorem scanDigits_toDigits (n : Nat) {rest : List Char} (h : rest.takeWhile Char.isDigit = []) :
    scanDigits (Nat.toDigits 10 n ++ rest) = .ok (n, rest) := by
  rcases Nat.eq_zero_or_pos n with rfl | hpos
  · rfl
  · have hdigits : ∀ c ∈ Nat.toDigits 10 n, c.isDigit = true := fun c hc =>
      Nat.isDigit_of_mem_toDigits (by decide) (by decide) hc
    have hhead := toDigits_head_ne_zero n (Nat.pos_iff_ne_zero.mp hpos)
    obtain ⟨htake, hdrop⟩ := takeWhile_append_of_all hdigits h
    have hvalue : Nat.ofDigitChars 10 (Nat.toDigits 10 n) 0 = n := Nat.ofDigitChars_ten_toDigits
    cases hds : Nat.toDigits 10 n with
    | nil => exact absurd hds Nat.toDigits_ne_nil
    | cons c ds =>
      rw [hds] at hdigits hhead htake hdrop hvalue
      have hc : c ≠ '0' := fun hc => hhead (congrArg some hc)
      rw [List.cons_append, scanDigits, if_neg hc, if_pos (hdigits c List.mem_cons_self),
        ← List.cons_append, htake, hdrop, hvalue]

theorem scanNumber_nonneg {cs rest : List Char} {n : Nat} (hsign : cs.head? ≠ some '-')
    (h : scanDigits cs = .ok (n, rest)) (hfloat : isFloat rest = false) :
    scanNumber cs = .ok (.int n, rest) := by
  simp only [scanNumber, hsign, if_false, h]
  change (if isFloat rest = true then _ else _) = _
  rw [hfloat]
  rfl

theorem scanNumber_neg {cs rest : List Char} {n : Nat} (h : scanDigits cs = .ok (n, rest))
    (hfloat : isFloat rest = false) : scanNumber ('-' :: cs) = .ok (.int (-n), rest) := by
  simp only [scanNumber, List.head?_cons, if_true, List.tail_cons, h]
  change (if isFloat rest = true then _ else _) = _
  rw [hfloat]
  rfl

/-- **An integer is read back.** -/
theorem scanNumber_dumpsInt (n : Int) {rest : List Char} (h : EndsNumber rest) :
    scanNumber (dumpsInt n ++ rest) = .ok (.int n, rest) := by
  have hdigits := scanDigits_toDigits n.natAbs h.1
  rcases Int.lt_or_le n 0 with hneg | hpos
  · rw [dumpsInt, if_pos hneg, List.cons_append, scanNumber_neg hdigits h.2]
    rw [show (-(n.natAbs : Int)) = n by omega]
  · have hsign : (Nat.toDigits 10 n.natAbs ++ rest).head? ≠ some '-' := by
      rw [List.head?_append_of_ne_nil _ Nat.toDigits_ne_nil]
      intro hhead
      have hdigit := Nat.isDigit_of_mem_toDigits (by decide) (by decide) (List.mem_of_head? hhead)
      exact absurd hdigit (by decide)
    rw [dumpsInt, if_neg (by omega), scanNumber_nonneg hsign hdigits h.2]
    rw [show ((n.natAbs : Int)) = n by omega]

/-! ## Values are read back -/

/-- No dictionary has a key twice. -/
inductive Distinct : Json → Prop
  | null : Distinct .null
  | bool (b : Bool) : Distinct (.bool b)
  | int (n : Int) : Distinct (.int n)
  | str (s : String) : Distinct (.str s)
  | list {items : List Json} (h : ∀ v ∈ items, Distinct v) : Distinct (.list items)
  | dict {items : List (String × Json)} (hnodup : (items.map Prod.fst).Nodup)
      (h : ∀ item ∈ items, Distinct item.2) : Distinct (.dict items)

theorem foldl_setItem : ∀ (items done : List (String × Json)),
    ((done ++ items).map Prod.fst).Nodup → items.foldl setItem done = done ++ items
  | [], done, _ => (List.append_nil done).symm
  | item :: items, done, h => by
    have hnew : item.1 ∉ done.map Prod.fst := by
      rw [List.map_append, List.nodup_append] at h
      exact fun hmem => h.2.2 _ hmem _ List.mem_cons_self rfl
    rw [List.foldl_cons, setItem, if_neg hnew]
    rw [List.append_cons] at h
    exact (foldl_setItem items (done ++ [item]) h).trans (List.append_cons ..).symm

/-- A dictionary is made of its items. -/
theorem dictOf_of_nodup {items : List (String × Json)} (h : (items.map Prod.fst).Nodup) :
    dictOf items = items := foldl_setItem items [] h

/-- A digit or a sign begins nothing but a number. -/
theorem ne_of_sign_or_digit {c : Char} (h : c = '-' ∨ c.isDigit = true) :
    isWhitespace c = false ∧ c ≠ ']' ∧ c ≠ '}' ∧ c ≠ '"' ∧ c ≠ '{' ∧ c ≠ '[' ∧
      c ≠ 'n' ∧ c ≠ 't' ∧ c ≠ 'f' ∧ c ≠ 'N' ∧ c ≠ 'I' := by
  rcases h with rfl | hdigit
  · decide
  · refine ⟨?_, ?_, ?_, ?_, ?_, ?_, ?_, ?_, ?_, ?_, ?_⟩
    · rw [isWhitespace, decide_eq_false_iff_not]
      rintro (rfl | rfl | rfl | rfl) <;> exact absurd hdigit (by decide)
    all_goals
      rintro rfl
      exact absurd hdigit (by decide)

theorem dumpsInt_begins (n : Int) : ∃ c cs, dumpsInt n = c :: cs ∧
    (c.isDigit = true ∨ c = '-' ∧ ∃ d ds, cs = d :: ds ∧ d.isDigit = true) := by
  have hdigits : ∃ c cs, Nat.toDigits 10 n.natAbs = c :: cs ∧ c.isDigit = true := by
    cases hds : Nat.toDigits 10 n.natAbs with
    | nil => exact absurd hds Nat.toDigits_ne_nil
    | cons c cs =>
      have hmem : c ∈ Nat.toDigits 10 n.natAbs := hds ▸ List.mem_cons_self
      exact ⟨c, cs, rfl, Nat.isDigit_of_mem_toDigits (by decide) (by decide) hmem⟩
  obtain ⟨c, cs, hcs, hc⟩ := hdigits
  unfold dumpsInt
  split
  · exact ⟨'-', _, rfl, Or.inr ⟨rfl, c, cs, hcs, hc⟩⟩
  · exact ⟨c, cs, hcs, Or.inl hc⟩

theorem isPrefixOf_of_ne {c d : Char} {cs ds : List Char} (h : c ≠ d) :
    (d :: ds).isPrefixOf (c :: cs) = false := by
  rw [List.isPrefixOf, beq_eq_false_iff_ne.mpr h.symm, Bool.false_and]

theorem scanOnce_number {c : Char} {cs : List Char} {n : Nat} (hc : c = '-' ∨ c.isDigit = true)
    (hdigit : c = '-' → ∀ d ∈ cs.head?, d ≠ 'I') :
    scanOnce (n + 1) (c :: cs) = scanNumber (c :: cs) := by
  obtain ⟨-, -, -, hquote, hbrace, hbracket, hnull, htrue, hfalse, hnan, hinf⟩ :=
    ne_of_sign_or_digit hc
  have hneg : ['-', 'I', 'n', 'f', 'i', 'n', 'i', 't', 'y'].isPrefixOf (c :: cs) = false := by
    by_cases hsign : c = '-'
    · subst hsign
      cases cs with
      | nil => rfl
      | cons d ds =>
        have htail : ['I', 'n', 'f', 'i', 'n', 'i', 't', 'y'].isPrefixOf (d :: ds) = false :=
          isPrefixOf_of_ne (hdigit rfl d rfl)
        rw [List.isPrefixOf, htail, Bool.and_false]
    · exact isPrefixOf_of_ne hsign
  have hfinite : nonFinite.any (·.isPrefixOf (c :: cs)) = false := by
    rw [nonFinite, List.any_cons, List.any_cons, List.any_cons, isPrefixOf_of_ne hnan,
      isPrefixOf_of_ne hinf, hneg]
    rfl
  rw [scanOnce, if_neg hquote, if_neg hbrace, if_neg hbracket, isPrefixOf_of_ne hnull,
    isPrefixOf_of_ne htrue, isPrefixOf_of_ne hfalse, hfinite]
  rfl

theorem scanOnce_dumpsInt (n : Int) (fuel : Nat) {rest : List Char} (h : EndsNumber rest) :
    scanOnce (fuel + 1) (dumpsInt n ++ rest) = .ok (.int n, rest) := by
  have hscan := scanNumber_dumpsInt n h
  obtain ⟨c, cs, hcs, hbegin⟩ := dumpsInt_begins n
  rw [hcs, List.cons_append] at hscan ⊢
  rw [scanOnce_number (hbegin.symm.imp_left And.left), hscan]
  rintro rfl d hd
  rcases hbegin with hc | ⟨-, d', ds, rfl, hd'⟩
  · exact absurd hc (by decide)
  · cases hd
    rintro rfl
    exact absurd hd' (by decide)

/-- What a value can begin with. -/
def BeginsValue (cs : List Char) : Prop :=
  ∃ c rest, cs = c :: rest ∧ isWhitespace c = false ∧ c ≠ ']' ∧ c ≠ '}'

theorem dumps_begins (v : Json) : BeginsValue (dumps v) := by
  cases v with
  | null => exact ⟨'n', _, rfl, by decide⟩
  | bool b => cases b with
    | true => exact ⟨'t', _, rfl, by decide⟩
    | false => exact ⟨'f', _, rfl, by decide⟩
  | int n =>
    obtain ⟨c, cs, hcs, hbegin⟩ := dumpsInt_begins n
    obtain ⟨hws, hbracket, hbrace, -⟩ := ne_of_sign_or_digit (hbegin.symm.imp_left And.left)
    exact ⟨c, cs, hcs, hws, hbracket, hbrace⟩
  | str s => exact ⟨'"', _, rfl, by decide⟩
  | list items => exact ⟨'[', _, rfl, by decide⟩
  | dict items => exact ⟨'{', _, rfl, by decide⟩

theorem BeginsValue.append {cs : List Char} (h : BeginsValue cs) (rest : List Char) :
    BeginsValue (cs ++ rest) := by
  obtain ⟨c, cs', rfl, hc⟩ := h
  exact ⟨c, cs' ++ rest, rfl, hc⟩

theorem BeginsValue.skipWhitespace {cs : List Char} (h : BeginsValue cs) :
    skipWhitespace cs = cs := by
  obtain ⟨c, rest, rfl, hc, -⟩ := h
  exact List.dropWhile_cons_of_neg (by rw [hc]; exact Bool.false_ne_true)

theorem BeginsValue.head_ne_bracket {cs : List Char} (h : BeginsValue cs) :
    cs.head? ≠ some ']' := by
  obtain ⟨c, rest, rfl, -, hc, -⟩ := h
  exact fun heq => hc (Option.some.inj heq)

theorem BeginsValue.head_ne_brace {cs : List Char} (h : BeginsValue cs) :
    cs.head? ≠ some '}' := by
  obtain ⟨c, rest, rfl, -, -, hc⟩ := h
  exact fun heq => hc (Option.some.inj heq)

/-- The scanner reads the value wherever its text stands. -/
def ReadBack (v : Json) : Prop := ∀ {n : Nat} {rest : List Char}, (dumps v).length ≤ n →
  EndsNumber rest → scanOnce n (dumps v ++ rest) = .ok (v, rest)

theorem intercalate_cons_cons (sep x y : List Char) (l : List (List Char)) :
    sep.intercalate (x :: y :: l) = x ++ (sep ++ sep.intercalate (y :: l)) := rfl

theorem intercalate_singleton (sep x : List Char) : sep.intercalate [x] = x :=
  List.append_nil x

theorem dumpsAll_begins (v : Json) (items : List Json) (rest : List Char) :
    BeginsValue ([',', ' '].intercalate (dumpsAll (v :: items)) ++ rest) := by
  rw [dumpsAll]
  cases items with
  | nil =>
    rw [dumpsAll, intercalate_singleton]
    exact (dumps_begins v).append rest
  | cons w items =>
    rw [dumpsAll, intercalate_cons_cons, List.append_assoc]
    exact (dumps_begins v).append _

theorem scanElements_dumpsAll : ∀ (v : Json) (items : List Json) {n : Nat} (rest : List Char),
    (∀ w ∈ v :: items, ReadBack w) →
    ([',', ' '].intercalate (dumpsAll (v :: items))).length < n →
    scanElements n ([',', ' '].intercalate (dumpsAll (v :: items)) ++ ']' :: rest)
      = .ok (v :: items, rest)
  | v, [], n + 1, rest, hread, hlen => by
    rw [dumpsAll, dumpsAll, intercalate_singleton] at hlen ⊢
    have hv := hread v List.mem_cons_self (Nat.le_of_lt_succ hlen)
      (show EndsNumber (']' :: rest) from ⟨rfl, rfl⟩)
    rw [scanElements, hv]
    rfl
  | v, w :: items, n + 1, rest, hread, hlen => by
    rw [dumpsAll, dumpsAll, intercalate_cons_cons, ← dumpsAll] at hlen ⊢
    rw [List.length_append, List.length_append] at hlen
    have hends : EndsNumber (',' :: ' ' ::
        ([',', ' '].intercalate (dumpsAll (w :: items)) ++ ']' :: rest)) := ⟨rfl, rfl⟩
    have hv := hread v List.mem_cons_self (n := n) (by omega) hends
    have hrest := scanElements_dumpsAll w items (n := n) rest
      (fun u hu => hread u (List.mem_cons_of_mem v hu))
      (by simp only [List.length_cons] at hlen; omega)
    have hskip := (dumpsAll_begins w items (']' :: rest)).skipWhitespace
    have happend : dumps v ++ ([',', ' '] ++ [',', ' '].intercalate (dumpsAll (w :: items)))
        ++ ']' :: rest = dumps v ++ ',' :: ' ' ::
          ([',', ' '].intercalate (dumpsAll (w :: items)) ++ ']' :: rest) := by simp
    rw [happend, scanElements, hv]
    change (scanElements n (skipWhitespace ([',', ' '].intercalate (dumpsAll (w :: items))
      ++ ']' :: rest)) >>= fun p => pure (v :: p.1, p.2)) = _
    rw [hskip, hrest]
    rfl

theorem intercalate_items_cons (x : List Char) (item : String × Json)
    (items : List (String × Json)) :
    [',', ' '].intercalate (x :: dumpsItems (item :: items))
      = x ++ ([',', ' '] ++ [',', ' '].intercalate (dumpsItems (item :: items))) := by
  rw [dumpsItems, intercalate_cons_cons]

theorem dumpsItems_begins (item : String × Json) (items : List (String × Json))
    (rest : List Char) :
    BeginsValue ([',', ' '].intercalate (dumpsItems (item :: items)) ++ rest) := by
  obtain ⟨k, v⟩ := item
  rw [dumpsItems]
  cases items with
  | nil => exact ⟨'"', _, rfl, by decide⟩
  | cons item items => exact ⟨'"', _, rfl, by decide⟩

theorem member_append (k : String) (v : Json) (rest : List Char) :
    (dumpsString k ++ ':' :: ' ' :: dumps v) ++ rest = '"' ::
      (k.toList.flatMap escapeChar ++ '"' :: (':' :: ' ' :: (dumps v ++ rest))) := by
  simp [dumpsString]

/-- The scanner has read the key and gone over to the value. -/
theorem scanMembers_key {k : String} {v : Json} {n : Nat} (rest : List Char)
    (hlen : (dumpsString k ++ ':' :: ' ' :: dumps v).length ≤ n) :
    scanString n (k.toList.flatMap escapeChar ++ '"' :: (':' :: ' ' :: (dumps v ++ rest)))
        = .ok (k.toList, ':' :: ' ' :: (dumps v ++ rest)) ∧ (dumps v).length ≤ n ∧
      skipWhitespace (dumps v ++ rest) = dumps v ++ rest := by
  have hchars := length_le_flatMap k.toList
  simp only [dumpsString, List.length_append, List.length_cons] at hlen
  exact ⟨scanString_flatMap _ _ (by omega), by omega,
    ((dumps_begins v).append rest).skipWhitespace⟩

theorem scanMembers_dumpsItems : ∀ (item : String × Json) (items : List (String × Json)) {n : Nat}
    (rest : List Char), (∀ item' ∈ item :: items, ReadBack item'.2) →
    ([',', ' '].intercalate (dumpsItems (item :: items))).length < n →
    scanMembers n ([',', ' '].intercalate (dumpsItems (item :: items)) ++ '}' :: rest)
      = .ok (item :: items, rest)
  | (k, v), [], n + 1, rest, hread, hlen => by
    rw [dumpsItems, dumpsItems, intercalate_singleton] at hlen ⊢
    obtain ⟨hkey, hle, hskip⟩ := scanMembers_key ('}' :: rest) (Nat.le_of_lt_succ hlen)
    have hv := hread (k, v) List.mem_cons_self hle (show EndsNumber ('}' :: rest) from ⟨rfl, rfl⟩)
    rw [member_append, scanMembers, if_pos rfl, hkey]
    change (scanOnce n (skipWhitespace (dumps v ++ '}' :: rest)) >>= _) = _
    rw [hskip, hv, String.ofList_toList]
    rfl
  | (k, v), item :: items, n + 1, rest, hread, hlen => by
    rw [dumpsItems.eq_2, intercalate_items_cons] at hlen ⊢
    have hlen' := hlen
    simp only [List.length_append, List.length_cons] at hlen'
    have htext : EndsNumber (',' :: ' ' ::
        ([',', ' '].intercalate (dumpsItems (item :: items)) ++ '}' :: rest)) := ⟨rfl, rfl⟩
    obtain ⟨hkey, hle, hskip⟩ := scanMembers_key (k := k) (v := v) (n := n) (',' :: ' ' ::
      ([',', ' '].intercalate (dumpsItems (item :: items)) ++ '}' :: rest))
      (by simp only [List.length_append, List.length_cons]; omega)
    have hv := hread (k, v) List.mem_cons_self hle htext
    have hrest := scanMembers_dumpsItems item items (n := n) rest
      (fun item' h => hread item' (List.mem_cons_of_mem _ h)) (by omega)
    have hskip' := (dumpsItems_begins item items ('}' :: rest)).skipWhitespace
    have happend : (dumpsString k ++ ':' :: ' ' :: dumps v) ++ ([',', ' ']
        ++ [',', ' '].intercalate (dumpsItems (item :: items))) ++ '}' :: rest
          = (dumpsString k ++ ':' :: ' ' :: dumps v) ++ ',' :: ' ' ::
            ([',', ' '].intercalate (dumpsItems (item :: items)) ++ '}' :: rest) := by simp
    rw [happend, member_append, scanMembers, if_pos rfl, hkey]
    change (scanOnce n (skipWhitespace (dumps v ++ _)) >>= _) = _
    rw [hskip, hv, String.ofList_toList]
    change (scanMembers n (skipWhitespace ([',', ' '].intercalate (dumpsItems (item :: items))
      ++ '}' :: rest)) >>= fun p => pure ((k, v) :: p.1, p.2)) = _
    rw [hskip', hrest]
    rfl

/-- **A value is read back wherever its text stands.** -/
theorem Distinct.readBack {v : Json} (h : Distinct v) : ReadBack v := by
  induction h with
  | null =>
    intro n rest hlen hends
    obtain ⟨n, rfl⟩ : ∃ m, n = m + 1 := ⟨n - 1, by have : 4 ≤ n := hlen; omega⟩
    rfl
  | bool b =>
    intro n rest hlen hends
    obtain ⟨n, rfl⟩ : ∃ m, n = m + 1 := ⟨n - 1, by
      cases b with
      | true => have : 4 ≤ n := hlen; omega
      | false => have : 5 ≤ n := hlen; omega⟩
    cases b with
    | true => rfl
    | false => rfl
  | int i =>
    intro n rest hlen hends
    obtain ⟨c, cs, hcs, -⟩ := dumpsInt_begins i
    obtain ⟨n, rfl⟩ : ∃ m, n = m + 1 :=
      ⟨n - 1, by rw [dumps, hcs, List.length_cons] at hlen; omega⟩
    exact scanOnce_dumpsInt i n hends
  | str s =>
    intro n rest hlen hends
    have hchars := length_le_flatMap s.toList
    simp only [dumps, dumpsString, List.length_append, List.length_cons] at hlen
    obtain ⟨n, rfl⟩ : ∃ m, n = m + 1 := ⟨n - 1, by omega⟩
    have hscan := scanString_flatMap s.toList rest (n := n) (by omega)
    rw [dumps, dumpsString, List.cons_append, List.append_assoc, scanOnce, if_pos rfl]
    change (scanString n (s.toList.flatMap escapeChar ++ '"' :: rest) >>= _) = _
    rw [hscan]
    exact congrArg (fun s => Except.ok (Json.str s, rest)) String.ofList_toList
  | @list items _ ih =>
    intro n rest hlen hends
    simp only [dumps, List.length_append, List.length_cons] at hlen
    obtain ⟨n, rfl⟩ : ∃ m, n = m + 1 := ⟨n - 1, by omega⟩
    cases items with
    | nil => rfl
    | cons v items =>
      have hbegins := dumpsAll_begins v items (']' :: rest)
      have hscan := scanElements_dumpsAll v items (n := n) rest ih
        (by simp only [List.length_nil] at hlen; omega)
      rw [dumps, List.cons_append, List.append_assoc, scanOnce, if_neg (by decide),
        if_neg (by decide), if_pos rfl]
      change (if (skipWhitespace ([',', ' '].intercalate (dumpsAll (v :: items))
        ++ ']' :: rest)).head? = some ']' then _ else scanElements n (skipWhitespace
          ([',', ' '].intercalate (dumpsAll (v :: items)) ++ ']' :: rest)) >>= _) = _
      rw [hbegins.skipWhitespace, if_neg hbegins.head_ne_bracket, hscan]
      rfl
  | @dict items hnodup _ ih =>
    intro n rest hlen hends
    simp only [dumps, List.length_append, List.length_cons] at hlen
    obtain ⟨n, rfl⟩ : ∃ m, n = m + 1 := ⟨n - 1, by omega⟩
    cases items with
    | nil => rfl
    | cons item items =>
      have hbegins := dumpsItems_begins item items ('}' :: rest)
      have hscan := scanMembers_dumpsItems item items (n := n) rest ih
        (by simp only [List.length_nil] at hlen; omega)
      rw [dumps, List.cons_append, List.append_assoc, scanOnce, if_neg (by decide), if_pos rfl]
      change (if (skipWhitespace ([',', ' '].intercalate (dumpsItems (item :: items))
        ++ '}' :: rest)).head? = some '}' then _ else scanMembers n (skipWhitespace
          ([',', ' '].intercalate (dumpsItems (item :: items)) ++ '}' :: rest)) >>= _) = _
      rw [hbegins.skipWhitespace, if_neg hbegins.head_ne_brace, hscan]
      exact congrArg (fun items => Except.ok (Json.dict items, rest)) (dictOf_of_nodup hnodup)

/-- **What was written is read back.** -/
theorem loads_dumps {v : Json} (h : Distinct v) : loads (dumps v) = .ok v := by
  have hends : EndsNumber [] := ⟨rfl, rfl⟩
  have hscan := h.readBack (n := (dumps v).length + 1) (Nat.le_succ _) hends
  rw [List.append_nil] at hscan
  rw [loads, (dumps_begins v).skipWhitespace, hscan]
  rfl

/-! ## Longer texts -/

theorem dropWhile_append_of_ne_nil {p : Char → Bool} {cs : List Char} (h : cs.dropWhile p ≠ [])
    (more : List Char) : (cs ++ more).dropWhile p = cs.dropWhile p ++ more := by
  rw [List.dropWhile_append, if_neg (by simpa using h)]

theorem scanUnit_append {cs rest : List Char} {n : Nat} (more : List Char)
    (h : scanUnit cs = .ok (n, rest)) : scanUnit (cs ++ more) = .ok (n, rest ++ more) := by
  rcases cs with _ | ⟨a, _ | ⟨b, _ | ⟨c, _ | ⟨d, cs⟩⟩⟩⟩
  all_goals try cases h
  simp only [scanUnit, List.cons_append] at h ⊢
  split at h
  · cases h
    rfl
  · cases h

theorem scanLowSurrogate_append {high : Nat} {cs rest : List Char} {c : Char} (more : List Char)
    (h : scanLowSurrogate high cs = .ok (c, rest)) :
    scanLowSurrogate high (cs ++ more) = .ok (c, rest ++ more) := by
  unfold scanLowSurrogate at h
  split at h
  next cs =>
    obtain ⟨⟨low, rest'⟩, hunit, h⟩ := Exec.bind_eq_ok h
    dsimp only at h
    split at h
    next hlow =>
      have hpair := Prod.mk.inj (Except.ok.inj h)
      rw [← hpair.1, ← hpair.2, List.cons_append, List.cons_append, scanLowSurrogate,
        scanUnit_append more hunit]
      exact if_pos hlow
    next => cases h
  next => cases h

theorem scanEscape_append {cs rest : List Char} {c : Char} (more : List Char)
    (h : scanEscape cs = .ok (c, rest)) : scanEscape (cs ++ more) = .ok (c, rest ++ more) := by
  cases cs with
  | nil => cases h
  | cons e cs =>
    rw [List.cons_append]
    rw [scanEscape] at h ⊢
    split at h
    next hu =>
      obtain ⟨⟨n, rest'⟩, hunit, h⟩ := Exec.bind_eq_ok h
      rw [if_pos hu, scanUnit_append more hunit]
      dsimp only at h
      split at h
      next hhigh => exact (if_pos hhigh).trans (scanLowSurrogate_append more h)
      next hhigh =>
        split at h
        next => cases h
        next hlow =>
          cases h
          exact (if_neg hhigh).trans (if_neg hlow)
    next hu =>
      rw [if_neg hu]
      split at h
      next c' hc =>
        cases h
        rfl
      next => cases h

/-- Where the scanner succeeds, it does so with more fuel and more text as well. -/
def Extends {α : Type} (scan : Nat → List Char → Except DecodeError (α × List Char)) (n : Nat) :
    Prop :=
  ∀ {m : Nat} {cs rest : List Char} {a : α} (more : List Char), n ≤ m →
    scan n cs = .ok (a, rest) → scan m (cs ++ more) = .ok (a, rest ++ more)

theorem scanString_extends (n : Nat) : Extends scanString n := by
  induction n with
  | zero =>
    intro m cs rest s more hle h
    cases h
  | succ n ih =>
    intro m cs rest s more hle h
    obtain ⟨m, rfl⟩ : ∃ k, m = k + 1 := ⟨m - 1, by omega⟩
    cases cs with
    | nil => cases h
    | cons c cs =>
      rw [List.cons_append]
      rw [scanString] at h ⊢
      split at h
      next hquote =>
        cases h
        exact if_pos hquote
      next hquote =>
        rw [if_neg hquote]
        split at h
        next hback =>
          obtain ⟨⟨c', rest'⟩, hescape, h⟩ := Exec.bind_eq_ok h
          obtain ⟨⟨s', rest''⟩, hstring, h⟩ := Exec.bind_eq_ok h
          cases h
          rw [if_pos hback, scanEscape_append more hescape]
          change (scanString m (rest' ++ more) >>= _) = _
          rw [ih more (by omega) hstring]
          rfl
        next hback =>
          rw [if_neg hback]
          split at h
          next => cases h
          next hcontrol =>
            obtain ⟨⟨s', rest'⟩, hstring, h⟩ := Exec.bind_eq_ok h
            cases h
            rw [if_neg hcontrol, ih more (by omega) hstring]
            rfl

/-- What stands after a value within a list or a dictionary. -/
def Closes (rest : List Char) : Prop :=
  ∃ c cs, skipWhitespace rest = c :: cs ∧ (c = ',' ∨ c = ']' ∨ c = '}')

theorem Closes.append {rest : List Char} (h : Closes rest) (more : List Char) :
    skipWhitespace (rest ++ more) = skipWhitespace rest ++ more := by
  obtain ⟨c, cs, hskip, -⟩ := h
  exact dropWhile_append_of_ne_nil (by rw [← skipWhitespace, hskip]; exact List.cons_ne_nil _ _)
    more

/-- A number has ended where a list or a dictionary goes on. -/
theorem Closes.ends {rest : List Char} (h : Closes rest) (more : List Char) :
    rest ≠ [] ∧ isFloat (rest ++ more) = false := by
  obtain ⟨c, cs, hskip, hc⟩ := h
  cases rest with
  | nil => cases hskip
  | cons d ds =>
    refine ⟨List.cons_ne_nil _ _, ?_⟩
    have hd : d ≠ '.' ∧ d ≠ 'e' ∧ d ≠ 'E' := by
      by_cases hws : isWhitespace d = true
      · refine ⟨?_, ?_, ?_⟩ <;> (rintro rfl; exact absurd hws (by decide))
      · rw [skipWhitespace, List.dropWhile_cons_of_neg hws] at hskip
        cases hskip
        rcases hc with rfl | rfl | rfl <;> decide
    rw [List.cons_append, isFloat.eq_def]
    split
    · next heq => exact absurd (List.cons.inj heq).1 hd.1
    · next heq => exact absurd (List.cons.inj heq).1 hd.2.1
    · next heq => exact absurd (List.cons.inj heq).1 hd.2.2
    · rfl

theorem scanDigits_append {cs rest : List Char} {n : Nat} (more : List Char) (hrest : rest ≠ [])
    (h : scanDigits cs = .ok (n, rest)) :
    scanDigits (cs ++ more) = .ok (n, rest ++ more) ∧ ∃ d ds, cs = d :: ds ∧ d.isDigit = true := by
  cases cs with
  | nil => cases h
  | cons c cs =>
    rw [scanDigits] at h
    split at h
    next hzero =>
      cases h
      refine ⟨?_, c, rest, rfl, by rw [hzero]; decide⟩
      rw [List.cons_append, scanDigits, if_pos hzero]
    next hzero =>
      split at h
      next hdigit =>
        cases h
        refine ⟨?_, c, cs, rfl, hdigit⟩
        have htake : ((c :: cs) ++ more).takeWhile Char.isDigit
            = (c :: cs).takeWhile Char.isDigit := by
          rw [List.takeWhile_append, if_neg]
          intro hlen
          have happend := congrArg List.length
            (List.takeWhile_append_dropWhile (p := Char.isDigit) (l := c :: cs))
          rw [List.length_append] at happend
          exact hrest (List.length_eq_zero_iff.mp (by omega))
        rw [List.cons_append, scanDigits, if_neg hzero, if_pos hdigit, ← List.cons_append, htake,
          dropWhile_append_of_ne_nil hrest]
      next => cases h

theorem scanNumber_append {cs rest : List Char} {v : Json} (more : List Char)
    (hrest : Closes rest) (h : scanNumber cs = .ok (v, rest)) :
    scanNumber (cs ++ more) = .ok (v, rest ++ more) ∧ ∃ c ds, cs = c :: ds ∧
      (c = '-' ∨ c.isDigit = true) ∧ (c = '-' → ∃ d es, ds = d :: es ∧ d ≠ 'I') := by
  obtain ⟨hne, hfloat⟩ := hrest.ends more
  rw [scanNumber] at h
  obtain ⟨⟨n, rest'⟩, hdigits, h⟩ := Exec.bind_eq_ok h
  dsimp only at h
  split at h
  next => cases h
  next =>
    by_cases hsign : cs.head? = some '-'
    · obtain ⟨ds, rfl⟩ : ∃ ds, cs = '-' :: ds := by
        cases cs with
        | nil => cases hsign
        | cons c ds => exact ⟨ds, congrArg (· :: ds) (Option.some.inj hsign)⟩
      simp only [List.head?_cons, if_true, List.tail_cons] at hdigits h
      cases h
      obtain ⟨happend, d, es, hds, hd⟩ := scanDigits_append more hne hdigits
      refine ⟨scanNumber_neg happend hfloat, '-', ds, rfl, Or.inl rfl, fun _ => ⟨d, es, hds, ?_⟩⟩
      rintro rfl
      exact absurd hd (by decide)
    · simp only [hsign, if_false] at hdigits h
      cases h
      obtain ⟨happend, d, es, rfl, hd⟩ := scanDigits_append more hne hdigits
      exact ⟨scanNumber_nonneg hsign happend hfloat, d, es, rfl, Or.inr hd,
        fun heq => absurd (congrArg some heq) hsign⟩

theorem isPrefixOf_append {p cs : List Char} (h : p.isPrefixOf cs = true) (more : List Char) :
    p.isPrefixOf (cs ++ more) = true :=
  List.isPrefixOf_iff_prefix.mpr ((List.isPrefixOf_iff_prefix.mp h).trans (List.prefix_append _ _))

/-- A value is followed by a comma or a bracket, or is itself within brackets. -/
def Bounded (cs rest : List Char) : Prop :=
  cs.head? = some '[' ∨ cs.head? = some '{' ∨ Closes rest

theorem skipWhitespace_append {cs : List Char} (h : skipWhitespace cs ≠ []) (more : List Char) :
    skipWhitespace (cs ++ more) = skipWhitespace cs ++ more :=
  dropWhile_append_of_ne_nil h more

theorem ne_nil_of_scanElements {n : Nat} {cs rest : List Char} {items : List Json}
    (h : scanElements n cs = .ok (items, rest)) : cs ≠ [] := by
  rintro rfl
  cases n with
  | zero => cases h
  | succ n =>
    obtain ⟨p, hvalue, -⟩ := Exec.bind_eq_ok h
    cases n <;> cases hvalue

theorem ne_nil_of_scanMembers {n : Nat} {cs rest : List Char} {items : List (String × Json)}
    (h : scanMembers n cs = .ok (items, rest)) : cs ≠ [] := by
  rintro rfl
  cases n <;> cases h

theorem head_of_isPrefixOf {c d : Char} {cs ds : List Char}
    (h : (d :: ds).isPrefixOf (c :: cs) = true) : c = d := by
  by_contra hne
  rw [isPrefixOf_of_ne hne] at h
  cases h

theorem drop_append_of_isPrefixOf {p cs : List Char} {c : Char}
    (h : p.isPrefixOf (c :: cs) = true) (more : List Char) :
    (cs ++ more).drop (p.length - 1) = cs.drop (p.length - 1) ++ more := by
  have hle := (List.isPrefixOf_iff_prefix.mp h).length_le
  rw [List.length_cons] at hle
  exact List.drop_append_of_le_length (by omega)

/-- The scanner of a constant or a number, from the first character on. -/
theorem scanOnce_atom_append {c : Char} {cs rest : List Char} {v : Json} {n m : Nat}
    (more : List Char) (hquote : c ≠ '"') (hbrace : c ≠ '{') (hbracket : c ≠ '[')
    (hrest : Closes rest) (h : scanOnce (n + 1) (c :: cs) = .ok (v, rest)) :
    scanOnce (m + 1) (c :: (cs ++ more)) = .ok (v, rest ++ more) := by
  rw [scanOnce, if_neg hquote, if_neg hbrace, if_neg hbracket] at h
  split at h
  next hnull =>
    cases h
    rw [scanOnce, if_neg hquote, if_neg hbrace, if_neg hbracket, ← List.cons_append,
      if_pos (isPrefixOf_append hnull more)]
    exact congrArg (fun rest => Except.ok (Json.null, rest)) (drop_append_of_isPrefixOf hnull more)
  next hnull =>
  split at h
  next htrue =>
    cases h
    have hc := head_of_isPrefixOf htrue
    rw [scanOnce, if_neg hquote, if_neg hbrace, if_neg hbracket,
      isPrefixOf_of_ne (by rw [hc]; decide), ← List.cons_append,
      if_pos (isPrefixOf_append htrue more)]
    exact congrArg (fun rest => Except.ok (Json.bool true, rest))
      (drop_append_of_isPrefixOf htrue more)
  next htrue =>
  split at h
  next hfalse =>
    cases h
    have hc := head_of_isPrefixOf hfalse
    rw [scanOnce, if_neg hquote, if_neg hbrace, if_neg hbracket,
      isPrefixOf_of_ne (by rw [hc]; decide), isPrefixOf_of_ne (by rw [hc]; decide),
      ← List.cons_append, if_pos (isPrefixOf_append hfalse more)]
    exact congrArg (fun rest => Except.ok (Json.bool false, rest))
      (drop_append_of_isPrefixOf hfalse more)
  next hfalse =>
  split at h
  next => cases h
  next hfinite =>
    obtain ⟨happend, d, ds, hcs, hd, hdigit⟩ := scanNumber_append more hrest h
    cases hcs
    rw [scanOnce_number hd, ← List.cons_append, happend]
    intro hsign e he
    obtain ⟨e', es, rfl, he'⟩ := hdigit hsign
    cases he
    exact he'

theorem scanOnce_extends {n : Nat} (helements : Extends scanElements n)
    (hmembers : Extends scanMembers n) {m : Nat} {cs rest : List Char} {v : Json}
    (more : List Char) (hle : n + 1 ≤ m) (hbound : Bounded cs rest)
    (h : scanOnce (n + 1) cs = .ok (v, rest)) :
    scanOnce m (cs ++ more) = .ok (v, rest ++ more) := by
  obtain ⟨m, rfl⟩ : ∃ k, m = k + 1 := ⟨m - 1, by omega⟩
  cases cs with
  | nil => cases h
  | cons c cs =>
    have hscan := h
    rw [List.cons_append]
    rw [scanOnce] at h
    split at h
    next hquote =>
      obtain ⟨⟨s, rest'⟩, hstring, h⟩ := Exec.bind_eq_ok h
      cases h
      rw [scanOnce, if_pos hquote, scanString_extends n more (by omega) hstring]
      rfl
    next hquote =>
    split at h
    next hbrace =>
      split at h
      next hempty =>
        cases h
        have hne : skipWhitespace cs ≠ [] := fun hnil => by rw [hnil] at hempty; cases hempty
        rw [scanOnce, if_neg hquote, if_pos hbrace, skipWhitespace_append hne,
          List.head?_append_of_ne_nil _ hne, if_pos hempty, List.tail_append_of_ne_nil hne]
      next hempty =>
        obtain ⟨⟨items, rest'⟩, hitems, h⟩ := Exec.bind_eq_ok h
        cases h
        have hne := ne_nil_of_scanMembers hitems
        rw [scanOnce, if_neg hquote, if_pos hbrace, skipWhitespace_append hne,
          List.head?_append_of_ne_nil _ hne, if_neg hempty, hmembers more (by omega) hitems]
        rfl
    next hbrace =>
    split at h
    next hbracket =>
      split at h
      next hempty =>
        cases h
        have hne : skipWhitespace cs ≠ [] := fun hnil => by rw [hnil] at hempty; cases hempty
        rw [scanOnce, if_neg hquote, if_neg hbrace, if_pos hbracket, skipWhitespace_append hne,
          List.head?_append_of_ne_nil _ hne, if_pos hempty, List.tail_append_of_ne_nil hne]
      next hempty =>
        obtain ⟨⟨items, rest'⟩, hitems, h⟩ := Exec.bind_eq_ok h
        cases h
        have hne := ne_nil_of_scanElements hitems
        rw [scanOnce, if_neg hquote, if_neg hbrace, if_pos hbracket, skipWhitespace_append hne,
          List.head?_append_of_ne_nil _ hne, if_neg hempty, helements more (by omega) hitems]
        rfl
    next hbracket =>
      have hclose : Closes rest := by
        rcases hbound with hb | hb | hb
        · exact absurd (Option.some.inj hb) hbracket
        · exact absurd (Option.some.inj hb) hbrace
        · exact hb
      exact scanOnce_atom_append more hquote hbrace hbracket hclose hscan

/-- The scanner of a value, from an amount of fuel on. -/
def ExtendsValue (n : Nat) : Prop :=
  ∀ {m : Nat} {cs rest : List Char} {v : Json} (more : List Char), n ≤ m → Bounded cs rest →
    scanOnce n cs = .ok (v, rest) → scanOnce m (cs ++ more) = .ok (v, rest ++ more)

theorem scanElements_extends {n : Nat} (hvalue : ExtendsValue n)
    (helements : Extends scanElements n) : Extends scanElements (n + 1) := by
  intro m cs rest items more hle h
  obtain ⟨m, rfl⟩ : ∃ k, m = k + 1 := ⟨m - 1, by omega⟩
  rw [scanElements] at h
  obtain ⟨⟨v, rest'⟩, hscan, h⟩ := Exec.bind_eq_ok h
  dsimp only at h
  split at h
  next rest₁ hskip =>
    cases h
    have hclose : Closes rest' := ⟨']', rest, hskip, by decide⟩
    have hskip' := hclose.append more
    rw [hskip, List.cons_append] at hskip'
    rw [scanElements, hvalue more (by omega) (Or.inr (Or.inr hclose)) hscan]
    simp only [bind, Except.bind, hskip']
    rfl
  next rest₁ hskip =>
    obtain ⟨⟨items', rest₂⟩, hrest, h⟩ := Exec.bind_eq_ok h
    cases h
    have hclose : Closes rest' := ⟨',', rest₁, hskip, by decide⟩
    have hskip' := hclose.append more
    rw [hskip, List.cons_append] at hskip'
    have hnext := skipWhitespace_append (ne_nil_of_scanElements hrest) more
    rw [scanElements, hvalue more (by omega) (Or.inr (Or.inr hclose)) hscan]
    simp only [bind, Except.bind, hskip', hnext, helements more (Nat.le_of_succ_le_succ hle) hrest]
    rfl
  next => cases h

theorem scanMembers_extends {n : Nat} (hvalue : ExtendsValue n)
    (hmembers : Extends scanMembers n) : Extends scanMembers (n + 1) := by
  intro m cs rest items more hle h
  obtain ⟨m, rfl⟩ : ∃ k, m = k + 1 := ⟨m - 1, by omega⟩
  have hle := Nat.le_of_succ_le_succ hle
  cases cs with
  | nil => cases h
  | cons c cs =>
    rw [scanMembers] at h
    split at h
    next hquote =>
      obtain ⟨⟨k, rest₀⟩, hkey, h⟩ := Exec.bind_eq_ok h
      dsimp only at h
      split at h
      next rest₁ hcolon =>
        obtain ⟨⟨v, rest₂⟩, hscan, h⟩ := Exec.bind_eq_ok h
        have hcolon' := skipWhitespace_append (by rw [hcolon]; exact List.cons_ne_nil _ _) more
        rw [hcolon, List.cons_append] at hcolon'
        have hvalue' : ∀ {d : Char} {ds : List Char}, skipWhitespace rest₂ = d :: ds →
            d = ',' ∨ d = ']' ∨ d = '}' →
            scanOnce m (skipWhitespace (rest₁ ++ more)) = .ok (v, rest₂ ++ more) ∧
              skipWhitespace (rest₂ ++ more) = d :: (ds ++ more) := by
          intro d ds hskip hd
          have hclose : Closes rest₂ := ⟨d, ds, hskip, hd⟩
          have hne : skipWhitespace rest₁ ≠ [] := by
            intro hnil
            rw [hnil] at hscan
            cases n <;> cases hscan
          refine ⟨?_, by rw [hclose.append, hskip, List.cons_append]⟩
          rw [skipWhitespace_append hne]
          exact hvalue more hle (Or.inr (Or.inr hclose)) hscan
        dsimp only at h
        split at h
        next rest₃ hskip =>
          cases h
          obtain ⟨hscan', hskip'⟩ := hvalue' hskip (by decide)
          rw [List.cons_append, scanMembers, if_pos hquote, scanString_extends n more hle hkey]
          simp only [bind, Except.bind, hcolon', hscan', hskip']
          rfl
        next rest₃ hskip =>
          obtain ⟨⟨items', rest₄⟩, hrest, h⟩ := Exec.bind_eq_ok h
          cases h
          obtain ⟨hscan', hskip'⟩ := hvalue' hskip (by decide)
          have hnext := skipWhitespace_append (ne_nil_of_scanMembers hrest) more
          rw [List.cons_append, scanMembers, if_pos hquote, scanString_extends n more hle hkey]
          simp only [bind, Except.bind, hcolon', hscan', hskip', hnext, hmembers more hle hrest]
          rfl
        next => cases h
      next => cases h
    next => cases h

/-- **What the scanner has read, it reads in a longer text too.** -/
theorem scan_extends (n : Nat) :
    ExtendsValue n ∧ Extends scanElements n ∧ Extends scanMembers n := by
  induction n with
  | zero =>
    refine ⟨?_, ?_, ?_⟩
    · intro m cs rest v more hle hbound h
      cases h
    · intro m cs rest items more hle h
      cases h
    · intro m cs rest items more hle h
      cases h
  | succ n ih =>
    obtain ⟨hvalue, helements, hmembers⟩ := ih
    exact ⟨scanOnce_extends helements hmembers, scanElements_extends hvalue helements,
      scanMembers_extends hvalue hmembers⟩

/-- A list or a dictionary. -/
def IsContainer (v : Json) : Prop :=
  (dumps v).head? = some '[' ∨ (dumps v).head? = some '{'

/-- **No shorter piece of the text** of a list or a dictionary can be read. -/
theorem loads_take {v : Json} (hdistinct : Distinct v) (hcontainer : IsContainer v) {k : Nat}
    (hk : k < (dumps v).length) : ∃ err, loads ((dumps v).take k) = .error err := by
  cases hload : loads ((dumps v).take k) with
  | error err => exact ⟨err, rfl⟩
  | ok w =>
    exfalso
    have hpiece : skipWhitespace ((dumps v).take k) = (dumps v).take k := by
      cases k with
      | zero => rfl
      | succ k =>
        obtain ⟨c, cs, hcs, hc, -⟩ := dumps_begins v
        rw [hcs, List.take_succ_cons]
        exact List.dropWhile_cons_of_neg (by rw [hc]; exact Bool.false_ne_true)
    rw [loads, hpiece] at hload
    obtain ⟨⟨w', rest⟩, hscan, -⟩ := Exec.bind_eq_ok hload
    have hhead : ((dumps v).take k).head? = (dumps v).head? := by
      cases k with
      | zero => cases hscan
      | succ k =>
        obtain ⟨c, cs, hcs, -⟩ := dumps_begins v
        rw [hcs, List.take_succ_cons, List.head?_cons, List.head?_cons]
    have hbound : Bounded ((dumps v).take k) rest := by
      rw [Bounded, hhead]
      rcases hcontainer with hc | hc
      · exact Or.inl hc
      · exact Or.inr (Or.inl hc)
    -- the whole text would be read with the remainder of it left over
    have hextended := (scan_extends _).1 (m := (dumps v).length + 1) ((dumps v).drop k)
      (by rw [List.length_take]; omega) hbound hscan
    have hends : EndsNumber [] := ⟨rfl, rfl⟩
    have hwhole := hdistinct.readBack (n := (dumps v).length + 1) (Nat.le_succ _) hends
    rw [List.take_append_drop] at hextended
    rw [List.append_nil, hextended] at hwhole
    have hleft := List.append_eq_nil_iff.mp (Prod.mk.inj (Except.ok.inj hwhole)).2
    have hlength := congrArg List.length hleft.2
    rw [List.length_drop, List.length_nil] at hlength
    omega

/-! ## Characters of a text -/

theorem isPrintable_escapeUnit {n : Nat} (h : n < 0x10000) : ∀ c ∈ escapeUnit n, IsPrintable c := by
  have hall : ∀ d ∈ List.range 16, IsPrintable d.digitChar := by decide
  have hdigit : ∀ d, d < 16 → IsPrintable d.digitChar := fun d hd => hall d (List.mem_range.mpr hd)
  simp only [escapeUnit, hexDigits, List.forall_mem_cons, List.not_mem_nil]
  exact ⟨by decide, by decide, hdigit _ (by omega), hdigit _ (by omega), hdigit _ (by omega),
    hdigit _ (by omega), fun _ h => h.elim⟩

theorem isPrintable_escapeChar (c : Char) : ∀ d ∈ escapeChar c, IsPrintable d := by
  intro d hd
  unfold escapeChar at hd
  split at hd
  next e he =>
    have hall : ∀ p ∈ shortEscapes, IsPrintable p.2 := by decide
    obtain ⟨l, l', hl, -⟩ := List.lookup_eq_some_iff.mp he
    have he' : IsPrintable e := hall (c, e) (hl ▸ by simp)
    rcases List.mem_cons.mp hd with rfl | hd
    · decide
    · rwa [List.mem_singleton.mp hd]
  next =>
    split at hd
    next hprint => rwa [List.mem_singleton.mp hd]
    next =>
      have hvalid := toNat_valid c
      unfold escapeUnicode at hd
      split at hd
      · exact isPrintable_escapeUnit (by omega) d hd
      · rcases List.mem_append.mp hd with hd | hd
        · exact isPrintable_escapeUnit (by omega) d hd
        · exact isPrintable_escapeUnit (by omega) d hd

theorem isPrintable_dumpsString (s : String) : ∀ c ∈ dumpsString s, IsPrintable c := by
  intro c hc
  rcases List.mem_cons.mp hc with rfl | hc
  · decide
  · rcases List.mem_append.mp hc with hc | hc
    · obtain ⟨d, -, hd⟩ := List.mem_flatMap.mp hc
      exact isPrintable_escapeChar d c hd
    · rw [List.mem_singleton.mp hc]
      decide

theorem isPrintable_of_isDigit {c : Char} (h : c.isDigit = true) : IsPrintable c := by
  simp only [Char.isDigit, Bool.and_eq_true, decide_eq_true_eq, UInt32.le_iff_toNat_le] at h
  have hlow : 48 ≤ c.toNat := h.1
  have hhigh : c.toNat ≤ 57 := h.2
  exact ⟨by omega, by omega⟩

theorem isPrintable_dumpsInt (n : Int) : ∀ c ∈ dumpsInt n, IsPrintable c := by
  have hdigits : ∀ c ∈ Nat.toDigits 10 n.natAbs, IsPrintable c := fun c hc =>
    isPrintable_of_isDigit (Nat.isDigit_of_mem_toDigits (by decide) (by decide) hc)
  intro c hc
  unfold dumpsInt at hc
  split at hc
  · rcases List.mem_cons.mp hc with rfl | hc
    · decide
    · exact hdigits c hc
  · exact hdigits c hc

theorem isPrintable_of_all {cs : List Char} (h : cs.all (fun c => decide (IsPrintable c)) = true) :
    ∀ c ∈ cs, IsPrintable c := fun c hc => of_decide_eq_true (List.all_eq_true.mp h c hc)

theorem isPrintable_intercalate : ∀ {texts : List (List Char)},
    (∀ text ∈ texts, ∀ c ∈ text, IsPrintable c) →
    ∀ c ∈ [',', ' '].intercalate texts, IsPrintable c
  | [], _, c, hc => by cases hc
  | [text], h, c, hc => by
    rw [intercalate_singleton] at hc
    exact h text List.mem_cons_self c hc
  | text :: text' :: texts, h, c, hc => by
    rw [intercalate_cons_cons] at hc
    rcases List.mem_append.mp hc with hc | hc
    · exact h text List.mem_cons_self c hc
    · rcases List.mem_append.mp hc with hc | hc
      · exact isPrintable_of_all (by decide) c hc
      · exact isPrintable_intercalate (fun t ht => h t (List.mem_cons_of_mem _ ht)) c hc

mutual

/-- **A text has printable ASCII characters only**, so it is one line whatever ends a line. -/
theorem isPrintable_dumps : ∀ (v : Json), ∀ c ∈ dumps v, IsPrintable c
  | .null => isPrintable_of_all (by decide)
  | .bool true => isPrintable_of_all (by decide)
  | .bool false => isPrintable_of_all (by decide)
  | .int n => isPrintable_dumpsInt n
  | .str s => isPrintable_dumpsString s
  | .list items => by
    intro c hc
    rw [dumps] at hc
    rcases List.mem_cons.mp hc with rfl | hc
    · decide
    · rcases List.mem_append.mp hc with hc | hc
      · exact isPrintable_intercalate (isPrintable_dumpsAll items) c hc
      · rw [List.mem_singleton.mp hc]
        decide
  | .dict items => by
    intro c hc
    rw [dumps] at hc
    rcases List.mem_cons.mp hc with rfl | hc
    · decide
    · rcases List.mem_append.mp hc with hc | hc
      · exact isPrintable_intercalate (isPrintable_dumpsItems items) c hc
      · rw [List.mem_singleton.mp hc]
        decide

theorem isPrintable_dumpsAll : ∀ (items : List Json), ∀ text ∈ dumpsAll items,
    ∀ c ∈ text, IsPrintable c
  | [], text, h => by cases h
  | v :: items, text, h => by
    rw [dumpsAll] at h
    rcases List.mem_cons.mp h with rfl | h
    · exact isPrintable_dumps v
    · exact isPrintable_dumpsAll items text h

theorem isPrintable_dumpsItems : ∀ (items : List (String × Json)), ∀ text ∈ dumpsItems items,
    ∀ c ∈ text, IsPrintable c
  | [], text, h => by cases h
  | (k, v) :: items, text, h => by
    rw [dumpsItems] at h
    rcases List.mem_cons.mp h with rfl | h
    · intro c hc
      rcases List.mem_append.mp hc with hc | hc
      · exact isPrintable_dumpsString k c hc
      · rcases List.mem_cons.mp hc with rfl | hc
        · decide
        · rcases List.mem_cons.mp hc with rfl | hc
          · decide
          · exact isPrintable_dumps v c hc
    · exact isPrintable_dumpsItems items text h

end

end Json
