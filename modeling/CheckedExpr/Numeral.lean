import CheckedExpr.Text.Escape

/-!
# Numerals

How numbers are written: decimal numerals such as `12`, `1.`, `.5` and `6.02e+23`, and hexadecimal
ones such as `0xff`. A numeral is kept in its parts; `text` puts them together again, and `value`
is the number that it stands for.

* `Decimal.append_of_read`, `Numeral.append_of_read`: a numeral is read off the front of a text
  without losing a character.
* `Decimal.wellFormed_of_read`: what is read has a digit before the exponent and one in it.
-/

namespace CheckedExpr

/-- A decimal digit. -/
def isDigit (c : Char) : Bool := '0' ≤ c && c ≤ '9'

/-- The number that a row of decimal digits spells. -/
def digitsValue (digits : List Char) : Nat := Nat.ofDigitChars 10 digits 0

/-- The number nearest to `mantissa * 10 ^ exponent`; of two that are equally near, the one whose
last bit is zero. -/
def nearestDecimal (mantissa : Nat) (exponent : Int) : Float :=
  Float.ofScientific mantissa (decide (exponent < 0)) exponent.natAbs

/-- The part of a decimal numeral from the letter on. -/
structure Exponent where
  /-- The letter `e` or `E`. -/
  marker : Char
  /-- The sign, if one is written. -/
  sign : Option Char
  digits : List Char
  deriving DecidableEq, Repr

namespace Exponent

/-- The exponent as it is written. -/
def text (e : Exponent) : List Char := e.marker :: (e.sign.toList ++ e.digits)

/-- The power of ten that is meant. -/
def value (e : Exponent) : Int :=
  if e.sign = some '-' then -(digitsValue e.digits : Int) else digitsValue e.digits

/-- A sign at the front of a text, and the text behind it. -/
def readSign : List Char → Option Char × List Char
  | '+' :: rest => (some '+', rest)
  | '-' :: rest => (some '-', rest)
  -- no sign is no fault
  | rest => (none, rest)

/-- Reads an exponent. A letter that no digits follow is no exponent and is left alone. -/
def read : List Char → Option Exponent × List Char
  | [] => (none, [])
  | c :: cs =>
    let (sign, rest) := readSign cs
    let digits := rest.takeWhile isDigit
    if (c = 'e' ∨ c = 'E') ∧ digits ≠ [] then (some ⟨c, sign, digits⟩, rest.dropWhile isDigit)
    else (none, c :: cs)

/-- A sign and what is left behind it are what there was. -/
theorem append_readSign (text : List Char) :
    (readSign text).1.toList ++ (readSign text).2 = text := by
  unfold readSign
  split <;> simp

/-- An exponent and what is left behind it are what there was; where there is none, all is left. -/
theorem append_read (text : List Char) :
    ((read text).1.map Exponent.text).getD [] ++ (read text).2 = text := by
  cases text with
  | nil => simp [read]
  | cons c cs =>
    simp only [read]
    -- a letter with digits behind it is taken, any other is left alone
    split
    · simp [Exponent.text, List.takeWhile_append_dropWhile, append_readSign]
    · simp

end Exponent

/-- A decimal numeral: digits, a point with further digits, and an exponent, the last two of which
may be missing. -/
structure Decimal where
  whole : List Char
  /-- The digits behind the point, if there is a point. -/
  fraction : Option (List Char)
  exponent : Option Exponent
  deriving DecidableEq, Repr

namespace Decimal

/-- The numeral as it is written. -/
def text (d : Decimal) : List Char :=
  d.whole ++ ((d.fraction.map ('.' :: ·)).getD [] ++ (d.exponent.map Exponent.text).getD [])

/-- A numeral needs a digit before or behind the point, and one in an exponent. -/
structure WellFormed (d : Decimal) : Prop where
  digits : d.whole ≠ [] ∨ d.fraction.getD [] ≠ []
  exponent : ∀ e ∈ d.exponent, e.digits ≠ []

/-- All digits before the exponent, read as one number. -/
def mantissa (d : Decimal) : Nat := digitsValue (d.whole ++ d.fraction.getD [])

/-- The power of ten that the mantissa is to be multiplied by. -/
def power (d : Decimal) : Int :=
  (d.exponent.map Exponent.value).getD 0 - (d.fraction.getD []).length

/-- The number nearest to what is written. -/
def value (d : Decimal) : Float := nearestDecimal d.mantissa d.power

/-- Reads a point and the digits behind it. -/
def readFraction : List Char → Option (List Char) × List Char
  | '.' :: rest => (some (rest.takeWhile isDigit), rest.dropWhile isDigit)
  | rest => (none, rest)

/-- Reads as much of a decimal numeral as there is. -/
def read (text : List Char) : Option (Decimal × List Char) :=
  let whole := text.takeWhile isDigit
  let (fraction, behind) := readFraction (text.dropWhile isDigit)
  if whole = [] ∧ fraction.getD [] = [] then none
  else
    let (exponent, rest) := Exponent.read behind
    some (⟨whole, fraction, exponent⟩, rest)

/-- The numeral that a whole text is. -/
def ofText? (text : List Char) : Option Decimal :=
  match read text with
  | some (d, []) => some d
  | _ => none

/-- A point with its digits and what is left behind them are what there was. -/
theorem append_readFraction (text : List Char) :
    ((readFraction text).1.map ('.' :: ·)).getD [] ++ (readFraction text).2 = text := by
  unfold readFraction
  split <;> simp [List.takeWhile_append_dropWhile]

/-- **A decimal numeral and what is left behind it are what there was.** -/
theorem append_of_read {text rest : List Char} {d : Decimal} (h : read text = some (d, rest)) :
    text = d.text ++ rest := by
  simp only [read] at h
  split at h
  next => simp at h
  next =>
    simp only [Option.some.injEq, Prod.mk.injEq] at h
    obtain ⟨rfl, rfl⟩ := h
    simp only [Decimal.text, List.append_assoc, Exponent.append_read, append_readFraction,
      List.takeWhile_append_dropWhile]

/-- **What is read has a digit before the exponent and one in it.** -/
theorem wellFormed_of_read {text rest : List Char} {d : Decimal}
    (h : read text = some (d, rest)) : d.WellFormed := by
  simp only [read] at h
  split at h
  next => simp at h
  next hdigits =>
    simp only [Option.some.injEq, Prod.mk.injEq] at h
    obtain ⟨rfl, -⟩ := h
    refine ⟨?_, ?_⟩
    -- the reader refuses only where both parts are without digits
    · by_cases hwhole : text.takeWhile isDigit = []
      · exact Or.inr fun hfraction => hdigits ⟨hwhole, hfraction⟩
      · exact Or.inl hwhole
    · intro e he
      generalize readFraction (text.dropWhile isDigit) = parts at he
      cases hbehind : parts.2 with
      | nil => simp [hbehind, Exponent.read] at he
      | cons c cs =>
        simp only [hbehind, Exponent.read] at he
        split at he
        -- an exponent is taken only with its digits
        next hgood =>
          simp only [Option.mem_def, Option.some.injEq] at he
          rw [← he]
          exact hgood.2
        next => simp at he

end Decimal

/-- A number as an expression writes it. -/
inductive Numeral where
  | decimal (d : Decimal)
  /-- A zero, the letter `x` in either case, and hexadecimal digits. -/
  | hex (marker : Char) (digits : List Char)
  deriving DecidableEq, Repr

namespace Numeral

/-- The numeral as it is written. -/
def text : Numeral → List Char
  | decimal d => d.text
  | hex marker digits => '0' :: marker :: digits

/-- Sixteen times a number and a hexadecimal digit, each step rounded. -/
def shiftIn (value : Float) (c : Char) : Float :=
  value * 16 + Float.ofNat ((Text.hexDigit? c).getD 0)

/-- The number that is meant. Hexadecimal digits are taken in one by one from the left. -/
def value : Numeral → Float
  | decimal d => d.value
  | hex _ digits => digits.foldl shiftIn 0

/-- Reads a hexadecimal numeral: the letter behind the zero and the digits. -/
def readHex : List Char → Option (Numeral × List Char)
  | '0' :: marker :: rest =>
    -- the zero before the letter belongs to the numeral, the digits begin behind the letter
    let digits := rest.takeWhile Text.isHexDigit
    if (marker = 'x' ∨ marker = 'X') ∧ digits ≠ [] then
      some (hex marker digits, rest.dropWhile Text.isHexDigit)
    else none
  | _ => none

/-- Reads a numeral. A zero that no hexadecimal digits follow is a decimal numeral. -/
def read (text : List Char) : Option (Numeral × List Char) :=
  -- a zero with an x and no digits behind it is read as the zero alone
  match readHex text with
  | some found => some found
  | none => (Decimal.read text).map fun (d, rest) => (decimal d, rest)

/-- A hexadecimal numeral and what is left behind it are what there was. -/
theorem append_of_readHex {text rest : List Char} {n : Numeral}
    (h : readHex text = some (n, rest)) : text = n.text ++ rest := by
  unfold readHex at h
  split at h
  next =>
    simp only at h
    split at h
    next =>
      simp only [Option.some.injEq, Prod.mk.injEq] at h
      obtain ⟨rfl, rfl⟩ := h
      simp [Numeral.text, List.takeWhile_append_dropWhile]
    next => simp at h
  next => simp at h

/-- **A numeral and what is left behind it are what there was.** -/
theorem append_of_read {text rest : List Char} {n : Numeral} (h : read text = some (n, rest)) :
    text = n.text ++ rest := by
  unfold read at h
  -- hexadecimal numerals are tried first, as each of them begins with a decimal one
  split at h
  next found hex =>
    simp only [Option.some.injEq] at h
    subst h
    exact append_of_readHex hex
  next =>
    simp only [Option.map_eq_some_iff, Prod.mk.injEq] at h
    obtain ⟨⟨d, after⟩, inner, rfl, rfl⟩ := h
    exact Decimal.append_of_read inner

end Numeral

end CheckedExpr
