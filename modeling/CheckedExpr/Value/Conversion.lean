import CheckedExpr.Number.Reading
import CheckedExpr.Text.Blank
import CheckedExpr.Value

/-!
# Values as numbers and as primitive values

How a value becomes a number where one is needed. A string is read as a number if it is one when
white space around it is taken away: nothing at all is zero, a sign may stand before `Infinity` and
before a decimal numeral, and hexadecimal digits have to fit into 64 bits. A decimal numeral may
have one more sign of its own, and so may hexadecimal digits have a plus sign. Everything else is
not a number.
-/

namespace CheckedExpr

namespace Number

-- Powers are the ones of core, whatever else is in scope where a module is read.
attribute [local instance (high)] instPowNat

/-- The number that hexadecimal digits stand for, behind a plus sign or none. -/
def ofHexText (text : List Char) : Float :=
  let digits := match text with
    | '+' :: rest => rest
    | _ => text
  -- the digits have to be there, be hexadecimal, and be a number of 64 bits at most
  if digits ≠ [] ∧ digits.all Text.isHexDigit ∧ Text.hexValue digits < 2 ^ (64 : Nat) then
    Float.ofNat (Text.hexValue digits)
  else nan

/-- A character that may be part of a decimal numeral or be its sign. -/
def isNumeralChar (c : Char) : Bool :=
  isDigit c || c == '.' || c == 'e' || c == 'E' || c == '+' || c == '-'

/-- The number that a text spells in the characters of decimal numerals, so without words. -/
def ofDecimalText (text : List Char) : Float :=
  if text.all isNumeralChar then (read? text).getD nan else nan

/-- The number that a text stands for when it is used as a number. -/
def ofText (text : List Char) : Float :=
  let trimmed := Text.trim text
  if trimmed = [] then 0
  else
    let (negative, unsigned) := takeSign trimmed
    match unsigned with
    | '0' :: 'x' :: digits | '0' :: 'X' :: digits =>
      -- a sign before hexadecimal digits is none of theirs
      if unsigned = trimmed then ofHexText digits else nan
    | _ =>
      negateIf negative
        (if unsigned = "Infinity".toList then infinity else ofDecimalText unsigned)

end Number

namespace Value

variable {κ : Type}

/-- The number that a value is used as. An array is used as its only item is, by way of text. -/
def toNumber : Value κ → Float
  | undefined => Number.nan
  | null => 0
  | boolean b => if b then 1 else 0
  | number x => x
  | string s => Number.ofText s.toList
  | array _ [] => 0
  -- the item goes by way of its text, so an absent one is not the empty text of the array
  | array _ [item] => Number.ofText item.text.toList
  | array .. | object .. | function .. => Number.nan

/-- The value itself if it is primitive, and its text otherwise. -/
def toPrimitive (v : Value κ) : Value κ := if v.isPrimitive then v else string v.text

/-- What a value is converted to needs no further conversion. -/
theorem isPrimitive_toPrimitive (v : Value κ) : v.toPrimitive.isPrimitive = true := by
  unfold toPrimitive
  split
  next hprimitive => exact hprimitive
  next => rfl

end Value

end CheckedExpr
