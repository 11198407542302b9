import CheckedExpr.Numeral

/-!
# Reading numbers

The number that a whole text spells: a sign or none, and behind it a decimal numeral or a word, which
is `inf` or `infinity` for what is larger than all numbers and `nan` for what is not a number, in
letters of either case. A text that spells no number is refused; what that means is up to the reader
of the text.
-/

namespace CheckedExpr.Number

/-- What is not a number. -/
def nan : Float := 0.0 / 0.0

/-- What is larger than all numbers. -/
def infinity : Float := 1.0 / 0.0

/-- Takes a sign off the front of a text and tells whether it was a minus sign. -/
def takeSign : List Char → Bool × List Char
  | '-' :: rest => (true, rest)
  | '+' :: rest => (false, rest)
  | text => (false, text)

/-- The number with its sign changed if asked for. -/
def negateIf (negative : Bool) (x : Float) : Float := if negative then -x else x

/-- What a word stands for, if it is the word for something that no digits spell. -/
def ofWord? (text : List Char) : Option Float :=
  -- letters of either case, also mixed
  let word := text.map Char.toLower
  if word = "inf".toList ∨ word = "infinity".toList then some infinity
  else if word = "nan".toList then some nan
  else none

/-- The number that a text spells without a sign. -/
def readUnsigned? (text : List Char) : Option Float :=
  match Decimal.ofText? text with
  | some d => some d.value
  -- no word begins with a digit or a point, so the order does not matter
  | none => ofWord? text

/-- The number that a text spells. -/
def read? (text : List Char) : Option Float :=
  let (negative, unsigned) := takeSign text
  (readUnsigned? unsigned).map (negateIf negative)

end CheckedExpr.Number
