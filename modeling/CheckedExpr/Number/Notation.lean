import CheckedExpr.Number.Shortest

/-!
# Numbers as text

How the language writes a number: `NaN`, `Infinity`, or its shortest digits. From a millionth up to,
but not including, ten to the twenty-first, the digits are written out with a point where it
belongs; beyond that there is one digit before the point, and an exponent that always has a sign.
Both zeros are `0`.
-/

namespace CheckedExpr

/-- The digits of a number in a row, and the power of ten that the first one stands for. -/
structure DigitRow where
  digits : List Char
  magnitude : Int
  deriving DecidableEq, Repr

namespace DigitRow

/-- The digits of a decimal, without zeros at the end. -/
def ofDecimals (d : Shortest.Decimals) : DigitRow :=
  let digits := Nat.toDigits 10 d.mantissa
  -- zeros at the end say nothing about the number, as the magnitude is kept
  ⟨(digits.reverse.dropWhile (· == '0')).reverse, d.power + digits.length - 1⟩

/-- The digits with the point in its place, and zeros where no digit is left. -/
def positional (row : DigitRow) : List Char :=
  let whole := (row.magnitude + 1).toNat
  -- below one, zeros stand between the point and the first digit
  if row.magnitude < 0 then
    '0' :: '.' :: List.replicate (-row.magnitude - 1).toNat '0' ++ row.digits
  -- no digit is left for behind the point, so there is no point
  else if row.digits.length ≤ whole then
    row.digits ++ List.replicate (whole - row.digits.length) '0'
  else row.digits.take whole ++ '.' :: row.digits.drop whole

/-- The digits with the point behind the first one, and the power of ten. -/
def scientific (row : DigitRow) : List Char :=
  let mantissa :=
    match row.digits with
    | [] => []
    | [first] => [first]
    | first :: rest => first :: '.' :: rest
  let sign := if row.magnitude < 0 then '-' else '+'
  mantissa ++ 'e' :: sign :: Nat.toDigits 10 row.magnitude.natAbs

/-- Numbers between these powers of ten are written out. -/
def isPositional (row : DigitRow) : Bool := -6 ≤ row.magnitude && row.magnitude < 21

/-- The digits in the notation that their size asks for. -/
def text (row : DigitRow) : List Char :=
  if row.isPositional then row.positional else row.scientific

end DigitRow

open Float.Model in
/-- The text of a number. -/
def numberText (x : Float) : String :=
  match x.toModel.unpack with
  | .notANumber => "NaN"
  | .infinity .positive => "Infinity"
  | .infinity .negative => "-Infinity"
  | .zero _ => "0"
  | .finite .positive mantissa power _ =>
    String.ofList (DigitRow.ofDecimals (Shortest.search x mantissa power)).text
  -- the search knows positive numbers only
  | .finite .negative mantissa power _ =>
    String.ofList ('-' :: (DigitRow.ofDecimals (Shortest.search (-x) mantissa power)).text)

end CheckedExpr
