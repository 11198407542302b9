import CheckedExpr.Numeral

/-!
# The shortest digits of a number

A finite number is written with the fewest decimal digits that read back as the same number, and
among these with the ones nearest to it; of two that are equally near, the larger ones.

A positive number is a fraction. On the grid of decimals with a given number of digits it lies
between two neighbours, and if any decimal of the grid reads back as the number, then one of these
two does, so no other is tried. The grids are tried from the coarsest on; the seventeenth is fine
enough for every number, and the exact expansion stands behind it so that the search always
ends in decimals that read back.
-/

namespace CheckedExpr.Shortest

-- Powers are the ones of core, whatever else is in scope where a module is read.
attribute [local instance (high)] instPowNat

/-- A decimal: a whole number times a power of ten. -/
structure Decimals where
  mantissa : Nat
  power : Int
  deriving DecidableEq, Repr

/-- The number nearest to a decimal. -/
def Decimals.value (d : Decimals) : Float := nearestDecimal d.mantissa d.power

/-- A positive fraction. -/
structure Fraction where
  numerator : Nat
  denominator : Nat
  deriving DecidableEq, Repr

namespace Fraction

/-- The fraction that is a whole number times a power of two. -/
def ofBinary (mantissa : Nat) (power : Int) : Fraction :=
  ⟨mantissa * 2 ^ power.toNat, 2 ^ (-power).toNat⟩

/-- The fraction times a power of ten. -/
def scale (f : Fraction) (power : Int) : Fraction :=
  ⟨f.numerator * 10 ^ power.toNat, f.denominator * 10 ^ (-power).toNat⟩

/-- The whole part. -/
def floor (f : Fraction) : Nat := f.numerator / f.denominator

/-- Whether the fraction is at least half way from its whole part to the next whole number. -/
def isUpperHalf (f : Fraction) : Bool :=
  f.denominator ≤ 2 * (f.numerator % f.denominator)

/-- The power of ten that the first digit stands for. The smallest positive number has its first
digit at the 324th place behind the point, so moved by that many places every number has a whole
part, whose digits can be counted. -/
def magnitude (f : Fraction) : Int :=
  (Nat.toDigits 10 (f.scale 324).floor).length - 325

end Fraction

/-- The decimal with `count` digits that reads back as `x`, which has the value of the fraction:
the nearer one if both neighbours do. -/
def onGrid? (x : Float) (f : Fraction) (count : Nat) : Option Decimals :=
  let places := (count : Int) - 1 - f.magnitude
  let scaled := f.scale places
  let lower : Decimals := ⟨scaled.floor, -places⟩
  let upper : Decimals := ⟨scaled.floor + 1, -places⟩
  -- the nearer neighbour comes first; at half way that is the larger one
  let order := if scaled.isUpperHalf then [upper, lower] else [lower, upper]
  order.find? (·.value == x)

/-- The decimal that is exactly a whole number times a power of two. -/
def exact (mantissa : Nat) (power : Int) : Decimals :=
  if 0 ≤ power then ⟨mantissa * 2 ^ power.toNat, 0⟩
  else ⟨mantissa * 5 ^ (-power).toNat, power⟩

/-- The shortest decimal that reads back as `x`, which is `mantissa * 2 ^ power`. -/
def search (x : Float) (mantissa : Nat) (power : Int) : Decimals :=
  -- from the coarsest grid on, so the first decimal that is found has the fewest digits
  ((List.range 17).findSome? fun n => onGrid? x (.ofBinary mantissa power) (n + 1)).getD
    (exact mantissa power)

/-- A decimal that was found on a grid reads back. -/
theorem value_of_onGrid? {x : Float} {f : Fraction} {count : Nat} {d : Decimals}
    (h : onGrid? x f count = some d) : (d.value == x) = true :=
  List.find?_some (p := fun d : Decimals => d.value == x) h

end CheckedExpr.Shortest
