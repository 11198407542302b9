import CheckedExpr.Number.Remainder

/-!
# Numbers as integers and as 32-bit words

The whole part of a number, a number as an index, and a number as a word of 32 bits. A word is found
by arithmetic with numbers: the whole part stays a number, a remainder by 2^32 is taken of it and
made positive, and only what is left becomes an integer.
-/

namespace CheckedExpr.Number

-- Powers are the ones of core, whatever else is in scope where a module is read.
attribute [local instance (high)] instPowNat

open Float.Model in
/-- The whole part of a number, toward zero. What is not finite has none and counts as zero. -/
def wholePart (x : Float) : Int :=
  match x.toModel.unpack with
  | .finite sign mantissa power _ =>
    -- the division of natural numbers drops the fraction, and the sign comes back afterwards
    sign.apply (mantissa * 2 ^ power.toNat / 2 ^ (-power).toNat : Nat)
  | _ => 0

open Float.Model in
/-- The natural number that a number is, if it is one. Both zeros are. -/
def toNat? (x : Float) : Option Nat :=
  match x.toModel.unpack with
  | .zero _ => some 0
  | .finite .positive mantissa power _ =>
    -- a number with a fractional part is no natural number, however small the fraction
    if mantissa % 2 ^ (-power).toNat = 0 then
      some (mantissa * 2 ^ power.toNat / 2 ^ (-power).toNat)
    else none
  | _ => none

open Float.Model in
/-- The whole part of a number as a number, which keeps its sign. What is not finite stays as it
is. -/
def truncate (x : Float) : Float :=
  match x.toModel.unpack with
  | .finite sign .. =>
    let whole := (wholePart x).natAbs
    -- a number below one has the whole part zero, with the sign of the number
    if whole = 0 then .ofModel (.pack (.zero sign))
    else .ofModel (.pack (UnpackedFloat.round .binary64 sign whole 0))
  | _ => x

/-- What is left of `x` above the greatest multiple of `y` that is not greater. -/
def euclideanRemainder (x y : Float) : Float :=
  -- the remainder takes the sign of the dividend, so one step up makes it positive
  let left := remainder x y
  if left < 0 then left + y.abs else left

/-- The word of 32 bits that a number stands for. What is not finite stands for zero. -/
def word (x : Float) : BitVec 32 :=
  -- the remainder stays a number to the end, since the whole part may be far beyond any integer
  -- type
  if x.isFinite then (euclideanRemainder (truncate x) 4294967296).toUInt32.toBitVec else 0

/-- The number that a word is, taken with a sign. -/
def ofSigned (w : BitVec 32) : Float := Float.ofInt w.toInt

/-- The number that a word is, taken without a sign. -/
def ofUnsigned (w : BitVec 32) : Float := Float.ofNat w.toNat

/-- How far a word tells to shift: its last five bits. -/
def shiftCount (w : BitVec 32) : Nat := w.toNat % 32

end CheckedExpr.Number
