/-!
# The remainder of two numbers

The remainder of a division toward zero, which takes the sign of the dividend. Two finite numbers
are whole multiples of one power of two, and so is their remainder, which is never longer than the
shorter of them: it needs no rounding.
-/

namespace CheckedExpr.Number

-- Powers are the ones of core, whatever else is in scope where a module is read.
attribute [local instance (high)] instPowNat

open Float.Model in
/-- What is left of `x` after taking away `y` as often as it goes in. -/
def remainder (x y : Float) : Float :=
  match x.toModel.unpack, y.toModel.unpack with
  | .finite sign mantissa power _, .finite _ mantissa' power' _ =>
    -- both are whole multiples of the smaller of the two powers of two
    let common := min power power'
    let left := (mantissa * 2 ^ (power - common).toNat) % (mantissa' * 2 ^ (power' - common).toNat)
    if left = 0 then .ofModel (.pack (.zero sign))
    else .ofModel (.pack (UnpackedFloat.round .binary64 sign left common))
  -- an infinity does not go into anything
  | .finite .., .infinity _ => x
  | .zero _, .finite .. => x
  | .zero _, .infinity _ => x
  | _, _ => .ofModel (.pack .notANumber)

end CheckedExpr.Number
