import CheckedExpr.Text.Units
import CheckedExpr.Value.Conversion

/-!
# Comparing values

Two relations tell whether values are equal. The strict one holds between values of one kind only,
and between composite values only if they are the same by identity. The loose one is the strict one
within a kind; between kinds it takes the two absent values for equal to each other and to nothing
else, and compares other values as primitive values, as strings if both are strings and as numbers
otherwise.

The order of values is that of their primitive values: by units if both are strings, and otherwise
as numbers, where what is not a number comes neither before nor after anything.

* `looseEquals_of_kind_eq`: within a kind there is only one equality.
-/

namespace CheckedExpr.Value

variable {κ : Type}

/-- Whether two values are of one kind and the same. -/
def strictEquals : Value κ → Value κ → Bool
  | undefined, undefined => true
  | null, null => true
  | boolean a, boolean b => a == b
  | number x, number y => x == y
  | string s, string t => s == t
  | array i _, array j _ => i == j
  | object i _, object j _ => i == j
  | function i _ _, function j _ _ => i == j
  | _, _ => false

/-- Whether two primitive values of different kinds are equal by what they convert to. -/
def equalConverted : Value κ → Value κ → Bool
  | string s, string t => s == t
  | v, w => v.toNumber == w.toNumber

/-- Whether two values are equal when their kinds do not matter. -/
def looseEquals (v w : Value κ) : Bool :=
  if v.kind = w.kind then v.strictEquals w
  -- an absent value equals an absent value and nothing else, so nothing is converted
  else if v.isNullish || w.isNullish then v.isNullish && w.isNullish
  else if v.isPrimitive || w.isPrimitive then v.toPrimitive.equalConverted w.toPrimitive
  else false

/-- **Within a kind there is only one equality**; conversions are made between different kinds
only. -/
theorem looseEquals_of_kind_eq {v w : Value κ} (h : v.kind = w.kind) :
    v.looseEquals w = v.strictEquals w := by
  simp [looseEquals, h]

/-- The order of two numbers, if they are ordered. -/
def compareNumbers (x y : Float) : Option Ordering :=
  if x < y then some .lt
  else if x == y then some .eq
  else if y < x then some .gt
  -- what is not a number is left, and comes neither before nor after anything
  else none

/-- The order of two primitive values. -/
def comparePrimitives : Value κ → Value κ → Option Ordering
  | string s, string t => some (Text.compareUnits s.toList t.toList)
  | v, w => compareNumbers v.toNumber w.toNumber

/-- The order of two values, if they are ordered. -/
def compare (v w : Value κ) : Option Ordering := v.toPrimitive.comparePrimitives w.toPrimitive

end CheckedExpr.Value
