import CheckedExpr.Text.CodePoint

/-!
# Texts as 16-bit units

The language counts, indexes and orders texts by the units of UTF-16: a character up to U+FFFF is
one unit, any other is a pair of surrogates. Texts are stored as characters; the units are a view.

* `units_append`: the units of a text are those of its parts in order.
* `compareUnits_swap`, `compareUnits_self`: texts are ordered one way round.
-/

namespace CheckedExpr.Text

/-- The units of one character. -/
def charUnits (c : Char) : List Nat :=
  if c.toNat < 0x10000 then [c.toNat]
  else [0xd800 + (c.toNat - 0x10000) / 0x400, 0xdc00 + (c.toNat - 0x10000) % 0x400]

/-- The units of a text. -/
def units (text : List Char) : List Nat := text.flatMap charUnits

@[simp] theorem units_nil : units [] = [] := rfl

/-- The units of a text are those of its parts in order: no pair of surrogates comes about between
two characters. -/
theorem units_append (before after : List Char) :
    units (before ++ after) = units before ++ units after := by
  simp [units]

/-- The character that is the unit at an index of a text. Half of a pair alone is no character. -/
def unitAt? (text : List Char) (index : Nat) : Option Char :=
  (units text)[index]?.bind charOfNat?

/-- The order of two rows of numbers by their first difference; a beginning comes first. -/
def compareLists : List Nat → List Nat → Ordering
  | [], [] => .eq
  | [], _ :: _ => .lt
  | _ :: _, [] => .gt
  | a :: as, b :: bs => if a < b then .lt else if b < a then .gt else compareLists as bs

/-- Two rows are ordered one way round. -/
theorem compareLists_swap (as bs : List Nat) :
    (compareLists as bs).swap = compareLists bs as := by
  induction as generalizing bs with
  | nil => cases bs <;> rfl
  | cons a as ih =>
    cases bs with
    | nil => rfl
    | cons b bs =>
      -- the first difference decides both times, and where there is none it is the rest
      by_cases hbelow : a < b
      · simp [compareLists, hbelow, Nat.lt_asymm hbelow]
      · by_cases habove : b < a
        · simp [compareLists, hbelow, habove]
        · simp [compareLists, hbelow, habove, ih]

@[simp] theorem compareLists_self (as : List Nat) : compareLists as as = .eq := by
  induction as with
  | nil => rfl
  | cons a as ih => simp [compareLists, ih]

/-- The order of two texts by their units. -/
def compareUnits (left right : List Char) : Ordering :=
  compareLists (units left) (units right)

/-- Two texts are ordered one way round. -/
theorem compareUnits_swap (left right : List Char) :
    (compareUnits left right).swap = compareUnits right left :=
  compareLists_swap _ _

@[simp] theorem compareUnits_self (text : List Char) : compareUnits text text = .eq :=
  compareLists_self _

end CheckedExpr.Text
