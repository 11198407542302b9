import CheckedExpr.Number.Reading
import CheckedExpr.Number.Words
import CheckedExpr.Text.Units
import CheckedExpr.Value

/-!
# Keys and what is under them

A key is a value, and what counts of it is its text. An array has the key `length` and the indices
of its items, spelled as numbers are spelled; an object has the keys of its fields; nothing else
can be searched for a key.

Reading is another matter. An array is read at an index by a number only, and a string is read at an
index, too, and has a length. What is not there is undefined. Only of an absent value nothing can be
read.
-/

namespace CheckedExpr

namespace Number

/-- The index that a number is in a row of so many items, if it is one. The length is compared as a
number. -/
def indexBelow? (length : Nat) (x : Float) : Option Nat :=
  if x < Float.ofNat length then toNat? x else none

/-- The index that a key spells in a row of so many items. The spelling has to be the one in which
the number is written. -/
def indexOfKey? (length : Nat) (key : String) : Option Nat :=
  -- a text such as 01 spells a number, but not in the way in which the number is written
  ((read? key.toList).filter fun x => numberText x == key).bind (indexBelow? length)

end Number

namespace Value

variable {κ : Type}

/-- Whether a text is a key of an array with so many items. -/
def isArrayKey (length : Nat) (key : String) : Bool :=
  key == "length" || (Number.indexOfKey? length key).isSome

/-- Whether a value has a key; nothing if it is of a kind that has no keys. -/
def hasKey? (v key : Value κ) : Option Bool :=
  match v with
  -- an array has its length as a key, and its indices
  | array _ items => some (isArrayKey items.length key.text)
  | object _ fields => some (fields.lookup key.text).isSome
  | _ => none

/-- What is read of an array. -/
def readArray (items : List (Value κ)) : Value κ → Value κ
  -- a number is an index or nothing, so its text is not looked at
  | number x => ((Number.indexBelow? items.length x).bind (items[·]?)).getD undefined
  | key => if key.text = "length" then number (Float.ofNat items.length) else undefined

/-- What is read of a string. -/
def readString (text : List Char) : Value κ → Value κ
  | number x =>
    (((Number.toNat? x).bind (Text.unitAt? text)).map fun c => string (String.singleton c)).getD
      undefined
  | key => if key.text = "length" then number (Float.ofNat (Text.units text).length) else undefined

/-- What is read of a value under a key; nothing if the value is absent. -/
def read? (v key : Value κ) : Option (Value κ) :=
  match v with
  | undefined | null => none
  | array _ items => some (readArray items key)
  | string s => some (readString s.toList key)
  | object _ fields => some ((fields.lookup key.text).getD undefined)
  | _ => some undefined

/-- Something can be read of every value that is not absent, if only that nothing is there. -/
theorem read?_eq_none_iff {v key : Value κ} : v.read? key = none ↔ v.isNullish = true := by
  cases v <;> simp [read?, isNullish]

end Value

end CheckedExpr
