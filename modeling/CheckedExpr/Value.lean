import CheckedExpr.Number.Notation
import CheckedExpr.Table
import CheckedExpr.Text.Quoted

/-!
# Values

What expressions evaluate to. Arrays, objects and functions have an identity: two of them are the
same value only if they are the same by identity, whatever they hold. Functions are called by the
host, so a value keeps of a function its name and what the host needs to call it, which is the
type `κ`.

A value has a text, in which it appears when it becomes part of a string, and a display, in which
it appears in messages.
-/

namespace CheckedExpr

/-- What tells apart two arrays, objects or functions. -/
abbrev Identity := Nat

/-- A value at run time; `κ` is what a host needs to call a function. -/
inductive Value (κ : Type) where
  | undefined
  | null
  | boolean (b : Bool)
  | number (x : Float)
  | string (s : String)
  | array (identity : Identity) (items : List (Value κ))
  /-- Fields in the order of their keys. -/
  | object (identity : Identity) (fields : List (String × Value κ))
  | function (identity : Identity) (name : String) (body : κ)

namespace Value

variable {κ : Type}

instance : Inhabited (Value κ) := ⟨undefined⟩

/-- The object with some fields. -/
def ofFields (identity : Identity) (fields : List (String × Value κ)) : Value κ :=
  -- of several fields with one key the last one counts
  object identity (Table.ofPairs fields)

/-! ### Kinds -/

/-- What sort of value a value is. -/
inductive Kind where
  | undefined | null | boolean | number | string | array | object | function
  deriving DecidableEq, Repr

/-- The kind of a value. -/
def kind : Value κ → Kind
  | undefined => .undefined
  | null => .null
  | boolean _ => .boolean
  | number _ => .number
  | string _ => .string
  | array .. => .array
  | object .. => .object
  | function .. => .function

/-- Whether a value stands for something absent. -/
def isNullish : Value κ → Bool
  | undefined | null => true
  | _ => false

/-- Whether a value is compared by what it is rather than by its identity. -/
def isPrimitive : Value κ → Bool
  | array .. | object .. | function .. => false
  | _ => true

/-- Whether a value counts as true where a truth value is asked for. -/
def isTruthy : Value κ → Bool
  | undefined | null => false
  | boolean b => b
  -- both zeros and what is not a number count as false
  | number x => x != 0 && !x.isNaN
  | string s => !s.isEmpty
  | array .. | object .. | function .. => true

/-- The name that the language has for the kind of a value. Kinds share names. -/
def typeName : Value κ → String
  | undefined => "undefined"
  | null | array .. | object .. => "object"
  | boolean _ => "boolean"
  | number _ => "number"
  | string _ => "string"
  | function .. => "function"

/-- The field of an object under a key. -/
def field? (v : Value κ) (key : String) : Option (Value κ) :=
  match v with
  | object _ fields => fields.lookup key
  | _ => none

/-! ### Text and display -/

/-- The text of a truth value. -/
def booleanText (b : Bool) : String := if b then "true" else "false"

mutual

/-- The text of a value: that of an array is made of the texts of its items, with commas between
them and nothing for what is absent. -/
def text : Value κ → String
  | undefined => "undefined"
  | null => "null"
  | boolean b => booleanText b
  | number x => numberText x
  | string s => s
  | array _ items => itemsText items
  | object .. => "[object Object]"
  | function _ name _ => "function " ++ name ++ "() \x7b [native code] \x7d"

/-- The texts of some items with commas between them. -/
def itemsText : List (Value κ) → String
  | [] => ""
  -- an absent item leaves nothing but its comma
  | [item] => if item.isNullish then "" else item.text
  | item :: next :: rest =>
    (if item.isNullish then "" else item.text) ++ "," ++ itemsText (next :: rest)

end

mutual

/-- A value as messages show it: strings in quotes, arrays and objects with all they hold. -/
def display : Value κ → String
  | undefined => "undefined"
  | null => "null"
  | boolean b => booleanText b
  | number x => numberText x
  | string s => Text.quoted s
  | array _ items => "[" ++ itemsDisplay items ++ "]"
  | object _ fields => "\x7b" ++ fieldsDisplay fields ++ "\x7d"
  | function _ name _ => "<function " ++ name ++ ">"

/-- Some items with commas between them. -/
def itemsDisplay : List (Value κ) → String
  | [] => ""
  | [item] => item.display
  | item :: next :: rest => item.display ++ ", " ++ itemsDisplay (next :: rest)

/-- Some fields with commas between them. -/
def fieldsDisplay : List (String × Value κ) → String
  | [] => ""
  | [(key, v)] => Text.quoted key ++ ": " ++ v.display
  | (key, v) :: next :: rest =>
    Text.quoted key ++ ": " ++ v.display ++ ", " ++ fieldsDisplay (next :: rest)

end

/-! ### Structural equality -/

mutual

/-- Whether two values hold the same: numbers are compared as numbers, so that what is not a number
differs from itself, and functions by identity. -/
def equal : Value κ → Value κ → Bool
  | undefined, undefined => true
  | null, null => true
  | boolean a, boolean b => a == b
  -- not by their bits: both zeros are equal, and what is not a number is unequal to itself
  | number x, number y => x == y
  | string s, string t => s == t
  | array _ items, array _ items' => equalItems items items'
  | object _ fields, object _ fields' => equalFields fields fields'
  | function i _ _, function i' _ _ => i == i'
  | _, _ => false

/-- Whether two rows of items hold the same. -/
def equalItems : List (Value κ) → List (Value κ) → Bool
  | [], [] => true
  | v :: vs, w :: ws => v.equal w && equalItems vs ws
  | _, _ => false

/-- Whether two rows of fields hold the same under the same keys. -/
def equalFields : List (String × Value κ) → List (String × Value κ) → Bool
  | [], [] => true
  -- fields are in the order of their keys, so equal tables agree row by row
  | (key, v) :: vs, (key', w) :: ws => key == key' && v.equal w && equalFields vs ws
  | _, _ => false

end

end Value

end CheckedExpr
