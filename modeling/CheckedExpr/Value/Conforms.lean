import CheckedExpr.Model
import CheckedExpr.Value

/-!
# Values of a model

Whether a value is of the shape that a model describes. Objects are open: fields that are not
declared do not matter, and a declared field that is missing counts as undefined. Of a function
only that it is one can be seen.
-/

namespace CheckedExpr.Model

variable {κ : Type}

/-- Whether a value is of a simple kind. Undefined counts as null. -/
def SimpleModel.conforms : SimpleModel → Value κ → Bool
  | .null, v => v.isNullish
  | .number, .number _ => true
  | .string, .string _ => true
  | .boolean, .boolean _ => true
  | _, _ => false

mutual

/-- Whether a value is of the shape of a model. -/
def conforms : Model → Value κ → Bool
  | simple kind, v => SimpleModel.conforms kind v
  | nullable inner, v => v.isNullish || inner.conforms v
  | array element, v =>
    match v with
    -- an empty array is of every element model
    | .array _ items => items.all fun item => element.conforms item
    | _ => false
  | object entries, v =>
    match v with
    | .object _ fields => conformsEntries entries fields
    | _ => false
  -- a function cannot be tried out, so its parameters and result are not looked at
  | function .., v =>
    match v with
    | .function .. => true
    | _ => false

/-- Whether fields have the shapes that entries declare. -/
def conformsEntries : List (String × Model) → List (String × Value κ) → Bool
  | [], _ => true
  | (key, m) :: entries, fields =>
    -- a missing field is undefined, which a model of absent values takes
    m.conforms ((fields.lookup key).getD .undefined) && conformsEntries entries fields

end

end CheckedExpr.Model
