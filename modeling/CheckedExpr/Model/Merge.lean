import CheckedExpr.Failure
import CheckedExpr.Model

/-!
# Merging models

Merging two models gives the least model that takes the values of both, if there is one. An
optional layer on either side is kept; below the layers, simple kinds have to be the same, arrays
are merged by their elements, and objects and functions have to be equal as they stand.

One-way acceptance is read off merging: a model accepts another if merging the other into it
changes nothing.
-/

namespace CheckedExpr

/-- Why two models have no merge. -/
inductive MergeError where
  /-- Two different simple kinds, or two different kinds of shapes. -/
  | mismatch (expected actual : Model)
  /-- Two objects or two functions that are not equal. -/
  | incompatible (expected actual : Model)
  deriving DecidableEq, Repr

namespace MergeError

/-- The reason in words. -/
def message : MergeError → String
  | mismatch expected actual => "require " ++ expected.text ++ " got " ++ actual.text
  | incompatible expected actual =>
    "cannot merge incompatible " ++ expected.kindName ++ ": " ++ expected.text ++ " and " ++
      actual.text

/-- As it is shown. -/
def toFailure (e : MergeError) : Failure := .ofMessage .typeError e.message

end MergeError

namespace Model

/-- Merges a model into another one. Optional layers are taken off both sides one by one. -/
def merge : (expected actual : Model) → Except MergeError Model
  -- an optional layer on the left takes one on the right with it, if there is one
  | nullable expected, actual => (merge expected actual.stripNullable).map nullable
  -- one on the right alone stays as well
  | expected, nullable actual => (merge expected actual).map nullable
  | simple a, simple b =>
    if a = b then .ok (simple a) else .error (.mismatch (simple a) (simple b))
  | array a, array b => (merge a b).map array
  | object as, object bs =>
    -- objects are not merged entry by entry: they have to be equal as they stand
    if as = bs then .ok (object as) else .error (.incompatible (object as) (object bs))
  | function as a, function bs b =>
    if function as a = function bs b then .ok (function as a)
    else .error (.incompatible (function as a) (function bs b))
  | expected, actual => .error (.mismatch expected actual)
termination_by expected actual => sizeOf expected + sizeOf actual
decreasing_by
  all_goals simp_wf
  -- taking a layer off does not make a model larger
  · have : sizeOf actual.stripNullable ≤ sizeOf actual := by
      cases actual <;> simp [stripNullable]
    omega
  all_goals omega

/-- A layer on the left is put around the merge of what is below it. -/
@[simp] theorem merge_nullable_left (a b : Model) :
    merge (nullable a) b = (merge a b.stripNullable).map nullable := by
  rw [merge]

/-- Merges a model into another one that may not be known yet. -/
def mergeInto : (expected : Option Model) → (actual : Model) → Except MergeError Model
  | none, actual => .ok actual
  | some expected, actual => merge expected actual

/-- Whether a value of the one model may stand where the other is required. -/
def accepts (expected actual : Model) : Bool :=
  match merge expected actual with
  -- what the other model adds would show in the merge
  | .ok merged => merged == expected
  | .error _ => false

end Model

end CheckedExpr
