import CheckedExpr.Expr
import CheckedExpr.Model.Merge

/-!
# What goes wrong when the model of an expression is inferred

The causes for which an expression has no model, and how they are told.
-/

namespace CheckedExpr

/-- What is asked of the model of an operand. -/
inductive Requirement where
  /-- Accepted by a model. -/
  | model (expected : Model)
  /-- Accepted by booleans, by numbers or by strings. -/
  | primitive
  /-- Accepted by numbers or by strings. -/
  | numberOrString
  /-- A simple kind below at most one optional layer. -/
  | simple
  | array
  | object
  | function
  deriving DecidableEq, Repr

namespace Requirement

/-- What is asked, in words. -/
def text : Requirement → String
  | model expected => expected.text
  | primitive => "boolean, number or string"
  | numberOrString => "number or string"
  | simple => "simple"
  | array => "array"
  | object => "object"
  | function => "function"

/-- Whether a model is as it is asked for. -/
def isMetBy : Requirement → Model → Bool
  | model expected, m => expected.accepts m
  | primitive, m => Model.boolean.accepts m || Model.number.accepts m || Model.string.accepts m
  | numberOrString, m => Model.number.accepts m || Model.string.accepts m
  | simple, m => m.stripNullable.isSimple
  | array, .array _ => true
  | object, .object _ => true
  | function, .function .. => true
  | _, _ => false

end Requirement

/-- Why an expression has no model. -/
inductive InferError where
  /-- The expression goes deeper than is allowed. -/
  | tooDeep (limit : Nat)
  /-- A name that is not bound. -/
  | unbound (name : String)
  /-- An array without elements, which says nothing about them. -/
  | emptyArray
  /-- Parts whose models have no merge. -/
  | merge (cause : MergeError)
  /-- A part whose model is not as it is asked for. -/
  | unmet (requirement : Requirement) (actual : Model)
  /-- An argument, counted from zero, whose model its parameter does not accept. -/
  | argument (index : Nat) (parameter actual : Model)
  /-- A unary operator behind its operand. -/
  | behindOperand (op : UnaryOp)
  /-- A property that is not given by its name. -/
  | unnamedProperty (property : Expr)
  /-- A key that an object does not declare. -/
  | undeclared (key : String)

namespace InferError

/-- As it is shown. -/
def toFailure : InferError → Failure
  | tooDeep limit =>
    .ofMessage .resourceExceeded ("expression nesting exceeds maximum depth of " ++ toString limit)
  | unbound name => .ofMessage .referenceError ("\"" ++ name ++ "\" not found")
  | emptyArray => .ofMessage .typeError "cannot infer element type of empty array"
  | merge cause => cause.toFailure
  | unmet requirement actual => .mismatch requirement.text actual.text
  | argument index parameter actual =>
    .ofMessage .typeError
      ("require " ++ parameter.text ++ " got " ++ actual.text ++ " for argument " ++
        toString (index + 1))
  | behindOperand op =>
    .ofMessage .syntaxError ("unary operator \"" ++ op.spelling ++ "\" must be prefix")
  | unnamedProperty property =>
    .ofMessage .syntaxError ("unsupported property access with " ++ property.kindName)
  | undeclared key => .ofMessage .referenceError ("\"" ++ key ++ "\" not exists in object")

end InferError

end CheckedExpr
