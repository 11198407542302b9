import CheckedExpr.Failure
import CheckedExpr.Value

/-!
# What goes wrong when an expression is evaluated

The causes for which an evaluation ends without a value, and how they are told.
-/

namespace CheckedExpr

/-- Why an evaluation has no value. -/
inductive EvalError (κ : Type) where
  /-- A value that is no function was called. -/
  | notCallable (callee : Value κ)
  /-- Something was to be read of an absent value. -/
  | unreadable (object key : Value κ)
  /-- A key was searched in a value that has no keys. -/
  | notSearchable (value : Value κ)
  /-- The expression goes deeper than is allowed. -/
  | tooDeep (limit : Nat)
  /-- A function of the host gave up. -/
  | host (failure : Failure)

/-- As it is shown. What the host says is shown as it is. -/
def EvalError.toFailure {κ : Type} : EvalError κ → Failure
  | notCallable callee => .ofMessage .typeError (callee.display ++ " is not a function")
  | unreadable object key =>
    .ofMessage .typeError
      ("cannot read properties of " ++ object.text ++ " (reading " ++ Text.quoted key.text ++ ")")
  | notSearchable value =>
    .ofMessage .typeError ("cannot use \"in\" to search in " ++ value.display)
  | tooDeep limit =>
    .ofMessage .resourceExceeded ("evaluation exceeds maximum depth of " ++ toString limit)
  | host failure => failure

end CheckedExpr
