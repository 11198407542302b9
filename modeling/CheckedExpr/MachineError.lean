import CheckedExpr.EvalError
import CheckedExpr.InferError
import CheckedExpr.ParseError

/-!
# What goes wrong in a machine

The causes for which a machine refuses what it is asked for, and how they are told.
-/

namespace CheckedExpr

/-- Why a machine refuses. -/
inductive MachineError (κ : Type) where
  /-- A text that is not read. -/
  | parse (e : ParseError)
  /-- An expression without a model. -/
  | infer (e : InferError)
  /-- An expression whose model the asked result does not accept. -/
  | resultModel (expected actual : Model)
  /-- A value that is not of its model. -/
  | invalidValue
  /-- A result that is not of the asked model. -/
  | invalidResult
  /-- An expression without a value. -/
  | eval (e : EvalError κ)

/-- As it is shown. -/
def MachineError.toFailure {κ : Type} : MachineError κ → Failure
  | parse e => e.toFailure
  | infer e => e.toFailure
  | resultModel expected actual => .mismatch expected.text actual.text
  | invalidValue => .ofMessage .typeError "Model validation failed"
  | invalidResult => .ofMessage .typeError "invalid result type"
  | eval e => e.toFailure

end CheckedExpr
