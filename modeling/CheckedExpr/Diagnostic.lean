import CheckedExpr.Failure

/-!
# Diagnostics

A failure as a tool shows it: with a code for its kind and, where there is something to do about
it, with a help text.
-/

namespace CheckedExpr

/-- How bad something is. -/
inductive Severity where
  | error | warning | info
  deriving DecidableEq, Repr

/-- The name of a severity. -/
def Severity.name : Severity → String
  | error => "error"
  | warning => "warning"
  | info => "info"

/-- A failure as a tool shows it. -/
structure Diagnostic where
  severity : Severity
  message : String
  span : Option Span
  help : Option String
  code : Option String
  deriving DecidableEq, Repr

/-- The code of a kind of failures. -/
def FailureKind.code : FailureKind → String
  | syntaxError => "P001"
  | typeError => "E001"
  | referenceError => "E002"
  | runtimeError => "R001"
  | resourceExceeded => "R002"

/-- What to do about a kind of failures. -/
def FailureKind.help? : FailureKind → Option String
  | referenceError => some "bind the name with `Vm::set` before compiling"
  | resourceExceeded =>
    some "raise `ExecutionOptions::max_depth` or simplify the expression"
  | _ => none

/-- The diagnostic of a failure. -/
def Failure.toDiagnostic (failure : Failure) : Diagnostic where
  severity := .error
  message := failure.text
  span := failure.span
  help := failure.kind.help?
  code := some failure.kind.code

end CheckedExpr
