import CheckedExpr.Span

/-!
# Failures

What every part of the library reports when it cannot do its job: what kind of failure it is, what
it says, and where in the source text it happened, if that is known. The parts state their own
causes as types of their own; a failure is how a cause is shown.
-/

namespace CheckedExpr

/-- What a failure is about. -/
inductive FailureKind where
  /-- Text that is no expression or descriptor, or a tree of an unsupported shape. -/
  | syntaxError
  /-- Models that do not fit, values outside their model, operations on a wrong kind of value. -/
  | typeError
  /-- Names and keys that are not there. -/
  | referenceError
  /-- A host function that gave up. -/
  | runtimeError
  /-- A limit that was passed. -/
  | resourceExceeded
  deriving DecidableEq, Repr

/-- The name of a kind, as it is shown. -/
def FailureKind.name : FailureKind → String
  | syntaxError => "SyntaxError"
  | typeError => "TypeError"
  | referenceError => "ReferenceError"
  | runtimeError => "RuntimeError"
  | resourceExceeded => "ResourceExceeded"

/-- A failure as it is shown. -/
structure Failure where
  kind : FailureKind
  message : String
  span : Option Span
  deriving DecidableEq, Repr

namespace Failure

/-- A failure at no known place. -/
def ofMessage (kind : FailureKind) (message : String) : Failure := ⟨kind, message, none⟩

/-- The kind and the message on one line. -/
-- the place of a failure is not part of its text
def text (failure : Failure) : String := failure.kind.name ++ ": " ++ failure.message

/-- Something else was required than was there. -/
def mismatch (expected actual : String) : Failure :=
  ofMessage .typeError ("require " ++ expected ++ " got " ++ actual)

end Failure

end CheckedExpr
