import CheckedExpr.Descriptor.Dialect
import CheckedExpr.Evaluation
import CheckedExpr.Expr.Parse
import CheckedExpr.Inference
import CheckedExpr.MachineError

/-!
# Code and descriptors as they are handed in

Code is handed in as text or as a tree, and a model as a descriptor or as it is. Code can be run
without a check; then it sees undefined where a name is not bound.
-/

namespace CheckedExpr

/-- Code as it is handed in. -/
inductive Code where
  | text (source : String)
  | tree (e : Expr)

/-- A model as it is handed in. -/
inductive ModelSource where
  | descriptor (text : String)
  | model (m : Model)

/-- The model that is meant, where descriptors are written in a notation. -/
def ModelSource.resolve (dialect : Dialect) : ModelSource → Except ParseError Model
  | descriptor text => dialect.parse text
  | model m => .ok m

/-- A part of a run that a machine may refuse. -/
abbrev Action (κ σ α : Type) := ExceptT (MachineError κ) (StateM (Run σ)) α

namespace Action

variable {κ σ α : Type}

/-- The part of a run that ends at once, in one way or the other. -/
def ofExcept : Except (MachineError κ) α → Action κ σ α
  | .ok a => pure a
  | .error e => throw e

/-- An evaluation as a part of a run. -/
def ofEvaluation (m : Evaluation κ σ α) : Action κ σ α := fun run =>
  let (result, after) := m run
  (result.mapError .eval, after)

end Action

namespace Code

variable {κ σ : Type}

/-- The expression that is meant. The limit on nesting holds for texts only. -/
def toExpr (limit : Nat) : Code → Except ParseError Expr
  | text source => Expr.parseWithin limit source
  | tree e => .ok e

/-- The model of code in a scope. The limit is not one on how texts are read. -/
def infer (scope : Scope Model) (limit : Nat) (code : Code) : Except (MachineError κ) Model := do
  -- a text is read within the default limit, whatever limit inference has
  let e ← (code.toExpr Expr.defaultMaxDepth).mapError .parse
  (e.infer scope (.ofLimit limit)).mapError .infer

/-- The value of code in a scope, without a check. The limit is not one on how texts are read. -/
def evaluate (host : Host κ σ) (scope : Scope (Value κ)) (limit : Nat) (code : Code) :
    Action κ σ (Value κ) := do
  let e ← Action.ofExcept ((code.toExpr Expr.defaultMaxDepth).mapError .parse)
  Action.ofEvaluation (e.evaluate host scope (.ofLimit limit))

end Code

end CheckedExpr
