/-!
# Scopes

What an expression refers to without saying what it is: what its names stand for, and what `this`
stands for. Inference takes a scope of models, evaluation a scope of values.
-/

namespace CheckedExpr

/-- What names and `this` stand for. -/
structure Scope (α : Type) where
  /-- What a name stands for, if it is bound. -/
  lookup : String → Option α
  this : α

end CheckedExpr
