import CheckedExpr.Binding
import CheckedExpr.Code
import CheckedExpr.Table

/-!
# Machines

A machine keeps bindings under names and checks and runs code that refers to them. Inference sees
their models and evaluation their values, so both see the same names. Code is run only if it has a
model that the asked result accepts; a function of the host may still break its word, so a result is
checked once more.

Code that is compiled was checked for every `this` of a model, and is run on values for `this` one
after the other.
-/

namespace CheckedExpr

/-- How a machine reads and how far it goes. -/
structure Machine.Options where
  dialect : Dialect := .verbose
  maxDepth : Nat := Expr.defaultMaxDepth
  deriving DecidableEq, Repr

/-- Bindings under names, and what to do with code over them. -/
structure Machine (κ : Type) where
  environment : Table (Binding κ) := []
  options : Machine.Options := {}

namespace Machine

variable {κ σ : Type}

/-! ### Bindings -/

/-- The binding of a name. -/
def get? (machine : Machine κ) (name : String) : Option (Binding κ) :=
  machine.environment.get? name

/-- The machine with a name bound. -/
def bind (machine : Machine κ) (name : String) (b : Binding κ) : Machine κ :=
  { machine with environment := Table.insert name b machine.environment }

/-- The machine with a name bound no longer. -/
def delete (machine : Machine κ) (name : String) : Machine κ :=
  { machine with environment := Table.erase name machine.environment }

/-- The names that are bound, in order. -/
def names (machine : Machine κ) : List String := Table.keys machine.environment

/-- The model that is meant. -/
def resolve (machine : Machine κ) (source : ModelSource) : Except (MachineError κ) Model :=
  (source.resolve machine.options.dialect).mapError .parse

/-- A value as a binding of a model. -/
def toBinding (model : Model) (value : Value κ) : Except (MachineError κ) (Binding κ) :=
  match Binding.ofValue? model value with
  | some b => .ok b
  | none => .error .invalidValue

/-- The machine with a name bound to a value, if it is of a model. -/
def set (machine : Machine κ) (name : String) (source : ModelSource) (value : Value κ) :
    Except (MachineError κ) (Machine κ) := do
  let model ← machine.resolve source
  let b ← toBinding model value
  return machine.bind name b

/-! ### Code -/

/-- The models of what is bound. -/
def models (machine : Machine κ) (this : Model) : Scope Model :=
  ⟨fun name => (machine.get? name).map Binding.model, this⟩

/-- The values of what is bound. -/
def values (machine : Machine κ) (this : Value κ) : Scope (Value κ) :=
  ⟨fun name => (machine.get? name).map Binding.value, this⟩

/-- The expression that is meant. -/
def read (machine : Machine κ) (code : Code) : Except (MachineError κ) Expr :=
  (code.toExpr machine.options.maxDepth).mapError .parse

/-- The model of an expression, if the asked result accepts it. -/
def checkExpr (machine : Machine κ) (result : Model) (e : Expr) (this : Model) :
    Except (MachineError κ) Model := do
  let inferred ← (e.infer (machine.models this) (.ofLimit machine.options.maxDepth)).mapError .infer
  -- the model that was asked for may be wider than the one that is there
  if result.accepts inferred then return inferred else throw (.resultModel result inferred)

/-- The value of an expression. -/
def evaluate (host : Host κ σ) (machine : Machine κ) (e : Expr) (this : Value κ) :
    Action κ σ (Value κ) :=
  Action.ofEvaluation
    (e.evaluate host (machine.values this) (.ofLimit machine.options.maxDepth))

/-- The model of code, if the asked result accepts it. -/
def check (machine : Machine κ) (result : ModelSource) (code : Code) (this : ModelSource) :
    Except (MachineError κ) Model := do
  let result ← machine.resolve result
  let this ← machine.resolve this
  let e ← machine.read code
  machine.checkExpr result e this

/-- The value of code, checked before and after it is run. -/
def eval (host : Host κ σ) (machine : Machine κ) (result : ModelSource) (code : Code)
    (this : Binding κ) : Action κ σ (Value κ) := do
  let result ← Action.ofExcept (machine.resolve result)
  let e ← Action.ofExcept (machine.read code)
  let _ ← Action.ofExcept (machine.checkExpr result e this.model)
  let value ← machine.evaluate host e this.value
  -- inference has promised this, but a host may return anything
  if result.conforms value then return value else throw .invalidResult

/-- The value of code over what is bound, without a check. -/
def evalUnchecked (host : Host κ σ) (machine : Machine κ) (limit : Nat) (code : Code)
    (this : Value κ) : Action κ σ (Value κ) :=
  code.evaluate host (machine.values this) limit

end Machine

/-- Code that was checked on a machine. -/
structure Compiled (κ : Type) where
  machine : Machine κ
  expr : Expr
  /-- The model that was asked for. -/
  result : Model
  /-- The model that the expression has. -/
  inferred : Model
  /-- The model of `this`. -/
  this : Model

/-- Checks code once for every `this` of a model. -/
def Machine.compile {κ : Type} (machine : Machine κ) (result : ModelSource) (code : Code)
    (this : ModelSource) : Except (MachineError κ) (Compiled κ) := do
  -- descriptors are read before code, and the one of the result first
  let result ← machine.resolve result
  let this ← machine.resolve this
  let e ← machine.read code
  let inferred ← machine.checkExpr result e this
  return ⟨machine, e, result, inferred, this⟩

namespace Compiled

variable {κ σ : Type}

/-- The value on a value for `this`, whatever its model. -/
def runUnchecked (host : Host κ σ) (compiled : Compiled κ) (this : Value κ) :
    Action κ σ (Value κ) :=
  compiled.machine.evaluate host compiled.expr this

/-- The value on a value for `this`, if that is of the model that the code was checked for. -/
def run (host : Host κ σ) (compiled : Compiled κ) (this : Value κ) : Action κ σ (Value κ) :=
  -- the code was checked for every value of the model, so only the value is left to check
  if compiled.this.conforms this then compiled.runUnchecked host this else throw .invalidValue

end Compiled

end CheckedExpr
