import CheckedExpr.Allowance
import CheckedExpr.Expr
import CheckedExpr.Operator.Apply
import CheckedExpr.Scope

/-!
# Evaluation

The value of an expression in a scope of values. Functions belong to a host, which is called with
arguments that have been evaluated from left to right and which may look at and change a world of
its own. A run goes on from one state to the next, also where it fails, so the state behind an
evaluation tells of all calls that were made.

A name that is not bound is undefined, and so is a property without a name; that such expressions
are refused beforehand is the business of inference.

* `run_pure`, `run_bind`, `run_throw`: what the steps of an evaluation do to the state.
-/

namespace CheckedExpr

/-- Where a run has come to. -/
structure Run (σ : Type) where
  /-- The identity of the next array, object or function that is made. -/
  nextIdentity : Identity
  /-- The state of the host. -/
  world : σ

/-- What two steps of a run do to the state: the second one starts where the first one has come to,
unless that has failed. -/
theorem Run.bind_apply {ε σ α β : Type} (m : ExceptT ε (StateM (Run σ)) α)
    (next : α → ExceptT ε (StateM (Run σ)) β) (run : Run σ) :
    (m >>= next) run =
      match m run with
      | (.ok a, after) => next a after
      | (.error e, after) => (.error e, after) := by
  -- both sides are the first step followed by a match on its outcome
  change (ExceptT.bind m next).run run = _
  simp only [ExceptT.bind, ExceptT.run, ExceptT.mk]
  change (ExceptT.bindCont next (m run).1) (m run).2 = _
  rcases m run with ⟨_ | _, _⟩ <;> rfl

/-- What functions do when they are called. -/
structure Host (κ σ : Type) where
  call : κ → List (Value κ) → Run σ → Except Failure (Value κ) × Run σ

/-- A part of a run that may fail. -/
abbrev Evaluation (κ σ α : Type) := ExceptT (EvalError κ) (StateM (Run σ)) α

namespace Evaluation

variable {κ σ α β : Type}

/-- The part of a run that ends at once, in one way or the other. -/
def ofExcept : Except (EvalError κ) α → Evaluation κ σ α
  | .ok a => pure a
  | .error e => throw e

/-- Goes down one level. -/
def descend (allowance : Allowance) : Evaluation κ σ Allowance :=
  ofExcept (allowance.enter.mapError EvalError.tooDeep)

/-- Makes an array. -/
def newArray (items : List (Value κ)) : Evaluation κ σ (Value κ) := fun run =>
  (.ok (.array run.nextIdentity items), { run with nextIdentity := run.nextIdentity + 1 })

/-- Calls a value. -/
def call (host : Host κ σ) (callee : Value κ) (arguments : List (Value κ)) :
    Evaluation κ σ (Value κ) :=
  match callee with
  | .function _ _ body => fun run =>
    let (result, after) := host.call body arguments run
    (result.mapError EvalError.host, after)
  | _ => throw (.notCallable callee)

/-- Reads something of a value. -/
def read (object key : Value κ) : Evaluation κ σ (Value κ) :=
  match object.read? key with
  | some v => pure v
  | none => throw (.unreadable object key)

/-- A value that is there leaves the run where it is. -/
theorem run_pure (a : α) (run : Run σ) :
    (pure a : Evaluation κ σ α) run = (.ok a, run) := rfl

/-- An error leaves the run where it is; nothing that was done is taken back. -/
theorem run_throw (e : EvalError κ) (run : Run σ) :
    (throw e : Evaluation κ σ α) run = (.error e, run) := rfl

/-- What two steps of an evaluation do to the run. After an error there is no second step, and the
run stays where the first one has come to. -/
theorem run_bind (m : Evaluation κ σ α) (next : α → Evaluation κ σ β) (run : Run σ) :
    (m >>= next) run =
      match m run with
      | (.ok a, after) => next a after
      | (.error e, after) => (.error e, after) := by
  rw [Run.bind_apply]
  rcases m run with ⟨_ | _, _⟩ <;> rfl

end Evaluation

/-- The value that is written. -/
def Literal.toValue {κ : Type} : Literal → Value κ
  | null => .null
  | boolean b => .boolean b
  | number x => .number x
  | string s => .string s

namespace Expr

variable {κ σ : Type}

mutual

/-- The value of an expression. -/
def evaluate (host : Host κ σ) (scope : Scope (Value κ)) (allowance : Allowance) (e : Expr) :
    Evaluation κ σ (Value κ) := do
  -- every expression takes a level, also one without parts
  let inner ← Evaluation.descend allowance
  match e with
  | literal value => return value.toValue
  | identifier name => return (scope.lookup name).getD .undefined
  | this => return scope.this
  | array elements => do
    let items ← evaluateAll host scope inner elements
    Evaluation.newArray items
  | unary op argument _ => do
    let v ← argument.evaluate host scope inner
    return op.apply v
  | binary .nullish left right => do
    let v ← left.evaluate host scope inner
    -- the right operand is evaluated only where the left one decides nothing
    if v.isNullish then right.evaluate host scope inner else return v
  | binary op left right => do
    let v ← left.evaluate host scope inner
    let w ← right.evaluate host scope inner
    Evaluation.ofExcept (op.apply v w)
  | logical .and left right => do
    let v ← left.evaluate host scope inner
    if v.isTruthy then right.evaluate host scope inner else return v
  | logical .or left right => do
    let v ← left.evaluate host scope inner
    if v.isTruthy then return v else right.evaluate host scope inner
  | conditional test consequent alternate => do
    let v ← test.evaluate host scope inner
    if v.isTruthy then consequent.evaluate host scope inner
    else alternate.evaluate host scope inner
  | sequence body => evaluateLast host scope inner .undefined body
  | member true object property => do
    let v ← object.evaluate host scope inner
    let key ← property.evaluate host scope inner
    Evaluation.read v key
  -- a name behind a point is not looked up, it is the key
  | member false object property => do
    let v ← object.evaluate host scope inner
    match property with
    | identifier name => Evaluation.read v (.string name)
    -- no grammar gives a property of another kind, but a tree may have one
    | _ => return .undefined
  | call callee arguments => do
    let v ← callee.evaluate host scope inner
    let values ← evaluateAll host scope inner arguments
    Evaluation.call host v values

/-- The values of some expressions in order. -/
def evaluateAll (host : Host κ σ) (scope : Scope (Value κ)) (allowance : Allowance) :
    List Expr → Evaluation κ σ (List (Value κ))
  | [] => return []
  | e :: es => do
    let v ← e.evaluate host scope allowance
    let vs ← evaluateAll host scope allowance es
    return v :: vs

/-- The value of the last one of some expressions, or the given one if there are none. -/
def evaluateLast (host : Host κ σ) (scope : Scope (Value κ)) (allowance : Allowance)
    (last : Value κ) : List Expr → Evaluation κ σ (Value κ)
  | [] => return last
  | e :: es => do
    let v ← e.evaluate host scope allowance
    evaluateLast host scope allowance v es

end

end Expr

end CheckedExpr
