import CheckedExpr.Allowance
import CheckedExpr.InferError
import CheckedExpr.Scope

/-!
# Inference

The model of an expression in a scope of models, found from the models of its parts. Parts that
meet, such as the elements of an array, the operands of an operator and the two outcomes of a
choice, have to have a merge. All parts are looked at, also those that evaluation may skip, except
the name of a property.
-/

namespace CheckedExpr

/-- The model of a literal. -/
def Literal.model : Literal → Model
  | null => .null
  | boolean _ => .boolean
  | number _ => .number
  | string _ => .string

namespace Inference

/-- Holds a model against what is asked of it. -/
def require (requirement : Requirement) (m : Model) : Except InferError Unit :=
  if requirement.isMetBy m then .ok () else .error (.unmet requirement m)

/-- The merge of two models that meet. -/
def merge (expected : Option Model) (actual : Model) : Except InferError Model :=
  (Model.mergeInto expected actual).mapError .merge

/-- Goes down one level. -/
def descend (allowance : Allowance) : Except InferError Allowance :=
  allowance.enter.mapError .tooDeep

/-- The model of the elements of an array. -/
def elementOf : Model → Except InferError Model
  | .array element => .ok element
  | m => .error (.unmet .array m)

/-- The model that an object declares for a key. -/
def entryOf (key : String) : Model → Except InferError Model
  | .object entries =>
    match entries.lookup key with
    | some m => .ok m
    | none => .error (.undeclared key)
  | m => .error (.unmet .object m)

/-- The parameters and the result of a function. -/
def signatureOf : Model → Except InferError (List Model × Model)
  | .function parameters result => .ok (parameters, result)
  | m => .error (.unmet .function m)

/-- Holds arguments against parameters, counted from an index on. A missing argument is null, and
arguments without a parameter do not matter. -/
def acceptArguments (index : Nat) : (parameters arguments : List Model) → Except InferError Unit
  | [], _ => .ok ()
  | parameter :: parameters, arguments =>
    -- past the last argument there is null for each further parameter
    let actual := arguments.headD .null
    if parameter.accepts actual then acceptArguments (index + 1) parameters arguments.tail
    else .error (.argument index parameter actual)

/-- The model of a unary operator at an operand. -/
def unary (op : UnaryOp) (m : Model) : Except InferError Model :=
  match op with
  | .plus => do
    require .primitive m
    return .number
  | .not => do
    require .primitive m
    return .boolean
  -- .bitNot => do | the model of the operand stays, so an optional number stays optional
  | .neg | .bitNot => do
    require (.model .number) m
    return m

/-- The model of a binary operator at two operands. -/
def binary (op : BinaryOp) (left right : Model) : Except InferError Model :=
  match op with
  -- the left operand counts only where it is there, so its outermost optional layer goes
  | .nullish => merge left.stripNullable right
  | .isIn => do
    let element ← elementOf right
    -- the order matters for the message only: the element is what is expected
    let merged ← merge element.stripNullable left
    require .simple merged
    return .boolean
  | .eq | .ne | .strictEq | .strictNe => do
    let merged ← merge left right
    require .simple merged
    return .boolean
  | .lt | .gt | .le | .ge => do
    let merged ← merge left right
    require .numberOrString merged
    return .boolean
  | .add => do
    let merged ← merge left right
    require .numberOrString merged
    return merged
  | .bitOr | .bitXor | .bitAnd | .shl | .shr | .ushr | .rem | .sub | .mul | .div => do
    let merged ← merge left right
    require (.model .number) merged
    return merged

end Inference

namespace Expr

open Inference

mutual

/-- The model of an expression. -/
def infer (scope : Scope Model) (allowance : Allowance) (e : Expr) : Except InferError Model := do
  let inner ← descend allowance
  match e with
  | literal value => return value.model
  | identifier name =>
    match scope.lookup name with
    | some m => return m
    | none => throw (.unbound name)
  | this => return scope.this
  | array elements => do
    -- without elements there is nothing to merge, and no model of an element
    let element ← inferMerged scope inner none elements
    match element with
    | some m => return .array m
    | none => throw .emptyArray
  | unary op argument before =>
    if before then do
      let m ← argument.infer scope inner
      Inference.unary op m
    -- no text has an operator there, but a tree may
    else throw (.behindOperand op)
  | binary op left right => do
    let m ← left.infer scope inner
    let n ← right.infer scope inner
    Inference.binary op m n
  -- both operands are looked at, also the one that evaluation may skip
  | logical _ left right => do
    let m ← left.infer scope inner
    require (.model .boolean) m
    let n ← right.infer scope inner
    require (.model .boolean) n
    return .boolean
  | conditional test consequent alternate => do
    let t ← test.infer scope inner
    require (.model .boolean) t
    let m ← consequent.infer scope inner
    let n ← alternate.infer scope inner
    merge m n
  | sequence body => inferLast scope inner .null body
  | member true object property => do
    let m ← object.infer scope inner
    let element ← elementOf m
    let key ← property.infer scope inner
    require (.model .number) key
    -- an index may be past the end; two optional layers would say no more than one
    return .nullable element.stripNullable
  | member false object property =>
    match property with
    | identifier key => do
      let m ← object.infer scope inner
      entryOf key m
    -- the object is not looked at if the property is no name
    | property => throw (.unnamedProperty property)
  | call callee arguments => do
    let m ← callee.infer scope inner
    let (parameters, result) ← signatureOf m
    let models ← inferAll scope inner arguments
    acceptArguments 0 parameters models
    return result

/-- The models of some expressions in order. -/
def inferAll (scope : Scope Model) (allowance : Allowance) :
    List Expr → Except InferError (List Model)
  | [] => return []
  | e :: es => do
    let m ← e.infer scope allowance
    let ms ← inferAll scope allowance es
    return m :: ms

/-- The merge of the models of some expressions, into the one that is known if there is one. -/
def inferMerged (scope : Scope Model) (allowance : Allowance) (known : Option Model) :
    List Expr → Except InferError (Option Model)
  | [] => return known
  | e :: es => do
    let m ← e.infer scope allowance
    let merged ← merge known m
    inferMerged scope allowance (some merged) es

/-- The model of the last one of some expressions, or the given one if there are none. -/
def inferLast (scope : Scope Model) (allowance : Allowance) (last : Model) :
    List Expr → Except InferError Model
  | [] => return last
  | e :: es => do
    let m ← e.infer scope allowance
    inferLast scope allowance m es

end

end Expr

end CheckedExpr
