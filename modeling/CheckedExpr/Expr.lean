import CheckedExpr.Operator

/-!
# Expressions

The tree of an expression, as reading a text produces it and as a caller may build it by hand. A
caller can build trees that no text reads as: a sequence inside another expression, a unary
operator behind its operand, a property without a name.
-/

namespace CheckedExpr

/-- A value written in an expression. -/
inductive Literal where
  | null
  | boolean (b : Bool)
  | number (n : Float)
  | string (s : String)

/-- An expression. -/
inductive Expr where
  /-- The elements of an array in order. -/
  | array (elements : List Expr)
  | binary (op : BinaryOp) (left right : Expr)
  | call (callee : Expr) (arguments : List Expr)
  /-- Expressions one after the other, of which the last one counts. -/
  | sequence (body : List Expr)
  | conditional (test consequent alternate : Expr)
  | identifier (name : String)
  | literal (value : Literal)
  | logical (op : LogicalOp) (left right : Expr)
  /-- A part of a value: by a computed key, or by a property that has to be an identifier. -/
  | member (computed : Bool) (object property : Expr)
  | this
  /-- A unary operator, written before its operand or behind it. -/
  | unary (op : UnaryOp) (argument : Expr) (before : Bool)

namespace Expr

/-- The part of a value with a given name. -/
def field (object : Expr) (name : String) : Expr := member false object (identifier name)

/-- The part of a value under a computed key. -/
def index (object key : Expr) : Expr := member true object key

/-- The name of the kind of an expression, as it is shown. -/
def kindName : Expr → String
  | array _ => "ArrayExpression"
  | binary .. => "BinaryExpression"
  | call .. => "CallExpression"
  | sequence _ => "Compound"
  | conditional .. => "ConditionalExpression"
  | identifier _ => "Identifier"
  | literal _ => "Literal"
  | logical .. => "LogicalExpression"
  | member .. => "MemberExpression"
  | this => "ThisExpression"
  | unary .. => "UnaryExpression"

/-! ### Measures

The property of a member counts as a node of its own, also where it is only a name. -/

mutual

/-- The number of nodes of an expression. -/
def size : Expr → Nat
  | array elements => 1 + sizeAll elements
  | binary _ left right => 1 + left.size + right.size
  | call callee arguments => 1 + callee.size + sizeAll arguments
  | sequence body => 1 + sizeAll body
  | conditional test consequent alternate => 1 + test.size + consequent.size + alternate.size
  | identifier _ => 1
  | literal _ => 1
  | logical _ left right => 1 + left.size + right.size
  | member _ object property => 1 + object.size + property.size
  | this => 1
  | unary _ argument _ => 1 + argument.size

/-- The number of nodes of some expressions together. -/
def sizeAll : List Expr → Nat
  | [] => 0
  | e :: es => e.size + sizeAll es

end

mutual

/-- The number of levels of an expression: one for a leaf. -/
def height : Expr → Nat
  | array elements => 1 + heightAll elements
  | binary _ left right => 1 + max left.height right.height
  | call callee arguments => 1 + max callee.height (heightAll arguments)
  | sequence body => 1 + heightAll body
  -- all three parts count, although only two of them are evaluated
  | conditional test consequent alternate =>
    1 + max test.height (max consequent.height alternate.height)
  | identifier _ => 1
  | literal _ => 1
  | logical _ left right => 1 + max left.height right.height
  | member _ object property => 1 + max object.height property.height
  | this => 1
  | unary _ argument _ => 1 + argument.height

/-- The greatest height of some expressions: zero for none. -/
def heightAll : List Expr → Nat
  | [] => 0
  | e :: es => max e.height (heightAll es)

end

end Expr

end CheckedExpr
