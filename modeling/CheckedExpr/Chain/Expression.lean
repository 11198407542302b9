import CheckedExpr.Chain.Grouping
import CheckedExpr.Expr
import CheckedExpr.ParseError

/-!
# The expression of a chain

Turns what was read into an expression: chains are grouped, escapes are decoded, and nesting is held
against a limit. The limit is tested where a chain starts, before anything of the chain is looked
at, with the number of levels that the chain adds at most.

If several parts of a chain are at fault, the first of them counts in this order: the middle of a
choice, the arguments of a call and the key of an index come before what stands left of them, and
otherwise left comes before right.
-/

namespace CheckedExpr

/-- The text that a quoted text starting at a given place denotes. -/
def decodeText (source : String) (offset : Nat) (written : Grammar.QuotedText) :
    Except ParseError String :=
  match Text.unescape written.body with
  | .ok text => .ok (String.ofList text)
  | .error reason =>
    .error ⟨source, .invalidLiteral written.text reason,
      -- the span is that of the literal with its quotes
      ⟨offset, offset + Text.utf8Length written.text⟩⟩

/-- The expression of a joint between the expressions of its operands. -/
def Joint.toExpr :
    Joint (Except ParseError Expr) → (left right : Except ParseError Expr) → Except ParseError Expr
  | operator (.binary op), left, right => return .binary op (← left) (← right)
  | operator (.logical op), left, right => return .logical op (← left) (← right)
  | choice middle, left, right => do
    -- the middle was read as a chain of its own, and its error comes before those of the other
    -- parts
    let consequent ← middle
    let test ← left
    let alternate ← right
    return .conditional test consequent alternate

/-- The expression with a sign before it. -/
def applySign (op : UnaryOp) (operand : Except ParseError Expr) : Except ParseError Expr :=
  operand.map (.unary op · true)

mutual

/-- The expression of a chain below some levels, if it keeps the limit. -/
def Chain.toExpr (source : String) (limit depth : Nat) : Chain → Except ParseError Expr
  | .mk offset first links =>
    let depth := depth + Chain.levels first links
    -- the whole chain is held against the limit before any part of it is looked at
    if limit < depth then .error ⟨source, .tooDeep limit, ⟨offset, offset⟩⟩
    else
      (Grouping.ofLinks (first.toExpr source limit depth)
        (linksToExpr source limit depth links)).fold id Joint.toExpr

/-- The expressions of what stands behind the first operand of a chain. -/
def linksToExpr (source : String) (limit depth : Nat) :
    List (Joint Chain × Operand) →
      List (Joint (Except ParseError Expr) × Except ParseError Expr)
  | [] => []
  | (.operator op, operand) :: links =>
    (.operator op, operand.toExpr source limit depth) :: linksToExpr source limit depth links
  | (.choice middle, operand) :: links =>
    (.choice (middle.toExpr source limit depth), operand.toExpr source limit depth) ::
      linksToExpr source limit depth links

/-- The expression of an operand. -/
def Operand.toExpr (source : String) (limit depth : Nat) : Operand → Except ParseError Expr
  | .mk signs term suffixes =>
    signs.foldr applySign
      (suffixesToExpr source limit depth (term.toExpr source limit depth) suffixes)

/-- The expression of a term. -/
def Term.toExpr (source : String) (limit depth : Nat) : Term → Except ParseError Expr
  | .number n => .ok (.literal (.number n.value))
  | .text offset written => return .literal (.string (← decodeText source offset written))
  | .boolean b => .ok (.literal (.boolean b))
  | .null => .ok (.literal .null)
  | .this => .ok .this
  | .array elements => return .array (← chainsToExpr source limit depth elements)
  | .group inner => inner.toExpr source limit depth
  | .name name => .ok (.identifier (String.ofList name))

/-- The expression of a term with suffixes behind it. -/
def suffixesToExpr (source : String) (limit depth : Nat) (object : Except ParseError Expr) :
    List Suffix → Except ParseError Expr
  | [] => object
  | suffix :: suffixes =>
    suffixesToExpr source limit depth (suffix.toExpr source limit depth object) suffixes

/-- The expression of what stands left of a suffix, together with the suffix. -/
def Suffix.toExpr (source : String) (limit depth : Nat) (object : Except ParseError Expr) :
    Suffix → Except ParseError Expr
  | .call arguments => do
    -- the arguments come before what is called
    let arguments ← chainsToExpr source limit depth arguments
    return .call (← object) arguments
  | .index key => do
    let key ← key.toExpr source limit depth
    return .index (← object) key
  | .field name => return .field (← object) (String.ofList name)

/-- The expressions of some chains. -/
def chainsToExpr (source : String) (limit depth : Nat) :
    List Chain → Except ParseError (List Expr)
  | [] => .ok []
  | chain :: chains => do
    let e ← chain.toExpr source limit depth
    return e :: (← chainsToExpr source limit depth chains)

end

end CheckedExpr
