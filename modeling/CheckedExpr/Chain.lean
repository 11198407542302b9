import CheckedExpr.Grammar.Lexeme
import CheckedExpr.Numeral
import CheckedExpr.Operator

/-!
# Chains of operands

The grammar of expressions reads operators without weighing them against each other: an expression
is a chain of operands with joints between them, and an operand is a term with signs before it and
suffixes behind it. Which operands a joint takes is settled later, by `Grouping`.

Names and quoted texts are kept as they are written, with the places that messages point at.
-/

namespace CheckedExpr

/-- An operator that stands between two operands. -/
inductive InfixOp where
  | binary (op : BinaryOp)
  | logical (op : LogicalOp)
  deriving DecidableEq, Repr

/-- How the operator is written. -/
def InfixOp.spelling : InfixOp → String
  | binary op => op.spelling
  | logical op => op.spelling

/-- What stands between two operands: an operator, or the middle of a choice between its question
mark and its colon. -/
inductive Joint (μ : Type) where
  | operator (op : InfixOp)
  | choice (middle : μ)
  deriving Repr

mutual

/-- An expression as it is written: the place where it starts, an operand, and further operands,
each with the joint before it. -/
inductive Chain where
  | mk (offset : Nat) (first : Operand) (links : List (Joint Chain × Operand))

/-- A term with the signs before it and the suffixes behind it, both from left to right. -/
inductive Operand where
  | mk (signs : List UnaryOp) (term : Term) (suffixes : List Suffix)

/-- What operators work on. -/
inductive Term where
  | number (n : Numeral)
  /-- A quoted text that starts at the given place. -/
  | text (offset : Nat) (written : Grammar.QuotedText)
  | boolean (b : Bool)
  | null
  | this
  | array (elements : List Chain)
  | group (inner : Chain)
  | name (name : List Char)

/-- What may stand behind a term. -/
inductive Suffix where
  | call (arguments : List Chain)
  | index (key : Chain)
  | field (name : List Char)

end

namespace Operand

/-- The number of signs and suffixes. -/
def run : Operand → Nat
  | .mk signs _ suffixes => signs.length + suffixes.length

end Operand

namespace Chain

/-- How many levels the expression of a chain has at most, those of its terms, arguments, keys and
middles apart: one for each joint, and those of the operand with the most signs and suffixes. -/
def levels (first : Operand) (links : List (Joint Chain × Operand)) : Nat :=
  -- in the worst case every joint stands below the one before it, and the longest operand below
  -- them all
  links.length + (links.map (·.2.run)).foldl max first.run + 1

end Chain

end CheckedExpr
