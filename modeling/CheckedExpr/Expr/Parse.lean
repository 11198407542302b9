import CheckedExpr.Chain.Brackets
import CheckedExpr.Chain.Expression
import CheckedExpr.Chain.Reading

/-!
# From text to expression

A text is refused for its nesting twice: its brackets are counted before it is read, so that
reading does not go deeper than the limit, and the chains that were read are held against the limit
when they are turned into expressions, so that the expression is not higher than the limit.

A text of several expressions, or of none, is a sequence.
-/

namespace CheckedExpr.Expr

/-- The limit on nesting where none is given. -/
def defaultMaxDepth : Nat := 1000

/-- The expression that a text stands for, nested at most `limit` levels deep. -/
def parseWithin (limit : Nat) (source : String) : Except ParseError Expr :=
  -- before the grammar is run, which goes as deep as the brackets do
  match Brackets.firstExcess? limit source.toList with
  | some offset => .error ⟨source, .tooDeep limit, ⟨offset, offset⟩⟩
  | none => do
    let chains ← Chain.ofText source
    let body ← chainsToExpr source limit 0 chains
    -- one expression is itself, also in brackets; none or several are a sequence
    match body with
    | [e] => return e
    | body => return .sequence body

/-- The expression that a text stands for. -/
def parse (source : String) : Except ParseError Expr := parseWithin defaultMaxDepth source

end CheckedExpr.Expr
