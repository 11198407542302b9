import CheckedExpr.Descriptor.Compact
import CheckedExpr.Descriptor.Verbose

/-!
# Reading descriptors in either notation
-/

namespace CheckedExpr

/-- The model that a text denotes in a notation. -/
def Dialect.parse : Dialect → String → Except ParseError Model
  | verbose => Verbose.parse
  | compact => Compact.parse

end CheckedExpr
