import CheckedExpr.Failure
import CheckedExpr.Grammar.Scan
import CheckedExpr.Text.Quoted

/-!
# What is wrong with a text

The causes for which a text is not read as an expression or a descriptor, and how they are told.
A text that its grammar refuses is told by the furthest place at which rules were refused and by
what these rules would have read, in the order in which the grammar declares them.
-/

namespace CheckedExpr

/-- Why a text is not read. -/
inductive ParseCause where
  /-- The grammar would have gone on with one of these; the character that it found instead is
  missing at the end of the text. -/
  | unexpected (expected : List String) (found : Option Char)
  /-- A literal that stands for nothing. -/
  | invalidLiteral (text : List Char) (reason : Text.EscapeError)
  /-- An object that declares a key twice. -/
  | duplicateKey (key : String)
  /-- Nesting past a limit. -/
  | tooDeep (limit : Nat)
  deriving DecidableEq, Repr

namespace ParseCause

/-- Some names as an alternative in words. -/
def alternative : List String → String
  | [] => "something else"
  | [name] => name
  | [name, last] => name ++ " or " ++ last
  -- commas between all but the last two
  | name :: rest => name ++ ", " ++ alternative rest

/-- The cause in words. -/
def message : ParseCause → String
  | unexpected expected found =>
    "expected " ++ alternative expected ++ ", found " ++
      (found.map Text.quotedCharacter).getD "end of input"
  | invalidLiteral text reason => "invalid literal " ++ String.ofList text ++ ": " ++ reason.message
  | duplicateKey key => "duplicate key " ++ Text.quoted key
  | tooDeep limit => "expression nesting exceeds maximum depth of " ++ toString limit

end ParseCause

/-- A text that is not read, why, and where. -/
structure ParseError where
  source : String
  cause : ParseCause
  span : Span
  deriving DecidableEq, Repr

namespace ParseError

/-- What rules are called in a message. -/
structure Vocabulary (ρ : Type) where
  /-- The rules in the order in which the grammar declares them. -/
  order : List ρ
  /-- What a rule would have read. -/
  describe : ρ → String

/-- What some rules would have read, each thing once, in the order of the vocabulary. -/
def Vocabulary.expected {ρ : Type} [BEq ρ] (v : Vocabulary ρ) (rules : List ρ) : List String :=
  ((v.order.filter rules.contains).map v.describe).eraseDups

/-- The error of a text that a grammar refuses after these attempts. -/
def ofAttempts {ρ : Type} [BEq ρ] (v : Vocabulary ρ) (source : String) (attempts : Attempts ρ) :
    ParseError where
  source := source
  -- the character at the furthest place is what was found there
  cause := .unexpected (v.expected attempts.rules)
    ((Text.splitAtOffset source.toList attempts.offset).bind fun (_, after) => after.head?)
  span := ⟨attempts.offset, attempts.offset⟩

/-- As it is shown: with the text and the line and column, unless it is about nesting. -/
def toFailure (e : ParseError) : Failure :=
  match e.cause with
  -- nesting is about the limit and not about the text, so the text is not quoted
  | .tooDeep _ => ⟨.resourceExceeded, e.cause.message, some e.span⟩
  | _ =>
    let (line, column) := e.span.lineColumn e.source
    ⟨.syntaxError,
      "failed to parse " ++ e.source ++ ":" ++ toString line ++ ":" ++ toString column ++ ": " ++
        e.cause.message,
      some e.span⟩

end ParseError

end CheckedExpr
