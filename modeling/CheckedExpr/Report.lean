import CheckedExpr.Diagnostic

/-!
# Reports

A drawing of a diagnostic under the line of source text that it is about. The text is a single line
of printable ASCII characters, so that places and columns agree.
-/

namespace CheckedExpr.Report

/-- Some spaces. -/
def spaces (n : Nat) : String := String.ofList (List.replicate n ' ')

/-- A line of some length. -/
def rule (n : Nat) : String := String.ofList (List.replicate n '─')

/-- The line below a stretch of so many characters. An arrow leaves it in the middle; an empty
stretch is a mark. -/
def underline (length : Nat) : String :=
  -- an empty stretch has no middle for the arrow to leave from
  if length = 0 then "│ " else rule (length / 2) ++ "┬" ++ rule (length - length / 2 - 1) ++ "  "

/-- The arrow from the middle of a stretch of so many characters to the message. -/
def arrow (length : Nat) : String := "╰" ++ rule (length - length / 2 + 1)

/-- The lines that tell what to do. -/
def helpLines : Option String → List String
  | none => []
  | some help => ["   │ ", "   │ Help: " ++ help]

/-- The lines of a report. A diagnostic without a span is about the whole text. -/
def lines (source : String) (d : Diagnostic) : List String :=
  -- a diagnostic without a span is about the whole text
  let span := d.span.getD ⟨0, source.length⟩
  let length := span.stop - span.start
  [ "[" ++ d.code.getD "" ++ "] Error: " ++ d.message,
    "   ╭─[ <unknown>:1:" ++ toString (span.start + 1) ++ " ]",
    "   │",
    " 1 │ " ++ source,
    "   │ " ++ spaces span.start ++ underline length,
    "   │ " ++ spaces (span.start + length / 2) ++ arrow length ++ " " ++ d.message ] ++
  helpLines d.help ++
  ["───╯"]

/-- The report of a diagnostic. -/
def render (source : String) (d : Diagnostic) : String :=
  String.join ((lines source d).map (· ++ "\n"))

end CheckedExpr.Report
