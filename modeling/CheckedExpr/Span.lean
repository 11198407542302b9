import CheckedExpr.Text.Offset

/-!
# Spans of a source text

A span is the stretch of a source text that a message is about, from one place to another, both
counted in bytes. People read places as a line and a column, both from one, where a column is a
character; `lineColumn` is the way from the one to the other.

* `lineColumn_zero`: a text begins at line one, column one.
* `lineColumnFrom_append`: the place behind a beginning of a text is found by reading that
  beginning alone.
-/

namespace CheckedExpr

/-- A stretch of a source text. -/
structure Span where
  /-- The number of bytes before the stretch. -/
  start : Nat
  /-- The number of bytes before what follows the stretch. -/
  stop : Nat
  deriving DecidableEq, Repr

namespace Span

/-- From the start of one span to the stop of another. -/
def combine (first last : Span) : Span := ⟨first.start, last.stop⟩

/-- The characters of a stretch. There are none if the span runs backwards or past the end, or if
it cuts a character. -/
def textOf? (span : Span) (source : String) : Option String :=
  if span.start ≤ span.stop then
    (Text.splitAtOffset source.toList span.start).bind fun (_, after) =>
      (Text.splitAtOffset after (span.stop - span.start)).map fun (inside, _) =>
        String.ofList inside
  else none

/-- The line and column of a place, read on from a line and a column that the text begins at. A
place past the end counts as the end. -/
def lineColumnFrom (line column : Nat) : List Char → Nat → Nat × Nat
  | [], _ => (line, column)
  | c :: cs, offset =>
    -- a place inside a character counts as the place before it
    if offset < c.utf8Size then (line, column)
    else if c = '\n' then lineColumnFrom (line + 1) 1 cs (offset - c.utf8Size)
    else lineColumnFrom line (column + 1) cs (offset - c.utf8Size)

/-- The line and column at which a span starts. -/
def lineColumn (span : Span) (source : String) : Nat × Nat :=
  lineColumnFrom 1 1 source.toList span.start

/-- Whether a span starts between two characters of a text, or at or past its end. -/
def startsAtBoundary (span : Span) (source : String) : Bool :=
  Text.isBoundary source.toList (min span.start source.utf8ByteSize)

/-! ### Reading lines and columns -/

/-- At the beginning of a text one stands where it begins. -/
theorem lineColumnFrom_zero (line column : Nat) (text : List Char) :
    lineColumnFrom line column text 0 = (line, column) := by
  cases text with
  | nil => rfl
  | cons c cs => simp [lineColumnFrom, c.utf8Size_pos]

/-- A text begins at line one, column one. -/
theorem lineColumn_zero (stop : Nat) (source : String) :
    (Span.mk 0 stop).lineColumn source = (1, 1) :=
  lineColumnFrom_zero 1 1 _

/-- **The place behind a beginning of a text is found by reading that beginning alone**; what
follows is read on from there. -/
theorem lineColumnFrom_append (line column : Nat) (before after : List Char) (more : Nat) :
    lineColumnFrom line column (before ++ after) (Text.utf8Length before + more) =
      let reached := lineColumnFrom line column before (Text.utf8Length before)
      lineColumnFrom reached.1 reached.2 after more := by
  -- by induction on the beginning, over all lines and columns, since a newline changes both
  induction before generalizing line column with
  | nil => simp [lineColumnFrom]
  | cons c cs ih =>
    have houtside : ¬ c.utf8Size + Text.utf8Length cs < c.utf8Size := by omega
    have houtside' : ¬ c.utf8Size + Text.utf8Length cs + more < c.utf8Size := by omega
    have hleft : c.utf8Size + Text.utf8Length cs + more - c.utf8Size =
        Text.utf8Length cs + more := by omega
    have hleft' : c.utf8Size + Text.utf8Length cs - c.utf8Size = Text.utf8Length cs := by omega
    -- the place is behind the first character on both sides, and the character is a newline or is
    -- not
    simp only [List.cons_append, Text.utf8Length_cons, lineColumnFrom, houtside, houtside',
      if_false, hleft, hleft', ih]
    split <;> rfl

end Span

end CheckedExpr
