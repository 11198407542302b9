import CheckedExpr.Text.Offset

/-!
# Scanning a text by rules

A grammar is written as a `Scan`: a function that reads some characters at a cursor, or refuses.
Choices are ordered, and a choice that has been made is not taken back. What a scan tells about a
text it refuses is the furthest place at which a rule was refused, with the rules refused there:
these `Attempts` are carried along, through refusals too, and never change what is read.

A rule that is refused where it starts replaces the rules inside it that were refused at the same
place, so that a message speaks of an expression rather than of everything that may begin one. If
exactly one rule inside it was refused there, that one says more and is kept.

* `Attempts.report`: the bookkeeping of one refused rule.
* `Scan.rule`, `Scan.token`: scans that report.
* `Scan.many`: repetition. Each round of a repetition reads a character, so the characters that
  are left bound the number of rounds.
-/

namespace CheckedExpr

/-- A place at which a text is being read. -/
structure Cursor where
  /-- The characters that have not been read. -/
  rest : List Char
  /-- The number of bytes that have been read. -/
  offset : Nat
  deriving DecidableEq, Repr

namespace Cursor

/-- The place at which a text begins. -/
def start (text : List Char) : Cursor := ⟨text, 0⟩

/-- The place behind some characters that were read, given what they left. -/
def advance (c : Cursor) (read rest : List Char) : Cursor :=
  ⟨rest, c.offset + Text.utf8Length read⟩

end Cursor

/-- The furthest place at which rules were refused, and these rules in the order in which they
were refused. -/
structure Attempts (ρ : Type) where
  offset : Nat
  rules : List ρ
  deriving Repr

namespace Attempts

variable {ρ : Type}

/-- No rule was refused yet. -/
def empty : Attempts ρ := ⟨0, []⟩

/-- The number of rules that are noted for a place. -/
def countAt (attempts : Attempts ρ) (offset : Nat) : Nat :=
  if attempts.offset = offset then attempts.rules.length else 0

/-- Notes that a rule was refused that had been started at a place for which `before` rules were
noted. Rules noted for this place since then belong to the rule: it replaces them, unless it is a
single one. -/
def report (attempts : Attempts ρ) (rule : ρ) (offset before : Nat) : Attempts ρ :=
  -- a single rule that was refused inside says more than the rule around it
  if attempts.countAt offset = before + 1 then attempts
  else if attempts.offset < offset then ⟨offset, [rule]⟩
  -- several rules at one place are told by the rule around them
  else if attempts.offset = offset then ⟨offset, attempts.rules.take before ++ [rule]⟩
  else attempts

end Attempts

/-- A way to read characters at a cursor. The outcome is what was read and where reading stopped,
or a refusal; the attempts are carried along in either case. -/
def Scan (ρ α : Type) : Type := Cursor → Attempts ρ → Option (α × Cursor) × Attempts ρ

namespace Scan

variable {ρ α β : Type}

instance : Monad (Scan ρ) where
  pure a := fun cursor attempts => (some (a, cursor), attempts)
  bind first next := fun cursor attempts =>
    match first cursor attempts with
    | (some (a, behind), attempts) => next a behind attempts
    | (none, attempts) => (none, attempts)

/-- The second choice is made at the same place if the first one is refused. -/
instance : OrElse (Scan ρ α) where
  orElse first second := fun cursor attempts =>
    match first cursor attempts with
    | (some read, attempts) => (some read, attempts)
    | (none, attempts) => second () cursor attempts

/-- Refuses. -/
def refuse : Scan ρ α := fun _ attempts => (none, attempts)

/-- The first of some choices that is not refused. -/
def firstOf : List (Scan ρ α) → Scan ρ α
  | [] => refuse
  | choice :: choices => choice <|> firstOf choices

/-- Reads nothing and tells where it is. -/
def place : Scan ρ Nat := fun cursor attempts => (some (cursor.offset, cursor), attempts)

/-- Reads by a function on the characters that are left; `text` is what a result was read from. -/
def lexeme (read : List Char → Option (α × List Char)) (text : α → List Char) : Scan ρ α :=
  fun cursor attempts =>
    match read cursor.rest with
    | some (a, rest) => (some (a, cursor.advance (text a) rest), attempts)
    | none => (none, attempts)

/-- Reads exactly the given characters. -/
def exactly (text : List Char) : Scan ρ Unit :=
  lexeme (fun rest => (text.isPrefixOf? rest).map ((), ·)) fun _ => text

/-- The characters that may stand between the parts of a rule: space, tab, carriage return and
line feed. -/
def isGap (c : Char) : Bool := c == ' ' || c == '\t' || c == '\r' || c == '\n'

/-- Reads all characters up to the next one that is no gap. -/
def gap : Scan ρ Unit := fun cursor attempts =>
  let read := cursor.rest.takeWhile isGap
  (some ((), cursor.advance read (cursor.rest.dropWhile isGap)), attempts)

/-- Reads by a rule, and reports the rule if it is refused. -/
def rule (r : ρ) (body : Scan ρ α) : Scan ρ α := fun cursor attempts =>
  match body cursor attempts with
  | (some read, after) => (some read, after)
  | (none, after) => (none, after.report r cursor.offset (attempts.countAt cursor.offset))

/-- Reads a rule that has no rules inside. -/
def token (r : ρ) (read : List Char → Option (α × List Char)) (text : α → List Char) : Scan ρ α :=
  rule r (lexeme read text)

/-- Reads a rule that is a row of given characters. -/
def sign (r : ρ) (text : String) : Scan ρ Unit := rule r (exactly text.toList)

/-- Reads rounds of `item` until one is refused, at most one more than `bound` is long. -/
def rounds (item : Scan ρ α) : List Char → Cursor → Attempts ρ → (List α × Cursor) × Attempts ρ
  -- the bound is used up, so this is the last round
  | [], cursor, attempts =>
    match item cursor attempts with
    | (none, attempts) => (([], cursor), attempts)
    | (some (a, behind), attempts) => (([a], behind), attempts)
  | _ :: bound, cursor, attempts =>
    match item cursor attempts with
    | (none, attempts) => (([], cursor), attempts)
    | (some (a, behind), attempts) =>
      let ((as, stop), attempts) := rounds item bound behind attempts
      ((a :: as, stop), attempts)

/-- Reads rounds of `item` until one is refused. -/
def repeated (item : Scan ρ α) : Scan ρ (List α) := fun cursor attempts =>
  let (read, attempts) := rounds item cursor.rest cursor attempts
  (some read, attempts)

/-- Reads any number of items with gaps between them. A gap behind the last item is left. -/
def many (item : Scan ρ α) : Scan ρ (List α) :=
  (do let first ← item
      let more ← repeated (do gap; item)
      return first :: more)
  <|> pure []

/-- Reads any number of items with commas between them. A gap behind the last item is read. -/
def commaSeparated (item : Scan ρ α) : Scan ρ (List α) :=
  (do let first ← item
      gap
      let more ← many (do exactly [',']; gap; item)
      return first :: more)
  <|> pure []

/-- Reads the end of the text. -/
def finish (r : ρ) : Scan ρ Unit :=
  token r (fun rest => if rest.isEmpty then some ((), rest) else none) fun _ => []

/-- Reads a whole text, or tells where and by which rules it is refused. -/
def run (scan : Scan ρ α) (text : List Char) : Except (Attempts ρ) α :=
  match scan (Cursor.start text) .empty with
  | (some (a, _), _) => .ok a
  | (none, attempts) => .error attempts

/-! ### How the combinators run -/

/-- Reading nothing leaves the cursor and the attempts. -/
theorem run_pure (a : α) (cursor : Cursor) (attempts : Attempts ρ) :
    (pure a : Scan ρ α) cursor attempts = (some (a, cursor), attempts) := rfl

/-- The second scan goes on where the first one stopped, with the attempts of the first one. -/
theorem run_bind (first : Scan ρ α) (next : α → Scan ρ β) (cursor : Cursor)
    (attempts : Attempts ρ) :
    (first >>= next) cursor attempts =
      match first cursor attempts with
      | (some (a, behind), attempts) => next a behind attempts
      | (none, attempts) => (none, attempts) := rfl

/-- The second choice starts where the first one did, and keeps what it attempted. -/
theorem run_orElse (first second : Scan ρ α) (cursor : Cursor) (attempts : Attempts ρ) :
    (first <|> second) cursor attempts =
      match first cursor attempts with
      | (some read, attempts) => (some read, attempts)
      | (none, attempts) => second cursor attempts := rfl

end Scan

end CheckedExpr
