/-!
# Counting brackets

A look at the brackets of a text before it is read. Opening parentheses and brackets, and question
marks that stand alone, go one level down; closing ones and colons go one level up, but not past
the outermost. What stands between quotes does not count.
-/

namespace CheckedExpr.Brackets

/-- Whether a character opens a level. -/
def isOpening (c : Char) : Bool := c == '(' || c == '[' || c == '?'

/-- Whether a character closes a level. -/
def isClosing (c : Char) : Bool := c == ')' || c == ']' || c == ':'

/-- The first place at which more than `limit` levels are open, of a text that begins at the place
`offset`, inside the given quotes, if any, and below `depth` levels. -/
def excess? (limit : Nat) : (quote : Option Char) → (depth offset : Nat) → List Char → Option Nat
  | _, _, _, [] => none
  -- between quotes nothing counts but the closing quote, and an escaped one is none
  | some q, depth, offset, '\\' :: d :: rest =>
    excess? limit (some q) depth (offset + 1 + d.utf8Size) rest
  | some q, depth, offset, c :: rest =>
    excess? limit (if c = q then none else some q) depth (offset + c.utf8Size) rest
  -- two question marks are an operator and open nothing
  | none, depth, offset, '?' :: '?' :: rest => excess? limit none depth (offset + 2) rest
  | none, depth, offset, c :: rest =>
    if c = '\'' ∨ c = '"' then excess? limit (some c) depth (offset + 1) rest
    else if isOpening c then
      if limit < depth + 1 then some offset else excess? limit none (depth + 1) (offset + 1) rest
    -- a closing bracket too many does not go past the outermost level
    else if isClosing c then excess? limit none (depth - 1) (offset + 1) rest
    else excess? limit none depth (offset + c.utf8Size) rest

/-- The first place of a text at which more than `limit` levels are open. -/
def firstExcess? (limit : Nat) (text : List Char) : Option Nat := excess? limit none 0 0 text

end CheckedExpr.Brackets
