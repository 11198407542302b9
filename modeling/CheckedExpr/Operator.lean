import CheckedExpr.Failure

/-!
# Operators

The operators of the language by what they do, with their spelling and the way back from it.

* `BinaryOp.ofSpelling?_spelling`, `LogicalOp.ofSpelling?_spelling`, `UnaryOp.ofSpelling?_spelling`:
  every spelling reads back, so no two operators of one kind share one.
* `BinaryOp.ofSpelling`, `LogicalOp.ofSpelling`, `UnaryOp.ofSpelling`: the way back with the error
  of a text that is no spelling. What they give is told by `OperatorError.lookup_eq_ok_iff` and
  `OperatorError.lookup_eq_error_iff`.
-/

namespace CheckedExpr

/-- A text that is no operator of the kind that was asked for. -/
structure OperatorError where
  text : String
  deriving DecidableEq, Repr

namespace OperatorError

/-- The error in words. -/
def message (e : OperatorError) : String := "invalid operator \"" ++ e.text ++ "\""

/-- As it is shown. -/
def toFailure (e : OperatorError) : Failure := .ofMessage .syntaxError e.message

variable {α : Type} {ofSpelling? : String → Option α} {spelling : α → String} {text : String}

/-- What a table of spellings gives for a text, or the error that quotes the text. -/
def lookup (ofSpelling? : String → Option α) (text : String) : Except OperatorError α :=
  match ofSpelling? text with
  | some op => .ok op
  | none => .error ⟨text⟩

/-- Whether a table of spellings gives each operator for its own spelling, and for that only. -/
structure IsTable (ofSpelling? : String → Option α) (spelling : α → String) : Prop where
  spelled : ∀ op, ofSpelling? (spelling op) = some op
  only : ∀ text op, ofSpelling? text = some op → spelling op = text

/-- An operator is given for its spelling and for no other text. -/
theorem lookup_eq_ok_iff (h : IsTable ofSpelling? spelling) {op : α} :
    lookup ofSpelling? text = .ok op ↔ spelling op = text := by
  unfold lookup
  constructor
  · intro hlookup
    split at hlookup
    next hfound =>
      cases hlookup
      exact h.only text op hfound
    next => cases hlookup
  -- a spelling is found as the table says
  · rintro rfl
    rw [h.spelled]

/-- The error is that of a text which no operator is written as, and quotes this text. -/
theorem lookup_eq_error_iff (h : IsTable ofSpelling? spelling) {e : OperatorError} :
    lookup ofSpelling? text = .error e ↔ e = ⟨text⟩ ∧ ∀ op, spelling op ≠ text := by
  unfold lookup
  cases hfound : ofSpelling? text with
  | some op =>
    -- the operator that was found is written so, hence neither side holds
    refine ⟨fun herror => ?_, fun ⟨_, hnone⟩ => absurd (h.only text op hfound) (hnone op)⟩
    cases herror
  | none =>
    refine ⟨fun herror => ?_, fun ⟨he, _⟩ => by rw [he]⟩
    cases herror
    refine ⟨rfl, fun op hop => ?_⟩
    rw [← hop, h.spelled] at hfound
    cases hfound

end OperatorError

/-- The operators that need both operands, `??` among them. -/
inductive BinaryOp where
  | bitOr | bitXor | bitAnd
  | eq | ne | strictEq | strictNe
  | lt | gt | le | ge
  | shl | shr | ushr
  | rem | add | sub | mul | div
  | isIn | nullish
  deriving DecidableEq, Repr

/-- The operators that may be decided by their left operand. -/
inductive LogicalOp where
  | and | or
  deriving DecidableEq, Repr

/-- The operators before their operand. -/
inductive UnaryOp where
  | neg | not | bitNot | plus
  deriving DecidableEq, Repr

namespace BinaryOp

/-- All of them. -/
def all : List BinaryOp :=
  [bitOr, bitXor, bitAnd, eq, ne, strictEq, strictNe, lt, gt, le, ge, shl, shr, ushr, rem, add,
    sub, mul, div, isIn, nullish]

/-- How the operator is written. -/
def spelling : BinaryOp → String
  | bitOr => "|"
  | bitXor => "^"
  | bitAnd => "&"
  | eq => "=="
  | ne => "!="
  | strictEq => "==="
  | strictNe => "!=="
  | lt => "<"
  | gt => ">"
  | le => "<="
  | ge => ">="
  | shl => "<<"
  | shr => ">>"
  | ushr => ">>>"
  | rem => "%"
  | add => "+"
  | sub => "-"
  | mul => "*"
  | div => "/"
  | isIn => "in"
  | nullish => "??"

/-- The operator that is written so. -/
-- a text is compared as a whole, so no longer text is taken for an operator
def ofSpelling? (text : String) : Option BinaryOp := all.find? (·.spelling == text)

/-- Every operator is found by its spelling, so no two of them share one. -/
theorem ofSpelling?_spelling (op : BinaryOp) : ofSpelling? op.spelling = some op := by
  cases op <;> decide

/-- The operator that is written so, or the error of a text that none is written as. -/
def ofSpelling (text : String) : Except OperatorError BinaryOp :=
  OperatorError.lookup ofSpelling? text

theorem isTable_ofSpelling? : OperatorError.IsTable ofSpelling? spelling where
  spelled := ofSpelling?_spelling
  only text _ h := beq_iff_eq.mp (List.find?_some (p := (spelling · == text)) h)

/-- Works on the bits of 32-bit integers. -/
def isBitwise : BinaryOp → Bool
  | bitOr | bitXor | bitAnd | shl | shr | ushr => true
  | _ => false

/-- Tells whether two values are equal, or whether they differ. -/
def isEquality : BinaryOp → Bool
  | eq | ne | strictEq | strictNe => true
  | _ => false

/-- Tells which of two values comes first. -/
def isComparison : BinaryOp → Bool
  | lt | gt | le | ge => true
  | _ => false

end BinaryOp

namespace LogicalOp

/-- How the operator is written. -/
def spelling : LogicalOp → String
  | and => "&&"
  | or => "||"

/-- The operator that is written so. -/
def ofSpelling? (text : String) : Option LogicalOp := [and, or].find? (·.spelling == text)

/-- Every operator is found by its spelling, so no two of them share one. -/
theorem ofSpelling?_spelling (op : LogicalOp) : ofSpelling? op.spelling = some op := by
  cases op <;> decide

/-- The operator that is written so, or the error of a text that none is written as. -/
def ofSpelling (text : String) : Except OperatorError LogicalOp :=
  OperatorError.lookup ofSpelling? text

theorem isTable_ofSpelling? : OperatorError.IsTable ofSpelling? spelling where
  spelled := ofSpelling?_spelling
  only text _ h := beq_iff_eq.mp (List.find?_some (p := (spelling · == text)) h)

end LogicalOp

namespace UnaryOp

/-- How the operator is written. -/
def spelling : UnaryOp → String
  | neg => "-"
  | not => "!"
  | bitNot => "~"
  | plus => "+"

/-- The operator that is written so. -/
def ofSpelling? (text : String) : Option UnaryOp :=
  [neg, not, bitNot, plus].find? (·.spelling == text)

/-- Every operator is found by its spelling, so no two of them share one. -/
theorem ofSpelling?_spelling (op : UnaryOp) : ofSpelling? op.spelling = some op := by
  cases op <;> decide

/-- The operator that is written so, or the error of a text that none is written as. -/
def ofSpelling (text : String) : Except OperatorError UnaryOp :=
  OperatorError.lookup ofSpelling? text

theorem isTable_ofSpelling? : OperatorError.IsTable ofSpelling? spelling where
  spelled := ofSpelling?_spelling
  only text _ h := beq_iff_eq.mp (List.find?_some (p := (spelling · == text)) h)

end UnaryOp

end CheckedExpr
