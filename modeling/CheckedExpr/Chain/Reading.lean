import CheckedExpr.Chain
import CheckedExpr.ParseError

/-!
# Reading chains

The grammar of expressions. Of two spellings, of which one begins with the other, the longer one is
tried first. Numbers come before words, and words with a meaning of their own before names, which
may not be such words; behind a point every name is a property.

Nesting is bounded by the argument of `scanNested`: each level inside another one takes a character
at least, so a text has no more levels than characters.
-/

namespace CheckedExpr

/-- The rules of expressions that are reported. -/
inductive ExprRule where
  | finish | script | expression | choice
  | operator (op : InfixOp)
  | sign (op : UnaryOp)
  | call | index | field | property | array | group | number | text
  | trueWord | falseWord | nullWord | thisWord | name
  deriving DecidableEq, Repr

namespace Chain

/-- The operators behind `??`, in the order in which they are tried. -/
def operatorOrder : List InfixOp :=
  -- of two spellings of which one begins with the other, the longer one stands first
  [.logical .or, .logical .and, .binary .bitOr, .binary .bitXor, .binary .bitAnd,
    .binary .strictEq, .binary .strictNe, .binary .eq, .binary .ne,
    .binary .shl, .binary .ushr, .binary .shr, .binary .le, .binary .ge, .binary .lt, .binary .gt,
    .binary .add, .binary .sub, .binary .mul, .binary .div, .binary .rem, .binary .isIn]

/-- The signs in the order in which they are tried. -/
def signOrder : List UnaryOp := [.neg, .not, .bitNot, .plus]

/-- What the rules are called in a message. -/
def vocabulary : ParseError.Vocabulary ExprRule where
  order :=
    [.finish, .script, .expression, .choice, .operator (.binary .nullish)] ++
      operatorOrder.map .operator ++ signOrder.map .sign ++
      [.call, .index, .field, .property, .array, .group, .number, .text, .trueWord, .falseWord,
        .nullWord, .thisWord, .name]
  describe
    | .finish => "end of input"
    | .expression | .number | .text | .name | .array => "expression"
    | .property => "property name"
    | .choice => "\":\""
    | .call | .index | .field => "member access or call"
    | _ => "operator"

/-- The words that are no names. -/
def keywords : List (List Char) :=
  ["true".toList, "false".toList, "null".toList, "this".toList, "in".toList]

/-- Reads a name that is no keyword. -/
def readIdentifier (text : List Char) : Option (List Char × List Char) :=
  (Grammar.readName text).filter fun (name, _) => !keywords.contains name

/-- Reads an operator. The one that is a word ends where a word ends. -/
def scanOperator (op : InfixOp) : Scan ExprRule InfixOp :=
  let spelling := op.spelling.toList
  let read (rest : List Char) :=
    -- the other spellings end by themselves
    match op with
    | .binary .isIn => Grammar.readWord spelling rest
    | _ => spelling.isPrefixOf? rest
  Scan.token (.operator op) (fun rest => (read rest).map (op, ·)) fun _ => spelling

/-- Reads a word with a meaning of its own. -/
def scanKeyword (rule : ExprRule) (word : String) (term : Term) : Scan ExprRule Term :=
  Scan.token rule (fun rest => (Grammar.readWord word.toList rest).map (term, ·))
    fun _ => word.toList

/-- Reads a sign. -/
def scanSign : Scan ExprRule UnaryOp :=
  Scan.firstOf <| signOrder.map fun op => do
    Scan.sign (.sign op) op.spelling
    return op

/-- Reads a joint, given how to read the middle of a choice. -/
def scanJoint (inner : Scan ExprRule Chain) : Scan ExprRule (Joint Chain) :=
  let operator (op : InfixOp) : Scan ExprRule (Joint Chain) := Joint.operator <$> scanOperator op
  let choice : Scan ExprRule (Joint Chain) := Scan.rule .choice do
    Scan.exactly ['?']
    Scan.gap
    let middle ← inner
    Scan.gap
    Scan.exactly [':']
    return .choice middle
  -- two question marks are an operator, so they come before the choice
  Scan.firstOf (operator (.binary .nullish) :: choice :: operatorOrder.map operator)

/-- Reads chains with commas between them, between an opening and a closing character. -/
def scanList (opening closing : Char) (inner : Scan ExprRule Chain) :
    Scan ExprRule (List Chain) := do
  Scan.exactly [opening]
  Scan.gap
  let chains ← Scan.commaSeparated inner
  Scan.gap
  Scan.exactly [closing]
  return chains

/-- Reads a chain between an opening and a closing character. -/
def scanEnclosed (opening closing : Char) (inner : Scan ExprRule Chain) :
    Scan ExprRule Chain := do
  Scan.exactly [opening]
  Scan.gap
  let chain ← inner
  Scan.gap
  Scan.exactly [closing]
  return chain

/-- Reads a suffix. -/
def scanSuffix (inner : Scan ExprRule Chain) : Scan ExprRule Suffix :=
  Scan.firstOf [
    Scan.rule .call (Suffix.call <$> scanList '(' ')' inner),
    Scan.rule .index (Suffix.index <$> scanEnclosed '[' ']' inner),
    Scan.rule .field do
      Scan.exactly ['.']
      Scan.gap
      -- behind a point a keyword is a property like any other
      return .field (← Scan.token .property Grammar.readName id)]

/-- Reads a quoted text. -/
def scanText : Scan ExprRule Term := do
  let offset ← Scan.place
  let written ← Scan.token .text
    (fun rest => Grammar.readQuoted '"' rest <|> Grammar.readQuoted '\'' rest)
    Grammar.QuotedText.text
  return .text offset written

/-- Reads a term. -/
def scanTerm (inner : Scan ExprRule Chain) : Scan ExprRule Term :=
  Scan.firstOf [
    -- numbers come first, as a point may begin one; names come last, as words look like them
    Term.number <$> Scan.token .number Numeral.read Numeral.text,
    scanText,
    scanKeyword .trueWord "true" (.boolean true),
    scanKeyword .falseWord "false" (.boolean false),
    scanKeyword .nullWord "null" .null,
    scanKeyword .thisWord "this" .this,
    Scan.rule .array (Term.array <$> scanList '[' ']' inner),
    Scan.rule .group (Term.group <$> scanEnclosed '(' ')' inner),
    Term.name <$> Scan.token .name readIdentifier id]

/-- Reads an operand. -/
def scanOperand (inner : Scan ExprRule Chain) : Scan ExprRule Operand := do
  -- signs may have gaps between them
  let signs ← Scan.many scanSign
  Scan.gap
  let term ← scanTerm inner
  Scan.gap
  let suffixes ← Scan.many (scanSuffix inner)
  return .mk signs term suffixes

/-- Reads a joint and the operand behind it. -/
def scanLink (inner : Scan ExprRule Chain) : Scan ExprRule (Joint Chain × Operand) := do
  let joint ← scanJoint inner
  Scan.gap
  let operand ← scanOperand inner
  return (joint, operand)

/-- Reads a chain, given how to read the chains inside it. -/
def scanChain (inner : Scan ExprRule Chain) : Scan ExprRule Chain :=
  Scan.rule .expression do
    let offset ← Scan.place
    let first ← scanOperand inner
    Scan.gap
    let links ← Scan.many (scanLink inner)
    return .mk offset first links

/-- Reads a chain with up to `depth` levels of chains, itself included. -/
def scanNested : (depth : Nat) → Scan ExprRule Chain
  -- the bound is never used up by a text that is shorter than it
  | 0 => Scan.refuse
  | depth + 1 => scanChain (scanNested depth)

/-- Reads a whole text: chains with commas between them, of up to `depth` levels. -/
def scanScript (depth : Nat) : Scan ExprRule (List Chain) :=
  Scan.rule .script do
    Scan.gap
    let chains ← Scan.commaSeparated (scanNested depth)
    Scan.gap
    Scan.finish .finish
    return chains

/-- The chains that a text consists of. -/
def ofText (source : String) : Except ParseError (List Chain) :=
  match Scan.run (scanScript (source.toList.length + 1)) source.toList with
  | .ok chains => .ok chains
  | .error attempts => .error (.ofAttempts vocabulary source attempts)

end Chain

end CheckedExpr
