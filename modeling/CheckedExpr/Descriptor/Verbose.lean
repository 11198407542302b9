import CheckedExpr.Descriptor

/-!
# The verbose notation of descriptors

`number`, `optional(string)`, `array(boolean)`, `object("name": string, age: number)`,
`function(number, string) boolean`. Alternatives are tried in this order. A simple kind ends where
its word ends; keys are names or stand between double quotes.
-/

namespace CheckedExpr.Verbose

/-- The rules that are reported. -/
inductive Rule where
  | finish | descriptor
  | word (kind : SimpleModel)
  | simple | nullable | array | object | entry | quotedKey | bareKey | function
  deriving DecidableEq, Repr

/-- What the rules are called in a message. -/
def vocabulary : ParseError.Vocabulary Rule where
  order := [.finish, .descriptor, .word .null, .word .number, .word .string, .word .boolean,
    .simple, .nullable, .array, .object, .entry, .quotedKey, .bareKey, .function]
  describe
    | .finish => "end of input"
    | .entry | .quotedKey | .bareKey => "object key"
    | _ => "type"

/-- Reads the word of a simple kind. -/
def scanWord (kind : SimpleModel) : Scan Rule SimpleModel :=
  Scan.token (.word kind)
    (fun rest => (Grammar.readWord kind.name.toList rest).map (kind, ·)) (·.name.toList)

/-- Reads a simple kind. -/
def scanSimple : Scan Rule Descriptor :=
  Scan.rule .simple do
    return .simple (← Scan.firstOf (([.null, .number, .string, .boolean]).map scanWord))

/-- Reads a word, and a descriptor in parentheses behind it. -/
def scanWrapped (word : String) (type : Scan Rule Descriptor) : Scan Rule Descriptor := do
  Scan.exactly word.toList
  Scan.gap
  Scan.exactly ['(']
  Scan.gap
  let inner ← type
  Scan.gap
  Scan.exactly [')']
  return inner

/-- Reads the descriptor of an object. -/
def scanObject (type : Scan Rule Descriptor) : Scan Rule Descriptor :=
  Scan.rule .object do
    Scan.exactly "object".toList
    Scan.gap
    Scan.exactly ['(']
    Scan.gap
    let entries ← Scan.commaSeparated
      (Scan.rule .entry (DescriptorKey.scanEntry (DescriptorKey.scan .quotedKey .bareKey) type))
    Scan.gap
    Scan.exactly [')']
    return .object entries

/-- Reads the descriptor of a function. -/
def scanFunction (type : Scan Rule Descriptor) : Scan Rule Descriptor :=
  Scan.rule .function do
    Scan.exactly "function".toList
    Scan.gap
    Scan.exactly ['(']
    Scan.gap
    let parameters ← Scan.commaSeparated type
    Scan.gap
    Scan.exactly [')']
    Scan.gap
    let result ← type
    return .function parameters result

/-- Reads a descriptor, given how to read those inside it. -/
def scanType (type : Scan Rule Descriptor) : Scan Rule Descriptor :=
  Scan.firstOf [
    -- simple kinds come first; no other descriptor begins with one of their words
    scanSimple,
    Scan.rule .nullable (Descriptor.nullable <$> scanWrapped "optional" type),
    Scan.rule .array (Descriptor.array <$> scanWrapped "array" type),
    scanObject type,
    scanFunction type]

/-- Reads a descriptor of up to `depth` levels. -/
def scanNested : (depth : Nat) → Scan Rule Descriptor
  -- the bound is never used up by a text that is shorter than it
  | 0 => Scan.refuse
  | depth + 1 => scanType (scanNested depth)

/-- Reads a text that is a descriptor. Each level takes a character at least, so no text has more
levels than characters. -/
def scanWhole (text : List Char) : Scan Rule Descriptor :=
  Scan.rule .descriptor do
    Scan.gap
    let descriptor ← scanNested (text.length + 1)
    Scan.gap
    Scan.finish .finish
    return descriptor

/-- The model that a text denotes in the verbose notation. -/
def parse (source : String) : Except ParseError Model :=
  match Scan.run (scanWhole source.toList) source.toList with
  | .ok descriptor => descriptor.toModel .verbose source
  | .error attempts => .error (.ofAttempts vocabulary source attempts)

end CheckedExpr.Verbose
