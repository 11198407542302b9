import CheckedExpr.Descriptor

/-!
# The compact notation of descriptors

`n`, `s` and `b` are numbers, texts and truth values. A question mark behind a descriptor makes it
optional and a pair of brackets an array of it, read from left to right: `n?[]` is an array of
optional numbers, `n[]?` an optional array. Objects are `{name: s, age: n}`, functions are
`f(n, s -> b)`, and a descriptor may stand in parentheses.
-/

namespace CheckedExpr.Compact

/-- The rules that are reported. -/
inductive Rule where
  | finish | descriptor | type | optionalMark | arrayMark
  | word (kind : SimpleModel)
  | function | object | entry | quotedKey | bareKey
  deriving DecidableEq, Repr

/-- What the rules are called in a message. -/
def vocabulary : ParseError.Vocabulary Rule where
  order := [.finish, .descriptor, .type, .optionalMark, .arrayMark, .word .null, .word .number,
    .word .string, .word .boolean, .function, .object, .entry, .quotedKey, .bareKey]
  describe
    | .finish => "end of input"
    | .optionalMark | .arrayMark => "type suffix"
    | .entry | .quotedKey | .bareKey => "object key"
    | _ => "type"

/-- How a simple kind is written. -/
def wordOf : SimpleModel → String
  | .null => "null"
  | .number => "n"
  | .string => "s"
  | .boolean => "b"

/-- Reads the word of a simple kind. -/
def scanWord (kind : SimpleModel) : Scan Rule Descriptor :=
  Descriptor.simple <$> Scan.token (.word kind)
    (fun rest => (Grammar.readWord (wordOf kind).toList rest).map (kind, ·))
    (fun kind => (wordOf kind).toList)

/-- What stands behind a descriptor. -/
inductive Mark where
  | optional | array
  deriving DecidableEq, Repr

/-- The descriptor with a mark behind it. -/
def Mark.apply (inner : Descriptor) : Mark → Descriptor
  | optional => .nullable inner
  | array => .array inner

/-- Reads a mark. -/
def scanMark : Scan Rule Mark :=
  (do Scan.sign .optionalMark "?"; return .optional)
  <|> Scan.rule .arrayMark do
    Scan.exactly ['[']
    Scan.gap
    Scan.exactly [']']
    return .array

/-- Reads the descriptor of a function. -/
def scanFunction (type : Scan Rule Descriptor) : Scan Rule Descriptor :=
  Scan.rule .function do
    Scan.exactly ['f']
    Scan.gap
    Scan.exactly ['(']
    Scan.gap
    let parameters ← Scan.commaSeparated type
    Scan.gap
    Scan.exactly ['-', '>']
    Scan.gap
    let result ← type
    Scan.gap
    Scan.exactly [')']
    return .function parameters result

/-- Reads the descriptor of an object. -/
def scanObject (type : Scan Rule Descriptor) : Scan Rule Descriptor :=
  Scan.rule .object do
    Scan.exactly ['\x7b']
    Scan.gap
    let entries ← Scan.commaSeparated
      (Scan.rule .entry (DescriptorKey.scanEntry (DescriptorKey.scan .quotedKey .bareKey) type))
    Scan.gap
    Scan.exactly ['\x7d']
    return .object entries

/-- Reads a descriptor in parentheses. -/
def scanGroup (type : Scan Rule Descriptor) : Scan Rule Descriptor := do
  Scan.exactly ['(']
  Scan.gap
  let inner ← type
  Scan.gap
  Scan.exactly [')']
  return inner

/-- Reads a descriptor, given how to read those inside it. -/
def scanType (type : Scan Rule Descriptor) : Scan Rule Descriptor :=
  Scan.rule .type do
    let base ← Scan.firstOf
      -- a word has to end, so no letter is read off the front of a longer word
      ([.null, .number, .string, .boolean].map scanWord ++
        [scanFunction type, scanObject type, scanGroup type])
    Scan.gap
    -- marks are read from left to right, each of them around all that stands before it
    let marks ← Scan.many scanMark
    return marks.foldl Mark.apply base

/-- Reads a descriptor of up to `depth` levels. -/
def scanNested : (depth : Nat) → Scan Rule Descriptor
  | 0 => Scan.refuse
  | depth + 1 => scanType (scanNested depth)

/-- Reads a text that is a descriptor. Each level takes a character at least, so no text has more
levels than characters. -/
def scanWhole (text : List Char) : Scan Rule Descriptor :=
  Scan.rule .descriptor do
    Scan.gap
    let descriptor ← scanNested (text.length + 1)
    Scan.gap
    Scan.finish .finish
    return descriptor

/-- The model that a text denotes in the compact notation. -/
def parse (source : String) : Except ParseError Model :=
  match Scan.run (scanWhole source.toList) source.toList with
  | .ok descriptor => descriptor.toModel .compact source
  | .error attempts => .error (.ofAttempts vocabulary source attempts)

end CheckedExpr.Compact
