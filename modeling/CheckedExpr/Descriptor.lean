import CheckedExpr.Grammar.Lexeme
import CheckedExpr.Model
import CheckedExpr.ParseError

/-!
# Descriptors

A descriptor is a text that denotes a model. There are two notations for them, a verbose one, such
as `array(optional(number))`, and a compact one, such as `n?[]`. Both are read into the same tree,
in which keys still are as they were written. `Descriptor.toModel` decodes the keys and sees to it
that no object declares a key twice; keys are compared as the texts that they denote, so that a
bare and a quoted spelling of one text are the same key.

The notations differ in how they point at a key that cannot be decoded: the verbose one shows the
key with its quotes, the compact one shows what is between them and points at the whole entry.
-/

namespace CheckedExpr

/-- A notation for models. -/
inductive Dialect where
  | verbose | compact
  deriving DecidableEq, Repr

/-- A key as it is written. -/
inductive DescriptorKey where
  | bare (name : List Char)
  /-- Between double quotes, from the given place on. -/
  | quoted (offset : Nat) (text : Grammar.QuotedText)
  deriving DecidableEq, Repr

/-- A model as it is written. -/
inductive Descriptor where
  | simple (kind : SimpleModel)
  | nullable (inner : Descriptor)
  | array (element : Descriptor)
  /-- Entries, each with its span and its key. -/
  | object (entries : List (Span × DescriptorKey × Descriptor))
  | function (parameters : List Descriptor) (result : Descriptor)
  deriving Repr, Inhabited

/-- The text that a key denotes; `entry` is the span of the entry that the key belongs to. -/
def DescriptorKey.decode (dialect : Dialect) (source : String) (entry : Span) :
    DescriptorKey → Except ParseError String
  | bare name => .ok (String.ofList name)
  | quoted offset written =>
    match Text.unescape written.body, dialect with
    | .ok name, _ => .ok (String.ofList name)
    | .error reason, .verbose =>
      .error ⟨source, .invalidLiteral written.text reason,
        ⟨offset, offset + Text.utf8Length written.text⟩⟩
    -- the compact notation shows what is between the quotes and points at the entry
    | .error reason, .compact => .error ⟨source, .invalidLiteral written.body reason, entry⟩

namespace Descriptor

mutual

/-- The model that a descriptor denotes. -/
def toModel (dialect : Dialect) (source : String) : Descriptor → Except ParseError Model
  | simple kind => .ok (.simple kind)
  | nullable inner => return .nullable (← inner.toModel dialect source)
  | array element => return .array (← element.toModel dialect source)
  | object entries => return .object (← toEntries dialect source [] entries)
  | function parameters result => do
    let parameters ← toModels dialect source parameters
    let result ← result.toModel dialect source
    return .function parameters result

/-- The entries that some written entries denote, behind entries with the given keys. -/
def toEntries (dialect : Dialect) (source : String) (keys : List String) :
    List (Span × DescriptorKey × Descriptor) → Except ParseError (List (String × Model))
  | [] => .ok []
  | (span, key, descriptor) :: rest => do
    let name ← key.decode dialect source span
    let model ← descriptor.toModel dialect source
    -- a repeated key is found after its own model was read, so an error in that comes first
    if name ∈ keys then .error ⟨source, .duplicateKey name, span⟩
    else return (name, model) :: (← toEntries dialect source (name :: keys) rest)

/-- The models that some descriptors denote. -/
def toModels (dialect : Dialect) (source : String) :
    List Descriptor → Except ParseError (List Model)
  | [] => .ok []
  | descriptor :: rest => do
    let model ← descriptor.toModel dialect source
    return model :: (← toModels dialect source rest)

end

end Descriptor

/-! ### Keys -/

namespace DescriptorKey

/-- Reads a quoted key by one rule, or a bare one by another. -/
def scan {ρ : Type} (quotedRule bareRule : ρ) : Scan ρ DescriptorKey :=
  (do let offset ← Scan.place
      let written ← Scan.token quotedRule (Grammar.readQuoted '"') Grammar.QuotedText.text
      return quoted offset written)
  <|> (bare <$> Scan.token bareRule Grammar.readName id)

/-- Reads an entry: a key, a colon and a descriptor. -/
def scanEntry {ρ : Type} (key : Scan ρ DescriptorKey) (type : Scan ρ Descriptor) :
    Scan ρ (Span × DescriptorKey × Descriptor) := do
  let start ← Scan.place
  let key ← key
  Scan.gap
  Scan.exactly [':']
  Scan.gap
  let descriptor ← type
  let stop ← Scan.place
  return (⟨start, stop⟩, key, descriptor)

end DescriptorKey

end CheckedExpr
