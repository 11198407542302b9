import CheckedExpr.Bytes.Varint
import CheckedExpr.Model.Layer

/-!
# Models as bytes

A model is written as the number of its outermost layer and then what is inside it. Lists are
written as their length and then their members, texts as the number of their bytes in UTF-8 and then
these bytes. A reader stops at the end of the model and does not look at what follows.
-/

namespace CheckedExpr

/-- The bytes of a text, their number first. -/
def Text.toBytes (text : String) : List UInt8 :=
  let bytes := text.toUTF8.data.toList
  Varint.write bytes.length ++ bytes

/-- Reads a text off the front of some bytes. -/
def Text.ofBytes? (bytes : List UInt8) : Option (String × List UInt8) := do
  let (length, rest) ← Varint.readLong bytes
  -- a length that goes past the end is no text, however much of it is there
  if rest.length < length then none
  else
    let text ← String.fromUTF8? (rest.take length).toByteArray
    return (text, rest.drop length)

namespace Model

mutual

/-- The bytes of a model. -/
def toBytes : Model → List UInt8
  | simple kind => Varint.write Layer.simple.number ++ Varint.write kind.toNumber
  | nullable inner => Varint.write Layer.nullable.number ++ inner.toBytes
  | array element => Varint.write Layer.array.number ++ element.toBytes
  | object entries =>
    Varint.write Layer.object.number ++ Varint.write entries.length ++ entriesToBytes entries
  | function parameters result =>
    Varint.write Layer.function.number ++ Varint.write parameters.length ++
      listToBytes parameters ++ result.toBytes

/-- The bytes of some entries. -/
def entriesToBytes : List (String × Model) → List UInt8
  | [] => []
  | (key, m) :: rest => Text.toBytes key ++ m.toBytes ++ entriesToBytes rest

/-- The bytes of some models. -/
def listToBytes : List Model → List UInt8
  | [] => []
  | m :: rest => m.toBytes ++ listToBytes rest

end

mutual

/-- Reads a model off the front of some bytes. Each layer and each member of a list takes a byte at
least, so `fuel` need not be more than the number of bytes. -/
def readBytes : (fuel : Nat) → List UInt8 → Option (Model × List UInt8)
  | 0, _ => none
  | fuel + 1, bytes => do
    -- the number of a layer has 32 bits, a length has 64
    let (number, rest) ← Varint.readShort bytes
    match ← Layer.ofNumber? number with
    | .simple =>
      let (number, rest) ← Varint.readShort rest
      let kind ← SimpleModel.ofNumber? number
      return (simple kind, rest)
    | .nullable =>
      let (inner, rest) ← readBytes fuel rest
      return (nullable inner, rest)
    | .array =>
      let (element, rest) ← readBytes fuel rest
      return (array element, rest)
    | .object =>
      let (length, rest) ← Varint.readLong rest
      let (entries, rest) ← readEntries fuel length rest
      return (object entries, rest)
    | .function =>
      let (length, rest) ← Varint.readLong rest
      let (parameters, rest) ← readList fuel length rest
      let (result, rest) ← readBytes fuel rest
      return (function parameters result, rest)

/-- Reads a number of entries. -/
def readEntries : (fuel length : Nat) → List UInt8 → Option (List (String × Model) × List UInt8)
  -- no fuel is needed to read nothing
  | _, 0, bytes => some ([], bytes)
  | 0, _, _ => none
  | fuel + 1, length + 1, bytes => do
    let (key, rest) ← Text.ofBytes? bytes
    let (m, rest) ← readBytes fuel rest
    let (entries, rest) ← readEntries fuel length rest
    return ((key, m) :: entries, rest)

/-- Reads a number of models. -/
def readList : (fuel length : Nat) → List UInt8 → Option (List Model × List UInt8)
  | _, 0, bytes => some ([], bytes)
  | 0, _, _ => none
  | fuel + 1, length + 1, bytes => do
    let (m, rest) ← readBytes fuel bytes
    let (ms, rest) ← readList fuel length rest
    return (m :: ms, rest)

end

/-- The model that some bytes begin with. -/
def ofBytes? (bytes : List UInt8) : Option Model :=
  (readBytes (bytes.length + 1) bytes).map (·.1)

end Model

end CheckedExpr
