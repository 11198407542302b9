import CheckedExpr.Model.Layer

/-!
# Models as data

Data as other programs exchange it is made of texts, numbers, lists and records. A model is a record
with a single field, whose name tells the outermost layer. A reader is strict about layers, and
ignores further fields only in what belongs to a function.
-/

namespace CheckedExpr

/-- A piece of data. -/
inductive Form where
  | null
  | boolean (b : Bool)
  /-- A whole number over a power of ten. -/
  | number (mantissa : Int) (places : Nat)
  | text (s : String)
  | list (items : List Form)
  | record (fields : List (String × Form))
  deriving Repr, Inhabited

/-- The name of the field for the parameters of a function. -/
def Form.parametersField : String := "arguments"

/-- The name of the field for the result of a function. -/
def Form.resultField : String := "result"

/-- The simple kind that a piece of data names: by its name alone, or by a record with a single
field of that name, in which there is nothing. -/
def SimpleModel.ofForm? : Form → Option SimpleModel
  | .text name => ofTitle? name
  | .record [(name, .null)] => ofTitle? name
  | _ => none

namespace Model

mutual

/-- A model as data. -/
def toForm : Model → Form
  | simple kind => .record [(Layer.simple.name, .text kind.title)]
  | nullable inner => .record [(Layer.nullable.name, inner.toForm)]
  | array element => .record [(Layer.array.name, element.toForm)]
  | object entries => .record [(Layer.object.name, .list (entriesToForms entries))]
  | function parameters result =>
    .record [(Layer.function.name, .record [
      (Form.parametersField, .list (listToForms parameters)),
      (Form.resultField, result.toForm)])]

/-- Entries as data: lists of a key and a model. -/
def entriesToForms : List (String × Model) → List Form
  | [] => []
  | (key, m) :: rest => .list [.text key, m.toForm] :: entriesToForms rest

/-- Models as data. -/
def listToForms : List Model → List Form
  | [] => []
  | m :: rest => m.toForm :: listToForms rest

end

mutual

/-- The model that a piece of data stands for. -/
def ofForm? : Form → Option Model
  -- a record with further fields is no model
  | .record [(name, content)] =>
    match Layer.ofName? name with
    | some .simple => (SimpleModel.ofForm? content).map simple
    | some .nullable => (ofForm? content).map nullable
    | some .array => (ofForm? content).map array
    | some .object =>
      match content with
      | .list items => (entriesOfForms? items).map object
      | _ => none
    | some .function =>
      match content with
      | .record fields => do
        -- the fields of a function may come in any order, and others are ignored
        let parameters ← parametersOfFields? fields
        let result ← resultOfFields? fields
        return function parameters result
      | _ => none
    | none => none
  | _ => none

/-- The entries that some pieces of data stand for. -/
def entriesOfForms? : List Form → Option (List (String × Model))
  | [] => some []
  | .list [.text key, content] :: rest => do
    let m ← ofForm? content
    let entries ← entriesOfForms? rest
    return (key, m) :: entries
  | _ => none

/-- The models that some pieces of data stand for. -/
def listOfForms? : List Form → Option (List Model)
  | [] => some []
  | content :: rest => do
    let m ← ofForm? content
    let ms ← listOfForms? rest
    return m :: ms

/-- The parameters among the fields of a function. -/
def parametersOfFields? : List (String × Form) → Option (List Model)
  | [] => none
  | (name, content) :: rest =>
    -- of several fields with the name the first one counts, whatever is in it
    if name = Form.parametersField then
      match content with
      | .list items => listOfForms? items
      | _ => none
    else parametersOfFields? rest

/-- The result among the fields of a function. -/
def resultOfFields? : List (String × Form) → Option Model
  | [] => none
  | (name, content) :: rest =>
    if name = Form.resultField then ofForm? content else resultOfFields? rest

end

end Model

end CheckedExpr
