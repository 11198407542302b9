import CheckedExpr.Text.Quoted

/-!
# Models of values

A model says of which shape a value is: one of the simple kinds, something that may be absent, an
array of one kind of element, an object with declared entries, or a function. Models are compared
as trees, so the order of entries and the number of optional layers matter.

`Model.text` writes a model in the verbose notation of descriptors.
-/

namespace CheckedExpr

/-- The kinds of values without parts. -/
inductive SimpleModel where
  | null | number | string | boolean
  deriving DecidableEq, Repr

/-- The name of a simple kind. -/
def SimpleModel.name : SimpleModel → String
  | null => "null"
  | number => "number"
  | string => "string"
  | boolean => "boolean"

/-- The shape of a value. -/
inductive Model where
  | simple (kind : SimpleModel)
  /-- Absent, or of the inner shape. -/
  | nullable (inner : Model)
  | array (element : Model)
  /-- Entries in the order in which they are declared. -/
  | object (entries : List (String × Model))
  | function (parameters : List Model) (result : Model)
  deriving Repr, Inhabited

namespace Model

/-! ### Equality -/

mutual

/-- Decides whether two models are the same tree. -/
def decideEq : (a b : Model) → Decidable (a = b)
  | simple a, simple b =>
    if h : a = b then isTrue (by rw [h]) else isFalse (by simpa using h)
  | nullable a, nullable b =>
    match decideEq a b with
    | isTrue h => isTrue (by rw [h])
    | isFalse h => isFalse (by simpa using h)
  | array a, array b =>
    match decideEq a b with
    | isTrue h => isTrue (by rw [h])
    | isFalse h => isFalse (by simpa using h)
  | object as, object bs =>
    match decideEqEntries as bs with
    | isTrue h => isTrue (by rw [h])
    | isFalse h => isFalse (by simpa using h)
  | function as a, function bs b =>
    match decideEqAll as bs, decideEq a b with
    | isTrue h, isTrue h' => isTrue (by rw [h, h'])
    | isFalse h, _ => isFalse (by simp [h])
    | _, isFalse h => isFalse (by simp [h])
  -- different outermost layers are different models, pair by pair
  | simple _, nullable _ | simple _, array _ | simple _, object _ | simple _, function .. =>
    isFalse (by simp)
  | nullable _, simple _ | nullable _, array _ | nullable _, object _ | nullable _, function .. =>
    isFalse (by simp)
  | array _, simple _ | array _, nullable _ | array _, object _ | array _, function .. =>
    isFalse (by simp)
  | object _, simple _ | object _, nullable _ | object _, array _ | object _, function .. =>
    isFalse (by simp)
  | function .., simple _ | function .., nullable _ | function .., array _
  | function .., object _ => isFalse (by simp)

/-- Decides whether two rows of entries are the same. -/
def decideEqEntries : (as bs : List (String × Model)) → Decidable (as = bs)
  | [], [] => isTrue rfl
  | [], _ :: _ => isFalse (by simp)
  | _ :: _, [] => isFalse (by simp)
  | (key, a) :: as, (key', b) :: bs =>
    if h : key = key' then
      match decideEq a b, decideEqEntries as bs with
      | isTrue h', isTrue h'' => isTrue (by rw [h, h', h''])
      | isFalse h', _ => isFalse (by simp [h'])
      | _, isFalse h' => isFalse (by simp [h'])
    else isFalse (by simp [h])

/-- Decides whether two rows of models are the same. -/
def decideEqAll : (as bs : List Model) → Decidable (as = bs)
  | [], [] => isTrue rfl
  | [], _ :: _ => isFalse (by simp)
  | _ :: _, [] => isFalse (by simp)
  | a :: as, b :: bs =>
    match decideEq a b, decideEqAll as bs with
    | isTrue h, isTrue h' => isTrue (by rw [h, h'])
    | isFalse h, _ => isFalse (by simp [h])
    | _, isFalse h => isFalse (by simp [h])

end

instance : DecidableEq Model := decideEq

/-! ### Parts -/

/-- The model of absent values. -/
def null : Model := simple .null

/-- The model of numbers. -/
def number : Model := simple .number

/-- The model of texts. -/
def string : Model := simple .string

/-- The model of truth values. -/
def boolean : Model := simple .boolean

/-- The model without its outermost optional layer, if it has one. -/
def stripNullable : Model → Model
  | nullable inner => inner
  | other => other

/-- Whether a value of the model may be absent by an outermost optional layer. -/
def isNullable : Model → Bool
  | nullable _ => true
  | _ => false

/-- The simple kind that a model is, if it is one. -/
def asSimple? : Model → Option SimpleModel
  | simple kind => some kind
  | _ => none

/-- Whether a model is a simple kind. -/
def isSimple (m : Model) : Bool := m.asSimple?.isSome

/-- The model declared for a key, if the model is that of an object. -/
def entry? (m : Model) (key : String) : Option Model :=
  match m with
  | object entries => entries.lookup key
  | _ => none

/-- The name of the outermost layer. -/
def kindName : Model → String
  | simple _ => "simple"
  | nullable _ => "optional"
  | array _ => "array"
  | object _ => "object"
  | function .. => "function"

@[simp] theorem stripNullable_nullable (m : Model) : (nullable m).stripNullable = m := rfl

/-! ### Text -/

mutual

/-- The model in the verbose notation. -/
def text : Model → String
  | simple kind => kind.name
  | nullable inner => "optional(" ++ inner.text ++ ")"
  | array element => "array(" ++ element.text ++ ")"
  | object entries => "object(" ++ entriesText entries ++ ")"
  -- the result stands behind the brackets and is not separated by a comma
  | function parameters result => "function(" ++ listText parameters ++ ") " ++ result.text

/-- Entries with commas between them. -/
def entriesText : List (String × Model) → String
  | [] => ""
  | [(key, m)] => Text.quoted key ++ ": " ++ m.text
  | (key, m) :: next :: rest =>
    Text.quoted key ++ ": " ++ m.text ++ ", " ++ entriesText (next :: rest)

/-- Models with commas between them. -/
def listText : List Model → String
  | [] => ""
  | [m] => m.text
  | m :: next :: rest => m.text ++ ", " ++ listText (next :: rest)

end

end Model

end CheckedExpr
