import CheckedExpr.Model

/-!
# The layers of models, numbered and named

Where models are written down for other programs, every layer of a model and every simple kind goes
by a number or by a name, which are given here.

* `Layer.ofNumber?_number`, `Layer.ofName?_name`, and the same for simple kinds: numbers and names
  lead back to what they stand for.
-/

namespace CheckedExpr

/-- A layer of a model, without what is inside it. -/
inductive Layer where
  | simple | nullable | array | object | function
  deriving DecidableEq, Repr

namespace Layer

/-- All of them in the order of their numbers. -/
def all : List Layer := [simple, nullable, array, object, function]

/-- The number that a layer goes by. -/
def number : Layer → Nat
  | simple => 0
  | nullable => 1
  | array => 2
  | object => 3
  | function => 4

/-- The layer with a number. -/
def ofNumber? (n : Nat) : Option Layer := all[n]?

/-- The name that a layer goes by. -/
def name : Layer → String
  | simple => "Simple"
  | nullable => "Nullable"
  | array => "Array"
  | object => "Object"
  | function => "Function"

/-- The layer with a name. -/
def ofName? (text : String) : Option Layer := all.find? (·.name == text)

/-- The number of a layer leads back to it, so no two layers share one. -/
theorem ofNumber?_number (layer : Layer) : ofNumber? layer.number = some layer := by
  cases layer <;> rfl

/-- The name of a layer leads back to it. -/
theorem ofName?_name (layer : Layer) : ofName? layer.name = some layer := by
  cases layer <;> decide

end Layer

namespace SimpleModel

/-- All of them in the order of their numbers. -/
def all : List SimpleModel := [null, number, string, boolean]

/-- The number that a simple kind goes by. -/
def toNumber : SimpleModel → Nat
  | null => 0
  | number => 1
  | string => 2
  | boolean => 3

/-- The simple kind with a number. -/
def ofNumber? (n : Nat) : Option SimpleModel := all[n]?

/-- The name that a simple kind goes by. -/
def title : SimpleModel → String
  | null => "Null"
  | number => "Number"
  | string => "String"
  | boolean => "Boolean"

/-- The simple kind with a name. -/
def ofTitle? (text : String) : Option SimpleModel := all.find? (·.title == text)

/-- The number of a simple kind leads back to it. -/
theorem ofNumber?_toNumber (kind : SimpleModel) : ofNumber? kind.toNumber = some kind := by
  cases kind <;> rfl

/-- The name of a simple kind leads back to it. -/
theorem ofTitle?_title (kind : SimpleModel) : ofTitle? kind.title = some kind := by
  cases kind <;> decide

end SimpleModel

end CheckedExpr
