import CheckedExpr.Value.Conforms

/-!
# Bindings

A value together with a model that it is known to be of. A binding is made by checking a value
against a model, or from data of the host whose model is known from its type.

* `HostType.conforms_toValue`: what the type of data tells about its value is right.
-/

namespace CheckedExpr

/-- A value of a model. -/
structure Binding (κ : Type) where
  model : Model
  value : Value κ
  conforms : model.conforms value = true

namespace Binding

variable {κ : Type}

/-- A value as one of a model, if it is one. -/
def ofValue? (model : Model) (value : Value κ) : Option (Binding κ) :=
  if h : model.conforms value = true then some ⟨model, value, h⟩ else none

/-- Whether two bindings hold the same under the same model. -/
def equal (a b : Binding κ) : Bool := a.model == b.model && a.value.equal b.value

/-- A binding is made of exactly the model and the value that are given, and if it is made, the
value conforms. -/
theorem ofValue?_eq_some_iff {model : Model} {value : Value κ} {b : Binding κ} :
    ofValue? model value = some b ↔ model = b.model ∧ value = b.value := by
  unfold ofValue?
  constructor
  · intro hmade
    split at hmade
    next => cases hmade; exact ⟨rfl, rfl⟩
    next => cases hmade
  · rintro ⟨rfl, rfl⟩
    simp [b.conforms]

end Binding

/-- The types of data of a host that need no check. -/
inductive HostType where
  | unit | boolean | number | string
  /-- Data that may be missing. -/
  | optional (inner : HostType)
  deriving DecidableEq, Repr

namespace HostType

variable {κ : Type}

/-- The data of a type. -/
def Carrier : HostType → Type
  | unit => Unit
  | boolean => Bool
  | number => Float
  | string => String
  | optional inner => Option inner.Carrier

/-- The model of the data of a type. -/
def model : HostType → Model
  | unit => .null
  | boolean => .boolean
  | number => .number
  | string => .string
  | optional inner => .nullable inner.model

/-- A piece of data as a value. What is missing is null at every level. -/
def toValue : (type : HostType) → type.Carrier → Value κ
  | unit, _ => .undefined
  | boolean, b => .boolean b
  | number, x => .number x
  | string, s => .string s
  | optional _, none => .null
  | optional inner, some x => inner.toValue x

/-- The type of a piece of data tells a model that its value conforms to, so that no check is
needed. -/
theorem conforms_toValue (type : HostType) (x : type.Carrier) :
    type.model.conforms (type.toValue x : Value κ) = true := by
  -- by induction on the type: each layer of it that may be missing is a layer of the model
  induction type with
  | unit => rfl
  | boolean => rfl
  | number => rfl
  | string => rfl
  | optional inner ih =>
    cases x with
    | none => simp [model, toValue, Model.conforms, Value.isNullish]
    | some x => simp [model, toValue, Model.conforms, ih]

end HostType

/-- The binding of a piece of data. -/
def Binding.ofHost {κ : Type} (type : HostType) (x : type.Carrier) : Binding κ :=
  ⟨type.model, type.toValue x, type.conforms_toValue x⟩

end CheckedExpr
