import CheckedExpr.Proofs.InferenceRules
import CheckedExpr.Proofs.Outcomes

/-!
# Inference is sound for evaluation

An expression that has a model evaluates to values that inhabit it, unless a function of the host
fails: this holds in every scope of values that inhabit the models of the scope it was checked in,
and at every depth that the check allowed for.

* `Inference.exists_apply_of_binary`: what an operator makes of two values inhabits what inference
  makes of their models.
* `Expr.Sound`: what is proved of an expression, with one lemma for each kind of expression that
  derives it from the same of the parts.
* `Expr.sound`: it holds of every expression.
-/

namespace CheckedExpr

open Evaluation

variable {κ σ : Type} {host : Host κ σ}

/-! ### Scopes -/

/-- Whether values keep the promise of models: each name with a model has a value that inhabits it,
and so does `this`. -/
structure Scope.Inhabits (host : Host κ σ) (models : Scope Model) (values : Scope (Value κ)) :
    Prop where
  lookup : ∀ name m, models.lookup name = some m →
    ∃ v, values.lookup name = some v ∧ m.Inhabits host v
  this : models.this.Inhabits host values.this

/-! ### Operators -/

namespace Inference

variable {m n T : Model} {v w : Value κ}

/-- A unary operator makes a number or a truth value of whatever it is given. -/
theorem apply_inhabits_of_unary {op : UnaryOp} (h : unary op m = .ok T) :
    T.Inhabits host (op.apply v) := by
  rw [unary_eq_ok_iff] at h
  cases op with
  | plus | neg | bitNot => rw [h.2]; exact Model.inhabits_number _
  | not => rw [h.2]; exact Model.inhabits_boolean _

/-- Numbers have a sum and texts have one, and the sum is of the same kind. -/
theorem add_inhabits (hv : T.Inhabits host v) (hw : T.Inhabits host w)
    (hT : T = .number ∨ T = .string) : T.Inhabits host (v.add w) := by
  rcases hT with rfl | rfl
  · obtain ⟨x, rfl⟩ := Model.exists_number_of_inhabits hv
    obtain ⟨y, rfl⟩ := Model.exists_number_of_inhabits hw
    exact Model.inhabits_number _
  · obtain ⟨s, rfl⟩ := Model.exists_string_of_inhabits hv
    obtain ⟨t, rfl⟩ := Model.exists_string_of_inhabits hw
    exact Model.inhabits_string _

/-- **What an operator makes of two values inhabits what inference makes of their models.** The
operator `??` is left out, since evaluation decides it before the right operand has a value. -/
theorem exists_apply_of_binary {op : BinaryOp} (hop : op ≠ .nullish) (h : binary op m n = .ok T)
    (hv : m.Inhabits host v) (hw : n.Inhabits host w) :
    ∃ u, op.apply v w = .ok u ∧ T.Inhabits host u := by
  -- one case for each group of operators with a rule of its own
  rcases op.group_cases with rfl | rfl | rfl | hgroup | hgroup | hgroup
  · exact absurd rfl hop
  · obtain ⟨element, rfl, merged, -, -, rfl⟩ := binary_isIn_iff.mp h
    obtain ⟨identity, items, rfl, -⟩ := Model.inhabits_array_iff.mp hw
    exact ⟨_, rfl, Model.inhabits_boolean _⟩
  · obtain ⟨hlub, hT⟩ := binary_add_iff.mp h
    obtain ⟨hm, hn, -⟩ := Model.isLUB_pair_iff.mp hlub
    exact ⟨_, rfl, add_inhabits (Model.inhabits_of_le hm hv) (Model.inhabits_of_le hn hw) hT⟩
  · obtain ⟨merged, -, -, rfl⟩ := (binary_equality_iff hgroup).mp h
    cases op <;> first
      | exact ⟨_, rfl, Model.inhabits_boolean _⟩
      | exact absurd hgroup (by decide)
  · obtain ⟨merged, -, -, rfl⟩ := (binary_comparison_iff hgroup).mp h
    cases op <;> first
      | exact ⟨_, rfl, Model.inhabits_boolean _⟩
      | exact absurd hgroup (by decide)
  · obtain ⟨-, rfl⟩ := (binary_arithmetic_iff hgroup).mp h
    cases op <;> first
      | exact ⟨_, rfl, Model.inhabits_number _⟩
      | exact absurd hgroup (by decide)

/-- Values of models that parameters accept are arguments that inhabit the parameters. An argument
that is missing was typed as null and is undefined, which inhabits null as well. -/
theorem argumentsInhabit_of_acceptArguments {index : Nat} {parameters ms : List Model}
    {vs : List (Value κ)} (h : acceptArguments index parameters ms = .ok ())
    (hvs : List.Forall₂ (fun m v => m.Inhabits host v) ms vs) :
    Model.ArgumentsInhabit host parameters vs := by
  induction parameters generalizing index ms vs with
  | nil => exact Model.argumentsInhabit_nil vs
  | cons p ps ih =>
    obtain ⟨hp, hps⟩ := acceptArguments_cons_iff.mp h
    have hp := Model.le_iff_accepts.mpr hp
    rw [Model.argumentsInhabit_cons_iff]
    cases hvs with
    -- the arguments have run out: this one is typed as null
    | nil => exact ⟨Model.inhabits_of_le hp Model.inhabits_null_undefined, ih hps .nil⟩
    | cons hv hvs => exact ⟨Model.inhabits_of_le hp hv, ih hps hvs⟩

end Inference

/-! ### Expressions -/

namespace Expr

open Inference

/-- Whether every run of an expression yields what inhabits the model that inference finds. -/
def Sound (host : Host κ σ) (models : Scope Model) (values : Scope (Value κ)) (e : Expr) : Prop :=
  ∀ ⦃allowance larger T⦄, larger.Covers allowance → e.infer models allowance = .ok T →
    Yields host (T.Inhabits host) (e.evaluate host values larger)

variable {models : Scope Model} {values : Scope (Value κ)}

/-- A literal is a value of its model. -/
theorem sound_literal (value : Literal) : Sound host models values (literal value) := by
  intro allowance larger T hcovers h
  obtain ⟨inner, hinner, rfl⟩ := infer_literal_iff.mp h
  obtain ⟨inner', hinner', -⟩ := hcovers.enter hinner
  refine yields_descend hinner' ?_
  apply yields_pure
  cases value with
  | null => exact Model.inhabits_null
  | boolean b => exact Model.inhabits_boolean b
  | number x => exact Model.inhabits_number x
  | string s => exact Model.inhabits_string s

/-- A name has a value of its model. -/
theorem sound_identifier (hscope : Scope.Inhabits host models values) (name : String) :
    Sound host models values (identifier name) := by
  intro allowance larger T hcovers h
  obtain ⟨inner, hinner, hT⟩ := infer_identifier_iff.mp h
  obtain ⟨inner', hinner', -⟩ := hcovers.enter hinner
  obtain ⟨v, hlookup, hv⟩ := hscope.lookup name T hT
  refine yields_descend hinner' ?_
  rw [hlookup]
  exact yields_pure hv

theorem sound_this (hscope : Scope.Inhabits host models values) :
    Sound host models values this := by
  intro allowance larger T hcovers h
  obtain ⟨inner, hinner, rfl⟩ := infer_this_iff.mp h
  obtain ⟨inner', hinner', -⟩ := hcovers.enter hinner
  exact yields_descend hinner' (yields_pure hscope.this)

/-! Expressions in a row yield values that inhabit the models of their places. -/

/-- One by one, and in their order. -/
theorem yields_evaluateAll {es : List Expr} {ms : List Model} {allowance larger : Allowance}
    (hes : ∀ e ∈ es, Sound host models values e) (hcovers : larger.Covers allowance)
    (h : List.Forall₂ (fun e m => e.infer models allowance = .ok m) es ms) :
    Yields host (List.Forall₂ (fun m v => m.Inhabits host v) ms)
      (evaluateAll host values larger es) := by
  induction h with
  | nil => exact yields_pure .nil
  | cons he hrest ih =>
    obtain ⟨hfirst, hes⟩ := List.forall_mem_cons.mp hes
    refine (hfirst hcovers he).bind fun v hv => ?_
    refine (ih hes).bind fun vs hvs => ?_
    exact yields_pure (.cons hv hvs)

/-- The last of them counts, or what was there before if there is none. -/
theorem yields_evaluateLast {es : List Expr} {ms : List Model} {allowance larger : Allowance}
    {m : Model} {v : Value κ} (hes : ∀ e ∈ es, Sound host models values e)
    (hcovers : larger.Covers allowance)
    (h : List.Forall₂ (fun e m => e.infer models allowance = .ok m) es ms)
    (hv : m.Inhabits host v) :
    Yields host ((ms.getLastD m).Inhabits host) (evaluateLast host values larger v es) := by
  -- the value to fall back on is the one of the expression before
  induction h generalizing m v with
  | nil => exact yields_pure hv
  | cons he hrest ih =>
    obtain ⟨hfirst, hes⟩ := List.forall_mem_cons.mp hes
    rw [List.getLastD_cons]
    exact (hfirst hcovers he).bind fun w hw => ih hes hw

/-- The items inhabit the element, since it is above all of their models. -/
theorem sound_array {elements : List Expr} (hes : ∀ e ∈ elements, Sound host models values e) :
    Sound host models values (array elements) := by
  intro allowance larger T hcovers h
  obtain ⟨inner, hinner, ms, m, hms, -, hm, rfl⟩ := infer_array_iff.mp h
  obtain ⟨inner', hinner', hcovers⟩ := hcovers.enter hinner
  refine yields_descend hinner' ?_
  refine (yields_evaluateAll hes hcovers hms).bind fun vs hvs => ?_
  refine yields_newArray fun identity => Model.inhabits_array_iff.mpr ?_
  refine ⟨identity, vs, rfl, fun v hv => ?_⟩
  exact Model.inhabits_of_forall₂ hm.1 hvs v hv

/-- Unary operators do not ask what their operand is when they run. -/
theorem sound_unary {op : UnaryOp} {argument : Expr} {before : Bool}
    (hargument : Sound host models values argument) :
    Sound host models values (unary op argument before) := by
  intro allowance larger T hcovers h
  obtain ⟨inner, hinner, -, m, hm, hT⟩ := infer_unary_iff.mp h
  obtain ⟨inner', hinner', hcovers⟩ := hcovers.enter hinner
  refine yields_descend hinner' ?_
  exact (hargument hcovers hm).bind fun v _ => yields_pure (apply_inhabits_of_unary hT)

/-- Either operand may be the result, and the model is above both. -/
theorem sound_nullish {left right : Expr} (hleft : Sound host models values left)
    (hright : Sound host models values right) :
    Sound host models values (binary .nullish left right) := by
  intro allowance larger T hcovers h
  obtain ⟨inner, hinner, m, hm, n, hn, hT⟩ := infer_binary_iff.mp h
  obtain ⟨inner', hinner', hcovers⟩ := hcovers.enter hinner
  obtain ⟨hmT, hnT, -⟩ := Model.isLUB_pair_iff.mp (binary_nullish_iff.mp hT)
  refine yields_descend hinner' ?_
  refine (hleft hcovers hm).bind fun v hv => ?_
  -- a left operand that is there inhabits its model below the optional layer
  cases hnullish : v.isNullish with
  | true => exact (hright hcovers hn).mono fun w hw => Model.inhabits_of_le hnT hw
  | false =>
    exact yields_pure (Model.inhabits_of_le hmT (Model.inhabits_stripNullable hv hnullish))

/-- All other operators take the values of both operands. -/
theorem yields_binary {op : BinaryOp} (hop : op ≠ .nullish) {left right : Expr}
    {allowance inner : Allowance} {P : Value κ → Prop} (h : allowance.enter = .ok inner)
    (hvalues : Yields host P
      (do let v ← left.evaluate host values inner
          let w ← right.evaluate host values inner
          Evaluation.ofExcept (op.apply v w))) :
    Yields host P ((binary op left right).evaluate host values allowance) := by
  cases op <;> first | exact yields_descend h hvalues | exact absurd rfl hop

/-- Any other operator evaluates both operands and then cannot refuse them. -/
theorem sound_binary {op : BinaryOp} {left right : Expr} (hleft : Sound host models values left)
    (hright : Sound host models values right) :
    Sound host models values (binary op left right) := by
  -- the one operator that may leave its right side out is on its own
  by_cases hop : op = .nullish
  · rw [hop]
    exact sound_nullish hleft hright
  intro allowance larger T hcovers h
  obtain ⟨inner, hinner, m, hm, n, hn, hT⟩ := infer_binary_iff.mp h
  obtain ⟨inner', hinner', hcovers⟩ := hcovers.enter hinner
  refine yields_binary hop hinner' ?_
  refine (hleft hcovers hm).bind fun v hv => ?_
  refine (hright hcovers hn).bind fun w hw => ?_
  -- on values of these models the operator cannot fail
  obtain ⟨u, happly, hu⟩ := exists_apply_of_binary hop hT hv hw
  rw [happly]
  exact yields_pure hu

/-- One of two truth values is the result. -/
theorem sound_logical {op : LogicalOp} {left right : Expr} (hleft : Sound host models values left)
    (hright : Sound host models values right) :
    Sound host models values (logical op left right) := by
  intro allowance larger T hcovers h
  obtain ⟨inner, hinner, hm, hn, rfl⟩ := infer_logical_iff.mp h
  obtain ⟨inner', hinner', hcovers⟩ := hcovers.enter hinner
  -- the two operators differ in which truth value of the left operand decides
  cases op with
  | and =>
    refine yields_descend hinner' ((hleft hcovers hm).bind fun v hv => ?_)
    cases v.isTruthy with
    | true => exact hright hcovers hn
    | false => exact yields_pure hv
  | or =>
    refine yields_descend hinner' ((hleft hcovers hm).bind fun v hv => ?_)
    cases v.isTruthy with
    | true => exact yields_pure hv
    | false => exact hright hcovers hn

/-- One of two branches is the result. -/
theorem sound_conditional {test consequent alternate : Expr}
    (htest : Sound host models values test) (hconsequent : Sound host models values consequent)
    (halternate : Sound host models values alternate) :
    Sound host models values (conditional test consequent alternate) := by
  intro allowance larger T hcovers h
  obtain ⟨inner, hinner, ht, m, hm, n, hn, hT⟩ := infer_conditional_iff.mp h
  obtain ⟨inner', hinner', hcovers⟩ := hcovers.enter hinner
  obtain ⟨hmT, hnT, -⟩ := Model.isLUB_pair_iff.mp hT
  refine yields_descend hinner' ?_
  refine (htest hcovers ht).bind fun v _ => ?_
  -- the model is the join of both branches, so either one may be taken
  cases v.isTruthy with
  | true => exact (hconsequent hcovers hm).mono fun w hw => Model.inhabits_of_le hmT hw
  | false => exact (halternate hcovers hn).mono fun w hw => Model.inhabits_of_le hnT hw

/-- The last expression is the result. -/
theorem sound_sequence {body : List Expr} (hes : ∀ e ∈ body, Sound host models values e) :
    Sound host models values (sequence body) := by
  intro allowance larger T hcovers h
  obtain ⟨inner, hinner, ms, hms, rfl⟩ := infer_sequence_iff.mp h
  obtain ⟨inner', hinner', hcovers⟩ := hcovers.enter hinner
  refine yields_descend hinner' ?_
  -- a sequence of nothing is undefined, and is typed as null
  exact yields_evaluateLast hes hcovers hms Model.inhabits_null_undefined

/-- An item of an array may be absent, and so may be what the item's model calls optional. -/
theorem exists_read_of_index {element : Model} {v key : Value κ}
    (hv : (Model.array element).Inhabits host v) (hkey : Model.number.Inhabits host key) :
    ∃ item, v.read? key = some item ∧
      (Model.nullable element.stripNullable).Inhabits host item := by
  obtain ⟨x, rfl⟩ := Model.exists_number_of_inhabits hkey
  obtain ⟨identity, items, rfl, hitems⟩ := Model.inhabits_array_iff.mp hv
  refine ⟨_, rfl, Model.inhabits_nullable_iff.mpr ?_⟩
  change (Option.getD ((Number.indexBelow? items.length x).bind (items[·]?))
    .undefined).isNullish = true ∨ _
  cases hitem : (Number.indexBelow? items.length x).bind (items[·]?) with
  -- no index, or none below the length: there is no item
  | none => exact Or.inl rfl
  | some item =>
    obtain ⟨i, -, hi⟩ := Option.bind_eq_some_iff.mp hitem
    have hinhabits := hitems item (List.mem_of_getElem? hi)
    rw [Value.readArray, hitem]
    cases hnullish : item.isNullish with
    | true => exact Or.inl hnullish
    | false => exact Or.inr (Model.inhabits_stripNullable hinhabits hnullish)

/-- A field that is declared can be read, and inhabits its model even if it is missing. -/
theorem exists_read_of_field {entries : List (String × Model)} {key : String} {m : Model}
    {v : Value κ} (hkey : entries.lookup key = some m)
    (hv : (Model.object entries).Inhabits host v) :
    ∃ field, v.read? (.string key) = some field ∧ m.Inhabits host field := by
  obtain ⟨identity, fields, rfl, hfields⟩ := Model.inhabits_object_iff.mp hv
  obtain ⟨before, after, rfl, -⟩ := List.lookup_eq_some_iff.mp hkey
  exact ⟨_, rfl, hfields (key, m) (by simp)⟩

/-- An item or a field is as its model says. -/
theorem sound_member {computed : Bool} {object property : Expr}
    (hobject : Sound host models values object) (hproperty : Sound host models values property) :
    Sound host models values (member computed object property) := by
  intro allowance larger T hcovers h
  cases computed with
  | true =>
    obtain ⟨inner, hinner, element, hm, hkey, rfl⟩ := infer_index_iff.mp h
    obtain ⟨inner', hinner', hcovers⟩ := hcovers.enter hinner
    refine yields_descend hinner' ?_
    refine (hobject hcovers hm).bind fun v hv => ?_
    refine (hproperty hcovers hkey).bind fun key hkey => ?_
    -- an index beyond the items reads as undefined, which the model allows
    obtain ⟨item, hread, hitem⟩ := exists_read_of_index hv hkey
    exact yields_read hread hitem
  | false =>
    obtain ⟨inner, hinner, key, entries, rfl, hm, hlookup⟩ := infer_field_iff.mp h
    obtain ⟨inner', hinner', hcovers⟩ := hcovers.enter hinner
    refine yields_descend hinner' ?_
    refine (hobject hcovers hm).bind fun v hv => ?_
    obtain ⟨field, hread, hfield⟩ := exists_read_of_field hlookup hv
    exact yields_read hread hfield

/-- A function that keeps its word answers fitting arguments with what inhabits the result, or
fails. -/
theorem sound_call {callee : Expr} {arguments : List Expr}
    (hcallee : Sound host models values callee)
    (hes : ∀ e ∈ arguments, Sound host models values e) :
    Sound host models values (call callee arguments) := by
  intro allowance larger T hcovers h
  obtain ⟨inner, hinner, parameters, ms, hm, hms, haccept⟩ := infer_call_iff.mp h
  obtain ⟨inner', hinner', hcovers⟩ := hcovers.enter hinner
  refine yields_descend hinner' ?_
  refine (hcallee hcovers hm).bind fun v hv => ?_
  refine (yields_evaluateAll hes hcovers hms).bind fun vs hvs => ?_
  exact yields_call hv (argumentsInhabit_of_acceptArguments haccept hvs)

/-- **Every expression is sound** in scopes whose values keep the promise of the models. -/
theorem sound (hscope : Scope.Inhabits host models values) (e : Expr) :
    Sound host models values e := by
  -- one lemma for each constructor, and nothing else is looked at here
  induction e using tree_induction with
  | array _ hes => exact sound_array hes
  | binary _ _ _ hleft hright => exact sound_binary hleft hright
  | call _ _ hcallee hes => exact sound_call hcallee hes
  | sequence _ hes => exact sound_sequence hes
  | conditional _ _ _ htest hconsequent halternate =>
    exact sound_conditional htest hconsequent halternate
  | identifier name => exact sound_identifier hscope name
  | literal value => exact sound_literal value
  | logical _ _ _ hleft hright => exact sound_logical hleft hright
  | member _ _ _ hobject hproperty => exact sound_member hobject hproperty
  | this => exact sound_this hscope
  | unary _ _ _ hargument => exact sound_unary hargument

end Expr

end CheckedExpr
