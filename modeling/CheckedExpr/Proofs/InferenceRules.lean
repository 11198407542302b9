import CheckedExpr.Inference
import CheckedExpr.Proofs.ModelOrder
import CheckedExpr.Proofs.Parts
import Mathlib.Data.List.Forall2

/-!
# What inference asks of an expression

For each kind of expression, exactly when inference succeeds and with which model. The conditions
are stated in the order of models: where parts meet, the model is the least upper bound of theirs.
Every later fact about successful inference takes an expression apart by these equivalences and
does not look at the steps of `Expr.infer` again.

* `Inference.binary_nullish_iff` and its neighbours: the rules of binary operators, one for each
  group of operators that share one.
* `Expr.infer_array_iff`, `Expr.infer_call_iff` and their neighbours: the rules of expressions.
* `Expr.exists_infer_of_mem_parts`: no rule leaves a part out.
-/

namespace CheckedExpr

namespace Inference

/-! ### Single demands -/

theorem pure_eq_ok_iff {α : Type} {a b : α} :
    (pure a : Except InferError α) = .ok b ↔ a = b := by
  simp [pure, Except.pure]

theorem throw_ne_ok {α : Type} {e : InferError} {a : α} :
    (throw e : Except InferError α) ≠ .ok a := by
  simp [throw, throwThe, MonadExceptOf.throw]

/-- The error that inference makes of a limit reached is put on from outside: it does not bear on
which levels can be entered. -/
theorem descend_eq_ok_iff {allowance inner : Allowance} :
    descend allowance = .ok inner ↔ allowance.enter = .ok inner :=
  Except.mapError_eq_ok_iff

/-- A demand hands nothing back, so it succeeds exactly where it is met. -/
theorem require_eq_ok_iff {requirement : Requirement} {m : Model} {u : Unit} :
    require requirement m = .ok u ↔ requirement.isMetBy m = true := by
  unfold require
  split <;> simp [*]

/-- A simple model accepts itself only, so the demand for one leaves no choice of the model. -/
theorem require_simple_eq_ok_iff {kind : SimpleModel} {m : Model} {u : Unit} :
    require (.model (.simple kind)) m = .ok u ↔ m = .simple kind := by
  rw [require_eq_ok_iff]
  exact Model.accepts_simple_iff

/-- What inference calls merging is the least upper bound in the order of models. -/
theorem merge_eq_ok_iff {a b m : Model} : merge (some a) b = .ok m ↔ IsLUB {a, b} m := by
  rw [← Model.merge_eq_ok_iff_isLUB]
  exact Except.mapError_eq_ok_iff

/-- Arrays alone have elements; a nullable array has none to give. -/
theorem elementOf_eq_ok_iff {m element : Model} :
    elementOf m = .ok element ↔ m = .array element := by
  cases m <;> simp [elementOf]

/-- An entry is read off an object model that lists the name. -/
theorem entryOf_eq_ok_iff {key : String} {m entry : Model} :
    entryOf key m = .ok entry ↔
      ∃ entries, m = .object entries ∧ entries.lookup key = some entry := by
  cases m with
  | object entries =>
    cases h : entries.lookup key <;> simp [entryOf, h]
  | simple | nullable | array | function => simp [entryOf]

theorem signatureOf_eq_ok_iff {m result : Model} {parameters : List Model} :
    signatureOf m = .ok (parameters, result) ↔ m = .function parameters result := by
  cases m <;> simp [signatureOf]

/-- An argument that is missing counts as null, and arguments without a parameter are not looked at:
`headD` and `tail` say both. -/
theorem acceptArguments_cons_iff {index : Nat} {parameter : Model}
    {parameters arguments : List Model} {u : Unit} :
    acceptArguments index (parameter :: parameters) arguments = .ok u ↔
      parameter.accepts (arguments.headD .null) = true ∧
        acceptArguments (index + 1) parameters arguments.tail = .ok u := by
  rw [acceptArguments]
  by_cases h : parameter.accepts (arguments.headD .null) = true
  · rw [if_pos h, and_iff_right h]
  · rw [if_neg h]
    exact iff_of_false (by simp) (fun hand => h hand.1)

/-! ### Operators -/

/-- What comparisons and sums ask of the model that their operands meet in. -/
theorem isMetBy_numberOrString_iff {m : Model} :
    Requirement.numberOrString.isMetBy m = true ↔ m = .number ∨ m = .string := by
  rw [Requirement.isMetBy, Bool.or_eq_true]
  exact or_congr Model.accepts_simple_iff Model.accepts_simple_iff

/-- What the two unary operators that convert ask of their operand. -/
theorem isMetBy_primitive_iff {m : Model} :
    Requirement.primitive.isMetBy m = true ↔ m = .boolean ∨ m = .number ∨ m = .string := by
  rw [Requirement.isMetBy, Bool.or_eq_true, Bool.or_eq_true, or_assoc]
  exact or_congr Model.accepts_simple_iff
    (or_congr Model.accepts_simple_iff Model.accepts_simple_iff)

/-- The rules of all unary operators in one table, with the model of the result. -/
theorem unary_eq_ok_iff {op : UnaryOp} {m T : Model} :
    unary op m = .ok T ↔
      match op with
      | .plus => (m = .boolean ∨ m = .number ∨ m = .string) ∧ T = .number
      | .not => (m = .boolean ∨ m = .number ∨ m = .string) ∧ T = .boolean
      | .neg | .bitNot => m = .number ∧ T = .number := by
  cases op
  -- two operators take any primitive value, the other two take numbers
  case plus | not =>
    simp only [unary, Except.bind_eq_ok_iff, require_eq_ok_iff, isMetBy_primitive_iff,
      pure_eq_ok_iff, exists_const, eq_comm (a := T)]
  case neg | bitNot =>
    simp only [unary, Model.number, Except.bind_eq_ok_iff, require_simple_eq_ok_iff,
      pure_eq_ok_iff, exists_const]
    constructor
    · rintro ⟨rfl, rfl⟩
      exact ⟨rfl, rfl⟩
    · rintro ⟨rfl, rfl⟩
      exact ⟨rfl, rfl⟩

variable {op : BinaryOp} {m n T : Model}

/-- Two operands that meet, a demand on their merge, and a result. -/
theorem merge_require_iff {r : Requirement} {f : Model → Model} :
    (do let merged ← merge (some m) n
        require r merged
        return f merged) = .ok T ↔
      ∃ merged, IsLUB {m, n} merged ∧ r.isMetBy merged = true ∧ f merged = T := by
  simp only [Except.bind_eq_ok_iff, merge_eq_ok_iff, require_eq_ok_iff, pure_eq_ok_iff,
    exists_const]

/-- Where the result is the merge itself, the demand is one on the result. -/
theorem merge_require_self_iff {r : Requirement} :
    (do let merged ← merge (some m) n
        require r merged
        return merged) = .ok T ↔ IsLUB {m, n} T ∧ r.isMetBy T = true := by
  refine (merge_require_iff (f := id)).trans ?_
  constructor
  · rintro ⟨merged, hlub, hmet, rfl⟩
    exact ⟨hlub, hmet⟩
  · rintro ⟨hlub, hmet⟩
    exact ⟨T, hlub, hmet, rfl⟩

/-- The left operand is used only when it is not null, so it meets the other one without its
nullability. -/
theorem binary_nullish_iff : binary .nullish m n = .ok T ↔ IsLUB {m.stripNullable, n} T :=
  -- nothing is asked of the merge here, so the rule is the one of merging
  merge_eq_ok_iff

/-- The element model and the left operand meet in something simple; the element may be nullable,
and so may the left operand. -/
theorem binary_isIn_iff :
    binary .isIn m n = .ok T ↔ ∃ element, n = .array element ∧
      ∃ merged, IsLUB {element.stripNullable, m} merged ∧
        merged.stripNullable.isSimple = true ∧ .boolean = T := by
  simp only [binary, Except.bind_eq_ok_iff, elementOf_eq_ok_iff, merge_eq_ok_iff,
    require_eq_ok_iff, pure_eq_ok_iff, exists_const]
  exact Iff.rfl

/-- Equality asks its operands to meet in a simple model, up to null. -/
theorem binary_equality_iff (h : op.isEquality = true) :
    binary op m n = .ok T ↔ ∃ merged, IsLUB {m, n} merged ∧
      merged.stripNullable.isSimple = true ∧ .boolean = T := by
  have hrule := merge_require_iff (m := m) (n := n) (T := T) (r := .simple) (f := fun _ => .boolean)
  -- the operators of the group are typed by the same steps, and no other operator is in it
  cases op <;> first | exact hrule | exact absurd h (by decide)

/-- Comparison takes two numbers or two strings, and neither may be null. -/
theorem binary_comparison_iff (h : op.isComparison = true) :
    binary op m n = .ok T ↔ ∃ merged, IsLUB {m, n} merged ∧
      (merged = .number ∨ merged = .string) ∧ .boolean = T := by
  have hrule := merge_require_iff (m := m) (n := n) (T := T) (r := .numberOrString)
    (f := fun _ => .boolean)
  simp only [isMetBy_numberOrString_iff] at hrule
  cases op <;> first | exact hrule | exact absurd h (by decide)

/-- A sum is a number or a string, and its operands are what it is. -/
theorem binary_add_iff :
    binary .add m n = .ok T ↔ IsLUB {m, n} T ∧ (T = .number ∨ T = .string) := by
  rw [← isMetBy_numberOrString_iff]
  exact merge_require_self_iff

end Inference

/-- Whether an operator works on numbers only. -/
def BinaryOp.isArithmetic (op : BinaryOp) : Bool :=
  op.isBitwise || op == rem || op == sub || op == mul || op == div

/-- Every operator belongs to a group that has one rule. -/
theorem BinaryOp.group_cases (op : BinaryOp) :
    op = nullish ∨ op = isIn ∨ op = add ∨ op.isEquality = true ∨ op.isComparison = true ∨
      op.isArithmetic = true := by
  cases op <;> decide

/-- All operators on numbers share one rule: the operands meet in the number model, which is the
result. -/
theorem Inference.binary_arithmetic_iff {op : BinaryOp} {m n T : Model}
    (h : op.isArithmetic = true) :
    binary op m n = .ok T ↔ IsLUB {m, n} T ∧ T = .number := by
  have hrule := merge_require_self_iff (m := m) (n := n) (T := T) (r := .model .number)
  have hnumber : Requirement.isMetBy (.model .number) T = true ↔ T = .number :=
    Model.accepts_simple_iff
  rw [hnumber] at hrule
  cases op <;> first | exact hrule | exact absurd h (by decide)

/-! ### Lists -/

namespace Expr

open Inference

variable {scope : Scope Model} {allowance : Allowance}

/-- The models of a list are found one by one, in the scope and at the level of the list. -/
theorem inferAll_eq_ok_iff {es : List Expr} {ms : List Model} :
    inferAll scope allowance es = .ok ms ↔
      List.Forall₂ (fun e m => e.infer scope allowance = .ok m) es ms := by
  induction es generalizing ms with
  | nil =>
    rw [inferAll, pure_eq_ok_iff, List.forall₂_nil_left_iff]
    exact eq_comm
  | cons e es ih =>
    simp only [inferAll, Except.bind_eq_ok_iff, ih, pure_eq_ok_iff, List.forall₂_cons_left_iff]
    constructor
    · rintro ⟨m, hm, ms, hms, rfl⟩
      exact ⟨m, ms, hm, hms, rfl⟩
    · rintro ⟨m, ms, hm, hms, rfl⟩
      exact ⟨m, hm, ms, hms, rfl⟩

/-- The bounds of a list are those of the set of its members, which grows by insertion. -/
theorem setOf_mem_cons {m : Model} {ms : List Model} :
    {x | x ∈ m :: ms} = insert m {x | x ∈ ms} := by
  ext x
  simp

/-- Models that are merged into one that is known already end in the join of them all. -/
theorem inferMerged_some_eq_ok_iff {known : Model} {es : List Expr} {merged : Option Model} :
    inferMerged scope allowance (some known) es = .ok merged ↔
      ∃ ms m, List.Forall₂ (fun e m => e.infer scope allowance = .ok m) es ms ∧
        IsLUB (insert known {x | x ∈ ms}) m ∧ merged = some m := by
  induction es generalizing known with
  | nil =>
    rw [inferMerged, pure_eq_ok_iff]
    constructor
    · rintro rfl
      exact ⟨[], known, .nil, by simp, rfl⟩
    · rintro ⟨ms, m, hms, hm, rfl⟩
      rw [List.forall₂_nil_left_iff.mp hms] at hm
      have hm : IsLUB {known} m := by simpa using hm
      rw [hm.unique isLUB_singleton]
  | cons e es ih =>
    -- the next model is merged into the known one, and their join stands for both from there on
    simp only [inferMerged, Except.bind_eq_ok_iff, ih, merge_eq_ok_iff]
    constructor
    · rintro ⟨m₁, hm₁, known', hknown', ms, m, hms, hm, rfl⟩
      refine ⟨m₁ :: ms, m, .cons hm₁ hms, ?_, rfl⟩
      rw [setOf_mem_cons]
      exact Model.exists_isLUB_insert_iff.mp ⟨known', hknown', hm⟩
    · rintro ⟨_, m, hall, hm, rfl⟩
      obtain ⟨m₁, ms, hm₁, hms, rfl⟩ := List.forall₂_cons_left_iff.mp hall
      rw [setOf_mem_cons] at hm
      obtain ⟨known', hknown', hm⟩ := Model.exists_isLUB_insert_iff.mpr hm
      exact ⟨m₁, hm₁, known', hknown', ms, m, hms, hm, rfl⟩

/-- **The rule of elements that meet.** Some expressions have a merged model exactly if each has a
model, there is one at least, and their models have a join, which is then the merged one. -/
theorem inferMerged_none_eq_ok_iff {es : List Expr} {m : Model} :
    inferMerged scope allowance none es = .ok (some m) ↔
      ∃ ms, List.Forall₂ (fun e m => e.infer scope allowance = .ok m) es ms ∧ ms ≠ [] ∧
        IsLUB {x | x ∈ ms} m := by
  cases es with
  | nil => simp [inferMerged, pure_eq_ok_iff]
  | cons e es =>
    -- the first model is known without a merge, and the rest is merged into it
    have hfirst {actual merged : Model} :
        Inference.merge none actual = .ok merged ↔ actual = merged :=
      Except.mapError_eq_ok_iff.trans (by simp [Model.mergeInto])
    simp only [inferMerged, Except.bind_eq_ok_iff, hfirst, exists_eq_left',
      inferMerged_some_eq_ok_iff]
    constructor
    · rintro ⟨m₁, hm₁, ms, m', hms, hm, heq⟩
      obtain rfl : m = m' := by simpa using heq
      refine ⟨m₁ :: ms, .cons hm₁ hms, by simp, ?_⟩
      rw [setOf_mem_cons]
      exact hm
    · rintro ⟨_, hall, -, hm⟩
      obtain ⟨m₁, ms, hm₁, hms, rfl⟩ := List.forall₂_cons_left_iff.mp hall
      rw [setOf_mem_cons] at hm
      exact ⟨m₁, hm₁, ms, m, hms, hm, rfl⟩

/-- Every expression of a sequence must have a model, though only the last one is kept. -/
theorem inferLast_eq_ok_iff {last : Model} {es : List Expr} {T : Model} :
    inferLast scope allowance last es = .ok T ↔
      ∃ ms, List.Forall₂ (fun e m => e.infer scope allowance = .ok m) es ms ∧
        ms.getLastD last = T := by
  -- the model of the last one is handed on through the list
  induction es generalizing last with
  | nil => simp [inferLast, pure_eq_ok_iff]
  | cons e es ih =>
    simp only [inferLast, Except.bind_eq_ok_iff, ih]
    constructor
    · rintro ⟨m₁, hm₁, ms, hms, rfl⟩
      exact ⟨m₁ :: ms, .cons hm₁ hms, by rw [List.getLastD_cons]⟩
    · rintro ⟨_, hall, rfl⟩
      obtain ⟨m₁, ms, hm₁, hms, rfl⟩ := List.forall₂_cons_left_iff.mp hall
      exact ⟨m₁, hm₁, ms, hms, by rw [List.getLastD_cons]⟩

/-! ### Expressions -/

variable {T : Model}

/-- All kinds of expressions go down a level first. -/
theorem descend_bind_eq_ok_iff {step : Allowance → Except InferError Model} :
    (descend allowance >>= step) = .ok T ↔
      ∃ inner, allowance.enter = .ok inner ∧ step inner = .ok T := by
  rw [Except.bind_eq_ok_iff]
  simp only [descend_eq_ok_iff]

/-- A literal has the model of its value wherever there is a level left. -/
theorem infer_literal_iff {value : Literal} :
    (literal value).infer scope allowance = .ok T ↔
      ∃ inner, allowance.enter = .ok inner ∧ value.model = T := by
  refine descend_bind_eq_ok_iff.trans ?_
  simp only [pure_eq_ok_iff]

/-- A name has the model that the scope gives it. -/
theorem infer_identifier_iff {name : String} :
    (identifier name).infer scope allowance = .ok T ↔
      ∃ inner, allowance.enter = .ok inner ∧ scope.lookup name = some T := by
  refine descend_bind_eq_ok_iff.trans ?_
  cases scope.lookup name with
  | none => simp [throw_ne_ok]
  | some m => simp [pure_eq_ok_iff]

/-- What `this` is comes with the scope, which always has a model for it. -/
theorem infer_this_iff :
    this.infer scope allowance = .ok T ↔
      ∃ inner, allowance.enter = .ok inner ∧ scope.this = T := by
  refine descend_bind_eq_ok_iff.trans ?_
  simp only [pure_eq_ok_iff]

/-- Elements must meet in one model, and there must be an element: an empty array tells nothing. -/
theorem infer_array_iff {elements : List Expr} :
    (array elements).infer scope allowance = .ok T ↔
      ∃ inner, allowance.enter = .ok inner ∧ ∃ ms m,
        List.Forall₂ (fun e m => e.infer scope inner = .ok m) elements ms ∧ ms ≠ [] ∧
          IsLUB {x | x ∈ ms} m ∧ .array m = T := by
  refine descend_bind_eq_ok_iff.trans ?_
  simp only [Except.bind_eq_ok_iff]
  refine exists_congr fun inner => and_congr_right fun _ => ?_
  constructor
  · rintro ⟨merged, hmerged, h⟩
    cases merged with
    -- nothing was merged: an array without elements has no model
    | none => exact absurd h throw_ne_ok
    | some m =>
      obtain ⟨ms, hms, hne, hm⟩ := inferMerged_none_eq_ok_iff.mp hmerged
      exact ⟨ms, m, hms, hne, hm, pure_eq_ok_iff.mp h⟩
  · rintro ⟨ms, m, hms, hne, hm, rfl⟩
    exact ⟨some m, inferMerged_none_eq_ok_iff.mpr ⟨ms, hms, hne, hm⟩, rfl⟩

/-- An operator stands before its operand and follows the table of unary operators. -/
theorem infer_unary_iff {op : UnaryOp} {argument : Expr} {before : Bool} :
    (unary op argument before).infer scope allowance = .ok T ↔
      ∃ inner, allowance.enter = .ok inner ∧ before = true ∧
        ∃ m, argument.infer scope inner = .ok m ∧ Inference.unary op m = .ok T := by
  refine descend_bind_eq_ok_iff.trans ?_
  cases before with
  -- an operator behind its operand is refused, whatever the operand is
  | false => simp [throw_ne_ok]
  | true => simp [Except.bind_eq_ok_iff]

/-- Both operands have models in the same scope, and the operator has a rule for them. -/
theorem infer_binary_iff {op : BinaryOp} {left right : Expr} :
    (binary op left right).infer scope allowance = .ok T ↔
      ∃ inner, allowance.enter = .ok inner ∧ ∃ m, left.infer scope inner = .ok m ∧
        ∃ n, right.infer scope inner = .ok n ∧ Inference.binary op m n = .ok T := by
  refine descend_bind_eq_ok_iff.trans ?_
  simp only [Except.bind_eq_ok_iff]

/-- Logical operators take and give booleans, without any nullable ones. -/
theorem infer_logical_iff {op : LogicalOp} {left right : Expr} :
    (logical op left right).infer scope allowance = .ok T ↔
      ∃ inner, allowance.enter = .ok inner ∧ left.infer scope inner = .ok .boolean ∧
        right.infer scope inner = .ok .boolean ∧ .boolean = T := by
  refine descend_bind_eq_ok_iff.trans ?_
  simp only [Except.bind_eq_ok_iff, pure_eq_ok_iff, require_simple_eq_ok_iff,
    Model.boolean, exists_const]
  simp

/-- The model of a conditional is the least one that covers both of its branches. -/
theorem infer_conditional_iff {test consequent alternate : Expr} :
    (conditional test consequent alternate).infer scope allowance = .ok T ↔
      ∃ inner, allowance.enter = .ok inner ∧ test.infer scope inner = .ok .boolean ∧
        ∃ m, consequent.infer scope inner = .ok m ∧ ∃ n, alternate.infer scope inner = .ok n ∧
          IsLUB {m, n} T := by
  refine descend_bind_eq_ok_iff.trans ?_
  simp only [Except.bind_eq_ok_iff, require_simple_eq_ok_iff, merge_eq_ok_iff,
    Model.boolean, exists_const]
  simp

/-- A sequence has the model of its last expression. -/
theorem infer_sequence_iff {body : List Expr} :
    (sequence body).infer scope allowance = .ok T ↔
      ∃ inner, allowance.enter = .ok inner ∧ ∃ ms,
        List.Forall₂ (fun e m => e.infer scope inner = .ok m) body ms ∧ ms.getLastD .null = T := by
  refine descend_bind_eq_ok_iff.trans ?_
  simp only [inferLast_eq_ok_iff]

/-- An index may miss, so an element that is read by index is nullable. -/
theorem infer_index_iff {object key : Expr} :
    (member true object key).infer scope allowance = .ok T ↔
      ∃ inner, allowance.enter = .ok inner ∧ ∃ element,
        object.infer scope inner = .ok (.array element) ∧ key.infer scope inner = .ok .number ∧
          .nullable element.stripNullable = T := by
  refine descend_bind_eq_ok_iff.trans ?_
  simp only [Except.bind_eq_ok_iff, elementOf_eq_ok_iff,
    require_simple_eq_ok_iff, pure_eq_ok_iff, Model.number, exists_const]
  simp

/-- A field is read by its name from an object model that has it, and is then as the model says. -/
theorem infer_field_iff {object property : Expr} :
    (member false object property).infer scope allowance = .ok T ↔
      ∃ inner, allowance.enter = .ok inner ∧ ∃ key entries, property = identifier key ∧
        object.infer scope inner = .ok (.object entries) ∧ entries.lookup key = some T := by
  refine descend_bind_eq_ok_iff.trans ?_
  refine exists_congr fun inner => and_congr_right fun _ => ?_
  -- a property that is not computed is a name, and every other expression is refused
  cases property <;> simp [throw_ne_ok, Except.bind_eq_ok_iff, entryOf_eq_ok_iff]

/-- A call has the result model of the function, once all its arguments have models and are
accepted. -/
theorem infer_call_iff {callee : Expr} {arguments : List Expr} :
    (call callee arguments).infer scope allowance = .ok T ↔
      ∃ inner, allowance.enter = .ok inner ∧ ∃ parameters ms,
        callee.infer scope inner = .ok (.function parameters T) ∧
          List.Forall₂ (fun e m => e.infer scope inner = .ok m) arguments ms ∧
            acceptArguments 0 parameters ms = .ok () := by
  refine descend_bind_eq_ok_iff.trans ?_
  simp only [Except.bind_eq_ok_iff, inferAll_eq_ok_iff]
  refine exists_congr fun inner => and_congr_right fun _ => ?_
  constructor
  -- the result of the function that is called is the model of the call
  · rintro ⟨m, hm, ⟨parameters, result⟩, hsignature, ms, hms, _, haccept, hresult⟩
    obtain rfl := signatureOf_eq_ok_iff.mp hsignature
    obtain rfl : result = T := pure_eq_ok_iff.mp hresult
    exact ⟨parameters, ms, hm, hms, haccept⟩
  · rintro ⟨parameters, ms, hm, hms, haccept⟩
    exact ⟨_, hm, (parameters, T), rfl, ms, hms, (), haccept, rfl⟩

/-! ### Parts -/

/-- **No rule leaves a part out.** An expression has a model only if all its parts have one, also
those that do not bear on the model, and those that evaluation may skip. -/
theorem exists_infer_of_mem_parts {e : Expr} (h : e.infer scope allowance = .ok T) :
    ∃ inner, allowance.enter = .ok inner ∧
      ∀ part ∈ e.parts, ∃ m, part.infer scope inner = .ok m := by
  -- one case for each constructor: its rule says which parts were inferred, and `parts` lists no
  -- other
  cases e with
  | literal value =>
    obtain ⟨inner, hinner, -⟩ := infer_literal_iff.mp h
    exact ⟨inner, hinner, by simp [parts]⟩
  | identifier name =>
    obtain ⟨inner, hinner, -⟩ := infer_identifier_iff.mp h
    exact ⟨inner, hinner, by simp [parts]⟩
  | this =>
    obtain ⟨inner, hinner, -⟩ := infer_this_iff.mp h
    exact ⟨inner, hinner, by simp [parts]⟩
  | array elements =>
    obtain ⟨inner, hinner, ms, m, hms, -⟩ := infer_array_iff.mp h
    exact ⟨inner, hinner, exists_of_forall₂ hms⟩
  | unary op argument before =>
    obtain ⟨inner, hinner, -, m, hm, -⟩ := infer_unary_iff.mp h
    exact ⟨inner, hinner, by simp [parts, hm]⟩
  | binary op left right =>
    obtain ⟨inner, hinner, m, hm, n, hn, -⟩ := infer_binary_iff.mp h
    exact ⟨inner, hinner, by simp [parts, hm, hn]⟩
  | logical op left right =>
    obtain ⟨inner, hinner, hleft, hright, -⟩ := infer_logical_iff.mp h
    exact ⟨inner, hinner, by simp [parts, hleft, hright]⟩
  | conditional test consequent alternate =>
    obtain ⟨inner, hinner, htest, m, hm, n, hn, -⟩ := infer_conditional_iff.mp h
    exact ⟨inner, hinner, by simp [parts, htest, hm, hn]⟩
  | sequence body =>
    obtain ⟨inner, hinner, ms, hms, -⟩ := infer_sequence_iff.mp h
    exact ⟨inner, hinner, exists_of_forall₂ hms⟩
  | member computed object property =>
    cases computed with
    | true =>
      obtain ⟨inner, hinner, element, hobject, hkey, -⟩ := infer_index_iff.mp h
      exact ⟨inner, hinner, by simp [parts, hobject, hkey]⟩
    | false =>
      obtain ⟨inner, hinner, key, entries, -, hobject, -⟩ := infer_field_iff.mp h
      exact ⟨inner, hinner, by simp [parts, hobject]⟩
  | call callee arguments =>
    obtain ⟨inner, hinner, parameters, ms, hcallee, hms, -⟩ := infer_call_iff.mp h
    exact ⟨inner, hinner, List.forall_mem_cons.mpr ⟨⟨_, hcallee⟩, exists_of_forall₂ hms⟩⟩

end Expr

end CheckedExpr
