import CheckedExpr.Proofs.InferenceRules
import CheckedExpr.Proofs.TreeInduction

/-!
# Inference is monotone

A scope is narrower than another one if it binds at least the same names, each to a model that the
other scope's model accepts. An expression that has a model in the wider scope has one in the
narrower scope too, and that model is accepted by the one it had before. So a name of which more is
known, such as that it is never absent, cannot make an expression fail, nor say less about it.

Every rule of inference is monotone for one of three reasons:

* it demands a simple kind, an object or a function, and below such a model there is only itself;
* it takes an optional layer off, which keeps the order (`Model.accepts_stripNullable`);
* it joins models, and a join of smaller models exists and is smaller (`Model.exists_isLUB_pair_le`,
  `Model.exists_isLUB_le`).
-/

namespace CheckedExpr

/-- Whether a scope is narrower than another one: what the other one binds, it binds to a model
that is accepted in its place. It may bind more names. -/
structure Scope.Narrows (narrow wide : Scope Model) : Prop where
  lookup : ∀ name m, wide.lookup name = some m →
    ∃ m', narrow.lookup name = some m' ∧ m.accepts m' = true
  this : wide.this.accepts narrow.this = true

/-! ### Smaller models -/

namespace Model

variable {a a' b b' d m m' : Model}

theorem le_simple_iff {kind : SimpleModel} : a ≤ simple kind ↔ a = simple kind :=
  accepts_simple_iff

theorem stripNullable_mono (h : a ≤ b) : a.stripNullable ≤ b.stripNullable :=
  accepts_stripNullable h

/-- Below a model that is simple but for an optional layer, there are only such models. -/
theorem isSimple_stripNullable_of_le (h : a ≤ b) (hb : b.stripNullable.isSimple = true) :
    a.stripNullable.isSimple = true := by
  have hle : a.stripNullable ≤ b.stripNullable := stripNullable_mono h
  cases hstrip : b.stripNullable with
  | simple kind =>
    rw [hstrip, le_simple_iff] at hle
    rw [hle]
    rfl
  | nullable | array | object | function =>
    rw [hstrip] at hb
    cases hb

/-- Smaller models have a smaller join. -/
theorem exists_isLUB_pair_le (h : IsLUB {a, b} m) (ha : a' ≤ a) (hb : b' ≤ b) :
    ∃ m', IsLUB {a', b'} m' ∧ m' ≤ m := by
  obtain ⟨ham, hbm, -⟩ := isLUB_pair_iff.mp h
  have ha' : a' ≤ m := le_trans ha ham
  have hb' : b' ≤ m := le_trans hb hbm
  -- the join of the greater models is a bound of the smaller ones, so these have a join as well
  obtain ⟨m', hm'⟩ := exists_merge_of_le ha' hb'
  have hlub : IsLUB {a', b'} m' := isLUB_of_merge hm'
  exact ⟨m', hlub, (isLUB_pair_iff.mp hlub).2.2 m ha' hb'⟩

/-- Some models with a bound have a join. -/
theorem exists_isLUB_le {ms : List Model} (hne : ms ≠ []) (h : ∀ x ∈ ms, x ≤ d) :
    ∃ m, IsLUB {x | x ∈ ms} m ∧ m ≤ d := by
  induction ms with
  | nil => exact absurd rfl hne
  | cons a ms ih =>
    obtain ⟨ha, hms⟩ := List.forall_mem_cons.mp h
    rw [Expr.setOf_mem_cons]
    by_cases hnil : ms = []
    · subst hnil
      exact ⟨a, by simp, ha⟩
    · obtain ⟨m, hm, hmd⟩ := ih hnil hms
      -- the first model is joined with the join of the others
      obtain ⟨m', hm'⟩ := exists_merge_of_le ha hmd
      have hpair : IsLUB {a, m} m' := isLUB_of_merge hm'
      refine ⟨m', ?_, (isLUB_pair_iff.mp hpair).2.2 d ha hmd⟩
      have hbounds : upperBounds (insert a {x | x ∈ ms}) = upperBounds {a, m} := by
        rw [upperBounds_insert, upperBounds_insert, hm.upperBounds_eq, upperBounds_singleton]
      exact (isLUB_congr hbounds).mpr hpair

/-- What bounds some models bounds smaller ones at their places. -/
theorem forall_le_of_forall₂ {ms ms' : List Model} (hles : List.Forall₂ (· ≤ ·) ms' ms)
    (h : ∀ x ∈ ms, x ≤ d) : ∀ x ∈ ms', x ≤ d := by
  have hflip : List.Forall₂ (fun m m' => m' ≤ m) ms ms' := hles.flip
  exact forall_of_forall₂ hflip fun m hm m' hle => le_trans hle (h m hm)

end Model

/-! ### Operators and arguments -/

namespace Inference

variable {m m' n n' T : Model}

/-- An operator before its operand demands a simple kind, and finds the same one. -/
theorem unary_mono {op : UnaryOp} (h : unary op m = .ok T) (hm : m' ≤ m) :
    unary op m' = .ok T := by
  have hsame : m = .boolean ∨ m = .number ∨ m = .string := by
    rw [unary_eq_ok_iff] at h
    cases op with
    | plus | not => exact h.1
    | neg | bitNot => exact Or.inr (Or.inl h.1)
  have heq : m' = m := by
    rcases hsame with rfl | rfl | rfl <;> exact Model.le_simple_iff.mp hm
  rw [heq]
  exact h

/-- Where a demand on a join is met by all smaller models, smaller operands meet it. -/
private theorem exists_join_le {P : Model → Prop} (hP : ∀ a b : Model, a ≤ b → P b → P a)
    (h : ∃ merged, IsLUB {m, n} merged ∧ P merged ∧ .boolean = T) (hm : m' ≤ m) (hn : n' ≤ n) :
    ∃ merged, IsLUB {m', n'} merged ∧ P merged ∧ .boolean = T := by
  obtain ⟨merged, hlub, hmerged, hT⟩ := h
  obtain ⟨merged', hlub', hle⟩ := Model.exists_isLUB_pair_le hlub hm hn
  exact ⟨merged', hlub', hP merged' merged hle hmerged, hT⟩

/-- Below a number or a string there is only the same one. -/
private theorem numberOrString_of_le (hle : m' ≤ m) (h : m = .number ∨ m = .string) :
    m' = .number ∨ m' = .string := by
  rcases h with rfl | rfl
  · exact Or.inl (Model.le_simple_iff.mp hle)
  · exact Or.inr (Model.le_simple_iff.mp hle)

/-- The result is a truth value in any case, so only the demands have to be kept. -/
theorem binary_isIn_mono (h : binary .isIn m n = .ok T) (hm : m' ≤ m) (hn : n' ≤ n) :
    binary .isIn m' n' = .ok T := by
  obtain ⟨element, rfl, hmerged⟩ := binary_isIn_iff.mp h
  -- what is searched is an array of smaller elements
  obtain ⟨element', rfl, helement⟩ := Model.le_array_iff.mp hn
  exact binary_isIn_iff.mpr ⟨element', rfl,
    exists_join_le (fun _ _ => Model.isSimple_stripNullable_of_le) hmerged
      (Model.stripNullable_mono helement) hm⟩

/-- **Operators between two operands are monotone.** -/
theorem binary_mono {op : BinaryOp} (h : binary op m n = .ok T) (hm : m' ≤ m) (hn : n' ≤ n) :
    ∃ T', binary op m' n' = .ok T' ∧ T' ≤ T := by
  -- one argument for each group, as its members share a rule
  rcases op.group_cases with rfl | rfl | rfl | hgroup | hgroup | hgroup
  · obtain ⟨T', hlub, hle⟩ :=
      Model.exists_isLUB_pair_le (binary_nullish_iff.mp h) (Model.stripNullable_mono hm) hn
    exact ⟨T', binary_nullish_iff.mpr hlub, hle⟩
  · exact ⟨T, binary_isIn_mono h hm hn, le_refl T⟩
  · obtain ⟨hlub, hT⟩ := binary_add_iff.mp h
    obtain ⟨T', hlub', hle⟩ := Model.exists_isLUB_pair_le hlub hm hn
    exact ⟨T', binary_add_iff.mpr ⟨hlub', numberOrString_of_le hle hT⟩, hle⟩
  · have hjoin := exists_join_le (fun _ _ => Model.isSimple_stripNullable_of_le)
      ((binary_equality_iff hgroup).mp h) hm hn
    exact ⟨T, (binary_equality_iff hgroup).mpr hjoin, le_refl T⟩
  · have hjoin := exists_join_le (fun _ _ => numberOrString_of_le)
      ((binary_comparison_iff hgroup).mp h) hm hn
    exact ⟨T, (binary_comparison_iff hgroup).mpr hjoin, le_refl T⟩
  · obtain ⟨hlub, rfl⟩ := (binary_arithmetic_iff hgroup).mp h
    obtain ⟨T', hlub', hle⟩ := Model.exists_isLUB_pair_le hlub hm hn
    exact ⟨T', (binary_arithmetic_iff hgroup).mpr ⟨hlub', Model.le_simple_iff.mp hle⟩, hle⟩

/-- Parameters accept arguments of smaller models. A missing argument stays missing. -/
theorem acceptArguments_mono {index : Nat} {parameters ms ms' : List Model}
    (h : acceptArguments index parameters ms = .ok ()) (hms : List.Forall₂ (· ≤ ·) ms' ms) :
    acceptArguments index parameters ms' = .ok () := by
  induction parameters generalizing index ms ms' with
  | nil => rfl
  | cons p ps ih =>
    obtain ⟨hp, hps⟩ := acceptArguments_cons_iff.mp h
    rw [acceptArguments_cons_iff]
    cases hms with
    | nil => exact ⟨hp, ih hps .nil⟩
    | cons hm hms => exact ⟨Model.accepts_trans hp hm, ih hps hms⟩

end Inference

/-! ### Expressions -/

namespace Expr

open Inference

/-- Whether an expression that has a model in the wider scope has a smaller one in the narrower
scope, with whatever allowance. -/
def Monotone (narrow wide : Scope Model) (e : Expr) : Prop :=
  ∀ ⦃allowance T⦄, e.infer wide allowance = .ok T →
    ∃ T', e.infer narrow allowance = .ok T' ∧ T' ≤ T

variable {narrow wide : Scope Model}

/-- Of expressions in a row, each has a smaller model. -/
theorem exists_forall₂_le {es : List Expr} {ms : List Model} {allowance : Allowance}
    (hes : ∀ e ∈ es, Monotone narrow wide e)
    (h : List.Forall₂ (fun e m => e.infer wide allowance = .ok m) es ms) :
    ∃ ms', List.Forall₂ (fun e m => e.infer narrow allowance = .ok m) es ms' ∧
      List.Forall₂ (· ≤ ·) ms' ms := by
  induction h with
  | nil => exact ⟨[], .nil, .nil⟩
  | cons he _ ih =>
    obtain ⟨hfirst, hes⟩ := List.forall_mem_cons.mp hes
    obtain ⟨m', hm', hle⟩ := hfirst he
    obtain ⟨ms', hms', hles⟩ := ih hes
    exact ⟨m' :: ms', .cons hm' hms', .cons hle hles⟩

/-- A name has a smaller model in the narrower scope, by what narrowing means. -/
theorem monotone_identifier (hscope : narrow.Narrows wide) (name : String) :
    Monotone narrow wide (identifier name) := by
  intro allowance T h
  obtain ⟨inner, hinner, hT⟩ := infer_identifier_iff.mp h
  obtain ⟨T', hT', hle⟩ := hscope.lookup name T hT
  exact ⟨T', infer_identifier_iff.mpr ⟨inner, hinner, hT'⟩, hle⟩

/-- Elements of smaller models meet in a smaller one. -/
theorem monotone_array {elements : List Expr} (hes : ∀ e ∈ elements, Monotone narrow wide e) :
    Monotone narrow wide (array elements) := by
  intro allowance T h
  obtain ⟨inner, hinner, ms, m, hms, hne, hm, rfl⟩ := infer_array_iff.mp h
  obtain ⟨ms', hms', hles⟩ := exists_forall₂_le hes hms
  have hne' : ms' ≠ [] := by
    rintro rfl
    exact hne (List.forall₂_nil_left_iff.mp hles)
  -- each smaller model is below the join of the greater ones
  have hbound : ∀ x ∈ ms', x ≤ m := Model.forall_le_of_forall₂ hles fun x hx => hm.1 hx
  obtain ⟨m', hm', hle⟩ := Model.exists_isLUB_le hne' hbound
  exact ⟨.array m', infer_array_iff.mpr ⟨inner, hinner, ms', m', hms', hne', hm', rfl⟩,
    Model.array_le_array_iff.mpr hle⟩

/-- Unary operators give one model, whatever their operand is. -/
theorem monotone_unary {op : UnaryOp} {argument : Expr} {before : Bool}
    (hargument : Monotone narrow wide argument) :
    Monotone narrow wide (unary op argument before) := by
  intro allowance T h
  obtain ⟨inner, hinner, hbefore, m, hm, hT⟩ := infer_unary_iff.mp h
  obtain ⟨m', hm', hle⟩ := hargument hm
  exact ⟨T, infer_unary_iff.mpr ⟨inner, hinner, hbefore, m', hm', unary_mono hT hle⟩, le_refl T⟩

/-- Operators between two operands keep the order. -/
theorem monotone_binary {op : BinaryOp} {left right : Expr} (hleft : Monotone narrow wide left)
    (hright : Monotone narrow wide right) : Monotone narrow wide (binary op left right) := by
  intro allowance T h
  obtain ⟨inner, hinner, m, hm, n, hn, hT⟩ := infer_binary_iff.mp h
  obtain ⟨m', hm', hmle⟩ := hleft hm
  obtain ⟨n', hn', hnle⟩ := hright hn
  obtain ⟨T', hT', hle⟩ := binary_mono hT hmle hnle
  exact ⟨T', infer_binary_iff.mpr ⟨inner, hinner, m', hm', n', hn', hT'⟩, hle⟩

/-- An operand of a simple kind is of the same kind in the narrower scope. -/
theorem Monotone.infer_simple {e : Expr} (he : Monotone narrow wide e) {allowance : Allowance}
    {kind : SimpleModel} (h : e.infer wide allowance = .ok (.simple kind)) :
    e.infer narrow allowance = .ok (.simple kind) := by
  obtain ⟨m', hm', hle⟩ := he h
  rw [Model.le_simple_iff.mp hle] at hm'
  exact hm'

/-- Logical operators ask for booleans, below which there are only booleans. -/
theorem monotone_logical {op : LogicalOp} {left right : Expr} (hleft : Monotone narrow wide left)
    (hright : Monotone narrow wide right) : Monotone narrow wide (logical op left right) := by
  intro allowance T h
  obtain ⟨inner, hinner, hm, hn, hT⟩ := infer_logical_iff.mp h
  exact ⟨T, infer_logical_iff.mpr
    ⟨inner, hinner, hleft.infer_simple hm, hright.infer_simple hn, hT⟩, le_refl T⟩

/-- Branches of smaller models meet in a smaller one. -/
theorem monotone_conditional {test consequent alternate : Expr}
    (htest : Monotone narrow wide test) (hconsequent : Monotone narrow wide consequent)
    (halternate : Monotone narrow wide alternate) :
    Monotone narrow wide (conditional test consequent alternate) := by
  intro allowance T h
  obtain ⟨inner, hinner, ht, m, hm, n, hn, hT⟩ := infer_conditional_iff.mp h
  obtain ⟨m', hm', hmle⟩ := hconsequent hm
  obtain ⟨n', hn', hnle⟩ := halternate hn
  obtain ⟨T', hT', hle⟩ := Model.exists_isLUB_pair_le hT hmle hnle
  exact ⟨T', infer_conditional_iff.mpr
    ⟨inner, hinner, htest.infer_simple ht, m', hm', n', hn', hT'⟩, hle⟩

/-- The last one of smaller models is smaller, and a model that stands in for it stays. -/
private theorem getLastD_le {ms ms' : List Model} {m m' : Model} (hm : m' ≤ m)
    (hms : List.Forall₂ (· ≤ ·) ms' ms) : ms'.getLastD m' ≤ ms.getLastD m := by
  induction hms generalizing m m' with
  | nil => exact hm
  | cons hle _ ih =>
    rw [List.getLastD_cons, List.getLastD_cons]
    exact ih hle

/-- The last of smaller models is smaller. -/
theorem monotone_sequence {body : List Expr} (hes : ∀ e ∈ body, Monotone narrow wide e) :
    Monotone narrow wide (sequence body) := by
  intro allowance T h
  obtain ⟨inner, hinner, ms, hms, rfl⟩ := infer_sequence_iff.mp h
  obtain ⟨ms', hms', hles⟩ := exists_forall₂_le hes hms
  exact ⟨_, infer_sequence_iff.mpr ⟨inner, hinner, ms', hms', rfl⟩,
    getLastD_le (le_refl Model.null) hles⟩

/-- A smaller array has smaller elements, and a smaller object is the same one. -/
theorem monotone_member {computed : Bool} {object property : Expr}
    (hobject : Monotone narrow wide object) (hproperty : Monotone narrow wide property) :
    Monotone narrow wide (member computed object property) := by
  intro allowance T h
  cases computed with
  | true =>
    obtain ⟨inner, hinner, element, hm, hkey, rfl⟩ := infer_index_iff.mp h
    obtain ⟨m', hm', hle⟩ := hobject hm
    obtain ⟨element', rfl, helement⟩ := Model.le_array_iff.mp hle
    refine ⟨.nullable element'.stripNullable, infer_index_iff.mpr
      ⟨inner, hinner, element', hm', hproperty.infer_simple hkey, rfl⟩, ?_⟩
    -- an item is optional in any case, so only what is below the layer is compared
    have hstrip : element'.stripNullable ≤ element.stripNullable :=
      Model.stripNullable_mono helement
    exact Model.le_nullable_iff.mpr hstrip
  | false =>
    obtain ⟨inner, hinner, key, entries, hproperty, hm, hlookup⟩ := infer_field_iff.mp h
    obtain ⟨m', hm', hle⟩ := hobject hm
    -- an object accepts no object but itself
    obtain rfl := Model.accepts_object_iff.mp hle
    exact ⟨T, infer_field_iff.mpr ⟨inner, hinner, key, entries, hproperty, hm', hlookup⟩,
      le_refl T⟩

/-- A smaller function is the same one, and takes arguments of smaller models. -/
theorem monotone_call {callee : Expr} {arguments : List Expr}
    (hcallee : Monotone narrow wide callee) (hes : ∀ e ∈ arguments, Monotone narrow wide e) :
    Monotone narrow wide (call callee arguments) := by
  intro allowance T h
  obtain ⟨inner, hinner, parameters, ms, hm, hms, haccept⟩ := infer_call_iff.mp h
  obtain ⟨m', hm', hle⟩ := hcallee hm
  obtain ⟨ms', hms', hles⟩ := exists_forall₂_le hes hms
  -- the function is the same one, called with arguments of smaller models
  obtain rfl := Model.accepts_function_iff.mp hle
  exact ⟨T, infer_call_iff.mpr
    ⟨inner, hinner, parameters, ms', hm', hms', acceptArguments_mono haccept hles⟩, le_refl T⟩

/-- Every expression is monotone. -/
theorem monotone (hscope : narrow.Narrows wide) (e : Expr) : Monotone narrow wide e := by
  -- by the rules of the single constructors, for all allowances at once
  induction e using tree_induction with
  | array _ hes => exact monotone_array hes
  | binary _ _ _ hleft hright => exact monotone_binary hleft hright
  | call _ _ hcallee hes => exact monotone_call hcallee hes
  | sequence _ hes => exact monotone_sequence hes
  | conditional _ _ _ htest hconsequent halternate =>
    exact monotone_conditional htest hconsequent halternate
  | identifier name => exact monotone_identifier hscope name
  | literal value =>
    intro allowance T h
    exact ⟨T, infer_literal_iff.mpr (infer_literal_iff.mp h), le_refl T⟩
  | logical _ _ _ hleft hright => exact monotone_logical hleft hright
  | member _ _ _ hobject hproperty => exact monotone_member hobject hproperty
  | this =>
    intro allowance T h
    obtain ⟨inner, hinner, rfl⟩ := infer_this_iff.mp h
    exact ⟨narrow.this, infer_this_iff.mpr ⟨inner, hinner, rfl⟩, hscope.this⟩
  | unary _ _ _ hargument => exact monotone_unary hargument

/-- **Inference is monotone in the models that it reads.** What has a model in a scope has one in
every narrower scope, with the same limit, and the model it had accepts the one it has there. -/
theorem infer_narrows (hscope : narrow.Narrows wide) {e : Expr} {limit : Nat} {T : Model}
    (h : e.infer wide (.ofLimit limit) = .ok T) :
    ∃ T', e.infer narrow (.ofLimit limit) = .ok T' ∧ T.accepts T' = true :=
  monotone hscope e h

/-- Numbers that may be absent, in an array and as `this`, are known to be there. -/
theorem infer_narrows_numbers :
    Scope.Narrows
      ⟨fun name => if name = "xs" then some (.array .number) else none, .number⟩
      ⟨fun name => if name = "xs" then some (.array (.nullable .number)) else none,
        .nullable .number⟩ ∧
    (array [.this, .binary .nullish (.index (.identifier "xs") (.literal (.number 0)))
        .this]).infer
      ⟨fun name => if name = "xs" then some (.array (.nullable .number)) else none,
        .nullable .number⟩ (.ofLimit 4) = .ok (.array (.nullable .number)) ∧
    ∃ T', (array [.this, .binary .nullish (.index (.identifier "xs") (.literal (.number 0)))
        .this]).infer
      ⟨fun name => if name = "xs" then some (.array .number) else none, .number⟩ (.ofLimit 4) =
        .ok T' ∧ (Model.array (.nullable .number)).accepts T' = true := by
  have hscope : Scope.Narrows
      ⟨fun name => if name = "xs" then some (.array .number) else none, .number⟩
      ⟨fun name => if name = "xs" then some (.array (.nullable .number)) else none,
        .nullable .number⟩ := by
    -- the name is narrowed below the array, the binding at the top
    refine ⟨fun name m hm => ?_, Model.le_nullable _⟩
    dsimp only at hm ⊢
    split at hm
    next hname =>
      cases hm
      rw [if_pos hname]
      exact ⟨.array .number, rfl, Model.array_le_array_iff.mpr (Model.le_nullable _)⟩
    next => cases hm
  have hinfer : (array [.this, .binary .nullish (.index (.identifier "xs") (.literal (.number 0)))
        .this]).infer
      ⟨fun name => if name = "xs" then some (.array (.nullable .number)) else none,
        .nullable .number⟩ (.ofLimit 4) = .ok (.array (.nullable .number)) := by
    cbv
  exact ⟨hscope, hinfer, infer_narrows hscope hinfer⟩

end Expr

end CheckedExpr
