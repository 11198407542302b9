import CheckedExpr.Model.Merge
import CheckedExpr.Proofs.Except
import Mathlib.Order.Bounds.Basic

/-!
# The order of models

Acceptance orders the models: `a ≤ b` says that `b` accepts `a`. Merging two models gives their
least upper bound where they have an upper bound at all, and fails where they have none.

* `accepts_nullable_iff`, `accepts_array_iff` and their neighbours: what a model accepts, by its
  outermost layer. An optional layer takes one layer off the other model, if there is one, and a
  model without such a layer accepts none that has one. All facts about acceptance follow from
  these by induction on the model that accepts.
* `instPartialOrder`: acceptance is a partial order.
* `merge_eq_ok_iff_isLUB`: a merge is a least upper bound, and every least upper bound is a merge.
  That merging is idempotent, commutative and associative is read off it.
-/

namespace CheckedExpr.Model

/-! ### Layers -/

theorem isNullable_eq_false_iff {m : Model} :
    m.isNullable = false ↔ ∀ inner, m ≠ nullable inner := by
  cases m <;> simp [isNullable]

/-- Without a layer there is nothing to take off. -/
theorem stripNullable_of_isNullable_eq_false {m : Model} (h : m.isNullable = false) :
    m.stripNullable = m := by
  cases m with
  | nullable inner => exact absurd rfl (isNullable_eq_false_iff.mp h inner)
  | simple | array | object | function => rfl

/-! ### What merging does to layers -/

/-- A layer on the right is put around the merge as well, also if there is one on the left. -/
theorem merge_nullable_right (a b : Model) :
    merge a (nullable b) = (merge a.stripNullable b).map nullable := by
  cases a with
  | nullable a =>
    -- the layer on the left is taken off first, and the one on the right along with it
    rw [merge_nullable_left]
    rfl
  | simple | array | object | function =>
    rw [merge]
    · rfl
    · simp

/-! ### What a model accepts -/

/-- To accept is to be the merge. -/
theorem accepts_eq_true_iff {a b : Model} : a.accepts b = true ↔ merge a b = .ok a := by
  unfold accepts
  cases merge a b with
  | error e => simp
  | ok m => simp

/-- An optional layer accepts what the model below it does, with a layer or without. -/
theorem accepts_nullable_iff {a b : Model} :
    (nullable a).accepts b = true ↔ a.accepts b.stripNullable = true := by
  rw [accepts_eq_true_iff, accepts_eq_true_iff, merge_nullable_left, Except.map_eq_ok_iff]
  simp

/-- A model without an optional layer accepts no optional one. -/
theorem accepts_nullable_eq_false {a : Model} (h : a.isNullable = false) (b : Model) :
    a.accepts (nullable b) = false := by
  rw [← Bool.not_eq_true, accepts_eq_true_iff, merge_nullable_right, Except.map_eq_ok_iff]
  -- whatever is merged with an optional model is optional, so it is not `a`
  rintro ⟨m, -, rfl⟩
  simp [isNullable] at h

/-- A simple model accepts itself only. -/
theorem accepts_simple_iff {kind : SimpleModel} {b : Model} :
    (simple kind).accepts b = true ↔ b = simple kind := by
  cases b with
  | nullable b => rw [accepts_nullable_eq_false rfl]; simp
  | simple kind' =>
    rw [accepts_eq_true_iff, merge]
    by_cases h : kind = kind'
    · simp [h]
    · simp [h, Ne.symm h]
  | array | object | function => simp [accepts_eq_true_iff, merge]

/-- An array model accepts arrays of what its element accepts. -/
theorem accepts_array_iff {a b : Model} :
    (array a).accepts b = true ↔ ∃ element, b = array element ∧ a.accepts element = true := by
  cases b with
  | nullable b => rw [accepts_nullable_eq_false rfl]; simp
  | array element =>
    rw [accepts_eq_true_iff, merge, Except.map_eq_ok_iff]
    simp [accepts_eq_true_iff]
  | simple | object | function => simp [accepts_eq_true_iff, merge]

/-- An object model accepts itself only. -/
theorem accepts_object_iff {entries : List (String × Model)} {b : Model} :
    (object entries).accepts b = true ↔ b = object entries := by
  cases b with
  | nullable b => rw [accepts_nullable_eq_false rfl]; simp
  | object entries' =>
    rw [accepts_eq_true_iff, merge]
    by_cases h : entries = entries'
    · simp [h]
    · simp [h, Ne.symm h]
  | simple | array | function => simp [accepts_eq_true_iff, merge]

/-- So does a function model. -/
theorem accepts_function_iff {parameters : List Model} {result b : Model} :
    (function parameters result).accepts b = true ↔ b = function parameters result := by
  cases b with
  | nullable b => rw [accepts_nullable_eq_false rfl]; simp
  | function parameters' result' =>
    rw [accepts_eq_true_iff, merge]
    by_cases h : function parameters result = function parameters' result'
    · simp [h]
    · simp [h, Ne.symm h]
  | simple | array | object => simp [accepts_eq_true_iff, merge]

/-! ### Acceptance is a partial order -/

/-- Induction along the spine of a model: through its optional layers and the elements of arrays.
Nothing else is looked into when models are merged. -/
@[elab_as_elim]
theorem spine_induction {P : Model → Prop} (simple : ∀ kind, P (simple kind))
    (nullable : ∀ inner, P inner → P (nullable inner))
    (array : ∀ element, P element → P (array element)) (object : ∀ entries, P (object entries))
    (function : ∀ parameters result, P (function parameters result)) : ∀ m, P m
  | .simple kind => simple kind
  | .nullable inner => nullable inner (spine_induction simple nullable array object function inner)
  | .array element => array element (spine_induction simple nullable array object function element)
  | .object entries => object entries
  | .function parameters result => function parameters result

/-- Every model accepts itself. -/
theorem accepts_refl (a : Model) : a.accepts a = true := by
  induction a using spine_induction with
  | simple kind => exact accepts_simple_iff.mpr rfl
  | nullable a ih => exact accepts_nullable_iff.mpr ih
  | array a ih => exact accepts_array_iff.mpr ⟨a, rfl, ih⟩
  | object entries => exact accepts_object_iff.mpr rfl
  | function parameters result => exact accepts_function_iff.mpr rfl

/-- Taking a layer off both sides keeps acceptance: the side that is accepted has no layer that the
other one lacks. -/
theorem accepts_stripNullable {a b : Model} (h : a.accepts b = true) :
    a.stripNullable.accepts b.stripNullable = true := by
  cases a with
  | nullable a => exact accepts_nullable_iff.mp h
  | simple | array | object | function =>
    cases b with
    | nullable b => rw [accepts_nullable_eq_false rfl] at h; simp at h
    | simple | array | object | function => exact h

/-- What is accepted by what is accepted is accepted. -/
theorem accepts_trans {a b c : Model} (hab : a.accepts b = true) (hbc : b.accepts c = true) :
    a.accepts c = true := by
  induction a using spine_induction generalizing b c with
  | simple kind =>
    rw [accepts_simple_iff.mp hab] at hbc
    exact hbc
  | nullable a ih =>
    -- the layer of `a` takes one off `b`, which may itself be there to take one off `c`
    rw [accepts_nullable_iff] at hab ⊢
    exact ih hab (accepts_stripNullable hbc)
  | array a ih =>
    obtain ⟨b, rfl, hb⟩ := accepts_array_iff.mp hab
    obtain ⟨c, rfl, hc⟩ := accepts_array_iff.mp hbc
    exact accepts_array_iff.mpr ⟨c, rfl, ih hb hc⟩
  | object entries =>
    rw [accepts_object_iff.mp hab] at hbc
    exact hbc
  | function parameters result =>
    rw [accepts_function_iff.mp hab] at hbc
    exact hbc

/-- Two models that accept each other are one. -/
theorem accepts_antisymm {a b : Model} (hab : a.accepts b = true) (hba : b.accepts a = true) :
    a = b := by
  induction a using spine_induction generalizing b with
  | simple kind => exact (accepts_simple_iff.mp hab).symm
  | nullable a ih =>
    -- `b` accepts a model with an optional layer, so it has one itself
    cases b with
    | nullable b =>
      have heq : a = b := ih (accepts_nullable_iff.mp hab) (accepts_nullable_iff.mp hba)
      rw [heq]
    | simple | array | object | function =>
      rw [accepts_nullable_eq_false rfl] at hba
      simp at hba
  | array a ih =>
    obtain ⟨b, rfl, hb⟩ := accepts_array_iff.mp hab
    obtain ⟨a', heq, ha⟩ := accepts_array_iff.mp hba
    obtain rfl : a = a' := by simpa using heq
    rw [ih hb ha]
  | object entries => exact (accepts_object_iff.mp hab).symm
  | function parameters result => exact (accepts_function_iff.mp hab).symm

/-- Models are ordered by acceptance: the greater one accepts the smaller one. -/
instance instPartialOrder : PartialOrder Model where
  le a b := b.accepts a = true
  le_refl := accepts_refl
  le_trans _ _ _ hab hbc := accepts_trans hbc hab
  le_antisymm _ _ hab hba := accepts_antisymm hba hab

theorem le_iff_accepts {a b : Model} : a ≤ b ↔ b.accepts a = true := Iff.rfl

/-- Below an optional layer are the models that are below it without theirs. -/
theorem le_nullable_iff {a b : Model} : a ≤ nullable b ↔ a.stripNullable ≤ b :=
  accepts_nullable_iff

theorem le_array_iff {a b : Model} : a ≤ array b ↔ ∃ element, a = array element ∧ element ≤ b :=
  accepts_array_iff

theorem array_le_array_iff {a b : Model} : array a ≤ array b ↔ a ≤ b := by
  simp [le_array_iff]

/-- Taking an optional layer off leads down. -/
theorem stripNullable_le (a : Model) : a.stripNullable ≤ a := by
  induction a using spine_induction with
  | nullable a ih => exact le_nullable_iff.mpr ih
  | simple | array | object | function => exact le_refl _

theorem le_nullable (a : Model) : a ≤ nullable a :=
  le_nullable_iff.mpr (stripNullable_le a)

/-- A greater model of an optional one is optional. -/
theorem exists_nullable_of_nullable_le {a d : Model} (h : nullable a ≤ d) :
    ∃ d', d = nullable d' ∧ a ≤ d' := by
  cases d with
  | nullable d => exact ⟨d, rfl, le_nullable_iff.mp h⟩
  | simple | array | object | function =>
    rw [le_iff_accepts, accepts_nullable_eq_false rfl] at h
    simp at h

/-! ### Merging is the least upper bound -/

theorem isLUB_pair_iff {a b m : Model} :
    IsLUB {a, b} m ↔ a ≤ m ∧ b ≤ m ∧ ∀ d, a ≤ d → b ≤ d → m ≤ d := by
  simp [IsLUB, IsLeast, mem_lowerBounds, and_assoc]

/-- An optional layer on one side is one on the join. -/
theorem isLUB_nullable {a b m : Model} (h : IsLUB {a, b.stripNullable} m) :
    IsLUB {nullable a, b} (nullable m) := by
  rw [isLUB_pair_iff] at h ⊢
  obtain ⟨ha, hb, hle⟩ := h
  refine ⟨le_nullable_iff.mpr ha, le_nullable_iff.mpr hb, ?_⟩
  intro d had hbd
  -- every upper bound is above an optional model, so it has a layer that can be taken off
  obtain ⟨d, rfl, hd⟩ := exists_nullable_of_nullable_le had
  exact le_nullable_iff.mpr (hle d hd (le_nullable_iff.mp hbd))

/-- Arrays meet where their elements do. -/
theorem isLUB_array {a b m : Model} (h : IsLUB {a, b} m) : IsLUB {array a, array b} (array m) := by
  rw [isLUB_pair_iff] at h ⊢
  obtain ⟨ha, hb, hle⟩ := h
  refine ⟨array_le_array_iff.mpr ha, array_le_array_iff.mpr hb, ?_⟩
  intro d had hbd
  -- the layers of an upper bound are taken off one by one; below them it is an array
  induction d using spine_induction with
  | nullable d ih =>
    rw [le_nullable_iff] at had hbd ⊢
    exact ih had hbd
  | array d _ =>
    rw [array_le_array_iff] at had hbd ⊢
    exact hle d had hbd
  | simple | object | function =>
    simp [le_iff_accepts, accepts_simple_iff, accepts_object_iff, accepts_function_iff] at had

/-- A merge is an upper bound, and below every other one. -/
theorem isLUB_of_merge {a b m : Model} (h : merge a b = .ok m) : IsLUB {a, b} m := by
  induction a, b using merge.induct generalizing m with
  -- a layer on the left, or on the right only
  | case1 a b ih =>
    rw [merge_nullable_left, Except.map_eq_ok_iff] at h
    obtain ⟨m, hm, rfl⟩ := h
    exact isLUB_nullable (ih hm)
  | case2 a b ha ih =>
    have hstrip : a.stripNullable = a :=
      stripNullable_of_isNullable_eq_false (isNullable_eq_false_iff.mpr ha)
    rw [merge_nullable_right, hstrip, Except.map_eq_ok_iff] at h
    obtain ⟨m, hm, rfl⟩ := h
    rw [Set.pair_comm]
    exact isLUB_nullable (by rw [hstrip, Set.pair_comm]; exact ih hm)
  -- models of one kind: arrays meet in their elements, all others only when they are equal
  | case3 kind =>
    obtain rfl : simple kind = m := by simpa [merge] using h
    simp
  | case4 kind kind' hne => simp [merge, hne] at h
  | case5 a b ih =>
    rw [merge, Except.map_eq_ok_iff] at h
    obtain ⟨m, hm, rfl⟩ := h
    exact isLUB_array (ih hm)
  | case6 entries =>
    obtain rfl : object entries = m := by simpa [merge] using h
    simp
  | case7 entries entries' hne => simp [merge, hne] at h
  | case8 ps a qs b heq =>
    rw [merge, if_pos heq] at h
    obtain rfl : function ps a = m := by simpa using h
    rw [← heq]
    simp
  | case9 ps a qs b hne =>
    rw [merge, if_neg hne] at h
    simp at h
  -- models of two kinds do not meet
  | case10 a b => simp [merge, *] at h

/-- A merge below the outermost layers makes a merge. -/
theorem exists_merge_of_stripNullable {a b m : Model}
    (h : merge a.stripNullable b.stripNullable = .ok m) : ∃ m', merge a b = .ok m' := by
  cases a with
  | nullable a => exact ⟨nullable m, by rw [merge_nullable_left]; exact congrArg _ h⟩
  | simple | array | object | function =>
    cases b with
    | nullable b => exact ⟨nullable m, by rw [merge_nullable_right]; exact congrArg _ h⟩
    | simple | array | object | function => exact ⟨m, h⟩

/-- Two models that have an upper bound have a merge. -/
theorem exists_merge_of_le {a b d : Model} (ha : a ≤ d) (hb : b ≤ d) :
    ∃ m, merge a b = .ok m := by
  -- the upper bound tells of both models what they are, so the induction is on it
  induction d using spine_induction generalizing a b with
  | nullable d ih =>
    obtain ⟨m, hm⟩ := ih (le_nullable_iff.mp ha) (le_nullable_iff.mp hb)
    exact exists_merge_of_stripNullable hm
  | array d ih =>
    obtain ⟨a, rfl, had⟩ := le_array_iff.mp ha
    obtain ⟨b, rfl, hbd⟩ := le_array_iff.mp hb
    obtain ⟨m, hm⟩ := ih had hbd
    exact ⟨array m, by rw [merge, hm]; rfl⟩
  | simple kind =>
    obtain rfl := accepts_simple_iff.mp ha
    obtain rfl := accepts_simple_iff.mp hb
    exact ⟨_, accepts_eq_true_iff.mp (accepts_refl _)⟩
  | object entries =>
    obtain rfl := accepts_object_iff.mp ha
    obtain rfl := accepts_object_iff.mp hb
    exact ⟨_, accepts_eq_true_iff.mp (accepts_refl _)⟩
  | function parameters result =>
    obtain rfl := accepts_function_iff.mp ha
    obtain rfl := accepts_function_iff.mp hb
    exact ⟨_, accepts_eq_true_iff.mp (accepts_refl _)⟩

/-- **Merging is the partial join.** -/
theorem merge_eq_ok_iff_isLUB {a b m : Model} : merge a b = .ok m ↔ IsLUB {a, b} m := by
  constructor
  · exact isLUB_of_merge
  · intro h
    -- there is a merge, since the join is an upper bound, and there is only one join
    obtain ⟨ha, hb, -⟩ := isLUB_pair_iff.mp h
    obtain ⟨m', hm'⟩ := exists_merge_of_le ha hb
    rw [hm', h.unique (isLUB_of_merge hm')]

theorem le_of_merge_left {a b m : Model} (h : merge a b = .ok m) : a ≤ m :=
  (isLUB_pair_iff.mp (isLUB_of_merge h)).1

theorem le_of_merge_right {a b m : Model} (h : merge a b = .ok m) : b ≤ m :=
  (isLUB_pair_iff.mp (isLUB_of_merge h)).2.1

/-- A model merged with itself is itself. -/
theorem merge_self (a : Model) : merge a a = .ok a :=
  accepts_eq_true_iff.mp (accepts_refl a)

/-- The order of two models does not matter. -/
theorem merge_comm_iff {a b m : Model} : merge a b = .ok m ↔ merge b a = .ok m := by
  rw [merge_eq_ok_iff_isLUB, merge_eq_ok_iff_isLUB, Set.pair_comm]

/-- The join of two models may stand for the two in any join. It exists where the join of more
models does, since an upper bound of these is one of the two. -/
theorem exists_isLUB_insert_iff {a b m : Model} {s : Set Model} :
    (∃ ab, IsLUB {a, b} ab ∧ IsLUB (insert ab s) m) ↔ IsLUB (insert a (insert b s)) m := by
  have hbounds {ab : Model} (hab : IsLUB {a, b} ab) :
      upperBounds (insert ab s) = upperBounds (insert a (insert b s)) := by
    rw [upperBounds_insert, ← hab.upperBounds_eq]
    simp [upperBounds_insert, Set.inter_assoc]
  constructor
  · rintro ⟨ab, hab, hm⟩
    exact (isLUB_congr (hbounds hab)).mp hm
  · intro h
    obtain ⟨ab, hab⟩ := exists_merge_of_le (a := a) (b := b) (h.1 (by simp)) (h.1 (by simp))
    have hab : IsLUB {a, b} ab := isLUB_of_merge hab
    exact ⟨ab, hab, (isLUB_congr (hbounds hab)).mpr h⟩

/-- Two merges in a row make the join of three models. -/
theorem merge_bind_merge_iff_isLUB {a b c m : Model} :
    (merge a b >>= fun ab => merge ab c) = .ok m ↔ IsLUB {a, b, c} m := by
  simp only [Except.bind_eq_ok_iff, merge_eq_ok_iff_isLUB]
  exact exists_isLUB_insert_iff

/-- **It does not matter which two of three models are merged first.** -/
theorem merge_assoc_iff {a b c m : Model} :
    (merge a b >>= fun ab => merge ab c) = .ok m ↔
      (merge b c >>= fun bc => merge a bc) = .ok m := by
  -- both sides are the join of the same three models
  have hswap : (merge b c >>= fun bc => merge a bc) = .ok m ↔
      (merge b c >>= fun bc => merge bc a) = .ok m := by
    simp only [Except.bind_eq_ok_iff, merge_comm_iff (a := a)]
  have hset : ({b, c, a} : Set Model) = {a, b, c} := by
    ext x
    simp only [Set.mem_insert_iff, Set.mem_singleton_iff]
    tauto
  rw [hswap, merge_bind_merge_iff_isLUB, merge_bind_merge_iff_isLUB, hset]

/-- An optional layer takes in what is below it, from either side. -/
theorem merge_nullable_self (a : Model) :
    merge (nullable a) a = .ok (nullable a) ∧ merge a (nullable a) = .ok (nullable a) := by
  have h : merge (nullable a) a = .ok (nullable a) := accepts_eq_true_iff.mp (le_nullable a)
  exact ⟨h, merge_comm_iff.mp h⟩

/-- **Acceptance is a partial order, and merging is its join.** Two models have a merge exactly if
some model accepts both, and the merge is then the least such model; so merging is idempotent,
commutative and associative, failures included, and an optional layer takes in what is below it. -/
theorem accepts_order_and_merge_join :
    (∀ a : Model, a.accepts a = true) ∧
    (∀ a b : Model, a.accepts b = true → b.accepts a = true → a = b) ∧
    (∀ a b c : Model, a.accepts b = true → b.accepts c = true → a.accepts c = true) ∧
    (∀ a b : Model, (∃ m, merge a b = .ok m) ↔
      ∃ d : Model, d.accepts a = true ∧ d.accepts b = true) ∧
    (∀ a b m : Model, merge a b = .ok m → m.accepts a = true ∧ m.accepts b = true ∧
      ∀ d : Model, d.accepts a = true → d.accepts b = true → d.accepts m = true) ∧
    (∀ a : Model, merge a a = .ok a) ∧
    (∀ a b m : Model, merge a b = .ok m ↔ merge b a = .ok m) ∧
    (∀ a b c m : Model, (merge a b >>= fun ab => merge ab c) = .ok m ↔
      (merge b c >>= fun bc => merge a bc) = .ok m) ∧
    (∀ a : Model, merge (nullable a) a = .ok (nullable a) ∧
      merge a (nullable a) = .ok (nullable a)) := by
  -- the order first, and then what a least upper bound says about merging
  refine ⟨accepts_refl, fun _ _ => accepts_antisymm, fun _ _ _ => accepts_trans, ?bounded, ?least,
    merge_self, fun _ _ _ => merge_comm_iff, fun _ _ _ _ => merge_assoc_iff, merge_nullable_self⟩
  case bounded =>
    intro a b
    constructor
    · rintro ⟨m, hm⟩
      exact ⟨m, le_of_merge_left hm, le_of_merge_right hm⟩
    · rintro ⟨d, ha, hb⟩
      exact exists_merge_of_le ha hb
  case least =>
    intro a b m hm
    exact isLUB_pair_iff.mp (isLUB_of_merge hm)

end CheckedExpr.Model
