import CheckedExpr.Operator.Apply
import CheckedExpr.Proofs.NumericStrings

/-!
# The two equalities

Values of different kinds are compared loosely in rounds: a round answers at once, or it converts
one of the values and compares again. A truth value becomes a number and a composite value becomes
its text, so nothing is converted twice, and no comparison takes more than three rounds. What comes
out is loose equality as it is defined at one go.

Loose equality does not depend on the order of the two values, and it holds wherever strict equality
does. Neither of the two is an equivalence: what is not a number is not equal to itself.

* `looseRound_step`: a further round has the same answer and less to convert.
* `looseWithin_eq`: rounds come to an end, with the answer of `looseEquals`.
* `equalityLaws`: what holds of both equalities at any two values.
-/

namespace CheckedExpr

namespace Number

variable {x y : Float}

/-- Equality of numbers is symmetric, also between the two zeros. -/
theorem beq_symm (h : (x == y) = true) : (y == x) = true := by
  obtain ⟨hx, hy, heq⟩ := Float.beq_iff_ne_nan_and_eq.mp h
  refine Float.beq_iff_ne_nan_and_eq.mpr ⟨hy, hx, ?_⟩
  rcases heq with rfl | ⟨rfl, rfl⟩ | ⟨rfl, rfl⟩
  · exact .inl rfl
  · exact .inr (.inr ⟨rfl, rfl⟩)
  · exact .inr (.inl ⟨rfl, rfl⟩)

theorem beq_comm (x y : Float) : (x == y) = (y == x) :=
  Bool.eq_iff_iff.mpr ⟨beq_symm, beq_symm⟩

end Number

namespace Value

variable {κ : Type}

/-! ### Comparing in rounds -/

/-- What a round of a loose comparison comes to. -/
inductive Round (κ : Type) where
  | answer (equal : Bool)
  /-- The two values that are to be compared instead. -/
  | again (v w : Value κ)

/-- One round of a loose comparison: the first of the cases that apply. -/
def looseRound (v w : Value κ) : Round κ :=
  if v.kind = w.kind then .answer (v.strictEquals w)
  else if v.isNullish || w.isNullish then .answer (v.isNullish && w.isNullish)
  else
    match v, w with
    | number x, string _ => .answer (x == w.toNumber)
    | string _, number y => .answer (v.toNumber == y)
    | boolean _, _ => .again (number v.toNumber) w
    | _, boolean _ => .again v (number w.toNumber)
    | _, _ =>
      if !v.isPrimitive && w.isPrimitive then .again v.toPrimitive w
      else if v.isPrimitive && !w.isPrimitive then .again v w.toPrimitive
      else .answer false

/-- A loose comparison in at most so many rounds, if they are enough. -/
def looseWithin : ℕ → Value κ → Value κ → Option Bool
  | 0, _, _ => none
  | rounds + 1, v, w =>
    match looseRound v w with
    | .answer equal => some equal
    | .again v' w' => looseWithin rounds v' w'

/-- How often a value can be converted when it is compared. -/
def conversions : Value κ → ℕ
  | boolean _ | array .. | object .. | function .. => 1
  | _ => 0

/-- No value is converted twice. -/
theorem conversions_le_one (v : Value κ) : v.conversions ≤ 1 := by
  cases v with
  | undefined | null | number | string => exact Nat.zero_le 1
  | _ => exact le_rfl

/-- A composite value is converted to its text, which is not converted again. -/
theorem conversions_of_composite {v : Value κ} (hv : v.isPrimitive = false) :
    v.conversions = 1 ∧ v.toPrimitive.conversions = 0 := by
  cases v with
  | array | object | function => exact ⟨rfl, rfl⟩
  | _ => cases hv

/-! ### Symmetry -/

/-- Strict equality does not depend on the order. -/
theorem strictEquals_comm (v w : Value κ) : v.strictEquals w = w.strictEquals v := by
  cases v with
  | undefined | null => cases w <;> rfl
  | number x =>
    cases w with
    | number y => exact Number.beq_comm x y
    | _ => rfl
  | boolean | string | array | object | function =>
    cases w <;> first | rfl | exact BEq.comm

theorem equalConverted_comm (v w : Value κ) : v.equalConverted w = w.equalConverted v := by
  cases v with
  | string s =>
    cases w with
    | string t => exact BEq.comm
    | _ => exact Number.beq_comm _ _
  | _ => cases w <;> exact Number.beq_comm _ _

/-- **Loose equality does not depend on the order.** -/
theorem looseEquals_comm (v w : Value κ) : v.looseEquals w = w.looseEquals v := by
  unfold looseEquals
  rw [strictEquals_comm v w, equalConverted_comm v.toPrimitive w.toPrimitive,
    Bool.or_comm v.isNullish, Bool.and_comm v.isNullish, Bool.or_comm v.isPrimitive]
  simp only [eq_comm (a := v.kind)]

/-! ### What a conversion changes -/

variable {v w v' w' : Value κ}

/-- A truth value is equal to what the number of it is equal to. -/
theorem looseEquals_boolean (b : Bool) (hw : w.kind ≠ .boolean) (hpresent : w.isNullish = false) :
    (number (boolean b : Value κ).toNumber).looseEquals w = (boolean b).looseEquals w := by
  cases w with
  | boolean => exact absurd rfl hw
  | undefined | null => cases hpresent
  | _ => rfl

/-- A composite value is equal to the primitive ones that its text is equal to. -/
theorem looseEquals_toPrimitive (hv : v.isPrimitive = false) (hw : w.isPrimitive = true) :
    v.toPrimitive.looseEquals w = v.looseEquals w := by
  cases v with
  | array | object | function =>
    cases w with
    | array | object | function => cases hw
    | _ => rfl
  | _ => cases hv

/-- What a round can do: it answers, or it converts one value, a truth value before a composite
one. -/
theorem looseRound_cases (v w : Value κ) :
    looseRound v w = .answer (v.looseEquals w) ∨
      (∃ b, v = boolean b ∧ w.kind ≠ .boolean ∧ w.isNullish = false ∧
        looseRound v w = .again (number v.toNumber) w) ∨
      (∃ b, w = boolean b ∧ v.kind ≠ .boolean ∧ v.isNullish = false ∧
        looseRound v w = .again v (number w.toNumber)) ∨
      (v.isPrimitive = false ∧ w.isPrimitive = true ∧ looseRound v w = .again v.toPrimitive w) ∨
      (w.isPrimitive = false ∧ v.isPrimitive = true ∧ looseRound v w = .again v w.toPrimitive) := by
  -- by the kinds of both values, in the order in which a round tries its cases
  cases v with
  | undefined | null => exact .inl (by cases w <;> rfl)
  | boolean b =>
    cases w with
    | undefined | null | boolean => exact .inl rfl
    | _ => exact .inr (.inl ⟨b, rfl, nofun, rfl, rfl⟩)
  | number | string =>
    cases w with
    | boolean b => exact .inr (.inr (.inl ⟨b, rfl, nofun, rfl, rfl⟩))
    | array | object | function => exact .inr (.inr (.inr (.inr ⟨rfl, rfl, rfl⟩)))
    | _ => exact .inl rfl
  | array | object | function =>
    cases w with
    | boolean b => exact .inr (.inr (.inl ⟨b, rfl, nofun, rfl, rfl⟩))
    | number | string => exact .inr (.inr (.inr (.inl ⟨rfl, rfl, rfl⟩)))
    | _ => exact .inl rfl

/-- A round that does not answer keeps the answer, and leaves less to convert. -/
theorem looseRound_step (v w : Value κ) :
    looseRound v w = .answer (v.looseEquals w) ∨
      ∃ v' w', looseRound v w = .again v' w' ∧ v'.looseEquals w' = v.looseEquals w ∧
        v'.conversions + w'.conversions < v.conversions + w.conversions := by
  -- a conversion takes one of the two that are left, and never adds another
  rcases looseRound_cases v w with hanswer | ⟨b, rfl, hkind, hpresent, hround⟩ |
    ⟨b, rfl, hkind, hpresent, hround⟩ | ⟨hv, hw, hround⟩ | ⟨hw, hv, hround⟩
  · exact .inl hanswer
  · exact .inr ⟨_, _, hround, looseEquals_boolean b hkind hpresent,
      Nat.add_lt_add_right Nat.zero_lt_one _⟩
  · -- on the right it is the same by symmetry
    refine .inr ⟨_, _, hround, ?_, Nat.add_lt_add_left Nat.zero_lt_one _⟩
    rw [looseEquals_comm, looseEquals_boolean b hkind hpresent, looseEquals_comm]
  · obtain ⟨hone, hzero⟩ := conversions_of_composite hv
    exact .inr ⟨_, _, hround, looseEquals_toPrimitive hv hw, by omega⟩
  · obtain ⟨hone, hzero⟩ := conversions_of_composite hw
    refine .inr ⟨_, _, hround, ?_, by omega⟩
    rw [looseEquals_comm, looseEquals_toPrimitive hw hv, looseEquals_comm]

/-- **Comparing in rounds comes to an end,** when there is nothing left to convert. -/
theorem looseWithin_eq {rounds : ℕ} (h : v.conversions + w.conversions < rounds) :
    looseWithin rounds v w = some (v.looseEquals w) := by
  -- the values change from round to round, and what is left to convert stays below the rounds left
  induction rounds generalizing v w with
  | zero => exact absurd h (Nat.not_lt_zero _)
  | succ rounds ih =>
    rw [looseWithin]
    rcases looseRound_step v w with hanswer | ⟨v', w', hround, hkeep, hless⟩
    · rw [hanswer]
    · rw [hround, ← hkeep]
      exact ih (by omega)

/-! ### Laws -/

theorem kind_eq_of_strictEquals (h : v.strictEquals w = true) : v.kind = w.kind := by
  cases v <;> cases w <;> first | rfl | cases h

theorem looseEquals_of_strictEquals (h : v.strictEquals w = true) : v.looseEquals w = true := by
  rw [looseEquals_of_kind_eq (kind_eq_of_strictEquals h), h]

/-- What is absent is loosely equal to what is absent, and to nothing else. -/
theorem looseEquals_of_isNullish (hv : v.isNullish = true) : v.looseEquals w = w.isNullish := by
  cases v with
  | undefined | null => cases w <;> rfl
  | _ => cases hv

/-- What the operators for equality tell of two values. -/
structure EqualityLaws (v w : Value κ) : Prop where
  /-- Comparing in rounds takes three of them at most, and gives the answer of `==`. -/
  settles : ∀ rounds ≥ 3, ∃ equal, looseWithin rounds v w = some equal ∧
    BinaryOp.eq.apply v w = .ok (boolean equal)
  symmetric : BinaryOp.eq.apply v w = BinaryOp.eq.apply w v
  of_strict : BinaryOp.strictEq.apply v w = .ok (boolean true) →
    BinaryOp.eq.apply v w = .ok (boolean true)
  same_kind : v.kind = w.kind → BinaryOp.eq.apply v w = BinaryOp.strictEq.apply v w
  nullish : v.isNullish = true → BinaryOp.eq.apply v w = .ok (boolean w.isNullish)
  negated : ∃ equal, BinaryOp.eq.apply v w = .ok (boolean equal) ∧
    BinaryOp.ne.apply v w = .ok (boolean !equal)
  strictly_negated : ∃ equal, BinaryOp.strictEq.apply v w = .ok (boolean equal) ∧
    BinaryOp.strictNe.apply v w = .ok (boolean !equal)

/-- **The laws of equality hold of any two values.** -/
theorem equalityLaws (v w : Value κ) : EqualityLaws v w where
  settles rounds hrounds := by
    -- each of the values is converted once at most
    have hv := v.conversions_le_one
    have hw := w.conversions_le_one
    exact ⟨_, looseWithin_eq (by omega), rfl⟩
  symmetric := by
    simp only [BinaryOp.apply]
    rw [looseEquals_comm]
  of_strict h := by
    simp only [BinaryOp.apply, Except.ok.injEq, boolean.injEq] at h ⊢
    exact looseEquals_of_strictEquals h
  same_kind hkind := by
    simp only [BinaryOp.apply]
    rw [looseEquals_of_kind_eq hkind]
  nullish hv := by
    simp only [BinaryOp.apply]
    rw [looseEquals_of_isNullish hv]
  negated := ⟨_, rfl, rfl⟩
  strictly_negated := ⟨_, rfl, rfl⟩

/-- Three rounds may be needed: first the truth value becomes a number, then the array its text. -/
example : looseWithin 3 (boolean true : Value Unit) (array 0 [number 1]) = some true ∧
    looseWithin 2 (boolean true : Value Unit) (array 0 [number 1]) = none := by
  decide +kernel

end Value

end CheckedExpr
