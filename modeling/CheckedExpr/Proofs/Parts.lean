import CheckedExpr.Proofs.TreeInduction
import CheckedExpr.Scope

/-!
# The parts of an expression

Inference and evaluation walk over an expression from the whole to its parts. What stands as the
property of a member that is not computed is no such part: of it they want to know its name only.
Whatever is said level by level, of an expression and its parts, is said of the whole walk.

* `Expr.parts`, `Expr.parts_induction`: what a walk goes to from an expression.
* `Expr.OccursIn`: what it may come to at all.
* `Scope.AgreesOn`: two scopes that tell a walk over an expression the same. Nothing is asked of
  names that do not occur in it, and of `this` only if it occurs.
-/

namespace CheckedExpr

namespace Expr

/-- The parts of an expression that inference looks at. -/
def parts : Expr → List Expr
  | array elements => elements
  | binary _ left right => [left, right]
  | call callee arguments => callee :: arguments
  | sequence body => body
  | conditional test consequent alternate => [test, consequent, alternate]
  | logical _ left right => [left, right]
  | member true object property => [object, property]
  | member false object _ => [object]
  | unary _ argument _ => [argument]
  | identifier _ | literal _ | this => []

/-- Induction over the parts that inference looks at. -/
@[elab_as_elim]
theorem parts_induction {P : Expr → Prop} (h : ∀ e, (∀ part ∈ e.parts, P part) → P e) (e : Expr) :
    P e := by
  -- the property of a member that is not computed is a tree below it, but no part of it
  induction e using tree_induction with
  | array elements hes => exact h _ hes
  | binary op left right hleft hright => exact h _ (by simp [parts, hleft, hright])
  | call callee arguments hcallee hes => exact h _ (List.forall_mem_cons.mpr ⟨hcallee, hes⟩)
  | sequence body hes => exact h _ hes
  | conditional test consequent alternate htest hconsequent halternate =>
    exact h _ (by simp [parts, htest, hconsequent, halternate])
  | identifier | literal | this => exact h _ (by simp [parts])
  | logical op left right hleft hright => exact h _ (by simp [parts, hleft, hright])
  | member computed object property hobject hproperty =>
    cases computed with
    | true => exact h _ (by simp [parts, hobject, hproperty])
    | false => exact h _ (by simp [parts, hobject])
  | unary op argument before hargument => exact h _ (by simp [parts, hargument])

/-- Whether an expression occurs in another one: as this itself, or in a part of it. What stands as
the property of a member that is not computed does not occur there, nor does what is inside. -/
inductive OccursIn (a : Expr) : Expr → Prop
  | self : OccursIn a a
  | part {part e : Expr} (hpart : part ∈ e.parts) (h : OccursIn a part) : OccursIn a e

/-- What occurs in an expression is the expression, or occurs in one of its parts. -/
theorem occursIn_iff {a e : Expr} :
    a.OccursIn e ↔ a = e ∨ ∃ part ∈ e.parts, a.OccursIn part := by
  constructor
  · intro h
    cases h with
    | self => exact .inl rfl
    | part hpart h => exact .inr ⟨_, hpart, h⟩
  · rintro (rfl | ⟨part, hpart, h⟩)
    · exact .self
    · exact .part hpart h

end Expr

namespace Scope

variable {α : Type} {scope scope' : Scope α} {e part : Expr}

/-- Whether two scopes agree on an expression: on all names that occur in it, bound or not, and on
`this` if it occurs. -/
structure AgreesOn (scope : Scope α) (e : Expr) (scope' : Scope α) : Prop where
  lookup : ∀ name, (Expr.identifier name).OccursIn e → scope.lookup name = scope'.lookup name
  this : Expr.this.OccursIn e → scope.this = scope'.this

theorem AgreesOn.refl (scope : Scope α) (e : Expr) : scope.AgreesOn e scope :=
  ⟨fun _ _ => rfl, fun _ => rfl⟩

theorem AgreesOn.of_mem_parts (h : scope.AgreesOn e scope') (hpart : part ∈ e.parts) :
    scope.AgreesOn part scope' :=
  ⟨fun name hname => h.lookup name (.part hpart hname), fun hthis => h.this (.part hpart hthis)⟩

end Scope

end CheckedExpr
