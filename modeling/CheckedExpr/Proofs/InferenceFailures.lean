import CheckedExpr.Inference
import CheckedExpr.Proofs.Except
import CheckedExpr.Proofs.Parts

/-!
# How inference fails

Inference fails at an expression for want of a level, for a reason that the expression gives, or
since it fails at a part of the expression that it looks at. The reasons of an expression are few,
and most of them are about models that do not fit each other. So whether all failures of inference
have some property can be seen level by level, without a look at its steps.

* `Expr.Blames`: the reasons that an expression gives.
* `Expr.failsWith_infer`: the failures of one level.
-/

namespace CheckedExpr

/-- Whether an error is about models that do not fit. -/
def InferError.IsMismatch : InferError → Prop
  | merge _ | unmet .. | argument .. | undeclared _ => True
  | tooDeep _ | unbound _ | emptyArray | behindOperand _ | unnamedProperty _ => False

namespace Inference

open Except (FailsWith failsWith_ok failsWith_error)

variable {β : Type} {p : InferError → Prop}

/-- Going down a level adds one failure: that of the level that is missing. -/
theorem failsWith_descend {allowance : Allowance} {next : Allowance → Except InferError β}
    (hlevel : ∀ limit, allowance.enter = .error limit → p (.tooDeep limit))
    (hnext : ∀ inner, allowance.enter = .ok inner → FailsWith p (next inner)) :
    FailsWith p (descend allowance >>= next) := by
  unfold descend
  cases henter : allowance.enter with
  | error limit => exact failsWith_error (hlevel limit henter)
  | ok inner => exact hnext inner henter

/-! ### Demands -/

/-- A demand that is not met is about the model that does not meet it. -/
theorem failsWith_require (requirement : Requirement) (m : Model) :
    FailsWith InferError.IsMismatch (require requirement m) := by
  unfold require
  split
  · exact failsWith_ok ()
  · exact failsWith_error trivial

/-- Merging fails with the reason why two models have no bound in common. -/
theorem failsWith_merge (expected : Option Model) (actual : Model) :
    FailsWith InferError.IsMismatch (merge expected actual) := by
  unfold merge
  cases Model.mergeInto expected actual with
  | ok m => exact failsWith_ok m
  | error cause => exact failsWith_error trivial

/-- Elements of something that is no array: a mismatch. -/
theorem failsWith_elementOf (m : Model) : FailsWith InferError.IsMismatch (elementOf m) := by
  cases m with
  | array element => exact failsWith_ok element
  | simple | nullable | object | function => exact failsWith_error trivial

/-- A field that is not declared, like a field of something that is no object, is a mismatch. -/
theorem failsWith_entryOf (key : String) (m : Model) :
    FailsWith InferError.IsMismatch (entryOf key m) := by
  cases m with
  | object entries =>
    unfold entryOf
    dsimp only
    cases entries.lookup key with
    | some entry => exact failsWith_ok entry
    | none => exact failsWith_error trivial
  | simple | nullable | array | function => exact failsWith_error trivial

/-- A call of something that is no function: a mismatch. -/
theorem failsWith_signatureOf (m : Model) : FailsWith InferError.IsMismatch (signatureOf m) := by
  cases m with
  | function parameters result => exact failsWith_ok _
  | simple | nullable | array | object => exact failsWith_error trivial

/-- The first argument that a parameter does not accept is the failure. -/
theorem failsWith_acceptArguments (index : Nat) (parameters arguments : List Model) :
    FailsWith InferError.IsMismatch (acceptArguments index parameters arguments) := by
  -- the recursion runs along the parameters, while the arguments may end before them
  induction parameters generalizing index arguments with
  | nil => exact failsWith_ok ()
  | cons p ps ih =>
    unfold acceptArguments
    dsimp only
    split
    · exact ih _ _
    · exact failsWith_error trivial

/-- Unary operators ask one thing of their operand, and fail only by that. -/
theorem failsWith_unary (op : UnaryOp) (m : Model) :
    FailsWith InferError.IsMismatch (unary op m) := by
  cases op <;> exact (failsWith_require _ _).bind fun _ => failsWith_ok _

/-- Whatever an operator asks, of its operands or of their merge, a failure is a mismatch. -/
theorem failsWith_binary (op : BinaryOp) (m n : Model) :
    FailsWith InferError.IsMismatch (binary op m n) := by
  -- two operators have steps of their own, all the others merge, ask and answer
  cases op with
  | nullish => exact failsWith_merge _ _
  | isIn =>
    exact (failsWith_elementOf n).bind fun _ => (failsWith_merge _ _).bind fun _ =>
      (failsWith_require _ _).bind fun _ => failsWith_ok _
  | _ =>
    exact (failsWith_merge _ _).bind fun _ => (failsWith_require _ _).bind fun _ =>
      failsWith_ok _

end Inference

/-! ### Expressions -/

namespace Expr

open Inference
open Except (FailsWith failsWith_ok failsWith_error)

/-- What an expression may be blamed for, when its parts have models. -/
inductive Blames : Expr → InferError → Prop
  | mismatch {e : Expr} {err : InferError} (h : err.IsMismatch) : Blames e err
  | unbound (name : String) : Blames (identifier name) (.unbound name)
  | emptyArray (elements : List Expr) : Blames (array elements) .emptyArray
  | behindOperand (op : UnaryOp) (argument : Expr) :
    Blames (unary op argument false) (.behindOperand op)
  | unnamedProperty (object property : Expr) (h : ∀ key, property ≠ identifier key) :
    Blames (member false object property) (.unnamedProperty property)

variable {scope : Scope Model} {allowance : Allowance} {p : InferError → Prop}

section Lists

variable (hmismatch : ∀ err : InferError, err.IsMismatch → p err) {es : List Expr}
  (hes : ∀ e ∈ es, FailsWith p (e.infer scope allowance))

include hes

/-- A list fails only as one of its members does. -/
theorem failsWith_inferAll : FailsWith p (inferAll scope allowance es) := by
  induction es with
  | nil => exact failsWith_ok []
  | cons e es ih =>
    obtain ⟨he, hes⟩ := List.forall_mem_cons.mp hes
    exact he.bind fun _ => (ih hes).bind fun _ => failsWith_ok _

/-- A sequence fails only as one of its members does, the last one or not. -/
theorem failsWith_inferLast (last : Model) :
    FailsWith p (inferLast scope allowance last es) := by
  induction es generalizing last with
  | nil => exact failsWith_ok last
  | cons e es ih =>
    obtain ⟨he, hes⟩ := List.forall_mem_cons.mp hes
    exact he.bind fun m => ih hes m

include hmismatch

/-- Elements that are merged may fail to meet, besides failing one by one. -/
theorem failsWith_inferMerged (known : Option Model) :
    FailsWith p (inferMerged scope allowance known es) := by
  induction es generalizing known with
  | nil => exact failsWith_ok known
  | cons e es ih =>
    obtain ⟨he, hes⟩ := List.forall_mem_cons.mp hes
    exact he.bind fun m => ((failsWith_merge _ _).mono hmismatch).bind fun merged => ih hes _

end Lists

/-- **The failures of one level.** Inference fails at an expression for want of a level, with what
the expression is blamed for, or as it fails at one of the parts. -/
theorem failsWith_infer {e : Expr}
    (hlevel : ∀ limit, allowance.enter = .error limit → p (.tooDeep limit))
    (hblames : ∀ err, e.Blames err → p err)
    (hparts : ∀ inner, allowance.enter = .ok inner →
      ∀ part ∈ e.parts, FailsWith p (part.infer scope inner)) :
    FailsWith p (e.infer scope allowance) := by
  have hmismatch : ∀ err : InferError, err.IsMismatch → p err :=
    fun err h => hblames err (.mismatch h)
  -- in every case the steps are bound in the order of inference, each with the lemma on its own
  -- failures
  cases e with
  | array elements =>
    refine failsWith_descend hlevel fun inner hinner => ?_
    refine (failsWith_inferMerged hmismatch (hparts inner hinner) none).bind fun element => ?_
    cases element with
    | none => exact failsWith_error (hblames _ (.emptyArray elements))
    | some m => exact failsWith_ok _
  | binary op left right =>
    refine failsWith_descend hlevel fun inner hinner => ?_
    have hes := hparts inner hinner
    refine (hes left (by simp [parts])).bind fun m => (hes right (by simp [parts])).bind fun n => ?_
    exact (failsWith_binary op m n).mono hmismatch
  | call callee arguments =>
    refine failsWith_descend hlevel fun inner hinner => ?_
    obtain ⟨hcallee, hes⟩ := List.forall_mem_cons.mp (hparts inner hinner)
    refine hcallee.bind fun m => ((failsWith_signatureOf m).mono hmismatch).bind fun signature => ?_
    refine (failsWith_inferAll hes).bind fun ms => ?_
    exact ((failsWith_acceptArguments _ _ ms).mono hmismatch).bind fun _ => failsWith_ok _
  | sequence body =>
    refine failsWith_descend hlevel fun inner hinner => ?_
    exact failsWith_inferLast (hparts inner hinner) .null
  | conditional test consequent alternate =>
    refine failsWith_descend hlevel fun inner hinner => ?_
    have hes := hparts inner hinner
    refine (hes test (by simp [parts])).bind fun t => ?_
    refine ((failsWith_require _ t).mono hmismatch).bind fun _ => ?_
    refine (hes consequent (by simp [parts])).bind fun m => ?_
    refine (hes alternate (by simp [parts])).bind fun n => ?_
    exact (failsWith_merge m n).mono hmismatch
  | identifier name =>
    refine failsWith_descend hlevel fun inner _ => ?_
    cases scope.lookup name with
    | none => exact failsWith_error (hblames _ (.unbound name))
    | some m => exact failsWith_ok m
  | literal value => exact failsWith_descend hlevel fun _ _ => failsWith_ok _
  | logical op left right =>
    refine failsWith_descend hlevel fun inner hinner => ?_
    have hes := hparts inner hinner
    refine (hes left (by simp [parts])).bind fun m => ?_
    refine ((failsWith_require _ m).mono hmismatch).bind fun _ => ?_
    refine (hes right (by simp [parts])).bind fun n => ?_
    exact ((failsWith_require _ n).mono hmismatch).bind fun _ => failsWith_ok _
  | member computed object property =>
    cases computed with
    | true =>
      refine failsWith_descend hlevel fun inner hinner => ?_
      have hes := hparts inner hinner
      refine (hes object (by simp [parts])).bind fun m => ?_
      refine ((failsWith_elementOf m).mono hmismatch).bind fun element => ?_
      refine (hes property (by simp [parts])).bind fun key => ?_
      exact ((failsWith_require _ key).mono hmismatch).bind fun _ => failsWith_ok _
    | false =>
      refine failsWith_descend hlevel fun inner hinner => ?_
      -- a property is looked at only for its name
      cases property with
      | identifier key =>
        refine (hparts inner hinner object (by simp [parts])).bind fun m => ?_
        exact (failsWith_entryOf key m).mono hmismatch
      | _ => exact failsWith_error (hblames _ (.unnamedProperty _ _ (by simp)))
  | this => exact failsWith_descend hlevel fun _ _ => failsWith_ok _
  | unary op argument before =>
    refine failsWith_descend hlevel fun inner hinner => ?_
    cases before with
    | true =>
      refine (hparts inner hinner argument (by simp [parts])).bind fun m => ?_
      exact (failsWith_unary op m).mono hmismatch
    | false => exact failsWith_error (hblames _ (.behindOperand op argument))

end Expr

end CheckedExpr
