import CheckedExpr.Evaluation
import CheckedExpr.Inference
import CheckedExpr.Proofs.Parts

/-!
# Walks in lockstep

Two walks over one expression, in two scopes or with two allowances, take the same steps as long as
the parts give them the same. So they are compared one level at a time: whoever knows how they
compare at the parts, and that the scopes agree, knows how they compare at the expression.

Two inferences are compared by equality. Two evaluations may be compared in other ways too, and need
not even have hosts with the same world: any relation will do that is kept by the steps of which
evaluations are made. A `Lockstep` is such a relation, and the steps of evaluation are gone through
once for all of them.

* `Expr.infer_congr`: one level of two inferences.
* `Lockstep`, `Lockstep.evaluate`: one level of two evaluations.
* `Expr.infer_of_enter_error`, `Expr.evaluate_of_enter_error`: a walk that has no level left does
  not look at the expression.
-/

namespace CheckedExpr

/-! ### Inference -/

/-- Where a level is left, what comes next goes on with it. -/
theorem Inference.descend_bind {α : Type} {allowance inner : Allowance}
    {next : Allowance → Except InferError α} (h : allowance.enter = .ok inner) :
    (descend allowance >>= next) = next inner := by
  rw [descend, h]
  rfl

namespace Expr

section Inference

variable {scope scope' : Scope Model} {allowance allowance' inner inner' : Allowance}

/-- Without a level, the expression does not matter. -/
theorem infer_of_enter_error {e : Expr} {limit : Nat} (h : allowance.enter = .error limit) :
    e.infer scope allowance = .error (.tooDeep limit) := by
  unfold infer Inference.descend
  rw [h]
  rfl

section Lists

variable {es : List Expr} (hes : ∀ e ∈ es, e.infer scope inner = e.infer scope' inner')

include hes

/-- Lists come out alike if their members do. -/
theorem inferAll_congr : inferAll scope inner es = inferAll scope' inner' es := by
  induction es with
  | nil => rfl
  | cons e es ih =>
    obtain ⟨he, hes⟩ := List.forall_mem_cons.mp hes
    rw [inferAll, inferAll, he, ih hes]

/-- And so do merged models, with whatever is merged already. -/
theorem inferMerged_congr (known : Option Model) :
    inferMerged scope inner known es = inferMerged scope' inner' known es := by
  induction es generalizing known with
  | nil => rfl
  | cons e es ih =>
    obtain ⟨he, hes⟩ := List.forall_mem_cons.mp hes
    rw [inferMerged, inferMerged, he]
    simp only [ih hes]

/-- And so do last ones. -/
theorem inferLast_congr (last : Model) :
    inferLast scope inner last es = inferLast scope' inner' last es := by
  induction es generalizing last with
  | nil => rfl
  | cons e es ih =>
    obtain ⟨he, hes⟩ := List.forall_mem_cons.mp hes
    rw [inferLast, inferLast, he]
    simp only [ih hes]

end Lists

/-- **One level of two inferences.** What is inferred for an expression is settled by what is
inferred for its parts, its own name if it is one, and `this` if it is that. -/
theorem infer_congr {e : Expr} (hinner : allowance.enter = .ok inner)
    (hinner' : allowance'.enter = .ok inner') (hscope : scope.AgreesOn e scope')
    (hparts : ∀ part ∈ e.parts, part.infer scope inner = part.infer scope' inner') :
    e.infer scope allowance = e.infer scope' allowance' := by
  unfold infer
  rw [Inference.descend_bind hinner, Inference.descend_bind hinner']
  -- the name behind a point is no part, and is not looked up in either scope
  cases e with
  | literal value => rfl
  | identifier name =>
    dsimp only
    rw [hscope.lookup name .self]
  | this =>
    dsimp only
    rw [hscope.this .self]
  | array elements =>
    have hes : ∀ e ∈ elements, e.infer scope inner = e.infer scope' inner' := hparts
    dsimp only
    rw [inferMerged_congr hes]
  | unary op argument before =>
    dsimp only
    rw [hparts argument (by simp [parts])]
  | binary op left right =>
    dsimp only
    rw [hparts left (by simp [parts]), hparts right (by simp [parts])]
  | logical op left right =>
    dsimp only
    rw [hparts left (by simp [parts]), hparts right (by simp [parts])]
  | conditional test consequent alternate =>
    dsimp only
    rw [hparts test (by simp [parts]), hparts consequent (by simp [parts]),
      hparts alternate (by simp [parts])]
  | sequence body => exact inferLast_congr hparts .null
  | member computed object property =>
    cases computed with
    | true =>
      dsimp only
      rw [hparts object (by simp [parts]), hparts property (by simp [parts])]
    | false =>
      dsimp only
      rw [hparts object (by simp [parts])]
  | call callee arguments =>
    obtain ⟨hcallee, hes⟩ := List.forall_mem_cons.mp hparts
    dsimp only
    rw [hcallee, inferAll_congr hes]

end Inference

end Expr

/-! ### Evaluation -/

variable {κ σ σ' : Type}

/-- A relation between parts of runs under two hosts that is kept by every step of an evaluation. -/
structure Lockstep (host : Host κ σ) (host' : Host κ σ') where
  /-- Whether two parts of runs are related. -/
  Rel : ∀ {α : Type}, Evaluation κ σ α → Evaluation κ σ' α → Prop
  pure : ∀ {α : Type} (a : α), Rel (Pure.pure a) (Pure.pure a)
  bind : ∀ {α β : Type} {m : Evaluation κ σ α} {m' : Evaluation κ σ' α}
    {next : α → Evaluation κ σ β} {next' : α → Evaluation κ σ' β}, Rel m m' →
      (∀ a, Rel (next a) (next' a)) → Rel (m >>= next) (m' >>= next')
  apply : ∀ (op : BinaryOp) (v w : Value κ),
    Rel (Evaluation.ofExcept (op.apply v w)) (Evaluation.ofExcept (op.apply v w))
  newArray : ∀ items : List (Value κ), Rel (Evaluation.newArray items) (Evaluation.newArray items)
  read : ∀ object key : Value κ, Rel (Evaluation.read object key) (Evaluation.read object key)
  call : ∀ (callee : Value κ) (arguments : List (Value κ)),
    Rel (Evaluation.call host callee arguments) (Evaluation.call host' callee arguments)

namespace Evaluation

variable {α β : Type}

/-- A step down that the allowance has room for goes on with what is left. -/
theorem descend_bind {allowance inner : Allowance} {next : Allowance → Evaluation κ σ β}
    (h : allowance.enter = .ok inner) : (descend allowance >>= next) = next inner := by
  rw [descend, h]
  exact pure_bind inner next

end Evaluation

theorem Expr.evaluate_of_enter_error {host : Host κ σ} {scope : Scope (Value κ)}
    {allowance : Allowance} {e : Expr} {limit : Nat} (h : allowance.enter = .error limit) :
    e.evaluate host scope allowance = throw (.tooDeep limit) := by
  unfold Expr.evaluate Evaluation.descend
  rw [h]
  rfl

namespace Lockstep

open CheckedExpr.Expr

variable {host : Host κ σ} {host' : Host κ σ'} {scope scope' : Scope (Value κ)}
  {allowance allowance' inner inner' : Allowance}

/-- Tests of one value decide both runs alike. -/
theorem ite (steps : Lockstep host host') {α : Type} {c : Bool} {m n : Evaluation κ σ α}
    {m' n' : Evaluation κ σ' α} (hm : steps.Rel m m') (hn : steps.Rel n n') :
    steps.Rel (if c then m else n) (if c then m' else n') := by
  cases c with
  | true => exact hm
  | false => exact hn

section Lists

variable (steps : Lockstep host host') {es : List Expr}
  (hes : ∀ e ∈ es, steps.Rel (e.evaluate host scope inner) (e.evaluate host' scope' inner'))

include hes

/-- Lists are in lockstep if their members are. -/
theorem evaluateAll :
    steps.Rel (evaluateAll host scope inner es) (evaluateAll host' scope' inner' es) := by
  induction es with
  | nil => exact steps.pure []
  | cons e es ih =>
    obtain ⟨he, hes⟩ := List.forall_mem_cons.mp hes
    exact steps.bind he fun _ => steps.bind (ih hes) fun _ => steps.pure _

/-- So are sequences. -/
theorem evaluateLast (last : Value κ) :
    steps.Rel (evaluateLast host scope inner last es)
      (evaluateLast host' scope' inner' last es) := by
  induction es generalizing last with
  | nil => exact steps.pure last
  | cons e es ih =>
    obtain ⟨he, hes⟩ := List.forall_mem_cons.mp hes
    exact steps.bind he fun v => ih hes v

end Lists

/-- **One level of two evaluations.** They are related at an expression if they are related at its
parts, whatever relation it is that their steps keep. -/
theorem evaluate (steps : Lockstep host host') {e : Expr} (hinner : allowance.enter = .ok inner)
    (hinner' : allowance'.enter = .ok inner') (hscope : scope.AgreesOn e scope')
    (hparts : ∀ part ∈ e.parts,
      steps.Rel (part.evaluate host scope inner) (part.evaluate host' scope' inner')) :
    steps.Rel (e.evaluate host scope allowance) (e.evaluate host' scope' allowance') := by
  unfold Expr.evaluate
  rw [Evaluation.descend_bind hinner, Evaluation.descend_bind hinner']
  cases e with
  | literal value => exact steps.pure _
  | identifier name =>
    dsimp only
    rw [hscope.lookup name .self]
    exact steps.pure _
  | this =>
    dsimp only
    rw [hscope.this .self]
    exact steps.pure _
  | array elements => exact steps.bind (steps.evaluateAll hparts) fun items => steps.newArray items
  | unary op argument before =>
    exact steps.bind (hparts argument (by simp [parts])) fun v => steps.pure _
  | binary op left right =>
    have hleft := hparts left (by simp [parts])
    have hright := hparts right (by simp [parts])
    -- only `??` may leave its right operand alone
    cases op with
    | nullish => exact steps.bind hleft fun v => steps.ite hright (steps.pure v)
    | _ => exact steps.bind hleft fun v => steps.bind hright fun w => steps.apply _ v w
  | logical op left right =>
    have hleft := hparts left (by simp [parts])
    have hright := hparts right (by simp [parts])
    cases op with
    | and => exact steps.bind hleft fun v => steps.ite hright (steps.pure v)
    | or => exact steps.bind hleft fun v => steps.ite (steps.pure v) hright
  | conditional test consequent alternate =>
    refine steps.bind (hparts test (by simp [parts])) fun v => ?_
    exact steps.ite (hparts consequent (by simp [parts])) (hparts alternate (by simp [parts]))
  | sequence body => exact steps.evaluateLast hparts .undefined
  | member computed object property =>
    cases computed with
    | true =>
      refine steps.bind (hparts object (by simp [parts])) fun v => ?_
      exact steps.bind (hparts property (by simp [parts])) fun key => steps.read v key
    | false =>
      refine steps.bind (hparts object (by simp [parts])) fun v => ?_
      -- a property without a name is undefined
      cases property with
      | identifier name => exact steps.read v _
      | _ => exact steps.pure _
  | call callee arguments =>
    obtain ⟨hcallee, hes⟩ := List.forall_mem_cons.mp hparts
    refine steps.bind hcallee fun v => steps.bind (steps.evaluateAll hes) fun values => ?_
    exact steps.call v values

end Lockstep

end CheckedExpr
