import CheckedExpr.Proofs.InferenceFailures
import CheckedExpr.Proofs.Lockstep

/-!
# Walks that have levels enough

Inference and evaluation go down an expression with an allowance of levels, and end with an error of
their own where it is used up. They do not go into the name behind a point, so the levels that they
need are those of `Expr.depth`, which is no greater than the height. With as many levels, neither of
the two ends with that error, whatever else goes wrong.

* `Expr.depth_le_height`: the property of a member is the only difference.
* `Expr.grounded_infer`, `Expr.grounded_evaluate`: a walk with levels enough does not run out of
  them. Each step of a walk keeps this, since no step but going down asks for a level.
-/

namespace CheckedExpr

namespace Expr

mutual

/-- The number of levels that a walk goes down an expression: one for a leaf. -/
def depth : Expr → Nat
  | array elements => 1 + depthAll elements
  | binary _ left right => 1 + max left.depth right.depth
  | call callee arguments => 1 + max callee.depth (depthAll arguments)
  | sequence body => 1 + depthAll body
  | conditional test consequent alternate =>
    1 + max test.depth (max consequent.depth alternate.depth)
  | identifier _ => 1
  | literal _ => 1
  | logical _ left right => 1 + max left.depth right.depth
  | member true object property => 1 + max object.depth property.depth
  | member false object _ => 1 + object.depth
  | this => 1
  | unary _ argument _ => 1 + argument.depth

/-- The greatest depth of some expressions: zero for none. -/
def depthAll : List Expr → Nat
  | [] => 0
  | e :: es => max e.depth (depthAll es)

end

/-- Some expressions go no deeper than a bound if each of them does. -/
theorem depthAll_le_iff {es : List Expr} {n : Nat} : depthAll es ≤ n ↔ ∀ e ∈ es, e.depth ≤ n := by
  induction es with
  | nil => simp [depthAll]
  | cons e es ih => rw [depthAll, Nat.max_le, ih, List.forall_mem_cons]

theorem heightAll_le_iff {es : List Expr} {n : Nat} :
    heightAll es ≤ n ↔ ∀ e ∈ es, e.height ≤ n := by
  induction es with
  | nil => simp [heightAll]
  | cons e es ih => rw [heightAll, Nat.max_le, ih, List.forall_mem_cons]

theorem height_le_heightAll {e : Expr} {es : List Expr} (h : e ∈ es) : e.height ≤ heightAll es :=
  heightAll_le_iff.mp (Nat.le_refl _) e h

private theorem depthAll_le_heightAll {es : List Expr} (hes : ∀ e ∈ es, e.depth ≤ e.height) :
    depthAll es ≤ heightAll es :=
  depthAll_le_iff.mpr fun e he => Nat.le_trans (hes e he) (height_le_heightAll he)

/-- A walk goes down no further than the expression is high. -/
theorem depth_le_height (e : Expr) : e.depth ≤ e.height := by
  -- the two are counted alike at every constructor but for the property of a member
  induction e using tree_induction with
  | array elements hes =>
    have hall := depthAll_le_heightAll hes
    rw [depth, height]
    omega
  | binary op left right hleft hright =>
    rw [depth, height]
    omega
  | call callee arguments hcallee hes =>
    have hall := depthAll_le_heightAll hes
    rw [depth, height]
    omega
  | sequence body hes =>
    have hall := depthAll_le_heightAll hes
    rw [depth, height]
    omega
  | conditional test consequent alternate htest hconsequent halternate =>
    rw [depth, height]
    omega
  | identifier name => exact Nat.le_refl _
  | literal value => exact Nat.le_refl _
  | logical op left right hleft hright =>
    rw [depth, height]
    omega
  | member computed object property hobject hproperty =>
    cases computed <;> rw [depth, height] <;> omega
  | this => exact Nat.le_refl _
  | unary op argument before hargument =>
    rw [depth, height]
    omega

end Expr

/-! ### Inference -/

/-- Whether a part of inference ends otherwise than for want of levels. -/
def Inference.Grounded {α : Type} (x : Except InferError α) : Prop :=
  ∀ limit, x ≠ .error (.tooDeep limit)

namespace Expr

open Inference
open Except (FailsWith)

variable {scope : Scope Model} {limit room : Nat}

/-- Even a leaf takes a level. -/
theorem depth_pos (e : Expr) : 0 < e.depth := by
  cases e with
  | member computed object property => cases computed <;> rw [depth] <;> omega
  | _ =>
    rw [depth]
    omega

/-- An expression has one level more than its parts. -/
theorem depth_le_succ_iff {e : Expr} {n : Nat} :
    e.depth ≤ n + 1 ↔ ∀ part ∈ e.parts, part.depth ≤ n := by
  have hlevel (m : Nat) : 1 + m ≤ n + 1 ↔ m ≤ n := by omega
  -- the parts are what a walk goes into, so the property behind a point is not among them
  cases e with
  | array elements | sequence body => rw [depth, hlevel, depthAll_le_iff, parts]
  | call callee arguments =>
    rw [depth, hlevel, Nat.max_le, depthAll_le_iff, parts, List.forall_mem_cons]
  | member computed object property =>
    cases computed with
    | true =>
      rw [depth, hlevel, Nat.max_le]
      simp [parts]
    | false =>
      rw [depth, hlevel]
      simp [parts]
  | unary op argument before =>
    rw [depth, hlevel]
    simp [parts]
  | binary op left right | logical op left right =>
    rw [depth, hlevel, Nat.max_le]
    simp [parts]
  | conditional test consequent alternate =>
    rw [depth, hlevel, Nat.max_le, Nat.max_le]
    simp [parts]
  | identifier | literal | this => simp [depth, parts]

/-- **Inference with levels enough does not run out of them.** -/
theorem grounded_infer {e : Expr} (h : e.depth ≤ room) :
    Grounded (e.infer scope (.levels limit room)) := by
  have hfails : FailsWith (fun err => ∀ limit, err ≠ .tooDeep limit)
      (e.infer scope (.levels limit room)) := by
    induction e using parts_induction generalizing room with
    | h e ih =>
      obtain ⟨room, rfl⟩ := Nat.exists_eq_add_one.mpr (Nat.lt_of_lt_of_le e.depth_pos h)
      refine failsWith_infer ?level ?blames ?parts
      case level =>
        -- there is a level left
        rintro _ ⟨⟩
      case blames =>
        rintro _ (h | _ | _ | _ | _) limit ⟨⟩
        exact h
      case parts =>
        rintro _ ⟨⟩ part hpart
        exact ih part hpart (depth_le_succ_iff.mp h part hpart)
  intro limit herror
  exact hfails _ herror limit rfl

end Expr

/-! ### Evaluation -/

namespace Evaluation

variable {κ σ α β : Type}

/-- Whether a part of a run ends otherwise than for want of levels, from every state. A failure of
the host is not for want of levels, whatever it says. -/
def Grounded (m : Evaluation κ σ α) : Prop := ∀ run limit, (m run).1 ≠ .error (.tooDeep limit)

theorem grounded_pure (a : α) : Grounded (pure a : Evaluation κ σ α) := fun run limit h => by
  rw [run_pure] at h
  cases h

theorem grounded_throw {e : EvalError κ} (h : ∀ limit, e ≠ .tooDeep limit) :
    Grounded (throw e : Evaluation κ σ α) := fun run limit heq => by
  rw [run_throw] at heq
  exact h limit (Except.error.inj heq)

/-- **Steps in a row are grounded if each of them is.** -/
theorem Grounded.bind {m : Evaluation κ σ α} {next : α → Evaluation κ σ β} (hm : Grounded m)
    (hnext : ∀ a, Grounded (next a)) : Grounded (m >>= next) := fun run limit => by
  have hfirst := hm run limit
  rw [run_bind]
  rcases h : m run with ⟨_ | a, after⟩
  · rw [h] at hfirst
    exact fun heq => hfirst (congrArg Except.error (Except.error.inj heq))
  · exact hnext a after limit

theorem grounded_newArray (items : List (Value κ)) :
    Grounded (newArray items : Evaluation κ σ (Value κ)) :=
  fun _ _ h => by cases h

/-- What a host fails with is its own failure. -/
theorem grounded_call (host : Host κ σ) (callee : Value κ) (arguments : List (Value κ)) :
    Grounded (call host callee arguments) := by
  cases callee with
  | function identity name body =>
    intro run limit h
    change (host.call body arguments run).1.mapError EvalError.host = _ at h
    -- the failures of the host are of their own kind
    cases hresult : (host.call body arguments run).1 with
    | error failure =>
      rw [hresult] at h
      cases h
    | ok v =>
      rw [hresult] at h
      cases h
  | _ => exact grounded_throw (by simp)

/-- Reading a property only fails on what has none. -/
theorem grounded_read (object key : Value κ) :
    Grounded (read object key : Evaluation κ σ (Value κ)) := by
  unfold read
  split
  · exact grounded_pure _
  · exact grounded_throw (by simp)

/-- An operator refuses an operand at most, and asks for no level. -/
theorem grounded_apply (op : BinaryOp) (v w : Value κ) :
    Grounded (ofExcept (op.apply v w) : Evaluation κ σ (Value κ)) := by
  cases op with
  | isIn =>
    unfold BinaryOp.apply
    dsimp only
    split
    · exact grounded_pure _
    · exact grounded_throw (by simp)
  | _ => exact grounded_pure _

/-- No step of an evaluation but going down asks for a level. Only one run is looked at here. -/
def groundedSteps (host : Host κ σ) : Lockstep host host where
  Rel m _ := Grounded m
  pure := grounded_pure
  bind := Grounded.bind
  apply := grounded_apply
  newArray := grounded_newArray
  read := grounded_read
  call := grounded_call host

end Evaluation

namespace Expr

open Evaluation

variable {κ σ : Type} {host : Host κ σ} {scope : Scope (Value κ)} {limit room : Nat}

/-- **Evaluation with levels enough does not run out of them.** -/
theorem grounded_evaluate {e : Expr} (h : e.depth ≤ room) :
    Grounded (e.evaluate host scope (.levels limit room)) := by
  -- with each part, a level is gone from the depth and from the allowance
  induction e using parts_induction generalizing room with
  | h e ih =>
    obtain ⟨room, rfl⟩ := Nat.exists_eq_add_one.mpr (Nat.lt_of_lt_of_le e.depth_pos h)
    have hinner := Allowance.enter_levels_succ limit room
    refine (groundedSteps host).evaluate hinner hinner (.refl scope e) fun part hpart => ?_
    exact ih part hpart (depth_le_succ_iff.mp h part hpart)

end Expr

end CheckedExpr
