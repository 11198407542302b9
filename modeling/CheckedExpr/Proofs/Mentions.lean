import CheckedExpr.Proofs.HostCalls

/-!
# What an expression mentions

Inference and evaluation know of a scope only what they look up in it: names that occur in the
expression, and `this` if it occurs. The name behind a point is not looked up, but the names in a
computed key are. So whatever else a scope binds cannot be noticed, not even by the errors or by the
calls that are made.

* `Expr.infer_of_agreesOn`, `Expr.evaluate_of_agreesOn`: scopes that agree on what occurs are the
  same to both walks.
* `Machine.checkExpr_bind_of_not_occursIn`, `Machine.evaluate_bind_of_not_occursIn`: a machine may
  bind whatever does not occur.
* `Expr.mentioned_names_matter`: all of this for both walks at once.
-/

namespace CheckedExpr

variable {κ σ : Type}

/-- Every step of an evaluation does the same where all that comes before it does. -/
def Evaluation.sameSteps (host : Host κ σ) : Lockstep host host where
  Rel := Eq
  pure _ := rfl
  bind h hnext := by rw [h, funext hnext]
  apply _ _ _ := rfl
  newArray _ := rfl
  read _ _ := rfl
  call _ _ := rfl

namespace Expr

variable {allowance : Allowance} {e : Expr}

/-- **Inference looks up only what occurs.** -/
theorem infer_of_agreesOn {scope scope' : Scope Model} (h : scope.AgreesOn e scope') :
    e.infer scope allowance = e.infer scope' allowance := by
  induction e using parts_induction generalizing allowance with
  | h e ih =>
    cases hinner : allowance.enter with
    | error limit => rw [infer_of_enter_error hinner, infer_of_enter_error hinner]
    | ok inner =>
      exact infer_congr hinner hinner h fun part hpart => ih part hpart (h.of_mem_parts hpart)

/-- **Evaluation looks up only what occurs.** -/
theorem evaluate_of_agreesOn {host : Host κ σ} {scope scope' : Scope (Value κ)}
    (h : scope.AgreesOn e scope') :
    e.evaluate host scope allowance = e.evaluate host scope' allowance := by
  induction e using parts_induction generalizing allowance with
  | h e ih =>
    cases hinner : allowance.enter with
    | error limit => rw [evaluate_of_enter_error hinner, evaluate_of_enter_error hinner]
    | ok inner =>
      exact (Evaluation.sameSteps host).evaluate hinner hinner h
        fun part hpart => ih part hpart (h.of_mem_parts hpart)

end Expr

/-! ### Machines -/

namespace Machine

variable {machine : Machine κ} {name : String} {e : Expr}

/-- Binding a name does not change what others are bound to. -/
theorem get?_bind_of_ne {other : String} (h : other ≠ name) (b : Binding κ) :
    (machine.bind name b).get? other = machine.get? other := by
  rw [get?, bind, Table.get?_insert, if_neg h]
  rfl

/-- What is bound to a name that occurs does not depend on a name that does not. -/
theorem get?_bind_of_occursIn (hname : ¬ (Expr.identifier name).OccursIn e) (b : Binding κ)
    {other : String} (hother : (Expr.identifier other).OccursIn e) :
    (machine.bind name b).get? other = machine.get? other := by
  refine get?_bind_of_ne ?_ b
  rintro rfl
  exact hname hother

/-- What a machine says of an expression does not depend on a name that does not occur in it. -/
theorem checkExpr_bind_of_not_occursIn (hname : ¬ (Expr.identifier name).OccursIn e)
    (b : Binding κ) (result this : Model) :
    (machine.bind name b).checkExpr result e this = machine.checkExpr result e this := by
  have hagrees : ((machine.bind name b).models this).AgreesOn e (machine.models this) :=
    ⟨fun other hother => congrArg (·.map Binding.model) (get?_bind_of_occursIn hname b hother),
      fun _ => rfl⟩
  unfold checkExpr
  rw [Expr.infer_of_agreesOn hagrees]
  rfl

/-- What a machine makes of an expression does not depend on a name that does not occur in it. -/
theorem evaluate_bind_of_not_occursIn (host : Host κ σ)
    (hname : ¬ (Expr.identifier name).OccursIn e) (b : Binding κ) (this : Value κ) :
    (machine.bind name b).evaluate host e this = machine.evaluate host e this := by
  have hagrees : ((machine.bind name b).values this).AgreesOn e (machine.values this) :=
    ⟨fun other hother => congrArg (·.map Binding.value) (get?_bind_of_occursIn hname b hother),
      fun _ => rfl⟩
  unfold evaluate
  rw [Expr.evaluate_of_agreesOn hagrees]
  rfl

end Machine

/-! ### Both walks -/

namespace Expr

/-- **Only what an expression mentions matters.** In scopes that agree on the names that occur in
it, and on `this` if it occurs, inference comes to the same model or error, and evaluation to the
same outcome, by the same calls of the host. -/
theorem mentioned_names_matter {e : Expr} {models models' : Scope Model}
    {values values' : Scope (Value κ)} (hmodels : models.AgreesOn e models')
    (hvalues : values.AgreesOn e values') (allowance : Allowance) (host : Host κ σ) (run : Run σ) :
    e.infer models allowance = e.infer models' allowance ∧
    e.evaluate host values allowance run = e.evaluate host values' allowance run ∧
    host.calls (fun host => e.evaluate host values allowance) run =
      host.calls (fun host => e.evaluate host values' allowance) run := by
  refine ⟨infer_of_agreesOn hmodels, ?outcome, ?calls⟩
  case outcome => rw [evaluate_of_agreesOn hvalues]
  case calls => simp only [evaluate_of_agreesOn hvalues]

/-- The call of a function that is held under the name `"x"`, which is not looked up itself. -/
def heldCall : Expr :=
  .call (.member false (.identifier "o") (.identifier "x")) [.literal (.boolean true)]

/-- The name behind the point does not occur. -/
theorem not_occursIn_heldCall :
    ¬ (identifier "x").OccursIn heldCall ∧ ¬ this.OccursIn heldCall := by
  -- all that occurs in the call, from its own parts inward
  have hinversion {a : Expr} (h : a.OccursIn heldCall) : a = heldCall ∨
      a = .member false (.identifier "o") (.identifier "x") ∨ a = .identifier "o" ∨
        a = .literal (.boolean true) := by
    rcases occursIn_iff.mp h with rfl | ⟨part, hpart, h⟩
    · exact .inl rfl
    · simp only [heldCall, parts, List.mem_cons, List.not_mem_nil, or_false] at hpart
      rcases hpart with rfl | rfl
      · rcases occursIn_iff.mp h with rfl | ⟨part, hpart, h⟩
        · exact .inr (.inl rfl)
        · obtain rfl := List.mem_singleton.mp hpart
          rcases occursIn_iff.mp h with rfl | ⟨part, ⟨⟩, h⟩
          exact .inr (.inr (.inl rfl))
      · rcases occursIn_iff.mp h with rfl | ⟨part, ⟨⟩, h⟩
        exact .inr (.inr (.inr rfl))
  refine ⟨fun h => ?_, fun h => ?_⟩
  · simpa [heldCall] using hinversion h
  · simpa [heldCall] using hinversion h

theorem mentioned_names_matter_heldCall :
    (Scope.AgreesOn
        ⟨fun name => if name = "x" then none
          else some (.object [("x", .function [] .boolean)]), .null⟩ heldCall
        ⟨fun _ => some (.object [("x", .function [] .boolean)]), Model.string⟩ ∧
      Scope.AgreesOn
        ⟨fun name => if name = "x" then none
          else some (.object 1 [("x", .function 0 "x" ())]), .null⟩ heldCall
        (⟨fun _ => some (.object 1 [("x", .function 0 "x" ())]), .string ""⟩ :
          Scope (Value Unit))) ∧
    heldCall.infer
        ⟨fun name => if name = "x" then none
          else some (.object [("x", .function [] .boolean)]), .null⟩ (.ofLimit 3) =
      .ok .boolean ∧
    heldCall.evaluate .echoing
        ⟨fun name => if name = "x" then none
          else some (.object 1 [("x", .function 0 "x" ())]), .null⟩ (.ofLimit 3) ⟨2, ()⟩ =
      (.ok (.boolean true), ⟨2, ()⟩) ∧
    Host.calls .echoing
        (fun host => heldCall.evaluate host
          ⟨fun name => if name = "x" then none
            else some (.object 1 [("x", .function 0 "x" ())]), .null⟩ (.ofLimit 3)) ⟨2, ()⟩ =
      [⟨(), [.boolean true]⟩] := by
  obtain ⟨hx, hthis⟩ := not_occursIn_heldCall
  have hne {name : String} (hname : (identifier name).OccursIn heldCall) : name ≠ "x" := by
    rintro rfl
    exact hx hname
  have hmodels : Scope.AgreesOn
      ⟨fun name => if name = "x" then none
        else some (.object [("x", .function [] .boolean)]), .null⟩ heldCall
      ⟨fun _ => some (.object [("x", .function [] .boolean)]), Model.string⟩ :=
    ⟨fun name hname => if_neg (hne hname), fun h => absurd h hthis⟩
  have hvalues : Scope.AgreesOn
      ⟨fun name => if name = "x" then none
        else some (.object 1 [("x", .function 0 "x" ())]), .null⟩ heldCall
      (⟨fun _ => some (.object 1 [("x", .function 0 "x" ())]), .string ""⟩ :
        Scope (Value Unit)) :=
    ⟨fun name hname => if_neg (hne hname), fun h => absurd h hthis⟩
  obtain ⟨hinfer, hevaluate, hcalls⟩ :=
    mentioned_names_matter hmodels hvalues (.ofLimit 3) .echoing ⟨2, ()⟩
  -- what is looked up is the same in the other scope, where it can be computed
  exact ⟨⟨hmodels, hvalues⟩, hinfer.trans rfl, hevaluate.trans rfl, hcalls.trans rfl⟩

end Expr

end CheckedExpr
