import CheckedExpr.Machine
import CheckedExpr.Proofs.Soundness

/-!
# Machines with honest hosts

A machine whose bindings keep the promise of their models runs what it has checked without an error
of its own. The last look at the result, which is there for functions that break their word, never
refuses one when they keep it.

* `Machine.checkExpr_eq_ok_iff`, `Machine.check_eq_ok_iff`: what a passed check says.
* `infer_sound`: soundness for expressions and for machines.
-/

namespace CheckedExpr

open Evaluation

variable {κ σ α β : Type} {host : Host κ σ}

/-! ### Actions -/

namespace Action

theorem ofExcept_ok_bind {a : α} {next : α → Action κ σ β} :
    (ofExcept (.ok a) >>= next) = next a :=
  pure_bind a next

/-- Steps in a row, state by state. -/
theorem run_bind (m : Action κ σ α) (next : α → Action κ σ β) (run : Run σ) :
    (m >>= next) run =
      match m run with
      | (.ok a, after) => next a after
      | (.error e, after) => (.error e, after) := by
  rw [Run.bind_apply]
  rcases m run with ⟨_ | _, _⟩ <;> rfl

end Action

/-! ### Checks -/

namespace Machine

variable {machine : Machine κ}

/-- A check passes if inference succeeds with a model that the asked one accepts. -/
theorem checkExpr_eq_ok_iff {result this T : Model} {e : Expr} :
    machine.checkExpr result e this = .ok T ↔
      e.infer (machine.models this) (.ofLimit machine.options.maxDepth) = .ok T ∧ T ≤ result := by
  unfold checkExpr
  rw [Except.bind_eq_ok_iff]
  simp only [Except.mapError_eq_ok_iff, Model.le_iff_accepts]
  constructor
  · rintro ⟨m, hm, h⟩
    split at h
    next haccepts => cases h; exact ⟨hm, haccepts⟩
    next => cases h
  · rintro ⟨hT, haccepts⟩
    exact ⟨T, hT, by rw [if_pos haccepts]; rfl⟩

/-- A check of code resolves the models and reads the code before. -/
theorem check_eq_ok_iff {result this : ModelSource} {code : Code} {T : Model} :
    machine.check result code this = .ok T ↔
      ∃ r, machine.resolve result = .ok r ∧ ∃ t, machine.resolve this = .ok t ∧
        ∃ e, machine.read code = .ok e ∧ machine.checkExpr r e t = .ok T := by
  unfold check
  simp only [Except.bind_eq_ok_iff]

/-- Whether all bindings of a machine keep the promise of their models. -/
def Honest (host : Host κ σ) (machine : Machine κ) : Prop :=
  ∀ name b, machine.get? name = some b → b.model.Inhabits host b.value

/-- An honest machine gives scopes of values that keep the promise of the models. -/
theorem Honest.scope_inhabits (hmachine : machine.Honest host) {this : Binding κ}
    (hthis : this.model.Inhabits host this.value) :
    Scope.Inhabits host (machine.models this.model) (machine.values this.value) where
  lookup := by
    intro name m h
    obtain ⟨b, hb, rfl⟩ := Option.map_eq_some_iff.mp h
    exact ⟨b.value, Option.map_eq_some_iff.mpr ⟨b, hb, rfl⟩, hmachine name b hb⟩
  this := hthis

/-- What is left to do for code that has passed its check. -/
theorem eval_of_checkExpr {result : ModelSource} {code : Code} {this : Binding κ} {r T : Model}
    {e : Expr} (hr : machine.resolve result = .ok r) (he : machine.read code = .ok e)
    (hT : machine.checkExpr r e this.model = .ok T) :
    machine.eval host result code this =
      (do let value ← machine.evaluate host e this.value
          if r.conforms value then return value else throw .invalidResult) := by
  rw [eval, hr, Action.ofExcept_ok_bind, he, Action.ofExcept_ok_bind, hT, Action.ofExcept_ok_bind]

/-- An evaluation on a machine ends as it does by itself. -/
theorem evaluate_run {e : Expr} {this : Value κ} {run : Run σ}
    {outcome : Except (EvalError κ) (Value κ)} {after : Run σ}
    (h : e.evaluate host (machine.values this) (.ofLimit machine.options.maxDepth) run =
      (outcome, after)) :
    machine.evaluate host e this run = (outcome.mapError .eval, after) := by
  change (Except.mapError _ (e.evaluate host (machine.values this) _ run).1,
    (e.evaluate host (machine.values this) _ run).2) = _
  rw [h]

/-- **Checked code runs without an error of the machine.** It ends with the failure of a function of
the host, or with a value that inhabits the model that was inferred and the one that was asked
for. -/
theorem eval_of_check (hmachine : machine.Honest host) {result : ModelSource} {code : Code}
    {this : Binding κ} (hthis : this.model.Inhabits host this.value) {T : Model}
    (hcheck : machine.check result code (.model this.model) = .ok T) (run : Run σ) :
    (∃ body arguments before failure after,
      host.call body arguments before = (.error failure, after) ∧
        machine.eval host result code this run = (.error (.eval (.host failure)), after)) ∨
      ∃ r v after, machine.resolve result = .ok r ∧
        machine.eval host result code this run = (.ok v, after) ∧
          T.Inhabits host v ∧ r.Inhabits host v := by
  obtain ⟨r, hr, t, ht, e, he, hT⟩ := check_eq_ok_iff.mp hcheck
  obtain rfl : this.model = t := Except.ok.inj (Except.mapError_eq_ok_iff.mp ht)
  obtain ⟨hinfer, hTr⟩ := checkExpr_eq_ok_iff.mp hT
  -- the check and the evaluation go down to the same limit
  have hyields := Expr.sound (hmachine.scope_inhabits hthis) e (Allowance.covers_ofLimit le_rfl)
    hinfer run
  rw [eval_of_checkExpr hr he hT, Action.run_bind]
  rcases hrun : e.evaluate host (machine.values this.value) (.ofLimit machine.options.maxDepth) run
    with ⟨outcome, after⟩
  rw [evaluate_run hrun]
  rw [hrun] at hyields
  cases hyields with
  | failure hcall => exact Or.inl ⟨_, _, _, _, _, hcall, rfl⟩
  | value hv =>
    -- the value inhabits the model that was asked for, so the last look lets it pass
    have hvr := Model.inhabits_of_le hTr hv
    refine Or.inr ⟨r, _, after, hr, ?_, hv, hvr⟩
    change (if r.conforms _ = true then _ else _ : Action κ σ (Value κ)) after = _
    rw [if_pos (Model.conforms_of_inhabits hvr)]
    rfl

end Machine

/-- **Soundness.** An expression that has a model within a limit on depth ends within that limit and
within every larger one, from every state, with the failure of a function of the host or with a
value that inhabits the model and therefore conforms to it. So does code that a machine has checked,
and the value is then of the model that was asked for. -/
theorem infer_sound :
    (∀ {e : Expr} {models : Scope Model} {values : Scope (Value κ)} {limit larger : Nat}
      {T : Model},
      Scope.Inhabits host models values → limit ≤ larger →
      e.infer models (.ofLimit limit) = .ok T → ∀ run : Run σ,
        (∃ body arguments before failure after,
          host.call body arguments before = (.error failure, after) ∧
            e.evaluate host values (.ofLimit larger) run = (.error (.host failure), after)) ∨
          ∃ v after, e.evaluate host values (.ofLimit larger) run = (.ok v, after) ∧
            T.Inhabits host v ∧ T.conforms v = true) ∧
    (∀ {machine : Machine κ} {result : ModelSource} {code : Code} {this : Binding κ} {T : Model},
      machine.Honest host → this.model.Inhabits host this.value →
      machine.check result code (.model this.model) = .ok T → ∀ run : Run σ,
        (∃ body arguments before failure after,
          host.call body arguments before = (.error failure, after) ∧
            machine.eval host result code this run = (.error (.eval (.host failure)), after)) ∨
          ∃ r v after, machine.resolve result = .ok r ∧
            machine.eval host result code this run = (.ok v, after) ∧
              T.Inhabits host v ∧ r.Inhabits host v) := by
  refine ⟨?expressions, ?machines⟩
  case expressions =>
    intro e models values limit larger T hscope hlimit hinfer run
    have hyields := Expr.sound hscope e (Allowance.covers_ofLimit hlimit) hinfer run
    -- soundness tells the two ways to end apart, with the call behind a failure
    rcases hrun : e.evaluate host values (.ofLimit larger) run with ⟨outcome, after⟩
    rw [hrun] at hyields
    cases hyields with
    | failure hcall => exact Or.inl ⟨_, _, _, _, _, hcall, rfl⟩
    | value hv => exact Or.inr ⟨_, _, rfl, hv, Model.conforms_of_inhabits hv⟩
  case machines =>
    intro machine result code this T hmachine hthis hcheck run
    exact Machine.eval_of_check hmachine hthis hcheck run

/-! A host with one function, bound to a name on a machine, is a case in which nothing is missing:
the function is called with a truth value and answers with one. -/

/-- The host whose only function negates a truth value and refuses everything else. -/
def Host.negating : Host Unit Unit where
  call _ arguments run :=
    match arguments with
    | .boolean b :: _ => (.ok (.boolean !b), run)
    | _ => (.error (.ofMessage .typeError "not a truth value"), run)

/-- The machine on which that function is bound. -/
def Machine.negating : Machine Unit :=
  ({} : Machine Unit).bind "negate" ⟨.function [.boolean] .boolean, .function 0 "negate" (), rfl⟩

/-- Its function answers with a truth value or not at all. -/
theorem Machine.honest_negating : Machine.negating.Honest Host.negating := by
  intro name b hb
  rw [negating, get?, bind, Table.get?_insert] at hb
  split at hb
  next =>
    cases hb
    refine Model.inhabits_function_iff.mpr
      ⟨0, "negate", (), rfl, fun arguments run harguments w hw => ?_⟩
    have hfirst := (Model.argumentsInhabit_cons_iff.mp harguments).1
    -- an answer comes back only if the first argument is a truth value
    rcases arguments with _ | ⟨argument, rest⟩
    · cases hw
    · cases argument <;> first | (cases hw; exact Model.inhabits_boolean _) | cases hw
  next => cases hb

/-- A call of that function, and code that a machine has checked with it. -/
theorem infer_sound_negating :
    (Scope.Inhabits Host.negating (Machine.negating.models .null)
        (Machine.negating.values .undefined) ∧ 2 ≤ 3 ∧
      (Expr.call (.identifier "negate") [.literal (.boolean true)]).infer
        (Machine.negating.models .null) (.ofLimit 2) = .ok .boolean) ∧
    (Machine.negating.Honest Host.negating ∧
      Model.null.Inhabits Host.negating (.undefined : Value Unit) ∧
      Machine.negating.check (.model (.nullable .boolean))
        (.tree (.call (.identifier "negate") [.literal (.boolean true)])) (.model .null) =
          .ok .boolean) ∧
    (∃ v after, (Expr.call (.identifier "negate") [.literal (.boolean true)]).evaluate
        Host.negating (Machine.negating.values .undefined) (.ofLimit 3) ⟨0, ()⟩ = (.ok v, after) ∧
      Model.boolean.Inhabits Host.negating v ∧ Model.boolean.conforms v = true) ∧
    ∃ r v after, Machine.negating.resolve (.model (.nullable .boolean)) = .ok r ∧
      Machine.negating.eval Host.negating (.model (.nullable .boolean))
        (.tree (.call (.identifier "negate") [.literal (.boolean true)]))
        (Binding.ofHost .unit ()) ⟨0, ()⟩ = (.ok v, after) ∧
      Model.boolean.Inhabits Host.negating v ∧ r.Inhabits Host.negating v := by
  have hthis : (Binding.ofHost .unit () : Binding Unit).model.Inhabits Host.negating
      (Binding.ofHost .unit () : Binding Unit).value :=
    Model.inhabits_null_undefined
  have hscope := Machine.honest_negating.scope_inhabits hthis
  -- a call and its argument take two levels
  have hinfer (limit left : Nat) :
      (Expr.call (.identifier "negate") [.literal (.boolean true)]).infer
        (Machine.negating.models .null) (.levels limit (left + 2)) = .ok .boolean :=
    Expr.infer_call_iff.mpr ⟨_, rfl, [.boolean], [.boolean], rfl, .cons rfl .nil,
      Inference.acceptArguments_cons_iff.mpr ⟨Model.accepts_refl _, rfl⟩⟩
  have hchecked : Machine.negating.checkExpr (.nullable .boolean)
      (.call (.identifier "negate") [.literal (.boolean true)]) .null = .ok .boolean :=
    Machine.checkExpr_eq_ok_iff.mpr ⟨hinfer _ _, Model.le_nullable _⟩
  have hcheck : Machine.negating.check (.model (.nullable .boolean))
      (.tree (.call (.identifier "negate") [.literal (.boolean true)])) (.model .null) =
        .ok .boolean :=
    Machine.check_eq_ok_iff.mpr ⟨_, rfl, _, rfl, _, rfl, hchecked⟩
  refine ⟨⟨hscope, by decide, hinfer 2 0⟩, ⟨Machine.honest_negating, hthis, hcheck⟩, ?expressions,
    ?machines⟩
  -- in both cases the run itself shows that the call does not fail
  case expressions =>
    rcases infer_sound.1 hscope (by decide : 2 ≤ 3) (hinfer 2 0) ⟨0, ()⟩ with
      ⟨_, _, _, _, _, -, hrun⟩ | hvalue
    · cases hrun
    · exact hvalue
  case machines =>
    rcases infer_sound.2 Machine.honest_negating hthis hcheck ⟨0, ()⟩
      with ⟨_, _, _, _, _, -, hrun⟩ | hvalue
    · rw [Machine.eval_of_checkExpr rfl rfl hchecked] at hrun
      cases hrun
    · exact hvalue

end CheckedExpr
