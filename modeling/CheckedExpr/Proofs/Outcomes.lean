import CheckedExpr.Proofs.Inhabitance
import CheckedExpr.Proofs.Lockstep

/-!
# How evaluations end

An evaluation *yields* values of a property if it ends, from every state, with such a value or with
a failure that a function of the host gave. Errors that evaluation itself can make are ruled out, so
each rule below that takes a step of an evaluation has to show that the step cannot go wrong.

* `Outcome`: the two ways to end. A failure comes with the call that gave it.
* `Yields.bind`: evaluations in a row, where the second one may rely on what the first one yields.
* `yields_call`: a call of a value that inhabits a function model yields what inhabits its result.
-/

namespace CheckedExpr

variable {κ σ α β : Type} {host : Host κ σ}

/-- How an evaluation ends: with a value of a property, or with a failure of the host. A failure
ends it at once, so the state behind it is the one that the failing call left. -/
inductive Outcome (host : Host κ σ) (P : α → Prop) : Except (EvalError κ) α × Run σ → Prop
  | value {a : α} {after : Run σ} (h : P a) : Outcome host P (.ok a, after)
  | failure {body : κ} {arguments : List (Value κ)} {before after : Run σ} {failure : Failure}
      (h : host.call body arguments before = (.error failure, after)) :
      Outcome host P (.error (.host failure), after)

/-- What is known of the value may be weakened. -/
theorem Outcome.mono {P Q : α → Prop} {outcome : Except (EvalError κ) α × Run σ}
    (hPQ : ∀ a, P a → Q a) (h : Outcome host P outcome) : Outcome host Q outcome := by
  cases h with
  | value ha => exact .value (hPQ _ ha)
  | failure hcall => exact .failure hcall

namespace Evaluation

/-- Whether an evaluation ends well from every state. -/
def Yields (host : Host κ σ) (P : α → Prop) (m : Evaluation κ σ α) : Prop :=
  ∀ run, Outcome host P (m run)

variable {P Q : α → Prop} {R : β → Prop}

theorem yields_pure {a : α} (h : P a) : Yields host P (pure a : Evaluation κ σ α) := fun run => by
  rw [run_pure]
  exact .value h

theorem Yields.mono {m : Evaluation κ σ α} (hPQ : ∀ a, P a → Q a) (h : Yields host P m) :
    Yields host Q m :=
  fun run => (h run).mono hPQ

/-- Evaluations in a row yield what the last one yields. -/
theorem Yields.bind {m : Evaluation κ σ α} {next : α → Evaluation κ σ β} (hm : Yields host P m)
    (hnext : ∀ a, P a → Yields host R (next a)) : Yields host R (m >>= next) := fun run => by
  have hfirst := hm run
  -- either the first step has a value, and the second one decides, or its failure is the end
  rw [run_bind]
  rcases h : m run with ⟨outcome, after⟩
  rw [h] at hfirst
  cases hfirst with
  | value ha => exact hnext _ ha after
  | failure hcall => exact .failure hcall

/-- Going down a level cannot go wrong where one is left. -/
theorem yields_descend {allowance inner : Allowance} {next : Allowance → Evaluation κ σ β}
    (h : allowance.enter = .ok inner) (hnext : Yields host R (next inner)) :
    Yields host R (descend allowance >>= next) := by
  rw [descend_bind h]
  exact hnext

/-- A new array is made whatever its identity will be. -/
theorem yields_newArray {P : Value κ → Prop} {items : List (Value κ)}
    (h : ∀ identity, P (.array identity items)) :
    Yields host P (newArray items : Evaluation κ σ (Value κ)) :=
  fun run => .value (h run.nextIdentity)

/-- Reading goes well where something can be read. -/
theorem yields_read {P : Value κ → Prop} {object key v : Value κ}
    (hread : object.read? key = some v) (h : P v) :
    Yields host P (read object key : Evaluation κ σ (Value κ)) := by
  rw [Evaluation.read, hread]
  exact yields_pure h

/-- A function that keeps its word yields what inhabits its result. -/
theorem yields_call {parameters : List Model} {result : Model} {callee : Value κ}
    {arguments : List (Value κ)} (hcallee : (Model.function parameters result).Inhabits host callee)
    (harguments : Model.ArgumentsInhabit host parameters arguments) :
    Yields host (result.Inhabits host) (call host callee arguments) := fun run => by
  obtain ⟨identity, name, body, rfl, hbody⟩ := Model.inhabits_function_iff.mp hcallee
  rcases h : host.call body arguments run with ⟨result, after⟩
  -- a call adds nothing to what the host answers but the kind of a failure
  change Outcome host _
    ((host.call body arguments run).1.mapError EvalError.host, (host.call body arguments run).2)
  rw [h]
  cases result with
  | error failure => exact .failure h
  | ok v => exact .value (hbody arguments run harguments v (by rw [h]))

end Evaluation

end CheckedExpr
