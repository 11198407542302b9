import CheckedExpr.Machine
import CheckedExpr.Proofs.Lockstep

/-!
# The calls that a run makes of its host

What a run does to the world of its host tells of the calls only as much as that world remembers. To
speak of the calls themselves, every function of a host is put behind a recorder, which writes down
what is called with which arguments and then lets the host have it.

* `Host.calls`: what the recorder has written down when a part of a run has ended.
* `Retraces`: a part of a run that does behind the recorder what another one does without it. This
  is closed under the steps of an evaluation, and the call of a value is the only one of them that
  looks at the host.
* `Expr.retraces_evaluate`, `Machine.retraces_eval`: the recorder does not disturb the run.
-/

namespace CheckedExpr

/-- The call of a function of a host. -/
structure HostCall (κ : Type) where
  body : κ
  arguments : List (Value κ)

/-- The world of a host together with the calls that have been made, in order. -/
structure Recorded (κ σ : Type) where
  world : σ
  calls : List (HostCall κ)

variable {κ σ ε α β : Type}

namespace Run

/-- The run with nothing recorded so far. -/
def record (run : Run σ) : Run (Recorded κ σ) := ⟨run.nextIdentity, run.world, []⟩

/-- The run without what is recorded. -/
def forget (run : Run (Recorded κ σ)) : Run σ := ⟨run.nextIdentity, run.world.world⟩

@[simp] theorem forget_record (run : Run σ) : (run.record : Run (Recorded κ σ)).forget = run := rfl

end Run

namespace Host

/-- The host behind a recorder. -/
def recording (host : Host κ σ) : Host κ (Recorded κ σ) where
  call body arguments run :=
    let (result, after) := host.call body arguments run.forget
    (result, ⟨after.nextIdentity, after.world, run.world.calls ++ [⟨body, arguments⟩]⟩)

/-- The calls that a part of a run makes of a host, in order. -/
def calls (host : Host κ σ)
    (part : Host κ (Recorded κ σ) → ExceptT ε (StateM (Run (Recorded κ σ))) α) (run : Run σ) :
    List (HostCall κ) :=
  (part host.recording run.record).2.world.calls

/-- A host whose functions answer with their first argument. -/
def echoing : Host Unit Unit where
  call _ arguments run := (.ok (arguments.headD .undefined), run)

end Host

/-! ### Parts of a run behind a recorder -/

/-- Whether a part of a run does behind a recorder what another one does without it: it ends in the
same way, and in the same state but for what is recorded. -/
def Retraces (recorded : ExceptT ε (StateM (Run (Recorded κ σ))) α)
    (plain : ExceptT ε (StateM (Run σ)) α) : Prop :=
  ∀ run, plain run.forget = ((recorded run).1, (recorded run).2.forget)

namespace Retraces

theorem pure (a : α) :
    Retraces (Pure.pure a : ExceptT ε (StateM (Run (Recorded κ σ))) α) (Pure.pure a) :=
  fun _ => rfl

theorem throw (e : ε) :
    Retraces (MonadExcept.throw e : ExceptT ε (StateM (Run (Recorded κ σ))) α)
      (MonadExcept.throw e) :=
  fun _ => rfl

/-- **Steps in a row retrace if each of them does.** -/
theorem bind {recorded : ExceptT ε (StateM (Run (Recorded κ σ))) α}
    {plain : ExceptT ε (StateM (Run σ)) α}
    {recordedNext : α → ExceptT ε (StateM (Run (Recorded κ σ))) β}
    {plainNext : α → ExceptT ε (StateM (Run σ)) β} (h : Retraces recorded plain)
    (hnext : ∀ a, Retraces (recordedNext a) (plainNext a)) :
    Retraces (recorded >>= recordedNext) (plain >>= plainNext) := fun run => by
  rw [Run.bind_apply, Run.bind_apply, h run]
  -- what comes next starts in the state that the first part has left
  rcases recorded run with ⟨_ | a, after⟩
  · rfl
  · exact hnext a after

/-- So does a choice between two parts by a test that both runs make alike. -/
theorem ite {c : Bool} {recorded recorded' : ExceptT ε (StateM (Run (Recorded κ σ))) α}
    {plain plain' : ExceptT ε (StateM (Run σ)) α} (h : Retraces recorded plain)
    (h' : Retraces recorded' plain') :
    Retraces (if c then recorded else recorded') (if c then plain else plain') := by
  cases c with
  | true => exact h
  | false => exact h'

end Retraces

namespace Evaluation

/-- What does not look at the host does not notice the recorder. -/
theorem retraces_ofExcept (x : Except (EvalError κ) α) :
    Retraces (ofExcept x : Evaluation κ (Recorded κ σ) α) (ofExcept x) := by
  cases x with
  | error e => exact .throw e
  | ok a => exact .pure a

/-- A new array takes the next identity, which the recorder leaves alone. -/
theorem retraces_newArray (items : List (Value κ)) :
    Retraces (newArray items : Evaluation κ (Recorded κ σ) (Value κ)) (newArray items) :=
  fun _ => rfl

/-- Reading a property does not look at the host. -/
theorem retraces_read (object key : Value κ) :
    Retraces (read object key : Evaluation κ (Recorded κ σ) (Value κ)) (read object key) := by
  unfold read
  cases object.read? key with
  | none => exact .throw _
  | some v => exact .pure v

/-- The host gives the same answer behind the recorder, and the same world. -/
theorem retraces_call (host : Host κ σ) (callee : Value κ) (arguments : List (Value κ)) :
    Retraces (call host.recording callee arguments) (call host callee arguments) := by
  cases callee with
  | function identity name body => exact fun _ => rfl
  | _ => exact .throw _

/-- Every step of an evaluation does the same behind the recorder. -/
def recordingSteps (host : Host κ σ) : Lockstep host.recording host where
  Rel := Retraces
  pure := .pure
  bind := .bind
  apply op v w := retraces_ofExcept (op.apply v w)
  newArray := retraces_newArray
  read := retraces_read
  call := retraces_call host

end Evaluation

/-! ### Expressions -/

/-- **The recorder does not disturb an evaluation.** -/
theorem Expr.retraces_evaluate {host : Host κ σ} {scope : Scope (Value κ)} {allowance : Allowance}
    (e : Expr) :
    Retraces (e.evaluate host.recording scope allowance) (e.evaluate host scope allowance) := by
  -- each part of an expression is evaluated with an allowance of its own
  induction e using parts_induction generalizing allowance with
  | h e ih =>
    cases henter : allowance.enter with
    | error limit =>
      rw [evaluate_of_enter_error henter, evaluate_of_enter_error henter]
      exact .throw _
    | ok inner =>
      exact (Evaluation.recordingSteps host).evaluate henter henter (.refl scope e)
        fun part hpart => ih part hpart

/-! ### Machines -/

namespace Action

/-- A step of a machine that does not look at the host does not notice the recorder. -/
theorem retraces_ofExcept (x : Except (MachineError κ) α) :
    Retraces (ofExcept x : Action κ (Recorded κ σ) α) (ofExcept x) := by
  cases x with
  | error e => exact .throw e
  | ok a => exact .pure a

/-- Nor does an evaluation that a machine makes, if it does not as such. -/
theorem retraces_ofEvaluation {recorded : Evaluation κ (Recorded κ σ) α} {plain : Evaluation κ σ α}
    (h : Retraces recorded plain) : Retraces (ofEvaluation recorded) (ofEvaluation plain) :=
  fun run => by
    change ((plain run.forget).1.mapError _, (plain run.forget).2) = _
    rw [h run]
    rfl

end Action

namespace Machine

variable (host : Host κ σ) (machine : Machine κ)

theorem retraces_evaluate (e : Expr) (this : Value κ) :
    Retraces (machine.evaluate host.recording e this) (machine.evaluate host e this) :=
  Action.retraces_ofEvaluation (Expr.retraces_evaluate e)

/-- The recorder does not disturb what a machine does with code. -/
theorem retraces_eval (result : ModelSource) (code : Code) (this : Binding κ) :
    Retraces (machine.eval host.recording result code this)
      (machine.eval host result code this) := by
  -- all steps but the evaluation do not know of the host
  refine (Action.retraces_ofExcept _).bind fun r => (Action.retraces_ofExcept _).bind fun e => ?_
  refine (Action.retraces_ofExcept _).bind fun _ => (retraces_evaluate host machine e _).bind ?_
  exact fun value => .ite (.pure value) (.throw _)

end Machine

theorem Compiled.retraces_run (host : Host κ σ) (compiled : Compiled κ) (this : Value κ) :
    Retraces (compiled.run host.recording this) (compiled.run host this) :=
  .ite (Machine.retraces_evaluate host compiled.machine compiled.expr this) (.throw _)

end CheckedExpr
