import CheckedExpr.Proofs.HostCalls
import CheckedExpr.Proofs.MachineSoundness

/-!
# Checking, compiling and evaluating agree

A machine can check code, compile it for later, or evaluate it at once. All of these resolve what
is asked for, read the code and infer its model in the same order, so that they refuse the same code
for the same cause.

* `Machine.check_eq_map_compile`: a check is what compiling tells about the model.
* `Machine.eval_eq_compile_run`: an evaluation compiles the code, runs it, and looks once more at
  the result. This is the crux; what the steps do to the host follows from it.
* `Machine.entryPoints_agree`: the agreement, with the calls that are made of the host.
-/

namespace CheckedExpr

variable {κ σ α β : Type}

/-- Steps of a machine that leave the host alone may be taken one by one. -/
theorem Action.ofExcept_bind (x : Except (MachineError κ) α)
    (next : α → Except (MachineError κ) β) :
    (ofExcept (x >>= next) : Action κ σ β) = ofExcept x >>= fun a => ofExcept (next a) := by
  cases x with
  | error e => rfl
  | ok a => exact (ofExcept_ok_bind).symm

namespace Machine

variable {machine : Machine κ}

/-- What compiled code is made of. -/
theorem compile_eq_ok_iff {result this : ModelSource} {code : Code} {compiled : Compiled κ} :
    machine.compile result code this = .ok compiled ↔
      machine.resolve result = .ok compiled.result ∧ machine.resolve this = .ok compiled.this ∧
        machine.read code = .ok compiled.expr ∧
        machine.checkExpr compiled.result compiled.expr compiled.this = .ok compiled.inferred ∧
        compiled.machine = machine := by
  unfold compile
  simp only [Except.bind_eq_ok_iff]
  constructor
  · rintro ⟨r, hr, t, ht, e, he, T, hT, h⟩
    cases h
    exact ⟨hr, ht, he, hT, rfl⟩
  · rintro ⟨hr, ht, he, hT, rfl⟩
    exact ⟨_, hr, _, ht, _, he, _, hT, rfl⟩

/-- A check fails where compiling does, and for the same cause. -/
theorem check_eq_map_compile (result this : ModelSource) (code : Code) :
    machine.check result code this =
      (machine.compile result code this).map Compiled.inferred := by
  unfold check compile
  simp only [Except.map_bind]
  refine bind_congr fun r => bind_congr fun t => bind_congr fun e => ?_
  -- what is left of compiled code is the model that was inferred
  exact (bind_pure _).symm

/-- **An evaluation compiles the code, runs it and looks once more at the result.** -/
theorem eval_eq_compile_run (host : Host κ σ) (result : ModelSource) (code : Code)
    (this : Binding κ) :
    machine.eval host result code this =
      (do let compiled ← Action.ofExcept (machine.compile result code (.model this.model))
          let value ← compiled.run host this.value
          if compiled.result.conforms value then return value else throw .invalidResult) := by
  have hthis : machine.resolve (.model this.model) = .ok this.model := rfl
  unfold eval compile
  rw [hthis]
  -- both resolve, read and infer in a row, and differ only in what they do after that
  simp only [Action.ofExcept_bind, Action.ofExcept_ok_bind, bind_assoc]
  refine bind_congr fun r => bind_congr fun e => bind_congr fun T => ?_
  change _ = Action.ofExcept (.ok _) >>= _
  -- a binding conforms to its model, so that compiled code takes its value
  rw [Action.ofExcept_ok_bind, Compiled.run, if_pos this.conforms, Compiled.runUnchecked]

section Outcomes

variable {host : Host κ σ} {result : ModelSource} {code : Code} {this : Binding κ}

/-- Code that is refused is not run. -/
theorem eval_of_compile_error {e : MachineError κ}
    (h : machine.compile result code (.model this.model) = .error e) (run : Run σ) :
    machine.eval host result code this run = (.error e, run) := by
  rw [eval_eq_compile_run, h]
  rfl

/-- Code that is compiled is run, and only its result may be refused after that. -/
theorem eval_of_compile_ok {compiled : Compiled κ}
    (h : machine.compile result code (.model this.model) = .ok compiled) (run : Run σ) :
    machine.eval host result code this run =
      match compiled.run host this.value run with
      | (.error e, after) => (.error e, after)
      | (.ok x, after) =>
        (if compiled.result.conforms x then .ok x else .error .invalidResult, after) := by
  rw [eval_eq_compile_run, h, Action.ofExcept_ok_bind, Action.run_bind]
  rcases compiled.run host this.value run with ⟨_ | x, after⟩
  · rfl
  -- what came out is checked against the model that was asked for
  · by_cases hx : compiled.result.conforms x = true
    · simp only [hx, if_true]
      rfl
    · simp only [hx]
      rfl

/-- The last look at a result does nothing to the host. -/
theorem eval_state_of_compile_ok {compiled : Compiled κ}
    (h : machine.compile result code (.model this.model) = .ok compiled) (run : Run σ) :
    (machine.eval host result code this run).2 = (compiled.run host this.value run).2 := by
  rw [eval_of_compile_ok h]
  rcases compiled.run host this.value run with ⟨_ | x, after⟩ <;> rfl

/-- A binding of the model that code was compiled for is not refused. What fails is the evaluation
of the code. -/
theorem run_ne_invalidValue {compiled : Compiled κ}
    (h : machine.compile result code (.model this.model) = .ok compiled) (run : Run σ) :
    (compiled.run host this.value run).1 ≠ .error .invalidValue := by
  obtain ⟨-, ht, -⟩ := compile_eq_ok_iff.mp h
  have hthis : this.model = compiled.this := Except.ok.inj (Except.mapError_eq_ok_iff.mp ht)
  -- the value of the binding conforms, so the check before the run passes
  rw [Compiled.run, ← hthis, if_pos this.conforms, Compiled.runUnchecked]
  rcases heval : compiled.expr.evaluate host (compiled.machine.values this.value)
    (.ofLimit compiled.machine.options.maxDepth) run with ⟨outcome, after⟩
  rw [evaluate_run heval]
  cases outcome with
  | error e => exact fun h => by cases h
  | ok v => exact fun h => by cases h

end Outcomes

/-- **The entry points of a machine agree.** Code that does not compile for the model of a binding
is refused for the same cause by a check and by an evaluation on that binding, and no function of
the host is called. Of code that compiles, a check tells the model, which the asked one accepts. On
the value of the binding it does not fail because of that value, and an evaluation makes the same
calls of the host and ends in the same way, but for a result that does not conform to the asked
model. The last two parts are how the two refusals of values are told. -/
theorem entryPoints_agree (host : Host κ σ) (machine : Machine κ) (result : ModelSource)
    (code : Code) (this : Binding κ) (run : Run σ) :
    (match machine.compile result code (.model this.model) with
    | .error e =>
      machine.check result code (.model this.model) = .error e ∧
        machine.eval host result code this run = (.error e, run) ∧
        host.calls (fun host => machine.eval host result code this) run = []
    | .ok compiled =>
      machine.check result code (.model this.model) = .ok compiled.inferred ∧
        machine.resolve result = .ok compiled.result ∧
        compiled.result.accepts compiled.inferred = true ∧
        (compiled.run host this.value run).1 ≠ .error .invalidValue ∧
        host.calls (fun host => machine.eval host result code this) run =
          host.calls (fun host => compiled.run host this.value) run ∧
        machine.eval host result code this run =
          match compiled.run host this.value run with
          | (.error e, after) => (.error e, after)
          | (.ok x, after) =>
            (if compiled.result.conforms x then .ok x else .error .invalidResult, after)) ∧
    (MachineError.invalidValue : MachineError κ).toFailure.text =
      "TypeError: Model validation failed" ∧
    (MachineError.invalidResult : MachineError κ).toFailure.text =
      "TypeError: invalid result type" := by
  refine ⟨?_, rfl, rfl⟩
  rw [check_eq_map_compile]
  cases h : machine.compile result code (.model this.model) with
  | error e =>
    refine ⟨rfl, eval_of_compile_error h run, ?_⟩
    rw [Host.calls, eval_of_compile_error h]
    rfl
  | ok compiled =>
    obtain ⟨hr, -, -, hT, -⟩ := compile_eq_ok_iff.mp h
    have haccepts := Model.le_iff_accepts.mp (checkExpr_eq_ok_iff.mp hT).2
    refine ⟨rfl, hr, haccepts, run_ne_invalidValue h run, ?_, eval_of_compile_ok h run⟩
    -- behind the recorder, an evaluation and a run of the compiled code end in the same state
    rw [Host.calls, Host.calls, eval_state_of_compile_ok h]

end Machine

end CheckedExpr
