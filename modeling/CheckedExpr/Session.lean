import CheckedExpr.Machine

/-!
# Sessions

A machine is used by asking it for one thing after the other, and what fails does not end its use.
Code that was compiled is held and can be run as long as the machine stays as it was: whoever asks
for a change of the bindings gives it up.
-/

namespace CheckedExpr

/-- What a machine may be asked for. -/
inductive Request (κ : Type) where
  /-- To bind a name to a value, if it is of a model. -/
  | set (name : String) (source : ModelSource) (value : Value κ)
  /-- To bind a name to the binding that a model and a value make, if they make one. -/
  | bind (name : String) (model : Model) (value : Value κ)
  /-- To bind a name to data of the host. -/
  | bindHost (name : String) (type : HostType) (data : type.Carrier)
  | delete (name : String)
  | get (name : String)
  | check (result : ModelSource) (code : Code) (this : ModelSource)
  | compile (result : ModelSource) (code : Code) (this : ModelSource)
  | eval (result : ModelSource) (code : Code) (this : Binding κ)
  /-- To run a piece of the code that is held, on a value for `this`. -/
  | run (index : Nat) (this : Value κ)

/-- What is answered if nothing goes wrong. -/
inductive Answer (κ : Type) where
  | done
  | binding (b : Option (Binding κ))
  | model (m : Model)
  | compiled (code : Compiled κ)
  | value (v : Value κ)

/-- A machine in use. -/
structure Session (κ σ : Type) where
  machine : Machine κ
  /-- Code that was compiled on the machine and is held, in the order in which it was compiled. -/
  held : List (Compiled κ)
  /-- Where the host has come to. -/
  run : Run σ

namespace Session

variable {κ σ : Type}

/-- A machine without bindings, before anything is asked for. -/
def start (options : Machine.Options) (run : Run σ) : Session κ σ := ⟨{ options }, [], run⟩

/-- The machine is exchanged, for which the code that is held has to be given up. -/
def exchange (session : Session κ σ) (machine : Machine κ) : Session κ σ :=
  { session with machine, held := [] }

/-- The answer to a request, and what becomes of the session. -/
def step (host : Host κ σ) (session : Session κ σ) :
    Request κ → Except (MachineError κ) (Answer κ) × Session κ σ
  | .set name source value =>
    match session.machine.set name source value with
    | .error e => (.error e, session.exchange session.machine)
    | .ok machine => (.ok .done, session.exchange machine)
  | .bind name model value =>
    -- the binding is made before the machine hears of it
    match Machine.toBinding model value with
    | .error e => (.error e, session)
    | .ok b => (.ok .done, session.exchange (session.machine.bind name b))
  | .bindHost name type data =>
    (.ok .done, session.exchange (session.machine.bind name (Binding.ofHost type data)))
  | .delete name =>
    (.ok (.binding (session.machine.get? name)), session.exchange (session.machine.delete name))
  | .get name => (.ok (.binding (session.machine.get? name)), session)
  | .check result code this => ((session.machine.check result code this).map .model, session)
  | .compile result code this =>
    match session.machine.compile result code this with
    | .error e => (.error e, session)
    | .ok compiled =>
      (.ok (.compiled compiled), { session with held := session.held ++ [compiled] })
  | .eval result code this =>
    let (outcome, after) := session.machine.eval host result code this session.run
    (outcome.map .value, { session with run := after })
  | .run index this =>
    match session.held[index]? with
    -- nobody can ask for code that is not held
    | none => (.ok .done, session)
    | some compiled =>
      let (outcome, after) := compiled.run host this session.run
      (outcome.map .value, { session with run := after })

/-- The session after some requests. -/
def after (host : Host κ σ) (session : Session κ σ) (requests : List (Request κ)) : Session κ σ :=
  requests.foldl (fun session request => (session.step host request).2) session

end Session

end CheckedExpr
