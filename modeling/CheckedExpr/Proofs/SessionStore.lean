import CheckedExpr.Proofs.EntryPoints
import CheckedExpr.Proofs.TableOrder
import CheckedExpr.Session
import Mathlib.Data.List.Induction
import Mathlib.Logic.Function.Basic

/-!
# What a session keeps

Whatever a machine is asked for, what is bound on it afterwards is told by the requests alone: by
those that bind a name to a value of its model, of which the last one counts, and by those that
delete a name. What fails and what only asks leaves no trace in the bindings.

* `Request.store`: what requests bind the names to, told without a machine.
* `Session.Effect`: all that a request can do to a machine, in four cases. Every invariant is proved
  from these alone, so that no other proof looks into `Session.step`.
* `Session.after_start`: the bindings of a session are those of its requests.
-/

namespace CheckedExpr

variable {κ σ : Type}

/-! ### Stores -/

/-- What names are bound to: a model and a value. -/
abbrev Store (κ : Type) := String → Option (Model × Value κ)

namespace Request

/-- The name that a request binds, and what it binds it to. Nothing is bound for a descriptor that
does not denote a model or for a value that does not conform to its model. -/
def bound? (dialect : Dialect) : Request κ → Option (String × Model × Value κ)
  | set name source value =>
    match source.resolve dialect with
    | .error _ => none
    | .ok model => if model.conforms value then some (name, model, value) else none
  | bind name model value => if model.conforms value then some (name, model, value) else none
  | bindHost name type data => some (name, type.model, type.toValue data)
  | _ => none

/-- The name that a request deletes. -/
def deleted? : Request κ → Option String
  | delete name => some name
  | _ => none

/-- Whether a request only asks for something. -/
def Asks : Request κ → Prop
  | get _ | check .. | compile .. | eval .. | run .. => True
  | set .. | bind .. | bindHost .. | delete _ => False

/-- What names are bound to after a request. -/
def apply (dialect : Dialect) (store : Store κ) (request : Request κ) : Store κ :=
  match request.bound? dialect with
  | some (name, bound) => Function.update store name (some bound)
  | none =>
    match request.deleted? with
    | some name => Function.update store name none
    | none => store

/-- What names are bound to after some requests, if none is bound before. -/
def store (dialect : Dialect) (requests : List (Request κ)) : Store κ :=
  requests.foldl (apply dialect) fun _ => none

section

variable {dialect : Dialect} {request : Request κ} {name : String} {source : ModelSource}
  {model : Model} {value : Value κ}

/-- A descriptor that does not denote a model binds nothing. -/
theorem bound?_set_of_error {e : ParseError} (h : source.resolve dialect = .error e) :
    (set name source value).bound? dialect = none := by
  unfold bound?
  dsimp only
  rw [h]

/-- One that does binds the value if it conforms. -/
theorem bound?_set_of_ok (h : source.resolve dialect = .ok model) :
    (set name source value).bound? dialect =
      if model.conforms value then some (name, model, value) else none := by
  unfold bound?
  dsimp only
  rw [h]

/-- What is bound conforms: this is looked at before, unless the type of the data tells it. -/
theorem conforms_of_bound? (h : request.bound? dialect = some (name, model, value)) :
    model.conforms value = true := by
  -- three requests bind, and only the last of them does not look at the value
  cases request with
  | set _ source v =>
    cases hsource : source.resolve dialect with
    | error e =>
      rw [bound?_set_of_error hsource] at h
      cases h
    | ok m =>
      rw [bound?_set_of_ok hsource] at h
      obtain ⟨hconforms, heq⟩ := Option.ite_none_right_eq_some.mp h
      cases heq
      exact hconforms
  | bind _ m v =>
    obtain ⟨hconforms, heq⟩ := Option.ite_none_right_eq_some.mp h
    cases heq
    exact hconforms
  | bindHost _ type data =>
    cases h
    exact type.conforms_toValue data
  | _ => cases h

theorem bound?_of_asks (h : request.Asks) : request.bound? dialect = none := by
  cases request <;> first | rfl | exact absurd h id

theorem deleted?_of_asks (h : request.Asks) : request.deleted? = none := by
  cases request <;> first | rfl | exact absurd h id

variable {store : Store κ}

/-- A request that binds a name changes the store at that name only. -/
theorem apply_of_bound? {bound : Model × Value κ}
    (h : request.bound? dialect = some (name, bound)) :
    request.apply dialect store = Function.update store name (some bound) := by
  rw [apply, h]

theorem apply_of_deleted? (h : request.bound? dialect = none)
    (hdeleted : request.deleted? = some name) :
    request.apply dialect store = Function.update store name none := by
  rw [apply, h, hdeleted]

theorem apply_of_none (h : request.bound? dialect = none) (hdeleted : request.deleted? = none) :
    request.apply dialect store = store := by
  rw [apply, h, hdeleted]

/-- A request leaves a store in which everything conforms as one in which everything does. -/
theorem conforms_apply
    (hstore : ∀ name model value, store name = some (model, value) → model.conforms value = true)
    (h : request.apply dialect store name = some (model, value)) :
    model.conforms value = true := by
  -- a name has what it is bound to from this request, or had it before
  cases hbound : request.bound? dialect with
  | some named =>
    obtain ⟨other, m, v⟩ := named
    rw [apply_of_bound? hbound, Function.update_apply] at h
    split at h
    · cases h
      exact conforms_of_bound? hbound
    · exact hstore _ _ _ h
  | none =>
    cases hdeleted : request.deleted? with
    | some other =>
      rw [apply_of_deleted? hbound hdeleted, Function.update_apply] at h
      split at h
      · cases h
      · exact hstore _ _ _ h
    | none =>
      rw [apply_of_none hbound hdeleted] at h
      exact hstore _ _ _ h

/-- The last request acts on what the others have made. -/
theorem store_concat (requests : List (Request κ)) (request : Request κ) :
    Request.store dialect (requests ++ [request]) =
      request.apply dialect (Request.store dialect requests) :=
  List.foldl_concat ..

/-- **Whatever requests bind conforms to its model.** -/
theorem conforms_store {requests : List (Request κ)}
    (h : Request.store dialect requests name = some (model, value)) :
    model.conforms value = true := by
  induction requests using List.reverseRecOn generalizing name model value with
  | nil => cases h
  | append_singleton requests request ih =>
    rw [store_concat] at h
    exact conforms_apply (fun _ _ _ => ih) h

end

end Request

/-! ### Steps -/

namespace Machine

theorem toBinding_of_conforms {model : Model} {value : Value κ} (h : model.conforms value = true) :
    toBinding model value = .ok ⟨model, value, h⟩ := by
  rw [toBinding, Binding.ofValue?, dif_pos h]

theorem toBinding_of_not_conforms {model : Model} {value : Value κ}
    (h : ¬model.conforms value = true) : toBinding model value = .error .invalidValue := by
  rw [toBinding, Binding.ofValue?, dif_neg h]

/-- What the names are bound to on a machine. -/
def store (machine : Machine κ) : Store κ := fun name =>
  (machine.get? name).map fun b => (b.model, b.value)

/-- On a machine, binding changes one name. -/
theorem store_bind (machine : Machine κ) (name : String) (b : Binding κ) :
    (machine.bind name b).store = Function.update machine.store name (some (b.model, b.value)) := by
  funext other
  rw [Function.update_apply, store, get?, bind, Table.get?_insert]
  split <;> rfl

/-- Deleting changes one name as well. -/
theorem store_delete (machine : Machine κ) (name : String) :
    (machine.delete name).store = Function.update machine.store name none := by
  funext other
  rw [Function.update_apply, store, get?, delete, Table.get?_erase]
  split <;> rfl

end Machine

namespace Session

/-- What a request can do to a machine, by how it is answered. -/
inductive Effect (machine : Machine κ) :
    Request κ → Except (MachineError κ) (Answer κ) → Machine κ → Prop
  /-- A name is bound. -/
  | bind {request : Request κ} {name : String} {b : Binding κ}
      (hbound : request.bound? machine.options.dialect = some (name, b.model, b.value)) :
      Effect machine request (.ok .done) (machine.bind name b)
  /-- A name is bound no longer, and what it was bound to is handed out. -/
  | delete (name : String) :
      Effect machine (.delete name) (.ok (.binding (machine.get? name))) (machine.delete name)
  /-- A name is not bound, since there is nothing to bind it to. -/
  | refuse {request : Request κ} {e : MachineError κ}
      (hbound : request.bound? machine.options.dialect = none) (hdeleted : request.deleted? = none)
      (hasks : ¬request.Asks) : Effect machine request (.error e) machine
  /-- Something is told, or not. -/
  | ask {request : Request κ} {outcome : Except (MachineError κ) (Answer κ)}
      (hasks : request.Asks) : Effect machine request outcome machine

variable {host : Host κ σ} {session : Session κ σ} {request : Request κ}

/-- Setting a name may fail for its descriptor and for its value, and changes nothing then. -/
private theorem effect_set (machine : Machine κ) (name : String) (source : ModelSource)
    (value : Value κ) :
    (∃ e, machine.set name source value = .error e ∧
      Effect machine (.set name source value) (.error e) machine) ∨
    ∃ after, machine.set name source value = .ok after ∧
      Effect machine (.set name source value) (.ok .done) after := by
  unfold Machine.set Machine.resolve
  -- a set may fail twice: for its descriptor, and for its value
  cases hsource : source.resolve machine.options.dialect with
  | error e => exact Or.inl ⟨_, rfl, .refuse (Request.bound?_set_of_error hsource) rfl id⟩
  | ok model =>
    have hbound : (Request.set name source value).bound? machine.options.dialect = _ :=
      Request.bound?_set_of_ok hsource
    change (∃ e, (Machine.toBinding model value >>= _) = _ ∧ _) ∨
      ∃ after, (Machine.toBinding model value >>= _) = _ ∧ _
    by_cases hconforms : model.conforms value = true
    · rw [Machine.toBinding_of_conforms hconforms]
      exact Or.inr ⟨_, rfl, .bind (hbound.trans (if_pos hconforms))⟩
    · rw [Machine.toBinding_of_not_conforms hconforms]
      exact Or.inl ⟨_, rfl, .refuse (hbound.trans (if_neg hconforms)) rfl id⟩

/-- **What a request does is one of four things.** -/
theorem effect_step (host : Host κ σ) (session : Session κ σ) (request : Request κ) :
    Effect session.machine request (session.step host request).1
      (session.step host request).2.machine := by
  -- by the kinds of requests, each of which has one effect, or two if it can be refused
  cases request with
  | set name source value =>
    simp only [step]
    rcases effect_set session.machine name source value with ⟨e, h, heffect⟩ | ⟨after, h, heffect⟩
    · rw [h]
      exact heffect
    · rw [h]
      exact heffect
  | bind name model value =>
    simp only [step]
    by_cases hconforms : model.conforms value = true
    · rw [Machine.toBinding_of_conforms hconforms]
      exact .bind (if_pos hconforms)
    · rw [Machine.toBinding_of_not_conforms hconforms]
      exact .refuse (if_neg hconforms) rfl id
  | bindHost name type data => exact .bind rfl
  | delete name => exact .delete name
  | get name => exact .ask trivial
  | check result code this => exact .ask trivial
  | compile result code this =>
    simp only [step]
    cases session.machine.compile result code this with
    | error e => exact .ask trivial
    | ok compiled => exact .ask trivial
  | eval result code this => exact .ask trivial
  | run index this =>
    simp only [step]
    cases session.held[index]? with
    | none => exact .ask trivial
    | some compiled => exact .ask trivial

namespace Effect

variable {machine after : Machine κ} {outcome : Except (MachineError κ) (Answer κ)}

theorem options_eq (h : Effect machine request outcome after) :
    after.options = machine.options := by
  cases h <;> rfl

/-- The names of a machine stay in order. -/
theorem ascends (h : Effect machine request outcome after)
    (hmachine : Table.Ascends machine.environment) : Table.Ascends after.environment := by
  cases h with
  | bind => exact hmachine.insert _ _
  | delete => exact hmachine.erase _
  | refuse | ask => exact hmachine

/-- The bindings change as the request alone tells. -/
theorem store_eq (h : Effect machine request outcome after) :
    after.store = request.apply machine.options.dialect machine.store := by
  cases h with
  | bind hbound => rw [Machine.store_bind, Request.apply_of_bound? hbound]
  | delete name => rw [Machine.store_delete, Request.apply_of_deleted? rfl rfl]
  | refuse hbound hdeleted => rw [Request.apply_of_none hbound hdeleted]
  | ask hasks =>
    rw [Request.apply_of_none (Request.bound?_of_asks hasks) (Request.deleted?_of_asks hasks)]

/-- What fails and what only asks does nothing. -/
theorem eq_of_error_or_asks (h : Effect machine request outcome after)
    (hnothing : (∃ e, outcome = .error e) ∨ request.Asks) : after = machine := by
  cases h with
  | bind hbound =>
    rcases hnothing with ⟨e, herror⟩ | hasks
    · cases herror
    · rw [Request.bound?_of_asks hasks] at hbound
      cases hbound
  | delete name =>
    rcases hnothing with ⟨e, herror⟩ | hasks
    · cases herror
    · exact absurd hasks id
  | refuse | ask => rfl

/-- A request to bind a name fails exactly if there is nothing to bind it to. -/
theorem exists_error_iff (h : Effect machine request outcome after) (hasks : ¬request.Asks)
    (hdeleted : request.deleted? = none) :
    (∃ e, outcome = .error e) ↔ request.bound? machine.options.dialect = none := by
  -- of the four effects only one is a refusal
  cases h with
  | bind hbound =>
    rw [hbound]
    constructor
    · rintro ⟨e, herror⟩
      cases herror
    · intro hnone
      cases hnone
  | delete name => cases hdeleted
  | refuse hbound => exact ⟨fun _ => hbound, fun _ => ⟨_, rfl⟩⟩
  | ask h => exact absurd h hasks

end Effect

/-! ### Sessions -/

/-- Whether a session is in a state that requests to a machine without bindings can lead to. -/
structure Keeps (options : Machine.Options) (requests : List (Request κ)) (session : Session κ σ) :
    Prop where
  options_eq : session.machine.options = options
  store_eq : session.machine.store = Request.store options.dialect requests
  ascends : Table.Ascends session.machine.environment
  held : ∀ code ∈ session.held, code.machine = session.machine

/-- A machine without bindings is where sessions begin. -/
theorem keeps_start (options : Machine.Options) (run : Run σ) :
    Keeps options [] (start options run : Session κ σ) where
  options_eq := rfl
  store_eq := rfl
  ascends := Table.ascends_nil
  held := by simp [start]

/-- Code that is held was compiled on the machine as it is. -/
theorem held_step (h : ∀ code ∈ session.held, code.machine = session.machine)
    (request : Request κ) :
    ∀ code ∈ (session.step host request).2.held,
      code.machine = (session.step host request).2.machine := by
  -- what changes the machine gives up all code, and only compiling adds to it
  cases request with
  | set name source value =>
    simp only [step]
    cases session.machine.set name source value <;> simp [exchange]
  | bind name model value =>
    simp only [step]
    cases (Machine.toBinding model value : Except (MachineError κ) _) with
    | error e => exact h
    | ok b => simp [exchange]
  | bindHost name type data => simp [step, exchange]
  | delete name => simp [step, exchange]
  | get name => exact h
  | check result code this => exact h
  | compile result code this =>
    simp only [step]
    cases hcompiled : session.machine.compile result code this with
    | error e => exact h
    | ok compiled =>
      obtain ⟨-, -, -, -, hmachine⟩ := Machine.compile_eq_ok_iff.mp hcompiled
      intro held hheld
      rcases List.mem_append.mp hheld with hheld | hheld
      · exact h held hheld
      · rw [List.mem_singleton.mp hheld]
        exact hmachine
  | eval result code this => exact h
  | run index this =>
    simp only [step]
    cases session.held[index]? with
    | none => exact h
    | some compiled => exact h

/-- One more request keeps the state such. -/
theorem Keeps.step {options : Machine.Options} {requests : List (Request κ)}
    (h : Keeps options requests session) (request : Request κ) :
    Keeps options (requests ++ [request]) (session.step host request).2 where
  options_eq := (effect_step host session request).options_eq.trans h.options_eq
  store_eq := by
    rw [(effect_step host session request).store_eq, h.store_eq, h.options_eq,
      Request.store_concat]
  ascends := (effect_step host session request).ascends h.ascends
  held := held_step h.held request

/-- So do all of them, one after the other. -/
theorem keeps_after (host : Host κ σ) (options : Machine.Options) (run : Run σ)
    (requests : List (Request κ)) :
    Keeps options requests ((start options run).after host requests) := by
  -- from the last request backwards, since a store is told from the first one on
  induction requests using List.reverseRecOn with
  | nil => exact keeps_start options run
  | append_singleton requests request ih =>
    rw [after, List.foldl_concat]
    exact ih.step request

/-- **The bindings of a session are those of its requests.** After any requests to a machine without
bindings, a name is bound exactly to what the last request that binds or deletes it tells, which
conforms to its model. Inference and evaluation both see this and nothing else, the names are listed
in order, and code that is held sees it as well. A request that fails or only asks, whatever comes
of it, does not touch the machine; and a request to bind a name fails exactly if its descriptor
denotes no model or its value does not conform to the model. -/
theorem after_start (host : Host κ σ) (options : Machine.Options) (run : Run σ)
    (requests : List (Request κ)) :
    let session := (start options run).after host requests
    let store := Request.store options.dialect requests
    (∀ name, (session.machine.get? name).map (fun b => (b.model, b.value)) = store name) ∧
    (∀ name model value, store name = some (model, value) → model.conforms value = true) ∧
    (∀ this name, (session.machine.models this).lookup name = (store name).map Prod.fst) ∧
    (∀ this name, (session.machine.values this).lookup name = (store name).map Prod.snd) ∧
    (∀ name, name ∈ session.machine.names ↔ (store name).isSome = true) ∧
    session.machine.names.Pairwise (· < ·) ∧
    session.machine.options = options ∧
    (∀ code ∈ session.held, code.machine = session.machine) ∧
    ∀ request : Request κ,
      ((∃ e, (session.step host request).1 = .error e) ∨ request.Asks →
        (session.step host request).2.machine = session.machine) ∧
      (¬request.Asks → request.deleted? = none →
        ((∃ e, (session.step host request).1 = .error e) ↔
          request.bound? options.dialect = none)) := by
  intro session store
  have hkeeps : Keeps options requests session := keeps_after host options run requests
  have hstore (name : String) :
      (session.machine.get? name).map (fun b => (b.model, b.value)) = store name :=
    congrFun hkeeps.store_eq name
  refine ⟨hstore, fun _ _ _ => Request.conforms_store, fun this name => ?models,
    fun this name => ?values, fun name => ?names, hkeeps.ascends, hkeeps.options_eq, hkeeps.held,
    fun request => ⟨?nothing, ?failure⟩⟩
  case models =>
    rw [← hstore, Option.map_map]
    rfl
  case values =>
    rw [← hstore, Option.map_map]
    rfl
  case names =>
    rw [← hstore, Option.isSome_map]
    exact Table.mem_keys_iff
  case nothing => exact (effect_step host session request).eq_of_error_or_asks
  case failure =>
    rw [← hkeeps.options_eq]
    exact (effect_step host session request).exists_error_iff

-- a value that does not conform does not take the place of one that does
example :
    ((start {} ⟨0, ()⟩ : Session Unit Unit).after ⟨fun _ _ run => (.ok .null, run)⟩
      [.bind "x" .boolean (.boolean true), .set "x" (.model .boolean) (.string "true"),
        .check (.model .boolean) (.tree (.identifier "x")) (.model .null)]).machine.store "x" =
      some (.boolean, .boolean true) :=
  rfl

end Session

end CheckedExpr
