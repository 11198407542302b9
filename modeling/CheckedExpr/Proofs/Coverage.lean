import CheckedExpr.Machine
import CheckedExpr.Proofs.DepthLimits

/-!
# What inference has looked at

An expression that has a model was looked at as a whole: whatever occurs in it has a model as well,
also what evaluation may skip and what the model does not depend on. So the names in it are bound,
and the properties have names. Evaluation takes a name that is not bound, and a property without a
name, for undefined; on such an expression it never has to.

To say that it never has to, what evaluation does there is made a parameter. The parameter makes no
difference to an expression in which nothing is missing.

* `Expr.exists_infer_of_occursIn`: inference covers all that occurs.
* `Expr.evaluateOr`, `Expr.evaluateOr_undefined`: evaluation with that parameter, and what it is
  for evaluation as it is.
* `Expr.evaluateOr_eq_evaluate`: the parameter matters only if there is an occurrence of something
  that is missing.
* `Expr.infer_covers`: what a successful inference says of the whole expression.
* `Machine.evaluateOr_of_checkExpr`: a machine binds names to models and values alike, so it needs
  no way out for what it has checked.
-/

namespace CheckedExpr

variable {κ σ : Type}

/-- Whether all names that have a model are bound to a value too. -/
def Scope.Binds (models : Scope Model) (values : Scope (Value κ)) : Prop :=
  ∀ name m, models.lookup name = some m → ∃ v, values.lookup name = some v

namespace Expr

/-! ### Evaluation with another way out -/

mutual

/-- The value of an expression, with a way out where a name is not bound or a property has no
name. -/
def evaluateOr (wayOut : Evaluation κ σ (Value κ)) (host : Host κ σ) (scope : Scope (Value κ))
    (allowance : Allowance) (e : Expr) : Evaluation κ σ (Value κ) := do
  let inner ← Evaluation.descend allowance
  match e with
  | literal value => return value.toValue
  | identifier name =>
    match scope.lookup name with
    | some v => return v
    | none => wayOut
  | this => return scope.this
  | array elements => do
    let items ← evaluateAllOr wayOut host scope inner elements
    Evaluation.newArray items
  | unary op argument _ => do
    let v ← argument.evaluateOr wayOut host scope inner
    return op.apply v
  | binary .nullish left right => do
    let v ← left.evaluateOr wayOut host scope inner
    if v.isNullish then right.evaluateOr wayOut host scope inner else return v
  | binary op left right => do
    let v ← left.evaluateOr wayOut host scope inner
    let w ← right.evaluateOr wayOut host scope inner
    Evaluation.ofExcept (op.apply v w)
  | logical .and left right => do
    let v ← left.evaluateOr wayOut host scope inner
    if v.isTruthy then right.evaluateOr wayOut host scope inner else return v
  | logical .or left right => do
    let v ← left.evaluateOr wayOut host scope inner
    if v.isTruthy then return v else right.evaluateOr wayOut host scope inner
  | conditional test consequent alternate => do
    let v ← test.evaluateOr wayOut host scope inner
    if v.isTruthy then consequent.evaluateOr wayOut host scope inner
    else alternate.evaluateOr wayOut host scope inner
  | sequence body => evaluateLastOr wayOut host scope inner .undefined body
  | member true object property => do
    let v ← object.evaluateOr wayOut host scope inner
    let key ← property.evaluateOr wayOut host scope inner
    Evaluation.read v key
  | member false object property => do
    let v ← object.evaluateOr wayOut host scope inner
    match property with
    | identifier name => Evaluation.read v (.string name)
    | _ => wayOut
  | call callee arguments => do
    let v ← callee.evaluateOr wayOut host scope inner
    let values ← evaluateAllOr wayOut host scope inner arguments
    Evaluation.call host v values

/-- The values of some expressions in order, with a way out. -/
def evaluateAllOr (wayOut : Evaluation κ σ (Value κ)) (host : Host κ σ) (scope : Scope (Value κ))
    (allowance : Allowance) : List Expr → Evaluation κ σ (List (Value κ))
  | [] => return []
  | e :: es => do
    let v ← e.evaluateOr wayOut host scope allowance
    let vs ← evaluateAllOr wayOut host scope allowance es
    return v :: vs

/-- The value of the last one of some expressions, or the given one, with a way out. -/
def evaluateLastOr (wayOut : Evaluation κ σ (Value κ)) (host : Host κ σ) (scope : Scope (Value κ))
    (allowance : Allowance) (last : Value κ) : List Expr → Evaluation κ σ (Value κ)
  | [] => return last
  | e :: es => do
    let v ← e.evaluateOr wayOut host scope allowance
    evaluateLastOr wayOut host scope allowance v es

end

/-- Whether an expression is a name that is not bound, or a member the property of which should
have a name and has none. -/
def Misses (scope : Scope (Value κ)) : Expr → Prop
  | identifier name => scope.lookup name = none
  | member false _ property => ∀ key, property ≠ identifier key
  | _ => False

section Agreement

variable {wayOut : Evaluation κ σ (Value κ)} {host : Host κ σ} {scope : Scope (Value κ)}
  {allowance : Allowance}

section Lists

variable {es : List Expr}
  (hes : ∀ e ∈ es, e.evaluateOr wayOut host scope allowance = e.evaluate host scope allowance)

include hes

/-- Lists come out alike if their members do. -/
theorem evaluateAllOr_congr :
    evaluateAllOr wayOut host scope allowance es = evaluateAll host scope allowance es := by
  induction es with
  | nil => rfl
  | cons e es ih =>
    obtain ⟨he, hes⟩ := List.forall_mem_cons.mp hes
    rw [evaluateAllOr, evaluateAll, he, ih hes]

/-- And so do sequences, whichever value they would end with. -/
theorem evaluateLastOr_congr (last : Value κ) :
    evaluateLastOr wayOut host scope allowance last es =
      evaluateLast host scope allowance last es := by
  -- the value to fall back on changes from member to member
  induction es generalizing last with
  | nil => rfl
  | cons e es ih =>
    obtain ⟨he, hes⟩ := List.forall_mem_cons.mp hes
    rw [evaluateLastOr, evaluateLast, he]
    simp only [ih hes]

end Lists

/-- **The way out matters only where something is missing.** -/
theorem evaluateOr_eq_evaluate {e : Expr}
    (hmissing : ∀ a : Expr, a.OccursIn e → a.Misses scope → wayOut = pure .undefined) :
    e.evaluateOr wayOut host scope allowance = e.evaluate host scope allowance := by
  -- on the parts; each is evaluated at a level of its own, so the allowance varies
  induction e using parts_induction generalizing allowance with
  | h e ih =>
    unfold evaluateOr evaluate
    refine bind_congr fun inner => ?_
    have hparts : ∀ part ∈ e.parts,
        part.evaluateOr wayOut host scope inner = part.evaluate host scope inner :=
      fun part hpart => ih part hpart fun a ha => hmissing a (.part hpart ha)
    have hself : e.Misses scope → wayOut = pure .undefined := hmissing e .self
    cases e with
    | literal value => rfl
    | this => rfl
    | identifier name =>
      dsimp only
      cases hname : scope.lookup name with
      | none => exact hself hname
      | some v => rfl
    | array elements =>
      have hes : ∀ e ∈ elements,
        e.evaluateOr wayOut host scope inner = e.evaluate host scope inner := hparts
      dsimp only
      rw [evaluateAllOr_congr hes]
    | unary op argument before =>
      dsimp only
      rw [hparts argument (by simp [parts])]
    | binary op left right =>
      have hleft := hparts left (by simp [parts])
      have hright := hparts right (by simp [parts])
      cases op <;> dsimp only <;> rw [hleft, hright]
    | logical op left right =>
      have hleft := hparts left (by simp [parts])
      have hright := hparts right (by simp [parts])
      cases op <;> dsimp only <;> rw [hleft, hright]
    | conditional test consequent alternate =>
      dsimp only
      rw [hparts test (by simp [parts]), hparts consequent (by simp [parts]),
        hparts alternate (by simp [parts])]
    | sequence body => exact evaluateLastOr_congr hparts .undefined
    | member computed object property =>
      cases computed with
      | true =>
        dsimp only
        rw [hparts object (by simp [parts]), hparts property (by simp [parts])]
      | false =>
        dsimp only
        rw [hparts object (by simp [parts])]
        -- only a property without a name leads out
        cases property with
        | identifier key => rfl
        | _ => rw [hself (by rintro key ⟨⟩)]
    | call callee arguments =>
      obtain ⟨hcallee, harguments⟩ := List.forall_mem_cons.mp hparts
      dsimp only
      rw [hcallee, evaluateAllOr_congr harguments]

theorem evaluateOr_undefined (e : Expr) :
    e.evaluateOr (pure .undefined) host scope allowance = e.evaluate host scope allowance :=
  evaluateOr_eq_evaluate fun _ _ _ => rfl

end Agreement

/-! ### Coverage -/

section Coverage

variable {models : Scope Model} {allowance : Allowance} {e a : Expr} {T : Model}

/-- **Inference covers all that occurs.** -/
theorem exists_infer_of_occursIn (ha : a.OccursIn e) (h : e.infer models allowance = .ok T) :
    ∃ m, a.infer models allowance = .ok m := by
  induction ha generalizing allowance T with
  | self => exact ⟨T, h⟩
  | part hpart _ ih =>
    obtain ⟨inner, hinner, hparts⟩ := exists_infer_of_mem_parts h
    obtain ⟨m, hm⟩ := hparts _ hpart
    -- what is inferred deep down is inferred with all levels too
    obtain ⟨n, hn⟩ := ih hm
    exact ⟨n, infer_of_covers (Allowance.covers_of_enter hinner) hn⟩

/-- A name that has a model is bound. -/
theorem exists_lookup_of_infer {name : String}
    (h : (identifier name).infer models allowance = .ok T) :
    ∃ m, models.lookup name = some m := by
  obtain ⟨inner, -, hname⟩ := infer_identifier_iff.mp h
  exact ⟨T, hname⟩

/-- A property that is not computed has a name if the member has a model. -/
theorem exists_name_of_infer {object property : Expr}
    (h : (member false object property).infer models allowance = .ok T) :
    ∃ key, property = identifier key := by
  obtain ⟨inner, -, key, entries, hkey, -⟩ := infer_field_iff.mp h
  exact ⟨key, hkey⟩

/-- Nothing is missing that has a model. -/
theorem not_misses_of_infer {values : Scope (Value κ)} (hbinds : models.Binds values)
    (h : a.infer models allowance = .ok T) : ¬ a.Misses values := by
  intro hmisses
  -- only names and named properties can be missing at all
  cases a with
  | identifier name =>
    obtain ⟨m, hm⟩ := exists_lookup_of_infer h
    obtain ⟨v, hv⟩ := hbinds name m hm
    rw [Misses, hv] at hmisses
    cases hmisses
  | member computed object property =>
    cases computed with
    | true => exact hmisses
    | false =>
      obtain ⟨key, hkey⟩ := exists_name_of_infer h
      exact hmisses key hkey
  | _ => exact hmisses

/-- **Evaluation of what has a model does not fall back.** -/
theorem evaluateOr_of_infer {values : Scope (Value κ)} (hbinds : models.Binds values)
    (h : e.infer models allowance = .ok T) (wayOut : Evaluation κ σ (Value κ)) (host : Host κ σ)
    (allowance : Allowance) :
    e.evaluateOr wayOut host values allowance = e.evaluate host values allowance := by
  refine evaluateOr_eq_evaluate fun a ha hmisses => ?_
  obtain ⟨m, hm⟩ := exists_infer_of_occursIn ha h
  exact absurd hmisses (not_misses_of_infer hbinds hm)

/-- **A successful inference has covered the whole expression.** Whatever occurs in it has a model:
so the names are bound, operators stand before their operands, properties that are not computed have
names, and arrays have elements. In a scope of values that binds the same names, evaluation comes to
nothing that is missing, whatever way out it has. -/
theorem infer_covers (h : e.infer models allowance = .ok T) :
    (∀ a : Expr, a.OccursIn e → ∃ m, a.infer models allowance = .ok m) ∧
    (∀ name, (identifier name).OccursIn e → ∃ m, models.lookup name = some m) ∧
    (∀ op argument before, (unary op argument before).OccursIn e → before = true) ∧
    (∀ object property, (member false object property).OccursIn e →
      ∃ key, property = identifier key) ∧
    ¬ (array []).OccursIn e ∧
    ∀ {κ σ : Type} (wayOut : Evaluation κ σ (Value κ)) (host : Host κ σ) (values : Scope (Value κ))
      (allowance : Allowance), models.Binds values →
        e.evaluateOr wayOut host values allowance = e.evaluate host values allowance := by
  -- every listed consequence is a rule of inference at the place where it occurs
  have hcovered (a : Expr) (ha : a.OccursIn e) : ∃ m, a.infer models allowance = .ok m :=
    exists_infer_of_occursIn ha h
  refine ⟨hcovered, ?names, ?operators, ?properties, ?arrays, ?evaluation⟩
  case names =>
    intro name hname
    obtain ⟨m, hm⟩ := hcovered _ hname
    exact exists_lookup_of_infer hm
  case operators =>
    intro op argument before hoccurs
    obtain ⟨m, hm⟩ := hcovered _ hoccurs
    obtain ⟨inner, -, hbefore, -⟩ := infer_unary_iff.mp hm
    exact hbefore
  case properties =>
    intro object property hoccurs
    obtain ⟨m, hm⟩ := hcovered _ hoccurs
    exact exists_name_of_infer hm
  case arrays =>
    intro hoccurs
    obtain ⟨m, hm⟩ := hcovered _ hoccurs
    obtain ⟨inner, -, ms, element, hms, hne, -⟩ := infer_array_iff.mp hm
    exact hne (List.forall₂_nil_left_iff.mp hms)
  case evaluation =>
    intro κ σ wayOut host values allowance hbinds
    exact evaluateOr_of_infer hbinds h wayOut host allowance

/-- A call with an argument too many, the result of which is dropped: the name that is the argument
does not matter to the model, but it is looked at. -/
def surplus : Expr :=
  .sequence [.call (.identifier "f") [.identifier "b"], .this]

/-- The surplus argument has a model, and no way out is taken on its account. -/
theorem infer_covers_surplus :
    (surplus.infer
        ⟨fun name => some (if name = "f" then .function [] .boolean else .number), .string⟩
        (.ofLimit 4) = .ok .string ∧
      Scope.Binds
        ⟨fun name => some (if name = "f" then .function [] .boolean else .number), .string⟩
        ⟨fun name => some (if name = "f" then .function 0 "f" () else .number 1),
          .string "s"⟩) ∧
    (∃ m, (identifier "b").infer
      ⟨fun name => some (if name = "f" then .function [] .boolean else .number), .string⟩
      (.ofLimit 4) = .ok m) ∧
    surplus.evaluateOr (throw (.tooDeep 0)) .echoing
        ⟨fun name => some (if name = "f" then .function 0 "f" () else .number 1),
          .string "s"⟩ (.ofLimit 4) =
      surplus.evaluate .echoing
        ⟨fun name => some (if name = "f" then .function 0 "f" () else .number 1),
          .string "s"⟩ (.ofLimit 4) := by
  have hinfer : surplus.infer
      ⟨fun name => some (if name = "f" then .function [] .boolean else .number), .string⟩
      (.ofLimit 4) = .ok .string := by
    rfl
  have hbinds : Scope.Binds
      ⟨fun name => some (if name = "f" then .function [] .boolean else .number), .string⟩
      (⟨fun name => some (if name = "f" then .function 0 "f" () else .number 1),
        .string "s"⟩ : Scope (Value Unit)) :=
    fun _ _ _ => ⟨_, rfl⟩
  obtain ⟨hcovered, -, -, -, -, hevaluation⟩ := infer_covers hinfer
  -- the call has an argument that its function does not take
  have hcall : (identifier "b").OccursIn (.call (.identifier "f") [.identifier "b"]) :=
    .part (by simp [parts]) .self
  have hoccurs : (identifier "b").OccursIn surplus :=
    .part (by simp [surplus, parts]) hcall
  exact ⟨⟨hinfer, hbinds⟩, hcovered _ hoccurs, hevaluation _ _ _ _ hbinds⟩

end Coverage

end Expr

/-! ### Machines -/

namespace Machine

variable {machine : Machine κ} {result this : Model} {e : Expr} {T : Model}

/-- A machine binds names to models and values alike. -/
theorem binds (machine : Machine κ) (model : Model) (value : Value κ) :
    (machine.models model).Binds (machine.values value) := fun name m h => by
  obtain ⟨b, hb, -⟩ := Option.map_eq_some_iff.mp h
  exact ⟨b.value, Option.map_eq_some_iff.mpr ⟨b, hb, rfl⟩⟩

/-- What a machine has checked, it evaluates without falling back. -/
theorem evaluateOr_of_checkExpr (h : machine.checkExpr result e this = .ok T)
    (wayOut : Evaluation κ σ (Value κ)) (host : Host κ σ) (value : Value κ)
    (allowance : Allowance) :
    e.evaluateOr wayOut host (machine.values value) allowance =
      e.evaluate host (machine.values value) allowance := by
  obtain ⟨inferred, hinferred, -⟩ := Except.bind_eq_ok_iff.mp h
  have hinfer := Except.mapError_eq_ok_iff.mp hinferred
  exact Expr.evaluateOr_of_infer (machine.binds this value) hinfer wayOut host allowance

end Machine

end CheckedExpr
