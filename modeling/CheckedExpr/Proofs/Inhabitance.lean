import CheckedExpr.Evaluation
import CheckedExpr.Proofs.ModelOrder
import CheckedExpr.Proofs.TreeInduction
import CheckedExpr.Value.Conforms
import Mathlib.Data.List.Forall2

/-!
# Values that keep the promise of a model

That a value conforms to a model can be seen by looking at it, except for what its functions do.
A value *inhabits* a model if its functions also keep their word: a function answers every row of
arguments that inhabit its parameters with a failure of its own or with a value that inhabits its
result, in whatever state it is called. A function may itself take and return functions, so this is
a relation by recursion on the model, in which parameters stand on the side of the assumptions.

* `conforms_of_inhabits`: what inhabits a model conforms to it.
* `inhabits_of_le`: a greater model is inhabited by more values. Functions are compared as they
  stand, so nothing has to be known of them here.
* `inhabits_stripNullable`: what is there inhabits the model below the optional layer.
-/

namespace CheckedExpr.Model

variable {κ σ : Type}

mutual

/-- Whether a value is of a model, and all functions in it keep their word. -/
def Inhabits (host : Host κ σ) : Model → Value κ → Prop
  | .simple kind, v => SimpleModel.conforms kind v = true
  | .nullable inner, v => v.isNullish = true ∨ Inhabits host inner v
  | .array element, v =>
    ∃ identity items, v = .array identity items ∧ ∀ item ∈ items, Inhabits host element item
  | .object entries, v =>
    ∃ identity fields, v = .object identity fields ∧ EntriesInhabit host entries fields
  | .function parameters result, v =>
    ∃ identity name body, v = .function identity name body ∧
      ∀ arguments run, ArgumentsInhabit host parameters arguments →
        ∀ w, (host.call body arguments run).1 = .ok w → Inhabits host result w

/-- Whether fields keep the promise of entries. A field that is missing counts as undefined. -/
def EntriesInhabit (host : Host κ σ) : List (String × Model) → List (String × Value κ) → Prop
  | [], _ => True
  | (key, m) :: entries, fields =>
    Inhabits host m ((fields.lookup key).getD .undefined) ∧ EntriesInhabit host entries fields

/-- Whether arguments keep the promise of parameters. An argument that is missing counts as
undefined, and arguments without a parameter do not matter. -/
def ArgumentsInhabit (host : Host κ σ) : List Model → List (Value κ) → Prop
  | [], _ => True
  | m :: ms, arguments =>
    Inhabits host m (arguments.headD .undefined) ∧ ArgumentsInhabit host ms arguments.tail

end

variable {host : Host κ σ}

theorem argumentsInhabit_nil (arguments : List (Value κ)) : ArgumentsInhabit host [] arguments :=
  trivial

/-- Parameter by parameter, with undefined for what is missing. -/
theorem argumentsInhabit_cons_iff {m : Model} {ms : List Model} {arguments : List (Value κ)} :
    ArgumentsInhabit host (m :: ms) arguments ↔
      Inhabits host m (arguments.headD .undefined) ∧ ArgumentsInhabit host ms arguments.tail :=
  Iff.rfl

/-- Arguments inhabit parameters place by place. -/
theorem argumentsInhabit_iff {parameters : List Model} {arguments : List (Value κ)} :
    ArgumentsInhabit host parameters arguments ↔
      ∀ (i : Nat) (m : Model), parameters[i]? = some m →
        Inhabits host m (arguments[i]?.getD .undefined) := by
  induction parameters generalizing arguments with
  | nil => simp [argumentsInhabit_nil]
  | cons p ps ih =>
    -- the first parameter is at place zero, and the others have moved up by one
    rw [argumentsInhabit_cons_iff, ih]
    constructor
    · rintro ⟨hp, hps⟩ i m hi
      cases i with
      | zero =>
        obtain rfl : p = m := by simpa using hi
        simpa [List.headD_eq_head?_getD, List.head?_eq_getElem?] using hp
      | succ i => simpa using hps i m (by simpa using hi)
    · intro h
      constructor
      · simpa [List.headD_eq_head?_getD, List.head?_eq_getElem?] using h 0 p rfl
      · intro i m hi
        simpa using h (i + 1) m (by simpa using hi)

/-- Entry by entry, since no entry depends on the others. -/
theorem entriesInhabit_iff {entries : List (String × Model)} {fields : List (String × Value κ)} :
    EntriesInhabit host entries fields ↔
      ∀ entry ∈ entries, Inhabits host entry.2 ((fields.lookup entry.1).getD .undefined) := by
  induction entries with
  | nil => exact iff_of_true trivial (by simp)
  | cons entry entries ih =>
    obtain ⟨key, m⟩ := entry
    rw [List.forall_mem_cons, ← ih]
    exact Iff.rfl

/-! ### What inhabits each kind of model -/

theorem inhabits_simple_iff {kind : SimpleModel} {v : Value κ} :
    Inhabits host (simple kind) v ↔ SimpleModel.conforms kind v = true :=
  Iff.rfl

theorem inhabits_nullable_iff {inner : Model} {v : Value κ} :
    Inhabits host (nullable inner) v ↔ v.isNullish = true ∨ Inhabits host inner v :=
  Iff.rfl

/-- An array inhabits its model if its items do. -/
theorem inhabits_array_iff {element : Model} {v : Value κ} :
    Inhabits host (array element) v ↔
      ∃ identity items, v = .array identity items ∧ ∀ item ∈ items, Inhabits host element item :=
  Iff.rfl

/-- An object inhabits its model if its fields do, and may have more of them. -/
theorem inhabits_object_iff {entries : List (String × Model)} {v : Value κ} :
    Inhabits host (object entries) v ↔
      ∃ identity fields, v = .object identity fields ∧
        ∀ entry ∈ entries, Inhabits host entry.2 ((fields.lookup entry.1).getD .undefined) := by
  have h : Inhabits host (object entries) v ↔
      ∃ identity fields, v = .object identity fields ∧ EntriesInhabit host entries fields := Iff.rfl
  simpa only [entriesInhabit_iff] using h

/-- A function keeps its word if every answer to fitting arguments inhabits the result. -/
theorem inhabits_function_iff {parameters : List Model} {result : Model} {v : Value κ} :
    Inhabits host (function parameters result) v ↔
      ∃ identity name body, v = .function identity name body ∧
        ∀ arguments run, ArgumentsInhabit host parameters arguments →
          ∀ w, (host.call body arguments run).1 = .ok w → Inhabits host result w :=
  Iff.rfl

/-! ### Conforming and inhabiting -/

/-- Conforming is tested entry by entry too. -/
theorem conformsEntries_eq_true_iff {entries : List (String × Model)}
    {fields : List (String × Value κ)} :
    conformsEntries entries fields = true ↔
      ∀ entry ∈ entries, entry.2.conforms ((fields.lookup entry.1).getD .undefined) = true := by
  induction entries with
  | nil => simp [conformsEntries]
  | cons entry entries ih =>
    obtain ⟨key, m⟩ := entry
    rw [conformsEntries, Bool.and_eq_true, ih, List.forall_mem_cons]

/-- To inhabit a model is to conform to it and more. -/
theorem conforms_of_inhabits {m : Model} {v : Value κ} (h : Inhabits host m v) :
    m.conforms v = true := by
  induction m using tree_induction generalizing v with
  | simple kind =>
    rw [conforms]
    exact inhabits_simple_iff.mp h
  | nullable inner ih =>
    rw [conforms, Bool.or_eq_true]
    exact (inhabits_nullable_iff.mp h).imp_right ih
  | array element ih =>
    obtain ⟨identity, items, rfl, hitems⟩ := inhabits_array_iff.mp h
    rw [conforms, List.all_eq_true]
    exact fun item hitem => ih (hitems item hitem)
  | object entries ih =>
    obtain ⟨identity, fields, rfl, hfields⟩ := inhabits_object_iff.mp h
    rw [conforms, conformsEntries_eq_true_iff]
    exact fun entry hentry => ih entry hentry (hfields entry hentry)
  | function parameters result =>
    -- what the function does when it is called cannot be seen on the value
    obtain ⟨identity, name, body, rfl, -⟩ := inhabits_function_iff.mp h
    rw [conforms]

/-- What is there inhabits the model below the optional layer. -/
theorem inhabits_stripNullable {m : Model} {v : Value κ} (h : Inhabits host m v)
    (hv : v.isNullish = false) : Inhabits host m.stripNullable v := by
  cases m with
  | nullable inner =>
    rw [inhabits_nullable_iff, hv] at h
    exact h.resolve_left Bool.false_ne_true
  | simple | array | object | function => exact h

/-- **A greater model is inhabited by more values.** -/
theorem inhabits_of_le {a b : Model} {v : Value κ} (hab : a ≤ b) (h : Inhabits host a v) :
    Inhabits host b v := by
  induction b using spine_induction generalizing a v with
  | simple kind => rwa [← accepts_simple_iff.mp hab]
  | nullable b ih =>
    rw [inhabits_nullable_iff]
    rw [le_nullable_iff] at hab
    -- what is missing inhabits any optional model; what is there inhabits `a` below its layer
    cases hv : v.isNullish with
    | true => exact Or.inl rfl
    | false => exact Or.inr (ih hab (inhabits_stripNullable h hv))
  | array b ih =>
    obtain ⟨a, rfl, ha⟩ := le_array_iff.mp hab
    obtain ⟨identity, items, rfl, hitems⟩ := inhabits_array_iff.mp h
    rw [inhabits_array_iff]
    exact ⟨identity, items, rfl, fun item hitem => ih ha (hitems item hitem)⟩
  | object entries => rwa [← accepts_object_iff.mp hab]
  | function parameters result => rwa [← accepts_function_iff.mp hab]

/-- Values of some models inhabit every model above them all. -/
theorem inhabits_of_forall₂ {ms : List Model} {vs : List (Value κ)} {b : Model}
    (hb : b ∈ upperBounds {m | m ∈ ms})
    (h : List.Forall₂ (fun m v => m.Inhabits host v) ms vs) : ∀ v ∈ vs, b.Inhabits host v := by
  refine forall_of_forall₂ h fun m hm v hv => ?_
  have hle : m ≤ b := hb hm
  exact inhabits_of_le hle hv

/-! ### Values of simple kinds -/

theorem inhabits_null_undefined : Inhabits host null (.undefined : Value κ) :=
  inhabits_simple_iff.mpr rfl

theorem inhabits_null : Inhabits host null (.null : Value κ) :=
  inhabits_simple_iff.mpr rfl

theorem inhabits_boolean (b : Bool) : Inhabits host boolean (.boolean b : Value κ) :=
  inhabits_simple_iff.mpr rfl

/-- A number is one, also if it is not a number in the other sense. -/
theorem inhabits_number (x : Float) : Inhabits host number (.number x : Value κ) :=
  inhabits_simple_iff.mpr rfl

theorem inhabits_string (s : String) : Inhabits host string (.string s : Value κ) :=
  inhabits_simple_iff.mpr rfl

/-- What inhabits the number model is a number. -/
theorem exists_number_of_inhabits {v : Value κ} (h : Inhabits host number v) :
    ∃ x, v = .number x := by
  rw [number, inhabits_simple_iff] at h
  cases v <;> first | exact ⟨_, rfl⟩ | exact absurd h (by simp [SimpleModel.conforms])

/-- What inhabits the string model is a string. -/
theorem exists_string_of_inhabits {v : Value κ} (h : Inhabits host string v) :
    ∃ s, v = .string s := by
  rw [string, inhabits_simple_iff] at h
  cases v <;> first | exact ⟨_, rfl⟩ | exact absurd h (by simp [SimpleModel.conforms])

end CheckedExpr.Model
