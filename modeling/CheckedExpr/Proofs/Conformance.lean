import CheckedExpr.Proofs.Inhabitance

/-!
# Acceptance and the values of a model

Whether a model accepts another one is seen on the two models, and whether a value conforms to a
model on the value. The two tests are recursions of their own, and they agree: what conforms to a
model conforms to every model that accepts it. An optional layer of the accepted model may be taken
off, since a value that only this layer lets in is absent, and the accepting model then has a layer
that lets it in too.

* `conforms_of_le`: a greater model lets in more values.
* `conforms_of_accepts_and_of_merge`: so acceptance is sound for values, and a merge lets in the
  values of both of its parts.
-/

namespace CheckedExpr.Model

variable {κ : Type} {v : Value κ}

/-! ### What conforms to each kind of model -/

theorem conforms_nullable_iff {inner : Model} :
    (nullable inner).conforms v = true ↔ v.isNullish = true ∨ inner.conforms v = true := by
  rw [conforms, Bool.or_eq_true]

/-- An array conforms if its items do. -/
theorem conforms_array_iff {element : Model} :
    (array element).conforms v = true ↔
      ∃ identity items, v = .array identity items ∧
        ∀ item ∈ items, element.conforms item = true := by
  cases v with
  | array identity items => simp [conforms]
  | _ => simp [conforms]

/-- What is there conforms to the model below the optional layer. -/
theorem conforms_stripNullable {m : Model} (h : m.conforms v = true) (hv : v.isNullish = false) :
    m.stripNullable.conforms v = true := by
  cases m with
  | nullable inner =>
    rw [conforms_nullable_iff, hv] at h
    exact h.resolve_left Bool.false_ne_true
  | simple | array | object | function => exact h

/-! ### Greater models -/

/-- **A greater model lets in more values.** -/
theorem conforms_of_le {a b : Model} (hab : a ≤ b) (h : a.conforms v = true) :
    b.conforms v = true := by
  -- the greater model decides which layers there are, so the induction is on its spine
  induction b using spine_induction generalizing a v with
  -- besides arrays and layers, only the same model accepts
  | simple kind => rwa [← accepts_simple_iff.mp hab]
  | nullable b ih =>
    rw [conforms_nullable_iff]
    rw [le_nullable_iff] at hab
    cases hv : v.isNullish with
    | true => exact Or.inl rfl
    | false => exact Or.inr (ih hab (conforms_stripNullable h hv))
  | array b ih =>
    obtain ⟨a, rfl, ha⟩ := le_array_iff.mp hab
    obtain ⟨identity, items, rfl, hitems⟩ := conforms_array_iff.mp h
    rw [conforms_array_iff]
    exact ⟨identity, items, rfl, fun item hitem => ih ha (hitems item hitem)⟩
  | object entries => rwa [← accepts_object_iff.mp hab]
  | function parameters result => rwa [← accepts_function_iff.mp hab]

/-- **Acceptance is sound for values.** What conforms to a model conforms to every model that
accepts it, and what conforms to one of two models conforms to their merge. -/
theorem conforms_of_accepts_and_of_merge :
    (∀ (a b : Model) (v : Value κ), a.accepts b = true → b.conforms v = true →
      a.conforms v = true) ∧
    ∀ (a b m : Model) (v : Value κ), mergeInto (some a) b = .ok m →
      a.conforms v = true ∨ b.conforms v = true → m.conforms v = true := by
  refine ⟨?accepting, ?merging⟩
  case accepting =>
    intro a b v hab hv
    exact conforms_of_le (le_iff_accepts.mpr hab) hv
  case merging =>
    intro a b m v hm hv
    -- the merge is above both of the models
    rcases hv with ha | hb
    · exact conforms_of_le (le_of_merge_left hm) ha
    · exact conforms_of_le (le_of_merge_right hm) hb

/-- Two models with their optional layers in different places, an array whose only item lacks the
field that is declared, and an array of an absent item. -/
theorem conforms_of_accepts_and_of_merge_optional :
    let entry : Model := .object [("name", .nullable .string)]
    let a : Model := .nullable (.array entry)
    let b : Model := .array (.nullable entry)
    let m : Model := .nullable (.array (.nullable entry))
    let v : Value Unit := .array 0 [.object 1 [("age", .null)]]
    mergeInto (some a) b = .ok m ∧ a.conforms v = true ∧ m.conforms v = true ∧
      m.accepts b = true ∧ b.conforms (.array 2 [.undefined] : Value Unit) = true ∧
        m.conforms (.array 2 [.undefined] : Value Unit) = true := by
  intro entry a b m v
  have hmerge : mergeInto (some a) b = .ok m := by
    decide +kernel
  have haccepts : m.accepts b = true := le_iff_accepts.mp (le_of_merge_right hmerge)
  have ha : a.conforms v = true := by rfl
  have hb : b.conforms (.array 2 [.undefined] : Value Unit) = true := by rfl
  exact ⟨hmerge, ha, conforms_of_accepts_and_of_merge.2 a b m v hmerge (Or.inl ha), haccepts, hb,
    conforms_of_accepts_and_of_merge.1 m b _ haccepts hb⟩

end CheckedExpr.Model
