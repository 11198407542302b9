/-!
# When a step succeeds, and how it fails

A row of steps that may fail succeeds only if each of them does. The equivalences take such a row
apart from its result, step by step. And a row fails as one of its steps fails, so whether all its
failures have some property can be seen step by step too.
-/

namespace Except

variable {ε ε' α β : Type}

/-- A result that is worked on afterwards is there exactly if there was one to work on. -/
theorem map_eq_ok_iff {x : Except ε α} {f : α → β} {b : β} :
    x.map f = .ok b ↔ ∃ a, x = .ok a ∧ f a = b := by
  cases x with
  | error e => simp [Except.map]
  | ok a => simp [Except.map]

/-- **Two steps in a row succeed** exactly if the first one has a result from which the second one
succeeds. -/
theorem bind_eq_ok_iff {x : Except ε α} {f : α → Except ε β} {b : β} :
    (x >>= f) = .ok b ↔ ∃ a, x = .ok a ∧ f a = .ok b := by
  cases x with
  | error e => simp [bind, Except.bind]
  | ok a => simp [bind, Except.bind]

/-- Wording a failure in another way neither makes a result nor takes one away. -/
theorem mapError_eq_ok_iff {x : Except ε α} {f : ε → ε'} {a : α} :
    x.mapError f = .ok a ↔ x = .ok a := by
  cases x with
  | error e =>
    -- the library has no equation for the two outcomes, so they are shown by computation
    change error (f e) = .ok a ↔ _
    simp
  | ok b =>
    change ok b = .ok a ↔ _
    simp

/-- What is done to the result of two steps is done to that of the second one. -/
theorem map_bind {γ : Type} (x : Except ε α) (f : α → Except ε β) (g : β → γ) :
    (x >>= f).map g = x >>= fun a => (f a).map g := by
  cases x with
  | error e => rfl
  | ok a => rfl

/-! ### Failures -/

section Failures

variable {p q : ε → Prop} {x : Except ε α}

/-- Whether all errors that a step may end with have a property. -/
def FailsWith (p : ε → Prop) (x : Except ε α) : Prop := ∀ err, x = .error err → p err

theorem failsWith_ok (a : α) : FailsWith p (.ok a) := fun err h => by cases h

theorem failsWith_error {err : ε} (h : p err) : FailsWith p (.error err : Except ε α) := by
  rintro _ ⟨⟩
  exact h

/-- A row fails as its first step does, or as one that follows it. -/
theorem FailsWith.bind {next : α → Except ε β} (hx : FailsWith p x)
    (hnext : ∀ a, FailsWith p (next a)) : FailsWith p (x >>= next) := by
  cases x with
  | error err => exact failsWith_error (hx err rfl)
  | ok a => exact hnext a

/-- Working on the result adds no way to fail. -/
theorem FailsWith.map (hx : FailsWith p x) (f : α → β) : FailsWith p (x.map f) := by
  cases x with
  | error err => exact failsWith_error (hx err rfl)
  | ok a => exact failsWith_ok (f a)

theorem FailsWith.mono (h : FailsWith q x) (hp : ∀ err, q err → p err) : FailsWith p x :=
  fun err herr => hp err (h err herr)

end Failures

end Except
