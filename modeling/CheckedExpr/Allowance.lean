/-!
# How deep one may go

Whoever walks over an expression takes an allowance of levels along and gives one of them up at
each expression, also at the innermost ones.

* `Allowance.Covers`: one allowance goes as far as another one. This is kept by going down.
-/

namespace CheckedExpr

/-- How many levels one may still go down. -/
inductive Allowance where
  | unbounded
  /-- What is left of the levels that there were at first. -/
  | levels (limit left : Nat)
  deriving DecidableEq, Repr

namespace Allowance

/-- An allowance of a number of levels, all of them left. -/
def ofLimit (limit : Nat) : Allowance := levels limit limit

/-- What is left when one goes down a level, or the limit that does not allow it. -/
def enter : Allowance → Except Nat Allowance
  | unbounded => .ok unbounded
  | levels limit 0 => .error limit
  | levels limit (left + 1) => .ok (levels limit left)

@[simp] theorem enter_unbounded : enter unbounded = .ok unbounded := rfl

/-- Where no level is left, the limit is reported that there was at first. -/
@[simp] theorem enter_levels_zero (limit : Nat) : enter (levels limit 0) = .error limit := rfl

@[simp] theorem enter_levels_succ (limit left : Nat) :
    enter (levels limit (left + 1)) = .ok (levels limit left) := rfl

/-- Whether one may go down as far as with another allowance. -/
def Covers : Allowance → Allowance → Prop
  | unbounded, _ => True
  | levels _ left, levels _ left' => left' ≤ left
  | levels .., unbounded => False

/-- Without a bound one may go down anywhere. -/
theorem unbounded_covers (allowance : Allowance) : unbounded.Covers allowance := trivial

/-- A larger limit goes as far as a smaller one. -/
theorem covers_ofLimit {limit larger : Nat} (h : limit ≤ larger) :
    (ofLimit larger).Covers (ofLimit limit) := h

/-- What is left covers no more than what there was. -/
theorem covers_of_enter {allowance inner : Allowance} (h : allowance.enter = .ok inner) :
    allowance.Covers inner := by
  cases allowance with
  | unbounded => exact trivial
  | levels limit left =>
    cases left with
    | zero => cases h
    | succ left =>
      obtain rfl : levels limit left = inner := by simpa using h
      exact Nat.le_succ left

/-- A level that one can go down with an allowance, one can also go down with a larger one. -/
theorem Covers.enter {larger allowance inner : Allowance} (h : larger.Covers allowance)
    (hinner : allowance.enter = .ok inner) :
    ∃ inner', larger.enter = .ok inner' ∧ inner'.Covers inner := by
  -- by cases on both allowances: only where both are bounded is there something to count
  cases larger with
  | unbounded => exact ⟨unbounded, rfl, trivial⟩
  | levels limit left =>
    cases allowance with
    -- nothing that is bounded covers what is not
    | unbounded => exact absurd h id
    | levels limit' left' =>
      cases left' with
      | zero => cases hinner
      | succ left' =>
        obtain rfl : levels limit' left' = inner := by simpa using hinner
        cases left with
        -- the larger one would have no level left, and the smaller one has
        | zero => exact absurd h (Nat.not_succ_le_zero left')
        | succ left => exact ⟨levels limit left, rfl, Nat.le_of_succ_le_succ h⟩

end Allowance

end CheckedExpr
