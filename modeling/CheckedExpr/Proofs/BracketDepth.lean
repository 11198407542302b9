import CheckedExpr.Chain.Brackets

/-!
# How deep the brackets of a text go

Counting brackets with a limit stops at the first place that is too deep. Counted without a limit,
they go to some greatest depth, and a text is refused exactly by the limits below it. So what
refusing needs is this one number, and not the place at which counting stops.

* `Brackets.excess?_eq_none_iff`: a limit lets a text pass if the text goes no deeper than it.
-/

namespace CheckedExpr.Brackets

/-- The greatest number of levels that are open at once in a text that begins inside the given
quotes, if any, and below `depth` levels. -/
def deepest : (quote : Option Char) → (depth : Nat) → List Char → Nat
  | _, depth, [] => depth
  | some q, depth, '\\' :: _ :: rest => deepest (some q) depth rest
  | some q, depth, c :: rest => deepest (if c = q then none else some q) depth rest
  | none, depth, '?' :: '?' :: rest => deepest none depth rest
  | none, depth, c :: rest =>
    if c = '\'' ∨ c = '"' then deepest (some c) depth rest
    else if isOpening c then deepest none (depth + 1) rest
    else if isClosing c then max depth (deepest none (depth - 1) rest)
    else deepest none depth rest

/-- The levels that are open at the beginning count. -/
theorem le_deepest (quote : Option Char) (depth : Nat) (text : List Char) :
    depth ≤ deepest quote depth text := by
  -- a level is only closed under the greatest depth that was reached before
  fun_induction deepest quote depth text with
  | case1 => exact Nat.le_refl _
  | case6 depth c rest _ _ _ ih => exact Nat.le_of_succ_le ih
  | case7 => exact Nat.le_max_left _ _
  | _ => assumption

/-- **A limit lets a text pass if the text goes no deeper**, if it was kept at the beginning. -/
theorem excess?_eq_none_iff {limit depth : Nat} (quote : Option Char) (h : depth ≤ limit)
    (offset : Nat) (text : List Char) :
    excess? limit quote depth offset text = none ↔ deepest quote depth text ≤ limit := by
  -- both functions look at the same characters, so each case is one step of both
  fun_induction deepest quote depth text generalizing offset with
  | case1 => simp [excess?, h]
  | case2 depth q d rest ih =>
    rw [excess?]
    exact ih h _
  | case3 depth q c rest hpair ih =>
    rw [excess?]
    · exact ih h _
    · exact hpair
  | case4 depth rest ih =>
    rw [excess?]
    exact ih h _
  | case5 depth c rest hpair hquote ih =>
    rw [excess?, if_pos hquote]
    · exact ih h _
    · exact hpair
  | case6 depth c rest hpair hquote hopening ih =>
    rw [excess?, if_neg hquote, if_pos hopening]
    · -- the limit is passed here if one level more is too many
      by_cases hroom : limit < depth + 1
      · have hle := le_deepest none (depth + 1) rest
        rw [if_pos hroom]
        exact iff_of_false (by simp) (by omega)
      · rw [if_neg hroom]
        exact ih (by omega) _
    · exact hpair
  | case7 depth c rest hpair hquote hopening hclosing ih =>
    rw [excess?, if_neg hquote, if_neg hopening, if_pos hclosing]
    · -- the level that is closed was kept before
      rw [ih (by omega), Nat.max_le, and_iff_right h]
    · exact hpair
  | case8 depth c rest hpair hquote hopening hclosing ih =>
    rw [excess?, if_neg hquote, if_neg hopening, if_neg hclosing]
    · exact ih h _
    · exact hpair

/-- **A text keeps a limit if it goes no deeper than it.** -/
theorem firstExcess?_eq_none_iff {limit : Nat} {text : List Char} :
    firstExcess? limit text = none ↔ deepest none 0 text ≤ limit :=
  excess?_eq_none_iff none (Nat.zero_le _) 0 text

end CheckedExpr.Brackets
