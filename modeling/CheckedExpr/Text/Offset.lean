/-!
# Places in a text, counted in bytes

A place in a text is the number of bytes that the characters before it take in UTF-8. A text is
the list of its characters; bytes are only counted, never stored.

* `utf8Length_append`: lengths add up along a text, so places add up too.
* `splitAtOffset_utf8Length_append`: the place behind a beginning of a text cuts it right there.
* `append_of_splitAtOffset`: a cut loses nothing.
-/

namespace CheckedExpr.Text

/-- The number of bytes that a text takes in UTF-8. -/
def utf8Length : List Char → Nat
  | [] => 0
  | c :: cs => c.utf8Size + utf8Length cs

@[simp] theorem utf8Length_nil : utf8Length [] = 0 := rfl

/-- A text takes the bytes of its first character and those of the others. -/
@[simp] theorem utf8Length_cons (c : Char) (cs : List Char) :
    utf8Length (c :: cs) = c.utf8Size + utf8Length cs := rfl

@[simp] theorem utf8Length_append (before after : List Char) :
    utf8Length (before ++ after) = utf8Length before + utf8Length after := by
  induction before with
  | nil => simp
  | cons c cs ih => simp [ih, Nat.add_assoc]

/-- Cuts a text at a place. There is no cut inside a character or past the end. -/
def splitAtOffset : List Char → Nat → Option (List Char × List Char)
  | cs, 0 => some ([], cs)
  | [], _ + 1 => none
  | c :: cs, n + 1 =>
    if c.utf8Size ≤ n + 1 then
      (splitAtOffset cs (n + 1 - c.utf8Size)).map fun (before, after) => (c :: before, after)
    else none

/-- A place that lies between two characters, or at either end. -/
def isBoundary (text : List Char) (offset : Nat) : Bool :=
  (splitAtOffset text offset).isSome

@[simp] theorem splitAtOffset_zero (cs : List Char) : splitAtOffset cs 0 = some ([], cs) := by
  cases cs <;> rfl

/-- **The place behind a beginning of a text cuts it right there.** -/
theorem splitAtOffset_utf8Length_append (before after : List Char) :
    splitAtOffset (before ++ after) (utf8Length before) = some (before, after) := by
  induction before with
  | nil => simp
  | cons c cs ih =>
    -- a character takes a byte at least, so the place is not the first one
    have hpos : 0 < c.utf8Size := c.utf8Size_pos
    obtain ⟨n, hn⟩ : ∃ n, c.utf8Size + utf8Length cs = n + 1 := ⟨_, (Nat.succ_pred (by omega)).symm⟩
    have hleft : n + 1 - c.utf8Size = utf8Length cs := by omega
    have hfits : c.utf8Size ≤ n + 1 := by omega
    simp [hn, splitAtOffset, hfits, hleft, ih]

/-- **A cut loses nothing**, and the place of the cut is the number of bytes before it. -/
theorem append_of_splitAtOffset {text before after : List Char} {offset : Nat}
    (h : splitAtOffset text offset = some (before, after)) :
    text = before ++ after ∧ offset = utf8Length before := by
  -- by induction on the text: a cut behind its first character is a cut of what follows it
  induction text generalizing offset before with
  | nil =>
    cases offset with
    | zero => simp at h; simp [h.1, h.2]
    | succ n => simp [splitAtOffset] at h
  | cons c cs ih =>
    cases offset with
    | zero => simp at h; simp [h.1, ← h.2]
    | succ n =>
      simp only [splitAtOffset] at h
      split at h
      next hfits =>
        obtain ⟨⟨tail, rest⟩, hinner, hsame⟩ := Option.map_eq_some_iff.1 h
        simp only [Prod.mk.injEq] at hsame
        obtain ⟨rfl, rfl⟩ := hsame
        obtain ⟨hjoined, hcounted⟩ := ih hinner
        exact ⟨by simp [hjoined], by simp only [utf8Length_cons]; omega⟩
      -- the place would be inside the first character
      next => exact absurd h (by simp)

end CheckedExpr.Text
