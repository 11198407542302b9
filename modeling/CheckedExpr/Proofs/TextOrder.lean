import CheckedExpr.Text.Units
import Mathlib.Data.List.Lex

/-!
# The order of texts

Texts are ordered by their units, one after the other. The units of a character are never the
beginning of those of another one, so texts with the same units are the same, and of two different
texts one comes first.

This is not the order of the characters: the units of a pair lie below U+E000, so a character beyond
U+FFFF comes before those from U+E000 to U+FFFF.

* `compareLists_eq_lt_iff`, `compareLists_eq_eq_iff`: rows of numbers are ordered lexicographically.
* `units_injective`: no two texts have the same units.
* `units_lt_of_beyond`: characters beyond U+FFFF come before those from U+E000 on.
-/

namespace CheckedExpr.Text

/-! ### Rows of numbers -/

variable {as bs : List ℕ}

/-- The first number that differs decides, and a beginning comes before what goes on from it. -/
theorem compareLists_eq_lt_iff : compareLists as bs = .lt ↔ as < bs := by
  induction as generalizing bs with
  | nil => cases bs <;> simp [compareLists]
  | cons a as ih =>
    cases bs with
    | nil => simp [compareLists]
    | cons b bs =>
      rw [compareLists, List.cons_lt_cons_iff, ← ih]
      split_ifs with hlt hgt
      · exact iff_of_true rfl (.inl hlt)
      · exact iff_of_false (by decide) (by omega)
      · obtain rfl : a = b := by omega
        simp

/-- Only a row itself is equal to it in order. -/
theorem compareLists_eq_eq_iff : compareLists as bs = .eq ↔ as = bs := by
  induction as generalizing bs with
  | nil => cases bs <;> simp [compareLists]
  | cons a as ih =>
    cases bs with
    | nil => simp [compareLists]
    | cons b bs =>
      rw [compareLists, List.cons.injEq, ← ih]
      split_ifs with hlt hgt
      · exact iff_of_false (by decide) (by omega)
      · exact iff_of_false (by decide) (by omega)
      · obtain rfl : a = b := by omega
        simp

/-- A common beginning does not matter. -/
theorem compareLists_append_left (before as bs : List ℕ) :
    compareLists (before ++ as) (before ++ bs) = compareLists as bs := by
  induction before with
  | nil => rfl
  | cons a before ih => simp [compareLists, ih]

/-! ### Units -/

theorem isValidChar_toNat (c : Char) :
    c.toNat < 0xd800 ∨ 0xdfff < c.toNat ∧ c.toNat < 0x110000 := c.valid

theorem charUnits_of_lt {c : Char} (h : c.toNat < 0x10000) : charUnits c = [c.toNat] := if_pos h

/-- Beyond, it is a pair. -/
theorem charUnits_of_le {c : Char} (h : 0x10000 ≤ c.toNat) :
    charUnits c =
      [0xd800 + (c.toNat - 0x10000) / 0x400, 0xdc00 + (c.toNat - 0x10000) % 0x400] :=
  if_neg (Nat.not_lt.mpr h)

/-- Half of a pair is no character, so it can be seen from its first unit whether a character has
one unit or two. -/
theorem charUnits_append_inj {c d : Char} (h : charUnits c ++ as = charUnits d ++ bs) :
    c = d ∧ as = bs := by
  have hc := isValidChar_toNat c
  have hd := isValidChar_toNat d
  -- by whether each of the two has one unit or two
  rcases Nat.lt_or_ge c.toNat 0x10000 with hc' | hc' <;>
    rcases Nat.lt_or_ge d.toNat 0x10000 with hd' | hd'
  · rw [charUnits_of_lt hc', charUnits_of_lt hd'] at h
    obtain ⟨hunit, hrest⟩ := List.cons.inj h
    exact ⟨Char.toNat_inj.mp hunit, hrest⟩
  · -- the first half of a pair would be a character by itself
    rw [charUnits_of_lt hc', charUnits_of_le hd'] at h
    have hunit := (List.cons.inj h).1
    omega
  · rw [charUnits_of_le hc', charUnits_of_lt hd'] at h
    have hunit := (List.cons.inj h).1
    omega
  · -- the halves of a pair are the quotient and the remainder of one number
    rw [charUnits_of_le hc', charUnits_of_le hd'] at h
    obtain ⟨hhigh, hmore⟩ := List.cons.inj h
    obtain ⟨hlow, hrest⟩ := List.cons.inj hmore
    exact ⟨Char.toNat_inj.mp (by omega), hrest⟩

theorem charUnits_ne_nil (c : Char) : charUnits c ≠ [] := by
  unfold charUnits
  split <;> exact List.cons_ne_nil _ _

/-- The units of a text are those of its characters in a row. -/
theorem units_cons (c : Char) (text : List Char) : units (c :: text) = charUnits c ++ units text :=
  rfl

/-- **No two texts have the same units.** -/
theorem units_injective : Function.Injective units := by
  intro s t h
  induction s generalizing t with
  | nil =>
    cases t with
    | nil => rfl
    | cons d t => exact absurd (List.append_eq_nil_iff.mp h.symm).1 (charUnits_ne_nil d)
  | cons c s ih =>
    cases t with
    | nil => exact absurd (List.append_eq_nil_iff.mp h).1 (charUnits_ne_nil c)
    | cons d t =>
      obtain ⟨rfl, hrest⟩ := charUnits_append_inj h
      rw [ih hrest]

variable {s t : List Char}

/-- Texts are in the order of their units. -/
theorem compareUnits_eq_lt_iff : compareUnits s t = .lt ↔ units s < units t :=
  compareLists_eq_lt_iff

/-- Two texts are equal in the order only if they are the same. -/
theorem compareUnits_eq_eq_iff : compareUnits s t = .eq ↔ s = t :=
  compareLists_eq_eq_iff.trans units_injective.eq_iff

/-- **A character beyond U+FFFF comes before those from U+E000 to U+FFFF,** although its number is
greater. -/
theorem units_lt_of_beyond (before : List Char) {c d : Char} (hc : 0x10000 ≤ c.toNat)
    (hd : 0xe000 ≤ d.toNat) (hd' : d.toNat < 0x10000) :
    units (before ++ c :: s) < units (before ++ d :: t) := by
  have hvalid := isValidChar_toNat c
  rw [← compareLists_eq_lt_iff, units_append, units_append, compareLists_append_left, units_cons,
    units_cons, charUnits_of_le hc, charUnits_of_lt hd']
  exact if_pos (by omega)

end CheckedExpr.Text
