/-!
# Characters by number

A character is a number below U+110000 that is no surrogate. `charOfNat?` is the way back from the
number to the character.
-/

namespace CheckedExpr.Text

/-- The character with a number, if there is one: surrogates and numbers past U+10FFFF are none. -/
def charOfNat? (n : Nat) : Option Char :=
  if hvalid : n.isValidChar then some (Char.ofNatAux n hvalid) else none

@[simp] theorem charOfNat?_toNat (c : Char) : charOfNat? c.toNat = some c := by
  have hvalid : c.toNat.isValidChar := c.valid
  rw [charOfNat?, dif_pos hvalid]
  rfl

end CheckedExpr.Text
