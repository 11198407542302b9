import CheckedExpr.Proofs.NumericStrings

/-!
# Numbers that become strings and numbers again

A number that is written as a string is read back as the number that it was. Strings are read by
other rules than numbers in general: white space is cut off, a sign is taken first, and what is
neither hexadecimal nor `Infinity` has to be in the characters of decimal numerals. What is written
for a number passes all of this: it has no white space, at most one sign, and never begins like
hexadecimal digits.

* `Number.ofText_of_behindSign`: a numeral behind at most one sign is read as its value.
* `Value.toNumber_string_numberText`: only the sign of zero is lost.
-/

namespace CheckedExpr

namespace Number

/-- A decimal numeral passes the check of its characters and is read as its value. -/
theorem ofDecimalText_text {d : Decimal} (h : d.Spelled) : ofDecimalText d.text = d.value := by
  have hall : d.text.all isNumeralChar = true := List.all_eq_true.mpr (isNumeralChar_of_mem h)
  have hof : Decimal.ofText? d.text = some d := Decimal.ofText?_eq_some_iff.mpr ⟨h, rfl⟩
  simp only [ofDecimalText, hall, if_true, read?, takeSign_of_spelled h, readUnsigned?, hof,
    Option.map_some, Option.getD_some, negateIf, Bool.false_eq_true, if_false]

/-- **A decimal numeral is read as the number that it is the numeral of,** also behind a sign. -/
theorem ofText_of_behindSign {text : List Char} {d : Decimal} (hspelled : d.Spelled)
    (h : BehindSign text d.text) : ofText text = negateIf (takeSign text).1 d.value := by
  have hchars : ∀ c ∈ text, isNumeralChar c = true :=
    h.forall_mem (fun _ => isNumeralChar_of_isSign) (isNumeralChar_of_mem hspelled)
  have htrim : Text.trim text = text :=
    Text.trim_eq_self fun c hc => isBlank_of_isNumeralChar (hchars c hc)
  have htake : (takeSign text).2 = d.text := h.takeSign_eq (ne_sign_of_spelled hspelled)
  have hne : text ≠ [] := by
    rintro rfl
    exact hspelled.text_ne_nil h.eq_nil
  rw [ofText_of_numeral (by rwa [htrim]) (by rw [htrim, htake]; exact isNumeralChar_of_mem hspelled),
    htrim, htake, ofDecimalText_text hspelled]

/-- So it is with the whole string, if there is no sign before it. -/
theorem ofText_text {d : Decimal} (h : d.Spelled) : ofText d.text = d.value := by
  rw [ofText_of_behindSign h (.unsigned _), takeSign_of_spelled h]
  rfl

/-- A text that spells a value is the number nearest to it, and behind a minus sign its negative. -/
theorem ofText_of_spells {text : List Char} {q : ℚ} (h : DigitRow.Spells text q) :
    ofText text = nearestNumber q ∧ ofText ('-' :: text) = -nearestNumber q := by
  obtain ⟨d, hspelled, rfl, rfl⟩ := h
  rw [← Decimal.value_eq]
  exact ⟨ofText_text hspelled, ofText_of_behindSign hspelled (.signed _ (.inl rfl))⟩

/-- **What is written for a number is read as it**, but for the sign of zero. -/
theorem WrittenAs.ofText_eq {x : Float} {text : List Char} (h : WrittenAs x text) :
    ofText text = if x == 0 then 0 else x := by
  cases h with
  | notANumber => rfl
  | infinity => rfl
  | negativeInfinity => rfl
  | zero hzero =>
    rw [if_pos hzero]
    rfl
  | positive hne hspells hx => rw [hne, if_neg Bool.false_ne_true, (ofText_of_spells hspells).1, hx]
  | negative hne hspells hx => rw [hne, if_neg Bool.false_ne_true, (ofText_of_spells hspells).2, hx]

/-- The two zeros are equal, so no number but what is not one is changed. -/
theorem ite_zero_beq (x : Float) : ((if x == 0 then 0 else x) == x) = !x.isNaN := by
  by_cases hzero : (x == 0) = true
  · rw [if_pos hzero]
    obtain ⟨-, -, rfl | ⟨rfl, -⟩ | ⟨rfl, -⟩⟩ := Float.beq_iff_ne_nan_and_eq.mp hzero <;> rfl
  · rw [if_neg hzero, beq_self]

end Number

namespace Value

variable {κ : Type}

/-- **A number that becomes a string and a number again is the number that it was,** except that
both zeros become the positive one. What is not a number stays what is not a number. -/
theorem toNumber_string_numberText (x : Float) :
    (string (numberText x) : Value κ).toNumber = (if x == 0 then 0 else x) ∧
      (string (numberText x) : Value κ).toNumber.isNaN = x.isNaN ∧
      ((string (numberText x) : Value κ).toNumber == x) = !x.isNaN := by
  have hread : (string (numberText x) : Value κ).toNumber = if x == 0 then 0 else x :=
    (Number.writtenAs_numberText x).ofText_eq
  rw [hread]
  -- whether it is a number does not depend on the sign of a zero
  exact ⟨rfl, Number.apply_ite_zero rfl x, Number.ite_zero_beq x⟩

end Value

end CheckedExpr
