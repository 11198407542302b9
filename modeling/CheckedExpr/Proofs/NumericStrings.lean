import CheckedExpr.Proofs.NumberText
import CheckedExpr.Proofs.UnsignedNumbers
import CheckedExpr.Value.Conversion

/-!
# Which strings are numbers

A string stands for a number if, without the white space around it, it is a text of a small grammar
(`IsNumericText`): nothing at all; `Infinity` or a decimal numeral, behind at most one sign; or `0x`
and hexadecimal digits of a number that fits into 64 bits.

Numerals are read in two steps, and both of them take a sign. So there are texts beyond the grammar
that stand for a number (`HasSurplusSign`): a decimal numeral behind two signs, and hexadecimal
digits behind a plus sign of their own.

* `isNaN_ofText_eq_false_iff`: nothing else is read as a number.
* `not_isNumericText_of_hasSurplusSign`: the grammar has no such texts.
-/

namespace CheckedExpr

namespace Text

/-- No printable character of ASCII is white space, except the space itself. -/
theorem isBlank_eq_false_of_le {first last c : Char} (hfirst : '!' ≤ first) (hlast : last ≤ '~')
    (hge : first ≤ c) (hle : c ≤ last) : isBlank c = false := by
  have hlow : '!'.toNat ≤ c.toNat := Char.le_trans hfirst hge
  have hhigh : c.toNat ≤ '~'.toNat := Char.le_trans hle hlast
  simp only [Char.reduceToNat] at hlow hhigh
  simp only [isBlank, blankRanges, List.any_cons, List.any_nil, Bool.or_eq_false_iff,
    Bool.and_eq_false_iff, decide_eq_false_iff_not, and_true]
  omega

/-- Without white space there is nothing to cut off. -/
theorem trim_eq_self {text : List Char} (h : ∀ c ∈ text, isBlank c = false) :
    trim text = text := by
  have hkeep {cs : List Char} (hcs : ∀ c ∈ cs, isBlank c = false) : cs.dropWhile isBlank = cs := by
    cases cs with
    | nil => rfl
    | cons c cs => rw [List.dropWhile_cons, hcs c List.mem_cons_self, if_neg Bool.false_ne_true]
  rw [trim, hkeep h, hkeep fun c hc => h c (List.mem_reverse.mp hc), List.reverse_reverse]

end Text

namespace Number

/-! ### The grammar -/

/-- A sign. -/
def IsSign (c : Char) : Prop := c = '-' ∨ c = '+'

/-- The first text is the second one behind at most one sign. -/
inductive BehindSign : List Char → List Char → Prop
  | unsigned (text : List Char) : BehindSign text text
  | signed {sign : Char} (text : List Char) : IsSign sign → BehindSign (sign :: text) text

/-- Hexadecimal digits of a number that fits into 64 bits. -/
structure IsHexWord (digits : List Char) : Prop where
  ne_nil : digits ≠ []
  hexDigits : digits.all Text.isHexDigit = true
  fits : Text.hexValue digits < 2 ^ 64

/-- A trimmed text that stands for a number. -/
inductive IsNumericText : List Char → Prop
  | empty : IsNumericText []
  | infinity {text : List Char} : BehindSign text "Infinity".toList → IsNumericText text
  | decimal {text : List Char} {d : Decimal} :
    d.Spelled → BehindSign text d.text → IsNumericText text
  | hex {marker : Char} {digits : List Char} :
    IsHexMarker marker → IsHexWord digits → IsNumericText ('0' :: marker :: digits)

/-- A trimmed text with one sign more than belongs there. -/
inductive HasSurplusSign : List Char → Prop
  | decimal {a b : Char} {d : Decimal} :
    IsSign a → IsSign b → d.Spelled → HasSurplusSign (a :: b :: d.text)
  | hex {marker : Char} {digits : List Char} :
    IsHexMarker marker → IsHexWord digits → HasSurplusSign ('0' :: marker :: '+' :: digits)

/-! ### Numbers -/

/-- There is one number that is not a number. -/
theorem isNaN_iff {x : Float} : x.isNaN = true ↔ x = nan := by
  constructor
  · intro h
    change Float.Model.UnpackedFloat.isNaN x.toModel.unpack = true at h
    cases hunpack : x.toModel.unpack with
    | notANumber => exact eq_of_unpack hunpack
    | _ =>
      rw [hunpack] at h
      cases h
  · rintro rfl
    rfl

theorem beq_self (x : Float) : (x == x) = !x.isNaN := by
  rw [Bool.eq_iff_iff, Float.beq_self_iff, Bool.not_eq_true', ← Bool.not_eq_true, isNaN_iff]
  rfl

/-- The negative of what is not a number is not a number either. -/
theorem isNaN_neg (x : Float) : (-x).isNaN = x.isNaN := by
  -- the sign is a part of its own in all forms but the first
  cases hunpack : x.toModel.unpack with
  | notANumber =>
    obtain rfl := eq_of_unpack hunpack
    rfl
  | infinity sign =>
    obtain rfl := eq_of_unpack hunpack
    cases sign <;> rfl
  | zero sign =>
    obtain rfl := eq_of_unpack hunpack
    cases sign <;> rfl
  | finite sign m e hm =>
    change Float.Model.UnpackedFloat.isNaN (-x).toModel.unpack =
      Float.Model.UnpackedFloat.isNaN x.toModel.unpack
    rw [unpack_neg hunpack, hunpack]
    rfl

/-- A sign does not make a number of it. -/
theorem isNaN_negateIf (negative : Bool) (x : Float) : (negateIf negative x).isNaN = x.isNaN := by
  cases negative with
  | false => rfl
  | true => exact isNaN_neg x

theorem isNaN_ofNat (n : ℕ) : (Float.ofNat n).isNaN = false :=
  (unsigned_nearestDecimal n 0).nonneg.2

/-- The values of numerals are numbers, infinite as they may be. -/
theorem isNaN_value (d : Decimal) : d.value.isNaN = false :=
  (unsigned_nearestDecimal d.mantissa d.power).nonneg.2

/-! ### Signs -/

theorem takeSign_cons {sign : Char} (h : IsSign sign) (text : List Char) :
    takeSign (sign :: text) = (decide (sign = '-'), text) := by
  rcases h with rfl | rfl <;> rfl

/-- Taking a sign takes one at most. -/
theorem behindSign_takeSign (text : List Char) : BehindSign text (takeSign text).2 := by
  unfold takeSign
  split
  · exact .signed _ (.inl rfl)
  · exact .signed _ (.inr rfl)
  · exact .unsigned _

/-- Taking a sign takes the one that is there, if another one does not follow. -/
theorem BehindSign.takeSign_eq {text unsigned : List Char} (h : BehindSign text unsigned)
    (hfirst : ∀ c ∈ unsigned.head?, c ≠ '-' ∧ c ≠ '+') : (takeSign text).2 = unsigned := by
  cases h with
  | unsigned => rw [takeSign_eq_self hfirst]
  | signed text hsign => rw [takeSign_cons hsign]

theorem BehindSign.eq_nil {unsigned : List Char} (h : BehindSign [] unsigned) : unsigned = [] := by
  cases h
  rfl

/-- A text has the characters of what is behind its sign, and the sign. -/
theorem BehindSign.forall_mem {text unsigned : List Char} {p : Char → Prop}
    (h : BehindSign text unsigned) (hsign : ∀ c, IsSign c → p c) (hunsigned : ∀ c ∈ unsigned, p c) :
    ∀ c ∈ text, p c := by
  cases h with
  | unsigned => exact hunsigned
  | signed text hc => exact List.forall_mem_cons.mpr ⟨hsign _ hc, hunsigned⟩

/-- What is behind a sign has no other characters than the text. -/
theorem BehindSign.forall_mem_unsigned {text unsigned : List Char} {p : Char → Prop}
    (h : BehindSign text unsigned) (htext : ∀ c ∈ text, p c) : ∀ c ∈ unsigned, p c := by
  cases h with
  | unsigned => exact htext
  | signed text hc => exact (List.forall_mem_cons.mp htext).2

/-! ### The characters of decimal numerals -/

theorem isNumeralChar_of_isSign {c : Char} (h : IsSign c) : isNumeralChar c = true := by
  rcases h with rfl | rfl <;> decide

/-- Digits have no case. -/
theorem toLower_of_isDigit {c : Char} (h : isDigit c = true) : c.toLower = c := by
  refine Char.toLower_eq_of_not_isUpper fun hupper => ?_
  simp only [isDigit, Bool.and_eq_true, decide_eq_true_eq] at h
  simp only [Char.isUpper, decide_eq_true_eq] at hupper
  exact absurd (UInt32.le_trans hupper.1 h.2) (by decide)

/-- All words begin with a letter that is in no decimal numeral. -/
theorem ofWord?_eq_none {text : List Char} (h : ∀ c ∈ text, isNumeralChar c = true) :
    ofWord? text = none := by
  -- the words begin with one of two letters, in either case
  have hletter {c : Char} (hc : isNumeralChar c = true) : c.toLower ≠ 'i' ∧ c.toLower ≠ 'n' := by
    simp only [isNumeralChar, Bool.or_eq_true, beq_iff_eq] at hc
    rcases hc with ((((hdigit | rfl) | rfl) | rfl) | rfl) | rfl
    · rw [toLower_of_isDigit hdigit]
      constructor <;> rintro rfl <;> exact absurd hdigit (by decide)
    all_goals decide
  cases text with
  | nil => rfl
  | cons c cs =>
    obtain ⟨hi, hn⟩ := hletter (h c List.mem_cons_self)
    simp [ofWord?, hi, hn]

/-! ### The characters of numeric texts -/

/-- A character that some numeric text has. -/
def IsNumericChar (c : Char) : Prop :=
  isNumeralChar c = true ∨ c ∈ "Infinity".toList ∨ IsHexMarker c ∨ Text.isHexDigit c = true

instance : DecidablePred IsNumericChar := fun _ => inferInstanceAs (Decidable (_ ∨ _ ∨ _ ∨ _))

theorem isNumericChar_of_isSign (c : Char) (h : IsSign c) : IsNumericChar c :=
  .inl (isNumeralChar_of_isSign h)

theorem isNumericChar_of_mem_numeral {d : Decimal} (h : d.Spelled) :
    ∀ c ∈ d.text, IsNumericChar c :=
  fun c hc => .inl (isNumeralChar_of_mem h c hc)

theorem isNumericChar_of_mem_hex {marker : Char} {digits : List Char} (hmarker : IsHexMarker marker)
    (h : ∀ c ∈ digits, IsNumericChar c) : ∀ c ∈ '0' :: marker :: digits, IsNumericChar c :=
  List.forall_mem_cons.mpr
    ⟨.inl (by decide), List.forall_mem_cons.mpr ⟨.inr (.inr (.inl hmarker)), h⟩⟩

theorem IsHexWord.isNumericChar {digits : List Char} (h : IsHexWord digits) :
    ∀ c ∈ digits, IsNumericChar c :=
  fun c hc => .inr (.inr (.inr (List.all_eq_true.mp h.hexDigits c hc)))

/-- A numeric text has only such characters, of course. -/
theorem IsNumericText.isNumericChar {text : List Char} (h : IsNumericText text) :
    ∀ c ∈ text, IsNumericChar c := by
  cases h with
  | empty => simp
  | infinity hbehind => exact hbehind.forall_mem isNumericChar_of_isSign fun _ hc => .inr (.inl hc)
  | decimal hspelled hbehind =>
    exact hbehind.forall_mem isNumericChar_of_isSign (isNumericChar_of_mem_numeral hspelled)
  | hex hmarker hword => exact isNumericChar_of_mem_hex hmarker hword.isNumericChar

/-- But so does a text with a surplus sign. -/
theorem HasSurplusSign.isNumericChar {text : List Char} (h : HasSurplusSign text) :
    ∀ c ∈ text, IsNumericChar c := by
  cases h with
  | decimal ha hb hspelled =>
    exact List.forall_mem_cons.mpr ⟨isNumericChar_of_isSign _ ha, List.forall_mem_cons.mpr
      ⟨isNumericChar_of_isSign _ hb, isNumericChar_of_mem_numeral hspelled⟩⟩
  | hex hmarker hword =>
    exact isNumericChar_of_mem_hex hmarker
      (List.forall_mem_cons.mpr ⟨.inl (by decide), hword.isNumericChar⟩)

/-- The characters of decimal numerals are no white space. -/
theorem isBlank_of_isNumeralChar {c : Char} (h : isNumeralChar c = true) :
    Text.isBlank c = false := by
  simp only [isNumeralChar, isDigit, Bool.or_eq_true, Bool.and_eq_true, decide_eq_true_eq,
    beq_iff_eq] at h
  rcases h with ((((⟨hge, hle⟩ | rfl) | rfl) | rfl) | rfl) | rfl
  · exact Text.isBlank_eq_false_of_le (by decide) (by decide) hge hle
  all_goals decide

/-- Nor are hexadecimal digits. -/
theorem isBlank_of_isHexDigit {c : Char} (h : Text.isHexDigit c = true) :
    Text.isBlank c = false := by
  unfold Text.isHexDigit Text.hexDigit? at h
  split_ifs at h with hdigit hlower hupper
  · exact Text.isBlank_eq_false_of_le (by decide) (by decide) hdigit.1 hdigit.2
  · exact Text.isBlank_eq_false_of_le (by decide) (by decide) hlower.1 hlower.2
  · exact Text.isBlank_eq_false_of_le (by decide) (by decide) hupper.1 hupper.2
  · cases h

/-- So no numeric text has white space inside. -/
theorem IsNumericChar.isBlank_eq_false {c : Char} (h : IsNumericChar c) :
    Text.isBlank c = false := by
  rcases h with hnumeral | hword | hmarker | hdigit
  · exact isBlank_of_isNumeralChar hnumeral
  · have hall : ∀ d ∈ "Infinity".toList, Text.isBlank d = false :=
      List.all_iff_forall_prop.mp (by decide)
    exact hall c hword
  · rcases hmarker with rfl | rfl <;> decide
  · exact isBlank_of_isHexDigit hdigit

/-! ### What is read -/

/-- Decimal numerals are read behind a sign of their own. -/
theorem isNaN_ofDecimalText_eq_false_iff {text : List Char} :
    (ofDecimalText text).isNaN = false ↔ ∃ d : Decimal, d.Spelled ∧ BehindSign text d.text := by
  -- what passes the check of characters is a numeral or a word, and the words have other characters
  constructor
  · intro h
    unfold ofDecimalText at h
    split at h
    next hall =>
      unfold read? readUnsigned? at h
      cases hof : Decimal.ofText? (takeSign text).2 with
      | some d =>
        obtain ⟨hspelled, htext⟩ := Decimal.ofText?_eq_some_iff.mp hof
        exact ⟨d, hspelled, htext ▸ behindSign_takeSign text⟩
      | none =>
        have hword : ofWord? (takeSign text).2 = none :=
          ofWord?_eq_none <|
            (behindSign_takeSign text).forall_mem_unsigned (List.all_eq_true.mp hall)
        simp only [hof, hword, Option.map_none, Option.getD_none] at h
        cases h
    next => cases h
  · rintro ⟨d, hspelled, hbehind⟩
    have hall : text.all isNumeralChar = true :=
      List.all_eq_true.mpr (hbehind.forall_mem (fun _ => isNumeralChar_of_isSign)
        (isNumeralChar_of_mem hspelled))
    unfold ofDecimalText read? readUnsigned?
    have hof : Decimal.ofText? (takeSign text).2 = some d :=
      Decimal.ofText?_eq_some_iff.mpr
        ⟨hspelled, (hbehind.takeSign_eq (ne_sign_of_spelled hspelled)).symm⟩
    simp only [hall, if_true, hof, Option.map_some, Option.getD_some, isNaN_negateIf, isNaN_value]

theorem not_isHexDigit_of_isSign {c : Char} (h : IsSign c) : Text.isHexDigit c = false := by
  rcases h with rfl | rfl <;> decide

theorem IsHexWord.not_isSign {c : Char} {digits : List Char} (h : IsHexWord (c :: digits)) :
    ¬ IsSign c := by
  intro hsign
  have hc := List.all_eq_true.mp h.hexDigits c List.mem_cons_self
  rw [not_isHexDigit_of_isSign hsign] at hc
  cases hc

/-- Without a plus sign, the digits are read as they stand. -/
theorem ofHexText_of_ne_plus {text : List Char} (h : ∀ c ∈ text.head?, c ≠ '+') :
    ofHexText text =
      if text ≠ [] ∧ text.all Text.isHexDigit ∧ Text.hexValue text < 2 ^ (64 : ℕ) then
        Float.ofNat (Text.hexValue text)
      else nan := by
  cases text with
  | nil => rfl
  | cons c cs =>
    have hc : c ≠ '+' := h c rfl
    simp [ofHexText, hc]

/-- Hexadecimal digits are read behind a plus sign of their own. -/
theorem isNaN_ofHexText_eq_false_iff {text : List Char} :
    (ofHexText text).isNaN = false ↔
      IsHexWord text ∨ ∃ digits, text = '+' :: digits ∧ IsHexWord digits := by
  -- what is asked of the digits is the same behind a plus sign and without one
  have hdigits (digits : List Char) :
      (if digits ≠ [] ∧ digits.all Text.isHexDigit ∧ Text.hexValue digits < 2 ^ (64 : ℕ) then
        Float.ofNat (Text.hexValue digits) else nan).isNaN = false ↔ IsHexWord digits := by
    split
    next h => exact iff_of_true (isNaN_ofNat _) ⟨h.1, h.2.1, h.2.2⟩
    next h =>
      have hnan : nan.isNaN ≠ false := by decide
      exact iff_of_false hnan fun hword => h ⟨hword.ne_nil, hword.hexDigits, hword.fits⟩
  by_cases hplus : ∃ digits, text = '+' :: digits
  · obtain ⟨digits, rfl⟩ := hplus
    rw [ofHexText, hdigits]
    constructor
    · exact fun h => .inr ⟨digits, rfl, h⟩
    · rintro (h | ⟨_, ⟨⟩, h⟩)
      · exact absurd (.inr rfl) h.not_isSign
      · exact h
  · have hfirst : ∀ c ∈ text.head?, c ≠ '+' := by
      rintro c hc rfl
      exact hplus (List.head?_eq_some_iff.mp hc)
    rw [ofHexText_of_ne_plus hfirst, hdigits]
    constructor
    · exact .inl
    · rintro (h | ⟨digits, rfl, -⟩)
      · exact h
      · exact absurd ⟨digits, rfl⟩ hplus

/-- A text that begins like hexadecimal digits. -/
def IsHexPrefixed (text : List Char) : Prop :=
  ∃ marker digits, IsHexMarker marker ∧ text = '0' :: marker :: digits

theorem ofText_of_trim_eq_nil {text : List Char} (h : Text.trim text = []) : ofText text = 0 := by
  unfold ofText
  simp only [h, if_true]

/-- Hexadecimal digits are read where no sign was taken. -/
theorem ofText_of_isHexPrefixed {text digits : List Char} {marker : Char}
    (hmarker : IsHexMarker marker)
    (h : (takeSign (Text.trim text)).2 = '0' :: marker :: digits) :
    ofText text = if '0' :: marker :: digits = Text.trim text then ofHexText digits else nan := by
  have hne : Text.trim text ≠ [] := by
    intro hnil
    rw [hnil] at h
    cases h
  unfold ofText
  simp only [hne, if_false, h]
  rcases hmarker with rfl | rfl <;> rfl

/-- What does not begin like hexadecimal digits is a word or a decimal numeral, behind a sign. -/
theorem ofText_of_not_isHexPrefixed {text : List Char} (hne : Text.trim text ≠ [])
    (h : ¬ IsHexPrefixed (takeSign (Text.trim text)).2) :
    ofText text = negateIf (takeSign (Text.trim text)).1
      (if (takeSign (Text.trim text)).2 = "Infinity".toList then infinity
        else ofDecimalText (takeSign (Text.trim text)).2) := by
  unfold ofText
  simp only [hne, if_false]
  split
  next digits heq => exact absurd ⟨'x', digits, .inl rfl, heq⟩ h
  next digits heq => exact absurd ⟨'X', digits, .inr rfl, heq⟩ h
  next => rfl

/-- The letter behind the zero is not in decimal numerals. -/
theorem not_isHexPrefixed_of_numeral {text : List Char} (h : ∀ c ∈ text, isNumeralChar c = true) :
    ¬ IsHexPrefixed text := by
  rintro ⟨marker, digits, hmarker, rfl⟩
  have hchar := h marker (by simp)
  rcases hmarker with rfl | rfl <;> exact absurd hchar (by decide)

/-- Behind the sign of the first step, what is in the characters of numerals is read as one. -/
theorem ofText_of_numeral {text : List Char} (hne : Text.trim text ≠ [])
    (h : ∀ c ∈ (takeSign (Text.trim text)).2, isNumeralChar c = true) :
    ofText text = negateIf (takeSign (Text.trim text)).1
      (ofDecimalText (takeSign (Text.trim text)).2) := by
  have hword : (takeSign (Text.trim text)).2 ≠ "Infinity".toList := by
    intro heq
    exact absurd (h 'I' (by rw [heq]; decide)) (by decide)
  rw [ofText_of_not_isHexPrefixed hne (not_isHexPrefixed_of_numeral h), if_neg hword]

/-- A numeral behind a sign, and perhaps one more, is a number. -/
theorem isNaN_ofText_of_numeral {text : List Char} {d : Decimal} (hspelled : d.Spelled)
    (h : BehindSign (takeSign (Text.trim text)).2 d.text) : (ofText text).isNaN = false := by
  have hne : Text.trim text ≠ [] := by
    intro hnil
    rw [hnil] at h
    exact hspelled.text_ne_nil h.eq_nil
  rw [ofText_of_numeral hne (h.forall_mem (fun _ => isNumeralChar_of_isSign)
    (isNumeralChar_of_mem hspelled)), isNaN_negateIf]
  exact isNaN_ofDecimalText_eq_false_iff.mpr ⟨d, hspelled, h⟩

/-- The word is a number, behind one sign at most. -/
theorem isNaN_ofText_of_infinity {text : List Char}
    (h : BehindSign (Text.trim text) "Infinity".toList) : (ofText text).isNaN = false := by
  have htake : (takeSign (Text.trim text)).2 = "Infinity".toList := by
    refine h.takeSign_eq ?_
    rintro c ⟨⟩
    decide
  have hne : Text.trim text ≠ [] := by
    intro hnil
    rw [hnil] at htake
    cases htake
  -- the word does not begin with a zero
  have hprefix : ¬ IsHexPrefixed (takeSign (Text.trim text)).2 := by
    rw [htake]
    rintro ⟨marker, digits, -, heq⟩
    cases heq
  rw [ofText_of_not_isHexPrefixed hne hprefix, isNaN_negateIf, if_pos htake]
  rfl

/-- Hexadecimal digits are read on their own. -/
theorem isNaN_ofText_of_hex {text digits : List Char} {marker : Char} (hmarker : IsHexMarker marker)
    (h : Text.trim text = '0' :: marker :: digits) :
    (ofText text).isNaN = (ofHexText digits).isNaN := by
  have htake : (takeSign (Text.trim text)).2 = '0' :: marker :: digits := by
    rw [h]
    rfl
  rw [ofText_of_isHexPrefixed hmarker htake, if_pos h.symm]

/-- Where two steps take signs, the text is in the grammar unless both found one. -/
theorem isNumericText_or_hasSurplusSign {text unsigned : List Char} {d : Decimal}
    (h : BehindSign text unsigned) (hd : BehindSign unsigned d.text) (hspelled : d.Spelled) :
    IsNumericText text ∨ HasSurplusSign text := by
  generalize htext : d.text = numeral at hd
  cases hd with
  | unsigned => exact .inl (.decimal hspelled (htext ▸ h))
  | signed _ hb =>
    subst htext
    cases h with
    | unsigned => exact .inl (.decimal hspelled (.signed _ hb))
    | signed _ ha => exact .inr (.decimal ha hb hspelled)

/-- **The texts of the grammar are numbers.** -/
theorem isNaN_ofText_of_isNumericText {text : List Char} (h : IsNumericText (Text.trim text)) :
    (ofText text).isNaN = false := by
  generalize htrim : Text.trim text = trimmed at h
  cases h with
  | empty =>
    rw [ofText_of_trim_eq_nil htrim]
    rfl
  | infinity hbehind => exact isNaN_ofText_of_infinity (htrim ▸ hbehind)
  | decimal hspelled hbehind =>
    refine isNaN_ofText_of_numeral hspelled ?_
    -- the numeral begins with no sign, so what was taken is all there is
    rw [htrim, hbehind.takeSign_eq (ne_sign_of_spelled hspelled)]
    exact .unsigned _
  | hex hmarker hword =>
    rw [isNaN_ofText_of_hex hmarker htrim]
    exact isNaN_ofHexText_eq_false_iff.mpr (.inl hword)

/-- So are those with a surplus sign. -/
theorem isNaN_ofText_of_hasSurplusSign {text : List Char} (h : HasSurplusSign (Text.trim text)) :
    (ofText text).isNaN = false := by
  generalize htrim : Text.trim text = trimmed at h
  cases h with
  | decimal ha hb hspelled =>
    refine isNaN_ofText_of_numeral hspelled ?_
    rw [htrim, takeSign_cons ha]
    exact .signed _ hb
  | hex hmarker hword =>
    rw [isNaN_ofText_of_hex hmarker htrim]
    exact isNaN_ofHexText_eq_false_iff.mpr (.inr ⟨_, rfl, hword⟩)

/-- **The texts that are read as numbers.** -/
theorem isNaN_ofText_eq_false_iff {text : List Char} :
    (ofText text).isNaN = false ↔
      IsNumericText (Text.trim text) ∨ HasSurplusSign (Text.trim text) := by
  constructor
  · intro h
    have hbehind := behindSign_takeSign (Text.trim text)
    by_cases hnil : Text.trim text = []
    · rw [hnil]
      exact .inl .empty
    by_cases hprefix : IsHexPrefixed (takeSign (Text.trim text)).2
    · obtain ⟨marker, digits, hmarker, htake⟩ := hprefix
      -- behind a sign of the first step, hexadecimal digits are refused
      rw [ofText_of_isHexPrefixed hmarker htake] at h
      split at h
      next heq =>
        rw [← heq]
        rcases isNaN_ofHexText_eq_false_iff.mp h with hword | ⟨digits, rfl, hword⟩
        · exact .inl (.hex hmarker hword)
        · exact .inr (.hex hmarker hword)
      next => exact absurd h (by decide)
    · rw [ofText_of_not_isHexPrefixed hnil hprefix, isNaN_negateIf] at h
      split at h
      next hword => exact .inl (.infinity (hword ▸ hbehind))
      next =>
        obtain ⟨d, hspelled, hd⟩ := isNaN_ofDecimalText_eq_false_iff.mp h
        exact isNumericText_or_hasSurplusSign hbehind hd hspelled
  · rintro (hnumeric | hsurplus)
    · exact isNaN_ofText_of_isNumericText hnumeric
    · exact isNaN_ofText_of_hasSurplusSign hsurplus

/-- Of two signs at most one is taken away. -/
theorem BehindSign.exists_isSign {a b : Char} {rest unsigned : List Char}
    (h : BehindSign (a :: b :: rest) unsigned) (ha : IsSign a) (hb : IsSign b) :
    ∃ c ∈ unsigned.head?, IsSign c := by
  cases h with
  | unsigned => exact ⟨a, rfl, ha⟩
  | signed => exact ⟨b, rfl, hb⟩

/-- A surplus sign leads out of the grammar. -/
theorem not_isNumericText_of_hasSurplusSign {text : List Char} (h : HasSurplusSign text) :
    ¬ IsNumericText text := by
  intro hnumeric
  cases h with
  | @decimal a b d ha hb hspelled =>
    generalize d.text = rest at hnumeric
    -- each rule of the grammar would have to take a sign for something else
    cases hnumeric with
    | infinity hbehind =>
      obtain ⟨c, ⟨⟩, hc⟩ := hbehind.exists_isSign ha hb
      rcases hc with hc | hc <;> cases hc
    | decimal hspelled' hbehind =>
      obtain ⟨c, hmem, hc⟩ := hbehind.exists_isSign ha hb
      obtain ⟨hminus, hplus⟩ := ne_sign_of_spelled hspelled' c hmem
      exact hc.elim hminus hplus
    | hex => rcases ha with ha | ha <;> cases ha
  | @hex marker digits hmarker hword =>
    cases hnumeric with
    | infinity hbehind => cases hbehind
    | decimal hspelled hbehind =>
      refine not_isHexPrefixed_of_numeral ?_ ⟨marker, '+' :: digits, hmarker, rfl⟩
      exact hbehind.forall_mem (fun _ => isNumeralChar_of_isSign) (isNumeralChar_of_mem hspelled)
    | hex _ hword' => exact hword'.not_isSign (.inr rfl)

end Number

namespace Value

open Number

/-- **A string stands for a number if it is a numeric text when trimmed,** or would be one without a
surplus sign. -/
theorem isNaN_toNumber_string_eq_false_iff {κ : Type} (s : String) :
    ((string s : Value κ).toNumber.isNaN = false ↔
        IsNumericText (Text.trim s.toList) ∨ HasSurplusSign (Text.trim s.toList)) ∧
      ¬ (IsNumericText (Text.trim s.toList) ∧ HasSurplusSign (Text.trim s.toList)) :=
  ⟨isNaN_ofText_eq_false_iff, fun h => not_isNumericText_of_hasSurplusSign h.2 h.1⟩

/-- A five behind two signs is a number, and so is a one behind a plus sign and `0x`. -/
theorem isNaN_toNumber_of_hasSurplusSign :
    ((string "--5" : Value Unit).toNumber.isNaN = false ∧
        ¬ IsNumericText (Text.trim "--5".toList)) ∧
      ((string "0x+1" : Value Unit).toNumber.isNaN = false ∧
        ¬ IsNumericText (Text.trim "0x+1".toList)) := by
  have hread : Decimal.ofText? ['5'] = some ⟨['5'], none, none⟩ := rfl
  -- the two forms of a surplus sign, one text for each
  have hfive : HasSurplusSign "--5".toList :=
    .decimal (.inl rfl) (.inl rfl) (Decimal.ofText?_eq_some_iff.mp hread).1
  have hone : HasSurplusSign "0x+1".toList :=
    .hex (.inl rfl) ⟨by decide, by decide, by decide⟩
  exact ⟨⟨by decide, not_isNumericText_of_hasSurplusSign hfive⟩,
    ⟨by decide, not_isNumericText_of_hasSurplusSign hone⟩⟩

end Value

end CheckedExpr
