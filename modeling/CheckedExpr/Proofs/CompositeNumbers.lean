import CheckedExpr.Operator.Apply
import CheckedExpr.Proofs.NumericStrings

/-!
# Composite values as numbers

An array, an object or a function becomes a number where one is needed. Operators on numbers convert
the value itself; comparisons take its text first, and convert that. Both ways end at the same
number, except that a lone absent item counts differently: in the text of the array it is nothing,
which counts as zero, but the array itself counts as the text of the item, which is no number.

* `toNumber_toPrimitive_iff`: when the two ways agree.
* `exists_actsAs_iff`: when all operators take a composite value for one number.
-/

namespace CheckedExpr

namespace Number

/-! ### Characters that make a text no number -/

/-- A character that is not dropped stays, wherever it stands. -/
theorem mem_dropWhile {p : Char → Bool} {c : Char} {text : List Char} (hmem : c ∈ text)
    (hc : p c = false) : c ∈ text.dropWhile p := by
  rw [← List.takeWhile_append_dropWhile (p := p) (l := text), List.mem_append] at hmem
  rcases hmem with htake | hdrop
  · rw [List.mem_takeWhile_imp htake] at hc
    cases hc
  · exact hdrop

theorem mem_trim {c : Char} {text : List Char} (hmem : c ∈ text) (hc : Text.isBlank c = false) :
    c ∈ Text.trim text := by
  unfold Text.trim
  rw [List.mem_reverse]
  refine mem_dropWhile ?_ hc
  rw [List.mem_reverse]
  exact mem_dropWhile hmem hc

/-- One character is enough to make a text no number. -/
theorem ofText_eq_nan_of_mem {c : Char} {text : List Char} (hmem : c ∈ text)
    (hblank : Text.isBlank c = false) (hc : ¬ IsNumericChar c) : ofText text = nan := by
  rw [← isNaN_iff, ← Bool.not_eq_false, isNaN_ofText_eq_false_iff]
  rintro (hnumeric | hsurplus)
  · exact hc (hnumeric.isNumericChar c (mem_trim hmem hblank))
  · exact hc (hsurplus.isNumericChar c (mem_trim hmem hblank))

theorem ofText_eq_nan_of_comma {text : List Char} (h : ',' ∈ text) : ofText text = nan :=
  ofText_eq_nan_of_mem h (by decide) (by decide)

theorem ofText_eq_nan_of_bracket {text : List Char} (h : '[' ∈ text) : ofText text = nan :=
  ofText_eq_nan_of_mem h (by decide) (by decide)

end Number

/-- Takes both operands as numbers, whatever they are. -/
def BinaryOp.takesNumbers : BinaryOp → Bool
  | sub | mul | div | rem => true
  | op => op.isBitwise

/-- Compares with a number by what the other operand is as a number. -/
def BinaryOp.comparesNumbers : BinaryOp → Bool
  | eq | ne => true
  | op => op.isComparison

namespace Value

variable {κ : Type}

/-- An array with one item, which is absent. -/
def HoldsOnlyAbsent (v : Value κ) : Prop :=
  ∃ identity item, v = array identity [item] ∧ item.isNullish = true

/-- All operators that need a number take the value for that one. -/
structure ActsAs (v : Value κ) (x : Float) : Prop where
  toNumber : v.toNumber = x
  toPrimitive : v.toPrimitive.toNumber = x
  unary : ∀ op : UnaryOp, op ≠ .not → op.apply v = op.apply (number x)
  left : ∀ op : BinaryOp, op.takesNumbers = true → ∀ w, op.apply v w = op.apply (number x) w
  right : ∀ op : BinaryOp, op.takesNumbers = true → ∀ w, op.apply w v = op.apply w (number x)
  before : ∀ op : BinaryOp, op.comparesNumbers = true → ∀ y,
    op.apply v (number y) = op.apply (number x) (number y)
  behind : ∀ op : BinaryOp, op.comparesNumbers = true → ∀ y,
    op.apply (number y) v = op.apply (number y) (number x)

theorem toPrimitive_of_composite {v : Value κ} (hv : v.isPrimitive = false) :
    v.toPrimitive = string v.text := by
  rw [toPrimitive, hv, if_neg Bool.false_ne_true]

/-! ### The text of a composite value as a number -/

theorem ofText_itemsText_pair (item next : Value κ) (rest : List (Value κ)) :
    Number.ofText (itemsText (item :: next :: rest)).toList = Number.nan :=
  Number.ofText_eq_nan_of_comma (by simp [itemsText])

/-- The text of an absent item is a word. -/
theorem ofText_text_of_isNullish {item : Value κ} (h : item.isNullish = true) :
    Number.ofText item.text.toList = Number.nan := by
  cases item with
  | undefined | null =>
    rw [text]
    rfl
  | _ => cases h

theorem itemsText_singleton (item : Value κ) :
    itemsText [item] = if item.isNullish then "" else item.text := by
  rw [itemsText]

/-- The conversions of an array with one item are those of its text and of the item's. -/
theorem toNumber_toPrimitive_singleton (identity : Identity) (item : Value κ) :
    (array identity [item]).toPrimitive.toNumber = (array identity [item]).toNumber ↔
      item.isNullish = false := by
  change Number.ofText (itemsText [item]).toList = Number.ofText item.text.toList ↔ _
  rw [itemsText_singleton]
  -- what is left out is zero as a number, and the word for it is none
  cases hitem : item.isNullish with
  | false => exact iff_of_true rfl rfl
  | true =>
    have hne : Number.ofText "".toList ≠ Number.nan := by decide
    rw [ofText_text_of_isNullish hitem, if_pos rfl]
    exact iff_of_false hne Bool.noConfusion

/-- The two ways of conversion differ for nothing else than a lone absent item. -/
theorem toNumber_toPrimitive_iff {v : Value κ} (hv : v.isPrimitive = false) :
    v.toPrimitive.toNumber = v.toNumber ↔ ¬ v.HoldsOnlyAbsent := by
  cases v with
  | array identity items =>
    -- no item and a single one count as numbers, two or more never do
    match items with
    | [] => exact iff_of_true rfl (by simp [HoldsOnlyAbsent])
    | [item] =>
      rw [toNumber_toPrimitive_singleton, ← Bool.not_eq_true]
      simp [HoldsOnlyAbsent]
    | item :: next :: rest =>
      exact iff_of_true (ofText_itemsText_pair item next rest) (by simp [HoldsOnlyAbsent])
  | object identity fields =>
    have hbracket : '[' ∈ (object identity fields : Value κ).text.toList := by simp [text]
    exact iff_of_true (Number.ofText_eq_nan_of_bracket hbracket) (by simp [HoldsOnlyAbsent])
  | function identity name body =>
    have hbracket : '[' ∈ (function identity name body).text.toList := by simp [text]
    exact iff_of_true (Number.ofText_eq_nan_of_bracket hbracket) (by simp [HoldsOnlyAbsent])
  | _ => cases hv

/-! ### Operators -/

/-- A composite value on the left is compared with a number by its text. -/
theorem compare_number {v : Value κ} (hv : v.isPrimitive = false) (y : Float) :
    v.compare (number y) = compareNumbers v.toPrimitive.toNumber y := by
  rw [compare, toPrimitive_of_composite hv]
  rfl

theorem number_compare {v : Value κ} (hv : v.isPrimitive = false) (y : Float) :
    (number y).compare v = compareNumbers y v.toPrimitive.toNumber := by
  rw [compare, toPrimitive_of_composite hv]
  rfl

/-- Loose equality with a number goes by the text as well. -/
theorem looseEquals_number {v : Value κ} (hv : v.isPrimitive = false) (y : Float) :
    v.looseEquals (number y) = (v.toPrimitive.toNumber == y) := by
  cases v with
  | array | object | function => rfl
  | _ => cases hv

/-- On either side. -/
theorem number_looseEquals {v : Value κ} (hv : v.isPrimitive = false) (y : Float) :
    (number y).looseEquals v = (y == v.toPrimitive.toNumber) := by
  cases v with
  | array | object | function => rfl
  | _ => cases hv

/-- Arithmetic sees nothing of its operands but the numbers that they convert to. -/
theorem apply_eq_of_takesNumbers {op : BinaryOp} (hop : op.takesNumbers = true)
    {v v' w w' : Value κ} (hleft : v.toNumber = v'.toNumber) (hright : w.toNumber = w'.toNumber) :
    op.apply v w = op.apply v' w' := by
  cases op with
  | sub | mul | div | rem | bitOr | bitXor | bitAnd | shl | shr | ushr =>
    simp only [BinaryOp.apply, hleft, hright]
  | _ => cases hop

/-- Comparison and loose equality see nothing but what they compare. -/
theorem apply_eq_of_comparesNumbers {op : BinaryOp} (hop : op.comparesNumbers = true)
    {v v' w w' : Value κ} (hequals : v.looseEquals w = v'.looseEquals w')
    (hcompare : v.compare w = v'.compare w') : op.apply v w = op.apply v' w' := by
  cases op with
  | eq | ne | lt | gt | le | ge => simp only [BinaryOp.apply, hequals, hcompare]
  | _ => cases hop

/-- Where the two ways of conversion agree, all operators do. -/
theorem actsAs_toNumber {v : Value κ} (hv : v.isPrimitive = false)
    (h : v.toPrimitive.toNumber = v.toNumber) : v.ActsAs v.toNumber where
  toNumber := rfl
  toPrimitive := h
  unary op hop := by
    cases op with
    | not => exact absurd rfl hop
    | _ => rfl
  left _ hop _ := apply_eq_of_takesNumbers hop rfl rfl
  right _ hop _ := apply_eq_of_takesNumbers hop rfl rfl
  before _ hop y := by
    -- a composite is compared by its primitive, and that one converts to the same number
    apply apply_eq_of_comparesNumbers hop
    · rw [looseEquals_number hv, h]
      rfl
    · rw [compare_number hv, h]
      rfl
  behind _ hop y := by
    apply apply_eq_of_comparesNumbers hop
    · rw [number_looseEquals hv, h]
      rfl
    · rw [number_compare hv, h]
      rfl

/-- Conversely, operators of both sorts can only agree if the two ways do. -/
theorem ActsAs.toNumber_toPrimitive {v : Value κ} {x : Float} (h : v.ActsAs x) :
    v.toPrimitive.toNumber = v.toNumber :=
  h.toPrimitive.trans h.toNumber.symm

/-- **All operators take a composite value for one number,** that of its text, unless it is an array
with nothing but an absent item. -/
theorem exists_actsAs_iff {v : Value κ} (hv : v.isPrimitive = false) :
    (∃ x, v.ActsAs x) ↔ ¬ v.HoldsOnlyAbsent := by
  rw [← toNumber_toPrimitive_iff hv]
  exact ⟨fun ⟨_, h⟩ => h.toNumber_toPrimitive, fun h => ⟨_, actsAs_toNumber hv h⟩⟩

/-- An absent item of an array inside the array does no harm. -/
theorem exists_actsAs_nested :
    (array 0 [array 1 [null]] : Value Unit).isPrimitive = false ∧
      ((∃ x, (array 0 [array 1 [null]] : Value Unit).ActsAs x) ↔
        ¬ (array 0 [array 1 [null]] : Value Unit).HoldsOnlyAbsent) :=
  ⟨rfl, exists_actsAs_iff rfl⟩

/-- As a number it is none, but it is equal to zero. -/
theorem toNumber_toPrimitive_null_ne :
    (array 0 [null] : Value Unit).toNumber = Number.nan ∧
      (array 0 [null] : Value Unit).toPrimitive.toNumber = 0 ∧
      (array 0 [null] : Value Unit).looseEquals (number 0) = true ∧
      ¬ ∃ x, (array 0 [null] : Value Unit).ActsAs x := by
  refine ⟨rfl, rfl, by decide, ?_⟩
  rintro ⟨x, h⟩
  exact absurd h.toNumber_toPrimitive (by decide)

end Value

end CheckedExpr
