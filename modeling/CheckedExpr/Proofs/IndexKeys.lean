import CheckedExpr.Operator.Apply
import CheckedExpr.Proofs.WholeNumbers

/-!
# Keys that are indices

An array has the key `length`, and the index of each of its items as numbers are written. Whether a
text is such an index is decided by reading it as a number, writing that number and comparing; then
the number has to be whole and below the length, which is rounded for that. If the length has at
most 53 bits, all of this comes to the plain view: the keys are `length` and the decimal digits of
the natural numbers below the length (`exists_apply_isIn_array`).

What is read under a key is decided in another way. The two ways agree on objects, and on numbers as
keys, of arrays of any length. But an array is read at an index only if the key is a number: of an
index in a string, or in an array with one item, it is found that it is a key, and nothing is read
under it (`readsWhatIsStored_iff_not_isMissed`).
-/

namespace CheckedExpr

namespace Number

/-! ### Spelling indices -/

/-- The key is how the natural number is written as a number. -/
def SpellsIndex (key : String) (i : ℕ) : Prop := ∃ x, numberText x = key ∧ toNat? x = some i

/-- A number is an index if it is whole and below the length, which is itself taken as a number. -/
theorem indexBelow?_eq_some_iff {n i : ℕ} {x : Float} :
    indexBelow? n x = some i ↔ x < Float.ofNat n ∧ toNat? x = some i := by
  simp [indexBelow?]

/-- An index is below the length itself, and not only below what the length is rounded to. -/
theorem lt_of_indexBelow? {n i : ℕ} {x : Float} (h : indexBelow? n x = some i) : i < n :=
  let ⟨hlt, hi⟩ := indexBelow?_eq_some_iff.mp h
  lt_of_toNat?_of_lt hi hlt

/-- Every place of an array of at most 53 bits is an index. -/
theorem indexBelow?_ofNat {n i : ℕ} (hn : n < 2 ^ 53) (hi : i < n) :
    indexBelow? n (Float.ofNat i) = some i :=
  indexBelow?_eq_some_iff.mpr ⟨ofNat_lt_ofNat hi hn, toNat?_ofNat (hi.trans hn)⟩

/-- The two zeros are one index. -/
theorem indexBelow?_neg_zero (n : ℕ) : indexBelow? n (-0) = indexBelow? n 0 := by
  -- the order does not tell the two zeros apart
  have hlt : (-0 : Float) < Float.ofNat n ↔ (0 : Float) < Float.ofNat n := by
    rw [lt_iff_lt_unpack, lt_iff_lt_unpack, unpack_neg_zero, unpack_zero]
    cases (Float.ofNat n).toModel.unpack with
    | notANumber => rfl
    | zero sign => rfl
    | infinity sign => cases sign <;> rfl
    | finite sign m e hm => cases sign <;> rfl
  unfold indexBelow?
  by_cases hpos : (0 : Float) < Float.ofNat n
  · rw [if_pos hpos, if_pos (hlt.mpr hpos)]
    rfl
  · rw [if_neg hpos, if_neg (mt hlt.mp hpos)]

/-- A number that is looked for by its text is looked for by itself. -/
theorem indexOfKey?_numberText (n : ℕ) (x : Float) :
    indexOfKey? n (numberText x) = indexBelow? n x := by
  have htext : numberText (if x == 0 then 0 else x) = numberText x := apply_ite_zero rfl x
  unfold indexOfKey?
  rw [read?_numberText, Option.filter_some, if_pos (beq_iff_eq.mpr htext), Option.bind_some]
  exact apply_ite_zero (indexBelow?_neg_zero n) x

/-- A key is an index only if it is how some number is written. -/
theorem exists_number_of_indexOfKey? {n i : ℕ} {key : String} (h : indexOfKey? n key = some i) :
    ∃ x, numberText x = key ∧ indexBelow? n x = some i := by
  obtain ⟨x, hx, hi⟩ := Option.bind_eq_some_iff.mp h
  obtain ⟨-, htext⟩ := Option.filter_eq_some_iff.mp hx
  exact ⟨x, by simpa using htext, hi⟩

/-- Then it spells that index, which is below the length. -/
theorem spellsIndex_of_indexOfKey? {n i : ℕ} {key : String} (h : indexOfKey? n key = some i) :
    SpellsIndex key i ∧ i < n :=
  let ⟨x, htext, hi⟩ := exists_number_of_indexOfKey? h
  ⟨⟨x, htext, (indexBelow?_eq_some_iff.mp hi).2⟩, lt_of_indexBelow? hi⟩

/-- Equally written numbers are one index, since what is written reads as one number. -/
theorem SpellsIndex.unique {key : String} {i j : ℕ} (hi : SpellsIndex key i)
    (hj : SpellsIndex key j) : i = j := by
  obtain ⟨x, htext, hx⟩ := hi
  obtain ⟨y, rfl, hy⟩ := hj
  have hread := read?_numberText x
  rw [htext, read?_numberText, Option.some.injEq] at hread
  have hindex (z : Float) : toNat? (if z == 0 then 0 else z) = toNat? z := apply_ite_zero rfl z
  have heq : some j = some i := by
    rw [← hy, ← hx, ← hindex y, hread, hindex x]
  exact (Option.some.inj heq).symm

theorem spellsIndex_toString {i : ℕ} (hi : i < 2 ^ 53) : SpellsIndex (toString i) i :=
  ⟨Float.ofNat i, numberText_ofNat hi, toNat?_ofNat hi⟩

/-- No number is written like the other key of an array. -/
theorem numberText_ne_length (x : Float) : numberText x ≠ "length" := by
  intro h
  have hread := read?_numberText x
  rw [h] at hread
  have hnone : read? "length".toList = none := by decide
  rw [hnone] at hread
  cases hread

/-! ### What the keys of an array are -/

/-- Of the numbers of at most 53 bits, each is written in its decimal digits. -/
theorem numberText_of_toNat? {x : Float} {i : ℕ} (h : toNat? x = some i) (hi : i < 2 ^ 53) :
    numberText x = toString i := by
  rcases toNat?_eq_some_iff.mp h with ⟨⟨sign, hunpack⟩, rfl⟩ | ⟨m, e, hm, hunpack, hvalue⟩
  · obtain rfl := eq_of_unpack hunpack
    cases sign <;> rfl
  · have hx : Float.ofNat i = x := by
      rw [ofNat_eq_nearestNumber, ← hvalue, nearestNumber_of_unpack hunpack]
    rw [← hx, numberText_ofNat hi]

/-- The indices below a length are spelled in decimal digits, without a sign or leading zeros. -/
theorem indexOfKey?_eq_some_iff {n i : ℕ} {key : String} (hn : n < 2 ^ 53) :
    indexOfKey? n key = some i ↔ i < n ∧ key = toString i := by
  constructor
  · intro h
    obtain ⟨x, rfl, hx⟩ := exists_number_of_indexOfKey? h
    have hi := lt_of_indexBelow? hx
    exact ⟨hi, numberText_of_toNat? (indexBelow?_eq_some_iff.mp hx).2 (hi.trans hn)⟩
  · rintro ⟨hi, rfl⟩
    rw [← numberText_ofNat (hi.trans hn), indexOfKey?_numberText, indexBelow?_ofNat hn hi]

end Number

namespace Value

variable {κ : Type}

/-- The keys of an array are `length` and the places below it, in decimal digits. -/
theorem isArrayKey_iff {n : ℕ} {key : String} (hn : n < 2 ^ 53) :
    isArrayKey n key = true ↔ key = "length" ∨ ∃ i < n, key = toString i := by
  simp only [isArrayKey, Bool.or_eq_true, beq_iff_eq, Option.isSome_iff_exists,
    Number.indexOfKey?_eq_some_iff hn]

example : isArrayKey 2 "1" = true ∧ isArrayKey 2 "01" = false ∧ isArrayKey 2 "1.0" = false ∧
    isArrayKey 2 "2" = false := by
  decide +kernel

/-- **The keys of an array are `length` and the decimal digits of the indices of its items.** Every
value can be searched for. -/
theorem exists_apply_isIn_array {items : List (Value κ)} (hn : items.length < 2 ^ 53)
    (identity : Identity) (key : Value κ) :
    ∃ found, BinaryOp.isIn.apply key (array identity items) = .ok (boolean found) ∧
      (found = true ↔ key.text = "length" ∨ ∃ i < items.length, key.text = toString i) :=
  ⟨isArrayKey items.length key.text, rfl, isArrayKey_iff hn⟩

/-- What is looked for is the text, here that of an array with one item. -/
theorem exists_apply_isIn_pair :
    ([null, string "a"] : List (Value Unit)).length < 2 ^ 53 ∧
      ∃ found, BinaryOp.isIn.apply (array 1 [string "1"]) (array 0 [null, string "a"]) =
          (.ok (boolean found) : Except (EvalError Unit) (Value Unit)) ∧
        (found = true ↔ (array 1 [string "1"] : Value Unit).text = "length" ∨
          ∃ i < ([null, string "a"] : List (Value Unit)).length,
            (array 1 [string "1"] : Value Unit).text = toString i) :=
  ⟨by decide, exists_apply_isIn_array (by decide) 0 (array 1 [string "1"])⟩

/-! ### Keys and what is read under them -/

/-- What an array or an object has under a key. -/
inductive StoredAt : Value κ → Value κ → Value κ → Prop where
  | length {identity : Identity} {items : List (Value κ)} {key : Value κ} :
    key.text = "length" → StoredAt (array identity items) key (number (Float.ofNat items.length))
  | item {identity : Identity} {items : List (Value κ)} {key w : Value κ} {i : ℕ} :
    Number.SpellsIndex key.text i → items[i]? = some w → StoredAt (array identity items) key w
  | field {identity : Identity} {fields : List (String × Value κ)} {key w : Value κ} :
    fields.lookup key.text = some w → StoredAt (object identity fields) key w

/-- Under a key that a value does not have, nothing is read, and under one that it has, what is
there. -/
structure ReadsWhatIsStored (v key : Value κ) : Prop where
  absent : BinaryOp.isIn.apply key v = .ok (boolean false) → v.read? key = some undefined
  present : BinaryOp.isIn.apply key v = .ok (boolean true) →
    ∃ w, StoredAt v key w ∧ v.read? key = some w

/-- The key is no number, but it is spelled like the index of an item that is there. -/
def IsMissed (v key : Value κ) : Prop :=
  ∃ identity items i w, v = array identity items ∧ key.kind ≠ .number ∧
    BinaryOp.isIn.apply key v = .ok (boolean true) ∧
    Number.SpellsIndex key.text i ∧ items[i]? = some w ∧ w ≠ undefined

/-- What `in` tells is whether there is the key. -/
theorem apply_isIn_eq_ok_iff {v key : Value κ} {found : Bool} :
    BinaryOp.isIn.apply key v = .ok (boolean found) ↔ v.hasKey? key = some found := by
  unfold BinaryOp.apply
  simp only
  cases v.hasKey? key <;> simp

/-- Objects are looked up and read in the same way. -/
theorem readsWhatIsStored_object (identity : Identity) (fields : List (String × Value κ))
    (key : Value κ) : (object identity fields).ReadsWhatIsStored key := by
  constructor
  -- one lookup answers both questions
  · rw [apply_isIn_eq_ok_iff]
    intro h
    have hnone : fields.lookup key.text = none := by simpa [hasKey?] using h
    simp [read?, hnone]
  · rw [apply_isIn_eq_ok_iff]
    intro h
    obtain ⟨w, hw⟩ : ∃ w, fields.lookup key.text = some w := by
      simpa [hasKey?, Option.isSome_iff_exists] using h
    exact ⟨w, .field hw, by simp [read?, hw]⟩

/-- A number is the key that it is written as. -/
theorem isArrayKey_numberText (n : ℕ) (x : Float) :
    isArrayKey n (numberText x) = (Number.indexBelow? n x).isSome := by
  have hne : (numberText x == "length") = false := by
    simpa using Number.numberText_ne_length x
  rw [isArrayKey, hne, Bool.false_or, Number.indexOfKey?_numberText]

/-- Numbers as keys are looked up and read in the same way. -/
theorem readsWhatIsStored_number (identity : Identity) (items : List (Value κ)) (x : Float) :
    (array identity items).ReadsWhatIsStored (number x) := by
  -- the text of the number is looked up, which comes to the index that is read
  have hhas : (array identity items).hasKey? (number x) =
      some (Number.indexBelow? items.length x).isSome := by
    rw [← isArrayKey_numberText]
    rfl
  constructor
  · rw [apply_isIn_eq_ok_iff, hhas]
    intro h
    have hnone : Number.indexBelow? items.length x = none := by simpa using h
    simp [read?, readArray, hnone]
  · rw [apply_isIn_eq_ok_iff, hhas]
    intro h
    obtain ⟨i, hi⟩ := Option.isSome_iff_exists.mp (Option.some.inj h)
    obtain ⟨w, hitem⟩ : ∃ w, items[i]? = some w :=
      ⟨_, List.getElem?_eq_getElem (Number.lt_of_indexBelow? hi)⟩
    refine ⟨w, .item ⟨x, rfl, (Number.indexBelow?_eq_some_iff.mp hi).2⟩ hitem, ?_⟩
    simp [read?, readArray, hi, hitem]

/-- Under a key that is no number, an array has nothing but its length. -/
theorem read?_array_of_kind_ne {identity : Identity} {items : List (Value κ)} {key : Value κ}
    (hkind : key.kind ≠ .number) :
    (array identity items).read? key =
      some (if key.text = "length" then number (Float.ofNat items.length) else undefined) := by
  cases key with
  | number x => exact absurd rfl hkind
  | _ => rfl

/-- A key that is missed is found, and reading it gives undefined all the same. -/
theorem not_readsWhatIsStored_of_isMissed {v key : Value κ} (h : v.IsMissed key) :
    ¬ v.ReadsWhatIsStored key := by
  obtain ⟨identity, items, i, w, rfl, hkind, hin, hspells, hitem, hw⟩ := h
  intro hreads
  have hne : key.text ≠ "length" := by
    obtain ⟨x, htext, -⟩ := hspells
    rw [← htext]
    exact Number.numberText_ne_length x
  obtain ⟨w', hstored, hread⟩ := hreads.present hin
  rw [read?_array_of_kind_ne hkind, if_neg hne] at hread
  -- the read gives undefined, and the stored item is something else
  obtain rfl := Option.some.inj hread
  cases hstored with
  | item hspells' hitem' =>
    rw [hspells.unique hspells', hitem'] at hitem
    exact hw (Option.some.inj hitem).symm

/-- Any other key that is no number is read as it is looked up. -/
theorem readsWhatIsStored_array {identity : Identity} {items : List (Value κ)} {key : Value κ}
    (hkind : key.kind ≠ .number) (h : ¬ (array identity items).IsMissed key) :
    (array identity items).ReadsWhatIsStored key := by
  constructor
  · rw [apply_isIn_eq_ok_iff]
    intro hin
    have hne : key.text ≠ "length" := by
      rintro heq
      simp [hasKey?, isArrayKey, heq] at hin
    rw [read?_array_of_kind_ne hkind, if_neg hne]
  · intro hin
    by_cases heq : key.text = "length"
    · exact ⟨_, .length heq, by rw [read?_array_of_kind_ne hkind, if_pos heq]⟩
    · have hindex : (Number.indexOfKey? items.length key.text).isSome = true := by
        simpa [apply_isIn_eq_ok_iff, hasKey?, isArrayKey, heq] using hin
      obtain ⟨i, hi⟩ := Option.isSome_iff_exists.mp hindex
      obtain ⟨hspells, hlt⟩ := Number.spellsIndex_of_indexOfKey? hi
      obtain ⟨w, hitem⟩ : ∃ w, items[i]? = some w := ⟨_, List.getElem?_eq_getElem hlt⟩
      -- an item that is undefined itself cannot be told from none
      have hw : w = undefined := by
        by_contra hw
        exact h ⟨identity, items, i, w, rfl, hkind, hin, hspells, hitem, hw⟩
      exact ⟨undefined, .item hspells (hw ▸ hitem),
        by rw [read?_array_of_kind_ne hkind, if_neg heq]⟩

/-- **What is found under a key is what is read there,** unless an index of an array is given as
something else than a number. -/
theorem readsWhatIsStored_iff_not_isMissed (v key : Value κ) :
    v.ReadsWhatIsStored key ↔ ¬ v.IsMissed key := by
  constructor
  · exact fun hreads hmissed => not_readsWhatIsStored_of_isMissed hmissed hreads
  intro h
  cases v with
  | object identity fields => exact readsWhatIsStored_object identity fields key
  | array identity items =>
    by_cases hkind : key.kind = .number
    · cases key with
      | number x => exact readsWhatIsStored_number identity items x
      | _ => cases hkind
    · exact readsWhatIsStored_array hkind h
  | _ =>
    -- nothing else has keys
    constructor <;> (rw [apply_isIn_eq_ok_iff]; rintro ⟨⟩)

/-- The text of an index is a key of the array, but nothing is read under it. -/
theorem not_readsWhatIsStored_digit :
    ¬ (array 0 [string "a"] : Value Unit).ReadsWhatIsStored (string "0") := by
  refine not_readsWhatIsStored_of_isMissed
    ⟨0, [string "a"], 0, string "a", rfl, by decide, rfl, ?_, rfl, fun h => by cases h⟩
  exact Number.spellsIndex_toString (i := 0) (by norm_num)

end Value

end CheckedExpr
