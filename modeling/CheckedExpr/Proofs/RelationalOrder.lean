import CheckedExpr.Operator.Apply
import CheckedExpr.Proofs.NumericStrings
import CheckedExpr.Proofs.TextOrder
import CheckedExpr.Proofs.WholeNumbers

/-!
# The relational operators

Four operators ask how two values are ordered. They look at the values as primitive values: two
strings are ordered as texts, everything else as numbers. The answer may be that there is no order,
which is so if one of the numbers is none; then all four operators deny.

* `Number.compareNumbers_eq_none_iff`, `Number.compareNumbers_swap`: numbers are ordered unless one
  is none, and one way round.
* `Value.compare_swap`: so are values.
* `Value.orderLaws`: what the four operators tell of any two values, and of strings in particular.
-/

namespace CheckedExpr

/-! ### Numbers -/

namespace Number

open Float.Model

/-- Two numbers are ordered one way round, whatever kinds they are of. -/
theorem compare_swap_unpacked (f g : UnpackedFloat) :
    g.compare f = (f.compare g).map Ordering.swap := by
  cases f with
  | notANumber => cases g <;> rfl
  | infinity sign =>
    cases g with
    | infinity sign' => cases sign <;> cases sign' <;> rfl
    | _ => cases sign <;> rfl
  | zero sign =>
    cases g with
    | notANumber | zero => rfl
    | infinity sign' | finite sign' => cases sign' <;> rfl
  | finite sign m e hm =>
    cases g with
    | notANumber => cases sign <;> rfl
    | zero => cases sign <;> rfl
    | infinity sign' => cases sign <;> cases sign' <;> rfl
    | finite sign' m' e' hm' =>
      -- exponents come before mantissas, and two minus signs turn both round once more
      have hswap : (compare e' e).then (compare m' m) =
          ((compare e e').then (compare m m')).swap := by
        rw [Ordering.swap_then, ← Std.OrientedOrd.eq_swap, ← Std.OrientedOrd.eq_swap]
      cases sign <;> cases sign' <;> simp [UnpackedFloat.compare, hswap]

/-- And they are ordered unless one is none. -/
theorem compare_eq_none_iff_unpacked (f g : UnpackedFloat) :
    f.compare g = none ↔ f.isNaN = true ∨ g.isNaN = true := by
  -- kind by kind: all that are numbers can be compared
  cases f with
  | notANumber => exact iff_of_true (by cases g <;> rfl) (.inl rfl)
  | infinity sign | finite sign =>
    cases g with
    | notANumber => exact iff_of_true (by cases sign <;> rfl) (.inr rfl)
    | infinity sign' | zero sign' | finite sign' =>
      refine iff_of_false ?_ (by rintro ⟨⟩ <;> contradiction)
      cases sign <;> cases sign' <;> exact nofun
  | zero sign =>
    cases g with
    | notANumber => exact iff_of_true rfl (.inr rfl)
    | infinity sign' | zero sign' | finite sign' =>
      refine iff_of_false ?_ (by rintro ⟨⟩ <;> contradiction)
      cases sign' <;> exact nofun

/-- How two numbers are ordered, in terms of their parts. -/
theorem compareNumbers_eq (x y : Float) :
    Value.compareNumbers x y = x.toModel.unpack.compare y.toModel.unpack := by
  have hlt : x < y ↔ x.toModel.unpack.compare y.toModel.unpack = some .lt := by
    rw [lt_iff_lt_unpack, UnpackedFloat.lt, beq_iff_eq]
  have heq : (x == y) = true ↔ x.toModel.unpack.compare y.toModel.unpack = some .eq := by
    -- equality of numbers is defined by their parts already
    change (_ == some Ordering.eq) = true ↔ _
    rw [beq_iff_eq]
  have hgt : y < x ↔ x.toModel.unpack.compare y.toModel.unpack = some .gt := by
    rw [lt_iff_lt_unpack, UnpackedFloat.lt, beq_iff_eq, compare_swap_unpacked]
    cases x.toModel.unpack.compare y.toModel.unpack with
    | none => exact iff_of_false nofun nofun
    | some order => cases order <;> simp
  unfold Value.compareNumbers
  rw [if_congr hlt rfl rfl, if_congr heq rfl rfl, if_congr hgt rfl rfl]
  cases x.toModel.unpack.compare y.toModel.unpack with
  | none => rfl
  | some order => cases order <;> rfl

theorem compareNumbers_swap (x y : Float) :
    Value.compareNumbers y x = (Value.compareNumbers x y).map Ordering.swap := by
  rw [compareNumbers_eq, compareNumbers_eq, compare_swap_unpacked]

/-- There is no order exactly where one of them is not a number. -/
theorem compareNumbers_eq_none_iff {x y : Float} :
    Value.compareNumbers x y = none ↔ x.isNaN = true ∨ y.isNaN = true := by
  rw [compareNumbers_eq, compare_eq_none_iff_unpacked]
  rfl

end Number

namespace Value

variable {κ : Type} {v w : Value κ}

/-! ### Values -/

/-- Two strings are ordered as texts, everything else as numbers; both are one way round. -/
theorem comparePrimitives_swap (v w : Value κ) :
    w.comparePrimitives v = (v.comparePrimitives w).map Ordering.swap := by
  cases v with
  | string s =>
    cases w with
    | string t => exact congrArg some (Text.compareUnits_swap _ _).symm
    | _ => exact Number.compareNumbers_swap _ _
  | _ => cases w <;> exact Number.compareNumbers_swap _ _

/-- **Values are ordered one way round.** -/
theorem compare_swap (v w : Value κ) : w.compare v = (v.compare w).map Ordering.swap :=
  comparePrimitives_swap _ _

/-- Values without an order are compared as numbers, and one of these is none. -/
theorem isNaN_of_compare_eq_none (h : v.compare w = none) :
    v.toPrimitive.toNumber.isNaN = true ∨ w.toPrimitive.toNumber.isNaN = true := by
  unfold compare at h
  generalize v.toPrimitive = p at h ⊢
  generalize w.toPrimitive = q at h ⊢
  cases p with
  | string s =>
    cases q with
    -- strings always have an order
    | string t => cases h
    | _ => exact Number.compareNumbers_eq_none_iff.mp h
  | _ => cases q <;> exact Number.compareNumbers_eq_none_iff.mp h

/-! ### The operators -/

/-- Whether an operator makes the true value of two values. -/
def Holds (op : BinaryOp) (v w : Value κ) : Prop := op.apply v w = .ok (boolean true)

theorem holds_lt_iff : Holds .lt v w ↔ v.compare w = some .lt := by
  simp [Holds, BinaryOp.apply]

theorem holds_gt_iff : Holds .gt v w ↔ v.compare w = some .gt := by
  simp [Holds, BinaryOp.apply]

theorem holds_le_iff : Holds .le v w ↔ v.compare w = some .lt ∨ v.compare w = some .eq := by
  rcases h : v.compare w with _ | _ | _ | _ <;> simp [Holds, BinaryOp.apply, h]

theorem holds_ge_iff : Holds .ge v w ↔ v.compare w = some .gt ∨ v.compare w = some .eq := by
  rcases h : v.compare w with _ | _ | _ | _ <;> simp [Holds, BinaryOp.apply, h]

/-- Where there is no order, all four deny. -/
theorem apply_of_compare_eq_none (h : v.compare w = none) {op : BinaryOp}
    (hop : op.isComparison = true) : op.apply v w = .ok (boolean false) := by
  cases op with
  | lt | gt | le | ge => simp [BinaryOp.apply, h]
  | _ => cases hop

/-- Every order but none makes `<=` or `>=` hold. -/
theorem compare_eq_none (hle : ¬ Holds .le v w) (hge : ¬ Holds .ge v w) : v.compare w = none := by
  rw [holds_le_iff] at hle
  rw [holds_ge_iff] at hge
  rcases h : v.compare w with _ | _ | _ | _
  · rfl
  · exact absurd (.inl h) hle
  · exact absurd (.inr h) hle
  · exact absurd (.inl h) hge

/-! ### Strings -/

section Strings

variable {s t : String}

/-- Two values that are strings as primitive values are compared as texts. -/
theorem compare_strings (hv : v.toPrimitive = string s) (hw : w.toPrimitive = string t) :
    v.compare w = some (Text.compareUnits s.toList t.toList) := by
  rw [compare, hv, hw]
  rfl

theorem holds_lt_iff_units (hv : v.toPrimitive = string s) (hw : w.toPrimitive = string t) :
    Holds .lt v w ↔ Text.units s.toList < Text.units t.toList := by
  rw [holds_lt_iff, compare_strings hv hw, Option.some.injEq, Text.compareUnits_eq_lt_iff]

/-- What the operators tell of two values that are these strings as primitive values. -/
structure StringOrderLaws (v w : Value κ) (s t : String) : Prop where
  /-- Exactly one of three things is so. -/
  trichotomy : (Holds .lt v w ∧ s ≠ t ∧ ¬ Holds .gt v w) ∨
    (¬ Holds .lt v w ∧ s = t ∧ ¬ Holds .gt v w) ∨ (¬ Holds .lt v w ∧ s ≠ t ∧ Holds .gt v w)
  le_negates_gt : ∃ greater, BinaryOp.gt.apply v w = .ok (boolean greater) ∧
    BinaryOp.le.apply v w = .ok (boolean !greater)
  by_units : Holds .lt v w ↔ Text.units s.toList < Text.units t.toList
  /-- Where two texts differ first, a character beyond U+FFFF comes before those from U+E000 to
  U+FFFF. -/
  beyond : ∀ (before after after' : List Char) (c d : Char),
    s.toList = before ++ c :: after → t.toList = before ++ d :: after' →
    0x10000 ≤ c.toNat → 0xe000 ≤ d.toNat → d.toNat < 0x10000 → Holds .lt v w
  transitive : ∀ (u : Value κ) (r : String), u.toPrimitive = string r →
    Holds .lt v w → Holds .lt w u → Holds .lt v u

/-- **Strings are in one order, which is that of their units.** -/
theorem stringOrderLaws (hv : v.toPrimitive = string s) (hw : w.toPrimitive = string t) :
    StringOrderLaws v w s t where
  trichotomy := by
    -- with two strings, all four comparisons are the one by units
    have hcompare := compare_strings hv hw
    rw [holds_lt_iff, holds_gt_iff, hcompare]
    have heq : Text.compareUnits s.toList t.toList = .eq ↔ s = t :=
      Text.compareUnits_eq_eq_iff.trans String.toList_inj
    have hne (h : Text.compareUnits s.toList t.toList ≠ .eq) : s ≠ t := mt heq.mpr h
    rcases horder : Text.compareUnits s.toList t.toList with _ | _ | _
    · exact .inl ⟨rfl, hne (by rw [horder]; decide), nofun⟩
    · exact .inr (.inl ⟨nofun, heq.mp horder, nofun⟩)
    · exact .inr (.inr ⟨nofun, hne (by rw [horder]; decide), rfl⟩)
  le_negates_gt := by
    refine ⟨_, rfl, ?_⟩
    simp only [BinaryOp.apply, compare_strings hv hw]
    cases Text.compareUnits s.toList t.toList <;> rfl
  by_units := holds_lt_iff_units hv hw
  beyond before after after' c d hs ht hc hd hd' := by
    rw [holds_lt_iff_units hv hw, hs, ht]
    exact Text.units_lt_of_beyond before hc hd hd'
  transitive u r hu hvw hwu := by
    rw [holds_lt_iff_units hv hw] at hvw
    rw [holds_lt_iff_units hw hu] at hwu
    exact (holds_lt_iff_units hv hu).mpr (List.lt_trans hvw hwu)

end Strings

/-! ### Laws -/

/-- What the relational operators tell of two values. -/
structure OrderLaws (v w : Value κ) : Prop where
  lt_swap : BinaryOp.lt.apply v w = BinaryOp.gt.apply w v
  le_swap : BinaryOp.le.apply v w = BinaryOp.ge.apply w v
  asymmetric : ¬ (Holds .lt v w ∧ Holds .lt w v)
  le_iff : Holds .le v w ↔ Holds .lt v w ∨ Holds .le v w ∧ Holds .ge v w
  /-- Without an order, one of the values is no number, and all four operators deny. -/
  unordered : ¬ Holds .le v w → ¬ Holds .ge v w →
    (v.toPrimitive.toNumber.isNaN = true ∨ w.toPrimitive.toNumber.isNaN = true) ∧
      ∀ op : BinaryOp, op.isComparison = true → op.apply v w = .ok (boolean false)
  strings : ∀ s t, v.toPrimitive = string s → w.toPrimitive = string t → StringOrderLaws v w s t

/-- **The relational operators are one order,** of any two values. -/
theorem orderLaws (v w : Value κ) : OrderLaws v w where
  lt_swap := by
    -- swapping turns the outcome round, so each outcome is looked at once
    simp only [BinaryOp.apply, compare_swap w v]
    rcases w.compare v with _ | _ | _ | _ <;> rfl
  le_swap := by
    simp only [BinaryOp.apply, compare_swap w v]
    rcases w.compare v with _ | _ | _ | _ <;> rfl
  asymmetric := by
    rw [holds_lt_iff, holds_lt_iff, compare_swap v w]
    rintro ⟨hlt, hgt⟩
    rw [hlt] at hgt
    cases hgt
  le_iff := by
    rw [holds_le_iff, holds_lt_iff, holds_ge_iff]
    rcases v.compare w with _ | _ | _ | _ <;> simp
  unordered hle hge := by
    have hnone := compare_eq_none hle hge
    exact ⟨isNaN_of_compare_eq_none hnone, fun _ => apply_of_compare_eq_none hnone⟩
  strings _ _ := stringOrderLaws

end Value

end CheckedExpr
