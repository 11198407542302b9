import CheckedExpr.Numeral
import CheckedExpr.Proofs.Rounding

/-!
# Numbers without a sign

A numeral has no sign, and so has the number that it stands for: it is a zero, a finite number or an
infinity, all of the positive sign, and it is a number. It is computed in rounded steps, so this is
a matter of what the steps do to the bits of a number.

* `IsUnsigned.unpack_pack`: putting a number into bits keeps its sign, also where it overflows.
* `IsUnsigned.mul`, `IsUnsigned.div`, `IsUnsigned.add`: the steps. An infinity times zero would be
  no number, so the second of two factors has to be proper, which is to say finite and no zero.
* `Numeral.unsigned_value`: what a numeral stands for has no sign, and so is not below zero.
-/

namespace CheckedExpr.Number

open Float.Model Float.Model.UnpackedFloat

/-- Numbers of the positive sign. -/
inductive IsUnsigned : UnpackedFloat → Prop
  | infinity : IsUnsigned (.infinity .positive)
  | zero : IsUnsigned (.zero .positive)
  | finite (mantissa : Nat) (exponent : Int) (hpos : 0 < mantissa) :
    IsUnsigned (.finite .positive mantissa exponent hpos)

/-- Whether a number is finite and greater than zero. -/
def isProper : UnpackedFloat → Bool
  | .finite .positive _ _ _ => true
  | _ => false

/-- A proper number has a mantissa. -/
theorem exists_of_isProper {f : UnpackedFloat} (h : isProper f = true) :
    ∃ mantissa exponent hpos, f = .finite .positive mantissa exponent hpos := by
  unfold isProper at h
  split at h
  · exact ⟨_, _, _, rfl⟩
  · cases h

/-! ### Bits -/

/-- Bits with the positive sign are no number only if the exponent has all its bits and the mantissa
has any. -/
theorem isUnsigned_unpack_packComponents {format : Format} {exponent : BitVec format.exponentBits}
    {mantissa : BitVec format.mantissaBitsWithoutImplicit} (h : exponent = -1#_ → mantissa = 0#_) :
    IsUnsigned (UnpackedFloat.unpack format
      (packComponents format .positive exponent mantissa)) := by
  unfold UnpackedFloat.unpack
  simp only [unpackMantissa_packComponents, unpackExponent_packComponents,
    UnpackedFloat.unpackSign_packComponents, Sign.ofBitVec_toBitVec]
  -- the exponent with all its bits set is the one case that could be no number
  split_ifs with hexponent hmantissa hexponent hmantissa
  · exact .infinity
  · exact absurd (h hexponent) hmantissa
  · exact .zero
  · exact .finite _ _ _
  · exact .finite _ _ _

/-- **Bits keep the sign**, also of a number that is too large for them. -/
theorem IsUnsigned.unpack_pack {f : UnpackedFloat} (h : IsUnsigned f) :
    IsUnsigned (Float.Model.pack f).unpack := by
  change IsUnsigned (UnpackedFloat.unpack Format.binary64 (UnpackedFloat.pack Format.binary64 f))
  cases h with
  | infinity => exact isUnsigned_unpack_packComponents fun _ => rfl
  | zero => exact isUnsigned_unpack_packComponents fun _ => rfl
  | finite mantissa exponent hpos =>
    unfold UnpackedFloat.pack
    dsimp only
    -- too large, with a leading bit, and without one
    split_ifs with hoverflow hnormal
    · exact isUnsigned_unpack_packComponents fun _ => rfl
    · -- the exponent fits, so it does not have all its bits
      refine isUnsigned_unpack_packComponents fun hall => absurd (congrArg BitVec.toNat hall) ?_
      rw [BitVec.toNat_ofNat, BitVec.neg_one_eq_allOnes, BitVec.toNat_allOnes]
      refine Nat.ne_of_lt (Nat.lt_of_le_of_lt (Nat.mod_le _ _) ?_)
      omega
    · exact isUnsigned_unpack_packComponents fun hall => absurd hall (by decide)

/-! ### Rounding -/

/-- Rounding keeps the sign that it is given. -/
theorem isUnsigned_roundWithAccuracy (format : Format) (mantissa : Nat) (exponent : Int)
    (accuracy : Accuracy) :
    IsUnsigned (roundWithAccuracy format .positive mantissa exponent accuracy) := by
  unfold roundWithAccuracy
  dsimp only
  split_ifs
  · exact .zero
  · exact .finite _ _ _

/-- A mantissa that is not negative makes a number without a sign. -/
theorem isUnsigned_normalize (format : Format) {mantissa : Int} (h : 0 ≤ mantissa)
    (exponent : Int) :
    IsUnsigned (UnpackedFloat.normalize format mantissa exponent .positive) := by
  unfold UnpackedFloat.normalize
  split
  next hlt => exact absurd (Int.compare_eq_lt.mp hlt) (Int.not_lt.mpr h)
  next => exact .zero
  next => exact isUnsigned_roundWithAccuracy _ _ _ _

/-! ### Steps -/

/-- A product keeps the sign off. -/
theorem IsUnsigned.mul {x y : UnpackedFloat} (format : Format) (hx : IsUnsigned x)
    (hy : isProper y = true) : IsUnsigned (UnpackedFloat.mul format x y) := by
  obtain ⟨mantissa, exponent, hpos, rfl⟩ := exists_of_isProper hy
  cases hx with
  | infinity => exact .infinity
  | zero => exact .zero
  | finite => exact isUnsigned_roundWithAccuracy _ _ _ _

theorem IsUnsigned.div {x y : UnpackedFloat} (format : Format) (hx : IsUnsigned x)
    (hy : isProper y = true) : IsUnsigned (UnpackedFloat.div format x y) := by
  obtain ⟨mantissa, exponent, hpos, rfl⟩ := exists_of_isProper hy
  cases hx with
  | infinity => exact .infinity
  | zero => exact .zero
  | finite => exact isUnsigned_roundWithAccuracy _ _ _ _

/-- A sum keeps the sign off. -/
theorem IsUnsigned.add {x y : UnpackedFloat} (format : Format) (hx : IsUnsigned x)
    (hy : IsUnsigned y) : IsUnsigned (UnpackedFloat.add format x y) := by
  cases hx with
  | infinity =>
    cases hy with
    | infinity | zero | finite => exact .infinity
  | zero =>
    cases hy with
    | infinity => exact .infinity
    | zero => exact .zero
    | finite => exact .finite _ _ _
  | finite =>
    cases hy with
    | infinity => exact .infinity
    | zero => exact .finite _ _ _
    | finite =>
      -- the sum of two whole numbers that are not negative is not negative
      refine isUnsigned_normalize _ ?_ _
      exact Int.add_nonneg (Int.natCast_nonneg _) (Int.natCast_nonneg _)

/-! ### Decimals -/

/-- Whole numbers of any size have no sign, and are multiplied or divided by such numbers. -/
theorem isUnsigned_ofScientific (format : Format) (mantissa : Nat) (exponent : Int) :
    IsUnsigned (UnpackedFloat.ofScientific format mantissa exponent) := by
  unfold UnpackedFloat.ofScientific
  split_ifs
  · exact .zero
  · exact .infinity
  · exact .zero
  · exact (IsUnsigned.finite _ _ _).mul format rfl
  · exact (IsUnsigned.finite _ _ _).div format rfl

/-- Whether a number is of the positive sign, and a number. -/
def Unsigned (x : Float) : Prop := IsUnsigned x.toModel.unpack

/-- Numbers in bits go through the operations as their unpacked forms do. -/
theorem Unsigned.mul {x y : Float} (hx : Unsigned x) (hy : isProper y.toModel.unpack = true) :
    Unsigned (x * y) :=
  (IsUnsigned.mul _ hx hy).unpack_pack

theorem Unsigned.div {x y : Float} (hx : Unsigned x) (hy : isProper y.toModel.unpack = true) :
    Unsigned (x / y) :=
  (IsUnsigned.div _ hx hy).unpack_pack

theorem Unsigned.add {x y : Float} (hx : Unsigned x) (hy : Unsigned y) : Unsigned (x + y) :=
  (IsUnsigned.add _ hx hy).unpack_pack

theorem unsigned_toFloat (n : UInt64) : Unsigned n.toFloat :=
  (isUnsigned_normalize _ (Int.natCast_nonneg _) _).unpack_pack

/-- The powers of ten that are kept in a table are finite, and no zeros. -/
theorem isProper_powersOfTen {exponent : Nat}
    (h : exponent < Float.exactlyRepresentablePowersOfTen.size) :
    isProper Float.exactlyRepresentablePowersOfTen[exponent].toModel.unpack = true := by
  have hall : Float.exactlyRepresentablePowersOfTen.all (isProper ·.toModel.unpack) = true := by
    decide +kernel
  exact Array.all_eq_true.mp hall exponent h

/-- Both ways to compute a decimal keep it. -/
theorem unsigned_ofScientific (mantissa : Nat) (negative : Bool) (exponent : Nat) :
    Unsigned (Float.ofScientific mantissa negative exponent) := by
  unfold Float.ofScientific
  split
  next hsmall =>
    dsimp only
    split
    · exact (unsigned_toFloat _).div (isProper_powersOfTen _)
    · exact (unsigned_toFloat _).mul (isProper_powersOfTen _)
  next => exact (isUnsigned_ofScientific _ _ _).unpack_pack

/-- A number of the positive sign is not below zero. -/
theorem Unsigned.nonneg {x : Float} (h : Unsigned x) : 0 ≤ x ∧ x.isNaN = false := by
  have hzero : (0 : Float).toModel.unpack = .zero .positive := by
    rfl
  have hcompare : UnpackedFloat.le (.zero .positive) x.toModel.unpack = true ∧
      UnpackedFloat.isNaN x.toModel.unpack = false := by
    unfold Unsigned at h
    generalize x.toModel.unpack = f at h
    cases h with
    | infinity | zero | finite => exact ⟨rfl, rfl⟩
  rw [← hzero] at hcompare
  exact ⟨decide_eq_true hcompare.1, hcompare.2⟩

end CheckedExpr.Number

namespace CheckedExpr

open Number

theorem unsigned_nearestDecimal (mantissa : Nat) (exponent : Int) :
    Unsigned (nearestDecimal mantissa exponent) :=
  unsigned_ofScientific _ _ _

/-- **What a numeral stands for is of the positive sign.** -/
theorem Numeral.unsigned_value (n : Numeral) : Unsigned n.value := by
  cases n with
  | decimal d => exact unsigned_nearestDecimal _ _
  | hex marker digits =>
    -- digit by digit: a product with sixteen and a sum with a digit
    have hfold (x : Float) (hx : Unsigned x) : Unsigned (digits.foldl shiftIn x) := by
      induction digits generalizing x with
      | nil => exact hx
      | cons c digits ih =>
        have hsixteen : isProper (16 : Float).toModel.unpack = true := by
          decide +kernel
        exact ih _ ((hx.mul hsixteen).add (unsigned_ofScientific _ _ _))
    exact hfold 0 (unsigned_ofScientific _ _ _)

end CheckedExpr
