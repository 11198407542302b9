import CheckedExpr.Numeral
import CheckedExpr.Proofs.Rounding

/-!
# Decimals are rounded once

The number of a decimal is computed in one of two ways: as a product or a quotient of two numbers
that are exact, if the digits and the power of ten are small, and otherwise from a product or a
quotient of whole numbers of any size. Powers of ten out of all proportion are decided without any
computation. Whichever way it is, the result is the number nearest to the decimal.

* `round_eq_nearest`, `mul_eq_nearest`, `div_eq_nearest`, `add_eq_nearest`: operations give the
  number that is nearest to the exact result.
* `pack_nearest_of_large`, `nearest_of_small`: what is beyond all numbers is infinite, and what is
  below half of the least one is zero.
* `nearestDecimal_eq_nearestNumber`: the number of a decimal is the nearest one.
-/

namespace CheckedExpr.Number

open Float.Model Float.Model.UnpackedFloat

/-! ### Operations -/

theorem div_zpow_self (m : ℚ) (e : ℤ) : m * 2 ^ e / 2 ^ e = m :=
  mul_div_cancel_right₀ m (zpow_ne_zero e two_ne_zero)

/-- A whole mantissa is rounded correctly if it has bits enough, or all that there are. -/
theorem roundWithAccuracy_exact (sign : Sign) {m : ℕ} {e : ℤ} (hm : 0 < m)
    (h : 2 ^ 52 ≤ m ∨ e ≤ -1074) :
    roundWithAccuracy .binary64 sign m e .exact = nearest sign (m * 2 ^ e) := by
  have hscale := div_zpow_self m e
  have hlog : Int.log 2 (m * 2 ^ e : ℚ) = m.log2 + e := by
    have hone : (1 : ℚ) ≤ m * 2 ^ e / 2 ^ e := by
      rw [hscale]
      exact_mod_cast hm
    rw [log_eq_log2_floor hone, hscale, Nat.floor_natCast]
  refine roundWithAccuracy_eq_nearest (by positivity) ?_ ?_ (Or.inl hm)
  · rw [hscale, locate_natCast]
    rfl
  · rw [grid, hlog]
    -- the significand has all its bits, or the exponent is the least one
    rcases h with hfull | he
    · have : 52 ≤ m.log2 := (Nat.le_log2 hm.ne').mpr hfull
      omega
    · omega

/-- **Rounding gives the nearest number**, however many bits the mantissa has. -/
theorem round_eq_nearest (sign : Sign) {m : ℕ} {e : ℤ} (hm : 0 < m) :
    UnpackedFloat.round .binary64 sign m e = nearest sign (m * 2 ^ e) := by
  unfold UnpackedFloat.round decreaseExponent
  dsimp only
  obtain ⟨n, hn⟩ : ∃ n : ℕ,
      (e - Format.binary64.targetExponent (totalExponent m e)).toNat = n := ⟨_, rfl⟩
  rw [hn, Nat.shiftLeft_eq]
  rw [targetExponent_binary64, totalExponent] at hn
  rw [roundWithAccuracy_exact sign (by positivity)]
  · congr 1
    push_cast
    rw [zpow_sub₀ two_ne_zero, zpow_natCast]
    field_simp
  -- a short mantissa is shifted until it has bits enough, or until the grid is the finest one
  · by_cases he : e - n ≤ -1074
    · exact Or.inr he
    · left
      calc 2 ^ 52 ≤ 2 ^ (m.log2 + n) := Nat.pow_le_pow_right (by norm_num) (by omega)
        _ = 2 ^ m.log2 * 2 ^ n := pow_add _ _ _
        _ ≤ m * 2 ^ n := by
          gcongr
          exact Nat.log2_self_le hm.ne'

/-- A product is rounded correctly if its factors have bits enough, which is so if one of them has
all 53. -/
theorem mul_eq_nearest (s₁ s₂ : Sign) {m₁ m₂ : ℕ} {e₁ e₂ : ℤ} (h₁ : 0 < m₁) (h₂ : 0 < m₂)
    (h : 2 ^ 52 ≤ m₁ * m₂ ∨ e₁ + e₂ ≤ -1074) :
    UnpackedFloat.mul .binary64 (.finite s₁ m₁ e₁ h₁) (.finite s₂ m₂ e₂ h₂) =
      nearest (s₁ * s₂) (m₁ * 2 ^ e₁ * (m₂ * 2 ^ e₂)) := by
  refine (roundWithAccuracy_exact (s₁ * s₂) (Nat.mul_pos h₁ h₂) h).trans ?_
  congr 1
  push_cast
  rw [zpow_add₀ two_ne_zero]
  ring

/-- A quotient is rounded correctly, since it is computed on a grid that is fine enough. -/
theorem div_eq_nearest (s₁ s₂ : Sign) {m₁ m₂ : ℕ} {e₁ e₂ : ℤ} (h₁ : 0 < m₁) (h₂ : 0 < m₂) :
    UnpackedFloat.div .binary64 (.finite s₁ m₁ e₁ h₁) (.finite s₂ m₂ e₂ h₂) =
      nearest (s₁ / s₂) (m₁ * 2 ^ e₁ / (m₂ * 2 ^ e₂)) := by
  obtain ⟨q, hq⟩ : ∃ q : ℚ, q = m₁ * 2 ^ e₁ / (m₂ * 2 ^ e₂) := ⟨_, rfl⟩
  have hpos : 0 < q := by rw [hq]; positivity
  -- the quotient has as many digits as the difference of the exponents says, or one fewer
  have hlog : m₁.log2 + e₁ - (m₂.log2 + 1 + e₂) ≤ Int.log 2 q := by
    rw [le_log_iff hpos]
    have hnum : (2 : ℚ) ^ m₁.log2 ≤ m₁ := by exact_mod_cast Nat.log2_self_le h₁.ne'
    have hden : (m₂ : ℚ) ≤ 2 ^ (m₂.log2 + 1) := by exact_mod_cast Nat.lt_log2_self.le
    rw [hq, zpow_sub₀ two_ne_zero, zpow_add₀ two_ne_zero, zpow_add₀ two_ne_zero,
      ← Nat.cast_succ, zpow_natCast, zpow_natCast]
    gcongr
  obtain ⟨target, htarget⟩ : ∃ target : ℤ, target = min (e₁ - e₂)
      (Format.binary64.targetExponent (totalExponent m₁ e₁ - totalExponent m₂ e₂)) := ⟨_, rfl⟩
  have htarget' := htarget
  rw [targetExponent_binary64, totalExponent, totalExponent] at htarget'
  obtain ⟨n, hn⟩ : ∃ n : ℕ, (e₁ - e₂ - target).toNat = n := ⟨_, rfl⟩
  have hscale : q / 2 ^ target = ((m₁ * 2 ^ n : ℕ) : ℚ) / m₂ := by
    have hexponent : e₁ = e₂ + target + n := by omega
    rw [hq, hexponent, zpow_add₀ two_ne_zero, zpow_add₀ two_ne_zero, zpow_natCast]
    push_cast
    field_simp
  unfold UnpackedFloat.div divCore
  dsimp only
  rw [← htarget, hn, Nat.shiftLeft_eq, ← hq]
  refine roundWithAccuracy_eq_nearest hpos ?_ ?_ ?_
  · rw [hscale, locate_div _ h₂]
  · unfold grid
    omega
  · by_cases he : target ≤ -1074
    · exact Or.inr he
    · left
      have hone : 1 ≤ q / 2 ^ target := by
        rw [one_le_div (by positivity)]
        exact (le_log_iff hpos _).mp (by omega)
      rw [hscale, one_le_div (by positivity)] at hone
      exact Nat.div_pos (by exact_mod_cast hone) h₂

/-- A sum of positive numbers is computed exactly and then rounded. -/
theorem add_eq_nearest {m₁ m₂ : ℕ} {e₁ e₂ : ℤ} (h₁ : 0 < m₁) (h₂ : 0 < m₂) :
    UnpackedFloat.add .binary64 (.finite .positive m₁ e₁ h₁) (.finite .positive m₂ e₂ h₂) =
      nearest .positive (m₁ * 2 ^ e₁ + m₂ * 2 ^ e₂) := by
  -- both mantissas are moved to the finer grid, where the sum is one of whole numbers
  obtain ⟨e, he⟩ : ∃ e, e = min e₁ e₂ := ⟨_, rfl⟩
  obtain ⟨n₁, hn₁⟩ : ∃ n : ℕ, e₁ = e + n := ⟨(e₁ - e).toNat, by omega⟩
  obtain ⟨n₂, hn₂⟩ : ∃ n : ℕ, e₂ = e + n := ⟨(e₂ - e).toNat, by omega⟩
  have hshift₁ : (e₁ - e).toNat = n₁ := by omega
  have hshift₂ : (e₂ - e).toNat = n₂ := by omega
  have hpos : 0 < m₁ * 2 ^ n₁ + m₂ * 2 ^ n₂ := by positivity
  have hgt : compare ((m₁ * 2 ^ n₁ : ℕ) + (m₂ * 2 ^ n₂ : ℕ) : ℤ) 0 = .gt :=
    Int.compare_eq_gt.mpr (by exact_mod_cast hpos)
  have hnat : ((m₁ * 2 ^ n₁ : ℕ) + (m₂ * 2 ^ n₂ : ℕ) : ℤ).toNat = m₁ * 2 ^ n₁ + m₂ * 2 ^ n₂ := by
    omega
  unfold UnpackedFloat.add UnpackedFloat.normalize decreaseExponent
  simp only [← he, hshift₁, hshift₂, Nat.shiftLeft_eq, Sign.apply, hgt, hnat]
  rw [round_eq_nearest .positive hpos]
  congr 1
  rw [hn₁, hn₂, zpow_add₀ two_ne_zero, zpow_add₀ two_ne_zero, zpow_natCast, zpow_natCast]
  push_cast
  ring

/-! ### Numbers out of range -/

/-- From 2^1024 on there is nothing but infinity. -/
theorem pack_nearest_of_large (sign : Sign) {q : ℚ} (hq : 2 ^ (1024 : ℤ) ≤ q) :
    Float.Model.pack (nearest sign q) = Float.Model.pack (.infinity sign) := by
  have hpos : 0 < q := lt_of_lt_of_le (by positivity) hq
  have hlog : 1024 ≤ Int.log 2 q := (le_log_iff hpos _).mpr hq
  have hgrid : grid q = Int.log 2 q - 52 := max_eq_left (by omega)
  have hone : 1 ≤ q / 2 ^ grid q := by
    rw [one_le_div (by positivity)]
    exact (le_log_iff hpos _).mp (by omega)
  have hrounded := (Nat.floor_pos.mpr hone).trans_le (floor_le_roundedMantissa (q / 2 ^ grid q)).1
  -- whether or not rounding carries, the exponent is past the greatest one
  unfold nearest carry
  split_ifs
  · omega
  · exact pack_of_large sign _ (by omega)
  · exact pack_of_large sign _ (by omega)

/-- The number nearest to nothing is zero, with the sign that is asked for. -/
theorem nearest_zero (sign : Sign) : nearest sign 0 = .zero sign := by
  have hlocate : locate (0 / 2 ^ grid 0) = ⟨0, false, false⟩ := by
    rw [zero_div]
    exact_mod_cast locate_natCast 0
  unfold nearest
  rw [hlocate]
  rfl

/-- Below half of the least number there is nothing but zero. -/
theorem nearest_of_small (sign : Sign) {q : ℚ} (hpos : 0 < q) (hq : q < 2 ^ (-1075 : ℤ)) :
    nearest sign q = .zero sign := by
  have hlog : Int.log 2 q < -1075 := (log_lt_iff hpos _).mpr hq
  have hgrid : grid q = -1074 := max_eq_right (by omega)
  -- twice the number is below one unit of the finest grid, so it is rounded down
  have hhalf : 2 * (q / 2 ^ (-1074 : ℤ)) < 1 := by
    calc 2 * (q / 2 ^ (-1074 : ℤ)) < 2 * (2 ^ (-1075 : ℤ) / 2 ^ (-1074 : ℤ)) := by gcongr
      _ = 1 := by
        rw [← zpow_sub₀ two_ne_zero]
        norm_num
  have hdouble : ⌊2 * (q / 2 ^ (-1074 : ℤ))⌋₊ = 0 := Nat.floor_eq_zero.mpr hhalf
  have hfloor : ⌊q / 2 ^ (-1074 : ℤ)⌋₊ = 0 := Nat.floor_eq_zero.mpr (by linarith)
  have hrounded : (locate (q / 2 ^ (-1074 : ℤ))).roundedMantissa = 0 := by
    unfold locate
    rw [hfloor, hdouble]
    cases decide (((0 : ℕ) : ℚ) ≠ 2 * (q / 2 ^ (-1074 : ℤ))) <;> rfl
  rw [nearest, hgrid, hrounded]
  rfl

/-! ### Decimals -/

/-- Whether bits are those of a power of ten. -/
def isPowerOfTen (exponent : ℕ) : UnpackedFloat → Bool
  | .finite .positive mantissa power _ =>
    2 ^ 52 ≤ mantissa && mantissa * 2 ^ power.toNat == 10 ^ exponent * 2 ^ (-power).toNat
  | _ => false

theorem isPowerOfTen_powersOfTen : ∀ i : Fin Float.exactlyRepresentablePowersOfTen.size,
    isPowerOfTen i Float.exactlyRepresentablePowersOfTen[i].toModel.unpack = true := by
  decide +kernel

/-- A power of ten that is kept in the table has bits enough and is exact. -/
theorem exists_unpack_powerOfTen {exponent : ℕ}
    (h : exponent < Float.exactlyRepresentablePowersOfTen.size) :
    ∃ (m : ℕ) (e : ℤ) (hm : 0 < m),
      Float.exactlyRepresentablePowersOfTen[exponent].toModel.unpack = .finite .positive m e hm ∧
      2 ^ 52 ≤ m ∧ (m * 2 ^ e : ℚ) = 10 ^ exponent := by
  have hpower := isPowerOfTen_powersOfTen ⟨exponent, h⟩
  rw [Fin.getElem_fin] at hpower
  -- the table was checked entry by entry, in whole numbers
  unfold isPowerOfTen at hpower
  split at hpower
  next m e hm hunpack =>
    simp only [Bool.and_eq_true, decide_eq_true_eq, beq_iff_eq] at hpower
    refine ⟨m, e, hm, hunpack, hpower.1, ?_⟩
    have hvalue : (m * 2 ^ e.toNat : ℚ) = 10 ^ exponent * 2 ^ (-e).toNat := by
      exact_mod_cast hpower.2
    -- the exponent may be negative, so it is taken apart
    have hsplit : e = e.toNat - (-e).toNat := by omega
    rw [hsplit, zpow_sub₀ two_ne_zero, zpow_natCast, zpow_natCast, ← mul_div_assoc, hvalue]
    field_simp
  next => exact absurd hpower (by decide)

/-- The number nearest to a magnitude, infinite if that is too large. -/
def nearestNumber (q : ℚ) : Float := .ofModel (.pack (nearest .positive q))

/-- What fits into the format is its own nearest number. -/
theorem unpack_nearestNumber {m : ℕ} {e : ℤ} (hm : 0 < m) (h : Canonical m e) (he : e ≤ 971) :
    (nearestNumber (m * 2 ^ e)).toModel.unpack = .finite .positive m e hm := by
  rw [nearestNumber, nearest_of_canonical .positive hm h]
  exact unpack_pack_of_canonical .positive hm h he

/-- A word of 64 bits becomes the nearest number. -/
theorem toFloat_eq_nearestNumber (n : UInt64) : n.toFloat = nearestNumber n.toNat := by
  change Float.ofModel (.pack (UnpackedFloat.normalize .binary64 n.toNat 0 .positive)) = _
  unfold nearestNumber UnpackedFloat.normalize
  obtain hzero | hpos := Nat.eq_zero_or_pos n.toNat
  · rw [hzero, Nat.cast_zero, Nat.cast_zero, nearest_zero]
    rfl
  · have hgt : compare (n.toNat : ℤ) 0 = .gt := Int.compare_eq_gt.mpr (by exact_mod_cast hpos)
    simp only [hgt, Int.toNat_natCast, round_eq_nearest .positive hpos, zpow_zero, mul_one]

/-- A small whole number is exact. -/
theorem exists_unpack_toFloat {m : ℕ} (hm : 0 < m) (hlt : m < 2 ^ 53) :
    ∃ (m' : ℕ) (e : ℤ) (hm' : 0 < m'),
      m.toUInt64.toFloat.toModel.unpack = .finite .positive m' e hm' ∧ (m' * 2 ^ e : ℚ) = m := by
  have hword : m.toUInt64.toNat = m := by
    rw [Nat.toUInt64, UInt64.toNat_ofNat']
    omega
  obtain ⟨m', e, hm', hcanonical, he, hvalue⟩ := exists_canonical (k := 0) hm hlt (by norm_num)
  rw [zpow_zero, mul_one] at hvalue
  refine ⟨m', e, hm', ?_, hvalue⟩
  rw [toFloat_eq_nearestNumber, hword, ← hvalue]
  exact unpack_nearestNumber hm' hcanonical (by omega)

/-- Zero is apart from the others, since it has no mantissa. -/
theorem toFloat_zero_unpack : (0 : ℕ).toUInt64.toFloat.toModel.unpack = .zero .positive := by
  rfl

/-- The first way, for a power that is not negative: two exact numbers, so only the product
rounds. -/
theorem toFloat_mul_powerOfTen {m exponent : ℕ} (hlt : m < 2 ^ 53)
    (h : exponent < Float.exactlyRepresentablePowersOfTen.size) :
    m.toUInt64.toFloat * Float.exactlyRepresentablePowersOfTen[exponent] =
      nearestNumber (m * 10 ^ exponent) := by
  obtain ⟨p, e, hp, hpower, hfull, hvalue⟩ := exists_unpack_powerOfTen h
  change Float.ofModel (.pack (UnpackedFloat.mul .binary64 _ _)) = _
  rw [hpower, ← hvalue]
  -- zero has no finite unpacked form, and its product is zero
  obtain rfl | hm := Nat.eq_zero_or_pos m
  · rw [toFloat_zero_unpack, nearestNumber, Nat.cast_zero, zero_mul, nearest_zero]
    rfl
  · obtain ⟨m', e', hm', hunpack, hvalue'⟩ := exists_unpack_toFloat hm hlt
    rw [hunpack, mul_eq_nearest _ _ hm' hp (Or.inl (hfull.trans (Nat.le_mul_of_pos_left _ hm'))),
      hvalue']
    rfl

/-- The first way, for a negative power: two exact numbers, so only the quotient rounds. -/
theorem toFloat_div_powerOfTen {m exponent : ℕ} (hlt : m < 2 ^ 53)
    (h : exponent < Float.exactlyRepresentablePowersOfTen.size) :
    m.toUInt64.toFloat / Float.exactlyRepresentablePowersOfTen[exponent] =
      nearestNumber (m / 10 ^ exponent) := by
  obtain ⟨p, e, hp, hpower, -, hvalue⟩ := exists_unpack_powerOfTen h
  change Float.ofModel (.pack (UnpackedFloat.div .binary64 _ _)) = _
  rw [hpower, ← hvalue]
  -- zero has no finite unpacked form, and its quotient is zero
  obtain rfl | hm := Nat.eq_zero_or_pos m
  · rw [toFloat_zero_unpack, nearestNumber, Nat.cast_zero, zero_div, nearest_zero]
    rfl
  · obtain ⟨m', e', hm', hunpack, hvalue'⟩ := exists_unpack_toFloat hm hlt
    rw [hunpack, div_eq_nearest _ _ hm' hp, hvalue']
    rfl

/-- A power that is out of all proportion leads beyond all numbers. -/
theorem le_of_large_power {m : ℕ} {e : ℤ} (hm : 0 < m) (he : 2048 < e) :
    (2 : ℚ) ^ (1024 : ℤ) ≤ m * 10 ^ e := by
  have hone : (1 : ℚ) ≤ m := by exact_mod_cast hm
  calc (2 : ℚ) ^ (1024 : ℤ) ≤ 2 ^ e := zpow_le_zpow_right₀ one_le_two (by omega)
    _ ≤ 10 ^ e := zpow_le_zpow_left₀ (by omega) (by norm_num) (by norm_num)
    _ ≤ m * 10 ^ e := le_mul_of_one_le_left (by positivity) hone

/-- A power that is as far below leads to less than half of the least number. -/
theorem lt_of_small_power {m : ℕ} {e : ℤ} (he : e < -(2048 + (m.log2 : ℤ))) :
    (m * 10 ^ e : ℚ) < 2 ^ (-1075 : ℤ) := by
  obtain ⟨n, rfl⟩ : ∃ n : ℕ, e = -n := ⟨(-e).toNat, by omega⟩
  -- a power of ten with a negative exponent is at most the power of two
  calc (m * 10 ^ (-n : ℤ) : ℚ) < 2 ^ (m.log2 + 1) * 10 ^ (-n : ℤ) := by
        gcongr
        exact_mod_cast Nat.lt_log2_self
    _ ≤ 2 ^ (m.log2 + 1) * 2 ^ (-n : ℤ) := by
        rw [zpow_neg, zpow_neg, zpow_natCast, zpow_natCast]
        gcongr
        norm_num
    _ = 2 ^ (m.log2 + 1 - n : ℤ) := by
        rw [zpow_sub₀ two_ne_zero, ← Nat.cast_succ, zpow_natCast, zpow_neg]
        rfl
    _ ≤ 2 ^ (-1075 : ℤ) := zpow_le_zpow_right₀ one_le_two (by omega)

/-- The way for decimals of any size, by integers. -/
theorem ofScientific_eq_nearest (m : ℕ) (e : ℤ) :
    Float.Model.ofScientific m e = Float.Model.pack (nearest .positive (m * 10 ^ e)) := by
  unfold Float.Model.ofScientific UnpackedFloat.ofScientific
  split_ifs with hzero hlarge hsmall he
  -- the cases are zero, the two cut-offs, and the two signs of the power
  · rw [hzero, Nat.cast_zero, zero_mul, nearest_zero]
  · have hm : 0 < m := Nat.pos_of_ne_zero hzero
    exact (pack_nearest_of_large .positive (le_of_large_power hm hlarge)).symm
  · have hm : 0 < m := Nat.pos_of_ne_zero hzero
    rw [nearest_of_small .positive (by positivity) (lt_of_small_power hsmall)]
  · obtain ⟨n, rfl⟩ : ∃ n : ℕ, e = n := ⟨e.toNat, by omega⟩
    have hm : 0 < m := Nat.pos_of_ne_zero hzero
    rw [mul_eq_nearest]
    · push_cast
      rw [zpow_natCast, Int.toNat_natCast, Nat.shiftLeft_eq]
      push_cast
      congr 2
      norm_num [Format.mantissaBits]
      ring
    · left
      rw [Nat.shiftLeft_eq]
      calc 2 ^ 52 ≤ 1 * 2 ^ 53 * 1 := by norm_num
        _ ≤ m * 2 ^ 53 * 10 ^ ((n : ℤ).toNat) := by
          gcongr
          · exact hm
          · exact Nat.one_le_pow _ _ (by norm_num)
  · obtain ⟨n, rfl⟩ : ∃ n : ℕ, e = -n := ⟨(-e).toNat, by omega⟩
    rw [div_eq_nearest]
    congr 2
    push_cast
    rw [neg_neg, Int.toNat_natCast, zpow_neg, zpow_natCast]
    norm_num
    rfl

end CheckedExpr.Number

namespace CheckedExpr

open Number

/-- **A decimal stands for the number nearest to it.** -/
theorem nearestDecimal_eq_nearestNumber (mantissa : ℕ) (power : ℤ) :
    nearestDecimal mantissa power = nearestNumber (mantissa * 10 ^ power) := by
  unfold nearestDecimal Float.ofScientific
  obtain ⟨n, hn⟩ : ∃ n, power.natAbs = n := ⟨_, rfl⟩
  rw [hn]
  -- the sign of the power tells products from quotients, and their size the two ways
  by_cases hneg : power < 0
  · obtain rfl : power = -n := by omega
    simp only [hneg, decide_true, if_true]
    split_ifs with hsmall
    · rw [toFloat_div_powerOfTen hsmall.1, zpow_neg, zpow_natCast, div_eq_mul_inv]
    · rw [nearestNumber, ofScientific_eq_nearest, Int.negOfNat_eq]
      rfl
  · obtain rfl : power = n := by omega
    simp only [hneg, decide_false, Bool.false_eq_true, if_false]
    split_ifs with hsmall
    · rw [toFloat_mul_powerOfTen hsmall.1, zpow_natCast]
    · rw [nearestNumber, ofScientific_eq_nearest]
      rfl

end CheckedExpr
