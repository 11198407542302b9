import CheckedExpr.Number.Words
import CheckedExpr.Proofs.WholeNumbers

/-!
# Steps of arithmetic that lose nothing

A finite number is a rational number, and an operation on numbers gives what is nearest to its exact
result. If the exact result fits into the format, then it is what the operation gives. Some steps
are exact whatever numbers they work on: to take the whole part, since it has no more bits than the
number; and to take a remainder, since it is below both numbers and on the grid of one of them.
Others are exact for whole numbers that are not too large.

* `value?`: the rational number that a number is.
* `value?_add`, `value?_truncate`, `value?_remainder`: what operations give, if the result fits.
* `value?_euclideanRemainder`: the remainder of whole numbers that is never negative.
* `toNat_toUInt32`: a number that is a word of 32 bits becomes this word.
-/

namespace CheckedExpr.Number

open Float.Model Float.Model.UnpackedFloat

/-! ### Values -/

/-- A magnitude with a sign. -/
def signed : Sign → ℚ → ℚ
  | .negative, q => -q
  | .positive, q => q

/-- The rational number that a number is, if it is finite. -/
def value? (x : Float) : Option ℚ :=
  match x.toModel.unpack with
  | .zero _ => some 0
  | .finite sign m e _ => some (signed sign (m * 2 ^ e))
  | .infinity _ | .notANumber => none

/-- Whether a magnitude fits into the format: with 53 bits, and neither too fine nor too large. -/
def Fits (q : ℚ) : Prop :=
  ∃ (m : ℕ) (e : ℤ), m < 2 ^ 53 ∧ -1074 ≤ e ∧ e ≤ 971 ∧ q = m * 2 ^ e

variable {x y : Float} {q r : ℚ} {sign : Sign} {m : ℕ} {e : ℤ}

/-- A sign on an integer is a sign on the rational number. -/
theorem signed_intCast_apply (sign : Sign) (n : ℕ) : ((sign.apply n : ℤ) : ℚ) = signed sign n := by
  cases sign with
  | negative => exact Int.cast_neg _
  | positive => rfl

/-- The magnitude of a number has no sign. -/
theorem abs_signed (sign : Sign) (hq : 0 ≤ q) : |signed sign q| = q := by
  cases sign with
  | negative => exact (abs_neg q).trans (abs_of_nonneg hq)
  | positive => exact abs_of_nonneg hq

theorem value?_of_zero (h : x.toModel.unpack = .zero sign) : value? x = some 0 := by
  unfold value?
  rw [h]

/-- A number with a mantissa is that mantissa on its grid. -/
theorem value?_of_finite {hm : 0 < m} (h : x.toModel.unpack = .finite sign m e hm) :
    value? x = some (signed sign (m * 2 ^ e)) := by
  unfold value?
  rw [h]

/-- A finite number is a zero, or has a mantissa. -/
theorem unpack_of_value? (h : value? x = some q) :
    (∃ sign, x.toModel.unpack = .zero sign ∧ q = 0) ∨
      ∃ sign m e, ∃ hm : 0 < m,
        x.toModel.unpack = .finite sign m e hm ∧ q = signed sign (m * 2 ^ e) := by
  unfold value? at h
  split at h
  next sign hunpack => exact Or.inl ⟨sign, hunpack, (Option.some.inj h).symm⟩
  next sign m e hm hunpack => exact Or.inr ⟨sign, m, e, hm, hunpack, (Option.some.inj h).symm⟩
  next => cases h
  next => cases h

/-- Finite numbers are those that are rational ones. -/
theorem isFinite_iff_exists_value? : x.isFinite = true ↔ ∃ q, value? x = some q := by
  change UnpackedFloat.isFinite x.toModel.unpack = true ↔ _
  unfold value?
  cases x.toModel.unpack <;> simp [UnpackedFloat.isFinite]

/-! ### What fits -/

theorem fits_natCast {n : ℕ} (h : n < 2 ^ 53) : Fits n :=
  ⟨n, 0, h, by norm_num, by norm_num, by simp⟩

/-- What a number is fits, of course. -/
theorem fits_of_unpack {hm : 0 < m} (h : x.toModel.unpack = .finite sign m e hm) :
    Fits (m * 2 ^ e) := by
  obtain ⟨hcanonical, he⟩ := canonical_of_unpack h
  exact ⟨m, e, hcanonical.lt, hcanonical.le, he, rfl⟩

/-- What fits is not changed by rounding. -/
theorem value?_nearest (sign : Sign) (hpos : 0 < q) (h : Fits q) :
    value? (.ofModel (.pack (nearest sign q))) = some (signed sign q) := by
  obtain ⟨a, k, ha, hk, hk', rfl⟩ := h
  have hapos : 0 < a := by
    by_contra hnot
    obtain rfl : a = 0 := by omega
    simp at hpos
  obtain ⟨m, e, hm, hcanonical, he, hvalue⟩ := exists_canonical hapos ha hk
  rw [← hvalue, nearest_of_canonical sign hm hcanonical]
  exact value?_of_finite (unpack_pack_of_canonical sign hm hcanonical (he.trans hk'))

/-- Rounding keeps what fits. -/
theorem value?_round (sign : Sign) (hm : 0 < m) (h : Fits (m * 2 ^ e)) :
    value? (.ofModel (.pack (UnpackedFloat.round .binary64 sign m e))) =
      some (signed sign (m * 2 ^ e)) := by
  rw [round_eq_nearest sign hm]
  exact value?_nearest sign (by positivity) h

/-! ### Whole numbers -/

/-- A whole number of 53 bits is exact. -/
theorem value?_ofNat {n : ℕ} (h : n < 2 ^ 53) : value? (Float.ofNat n) = some n := by
  obtain rfl | hn := Nat.eq_zero_or_pos n
  · rfl
  · rw [ofNat_eq_nearestNumber]
    exact value?_nearest .positive (by exact_mod_cast hn) (fits_natCast h)

/-- The negative of a number is exact. -/
theorem value?_neg (h : value? x = some q) : value? (-x) = some (-q) := by
  obtain ⟨sign, hunpack, rfl⟩ | ⟨sign, m, e, hm, hunpack, rfl⟩ := unpack_of_value? h
  · have hneg : (-x).toModel.unpack = .zero (-sign) := by
      change (Float.Model.pack (UnpackedFloat.neg x.toModel.unpack)).unpack = _
      rw [hunpack]
      cases sign <;> rfl
    rw [value?_of_zero hneg, neg_zero]
  · rw [value?_of_finite (unpack_neg hunpack)]
    cases sign with
    | negative => exact congrArg some (neg_neg _).symm
    | positive => rfl

/-- An integer with at most 53 bits is kept exactly. -/
theorem value?_ofInt {n : ℤ} (h : n.natAbs < 2 ^ 53) : value? (Float.ofInt n) = some (n : ℚ) := by
  cases n with
  | ofNat n => exact value?_ofNat h
  | negSucc n =>
    have hneg := value?_neg (value?_ofNat (n := n + 1) h)
    rw [Int.cast_negSucc]
    exact hneg

/-! ### Sums -/

/-- A mantissa that is moved to a finer grid keeps its value. -/
theorem aligned_value (m : ℕ) {e target : ℤ} (h : target ≤ e) :
    ((m * 2 ^ (e - target).toNat : ℕ) : ℚ) * 2 ^ target = m * 2 ^ e := by
  obtain ⟨n, rfl⟩ : ∃ n : ℕ, e = target + n := ⟨(e - target).toNat, by omega⟩
  have hshift : (target + n - target : ℤ).toNat = n := by omega
  rw [hshift, zpow_add₀ two_ne_zero, zpow_natCast]
  push_cast
  ring

/-- Moving a mantissa to a finer grid does not change the number. -/
theorem decreaseExponent_value (sign : Sign) (m : ℕ) {e target : ℤ} (h : target ≤ e) :
    ((sign.apply (decreaseExponent m e target).1 : ℤ) : ℚ) * 2 ^ target =
      signed sign (m * 2 ^ e) := by
  have hmantissa := aligned_value m h
  rw [← Nat.shiftLeft_eq] at hmantissa
  rw [signed_intCast_apply]
  cases sign with
  | negative => exact (neg_mul _ _).trans (congrArg Neg.neg hmantissa)
  | positive => exact hmantissa

/-- A sum of mantissas on one grid. -/
theorem value?_normalize {n : ℤ} (zero : Sign) (h : Fits |(n : ℚ) * 2 ^ e|) :
    value? (.ofModel (.pack (UnpackedFloat.normalize .binary64 n e zero))) =
      some ((n : ℚ) * 2 ^ e) := by
  unfold UnpackedFloat.normalize
  -- by the sign of the sum, as the format keeps a sign and a magnitude
  obtain hneg | rfl | hpos := lt_trichotomy n 0
  · obtain ⟨k, rfl⟩ : ∃ k : ℕ, n = -k := ⟨n.natAbs, by omega⟩
    have hk : 0 < k := by omega
    have hcompare : compare (-k : ℤ) 0 = .lt := Int.compare_eq_lt.mpr hneg
    have habs : |((-k : ℤ) : ℚ) * 2 ^ e| = k * 2 ^ e := by
      push_cast
      rw [neg_mul, abs_neg]
      exact abs_of_nonneg (by positivity)
    rw [habs] at h
    simp only [hcompare, neg_neg, Int.toNat_natCast]
    rw [value?_round .negative hk h, signed]
    push_cast
    rw [neg_mul]
  · have hcompare : compare (0 : ℤ) 0 = .eq := Int.compare_eq_eq.mpr rfl
    rw [Int.cast_zero, zero_mul]
    simp only [hcompare]
    cases zero <;> rfl
  · obtain ⟨k, rfl⟩ : ∃ k : ℕ, n = k := ⟨n.natAbs, by omega⟩
    have hk : 0 < k := by omega
    have hcompare : compare (k : ℤ) 0 = .gt := Int.compare_eq_gt.mpr hpos
    have habs : |((k : ℤ) : ℚ) * 2 ^ e| = k * 2 ^ e := abs_of_nonneg (by positivity)
    rw [habs] at h
    simp only [hcompare, Int.toNat_natCast]
    exact value?_round .positive hk h

/-- **A sum that fits is exact.** -/
theorem value?_add (hx : value? x = some q) (hy : value? y = some r) (h : Fits |q + r|) :
    value? (x + y) = some (q + r) := by
  change value? (.ofModel (.pack (UnpackedFloat.add .binary64 x.toModel.unpack _))) = _
  -- a zero on either side is a case of its own, as it has no mantissa
  obtain ⟨s, hunpack, rfl⟩ | ⟨s, m, e, hm, hunpack, rfl⟩ := unpack_of_value? hx
  · obtain ⟨s', hunpack', rfl⟩ | ⟨s', m', e', hm', hunpack', rfl⟩ := unpack_of_value? hy
    · rw [hunpack, hunpack', add_zero]
      cases s <;> cases s' <;> rfl
    · have hsum : UnpackedFloat.add .binary64 x.toModel.unpack y.toModel.unpack =
          y.toModel.unpack := by
        rw [hunpack, hunpack']
        rfl
      rw [hsum, pack_unpack, zero_add]
      exact hy
  · obtain ⟨s', hunpack', rfl⟩ | ⟨s', m', e', hm', hunpack', rfl⟩ := unpack_of_value? hy
    · have hsum : UnpackedFloat.add .binary64 x.toModel.unpack y.toModel.unpack =
          x.toModel.unpack := by
        rw [hunpack, hunpack']
        rfl
      rw [hsum, pack_unpack, add_zero]
      exact hx
    · -- both mantissas are moved to the finer grid, and added there
      rw [hunpack, hunpack']
      have hl := decreaseExponent_value s m (min_le_left e e')
      have hr := decreaseExponent_value s' m' (min_le_right e e')
      rw [← hl, ← hr, ← add_mul, ← Int.cast_add] at h ⊢
      exact value?_normalize .positive h

/-! ### Signs -/

/-- A number is below zero if the rational number is. -/
theorem lt_zero_iff (h : value? x = some q) : x < 0 ↔ q < 0 := by
  rw [lt_iff_lt_unpack, unpack_zero]
  obtain ⟨sign, hunpack, rfl⟩ | ⟨sign, m, e, hm, hunpack, rfl⟩ := unpack_of_value? h
  · rw [hunpack]
    cases sign <;> simp [UnpackedFloat.lt, UnpackedFloat.compare]
  · have hpos : (0 : ℚ) < m * 2 ^ e := by positivity
    rw [hunpack]
    cases sign with
    | negative => simpa [UnpackedFloat.lt, UnpackedFloat.compare, signed] using hpos
    | positive => simpa [UnpackedFloat.lt, UnpackedFloat.compare, signed] using hpos.le

/-- The magnitude of a number is exact. -/
theorem value?_abs (h : value? x = some q) : value? x.abs = some |q| := by
  change value? (.ofModel (.pack (UnpackedFloat.abs x.toModel.unpack))) = _
  obtain ⟨sign, hunpack, rfl⟩ | ⟨sign, m, e, hm, hunpack, rfl⟩ := unpack_of_value? h
  · rw [hunpack, abs_zero]
    cases sign <;> rfl
  · obtain ⟨hcanonical, he⟩ := canonical_of_unpack hunpack
    rw [hunpack, abs_signed sign (by positivity)]
    exact value?_of_finite (unpack_pack_of_canonical .positive hm hcanonical he)

/-! ### Whole parts -/

/-- The integer next to a rational number toward zero. -/
def towardZero (q : ℚ) : ℤ := if 0 ≤ q then ⌊q⌋ else ⌈q⌉

/-- The integer part of a number, toward zero. What is not finite counts as zero. -/
def integerPart (x : Float) : ℤ :=
  match value? x with
  | some q => towardZero q
  | none => 0

/-- An integer is its own whole part. -/
theorem towardZero_intCast (n : ℤ) : towardZero n = n := by
  unfold towardZero
  split_ifs with h
  · exact Int.floor_intCast n
  · exact Int.ceil_intCast n

/-- Toward zero, both signs go by the floor of the magnitude. -/
theorem towardZero_signed (sign : Sign) (hq : 0 ≤ q) :
    towardZero (signed sign q) = sign.apply ⌊q⌋₊ := by
  cases sign with
  | positive =>
    rw [towardZero, signed, if_pos hq]
    exact (Int.natCast_floor_eq_floor hq).symm
  | negative =>
    show towardZero (-q) = -(⌊q⌋₊ : ℤ)
    rw [Int.natCast_floor_eq_floor hq]
    -- hpos := hq.eq_or_lt | the negative of zero is not below zero
    obtain rfl | hpos := hq.eq_or_lt
    · simp [towardZero]
    · rw [towardZero, if_neg (by linarith), Int.ceil_neg]

/-- Shifting a mantissa to whole numbers takes what is behind the point off. -/
theorem floor_mul_zpow (m : ℕ) (e : ℤ) :
    ⌊(m * 2 ^ e : ℚ)⌋₊ = m * 2 ^ e.toNat / 2 ^ (-e).toNat := by
  obtain ⟨k, rfl | rfl⟩ := Int.eq_nat_or_neg e
  · have hzero : (-(k : ℤ)).toNat = 0 := by omega
    rw [hzero, pow_zero, Nat.div_one, Int.toNat_natCast, zpow_natCast]
    exact_mod_cast Nat.floor_natCast (R := ℚ) (m * 2 ^ k)
  · have hzero : (-(k : ℤ)).toNat = 0 := by omega
    rw [hzero, neg_neg, Int.toNat_natCast, pow_zero, mul_one, zpow_neg, zpow_natCast,
      ← div_eq_mul_inv]
    exact_mod_cast Nat.floor_div_eq_div (K := ℚ) m (2 ^ k)

/-- The program takes the whole part by shifting the mantissa. -/
theorem wholePart_of_finite {hm : 0 < m} (h : x.toModel.unpack = .finite sign m e hm) :
    wholePart x = sign.apply ⌊(m * 2 ^ e : ℚ)⌋₊ := by
  unfold wholePart
  rw [h, floor_mul_zpow]

/-- The whole part is told by the value. -/
theorem wholePart_of_value? (h : value? x = some q) : wholePart x = towardZero q := by
  obtain ⟨sign, hunpack, rfl⟩ | ⟨sign, m, e, hm, hunpack, rfl⟩ := unpack_of_value? h
  · unfold wholePart
    rw [hunpack]
    exact (towardZero_intCast 0).symm
  · rw [wholePart_of_finite hunpack, towardZero_signed sign (by positivity)]

/-- **The whole part that is computed is the integer part**, also of what is not finite. -/
theorem wholePart_eq_integerPart (x : Float) : wholePart x = integerPart x := by
  unfold integerPart
  split
  next q hvalue => exact wholePart_of_value? hvalue
  next hvalue =>
    unfold wholePart
    unfold value? at hvalue
    cases hunpack : x.toModel.unpack <;> simp_all

/-- The whole part of what fits has no more bits. -/
theorem fits_floor {hm : 0 < m} (h : x.toModel.unpack = .finite sign m e hm) :
    Fits ⌊(m * 2 ^ e : ℚ)⌋₊ := by
  have hfits := fits_of_unpack h
  obtain ⟨hcanonical, he⟩ := canonical_of_unpack h
  -- rfl⟩ | with a whole exponent there is nothing to cut off, and else the significand gets smaller
  obtain ⟨k, rfl | rfl⟩ := Int.eq_nat_or_neg e
  · have hwhole : (⌊(m * 2 ^ (k : ℤ) : ℚ)⌋₊ : ℚ) = m * 2 ^ (k : ℤ) := by
      rw [zpow_natCast]
      exact_mod_cast congrArg (Nat.cast (R := ℚ)) (Nat.floor_natCast (R := ℚ) (m * 2 ^ k))
    rwa [hwhole]
  · refine fits_natCast (lt_of_le_of_lt ?_ hcanonical.lt)
    rw [floor_mul_zpow, Int.toNat_neg_natCast, pow_zero, mul_one]
    exact Nat.div_le_self _ _

/-- **Taking the whole part is exact.** -/
theorem value?_truncate (h : value? x = some q) :
    value? (truncate x) = some (towardZero q : ℚ) := by
  have hwhole := wholePart_of_value? h
  obtain ⟨sign, hunpack, rfl⟩ | ⟨sign, m, e, hm, hunpack, rfl⟩ := unpack_of_value? h
  · have hself : truncate x = x := by
      unfold truncate
      rw [hunpack]
    rw [hself, h]
    exact congrArg some (by exact_mod_cast (congrArg Int.cast (towardZero_intCast 0)).symm)
  · rw [← hwhole, wholePart_of_finite hunpack, signed_intCast_apply]
    -- the magnitude of the whole part has no more bits than the number, so nothing is rounded
    have habs : (sign.apply ⌊(m * 2 ^ e : ℚ)⌋₊ : ℤ).natAbs = ⌊(m * 2 ^ e : ℚ)⌋₊ := by
      cases sign with
      | negative => exact Int.natAbs_neg _
      | positive => rfl
    have hfits := fits_floor hunpack
    unfold truncate
    simp only [hunpack, wholePart_of_finite hunpack, habs]
    split
    next hzero =>
      rw [hzero]
      cases sign <;> rfl
    next hpos =>
      have hround := value?_round sign (e := 0) (Nat.pos_of_ne_zero hpos)
      rw [zpow_zero, mul_one] at hround
      exact hround hfits

/-! ### Remainders -/

/-- What is left of whole multiples is a multiple of the same. -/
theorem mod_mul_eq {a b k l : ℕ} {t : ℚ} (ht : 0 < t) (hk : k * t = a) (hl : l * t = b) :
    ((k % l : ℕ) : ℚ) * t = (a % b : ℕ) := by
  have hquotient : k / l = a / b := by
    rw [← Nat.floor_div_eq_div (K := ℚ) k l, ← Nat.floor_div_eq_div (K := ℚ) a b, ← hk, ← hl,
      mul_div_mul_right _ _ ht.ne']
  have hsplit : (l : ℚ) * (k / l : ℕ) + (k % l : ℕ) = k := by exact_mod_cast Nat.div_add_mod k l
  have hsplit' : (b : ℚ) * (a / b : ℕ) + (a % b : ℕ) = a := by exact_mod_cast Nat.div_add_mod a b
  rw [hquotient] at hsplit
  calc ((k % l : ℕ) : ℚ) * t = k * t - l * t * (a / b : ℕ) := by linear_combination t * hsplit
    _ = a - b * (a / b : ℕ) := by rw [hk, hl]
    _ = (a % b : ℕ) := by linear_combination -hsplit'

/-- What is left of a number on the finer of two grids has no more bits than the numbers. -/
theorem mod_aligned_lt {m m' : ℕ} (hm : m < 2 ^ 53) (hm' : m' < 2 ^ 53) (hpos : 0 < m') (e e' : ℤ) :
    m * 2 ^ (e - min e e').toNat % (m' * 2 ^ (e' - min e e').toNat) < 2 ^ 53 := by
  -- one of the two numbers is not moved, and what is left is below the one and not above the other
  obtain h | h := le_total e e'
  · have hleft : (e - min e e').toNat = 0 := by omega
    rw [hleft, pow_zero, mul_one]
    exact (Nat.mod_le _ _).trans_lt hm
  · have hright : (e' - min e e').toNat = 0 := by omega
    rw [hright, pow_zero, mul_one]
    exact (Nat.mod_lt _ hpos).trans hm'

/-- A remainder has the sign of what is divided. -/
theorem tmod_apply (s s' : Sign) (a b : ℕ) :
    (s.apply a).tmod (s'.apply b) = s.apply (a % b : ℕ) := by
  have hmod : (a : ℤ).tmod b = (a % b : ℕ) := rfl
  cases s <;> cases s' <;> simp only [Sign.apply, Int.neg_tmod, Int.tmod_neg, hmod]

/-- A magnitude that is an integer up to its sign is a natural number. -/
theorem exists_natCast_of_signed {n : ℤ} (hq : 0 ≤ q) (h : signed sign q = n) :
    ∃ a : ℕ, q = a ∧ n = sign.apply a := by
  -- the sign is put on twice, which takes it off again
  have hint : q = (sign.apply n : ℤ) := by
    cases sign with
    | positive => exact h
    | negative =>
      show q = ((-n : ℤ) : ℚ)
      rw [Int.cast_neg, ← h, signed, neg_neg]
  have hnonneg : 0 ≤ sign.apply n := by
    rw [hint] at hq
    exact_mod_cast hq
  refine ⟨(sign.apply n).toNat, ?_, ?_⟩
  · rw [hint]
    exact_mod_cast (Int.toNat_of_nonneg hnonneg).symm
  · rw [Int.toNat_of_nonneg hnonneg]
    cases sign with
    | positive => rfl
    | negative => exact (neg_neg n).symm

/-- **Taking a remainder is exact.** What is left is smaller than the one number and, unless it is
the other number, it is a multiple of what that is a multiple of. -/
theorem value?_remainder {n d : ℤ} (hd : d ≠ 0) (hx : value? x = some (n : ℚ))
    (hy : value? y = some (d : ℚ)) : value? (remainder x y) = some ((n.tmod d : ℤ) : ℚ) := by
  obtain ⟨s', hunpack', hzero⟩ | ⟨s', m', e', hm', hunpack', hvalue'⟩ := unpack_of_value? hy
  · exact absurd (by exact_mod_cast hzero) hd
  obtain ⟨s, hunpack, hvalue⟩ | ⟨s, m, e, hm, hunpack, hvalue⟩ := unpack_of_value? hx
  · obtain rfl : n = 0 := by exact_mod_cast hvalue
    unfold remainder
    simp only [hunpack, hunpack', Int.zero_tmod]
    exact hx
  · obtain ⟨a, ha, rfl⟩ := exists_natCast_of_signed (by positivity) hvalue.symm
    obtain ⟨b, hb, rfl⟩ := exists_natCast_of_signed (by positivity) hvalue'.symm
    obtain ⟨hcanonical, he⟩ := canonical_of_unpack hunpack
    obtain ⟨hcanonical', he'⟩ := canonical_of_unpack hunpack'
    -- both numbers are multiples of one power of two, and so is what is left
    have hleft : ((m * 2 ^ (e - min e e').toNat % (m' * 2 ^ (e' - min e e').toNat) : ℕ) : ℚ) *
        2 ^ min e e' = (a % b : ℕ) :=
      mod_mul_eq (by positivity) ((aligned_value m (min_le_left e e')).trans ha)
        ((aligned_value m' (min_le_right e e')).trans hb)
    have hfits : Fits ((m * 2 ^ (e - min e e').toNat % (m' * 2 ^ (e' - min e e').toNat) : ℕ) *
        2 ^ min e e') :=
      ⟨_, _, mod_aligned_lt hcanonical.lt hcanonical'.lt hm' e e',
        le_min hcanonical.le hcanonical'.le, (min_le_left e e').trans he, rfl⟩
    rw [tmod_apply, signed_intCast_apply, ← hleft]
    unfold remainder
    simp only [hunpack, hunpack']
    split
    next hzero =>
      rw [hzero, Nat.cast_zero, zero_mul]
      cases s <;> rfl
    next hpos => exact value?_round s (Nat.pos_of_ne_zero hpos) hfits

/-- The remainder that is never negative, from the one with the sign of the first number. -/
theorem emod_eq_ite_tmod {d : ℕ} (hd : 0 < d) (n : ℤ) :
    n % d = if n.tmod d < 0 then n.tmod d + d else n.tmod d := by
  have hmod : n % d = n.tmod d % d := by
    conv_lhs => rw [← Int.tmod_add_mul_tdiv n d, Int.add_mul_emod_self_left]
  have hlow : -(d : ℤ) < n.tmod d := Int.lt_tmod_of_pos n (by omega)
  have hhigh : n.tmod d < d := Int.tmod_lt_of_pos n (by omega)
  split_ifs with hneg
  · rw [hmod, ← Int.add_emod_right, Int.emod_eq_of_lt (by omega) (by omega)]
  · rw [hmod, Int.emod_eq_of_lt (by omega) hhigh]

/-- **Making a remainder positive is exact.** -/
theorem value?_euclideanRemainder {n : ℤ} {d : ℕ} (hd : 0 < d) (hd53 : d < 2 ^ 53)
    (hx : value? x = some (n : ℚ)) (hy : value? y = some (d : ℚ)) :
    value? (euclideanRemainder x y) = some ((n % d : ℤ) : ℚ) := by
  have hleft : value? (remainder x y) = some ((n.tmod d : ℤ) : ℚ) :=
    value?_remainder (by omega) hx (by exact_mod_cast hy)
  have hsign : remainder x y < 0 ↔ n.tmod d < 0 := by
    rw [lt_zero_iff hleft]
    exact_mod_cast Iff.rfl
  have hlow : 0 ≤ n % d := Int.emod_nonneg n (by omega)
  have hhigh : n % d < d := Int.emod_lt_of_pos n (by omega)
  have hmod := emod_eq_ite_tmod hd n
  unfold euclideanRemainder
  simp only [hsign]
  split_ifs at hmod ⊢ with hneg
  · have habs : value? y.abs = some ((d : ℤ) : ℚ) := by
      have h := value?_abs hy
      rwa [abs_of_nonneg (by positivity)] at h
    -- the sum is below `d`, and so it fits
    have hfits : Fits |((n.tmod d : ℤ) : ℚ) + (d : ℤ)| := by
      obtain ⟨k, hk⟩ : ∃ k : ℕ, n % d = k := ⟨(n % d).toNat, by omega⟩
      have hnat : |((k : ℤ) : ℚ)| = (k : ℕ) := abs_of_nonneg (by positivity)
      rw [← Int.cast_add, ← hmod, hk, hnat]
      exact fits_natCast (by omega)
    rw [hmod, Int.cast_add]
    exact value?_add hleft habs hfits
  · rw [hmod]
    exact hleft

/-! ### Words -/

/-- Conversion to a word goes by the whole part too. -/
theorem roundToInt_eq (sign : Sign) (m : ℕ) (e : ℤ) :
    roundToInt sign m e = sign.apply ⌊(m * 2 ^ e : ℚ)⌋₊ := by
  have hshift : (0 - (e - ((e - 0).toNat : ℤ))).toNat = (-e).toNat := by omega
  -- the bits that are shifted out are those behind the point
  have hmantissa : (ExtendedMantissa.ofMantissaAndAccuracy (m * 2 ^ (e - 0).toNat) .exact >>>
      (-e).toNat).mantissa = m * 2 ^ e.toNat / 2 ^ (-e).toNat := by
    have hlocate := shiftRight_locate ((m * 2 ^ e.toNat : ℕ) : ℚ) (-e).toNat
    rw [locate_natCast] at hlocate
    rw [sub_zero]
    show ((⟨m * 2 ^ e.toNat, false, false⟩ : ExtendedMantissa) >>> (-e).toNat).mantissa = _
    rw [hlocate]
    show ⌊((m * 2 ^ e.toNat : ℕ) : ℚ) / 2 ^ (-e).toNat⌋₊ = _
    exact_mod_cast Nat.floor_div_eq_div (K := ℚ) (m * 2 ^ e.toNat) (2 ^ (-e).toNat)
  unfold roundToInt decreaseExponent shiftToExponent
  dsimp only
  rw [hshift, Nat.shiftLeft_eq, hmantissa, floor_mul_zpow]

/-- A number that is a word becomes the word. -/
theorem toNat_toUInt32 {n : ℕ} (hn : n < 2 ^ 32) (h : value? x = some (n : ℚ)) :
    x.toUInt32.toNat = n := by
  have hint : x.toModel.unpack.toInt 0 (UInt32.size - 1) = n := by
    -- the number is zero, or it is cut off to the whole number it is
    obtain ⟨sign, hunpack, hzero⟩ | ⟨sign, m, e, hm, hunpack, hvalue⟩ := unpack_of_value? h
    · obtain rfl : n = 0 := by exact_mod_cast hzero
      rw [hunpack]
      rfl
    · rw [hunpack]
      show roundToInt sign m e = n
      rw [roundToInt_eq, ← wholePart_of_finite hunpack, wholePart_of_value? h]
      exact_mod_cast towardZero_intCast n
  show (UInt32.ofNatClamp (x.toModel.unpack.toInt 0 (UInt32.size - 1)).toNat).toNat = n
  rw [hint, Int.toNat_natCast, UInt32.toNat_ofNatClamp_of_lt hn]

end CheckedExpr.Number
