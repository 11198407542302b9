import CheckedExpr.Number.Words
import CheckedExpr.Proofs.NumberText

/-!
# Whole numbers

Natural numbers with at most 53 bits are numbers of the format, so nothing is lost if one is used as
a number: not its value (`toNat?_ofNat`), not its place in the order (`ofNat_lt_ofNat`), and not its
digits (`numberText_ofNat`). The last is the one that needs an argument. The shortest digits are
looked for on coarse grids first, and a neighbour on a grid that is coarser than the whole numbers
reads back only if it is the number itself: it is an even number with at most one bit more, so it is
a number of the format too.

Larger natural numbers are rounded, but not past a number of the format: a number that is whole and
below the rounded length of a row is below the length itself (`lt_of_toNat?_of_lt`).
-/

namespace CheckedExpr

namespace Number

open Float.Model Float.Model.UnpackedFloat

/-! ### Rounding keeps the order -/

/-- Rounding to whole numbers does not pass one. -/
theorem roundedMantissa_le_of_le {t : ℚ} {n : ℕ} (hpos : 0 ≤ t) (h : t ≤ n) :
    (locate t).roundedMantissa ≤ n := by
  obtain hlt | heq := (Nat.floor_le_of_le h).lt_or_eq
  · exact (floor_le_roundedMantissa t).2.trans hlt
  · have hle : (n : ℚ) ≤ t := by
      rw [← heq]
      exact Nat.floor_le hpos
    rw [le_antisymm h hle, locate_natCast]
    exact le_refl n

/-- A smaller number is rounded on a finer grid, or on the same one. -/
theorem grid_le_of_le {q : ℚ} {m : ℕ} {e : ℤ} (hq : 0 < q) (hm : 0 < m) (hc : Canonical m e)
    (h : q ≤ m * 2 ^ e) : grid q ≤ e := by
  rw [← hc.grid_eq hm]
  exact max_le_max_right _ (sub_le_sub_right (Int.log_mono_right hq h) _)

/-- Rounding on the grid does not pass a number that is on the grid. -/
theorem roundedMantissa_mul_le {q : ℚ} {m : ℕ} {e : ℤ} (hq : 0 < q) (hgrid : grid q ≤ e)
    (h : q ≤ m * 2 ^ e) :
    ((locate (q / 2 ^ grid q)).roundedMantissa * 2 ^ grid q : ℚ) ≤ m * 2 ^ e := by
  obtain ⟨g, hg⟩ : ∃ g, g = grid q := ⟨_, rfl⟩
  rw [← hg] at hgrid ⊢
  -- the bound is on the coarser grid, so it is a whole number on this one too
  obtain ⟨n, rfl⟩ : ∃ n : ℕ, e = g + n := ⟨(e - g).toNat, by omega⟩
  have hscale : (m * 2 ^ (g + n : ℤ) : ℚ) = (m * 2 ^ n : ℕ) * 2 ^ g := by
    rw [zpow_add₀ two_ne_zero, zpow_natCast]
    push_cast
    ring
  have hbound : q / 2 ^ g ≤ (m * 2 ^ n : ℕ) := by
    rw [div_le_iff₀ (by positivity), ← hscale]
    exact h
  rw [hscale]
  gcongr
  exact roundedMantissa_le_of_le (by positivity) hbound

/-- A number that is not too small keeps all its bits. -/
theorem full_le_roundedMantissa {q : ℚ} (hq : 1 ≤ q) :
    2 ^ 52 ≤ (locate (q / 2 ^ grid q)).roundedMantissa := by
  have hpos : 0 < q := lt_of_lt_of_le one_pos hq
  have hlog : 0 ≤ Int.log 2 q := (le_log_iff hpos 0).mpr (by simpa using hq)
  -- from one on, the grid is given by the logarithm and not by the least exponent
  have hgrid : grid q = Int.log 2 q - 52 := max_eq_left (by omega)
  refine le_trans ?_ (floor_le_roundedMantissa _).1
  refine Nat.le_floor ?_
  rw [le_div_iff₀ (by positivity)]
  calc ((2 ^ 52 : ℕ) : ℚ) * 2 ^ grid q = 2 ^ (52 + grid q) := by
        rw [zpow_add₀ two_ne_zero]
        norm_num
    _ ≤ q := (le_log_iff hpos _).mp (by omega)

/-- A mantissa with all bits is a number of the format, also if it has one bit too many. -/
theorem exists_carry_eq_finite (sign : Sign) {r : ℕ} {g : ℤ} (hfull : 2 ^ 52 ≤ r)
    (hmax : r ≤ 2 ^ 53) (hg : -1074 ≤ g) :
    ∃ (m : ℕ) (e : ℤ) (hm : 0 < m), carry sign r g = .finite sign m e hm ∧
      Canonical m e ∧ (m * 2 ^ e : ℚ) = r * 2 ^ g := by
  obtain hlt | rfl := hmax.lt_or_eq
  · have hr : 0 < r := by omega
    exact ⟨r, g, hr, carry_eq_finite sign g hr hlt, ⟨hlt, hg, Or.inl hfull⟩, rfl⟩
  -- rounded up to the next power of two, the significand loses a bit to the exponent
  · refine ⟨2 ^ 52, g + 1, by positivity, ?_, ⟨by norm_num, by omega, Or.inl le_rfl⟩, ?_⟩
    · simp [carry]
    · rw [zpow_add₀ two_ne_zero]
      push_cast
      ring

/-- Numbers of the format are ordered by their exponents first. -/
theorem lt_of_lex {m m' : ℕ} {e e' : ℤ} (hc : Canonical m e) (hc' : Canonical m' e')
    (h : e < e' ∨ e = e' ∧ m < m') : (m * 2 ^ e : ℚ) < m' * 2 ^ e' := by
  -- a smaller exponent means fewer bits above, as the larger number has all its 53
  rcases h with hlt | ⟨rfl, hlt⟩
  · have hm : (m : ℚ) < 2 ^ 53 := by exact_mod_cast hc.lt
    have hle := hc.le
    have hfull : (2 : ℚ) ^ 52 ≤ m' := by
      exact_mod_cast hc'.full.resolve_right (by omega)
    calc (m * 2 ^ e : ℚ) < 2 ^ 53 * 2 ^ e := by gcongr
      _ = 2 ^ 52 * 2 ^ (e + 1) := by rw [zpow_add₀ two_ne_zero]; ring
      _ ≤ m' * 2 ^ e' := by
        gcongr
        · exact one_le_two
        · omega
  · have hlt' : (m : ℚ) < m' := by exact_mod_cast hlt
    gcongr

/-- So the order of numbers is that of exponents and mantissas. -/
theorem lex_iff_lt {m m' : ℕ} {e e' : ℤ} (hc : Canonical m e) (hc' : Canonical m' e') :
    (e < e' ∨ e = e' ∧ m < m') ↔ (m * 2 ^ e : ℚ) < m' * 2 ^ e' := by
  refine ⟨lt_of_lex hc hc', fun h => ?_⟩
  by_contra hnot
  by_cases heq : e = e' ∧ m = m'
  · rw [heq.1, heq.2] at h
    exact lt_irrefl _ h
  · exact lt_asymm h (lt_of_lex hc' hc (by omega))

/-- What is rounded does not pass a number of the format. -/
theorem exists_nearest_eq_finite {q : ℚ} {m : ℕ} {e : ℤ} (sign : Sign) (hq : 1 ≤ q) (hm : 0 < m)
    (hc : Canonical m e) (h : q ≤ m * 2 ^ e) :
    ∃ (m' : ℕ) (e' : ℤ) (hm' : 0 < m'), nearest sign q = .finite sign m' e' hm' ∧
      Canonical m' e' ∧ e' ≤ e ∧ (m' * 2 ^ e' : ℚ) ≤ m * 2 ^ e := by
  have hpos : 0 < q := lt_of_lt_of_le one_pos hq
  obtain ⟨m', e', hm', hcarry, hc', hvalue⟩ := exists_carry_eq_finite sign
    (full_le_roundedMantissa hq) (roundedMantissa_le hpos) (le_max_right _ _)
  have hle : (m' * 2 ^ e' : ℚ) ≤ m * 2 ^ e := by
    rw [hvalue]
    exact roundedMantissa_mul_le hpos (grid_le_of_le hpos hm hc h) h
  refine ⟨m', e', hm', hcarry, hc', ?_, hle⟩
  -- a larger exponent would make a larger number
  by_contra hnot
  exact absurd (lt_of_lex hc hc' (Or.inl (not_le.mp hnot))) (not_lt.mpr hle)

theorem lt_iff_lt_unpack {x y : Float} :
    x < y ↔ UnpackedFloat.lt x.toModel.unpack y.toModel.unpack = true :=
  decide_eq_true_iff

/-- The order of positive numbers is that of their values. -/
theorem lt_iff_of_unpack {x y : Float} {m m' : ℕ} {e e' : ℤ} {hm : 0 < m} {hm' : 0 < m'}
    (hx : x.toModel.unpack = .finite .positive m e hm)
    (hy : y.toModel.unpack = .finite .positive m' e' hm') :
    x < y ↔ (m * 2 ^ e : ℚ) < m' * 2 ^ e' := by
  rw [lt_iff_lt_unpack, hx, hy, ← lex_iff_lt (canonical_of_unpack hx).1 (canonical_of_unpack hy).1]
  unfold UnpackedFloat.lt UnpackedFloat.compare
  simp only [beq_iff_eq, Option.some.injEq, Ordering.then_eq_lt, compare_lt_iff_lt,
    compare_eq_iff_eq]

/-- What has a mantissa is equal to itself. -/
theorem beq_self_of_unpack {x : Float} {sign : Sign} {m : ℕ} {e : ℤ} {hm : 0 < m}
    (h : x.toModel.unpack = .finite sign m e hm) : (x == x) = true := by
  rw [Float.beq_self_iff]
  rintro rfl
  cases h

/-! ### Whole numbers -/

/-- A natural number that is used as a number is rounded once. -/
theorem ofNat_eq_nearestNumber (n : ℕ) : Float.ofNat n = nearestNumber n := by
  have h := nearestDecimal_eq_nearestNumber n 0
  rw [zpow_zero, mul_one] at h
  exact h

/-- A natural number with at most 53 bits is kept exactly. -/
theorem exists_unpack_ofNat {n : ℕ} (hn : 0 < n) (hlt : n < 2 ^ 53) :
    ∃ (m : ℕ) (e : ℤ) (hm : 0 < m),
      (Float.ofNat n).toModel.unpack = .finite .positive m e hm ∧ (m * 2 ^ e : ℚ) = n := by
  obtain ⟨m, e, hm, hc, he, hvalue⟩ := exists_canonical (k := 0) hn hlt (by norm_num)
  rw [zpow_zero, mul_one] at hvalue
  refine ⟨m, e, hm, ?_, hvalue⟩
  rw [ofNat_eq_nearestNumber, ← hvalue]
  exact unpack_nearestNumber hm hc (by omega)

/-- A number with a mantissa is whole if its value is a natural number. -/
theorem toNat?_finite {x : Float} {m n : ℕ} {e : ℤ} {hm : 0 < m}
    (h : x.toModel.unpack = .finite .positive m e hm) :
    toNat? x = some n ↔ (m * 2 ^ e : ℚ) = n := by
  unfold toNat?
  simp only [h]
  -- by the sign of the exponent: the mantissa is multiplied, or has to be divisible
  obtain ⟨k, rfl | rfl⟩ := Int.eq_nat_or_neg e
  · have hzero : (-(k : ℤ)).toNat = 0 := by omega
    simp only [hzero, pow_zero, Nat.mod_one, if_true, Int.toNat_natCast, Nat.div_one,
      Option.some.injEq, zpow_natCast]
    norm_cast
  · have hzero : (-(k : ℤ)).toNat = 0 := by omega
    simp only [hzero, neg_neg, Int.toNat_natCast, pow_zero, mul_one, zpow_neg, zpow_natCast,
      Option.ite_none_right_eq_some, Option.some.injEq]
    rw [← div_eq_mul_inv, div_eq_iff (by positivity)]
    norm_cast
    constructor
    · rintro ⟨hdvd, rfl⟩
      exact (Nat.div_mul_cancel (Nat.dvd_of_mod_eq_zero hdvd)).symm
    · rintro rfl
      exact ⟨Nat.mul_mod_left _ _, Nat.mul_div_cancel _ (by positivity)⟩

/-- A number is the natural number that is its value. -/
theorem toNat?_eq_some_iff {x : Float} {n : ℕ} :
    toNat? x = some n ↔ ((∃ sign, x.toModel.unpack = .zero sign) ∧ n = 0) ∨
      ∃ (m : ℕ) (e : ℤ) (hm : 0 < m),
        x.toModel.unpack = .finite .positive m e hm ∧ (m * 2 ^ e : ℚ) = n := by
  cases hunpack : x.toModel.unpack with
  | notANumber => simp [toNat?, hunpack]
  | infinity sign => simp [toNat?, hunpack]
  | zero sign => simp [toNat?, hunpack, eq_comm]
  | finite sign m e hm =>
    cases sign with
    | negative => simp [toNat?, hunpack]
    | positive =>
      -- only here is there a whole number other than zero
      rw [toNat?_finite hunpack]
      constructor
      · exact fun h => Or.inr ⟨m, e, hm, rfl, h⟩
      · rintro (⟨⟨sign, hzero⟩, -⟩ | ⟨m', e', hm', heq, h⟩)
        · cases hzero
        · cases heq
          exact h

/-- **A natural number of 53 bits is not changed** by being made a number. -/
theorem toNat?_ofNat {n : ℕ} (hlt : n < 2 ^ 53) : toNat? (Float.ofNat n) = some n := by
  obtain rfl | hn := Nat.eq_zero_or_pos n
  · rfl
  · obtain ⟨m, e, hm, hunpack, hvalue⟩ := exists_unpack_ofNat hn hlt
    exact (toNat?_finite hunpack).mpr hvalue

/-- A number that is whole is below a length only if it is so as a natural number, although the
length may have been rounded. -/
theorem lt_of_toNat?_of_lt {x : Float} {i n : ℕ} (hi : toNat? x = some i)
    (hlt : x < Float.ofNat n) : i < n := by
  -- a length that is not above the index is not rounded past it
  by_contra hnot
  have hle : n ≤ i := not_lt.mp hnot
  obtain rfl | hn := Nat.eq_zero_or_pos n
  · -- nothing that is a natural number is below zero
    have hzero : (Float.ofNat 0).toModel.unpack = .zero .positive := rfl
    rw [lt_iff_lt_unpack, hzero] at hlt
    rcases toNat?_eq_some_iff.mp hi with ⟨⟨sign, hunpack⟩, -⟩ | ⟨m, e, hm, hunpack, -⟩
    · rw [hunpack] at hlt
      exact absurd hlt (by cases sign <;> decide)
    · rw [hunpack] at hlt
      cases hlt
  · rcases toNat?_eq_some_iff.mp hi with ⟨-, rfl⟩ | ⟨m, e, hm, hunpack, hvalue⟩
    · omega
    · obtain ⟨hcanonical, he⟩ := canonical_of_unpack hunpack
      have hbound : (n : ℚ) ≤ m * 2 ^ e := by
        rw [hvalue]
        exact_mod_cast hle
      obtain ⟨m', e', hm', hnearest, hcanonical', he', hvalue'⟩ :=
        exists_nearest_eq_finite .positive (by exact_mod_cast hn) hm hcanonical hbound
      have hlength : (Float.ofNat n).toModel.unpack = .finite .positive m' e' hm' := by
        rw [ofNat_eq_nearestNumber, nearestNumber, hnearest]
        exact unpack_pack_of_canonical .positive hm' hcanonical' (he'.trans he)
      exact absurd ((lt_iff_of_unpack hunpack hlength).mp hlt) (not_lt.mpr hvalue')

/-- The order of natural numbers of 53 bits stays, too. -/
theorem ofNat_lt_ofNat {i n : ℕ} (hi : i < n) (hn : n < 2 ^ 53) :
    Float.ofNat i < Float.ofNat n := by
  obtain ⟨m, e, hm, hunpack, hvalue⟩ := exists_unpack_ofNat (Nat.zero_lt_of_lt hi) hn
  obtain rfl | hpos := Nat.eq_zero_or_pos i
  · have hzero : (Float.ofNat 0).toModel.unpack = .zero .positive := rfl
    rw [lt_iff_lt_unpack, hzero, hunpack]
    rfl
  · obtain ⟨m', e', hm', hunpack', hvalue'⟩ := exists_unpack_ofNat hpos (hi.trans hn)
    rw [lt_iff_of_unpack hunpack' hunpack, hvalue, hvalue']
    exact_mod_cast hi

/-! ### Whole numbers are written in their digits -/

end Number

namespace Shortest

open Float.Model Float.Model.UnpackedFloat Number

/-- A fraction that is a natural number. -/
structure Fraction.IsWhole (f : Fraction) (n : ℕ) : Prop where
  denominator_pos : 0 < f.denominator
  numerator_eq : f.numerator = n * f.denominator

/-- On a grid that is finer than the whole numbers, nothing is cut off. -/
theorem floor_scale_natCast {f : Fraction} {n : ℕ} (hf : f.IsWhole n) (p : ℕ) :
    (f.scale p).floor = n * 10 ^ p := by
  have hzero : (-(p : ℤ)).toNat = 0 := by omega
  simp only [Fraction.floor, Fraction.scale, hzero, Int.toNat_natCast, pow_zero, mul_one,
    hf.numerator_eq]
  rw [mul_right_comm, Nat.mul_div_cancel _ hf.denominator_pos]

/-- On a coarser one, digits are cut off at the end. -/
theorem floor_scale_neg {f : Fraction} {n : ℕ} (hf : f.IsWhole n) (p : ℕ) :
    (f.scale (-p)).floor = n / 10 ^ p := by
  have hzero : (-(p : ℤ)).toNat = 0 := by omega
  simp only [Fraction.floor, Fraction.scale, hzero, neg_neg, Int.toNat_natCast, pow_zero,
    mul_one, hf.numerator_eq]
  rw [mul_comm n, Nat.mul_div_mul_left _ _ hf.denominator_pos]

/-- The power of ten of a natural number is told by how many digits it has. -/
theorem magnitude_eq {f : Fraction} {n : ℕ} (hn : 0 < n) (hf : f.IsWhole n) :
    f.magnitude = (Nat.toDigits 10 n).length - 1 := by
  have hdigits (k : ℕ) :
      ((Nat.toDigits 10 (f.scale k).floor).length : ℤ) = (Nat.toDigits 10 n).length + k := by
    rw [floor_scale_natCast hf, toDigits_mul_pow hn, List.length_append, List.length_replicate]
    push_cast
    rfl
  have hmoved := hdigits 324
  rw [Nat.cast_ofNat] at hmoved
  rw [Fraction.magnitude, hmoved]
  ring

/-- The binary fraction of a whole number is whole. -/
theorem isWhole_ofBinary {m : ℕ} {e : ℤ} {n : ℕ} (h : (m * 2 ^ e : ℚ) = n) :
    (Fraction.ofBinary m e).IsWhole n := by
  refine ⟨Nat.two_pow_pos _, ?_⟩
  unfold Fraction.ofBinary
  simp only
  -- an exponent from zero on multiplies, a negative one divides
  obtain ⟨k, rfl | rfl⟩ := Int.eq_nat_or_neg e
  · have hzero : (-(k : ℤ)).toNat = 0 := by omega
    rw [zpow_natCast] at h
    simp only [hzero, Int.toNat_natCast, pow_zero, mul_one]
    exact_mod_cast h
  · have hzero : (-(k : ℤ)).toNat = 0 := by omega
    rw [zpow_neg, zpow_natCast, ← div_eq_mul_inv, div_eq_iff (by positivity)] at h
    simp only [hzero, neg_neg, Int.toNat_natCast, pow_zero, mul_one]
    exact_mod_cast h

/-- Whole numbers with at most 53 bits, and even ones with one more, are numbers of the format. -/
theorem eq_of_nearestNumber_eq {a b : ℕ} (ha : 0 < a) (hb : 0 < b) (halt : a < 2 ^ 54)
    (heven : a % 2 = 0) (hblt : b < 2 ^ 53) (h : nearestNumber a = nearestNumber b) : a = b := by
  obtain ⟨m, e, hm, hc, he, hvalue⟩ :=
    exists_canonical (k := 1) (a := a / 2) (by omega) (by omega) (by norm_num)
  obtain ⟨m', e', hm', hc', he', hvalue'⟩ := exists_canonical (k := 0) hb hblt (by norm_num)
  have hvalue₂ : (m * 2 ^ e : ℚ) = a := by
    rw [hvalue, zpow_one]
    exact_mod_cast Nat.div_mul_cancel (Nat.dvd_of_mod_eq_zero heven)
  rw [zpow_zero, mul_one] at hvalue'
  -- the two numbers have one unpacked form, and the form has the value of either
  have hunpack := unpack_nearestNumber hm hc (by omega)
  rw [hvalue₂, h, ← hvalue', unpack_nearestNumber hm' hc' (by omega)] at hunpack
  cases hunpack
  exact_mod_cast hvalue₂.symm.trans hvalue'

/-- Where a grid is as fine as the whole numbers, what is found is the number itself. -/
theorem exactValue_of_fine {x : Float} {f : Fraction} {n p : ℕ} (hf : f.IsWhole n)
    (hx : (nearestNumber n == x) = true) {d : Decimals}
    (hfound : (if (f.scale p).isUpperHalf then
      [⟨(f.scale p).floor + 1, -p⟩, ⟨(f.scale p).floor, -p⟩]
      else [⟨(f.scale p).floor, -p⟩, ⟨(f.scale p).floor + 1, -p⟩] : List Decimals).find?
        (·.value == x) = some d) : d.exactValue = n := by
  -- nothing is behind the digits, so the lower neighbour is tried first, and it is the number
  have hlower : (f.scale p).isUpperHalf = false := by
    have hzero : (-(p : ℤ)).toNat = 0 := by omega
    simp only [Fraction.isUpperHalf, Fraction.scale, hzero, Int.toNat_natCast, pow_zero, mul_one,
      hf.numerator_eq, decide_eq_false_iff_not, not_le]
    rw [mul_right_comm, Nat.mul_mod_left, mul_zero]
    exact hf.denominator_pos
  have hexact : (⟨n * 10 ^ p, -p⟩ : Decimals).exactValue = n := by
    simp only [Decimals.exactValue, zpow_neg, zpow_natCast]
    push_cast
    field_simp
  rw [hlower, floor_scale_natCast hf, if_neg Bool.false_ne_true, List.find?_cons_of_pos] at hfound
  · obtain rfl := Option.some.inj hfound
    exact hexact
  · rw [Decimals.value_eq, hexact]
    exact hx

/-- On a coarser grid, only a neighbour that is the number itself reads back as it. -/
theorem exactValue_of_coarse {n p mantissa : ℕ} (hp : 0 < p) (hle : 10 ^ p ≤ n) (hlt : n < 2 ^ 53)
    (hmantissa : mantissa = n / 10 ^ p ∨ mantissa = n / 10 ^ p + 1)
    (hvalue : (⟨mantissa, p⟩ : Decimals).value = nearestNumber n) :
    (⟨mantissa, p⟩ : Decimals).exactValue = n := by
  have hten : 0 < 10 ^ p := by positivity
  have hwhole : (⟨mantissa, p⟩ : Decimals).exactValue = (mantissa * 10 ^ p : ℕ) := by
    simp only [Decimals.exactValue, zpow_natCast]
    push_cast
    rfl
  -- ten is even, so a neighbour on a coarser grid has no more bits than the format
  have heven : mantissa * 10 ^ p % 2 = 0 :=
    Nat.mod_eq_zero_of_dvd ((dvd_pow (by norm_num) hp.ne').mul_left mantissa)
  have hbounds : 0 < mantissa * 10 ^ p ∧ mantissa * 10 ^ p ≤ n + 10 ^ p := by
    generalize 10 ^ p = t at hle hmantissa hten
    have hone : 1 ≤ n / t := Nat.div_pos hle hten
    have hfloor := Nat.div_mul_le_self n t
    refine ⟨Nat.mul_pos (by omega) hten, ?_⟩
    rcases hmantissa with rfl | rfl
    · omega
    · rw [add_mul, one_mul]
      omega
  have hlt' : mantissa * 10 ^ p < 2 ^ 54 := by
    calc mantissa * 10 ^ p ≤ n + 10 ^ p := hbounds.2
      _ ≤ n + n := Nat.add_le_add_left hle n
      _ < 2 ^ 54 := by omega
  rw [Decimals.value_eq, hwhole] at hvalue
  rw [hwhole, eq_of_nearestNumber_eq hbounds.1 (hten.trans_le hle) hlt' heven hlt hvalue]

/-- Grids with more digits than the number has are fine, those with fewer are coarse. -/
theorem exactValue_of_onGrid? {x : Float} {n m : ℕ} {e : ℤ} {hm : 0 < m} {k : ℕ} {d : Decimals}
    (hunpack : x.toModel.unpack = .finite .positive m e hm) (hvalue : (m * 2 ^ e : ℚ) = n)
    (hlt : n < 2 ^ 53) (hfound : onGrid? x (.ofBinary m e) (k + 1) = some d) :
    d.exactValue = n := by
  obtain ⟨f, hfbinary⟩ : ∃ f, f = Fraction.ofBinary m e := ⟨_, rfl⟩
  have hf : f.IsWhole n := by
    rw [hfbinary]
    exact isWhole_ofBinary hvalue
  have hn : 0 < n := by
    have hpositive : (0 : ℚ) < n := by
      rw [← hvalue]
      positivity
    exact_mod_cast hpositive
  have hx : nearestNumber n = x := by
    rw [← hvalue]
    exact nearestNumber_of_unpack hunpack
  have hself : (nearestNumber n == x) = true := by
    rw [hx]
    exact beq_self_of_unpack hunpack
  obtain ⟨D, hD⟩ : ∃ D, D = (Nat.toDigits 10 n).length := ⟨_, rfl⟩
  have hDpos : 0 < D := hD ▸ Nat.length_toDigits_pos
  rw [← hfbinary, onGrid?, magnitude_eq hn hf, ← hD] at hfound
  -- the number of digits that is tried tells on which side of the whole numbers the grid is
  obtain ⟨p, hfine | hcoarse⟩ := Int.eq_nat_or_neg (((k + 1 : ℕ) : ℤ) - 1 - ((D : ℤ) - 1))
  · rw [hfine] at hfound
    exact exactValue_of_fine hf hself hfound
  · rw [hcoarse] at hfound
    obtain rfl | hp := Nat.eq_zero_or_pos p
    · exact exactValue_of_fine (p := 0) hf hself hfound
    · have hle : 10 ^ p ≤ n := by
        by_contra hnot
        have hshort := (Nat.length_toDigits_le_iff (by norm_num) hp).mpr (not_le.mp hnot)
        omega
      have hvalue : d.value = nearestNumber n := by
        rw [hx]
        exact eq_of_beq_of_unpack hunpack
          (List.find?_some (p := fun d : Decimals => d.value == x) hfound)
      have hmem := List.mem_of_find?_eq_some hfound
      rw [floor_scale_neg hf, neg_neg] at hmem
      have hneighbour : d = ⟨n / 10 ^ p, p⟩ ∨ d = ⟨n / 10 ^ p + 1, p⟩ := by
        split at hmem <;> simp only [List.mem_cons, List.not_mem_nil, or_false] at hmem
        · exact hmem.symm
        · exact hmem
      rcases hneighbour with rfl | rfl
      · exact exactValue_of_coarse hp hle hlt (Or.inl rfl) hvalue
      · exact exactValue_of_coarse hp hle hlt (Or.inr rfl) hvalue

/-- The shortest digits of a natural number are its own, with zeros dropped. -/
theorem exactValue_search {x : Float} {n m : ℕ} {e : ℤ} {hm : 0 < m}
    (hunpack : x.toModel.unpack = .finite .positive m e hm) (hvalue : (m * 2 ^ e : ℚ) = n)
    (hlt : n < 2 ^ 53) : (search x m e).exactValue = n := by
  unfold search
  cases hfound : (List.range 17).findSome? fun k => onGrid? x (.ofBinary m e) (k + 1) with
  | some d =>
    obtain ⟨k, -, hk⟩ := List.exists_of_findSome?_eq_some hfound
    exact exactValue_of_onGrid? hunpack hvalue hlt hk
  | none => rw [Option.getD_none, exactValue_exact, hvalue]

end Shortest

/-- The zeros that were dropped are filled in again. -/
theorem DigitRow.text_ofDecimals_natCast {n : ℕ} (hlt : n < 2 ^ 53) :
    (ofDecimals ⟨n, 0⟩).text = Nat.toDigits 10 n := by
  obtain ⟨k, hk⟩ := exists_stripZeros_append (Nat.toDigits 10 n)
  obtain ⟨D, hD⟩ : ∃ D, D = (Nat.toDigits 10 n).length := ⟨_, rfl⟩
  have hDpos : 0 < D := hD ▸ Nat.length_toDigits_pos
  have hDle : D ≤ 16 :=
    hD ▸ (Nat.length_toDigits_le_iff (by norm_num) (by norm_num)).mpr (hlt.trans (by norm_num))
  have hlength : D = (stripZeros (Nat.toDigits 10 n)).length + k := by
    rw [hD]
    conv_lhs => rw [hk]
    rw [List.length_append, List.length_replicate]
  have hrow : ofDecimals ⟨n, 0⟩ = ⟨stripZeros (Nat.toDigits 10 n), (D : ℤ) - 1⟩ := by
    rw [ofDecimals_eq, hD, zero_add]
  -- sixteen digits or fewer are written out, without an exponent
  have hpositional :
      (⟨stripZeros (Nat.toDigits 10 n), (D : ℤ) - 1⟩ : DigitRow).isPositional = true := by
    simp only [isPositional, Bool.and_eq_true, decide_eq_true_eq]
    omega
  have hwhole : ((D : ℤ) - 1 + 1).toNat = D := by omega
  -- the zeros that were taken off the end of the digits come back behind them
  rw [hrow, text, if_pos hpositional, positional]
  simp only [hwhole]
  rw [if_neg (by omega), if_pos (by omega)]
  conv_rhs => rw [hk]
  congr 2
  omega

/-- **A natural number is written in its decimal digits** if it has at most 53 bits. -/
theorem numberText_ofNat {n : ℕ} (hlt : n < 2 ^ 53) : numberText (Float.ofNat n) = toString n := by
  rw [Nat.toString_eq_ofList_toDigits]
  obtain rfl | hn := Nat.eq_zero_or_pos n
  · rfl
  · obtain ⟨m, e, hm, hunpack, hvalue⟩ := Number.exists_unpack_ofNat hn hlt
    -- the shortest decimals of a whole number are its own, up to zeros at the end
    have hrow : DigitRow.ofDecimals (Shortest.search (Float.ofNat n) m e) =
        DigitRow.ofDecimals ⟨n, 0⟩ := by
      refine DigitRow.ofDecimals_eq_of_exactValue_eq (Shortest.mantissa_search_pos hunpack) hn ?_
      rw [Shortest.exactValue_search hunpack hvalue hlt, Shortest.Decimals.exactValue, zpow_zero,
        mul_one]
    unfold numberText
    simp only [hunpack]
    rw [hrow, DigitRow.text_ofDecimals_natCast hlt]

end CheckedExpr
