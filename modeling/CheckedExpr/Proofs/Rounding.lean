import Mathlib

/-!
# Rounding to the nearest number

A positive magnitude is rounded on a grid, the multiples of a power of two. The grid is chosen so
that 53 bits are left of the magnitude, but never finer than 2^-1074 (`grid`), and of two neighbours
that are equally near the even one is taken (`nearest`). This says what rounding is to do, in terms
of rational numbers and without a word on how numbers are stored.

How it is done is another matter. Operations keep a mantissa with two more bits, one for the half
and one for whatever is behind it, shift it to the grid and round; and since that may give one bit
too many, they shift and round again.

* `shiftRight_locate`, `locate_div`: the two bits say where a magnitude lies (`locate`), before and
  after a shift, and after a division.
* `roundWithAccuracy_eq_nearest`: a mantissa that says where a magnitude lies is rounded to the
  number nearest to the magnitude.
* `unpack_pack_of_canonical`, `canonical_of_unpack`, `pack_unpack`: the numbers that fit into 64
  bits are those in canonical form (`Canonical`), and no bit of them is lost.

What is known of the bits themselves comes with the library as a whole and with no part of it, which
is why all of it is imported.
-/

namespace CheckedExpr.Number

open Float.Model Float.Model.UnpackedFloat

/-! ### Where a magnitude lies -/

/-- A magnitude as a mantissa with two more bits: its whole part, whether it is in the upper half,
and whether it is neither whole nor in the middle. -/
def locate (t : ℚ) : ExtendedMantissa :=
  ⟨⌊t⌋₊, ⌊2 * t⌋₊ % 2 != 0, decide ((⌊2 * t⌋₊ : ℚ) ≠ 2 * t)⟩

theorem floor_two_mul_div_two (t : ℚ) : ⌊2 * t⌋₊ / 2 = ⌊t⌋₊ := by
  rw [← Nat.floor_div_natCast]
  norm_num

/-- Shifting by one bit halves: what was the half becomes part of what is behind the half. -/
theorem shiftRightOne_locate (t : ℚ) : (locate t).shiftRightOne = locate (t / 2) := by
  have hdouble : 2 * (t / 2) = t := by ring
  have hfloor : ⌊t⌋₊ / 2 = ⌊t / 2⌋₊ := by
    rw [← floor_two_mul_div_two (t / 2), hdouble]
  have hsplit := Nat.div_add_mod ⌊2 * t⌋₊ 2
  rw [floor_two_mul_div_two] at hsplit
  -- the new sticky bit is set if one of the two bits behind the significand was
  have hsticky : ((⌊2 * t⌋₊ % 2 != 0) || decide ((⌊2 * t⌋₊ : ℚ) ≠ 2 * t)) =
      decide ((⌊t⌋₊ : ℚ) ≠ t) := by
    rw [Bool.eq_iff_iff]
    simp only [Bool.or_eq_true, bne_iff_ne, decide_eq_true_eq]
    have hcast : (2 * ⌊t⌋₊ + (⌊2 * t⌋₊ % 2 : ℕ) : ℚ) = ⌊2 * t⌋₊ := by exact_mod_cast hsplit
    constructor
    · -- a whole number has nothing behind the point
      rintro h heq
      have hwhole : ⌊2 * t⌋₊ = 2 * ⌊t⌋₊ := by
        rw [← heq]
        norm_num
        exact_mod_cast Nat.floor_natCast (R := ℚ) (2 * ⌊t⌋₊)
      rcases h with h | h
      · omega
      · apply h
        rw [hwhole]
        push_cast
        rw [heq]
    · intro h
      -- were both of them clear, the number would have been whole before
      by_contra hnot
      push Not at hnot
      apply h
      rw [hnot.1, hnot.2] at hcast
      push_cast at hcast
      linarith
  unfold locate ExtendedMantissa.shiftRightOne
  simp only [hdouble, hfloor, hsticky]

/-- So shifting by any number of bits keeps track of where a magnitude lies. -/
theorem shiftRight_locate (t : ℚ) (n : ℕ) : locate t >>> n = locate (t / 2 ^ n) := by
  change n.repeat ExtendedMantissa.shiftRightOne (locate t) = _
  induction n with
  | zero => simp [Nat.repeat]
  | succ n ih => rw [Nat.repeat, ih, shiftRightOne_locate, div_div, pow_succ]

theorem locate_natCast (m : ℕ) : locate m = ⟨m, false, false⟩ := by
  have h : ⌊2 * (m : ℚ)⌋₊ = 2 * m := by exact_mod_cast Nat.floor_natCast (R := ℚ) (2 * m)
  simp [locate, h]

/-- A remainder is a half or nothing exactly if twice the dividend has none. -/
theorem dvd_two_mul_iff (m : ℕ) {d : ℕ} (hd : 0 < d) :
    d ∣ 2 * m ↔ 2 * (m % d) = 0 ∨ 2 * (m % d) = d := by
  have hsplit : 2 * m = d * (2 * (m / d)) + 2 * (m % d) := by
    conv_lhs => rw [← Nat.div_add_mod m d]
    ring
  -- only the remainder counts, and twice the remainder is less than twice the divisor
  rw [hsplit, Nat.dvd_add_right (Nat.dvd_mul_right d _)]
  constructor
  · rintro ⟨k, hk⟩
    have hk' : d * k < d * 2 := by
      have := Nat.mod_lt m hd
      omega
    have hlt : k < 2 := Nat.lt_of_mul_lt_mul_left hk'
    obtain rfl | rfl : k = 0 ∨ k = 1 := by omega
    · exact Or.inl (by simpa using hk)
    · exact Or.inr (by simpa using hk)
  · rintro (h | h) <;> rw [h]
    exact Nat.dvd_zero d

/-- A quotient of whole numbers is located by what its remainder says. -/
theorem locate_div (m : ℕ) {d : ℕ} (hd : 0 < d) :
    locate (m / d : ℚ) =
      ExtendedMantissa.ofMantissaAndAccuracy (m / d) (accuracyOfFraction (m % d) d) := by
  have hrest := Nat.mod_lt m hd
  have hfloor : ⌊(m / d : ℚ)⌋₊ = m / d := by
    rw [Nat.floor_div_natCast, Nat.floor_natCast]
  have hdouble : ⌊2 * (m / d : ℚ)⌋₊ = 2 * m / d := by
    rw [← mul_div_assoc, Nat.floor_div_natCast]
    congr 1
    exact_mod_cast Nat.floor_natCast (R := ℚ) (2 * m)
  have hround : 2 * m / d % 2 = 2 * (m % d) / d := by
    have hsplit : 2 * m = 2 * (m % d) + d * (2 * (m / d)) := by
      conv_lhs => rw [← Nat.div_add_mod m d]
      ring
    have hlt : 2 * (m % d) / d < 2 := Nat.div_lt_of_lt_mul (by omega)
    rw [hsplit, Nat.add_mul_div_left _ _ hd, Nat.add_mul_mod_self_left, Nat.mod_eq_of_lt hlt]
  -- twice the quotient is whole exactly if the remainder is nothing or half of the divisor
  have hsticky : ((2 * m / d : ℕ) : ℚ) ≠ 2 * (m / d : ℚ) ↔
      ¬(2 * (m % d) = 0 ∨ 2 * (m % d) = d) := by
    have hd' : (d : ℚ) ≠ 0 := by positivity
    rw [← dvd_two_mul_iff m hd, not_iff_not, ← mul_div_assoc, eq_div_iff hd']
    norm_cast
    exact ⟨Dvd.intro_left _, Nat.div_mul_cancel⟩
  unfold locate accuracyOfFraction
  simp only [hfloor, hdouble, hround, hsticky]
  split_ifs with hzero
  · simp [ExtendedMantissa.ofMantissaAndAccuracy, hzero]
  · cases hcompare : compare (2 * (m % d)) d with
    | lt =>
      have hlt := Nat.compare_eq_lt.mp hcompare
      simp [ExtendedMantissa.ofMantissaAndAccuracy, Nat.div_eq_of_lt hlt, hzero, hlt.ne]
    | eq =>
      have heq := Nat.compare_eq_eq.mp hcompare
      simp [ExtendedMantissa.ofMantissaAndAccuracy, heq, hd]
    | gt =>
      have hgt := Nat.compare_eq_gt.mp hcompare
      have hdiv : 0 < 2 * (m % d) / d := Nat.div_pos hgt.le hd
      simp [ExtendedMantissa.ofMantissaAndAccuracy, hzero, hgt.ne', hdiv.ne']

/-! ### The grid -/

/-- The power of two on whose multiples a magnitude is rounded. -/
def grid (q : ℚ) : ℤ := max (Int.log 2 q - 52) (-1074)

theorem le_log_iff {q : ℚ} (hq : 0 < q) (k : ℤ) : k ≤ Int.log 2 q ↔ 2 ^ k ≤ q := by
  rw [← Int.zpow_le_iff_le_log one_lt_two hq, Nat.cast_ofNat]

theorem log_lt_iff {q : ℚ} (hq : 0 < q) (k : ℤ) : Int.log 2 q < k ↔ q < 2 ^ k := by
  rw [← Int.lt_zpow_iff_log_lt one_lt_two hq, Nat.cast_ofNat]

/-- On its grid, a magnitude has no more than 53 bits. -/
theorem lt_of_grid {q : ℚ} (hq : 0 < q) : q / 2 ^ grid q < 2 ^ 53 := by
  rw [div_lt_iff₀ (by positivity)]
  calc q < 2 ^ (Int.log 2 q + 1) := (log_lt_iff hq _).mp (Int.lt_succ _)
    _ ≤ 2 ^ (53 + grid q) := zpow_le_zpow_right₀ (by norm_num) (by unfold grid; omega)
    _ = 2 ^ 53 * 2 ^ grid q := by rw [zpow_add₀ (by norm_num)]; norm_num

theorem targetExponent_binary64 (n : ℤ) :
    Format.binary64.targetExponent n = max (n - 53) (-1074) := rfl

/-- The length is determined by the two powers of two around the magnitude. -/
theorem log_eq_of_mem {q : ℚ} {k : ℤ} (hle : 2 ^ k ≤ q) (hlt : q < 2 ^ (k + 1)) :
    Int.log 2 q = k := by
  have hq : 0 < q := lt_of_lt_of_le (by positivity) hle
  exact le_antisymm (Int.lt_add_one_iff.mp ((log_lt_iff hq _).mpr hlt)) ((le_log_iff hq k).mpr hle)

/-- The length of a magnitude in bits is that of its whole part on any grid that leaves one. -/
theorem log_eq_log2_floor {q : ℚ} {e : ℤ} (h : 1 ≤ q / 2 ^ e) :
    Int.log 2 q = Nat.log2 ⌊q / 2 ^ e⌋₊ + e := by
  have hpos : ⌊q / 2 ^ e⌋₊ ≠ 0 := (Nat.floor_pos.mpr h).ne'
  have hscale : q = q / 2 ^ e * 2 ^ e := by field_simp
  have hle : (2 : ℚ) ^ Nat.log2 ⌊q / 2 ^ e⌋₊ ≤ q / 2 ^ e :=
    le_trans (by exact_mod_cast Nat.log2_self_le hpos) (Nat.floor_le (by linarith))
  have hlt : q / 2 ^ e < 2 ^ (Nat.log2 ⌊q / 2 ^ e⌋₊ + 1) :=
    lt_of_lt_of_le (Nat.lt_floor_add_one _) (by exact_mod_cast Nat.lt_log2_self)
  -- the whole part lies between the same two powers of two as the magnitude
  apply log_eq_of_mem
  · rw [zpow_add₀ two_ne_zero, zpow_natCast]
    conv_rhs => rw [hscale]
    gcongr
  · rw [add_right_comm, zpow_add₀ two_ne_zero, ← Nat.cast_succ, zpow_natCast]
    conv_lhs => rw [hscale]
    gcongr

/-- What a shift aims at, which is told by the mantissa and the exponent, is the grid. -/
theorem targetExponent_eq_grid {q : ℚ} {e : ℤ} (hq : 0 < q) (h : 1 ≤ q / 2 ^ e ∨ e ≤ -1074) :
    Format.binary64.targetExponent (totalExponent ⌊q / 2 ^ e⌋₊ e) = grid q := by
  rw [targetExponent_binary64, totalExponent, grid]
  by_cases hone : 1 ≤ q / 2 ^ e
  -- from one on, the whole part has the logarithm
  · rw [log_eq_log2_floor hone]
    omega
  · -- below one there is nothing but the coarsest grid
    have he := h.resolve_left hone
    have hsmall : q < 2 ^ e := by rwa [not_le, div_lt_one (by positivity)] at hone
    have hlog : Int.log 2 q < e := (log_lt_iff hq e).mpr hsmall
    have hzero : ⌊q / 2 ^ e⌋₊ = 0 := Nat.floor_eq_zero.mpr (not_le.mp hone)
    rw [hzero, Nat.log2_zero]
    omega

/-! ### Rounding -/

/-- The number of a rounded mantissa, which has 53 bits or is the least with one bit more. -/
def carry (sign : Sign) (mantissa : ℕ) (exponent : ℤ) : UnpackedFloat :=
  if hzero : mantissa = 0 then .zero sign
  else if mantissa < 2 ^ 53 then .finite sign mantissa exponent (Nat.pos_of_ne_zero hzero)
  else .finite sign (2 ^ 52) (exponent + 1) (by decide)

/-- The number nearest to a magnitude, if there is no bound on exponents. -/
def nearest (sign : Sign) (q : ℚ) : UnpackedFloat :=
  carry sign (locate (q / 2 ^ grid q)).roundedMantissa (grid q)

theorem carry_eq_finite (sign : Sign) {m : ℕ} (e : ℤ) (hm : 0 < m) (hlt : m < 2 ^ 53) :
    carry sign m e = .finite sign m e hm := by
  simp only [carry, hm.ne', hlt, dite_false, if_true]

/-- Rounding gives one of the two neighbours. -/
theorem floor_le_roundedMantissa (t : ℚ) :
    ⌊t⌋₊ ≤ (locate t).roundedMantissa ∧ (locate t).roundedMantissa ≤ ⌊t⌋₊ + 1 := by
  unfold ExtendedMantissa.roundedMantissa
  change ⌊t⌋₊ ≤ Accuracy.roundToNearestEven ⌊t⌋₊ _ ∧ Accuracy.roundToNearestEven ⌊t⌋₊ _ ≤ _
  generalize (locate t).accuracy = accuracy
  unfold Accuracy.roundToNearestEven
  split <;> omega

/-- Rounding gives at most one bit too many, and then a power of two. -/
theorem roundedMantissa_le {q : ℚ} (hq : 0 < q) :
    (locate (q / 2 ^ grid q)).roundedMantissa ≤ 2 ^ 53 := by
  refine (floor_le_roundedMantissa _).2.trans (Nat.succ_le_of_lt ?_)
  exact (Nat.floor_lt (by positivity)).mpr (by exact_mod_cast lt_of_grid hq)

/-- Operations shift a mantissa to the grid that its length calls for. -/
theorem shiftToTargetExponent_eq (m : ℕ) {e : ℤ} {n : ℕ} (accuracy : Accuracy)
    (h : (Format.binary64.targetExponent (totalExponent m e) - e).toNat = n) :
    shiftToTargetExponent .binary64 m e accuracy =
      (ExtendedMantissa.ofMantissaAndAccuracy m accuracy >>> n, e + n) := by
  subst h
  rfl

/-- A mantissa that fits is left where it is. -/
theorem shiftToTargetExponent_self {m : ℕ} {e : ℤ} (hm : m < 2 ^ 53) (he : -1074 ≤ e) :
    shiftToTargetExponent .binary64 m e .exact = (⟨m, false, false⟩, e) := by
  have hlog : m.log2 ≤ 52 := by
    by_cases hzero : m = 0
    · simp [hzero]
    · exact Nat.lt_succ_iff.mp ((Nat.log2_lt hzero).mpr hm)
  have hshift : (Format.binary64.targetExponent (totalExponent m e) - e).toNat = 0 := by
    rw [targetExponent_binary64, totalExponent]
    omega
  rw [shiftToTargetExponent_eq m .exact hshift, Nat.cast_zero, add_zero]
  rfl

/-- The one mantissa that does not fit after rounding is a power of two, so shifting it is exact. -/
theorem shiftToTargetExponent_carry {e : ℤ} (he : -1074 ≤ e) :
    shiftToTargetExponent .binary64 (2 ^ 53) e .exact = (⟨2 ^ 52, false, false⟩, e + 1) := by
  have hshift : (Format.binary64.targetExponent (totalExponent (2 ^ 53) e) - e).toNat = 1 := by
    rw [targetExponent_binary64, totalExponent, Nat.log2_two_pow]
    omega
  rw [shiftToTargetExponent_eq _ .exact hshift]
  rfl

/-- What is known of the bits behind a mantissa is no part of it. -/
theorem mantissa_ofMantissaAndAccuracy (m : ℕ) (accuracy : Accuracy) :
    (ExtendedMantissa.ofMantissaAndAccuracy m accuracy).mantissa = m := by
  unfold ExtendedMantissa.ofMantissaAndAccuracy
  split <;> rfl

/-- **A mantissa that tells where a magnitude lies is rounded to the nearest number,** provided that
its grid is not too coarse. -/
theorem roundWithAccuracy_eq_nearest {sign : Sign} {m : ℕ} {e : ℤ} {accuracy : Accuracy} {q : ℚ}
    (hq : 0 < q)
    (hlocate : ExtendedMantissa.ofMantissaAndAccuracy m accuracy = locate (q / 2 ^ e))
    (he : e ≤ grid q) (h : 0 < m ∨ e ≤ -1074) :
    roundWithAccuracy .binary64 sign m e accuracy = nearest sign q := by
  have hm : m = ⌊q / 2 ^ e⌋₊ := by
    rw [← mantissa_ofMantissaAndAccuracy m accuracy, hlocate]
    rfl
  have hone : 1 ≤ q / 2 ^ e ∨ e ≤ -1074 := by
    rwa [hm, Nat.floor_pos] at h
  have hfirst : shiftToTargetExponent .binary64 m e accuracy =
      (locate (q / 2 ^ grid q), grid q) := by
    obtain ⟨n, hn⟩ : ∃ n : ℕ, grid q = e + n := ⟨(grid q - e).toNat, by omega⟩
    have hshift : (Format.binary64.targetExponent (totalExponent m e) - e).toNat = n := by
      rw [hm, targetExponent_eq_grid hq hone]
      omega
    rw [shiftToTargetExponent_eq m accuracy hshift, hlocate, shiftRight_locate, div_div, hn,
      zpow_add₀ two_ne_zero, zpow_natCast]
  -- the second round finds the mantissa in place, or shifts it by the bit that is too much
  have hgrid : -1074 ≤ grid q := le_max_right _ _
  have hle := roundedMantissa_le hq
  unfold roundWithAccuracy nearest carry
  rw [hfirst]
  dsimp only
  generalize (locate (q / 2 ^ grid q)).roundedMantissa = r at hle
  obtain hlt | rfl := hle.lt_or_eq
  · rw [shiftToTargetExponent_self hlt hgrid]
    simp only [hlt, if_true]
  · rw [shiftToTargetExponent_carry hgrid]
    simp

/-! ### The numbers of the format -/

/-- A mantissa and an exponent as a number has them: 53 bits, or fewer on the finest grid. -/
structure Canonical (m : ℕ) (e : ℤ) : Prop where
  lt : m < 2 ^ 53
  le : -1074 ≤ e
  full : 2 ^ 52 ≤ m ∨ e = -1074

/-- A number is on its own grid, so rounding leaves it alone. -/
theorem Canonical.grid_eq {m : ℕ} {e : ℤ} (hm : 0 < m) (h : Canonical m e) :
    grid (m * 2 ^ e) = e := by
  have hscale : (m * 2 ^ e : ℚ) / 2 ^ e = m := by field_simp
  have hone : (1 : ℚ) ≤ m * 2 ^ e / 2 ^ e := by
    rw [hscale]
    exact_mod_cast hm
  have hlog := log_eq_log2_floor hone
  rw [hscale, Nat.floor_natCast] at hlog
  have hlt : m.log2 < 53 := (Nat.log2_lt hm.ne').mpr h.lt
  have hle := h.le
  rw [grid, hlog]
  -- either the significand has all its bits, or the exponent is the least one
  rcases h.full with hfull | he
  · have hge : 52 ≤ m.log2 := (Nat.le_log2 hm.ne').mpr hfull
    omega
  · omega

/-- A number of the format is not changed by rounding. -/
theorem nearest_of_canonical (sign : Sign) {m : ℕ} {e : ℤ} (hm : 0 < m) (h : Canonical m e) :
    nearest sign (m * 2 ^ e) = .finite sign m e hm := by
  have hscale : (m * 2 ^ e : ℚ) / 2 ^ e = m := by field_simp
  rw [nearest, h.grid_eq hm, hscale, locate_natCast]
  exact carry_eq_finite sign e hm h.lt

/-- What has at most 53 bits is a number of the format, unless it is too fine. -/
theorem exists_canonical {a : ℕ} {k : ℤ} (ha : 0 < a) (hlt : a < 2 ^ 53) (hk : -1074 ≤ k) :
    ∃ (m : ℕ) (e : ℤ), 0 < m ∧ Canonical m e ∧ e ≤ k ∧ (m * 2 ^ e : ℚ) = a * 2 ^ k := by
  have hlog : a.log2 < 53 := (Nat.log2_lt ha.ne').mpr hlt
  obtain ⟨n, hn⟩ : ∃ n : ℕ, n = min (52 - a.log2) (k + 1074).toNat := ⟨_, rfl⟩
  have hbelow : a * 2 ^ n < 2 ^ 53 := by
    calc a * 2 ^ n < 2 ^ (a.log2 + 1) * 2 ^ n := by
          gcongr
          exact Nat.lt_log2_self
      _ = 2 ^ (a.log2 + 1 + n) := (pow_add _ _ _).symm
      _ ≤ 2 ^ 53 := Nat.pow_le_pow_right (by norm_num) (by omega)
  -- as many zeros are appended as there is room for
  refine ⟨a * 2 ^ n, k - n, by positivity, ⟨hbelow, by omega, ?_⟩, by omega, ?_⟩
  · by_cases hfull : n = 52 - a.log2
    · left
      calc 2 ^ 52 = 2 ^ a.log2 * 2 ^ n := by
            rw [← pow_add]
            congr 1
            omega
        _ ≤ a * 2 ^ n := by
            gcongr
            exact Nat.log2_self_le ha.ne'
    · exact Or.inr (by omega)
  · push_cast
    rw [mul_assoc, ← zpow_natCast, ← zpow_add₀ two_ne_zero]
    congr 2
    omega

/-! ### Bits -/

/-- The leading bit of a mantissa is not kept, and is put back. -/
theorem toNat_append_one (b : BitVec 52) : (1#1 ++ b).toNat = 2 ^ 52 + b.toNat := by
  rw [BitVec.toNat_append, ← Nat.shiftLeft_add_eq_or_of_lt b.isLt]
  rfl

/-- Bits whose exponent is neither all zeros nor all ones. -/
theorem unpack_packComponents_normal (sign : Sign) {m : ℕ} (biased : ℕ) (hm : 0 < m)
    (hfull : 2 ^ 52 ≤ m) (hlt : m < 2 ^ 53) (hpos : 0 < biased) (hfits : biased < 2047) :
    UnpackedFloat.unpack .binary64
        (packComponents .binary64 sign (.ofNat 11 biased) (.ofNat 52 m)) =
      .finite sign m (biased - 1075) hm := by
  have hexponent : (BitVec.ofNat 11 biased).toNat = biased := by
    rw [BitVec.toNat_ofNat, Nat.mod_eq_of_lt (by omega)]
  -- the exponent is neither of the two that are special
  have hones : BitVec.ofNat 11 biased ≠ -1#11 := by
    intro h
    have := congrArg BitVec.toNat h
    rw [hexponent] at this
    exact hfits.ne this
  have hzeros : BitVec.ofNat 11 biased ≠ 0#11 := by
    intro h
    have := congrArg BitVec.toNat h
    rw [hexponent] at this
    exact hpos.ne' this
  -- the leading bit is not stored, and comes back here
  have hmantissa : (1#1 ++ BitVec.ofNat 52 m).toNat = m := by
    rw [toNat_append_one, BitVec.toNat_ofNat]
    omega
  unfold UnpackedFloat.unpack
  simp only [unpackMantissa_packComponents, unpackExponent_packComponents,
    UnpackedFloat.unpackSign_packComponents, Sign.ofBitVec_toBitVec]
  rw [if_neg hones, if_neg hzeros]
  simp only [hexponent, hmantissa]
  rfl

/-- Bits whose exponent is all zeros. -/
theorem unpack_packComponents_subnormal (sign : Sign) {m : ℕ} (hm : 0 < m) (hlt : m < 2 ^ 52) :
    UnpackedFloat.unpack .binary64 (packComponents .binary64 sign 0#11 (.ofNat 52 m)) =
      .finite sign m (-1074) hm := by
  have hmantissa : (BitVec.ofNat 52 m).toNat = m := by
    rw [BitVec.toNat_ofNat, Nat.mod_eq_of_lt hlt]
  -- not all bits are clear, or else it would be zero
  have hzeros : BitVec.ofNat 52 m ≠ 0#52 := by
    intro h
    have := congrArg BitVec.toNat h
    rw [hmantissa] at this
    exact hm.ne' this
  unfold UnpackedFloat.unpack
  simp only [unpackMantissa_packComponents, unpackExponent_packComponents,
    UnpackedFloat.unpackSign_packComponents, Sign.ofBitVec_toBitVec]
  rw [if_neg (by decide), if_pos trivial, dif_neg hzeros]
  simp only [hmantissa]
  rfl

/-- A number in canonical form goes into the bits and comes out again. -/
theorem unpack_pack_of_canonical (sign : Sign) {m : ℕ} {e : ℤ} (hm : 0 < m) (h : Canonical m e)
    (he : e ≤ 971) :
    (Float.Model.pack (.finite sign m e hm)).unpack = .finite sign m e hm := by
  change UnpackedFloat.unpack .binary64 (UnpackedFloat.pack .binary64 (.finite sign m e hm)) = _
  have hle := h.le
  have hbiased : (e + (Format.binary64.exponentBias : ℤ) +
      (Format.binary64.mantissaBitsWithoutImplicit : ℤ)).toNat = (e + 1075).toNat :=
    congrArg Int.toNat (add_assoc e 1023 52)
  have hfits : ¬ 2 ^ Format.binary64.exponentBits ≤ (e + 1075).toNat + 1 := by
    change ¬ 2 ^ 11 ≤ _
    omega
  unfold UnpackedFloat.pack
  simp only [hbiased, if_neg hfits]
  -- with 53 bits the leading one is implied; with fewer the exponent is the least one
  by_cases hfull : 2 ^ 52 ≤ m
  · have hlog : m.log2 + 1 = Format.binary64.mantissaBits :=
      congrArg (· + 1) ((Nat.log2_eq_iff hm.ne').mpr ⟨hfull, h.lt⟩)
    rw [if_pos hlog]
    refine (unpack_packComponents_normal sign (e + 1075).toNat hm hfull h.lt (by omega)
      (by omega)).trans ?_
    congr 1
    omega
  · have hlog : ¬ m.log2 + 1 = Format.binary64.mantissaBits := by
      have := (Nat.log2_lt hm.ne').mpr (not_le.mp hfull)
      change ¬ m.log2 + 1 = 53
      omega
    obtain rfl : e = -1074 := h.full.resolve_left hfull
    rw [if_neg hlog]
    exact unpack_packComponents_subnormal sign hm (not_le.mp hfull)

/-- A number whose exponent is too large becomes an infinity. -/
theorem pack_of_large (sign : Sign) {m : ℕ} {e : ℤ} (hm : 0 < m) (he : 971 < e) :
    Float.Model.pack (.finite sign m e hm) = Float.Model.pack (.infinity sign) := by
  have hbits : UnpackedFloat.pack .binary64 (.finite sign m e hm) =
      UnpackedFloat.pack .binary64 (.infinity sign) := by
    have hover : 2 ^ Format.binary64.exponentBits ≤
        (e + (Format.binary64.exponentBias : ℤ) +
          (Format.binary64.mantissaBitsWithoutImplicit : ℤ)).toNat + 1 := by
      change 2 ^ 11 ≤ (e + 1023 + 52).toNat + 1
      omega
    unfold UnpackedFloat.pack
    exact if_pos hover
  simp only [Float.Model.pack, hbits]

/-- Bits hold numbers in canonical form only. -/
theorem canonical_of_unpack {x : Float.Model} {sign : Sign} {m : ℕ} {e : ℤ} {hm : 0 < m}
    (h : x.unpack = .finite sign m e hm) : Canonical m e ∧ e ≤ 971 := by
  unfold Float.Model.unpack UnpackedFloat.unpack at h
  dsimp only at h
  have hexponent := (@unpackExponent .binary64 x.toBits.toBitVec).isLt
  have hmantissa := (@unpackMantissa .binary64 x.toBits.toBitVec).isLt
  change _ < 2 ^ 11 at hexponent
  change _ < 2 ^ 52 at hmantissa
  -- by the exponent: all ones are no finite number, all zeros have no implied bit
  split_ifs at h with hones hinfinite hzeros hzero
  · cases h
    rw [hzeros]
    refine ⟨⟨by omega, le_refl _, Or.inr rfl⟩, by decide⟩
  · have hpos : (@unpackExponent .binary64 x.toBits.toBitVec).toNat ≠ 0 :=
      fun heq => hzeros (BitVec.eq_of_toNat_eq heq)
    have hfits : (@unpackExponent .binary64 x.toBits.toBitVec).toNat ≠ 2047 :=
      fun heq => hones (BitVec.eq_of_toNat_eq heq)
    cases h
    rw [toNat_append_one]
    change Canonical _ (((@unpackExponent .binary64 x.toBits.toBitVec).toNat : ℤ) -
      (1023 + 52)) ∧ ((@unpackExponent .binary64 x.toBits.toBitVec).toNat : ℤ) -
      (1023 + 52) ≤ 971
    refine ⟨⟨by omega, by omega, Or.inl (by omega)⟩, by omega⟩

/-- No bit of a number is lost when it is taken apart. -/
theorem pack_unpack (x : Float.Model) : Float.Model.pack x.unpack = x := by
  obtain ⟨⟨bits⟩, valid⟩ := x
  unfold Float.Model.pack Float.Model.unpack
  simp only [UnpackedFloat.pack_unpack_of_valid valid]

end CheckedExpr.Number
