import CheckedExpr.Proofs.WholeNumbers
import CheckedExpr.Text.Quoted

/-!
# Hexadecimal digits are rounded one by one

The number of a hexadecimal numeral is computed digit by digit: sixteen times what there is, plus
the digit, and both steps round. Nothing is lost up to the digit with which there are more than 53
bits. There the number is rounded, and from then on a digit is less than half of the last place, so
the digits behind it are places and no more (`foldl_shiftIn_append`).

So the number is rounded to 53 bits only once, but not by all of its digits. This is the number
nearest to all of them, unless the first digits are just in the middle between two numbers, are
rounded down to the even one, and would have been lifted above the middle by the others
(`LosesTie`).

* `nearestNumber_eq_halfEven`: rounding of whole numbers, in terms of quotient and remainder.
* `foldl_shiftIn_of_not_losesTie`, `foldl_shiftIn_beq_of_losesTie`: when the number computed digit by
  digit is the one nearest to the digits.
-/

namespace CheckedExpr

namespace Text

/-! ### What digits spell -/

/-- A digit is less than sixteen. -/
theorem hexDigit_lt (c : Char) : (hexDigit? c).getD 0 < 16 := by
  unfold hexDigit?
  -- the three ranges of digits, each up to its upper end
  split_ifs with hdigit hlower hupper
  · have hle : c.toNat ≤ '9'.toNat := hdigit.2
    simp only [Option.getD_some, Char.reduceToNat] at hle ⊢
    omega
  · have hle : c.toNat ≤ 'f'.toNat := hlower.2
    simp only [Option.getD_some, Char.reduceToNat] at hle ⊢
    omega
  · have hle : c.toNat ≤ 'F'.toNat := hupper.2
    simp only [Option.getD_some, Char.reduceToNat] at hle ⊢
    omega
  · decide

/-- Each digit has four bits. -/
theorem hexValue_lt (digits : List Char) : hexValue digits < 2 ^ (4 * digits.length) := by
  induction digits using List.reverseRecOn with
  | nil => decide
  | append_singleton digits c ih =>
    have hdigit := hexDigit_lt c
    have hpow : 2 ^ (4 * (digits ++ [c]).length) = 16 * 2 ^ (4 * digits.length) := by
      rw [List.length_append, List.length_singleton, mul_add, pow_add, mul_comm]
      norm_num
    rw [hexValue_append_singleton, hpow]
    omega

/-- Digits behind others move these by four bits each. -/
theorem hexValue_append (front back : List Char) :
    hexValue (front ++ back) = hexValue front * 2 ^ (4 * back.length) + hexValue back := by
  induction back using List.reverseRecOn with
  | nil => simp [hexValue]
  | append_singleton back c ih =>
    rw [← List.append_assoc, hexValue_append_singleton, hexValue_append_singleton, ih,
      List.length_append, List.length_singleton]
    ring

end Text

namespace Number

open Float.Model Float.Model.UnpackedFloat

/-! ### Whole numbers, rounded -/

/-- A whole number on the grid of a power of two: the quotient, rounded, where a half goes to the
even neighbour. -/
def halfEven (n t : ℕ) : ℕ :=
  if 2 * (n % 2 ^ t) < 2 ^ t then n / 2 ^ t
  else if 2 * (n % 2 ^ t) = 2 ^ t then n / 2 ^ t + n / 2 ^ t % 2
  else n / 2 ^ t + 1

/-- Whether a whole number has 53 bits on the grid of a power of two. -/
structure Fills (n t : ℕ) : Prop where
  ge : 2 ^ 52 ≤ n / 2 ^ t
  lt : n / 2 ^ t < 2 ^ 53

/-- What is known of the bits that are cut off is enough for rounding to even. -/
theorem roundedMantissa_ofMantissaAndAccuracy (m : ℕ) (accuracy : Accuracy) :
    (ExtendedMantissa.ofMantissaAndAccuracy m accuracy).roundedMantissa =
      accuracy.roundToNearestEven m := by
  rcases accuracy with _ | _ | _ | _ <;> rfl

/-- In terms of quotient and remainder: rounding to even goes by twice the remainder. -/
theorem roundedMantissa_locate_div (n t : ℕ) :
    (locate (n / 2 ^ t : ℚ)).roundedMantissa = halfEven n t := by
  have hlocate := locate_div n (Nat.two_pow_pos t)
  push_cast at hlocate
  rw [hlocate, roundedMantissa_ofMantissaAndAccuracy]
  have hpos := Nat.two_pow_pos t
  -- nothing behind the point, and below, at or above a half
  unfold accuracyOfFraction halfEven
  split_ifs with hzero hlt heq hlt heq
  · rfl
  · omega
  · omega
  · rw [Nat.compare_eq_lt.mpr hlt]
    rfl
  · rw [Nat.compare_eq_eq.mpr heq]
    rfl
  · rw [Nat.compare_eq_gt.mpr (by omega)]
    rfl

/-- Rounded, a number still has 53 bits, or is the next power of two. -/
theorem Fills.halfEven_mem {n t : ℕ} (h : Fills n t) :
    2 ^ 52 ≤ halfEven n t ∧ halfEven n t ≤ 2 ^ 53 := by
  obtain ⟨hge, hlt⟩ := h
  unfold halfEven
  split_ifs <;> omega

/-- The grid on which a number has 53 bits is the one that it is rounded on. -/
theorem Fills.grid_eq {n t : ℕ} (h : Fills n t) : grid n = t := by
  have hle : 2 ^ 52 * 2 ^ t ≤ n := (Nat.le_div_iff_mul_le (Nat.two_pow_pos t)).mp h.ge
  have hlt : n < 2 ^ 53 * 2 ^ t := (Nat.div_lt_iff_lt_mul (Nat.two_pow_pos t)).mp h.lt
  have hlog : Int.log 2 (n : ℚ) = 52 + t := by
    apply log_eq_of_mem
    · rw [zpow_add₀ two_ne_zero, zpow_natCast]
      exact_mod_cast hle
    · rw [add_right_comm, zpow_add₀ two_ne_zero, zpow_natCast]
      exact_mod_cast hlt
  rw [grid, hlog]
  omega

/-- **A whole number is rounded on the grid on which it has 53 bits.** -/
theorem nearestNumber_eq_halfEven {n t : ℕ} (h : Fills n t) :
    nearestNumber n = nearestNumber (halfEven n t * 2 ^ t : ℕ) := by
  obtain ⟨hfull, hmax⟩ := h.halfEven_mem
  obtain ⟨m, e, hm, hcarry, hcanonical, hvalue⟩ :=
    exists_carry_eq_finite .positive (g := t) hfull hmax (by omega)
  rw [zpow_natCast] at hvalue
  -- what is rounded is a number of the format, and is not changed by rounding
  have hrounded : nearest .positive (halfEven n t * 2 ^ t : ℕ) = .finite .positive m e hm := by
    push_cast
    rw [← hvalue, nearest_of_canonical .positive hm hcanonical]
  have hnearest : nearest .positive n = .finite .positive m e hm := by
    rw [nearest, h.grid_eq, zpow_natCast, roundedMantissa_locate_div, hcarry]
  rw [nearestNumber, nearestNumber, hrounded, hnearest]

theorem Fills.unique {n t t' : ℕ} (h : Fills n t) (h' : Fills n t') : t = t' := by
  have hgrid := h.grid_eq
  rw [h'.grid_eq] at hgrid
  exact_mod_cast hgrid.symm

/-- The numbers that are rounded with 53 bits are less than 2^1024. -/
theorem Fills.lt_of_lt {n t : ℕ} (h : Fills n t) (hn : n < 2 ^ 1023) : t < 971 := by
  have hge : 2 ^ 52 * 2 ^ t ≤ n := (Nat.le_div_iff_mul_le (Nat.two_pow_pos t)).mp h.ge
  rw [← pow_add] at hge
  have hlt := (Nat.pow_lt_pow_iff_right (a := 2) (by norm_num)).mp (hge.trans_lt hn)
  omega

/-! ### Whole numbers with something appended -/

/-- What is appended below a power of two does not reach the quotient. -/
theorem mul_pow_add_div {r t : ℕ} (a : ℕ) (hr : r < 2 ^ t) : (a * 2 ^ t + r) / 2 ^ t = a := by
  rw [Nat.add_comm, Nat.add_mul_div_right _ _ (Nat.two_pow_pos t), Nat.div_eq_of_lt hr, zero_add]

theorem mul_pow_add_mod {r t : ℕ} (a : ℕ) (hr : r < 2 ^ t) : (a * 2 ^ t + r) % 2 ^ t = r := by
  rw [Nat.add_comm, Nat.add_mul_mod_self_right, Nat.mod_eq_of_lt hr]

section Append

variable {p r t u : ℕ}

/-- Bits behind a number do not change its quotient on the moved grid. -/
theorem append_div (p t : ℕ) (hr : r < 2 ^ u) : (p * 2 ^ u + r) / 2 ^ (t + u) = p / 2 ^ t := by
  rw [pow_add, mul_comm (2 ^ t), ← Nat.div_div_eq_div_mul, mul_pow_add_div p hr]

theorem append_mod (p t : ℕ) (hr : r < 2 ^ u) :
    (p * 2 ^ u + r) % 2 ^ (t + u) = p % 2 ^ t * 2 ^ u + r := by
  rw [pow_add, mul_comm (2 ^ t), Nat.mod_mul, mul_pow_add_mod p hr, mul_pow_add_div p hr]
  ring

/-- A number with bits behind it has 53 bits on the moved grid. -/
theorem Fills.append (h : Fills p t) (hr : r < 2 ^ u) : Fills (p * 2 ^ u + r) (t + u) := by
  have hdiv := append_div p t hr
  exact ⟨hdiv ▸ h.ge, hdiv ▸ h.lt⟩

/-- What is appended counts only if there was just a half. -/
theorem halfEven_append (ht : 0 < t) (hr : r < 2 ^ u) :
    halfEven (p * 2 ^ u + r) (t + u) =
      if 2 * (p % 2 ^ t) = 2 ^ t ∧ 0 < r then p / 2 ^ t + 1 else halfEven p t := by
  obtain ⟨h, hh⟩ : ∃ h, 2 ^ t = 2 * h := ⟨2 ^ (t - 1), by rw [← pow_succ']; congr 1; omega⟩
  unfold halfEven
  rw [append_div p t hr, append_mod p t hr, pow_add, hh]
  generalize p % (2 * h) = m
  generalize 2 ^ u = w at hr ⊢
  have hwhole : 2 * h * w = 2 * (h * w) := mul_assoc 2 h w
  rw [hwhole]
  -- the remainder is whole, so if it is not the half it is away from it by one at least
  rcases lt_trichotomy m h with hlt | rfl | hgt
  · have hbelow : (m + 1) * w ≤ h * w := Nat.mul_le_mul_right w hlt
    rw [add_mul, one_mul] at hbelow
    rw [if_pos (by omega), if_neg (by omega), if_pos (by omega)]
  · obtain rfl | hpos := Nat.eq_zero_or_pos r
    · simp
    · rw [if_neg (by omega), if_neg (by omega), if_pos ⟨rfl, hpos⟩]
  · have habove : (h + 1) * w ≤ m * w := Nat.mul_le_mul_right w hgt
    rw [add_mul, one_mul] at habove
    rw [if_neg (by omega), if_neg (by omega), if_neg (by omega), if_neg (by omega),
      if_neg (by omega)]

end Append

/-! ### Halves -/

/-- Whether a whole number is just a half above an even one on the grid of a power of two. -/
structure HalfAboveEven (n t : ℕ) : Prop where
  half : 2 * (n % 2 ^ t) = 2 ^ t
  even : n / 2 ^ t % 2 = 0

/-- A half above an even number, in the form of a quotient and a remainder. -/
theorem half_eq (k s : ℕ) : (4 * k + 1) * 2 ^ s = 2 * k * 2 ^ (s + 1) + 2 ^ s := by ring

theorem half_lt (s : ℕ) : 2 ^ s < 2 ^ (s + 1) := Nat.pow_lt_pow_right (by norm_num) (by omega)

theorem half_div (k s : ℕ) : (4 * k + 1) * 2 ^ s / 2 ^ (s + 1) = 2 * k := by
  rw [half_eq, mul_pow_add_div _ (half_lt s)]

theorem half_mod (k s : ℕ) : (4 * k + 1) * 2 ^ s % 2 ^ (s + 1) = 2 ^ s := by
  rw [half_eq, mul_pow_add_mod _ (half_lt s)]

/-- In binary digits such a number ends in 01 and zeros. -/
theorem halfAboveEven_succ_iff {n s : ℕ} :
    HalfAboveEven n (s + 1) ↔ ∃ k, n = (4 * k + 1) * 2 ^ s := by
  constructor
  · rintro ⟨hhalf, heven⟩
    have hrest : n % 2 ^ (s + 1) = 2 ^ s := by
      rw [pow_succ'] at hhalf ⊢
      exact Nat.eq_of_mul_eq_mul_left two_pos hhalf
    -- what stands before the half is even
    have hquotient : 2 * (n / 2 ^ (s + 1) / 2) = n / 2 ^ (s + 1) :=
      Nat.two_mul_div_two_of_even (Nat.even_iff.mpr heven)
    refine ⟨n / 2 ^ (s + 1) / 2, ?_⟩
    rw [half_eq, hquotient, mul_comm, ← hrest, Nat.div_add_mod]
  · rintro ⟨k, rfl⟩
    exact ⟨by rw [half_mod, pow_succ'], by rw [half_div, Nat.mul_mod_right]⟩

/-! ### Whole numbers with at most 53 bits and zeros behind them -/

variable {a b k : ℕ}

/-- A number with at most 53 bits and zeros behind them is exact. -/
theorem exists_unpack_nearestNumber (ha : 0 < a) (hlt : a < 2 ^ 53) (hk : k ≤ 971) :
    ∃ (m : ℕ) (e : ℤ) (hm : 0 < m),
      (nearestNumber (a * 2 ^ k : ℕ)).toModel.unpack = .finite .positive m e hm ∧
        (m * 2 ^ e : ℚ) = (a * 2 ^ k : ℕ) := by
  obtain ⟨m, e, hm, hcanonical, he, hvalue⟩ := exists_canonical (k := k) ha hlt (by omega)
  have hcast : (m * 2 ^ e : ℚ) = (a * 2 ^ k : ℕ) := by
    rw [hvalue, zpow_natCast]
    push_cast
    rfl
  refine ⟨m, e, hm, ?_, hcast⟩
  rw [← hcast]
  exact unpack_nearestNumber hm hcanonical (by omega)

/-- Two such numbers are equal only if they are the same. -/
theorem nearestNumber_beq_eq_false (ha : 0 < a) (halt : a < 2 ^ 53) (hb : 0 < b) (hblt : b < 2 ^ 53)
    (hk : k ≤ 971) (hne : a ≠ b) :
    (nearestNumber (a * 2 ^ k : ℕ) == nearestNumber (b * 2 ^ k : ℕ)) = false := by
  obtain ⟨m, e, hm, hunpack, hvalue⟩ := exists_unpack_nearestNumber ha halt hk
  obtain ⟨m', e', hm', hunpack', hvalue'⟩ := exists_unpack_nearestNumber hb hblt hk
  rw [← Bool.not_eq_true]
  intro hbeq
  rw [eq_of_beq_of_unpack hunpack' hbeq, hunpack'] at hunpack
  cases hunpack
  rw [hvalue] at hvalue'
  exact hne (Nat.eq_of_mul_eq_mul_right (Nat.two_pow_pos k) (by exact_mod_cast hvalue'))

theorem nearestNumber_natCast_zero : nearestNumber (0 : ℕ) = 0 := by
  rw [nearestNumber, Nat.cast_zero, nearest_zero]
  rfl

theorem unpack_sixteen :
    (16 : Float).toModel.unpack = .finite .positive (2 ^ 52) (-48) (Nat.two_pow_pos 52) := by
  rfl

/-- A number times sixteen is exact. -/
theorem nearestNumber_mul_sixteen (hlt : a < 2 ^ 53) (hk : k ≤ 971) :
    nearestNumber (a * 2 ^ k : ℕ) * 16 = nearestNumber (16 * (a * 2 ^ k) : ℕ) := by
  -- zero has no finite unpacked form
  obtain rfl | ha := Nat.eq_zero_or_pos a
  · rw [zero_mul, mul_zero, nearestNumber_natCast_zero]
    rfl
  · obtain ⟨m, e, hm, hunpack, hvalue⟩ := exists_unpack_nearestNumber ha hlt hk
    change Float.ofModel (.pack (UnpackedFloat.mul .binary64 _ _)) = _
    rw [hunpack, unpack_sixteen, mul_eq_nearest _ _ hm (Nat.two_pow_pos 52)
      (Or.inl (Nat.le_mul_of_pos_left _ hm)), hvalue]
    unfold nearestNumber
    congr 3
    push_cast
    norm_num
    ring

/-- A digit is added exactly, and then the sum is rounded. -/
theorem nearestNumber_add_ofNat (hlt : a < 2 ^ 53) (hk : k ≤ 971) (hb : b < 2 ^ 53) :
    nearestNumber (a * 2 ^ k : ℕ) + Float.ofNat b = nearestNumber (a * 2 ^ k + b : ℕ) := by
  -- zero has no finite unpacked form, and either side may be zero
  obtain rfl | ha := Nat.eq_zero_or_pos a
  · obtain rfl | hpos := Nat.eq_zero_or_pos b
    · rw [zero_mul, nearestNumber_natCast_zero]
      rfl
    · obtain ⟨m, e, hm, hunpack, hvalue⟩ := exists_unpack_ofNat hpos hb
      rw [zero_mul, zero_add, nearestNumber_natCast_zero, ← ofNat_eq_nearestNumber]
      change Float.ofModel (.pack (UnpackedFloat.add .binary64 _ _)) = _
      rw [unpack_zero, hunpack]
      exact (eq_of_unpack hunpack).symm
  · obtain ⟨m, e, hm, hunpack, hvalue⟩ := exists_unpack_nearestNumber ha hlt hk
    obtain rfl | hpos := Nat.eq_zero_or_pos b
    · change Float.ofModel (.pack (UnpackedFloat.add .binary64 _ (.zero .positive))) = _
      rw [hunpack, add_zero]
      exact (eq_of_unpack hunpack).symm
    · obtain ⟨m', e', hm', hunpack', hvalue'⟩ := exists_unpack_ofNat hpos hb
      change Float.ofModel (.pack (UnpackedFloat.add .binary64 _ _)) = _
      rw [hunpack, hunpack', add_eq_nearest, hvalue, hvalue', Nat.cast_add]
      rfl

/-! ### Taking digits in -/

/-- With a number that was not rounded, taking in a digit rounds only once. -/
theorem shiftIn_nearestNumber (hlt : a < 2 ^ 53) (hk : k + 4 ≤ 971) (c : Char) :
    Numeral.shiftIn (nearestNumber (a * 2 ^ k : ℕ)) c =
      nearestNumber (16 * (a * 2 ^ k) + (Text.hexDigit? c).getD 0 : ℕ) := by
  have hscale : 16 * (a * 2 ^ k) = a * 2 ^ (k + 4) := by ring
  have hdigit : (Text.hexDigit? c).getD 0 < 2 ^ 53 := (Text.hexDigit_lt c).trans (by norm_num)
  rw [Numeral.shiftIn, nearestNumber_mul_sixteen hlt (by omega), hscale,
    nearestNumber_add_ofNat hlt hk hdigit]

/-- Up to 57 bits only the last digit can be rounded. -/
theorem foldl_shiftIn_of_lt (digits : List Char) (h : Text.hexValue digits < 2 ^ 57) :
    digits.foldl Numeral.shiftIn 0 = nearestNumber (Text.hexValue digits) := by
  induction digits using List.reverseRecOn with
  | nil => exact nearestNumber_natCast_zero.symm
  | append_singleton digits c ih =>
    rw [Text.hexValue_append_singleton] at h
    have hexact : Text.hexValue digits < 2 ^ 53 := by omega
    have hstep := shiftIn_nearestNumber (k := 0) hexact (by norm_num) c
    rw [pow_zero, mul_one] at hstep
    rw [List.foldl_append, List.foldl_cons, List.foldl_nil, ih (by omega), hstep,
      Text.hexValue_append_singleton]

/-- A digit behind 53 bits and one more is less than half of the last place. -/
theorem foldl_shiftIn_of_full (hfull : 2 ^ 52 ≤ a) (hlt : a < 2 ^ 53) (digits : List Char)
    (hk : 0 < k) (hlength : k + 4 * digits.length ≤ 971) :
    digits.foldl Numeral.shiftIn (nearestNumber (a * 2 ^ k : ℕ)) =
      nearestNumber (a * 2 ^ (k + 4 * digits.length) : ℕ) := by
  induction digits generalizing k with
  | nil => rfl
  | cons c digits ih =>
    rw [List.length_cons] at hlength
    obtain ⟨d, hd⟩ : ∃ d, d = (Text.hexDigit? c).getD 0 := ⟨_, rfl⟩
    -- a digit is below half of the last place as soon as the grid is one bit coarser than ones
    have hhalf : 2 * d < 2 ^ (k + 4) := by
      have hdigit := Text.hexDigit_lt c
      have hpow : 2 ^ (1 + 4) ≤ 2 ^ (k + 4) := Nat.pow_le_pow_right (by norm_num) (by omega)
      omega
    have hscale : 16 * (a * 2 ^ k) + d = a * 2 ^ (k + 4) + d := by ring
    have hdiv : (a * 2 ^ (k + 4) + d) / 2 ^ (k + 4) = a := mul_pow_add_div a (by omega)
    have hmod : (a * 2 ^ (k + 4) + d) % 2 ^ (k + 4) = d := mul_pow_add_mod a (by omega)
    have hfills : Fills (a * 2 ^ (k + 4) + d) (k + 4) := ⟨by rwa [hdiv], by rwa [hdiv]⟩
    have hround : halfEven (a * 2 ^ (k + 4) + d) (k + 4) = a := by
      rw [halfEven, hmod, if_pos hhalf, hdiv]
    have hexponent : k + 4 + 4 * digits.length = k + 4 * (digits.length + 1) := by ring
    rw [List.foldl_cons, shiftIn_nearestNumber hlt (by omega), ← hd, hscale,
      nearestNumber_eq_halfEven hfills, hround, ih (by omega) (by omega), List.length_cons,
      hexponent]

/-- The same where rounding has led to the next power of two. -/
theorem foldl_shiftIn_of_le (hfull : 2 ^ 52 ≤ a) (hle : a ≤ 2 ^ 53) (digits : List Char)
    (hk : 0 < k) (hlength : k + 4 * digits.length < 971) :
    digits.foldl Numeral.shiftIn (nearestNumber (a * 2 ^ k : ℕ)) =
      nearestNumber (a * 2 ^ (k + 4 * digits.length) : ℕ) := by
  obtain hlt | rfl := hle.lt_or_eq
  · exact foldl_shiftIn_of_full hfull hlt digits hk hlength.le
  · -- rounding has given one bit more, but a power of two needs only one
    have hcarry (n : ℕ) : 2 ^ 53 * 2 ^ n = 2 ^ 52 * 2 ^ (n + 1) := by ring
    rw [hcarry, hcarry, foldl_shiftIn_of_full le_rfl (by norm_num) digits (by omega) (by omega),
      add_right_comm]

/-! ### The digits up to the one that is rounded -/

/-- Digits with more than 53 bits, the last of which is the one that leads beyond 53 bits. -/
structure FirstFull (front : List Char) : Prop where
  ge : 2 ^ 53 ≤ Text.hexValue front
  lt : Text.hexValue front < 2 ^ 57

/-- Numbers of more than 53 bits have such digits at their front. -/
theorem exists_firstFull {digits : List Char} (h : 2 ^ 53 ≤ Text.hexValue digits) :
    ∃ front back, digits = front ++ back ∧ FirstFull front := by
  -- from the back: digits are taken off as long as there are too many bits
  induction digits using List.reverseRecOn with
  | nil => exact absurd h (by decide)
  | append_singleton digits c ih =>
    by_cases hlt : Text.hexValue (digits ++ [c]) < 2 ^ 57
    · exact ⟨digits ++ [c], [], by simp, h, hlt⟩
    · rw [Text.hexValue_append_singleton] at hlt
      have hdigit := Text.hexDigit_lt c
      obtain ⟨front, back, rfl, hfront⟩ := ih (by omega)
      exact ⟨front, back ++ [c], by simp, hfront⟩

/-- One more digit would be four bits more, which is too many. -/
theorem FirstFull.eq_nil_of_append {front more : List Char} (h : FirstFull front)
    (h' : FirstFull (front ++ more)) : more = [] := by
  by_contra hne
  have hlength : 0 < more.length := List.length_pos_iff.mpr hne
  have hpow : 2 ^ 4 ≤ 2 ^ (4 * more.length) := Nat.pow_le_pow_right (by norm_num) (by omega)
  have hle : 2 ^ 53 * 2 ^ 4 ≤ Text.hexValue front * 2 ^ (4 * more.length) :=
    Nat.mul_le_mul h.ge hpow
  have hlt := h'.lt
  rw [Text.hexValue_append] at hlt
  omega

/-- There is only one such digit in a row. -/
theorem FirstFull.unique {front front' back back' : List Char} (h : FirstFull front)
    (h' : FirstFull front') (heq : front ++ back = front' ++ back') :
    front = front' ∧ back = back' := by
  rcases List.append_eq_append_iff.mp heq with ⟨more, rfl, rfl⟩ | ⟨more, rfl, rfl⟩
  · obtain rfl := h.eq_nil_of_append h'
    simp
  · obtain rfl := h'.eq_nil_of_append h
    simp

/-- The grid on which the digits are rounded is one to four bits coarser than ones. -/
theorem FirstFull.exists_fills {front : List Char} (h : FirstFull front) :
    ∃ t, 0 < t ∧ t ≤ 4 ∧ Fills (Text.hexValue front) t := by
  obtain ⟨hge, hlt⟩ := h
  have hfills (t : ℕ) (hge : 2 ^ 52 * 2 ^ t ≤ Text.hexValue front)
      (hlt : Text.hexValue front < 2 ^ 53 * 2 ^ t) : Fills (Text.hexValue front) t :=
    ⟨(Nat.le_div_iff_mul_le (Nat.two_pow_pos t)).mpr hge,
      (Nat.div_lt_iff_lt_mul (Nat.two_pow_pos t)).mpr hlt⟩
  -- a digit has four bits, so the grid is one of four
  by_cases h₁ : Text.hexValue front < 2 ^ 54
  · exact ⟨1, by omega, by omega, hfills 1 (by omega) (by omega)⟩
  by_cases h₂ : Text.hexValue front < 2 ^ 55
  · exact ⟨2, by omega, by omega, hfills 2 (by omega) (by omega)⟩
  by_cases h₃ : Text.hexValue front < 2 ^ 56
  · exact ⟨3, by omega, by omega, hfills 3 (by omega) (by omega)⟩
  · exact ⟨4, by omega, by omega, hfills 4 (by omega) (by omega)⟩

/-- Both together, with room for the digits behind in the range of exponents. -/
theorem exists_firstFull_fills {digits : List Char} (hge : 2 ^ 53 ≤ Text.hexValue digits)
    (hlt : Text.hexValue digits < 2 ^ 1023) :
    ∃ front back t, digits = front ++ back ∧ FirstFull front ∧ 0 < t ∧ t ≤ 4 ∧
      Fills (Text.hexValue front) t ∧ t + 4 * back.length < 971 := by
  obtain ⟨front, back, rfl, hfront⟩ := exists_firstFull hge
  obtain ⟨t, ht, htmax, hfills⟩ := hfront.exists_fills
  refine ⟨front, back, t, rfl, hfront, ht, htmax, hfills, ?_⟩
  rw [Text.hexValue_append] at hlt
  exact (hfills.append (Text.hexValue_lt back)).lt_of_lt hlt

section Halves

variable {front back : List Char} {t : ℕ}

/-- The first digits are rounded, and the others are places. -/
theorem foldl_shiftIn_append (hfront : FirstFull front) (hfills : Fills (Text.hexValue front) t)
    (ht : 0 < t) (hk : t + 4 * back.length < 971) :
    (front ++ back).foldl Numeral.shiftIn 0 =
      nearestNumber (halfEven (Text.hexValue front) t * 2 ^ (t + 4 * back.length) : ℕ) := by
  obtain ⟨hfull, hmax⟩ := hfills.halfEven_mem
  rw [List.foldl_append, foldl_shiftIn_of_lt front hfront.lt, nearestNumber_eq_halfEven hfills,
    foldl_shiftIn_of_le hfull hmax back ht hk]

/-- All digits are rounded at once. -/
theorem nearestNumber_hexValue_append (hfills : Fills (Text.hexValue front) t) (ht : 0 < t) :
    nearestNumber (Text.hexValue (front ++ back)) = nearestNumber
      ((if 2 * (Text.hexValue front % 2 ^ t) = 2 ^ t ∧ 0 < Text.hexValue back
        then Text.hexValue front / 2 ^ t + 1 else halfEven (Text.hexValue front) t) *
          2 ^ (t + 4 * back.length) : ℕ) := by
  rw [Text.hexValue_append, nearestNumber_eq_halfEven (hfills.append (Text.hexValue_lt back)),
    halfEven_append ht (Text.hexValue_lt back)]

/-! ### Lost ties -/

/-- Digits that are rounded too early: the first of them are an even number of 53 bits and just a
half of its last place, so that they are rounded down, and the others are not all zero. -/
inductive LosesTie : List Char → Prop
  | intro {front back : List Char} {k s : ℕ} :
    Text.hexValue front = (4 * k + 1) * 2 ^ s → 2 ^ 51 ≤ k → k < 2 ^ 52 → s < 4 →
      0 < Text.hexValue back → LosesTie (front ++ back)

/-- The digits that are a half are those up to the one with which there are more than 53 bits. -/
theorem firstFull_of_half {k s : ℕ} (hvalue : Text.hexValue front = (4 * k + 1) * 2 ^ s)
    (hge : 2 ^ 51 ≤ k) (hlt : k < 2 ^ 52) (hs : s < 4) : FirstFull front := by
  have hone : 1 ≤ 2 ^ s := Nat.one_le_two_pow
  have hpow : 2 ^ s ≤ 2 ^ 3 := Nat.pow_le_pow_right (by norm_num) (by omega)
  constructor
  · calc 2 ^ 53 ≤ (4 * k + 1) * 1 := by omega
      _ ≤ Text.hexValue front := hvalue ▸ Nat.mul_le_mul_left _ hone
  · calc Text.hexValue front ≤ (4 * k + 1) * 2 ^ 3 := hvalue ▸ Nat.mul_le_mul_left _ hpow
      _ < 2 ^ 57 := by omega

/-- Numbers of at most 53 bits lose no tie. -/
theorem LosesTie.le_hexValue {digits : List Char} (h : LosesTie digits) :
    2 ^ 53 ≤ Text.hexValue digits := by
  obtain @⟨front, back, k, s, hvalue, hge, hlt, hs, -⟩ := h
  rw [Text.hexValue_append]
  calc 2 ^ 53 ≤ Text.hexValue front := (firstFull_of_half hvalue hge hlt hs).ge
    _ ≤ Text.hexValue front * 2 ^ (4 * back.length) := Nat.le_mul_of_pos_right _ (by positivity)
    _ ≤ _ := Nat.le_add_right _ _

/-- A lost tie in terms of how the first digits are rounded. -/
theorem losesTie_append_iff (hfront : FirstFull front) (ht : 0 < t)
    (htmax : t ≤ 4) (hfills : Fills (Text.hexValue front) t) :
    LosesTie (front ++ back) ↔
      HalfAboveEven (Text.hexValue front) t ∧ 0 < Text.hexValue back := by
  constructor
  · generalize hdigits : front ++ back = digits
    rintro @⟨front', back', k, s, hvalue, hge, hlt, hs, hback⟩
    obtain ⟨rfl, rfl⟩ := hfront.unique (firstFull_of_half hvalue hge hlt hs) hdigits
    have hdiv := half_div k s
    rw [← hvalue] at hdiv
    -- there is only one grid on which the first digits have 53 bits
    obtain rfl : t = s + 1 := hfills.unique ⟨by omega, by omega⟩
    exact ⟨halfAboveEven_succ_iff.mpr ⟨k, hvalue⟩, hback⟩
  · rintro ⟨hhalf, hback⟩
    obtain ⟨s, rfl⟩ : ∃ s, t = s + 1 := ⟨t - 1, by omega⟩
    obtain ⟨k, hvalue⟩ := halfAboveEven_succ_iff.mp hhalf
    obtain ⟨hge, hlt⟩ := hfills
    rw [hvalue, half_div] at hge hlt
    exact .intro hvalue (by omega) (by omega) (by omega) hback

end Halves

variable {digits : List Char}

/-- **Rounding digit by digit gives the number nearest to all the digits** if no tie is lost. -/
theorem foldl_shiftIn_of_not_losesTie (h : Text.hexValue digits < 2 ^ 1023)
    (hnot : ¬ LosesTie digits) :
    digits.foldl Numeral.shiftIn 0 = nearestNumber (Text.hexValue digits) := by
  by_cases hge : 2 ^ 53 ≤ Text.hexValue digits
  · obtain ⟨front, back, t, rfl, hfront, ht, htmax, hfills, hk⟩ := exists_firstFull_fills hge h
    rw [losesTie_append_iff hfront ht htmax hfills] at hnot
    rw [foldl_shiftIn_append hfront hfills ht hk, nearestNumber_hexValue_append hfills ht]
    -- only a half with something behind it is rounded otherwise by all of the digits
    split_ifs with htie
    · -- the half goes up to the even neighbour by itself
      have hodd : Text.hexValue front / 2 ^ t % 2 = 1 := by
        have hne : Text.hexValue front / 2 ^ t % 2 ≠ 0 :=
          fun heven => hnot ⟨⟨htie.1, heven⟩, htie.2⟩
        omega
      rw [halfEven, if_neg (by omega), if_pos htie.1, hodd]
    · rfl
  · exact foldl_shiftIn_of_lt digits (by omega)

/-- If a tie is lost, it gives the lower neighbour of that number. -/
theorem foldl_shiftIn_beq_of_losesTie (h : Text.hexValue digits < 2 ^ 1023)
    (hlost : LosesTie digits) :
    (digits.foldl Numeral.shiftIn 0 == nearestNumber (Text.hexValue digits)) = false := by
  obtain ⟨front, back, t, rfl, hfront, ht, htmax, hfills, hk⟩ :=
    exists_firstFull_fills hlost.le_hexValue h
  obtain ⟨⟨htie, heven⟩, hback⟩ := (losesTie_append_iff hfront ht htmax hfills).mp hlost
  -- the digits in front lie half above an even number and are rounded down, whatever follows
  have hround : halfEven (Text.hexValue front) t = Text.hexValue front / 2 ^ t := by
    rw [halfEven, if_neg (by omega), if_pos htie, heven, add_zero]
  have hge := hfills.ge
  have hlt := hfills.lt
  rw [foldl_shiftIn_append hfront hfills ht hk, nearestNumber_hexValue_append hfills ht,
    if_pos ⟨htie, hback⟩, hround]
  exact nearestNumber_beq_eq_false (by omega) hlt (by omega) (by omega) hk.le (by omega)

end Number

end CheckedExpr
