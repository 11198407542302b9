import CheckedExpr.Number.Notation
import CheckedExpr.Number.Reading
import CheckedExpr.Proofs.DecimalNumerals
import CheckedExpr.Proofs.DecimalRounding

/-!
# The text of a number reads back

A number is written in the fewest digits that are nearest to it and to no other number, with the
point and the exponent where the language wants them. Reading goes by the exact value of what is
written, so what has to be seen is that the value survives all of this: the choice of digits, which
drops zeros at the end, and the two notations.

* `DigitRow.ofDecimals_eq_of_exactValue_eq`: decimals of one value have one row of digits.
* `DigitRow.spells_text`: in either notation a row is a numeral of its value.
* `Shortest.value_search`: the digits that are chosen are those of the number.
* `Number.writtenAs_numberText`: what the text of a number can be.
* `Number.read?_numberText`: so the text of a number reads as the number.
-/

namespace CheckedExpr

/-! ### Rows of digits -/

/-- Digits behind others move these by as many places. -/
theorem digitsValue_append (a b : List Char) :
    digitsValue (a ++ b) = digitsValue a * 10 ^ b.length + digitsValue b := by
  unfold digitsValue
  rw [Nat.ofDigitChars_append, Nat.ofDigitChars_eq_ofDigitChars_zero, mul_comm]

theorem digitsValue_replicate (n : ℕ) : digitsValue (List.replicate n '0') = 0 := by
  unfold digitsValue
  rw [Nat.ofDigitChars_replicate_zero, mul_zero]

theorem digitsValue_toDigits (n : ℕ) : digitsValue (Nat.toDigits 10 n) = n :=
  Nat.ofDigitChars_ten_toDigits

theorem isDigits_toDigits (n : ℕ) : IsDigits (Nat.toDigits 10 n) := by
  intro c hc
  have hdigit := Nat.isDigit_of_mem_toDigits (by norm_num) (by norm_num) hc
  exact hdigit

/-- Zeros are digits. -/
theorem isDigits_replicate (n : ℕ) : IsDigits (List.replicate n '0') := by
  intro c hc
  rw [List.eq_of_mem_replicate hc]
  decide

/-- Ten times a number has one zero more. -/
theorem toDigits_mul_pow {m : ℕ} (hm : 0 < m) (n : ℕ) :
    Nat.toDigits 10 (m * 10 ^ n) = Nat.toDigits 10 m ++ List.replicate n '0' := by
  induction n with
  | zero => simp
  | succ n ih =>
    have hten : m * 10 ^ (n + 1) = 10 * (m * 10 ^ n) + 0 := by ring
    rw [hten, ← Nat.toDigits_append_toDigits (by norm_num) (by positivity) (by norm_num), ih,
      Nat.toDigits_zero, List.append_assoc, List.replicate_succ']

/-! ### The same decimal in different parts -/

/-- What is written, exactly. -/
def Shortest.Decimals.exactValue (d : Shortest.Decimals) : ℚ := d.mantissa * 10 ^ d.power

/-- What is written, exactly. -/
def Decimal.exactValue (d : Decimal) : ℚ := d.mantissa * 10 ^ d.power

/-- A decimal in whole numbers is the number nearest to what is written. -/
theorem Shortest.Decimals.value_eq (d : Shortest.Decimals) :
    d.value = Number.nearestNumber d.exactValue :=
  nearestDecimal_eq_nearestNumber _ _

theorem Decimal.value_eq (d : Decimal) : d.value = Number.nearestNumber d.exactValue :=
  nearestDecimal_eq_nearestNumber _ _

namespace DigitRow

/-- What the digits of a row stand for, exactly. -/
def exactValue (row : DigitRow) : ℚ :=
  digitsValue row.digits * 10 ^ (row.magnitude + 1 - row.digits.length)

/-- The digits without zeros at the end. -/
def stripZeros (digits : List Char) : List Char :=
  (digits.reverse.dropWhile (· == '0')).reverse

/-- What is dropped are zeros. -/
theorem exists_stripZeros_append (digits : List Char) :
    ∃ k, digits = stripZeros digits ++ List.replicate k '0' := by
  -- the zeros at the end are those in front of the reversed digits
  obtain ⟨zeros, hzeros⟩ : ∃ zeros, zeros = digits.reverse.takeWhile (· == '0') := ⟨_, rfl⟩
  have hall : ∀ c ∈ zeros, c = '0' := fun c hc => by
    have hc' := List.mem_takeWhile_imp (hzeros ▸ hc)
    exact eq_of_beq hc'
  have hsplit : zeros ++ digits.reverse.dropWhile (· == '0') = digits.reverse := by
    rw [hzeros, List.takeWhile_append_dropWhile]
  refine ⟨zeros.length, ?_⟩
  have hreverse := congrArg List.reverse hsplit
  rw [List.reverse_append, List.reverse_reverse, List.eq_replicate_of_mem hall,
    List.reverse_replicate] at hreverse
  exact hreverse.symm

/-- More zeros make no difference to what is kept. -/
theorem stripZeros_append_replicate (digits : List Char) (k : ℕ) :
    stripZeros (digits ++ List.replicate k '0') = stripZeros digits := by
  unfold stripZeros
  rw [List.reverse_append, List.reverse_replicate, List.dropWhile_append_of_pos]
  intro c hc
  rw [List.eq_of_mem_replicate hc]
  decide

/-- The row of a decimal: its digits without zeros at the end, and the place of the first one. -/
theorem ofDecimals_eq (d : Shortest.Decimals) :
    ofDecimals d = ⟨stripZeros (Nat.toDigits 10 d.mantissa),
      d.power + (Nat.toDigits 10 d.mantissa).length - 1⟩ := rfl

/-- A decimal is one row of digits, however many of its zeros are in the mantissa. -/
theorem ofDecimals_mul_pow {m : ℕ} (hm : 0 < m) (p : ℤ) (n : ℕ) :
    ofDecimals ⟨m * 10 ^ n, p - n⟩ = ofDecimals ⟨m, p⟩ := by
  rw [ofDecimals_eq, ofDecimals_eq]
  simp only [toDigits_mul_pow hm, stripZeros_append_replicate, List.length_append,
    List.length_replicate]
  congr 1
  push_cast
  ring

/-- Zeros at the end are dropped from the digits, but not from the value. -/
theorem exactValue_ofDecimals (d : Shortest.Decimals) :
    (ofDecimals d).exactValue = d.exactValue := by
  -- the zeros that are dropped are a power of ten, which the place of the first digit makes up for
  obtain ⟨k, hk⟩ := exists_stripZeros_append (Nat.toDigits 10 d.mantissa)
  have hmantissa : d.mantissa = digitsValue (stripZeros (Nat.toDigits 10 d.mantissa)) * 10 ^ k := by
    conv_lhs => rw [← digitsValue_toDigits d.mantissa, hk, digitsValue_append,
      digitsValue_replicate, List.length_replicate, add_zero]
  have hlength := congrArg List.length hk
  rw [List.length_append, List.length_replicate] at hlength
  rw [ofDecimals_eq, exactValue, Shortest.Decimals.exactValue]
  conv_rhs => rw [hmantissa]
  simp only
  push_cast
  rw [mul_assoc, ← zpow_natCast, ← zpow_add₀ (by norm_num)]
  congr 2
  rw [hlength]
  push_cast
  ring

/-- Of two decimals with one value, the one with the smaller power has zeros at the end instead. -/
theorem ofDecimals_eq_of_le {d d' : Shortest.Decimals} (hd : 0 < d'.mantissa)
    (hpower : d.power ≤ d'.power) (h : d.exactValue = d'.exactValue) :
    ofDecimals d = ofDecimals d' := by
  obtain ⟨m, p⟩ := d
  obtain ⟨m', p'⟩ := d'
  obtain ⟨n, rfl⟩ : ∃ n : ℕ, p = p' - n := ⟨(p' - p).toNat, by simp only at hpower; omega⟩
  -- the finer one has as many zeros more as its power is lower
  have hmantissa : m = m' * 10 ^ n := by
    have hp : (10 : ℚ) ^ p' ≠ 0 := by positivity
    simp only [Shortest.Decimals.exactValue, zpow_sub₀ (by norm_num : (10 : ℚ) ≠ 0),
      zpow_natCast] at h
    field_simp at h
    rw [mul_comm]
    exact_mod_cast h
  rw [hmantissa]
  exact ofDecimals_mul_pow hd p' n

/-- Decimals of one value are one row of digits. -/
theorem ofDecimals_eq_of_exactValue_eq {d d' : Shortest.Decimals} (hd : 0 < d.mantissa)
    (hd' : 0 < d'.mantissa) (h : d.exactValue = d'.exactValue) :
    ofDecimals d = ofDecimals d' := by
  rcases le_total d.power d'.power with hle | hle
  · exact ofDecimals_eq_of_le hd' hle h
  · exact (ofDecimals_eq_of_le hd hle h.symm).symm

/-! ### The text of a row is a numeral -/

/-- A text is a numeral of some value. -/
def Spells (text : List Char) (q : ℚ) : Prop :=
  ∃ d : Decimal, d.Spelled ∧ d.text = text ∧ d.exactValue = q

/-- A numeral is spelled if its parts are. -/
theorem spells_of_parts (d : Decimal) {text : List Char} {q : ℚ}
    (hne : d.whole ≠ [] ∨ d.fraction.getD [] ≠ [])
    (hdigits : IsDigits (d.whole ++ d.fraction.getD []))
    (hexponent : ∀ e ∈ d.exponent, e.Spelled) (htext : d.text = text) (hvalue : d.exactValue = q) :
    Spells text q := by
  obtain ⟨whole, fraction, exponent⟩ := d
  refine ⟨_, ⟨⟨hne, fun e he => (hexponent e he).ne_nil⟩, ?_, ?_, hexponent⟩, htext, hvalue⟩
  · exact fun c hc => hdigits c (List.mem_append_left _ hc)
  · rintro digits ⟨⟩
    exact fun c hc => hdigits c (List.mem_append_right _ hc)

theorem isDigits_append {a b : List Char} (ha : IsDigits a) (hb : IsDigits b) :
    IsDigits (a ++ b) :=
  List.forall_mem_append.mpr ⟨ha, hb⟩

/-- **Without an exponent, a row is a numeral of its value.** -/
theorem spells_positional {row : DigitRow} (hne : row.digits ≠ []) (hdigits : IsDigits row.digits) :
    Spells row.positional row.exactValue := by
  obtain ⟨digits, magnitude⟩ := row
  unfold positional exactValue
  simp only at hne hdigits ⊢
  split_ifs with hneg hlong
  · -- all digits are behind the point, perhaps with zeros before them
    obtain ⟨n, rfl⟩ : ∃ n : ℕ, magnitude = -n - 1 := ⟨(-magnitude - 1).toNat, by omega⟩
    have hn : (-(-(n : ℤ) - 1) - 1).toNat = n := by omega
    rw [hn]
    refine spells_of_parts ⟨['0'], some (List.replicate n '0' ++ digits), none⟩ (Or.inl (by simp))
      (isDigits_append (isDigits_replicate 1) (isDigits_append (isDigits_replicate n) hdigits))
      (by simp) (by simp [Decimal.text]) ?_
    have hmantissa : digitsValue (['0'] ++ (List.replicate n '0' ++ digits)) =
        digitsValue digits := by
      rw [← List.append_assoc, digitsValue_append]
      change digitsValue (List.replicate (n + 1) '0') * _ + _ = _
      rw [digitsValue_replicate, zero_mul, zero_add]
    simp only [Decimal.exactValue, Decimal.mantissa, Decimal.power, Option.getD_some, hmantissa,
      Option.map_none, Option.getD_none, List.length_append, List.length_replicate]
    congr 2
    push_cast
    ring
  · -- no point is needed
    obtain ⟨k, hk⟩ : ∃ k, k = (magnitude + 1).toNat - digits.length := ⟨_, rfl⟩
    rw [← hk]
    refine spells_of_parts ⟨digits ++ List.replicate k '0', none, none⟩ (Or.inl (by simp [hne]))
      (by simpa using isDigits_append hdigits (isDigits_replicate k)) (by simp)
      (by simp [Decimal.text]) ?_
    have hpower : magnitude + 1 - digits.length = k := by omega
    simp only [Decimal.exactValue, Decimal.mantissa, Decimal.power, Option.map_none,
      Option.getD_none, List.append_nil, digitsValue_append, digitsValue_replicate, hpower,
      List.length_replicate, List.length_nil]
    simp
  · -- the point is among the digits
    obtain ⟨w, hw⟩ : ∃ w, w = (magnitude + 1).toNat := ⟨_, rfl⟩
    rw [← hw] at hlong ⊢
    refine spells_of_parts ⟨digits.take w, some (digits.drop w), none⟩
      (Or.inr (by simpa using hlong)) (by simpa using hdigits) (by simp)
      (by simp [Decimal.text]) ?_
    simp only [Decimal.exactValue, Decimal.mantissa, Decimal.power, Option.getD_some,
      Option.map_none, Option.getD_none, List.take_append_drop, List.length_drop]
    congr 2
    omega

/-- The exponent of a row in scientific notation. -/
def exponent (magnitude : ℤ) : Exponent :=
  ⟨'e', some (if magnitude < 0 then '-' else '+'), Nat.toDigits 10 magnitude.natAbs⟩

/-- The exponent of a row is spelled, with a sign in any case. -/
theorem spelled_exponent (magnitude : ℤ) : (exponent magnitude).Spelled where
  marker := Or.inl rfl
  sign := by
    unfold exponent
    split <;> simp
  digits := isDigits_toDigits _
  ne_nil := Nat.toDigits_ne_nil

/-- Its value is the place of the first digit. -/
theorem value_exponent (magnitude : ℤ) : (exponent magnitude).value = magnitude := by
  unfold Exponent.value exponent
  simp only [digitsValue_toDigits]
  split_ifs with hneg hsign hsign
  · omega
  · exact absurd rfl hsign
  · exact absurd hsign (by decide)
  · omega

/-- **With an exponent, a row is a numeral of its value.** -/
theorem spells_scientific {row : DigitRow} (hne : row.digits ≠ []) (hdigits : IsDigits row.digits) :
    Spells row.scientific row.exactValue := by
  obtain ⟨digits, magnitude⟩ := row
  have hexponent : ∀ e ∈ some (exponent magnitude), e.Spelled := by
    rintro e ⟨⟩
    exact spelled_exponent magnitude
  unfold scientific exactValue
  simp only at hne hdigits ⊢
  -- a single digit is written without a point
  match digits with
  | [] => exact absurd rfl hne
  | [first] =>
    refine spells_of_parts ⟨[first], none, some (exponent magnitude)⟩
      (Or.inl (by simp)) (by simpa using hdigits) hexponent
      (by simp [Decimal.text, Exponent.text, exponent]) ?_
    simp only [Decimal.exactValue, Decimal.mantissa, Decimal.power, Option.map_some,
      Option.getD_some, Option.getD_none, List.append_nil, value_exponent]
    simp
  | first :: second :: rest =>
    refine spells_of_parts ⟨[first], some (second :: rest), some (exponent magnitude)⟩
      (Or.inl (by simp)) (by simpa using hdigits) hexponent
      (by simp [Decimal.text, Exponent.text, exponent]) ?_
    simp only [Decimal.exactValue, Decimal.mantissa, Decimal.power, Option.map_some,
      Option.getD_some, value_exponent, List.singleton_append, List.length_cons]
    congr 2
    push_cast
    ring

/-- A row of digits is a numeral of its value in either notation. -/
theorem spells_text {row : DigitRow} (hne : row.digits ≠ []) (hdigits : IsDigits row.digits) :
    Spells row.text row.exactValue := by
  unfold text
  split
  · exact spells_positional hne hdigits
  · exact spells_scientific hne hdigits

/-- A row has decimal digits only. -/
theorem isDigits_ofDecimals (d : Shortest.Decimals) : IsDigits (ofDecimals d).digits := by
  obtain ⟨k, hk⟩ := exists_stripZeros_append (Nat.toDigits 10 d.mantissa)
  intro c hc
  have hmem : c ∈ Nat.toDigits 10 d.mantissa := by
    rw [hk]
    exact List.mem_append_left _ hc
  exact isDigits_toDigits _ c hmem

/-- It has a digit, unless the decimal is zero. -/
theorem digits_ofDecimals_ne_nil {d : Shortest.Decimals} (hd : 0 < d.mantissa) :
    (ofDecimals d).digits ≠ [] := by
  intro hnil
  have hvalue := exactValue_ofDecimals d
  have hpos : 0 < d.exactValue := by
    unfold Shortest.Decimals.exactValue
    positivity
  rw [← hvalue, exactValue, hnil] at hpos
  simp [digitsValue, Nat.ofDigitChars_nil] at hpos

theorem spells_ofDecimals {d : Shortest.Decimals} (hd : 0 < d.mantissa) :
    Spells (ofDecimals d).text d.exactValue := by
  rw [← exactValue_ofDecimals]
  exact spells_text (digits_ofDecimals_ne_nil hd) (isDigits_ofDecimals d)

end DigitRow

/-! ### The shortest digits read back -/

namespace Number

open Float.Model Float.Model.UnpackedFloat

/-- A number is the nearest one to its value. -/
theorem nearestNumber_of_unpack {x : Float} {m : ℕ} {e : ℤ} {hm : 0 < m}
    (h : x.toModel.unpack = .finite .positive m e hm) : nearestNumber (m * 2 ^ e) = x := by
  have hcanonical := canonical_of_unpack h
  rw [nearestNumber, nearest_of_canonical .positive hm hcanonical.1, ← h, pack_unpack]

theorem unpack_zero : (0 : Float).toModel.unpack = .zero .positive := by
  rfl

theorem unpack_neg_zero : (-0 : Float).toModel.unpack = .zero .negative := by
  rfl

/-- Only zeros are equal without being the same. -/
theorem eq_of_beq_of_unpack {x y : Float} {sign : Sign} {m : ℕ} {e : ℤ} {hm : 0 < m}
    (h : y.toModel.unpack = .finite sign m e hm) (hxy : (x == y) = true) : x = y := by
  obtain ⟨-, -, heq | ⟨-, rfl⟩ | ⟨-, rfl⟩⟩ := Float.beq_iff_ne_nan_and_eq.mp hxy
  · exact heq
  · rw [unpack_neg_zero] at h
    cases h
  · rw [unpack_zero] at h
    cases h

end Number

namespace Shortest

open Float.Model Float.Model.UnpackedFloat Number

variable {x : Float} {m : ℕ} {e : ℤ} {hm : 0 < m}

/-- All binary digits of a number, written in decimal ones, are exactly that number. -/
theorem exactValue_exact (m : ℕ) (e : ℤ) : (exact m e).exactValue = m * 2 ^ e := by
  unfold exact
  split_ifs with he
  · obtain ⟨n, rfl⟩ : ∃ n : ℕ, e = n := ⟨e.toNat, by omega⟩
    simp [Decimals.exactValue]
  · obtain ⟨n, rfl⟩ : ∃ n : ℕ, e = -n := ⟨(-e).toNat, by omega⟩
    have hten : (10 : ℚ) ^ n = 5 ^ n * 2 ^ n := by rw [← mul_pow]; norm_num
    simp only [Decimals.exactValue, neg_neg, Int.toNat_natCast, zpow_neg, zpow_natCast, hten]
    push_cast
    field_simp

/-- The digits that are chosen are nearest to the number, also if none are found that are short. -/
theorem value_search (h : x.toModel.unpack = .finite .positive m e hm) :
    (search x m e).value = x := by
  unfold search
  cases hfound : (List.range 17).findSome? fun n => onGrid? x (.ofBinary m e) (n + 1) with
  | some d =>
    obtain ⟨n, -, hn⟩ := List.exists_of_findSome?_eq_some hfound
    exact eq_of_beq_of_unpack h (value_of_onGrid? hn)
  | none =>
    rw [Option.getD_none, Decimals.value_eq, exactValue_exact]
    exact nearestNumber_of_unpack h

/-- What is nearest to a number that is not zero is not zero either. -/
theorem mantissa_search_pos (h : x.toModel.unpack = .finite .positive m e hm) :
    0 < (search x m e).mantissa := by
  rw [Nat.pos_iff_ne_zero]
  intro hzero
  have hvalue := value_search h
  rw [Decimals.value_eq, Decimals.exactValue, hzero, Nat.cast_zero, zero_mul, nearestNumber,
    nearest_zero] at hvalue
  rw [← hvalue] at h
  cases h

end Shortest

/-! ### Reading -/

namespace Number

open Float.Model Float.Model.UnpackedFloat

/-- Where no sign stands, none is taken. -/
theorem takeSign_eq_self {text : List Char} (h : ∀ c ∈ text.head?, c ≠ '-' ∧ c ≠ '+') :
    takeSign text = (false, text) := by
  cases text with
  | nil => rfl
  | cons c cs =>
    obtain ⟨hminus, hplus⟩ := h c rfl
    simp [takeSign, hminus, hplus]

/-- A numeral has no sign. -/
theorem ne_sign_of_spelled {d : Decimal} (h : d.Spelled) :
    ∀ c ∈ d.text.head?, c ≠ '-' ∧ c ≠ '+' := by
  obtain ⟨whole, fraction, exponent⟩ := d
  unfold Decimal.text
  -- the first character is a digit, or the point if there are no digits before it
  cases whole with
  | nil =>
    cases fraction with
    | none => exact absurd h.toWellFormed.digits (by simp)
    | some digits => rintro c ⟨⟩; decide
  | cons first rest =>
    rintro c ⟨⟩
    have hdigit : isDigit first = true := h.whole first List.mem_cons_self
    constructor <;> rintro rfl <;> exact absurd hdigit (by decide)

theorem takeSign_of_spelled {d : Decimal} (h : d.Spelled) : takeSign d.text = (false, d.text) :=
  takeSign_eq_self (ne_sign_of_spelled h)

/-- A numeral is read as the number nearest to its value, behind a minus sign too. -/
theorem read?_of_spells {text : List Char} {q : ℚ} (h : DigitRow.Spells text q) :
    read? text = some (nearestNumber q) ∧ read? ('-' :: text) = some (-nearestNumber q) := by
  obtain ⟨d, hspelled, rfl, rfl⟩ := h
  have hunsigned : readUnsigned? d.text = some (nearestNumber d.exactValue) := by
    unfold readUnsigned?
    rw [Decimal.ofText?_eq_some_iff.mpr ⟨hspelled, rfl⟩, ← Decimal.value_eq]
  -- the sign is taken off first, and the rest is read without one
  constructor
  · unfold read?
    rw [takeSign_of_spelled hspelled]
    simp only [hunsigned]
    rfl
  · unfold read? takeSign
    simp only [hunsigned]
    rfl

theorem eq_of_unpack {x : Float} {f : UnpackedFloat} (h : x.toModel.unpack = f) :
    x = .ofModel (.pack f) := by
  rw [← h, pack_unpack]

/-- The negative has the same mantissa. -/
theorem unpack_neg {x : Float} {sign : Sign} {m : ℕ} {e : ℤ} {hm : 0 < m}
    (h : x.toModel.unpack = .finite sign m e hm) :
    (-x).toModel.unpack = .finite (-sign) m e hm := by
  obtain ⟨hcanonical, he⟩ := canonical_of_unpack h
  change (Float.Model.pack (UnpackedFloat.neg x.toModel.unpack)).unpack = _
  rw [h]
  exact unpack_pack_of_canonical (-sign) hm hcanonical he

/-- The negative of the negative is the number itself. -/
theorem neg_neg_of_unpack {x : Float} {m : ℕ} {e : ℤ} {hm : 0 < m}
    (h : x.toModel.unpack = .finite .negative m e hm) : - -x = x := by
  change Float.ofModel (Float.Model.pack (UnpackedFloat.neg (-x).toModel.unpack)) = _
  rw [unpack_neg h, eq_of_unpack h]
  rfl

/-- What has a mantissa is not zero. -/
theorem beq_zero_of_unpack {x : Float} {sign : Sign} {m : ℕ} {e : ℤ} {hm : 0 < m}
    (h : x.toModel.unpack = .finite sign m e hm) : (x == 0) = false := by
  rw [← Bool.not_eq_true]
  intro hzero
  obtain ⟨-, -, rfl | ⟨rfl, -⟩ | ⟨rfl, -⟩⟩ := Float.beq_iff_ne_nan_and_eq.mp hzero
  · rw [unpack_zero] at h
    cases h
  · rw [unpack_zero] at h
    cases h
  · rw [unpack_neg_zero] at h
    cases h

/-- What is the same of both zeros is the same of a number and of what its text reads as. -/
theorem apply_ite_zero {α : Type} {f : Float → α} (hf : f (-0) = f 0) (x : Float) :
    f (if x == 0 then 0 else x) = f x := by
  by_cases hzero : (x == 0) = true
  · rw [if_pos hzero]
    obtain ⟨-, -, rfl | ⟨rfl, -⟩ | ⟨rfl, -⟩⟩ := Float.beq_iff_ne_nan_and_eq.mp hzero
    · rfl
    · rfl
    · exact hf.symm
  · rw [if_neg hzero]

/-- The digits that are chosen for a number are a numeral. -/
theorem spells_search {x : Float} {m : ℕ} {e : ℤ} {hm : 0 < m}
    (h : x.toModel.unpack = .finite .positive m e hm) :
    DigitRow.Spells (DigitRow.ofDecimals (Shortest.search x m e)).text
      (Shortest.search x m e).exactValue :=
  DigitRow.spells_ofDecimals (Shortest.mantissa_search_pos h)

/-- What is written for a number: a word, a zero, or a numeral that the number is nearest to, behind
a minus sign if there is one. -/
inductive WrittenAs : Float → List Char → Prop
  | notANumber : WrittenAs nan "NaN".toList
  | infinity : WrittenAs infinity "Infinity".toList
  | negativeInfinity : WrittenAs (-infinity) "-Infinity".toList
  | zero {x : Float} : (x == 0) = true → WrittenAs x "0".toList
  | positive {x : Float} {text : List Char} {q : ℚ} :
    (x == 0) = false → DigitRow.Spells text q → nearestNumber q = x → WrittenAs x text
  | negative {x : Float} {text : List Char} {q : ℚ} :
    (x == 0) = false → DigitRow.Spells text q → -nearestNumber q = x → WrittenAs x ('-' :: text)

/-- **What is written for a number is one of these texts.** -/
theorem writtenAs_numberText (x : Float) : WrittenAs x (numberText x).toList := by
  unfold numberText
  -- by the kind of number, in the order in which the text is chosen
  cases hunpack : x.toModel.unpack with
  | notANumber =>
    obtain rfl := eq_of_unpack hunpack
    exact .notANumber
  | infinity sign =>
    obtain rfl := eq_of_unpack hunpack
    cases sign with
    | positive => exact .infinity
    | negative => exact .negativeInfinity
  | zero sign =>
    obtain rfl := eq_of_unpack hunpack
    cases sign <;> exact .zero rfl
  | finite sign m e hm =>
    have hne := beq_zero_of_unpack hunpack
    cases sign with
    | positive =>
      simp only [String.toList_ofList]
      refine .positive hne (spells_search hunpack) ?_
      rw [← Shortest.Decimals.value_eq, Shortest.value_search hunpack]
    | negative =>
      simp only [String.toList_ofList]
      refine .negative hne (spells_search (unpack_neg hunpack)) ?_
      rw [← Shortest.Decimals.value_eq, Shortest.value_search (unpack_neg hunpack),
        neg_neg_of_unpack hunpack]

/-- **It is read as the number**, but for the sign of zero, which is not written. -/
theorem WrittenAs.read?_eq {x : Float} {text : List Char} (h : WrittenAs x text) :
    read? text = some (if x == 0 then 0 else x) := by
  -- the two zeros are written alike, so their sign is not read back
  cases h with
  | notANumber => rfl
  | infinity => rfl
  | negativeInfinity => rfl
  | zero hzero =>
    rw [if_pos hzero]
    rfl
  | positive hne hspells hx =>
    rw [hne, if_neg Bool.false_ne_true, (read?_of_spells hspells).1, hx]
  | negative hne hspells hx =>
    rw [hne, if_neg Bool.false_ne_true, (read?_of_spells hspells).2, hx]

/-- **The text of a number reads as the number,** except that both zeros are written as one. -/
theorem read?_numberText (x : Float) :
    read? (numberText x).toList = some (if x == 0 then 0 else x) :=
  (writtenAs_numberText x).read?_eq

end Number

end CheckedExpr
