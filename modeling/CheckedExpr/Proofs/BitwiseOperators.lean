import CheckedExpr.Operator.Apply
import CheckedExpr.Proofs.ExactArithmetic

/-!
# Operators on bits are exact

An operator on bits takes the integer parts of two numbers modulo 2^32 and works on what is left.
Numbers may be far larger than 2^32, and what is left of them is found by arithmetic with numbers.
Every step of it is exact, so the result is what arithmetic with integers gives.

* `residue`, `signedResidue`: what is left of an integer, without and with a sign.
* `toNat_word`, `toInt_word`: the word of a number is what is left of its integer part.
* `BinaryOp.bitwise?`: the operators on bits as operators on integers, without a word on words.
* `Value.bitwise_exact`: these are the results, and they are numbers.
-/

namespace CheckedExpr

/-! ### Residues -/

/-- What is left of an integer modulo 2^32. -/
def residue (n : ℤ) : ℕ := (n % 2 ^ 32).toNat

/-- What is left of an integer modulo 2^32, taken as a word of 32 bits with a sign. -/
def signedResidue (n : ℤ) : ℤ := if residue n < 2 ^ 31 then residue n else residue n - 2 ^ 32

theorem residue_lt (n : ℤ) : residue n < 2 ^ 32 := by
  unfold residue
  omega

/-- With a sign it is the residue that lies closest to zero. -/
theorem signedResidue_eq_bmod (n : ℤ) : signedResidue n = Int.bmod n (2 ^ 32) := by
  unfold signedResidue residue Int.bmod
  norm_num
  split <;> omega

/-! ### Words -/

namespace Number

variable {x : Float} {q : ℚ}

/-- The integer part of a number is that of the rational number it stands for. -/
theorem integerPart_of_value? (h : value? x = some q) : integerPart x = towardZero q := by
  unfold integerPart
  rw [h]

/-- **The steps from a number to a word.** None of them loses anything, and what comes out is not
negative and below 2^32, so it is a word. -/
theorem steps_of_isFinite (h : x.isFinite = true) :
    value? (truncate x) = some (integerPart x : ℚ) ∧
      value? (euclideanRemainder (truncate x) 4294967296) = some (residue (integerPart x) : ℚ) ∧
      (euclideanRemainder (truncate x) 4294967296).toUInt32.toNat = residue (integerPart x) := by
  obtain ⟨q, hq⟩ := isFinite_iff_exists_value?.mp h
  -- the first step cuts off what is behind the point
  have hwhole : value? (truncate x) = some (integerPart x : ℚ) := by
    rw [integerPart_of_value? hq]
    exact value?_truncate hq
  have hbound : value? 4294967296 = some ((4294967296 : ℕ) : ℚ) := value?_ofNat (by norm_num)
  -- the second one takes the remainder, which is exact, since both sides are whole
  have hleft := value?_euclideanRemainder (by norm_num) (by norm_num) hwhole hbound
  have hresidue : integerPart x % (4294967296 : ℕ) = residue (integerPart x) := by
    unfold residue
    omega
  rw [hresidue, Int.cast_natCast] at hleft
  exact ⟨hwhole, hleft, toNat_toUInt32 (residue_lt _) hleft⟩

/-- **A word is what is left of the integer part**, also of numbers that are not finite, which have
none. -/
theorem toNat_word (x : Float) : (word x).toNat = residue (integerPart x) := by
  unfold word
  split_ifs with h
  · exact (steps_of_isFinite h).2.2
  · -- what is not finite has no integer part
    have hnone : value? x = none := by
      rw [Option.eq_none_iff_forall_ne_some]
      exact fun q hq => h (isFinite_iff_exists_value?.mpr ⟨q, hq⟩)
    unfold integerPart
    rw [hnone]
    rfl

/-- So the word of a number is the word of its integer part. -/
theorem word_eq_ofInt (x : Float) : word x = BitVec.ofInt 32 (integerPart x) := by
  apply BitVec.eq_of_toNat_eq
  rw [toNat_word, BitVec.toNat_ofInt]
  rfl

theorem toInt_word (x : Float) : (word x).toInt = signedResidue (integerPart x) := by
  rw [word_eq_ofInt, BitVec.toInt_ofInt, signedResidue_eq_bmod]

/-- Shifts count modulo 32, for which the residue modulo 2^32 is enough. -/
theorem shiftCount_word (x : Float) : shiftCount (word x) = (integerPart x % 32).toNat := by
  unfold shiftCount
  rw [toNat_word, residue]
  -- 32 divides 2^32, so it is all the same whether the larger residue is taken first
  omega

end Number

/-! ### Operators -/

/-- The integer that an operator on bits makes of two integers. The bits are those of their
residues, and numbers are shifted by the right integer modulo 32. -/
def BinaryOp.bitwise? (op : BinaryOp) (l r : ℤ) : Option ℤ :=
  match op with
  | bitOr => some (signedResidue (residue l ||| residue r : ℕ))
  | bitXor => some (signedResidue (residue l ^^^ residue r : ℕ))
  | bitAnd => some (signedResidue (residue l &&& residue r : ℕ))
  | shl => some (signedResidue (residue l * 2 ^ (r % 32).toNat))
  | shr => some (signedResidue l / 2 ^ (r % 32).toNat)
  | ushr => some (residue l / 2 ^ (r % 32).toNat)
  | _ => none

open Number

variable {κ : Type}

/-- A word that is taken with a sign is kept exactly. -/
theorem value?_ofSigned (w : BitVec 32) : value? (ofSigned w) = some (w.toInt : ℚ) := by
  have hlow := w.le_toInt
  have hhigh := w.toInt_lt
  exact value?_ofInt (by omega)

theorem value?_ofUnsigned (w : BitVec 32) : value? (ofUnsigned w) = some (w.toNat : ℚ) := by
  have hhigh := w.isLt
  exact value?_ofNat (by omega)

/-- The signed word of an operator. -/
theorem bitwise?_eq_toInt {op : BinaryOp} (h : op.isBitwise = true) (hushr : op ≠ .ushr)
    (x y : Float) :
    op.bitwise? (integerPart x) (integerPart y) = some (op.onWords (word x) (word y)).toInt := by
  -- each operation on words is one on residues, and the sign is put on at the end
  cases op with
  | bitOr =>
    rw [BinaryOp.bitwise?, BinaryOp.onWords, BitVec.toInt_or, toNat_word, toNat_word,
      signedResidue_eq_bmod]
  | bitXor =>
    rw [BinaryOp.bitwise?, BinaryOp.onWords, BitVec.toInt_xor, toNat_word, toNat_word,
      signedResidue_eq_bmod]
  | bitAnd =>
    rw [BinaryOp.bitwise?, BinaryOp.onWords, BitVec.toInt_and, toNat_word, toNat_word,
      signedResidue_eq_bmod]
  | shl =>
    rw [BinaryOp.bitwise?, BinaryOp.onWords, BitVec.toInt_shiftLeft, toNat_word, shiftCount_word,
      signedResidue_eq_bmod, Nat.shiftLeft_eq]
    push_cast
    rfl
  | shr =>
    rw [BinaryOp.bitwise?, BinaryOp.onWords, BitVec.toInt_sshiftRight, toInt_word,
      shiftCount_word, Int.shiftRight_eq_div_pow]
    rfl
  | ushr => exact absurd rfl hushr
  | _ => cases h

/-- The one shift whose result is a word without a sign. -/
theorem bitwise?_ushr (x y : Float) :
    BinaryOp.ushr.bitwise? (integerPart x) (integerPart y) =
      some ((BinaryOp.ushr.onWords (word x) (word y)).toNat : ℤ) := by
  rw [BinaryOp.bitwise?, BinaryOp.onWords, BitVec.toNat_ushiftRight, toNat_word, shiftCount_word,
    Nat.shiftRight_eq_div_pow]
  push_cast
  rfl

/-- All bits turned over, a word is one below its negative. -/
theorem toInt_not_word (x : Float) :
    (~~~(word x)).toInt = -1 - signedResidue (integerPart x) := by
  have hlt := residue_lt (integerPart x)
  rw [BitVec.toInt_not, toNat_word]
  unfold signedResidue Int.bmod
  dsimp only
  -- whether the word and its complement count as negative is settled case by case
  split <;> split <;> omega

/-- **Operators on bits are exact.** For all values, an operator on bits gives the integer that it
gives for the integer parts of its operands as numbers, whatever their size and their sign, and the
number that it gives is this integer. The complement is one below the negative of the signed residue.
No step from a finite number to its word loses anything, and the last one stays within the word. -/
theorem Value.bitwise_exact (v w : Value κ) :
    (∀ op : BinaryOp, op.isBitwise = true →
      ∃ n, op.bitwise? (integerPart v.toNumber) (integerPart w.toNumber) = some n ∧
        op.apply v w = .ok (.number (.ofInt n)) ∧ value? (.ofInt n) = some (n : ℚ)) ∧
      (∃ n, n = -1 - signedResidue (integerPart v.toNumber) ∧
        UnaryOp.bitNot.apply v = .number (.ofInt n) ∧ value? (.ofInt n) = some (n : ℚ)) ∧
      ∀ x : Float, x.isFinite = true →
        value? (truncate x) = some (integerPart x : ℚ) ∧
          value? (euclideanRemainder (truncate x) 4294967296) =
            some (residue (integerPart x) : ℚ) ∧
          (euclideanRemainder (truncate x) 4294967296).toUInt32.toNat =
            residue (integerPart x) := by
  refine ⟨fun op hop => ?_, ?_, fun x hx => steps_of_isFinite hx⟩
  -- all of them end in a signed word but for one
  · by_cases hushr : op = .ushr
    · subst hushr
      exact ⟨_, bitwise?_ushr _ _, rfl, value?_ofUnsigned _⟩
    · have happly : op.apply v w =
          .ok (.number (ofSigned (op.onWords (word v.toNumber) (word w.toNumber)))) := by
        cases op with
        | bitOr | bitXor | bitAnd | shl | shr => rfl
        | ushr => exact absurd rfl hushr
        | _ => cases hop
      exact ⟨_, bitwise?_eq_toInt hop hushr _ _, happly, value?_ofSigned _⟩
  · exact ⟨_, toInt_not_word _, rfl, value?_ofSigned _⟩

/-- The word of a number that is far beyond all words: `-1e20` is `2632974336` modulo 2^32, which is
`-1661992960` with a sign. By a text that says `35.75` it is shifted by three bits. -/
theorem Value.bitwise_exact_far :
    BinaryOp.shr.apply (.number (-1e20) : Value Unit) (.string "35.75") =
        .ok (.number (.ofInt (-207749120))) ∧
      (euclideanRemainder (truncate (-1e20)) 4294967296).toUInt32.toNat = 2632974336 := by
  obtain ⟨hbinary, -, hsteps⟩ := bitwise_exact (.number (-1e20) : Value Unit) (.string "35.75")
  obtain ⟨n, hn, happly, -⟩ := hbinary .shr rfl
  obtain ⟨-, -, hword⟩ := hsteps (-1e20) (by decide +kernel)
  rw [← wholePart_eq_integerPart] at hn hword
  rw [← wholePart_eq_integerPart] at hn
  -- far outside of 32 bits, negative, and with a fraction in the shift
  have hresult : BinaryOp.shr.bitwise? (wholePart (Value.number (-1e20) : Value Unit).toNumber)
      (wholePart (Value.string "35.75" : Value Unit).toNumber) = some (-207749120) := by
    decide +kernel
  have hresidue : residue (wholePart (-1e20)) = 2632974336 := by decide +kernel
  rw [happly, Option.some.inj (hn.symm.trans hresult), hword, hresidue]
  exact ⟨rfl, rfl⟩

end CheckedExpr
