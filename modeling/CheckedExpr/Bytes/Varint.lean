/-!
# Numbers as bytes

A natural number is written in groups of seven bits, the lowest group first, one group a byte. Every
byte but the last one has its highest bit set. A reader takes a limited number of bytes; groups of
zeros at the end are no fault.

* `read_write`: what is written is read back, whatever follows it.
-/

namespace CheckedExpr.Varint

-- Powers are the ones of core, whatever else is in scope where a module is read.
attribute [local instance (high)] instPowNat

/-- The bytes of a number. -/
def write (n : Nat) : List UInt8 :=
  if n < 128 then [UInt8.ofNat n] else UInt8.ofNat (n % 128 + 128) :: write (n / 128)

/-- Reads a number of at most `room` bytes. -/
def read : (room : Nat) → List UInt8 → Option (Nat × List UInt8)
  | 0, _ => none
  | _, [] => none
  | room + 1, byte :: rest =>
    if byte.toNat < 128 then some (byte.toNat, rest)
    else (read room rest).map fun (high, after) => (byte.toNat - 128 + 128 * high, after)

/-- Reads a number of at most `room` bytes that is below a bound. -/
def readBelow (bound room : Nat) (bytes : List UInt8) : Option (Nat × List UInt8) :=
  -- the bound is held against the number, not against its bytes: zeros at the end are no fault
  (read room bytes).filter (·.1 < bound)

/-- Reads a number of 32 bits. -/
def readShort : List UInt8 → Option (Nat × List UInt8) := readBelow (2 ^ (32 : Nat)) 5

/-- Reads a number of 64 bits. -/
def readLong : List UInt8 → Option (Nat × List UInt8) := readBelow (2 ^ (64 : Nat)) 10

/-- **What is written is read back**, whatever follows it, by a reader that takes as many bytes as
there are groups of seven bits. -/
theorem read_write (room : Nat) {n : Nat} (rest : List UInt8) (hfits : n < 128 ^ (room + 1)) :
    read (room + 1) (write n ++ rest) = some (n, rest) := by
  -- by induction on the room: each byte that is not the last one takes seven bits off the number
  induction room generalizing n with
  | zero =>
    have hsmall : n < 128 := by simpa using hfits
    rw [write]
    simp [hsmall, read, Nat.mod_eq_of_lt (show n < 256 by omega)]
  | succ room ih =>
    rw [write]
    split
    next hsmall => simp [read, hsmall, Nat.mod_eq_of_lt (show n < 256 by omega)]
    -- the lowest group is written first, so the rest of the number is read after it
    next hlarge =>
      have hhigh : n / 128 < 128 ^ (room + 1) := by
        rw [Nat.div_lt_iff_lt_mul (by decide), ← Nat.pow_succ]
        exact hfits
      have hbyte : (UInt8.ofNat (n % 128 + 128)).toNat = n % 128 + 128 := by
        simp only [UInt8.toNat_ofNat']
        omega
      simp only [List.cons_append, read, hbyte, ih hhigh, Option.map_some]
      have hcarried : ¬ n % 128 + 128 < 128 := by omega
      simp only [hcarried, ↓reduceIte, Option.some.injEq, Prod.mk.injEq, and_true]
      omega

end CheckedExpr.Varint
