import CheckedExpr.Text.CodePoint

/-!
# Backslash escapes

A backslash inside quotes stands for a character together with what follows it: one of the short
letters of `shortEscape?`, `x` with two hexadecimal digits, `u` with four of them or with any
number of them in braces, or any other character, which stands for itself. `unescape` reads the
characters between the quotes.

* `readEscape_length_le`: an escape never gives characters back, so reading ends.
* `unescape_cons_of_ne`: a character other than a backslash stands for itself.
-/

namespace CheckedExpr.Text

/-- Why the characters between two quotes do not stand for a text. -/
inductive EscapeError where
  /-- The text ends in a backslash. -/
  | trailingBackslash
  /-- A brace after a backslash and `u` is never closed. -/
  | unterminatedBrace
  /-- These characters stand where hexadecimal digits belong, or are too few. -/
  | malformed (digits : List Char)
  /-- These digits are well formed, but are the number of no character. -/
  | noCharacter (digits : List Char)
  deriving DecidableEq, Repr

/-- The reason in words. -/
def EscapeError.message : EscapeError → String
  | trailingBackslash => "trailing backslash"
  | unterminatedBrace => "unterminated unicode escape"
  | malformed digits => "invalid escape sequence \\" ++ String.ofList digits
  | noCharacter digits => "invalid code point " ++ String.ofList digits

/-- The value of a hexadecimal digit of either case. -/
def hexDigit? (c : Char) : Option Nat :=
  if '0' ≤ c ∧ c ≤ '9' then some (c.toNat - '0'.toNat)
  else if 'a' ≤ c ∧ c ≤ 'f' then some (c.toNat - 'a'.toNat + 10)
  else if 'A' ≤ c ∧ c ≤ 'F' then some (c.toNat - 'A'.toNat + 10)
  else none

/-- A hexadecimal digit of either case. -/
def isHexDigit (c : Char) : Bool := (hexDigit? c).isSome

/-- The number that a row of hexadecimal digits spells. -/
def hexValue (digits : List Char) : Nat :=
  digits.foldl (fun value c => 16 * value + (hexDigit? c).getD 0) 0

/-- The character that a row of `count` hexadecimal digits stands for. -/
def decodeDigits (count : Nat) (digits : List Char) : Except EscapeError Char :=
  if digits.length = count ∧ digits.all isHexDigit then
    match charOfNat? (hexValue digits) with
    | some c => .ok c
    | none => .error (.noCharacter digits)
  else .error (.malformed digits)

/-- The letters that stand for a control character. -/
def shortEscape? : Char → Option Char
  | 'n' => some '\n'
  | 't' => some '\t'
  | 'r' => some '\r'
  | 'b' => some '\x08'
  | 'f' => some '\x0c'
  | 'v' => some '\x0b'
  | '0' => some '\x00'
  | _ => none

/-- Reads an escape whose backslash has been read and whose next character is the first argument:
the character that it stands for, and what is left. Digits in braces may be any number but zero. -/
def readEscape (c : Char) (rest : List Char) : Except EscapeError (Char × List Char) :=
  -- the letters come first, so that no digits are read behind them
  match shortEscape? c, c with
  | some d, _ => .ok (d, rest)
  | none, 'x' => (decodeDigits 2 (rest.take 2)).map (·, rest.drop 2)
  | none, 'u' =>
    match rest with
    | '\x7b' :: braced =>
      match braced.dropWhile (· ≠ '\x7d') with
      | [] => .error .unterminatedBrace
      | _ :: after =>
        let digits := braced.takeWhile (· ≠ '\x7d')
        -- braces with nothing in them have too few digits, not none
        (decodeDigits (max digits.length 1) digits).map (·, after)
    | _ => (decodeDigits 4 (rest.take 4)).map (·, rest.drop 4)
  | none, other => .ok (other, rest)

/-- A backslash before a character without a meaning of its own stands for that character. -/
theorem readEscape_self {c : Char} (hshort : shortEscape? c = none) (hx : c ≠ 'x')
    (hu : c ≠ 'u') (rest : List Char) : readEscape c rest = .ok (c, rest) := by
  unfold readEscape
  rw [hshort]
  split <;> simp_all

/-- Digits in braces are read up to the closing brace. -/
theorem readEscape_braced {digits : List Char} (hinside : ∀ d ∈ digits, d ≠ '\x7d')
    (after : List Char) :
    readEscape 'u' ('\x7b' :: (digits ++ '\x7d' :: after)) =
      (decodeDigits (max digits.length 1) digits).map (·, after) := by
  -- the first closing brace is the one behind the digits, as none of them is a brace
  have hbefore : (digits ++ '\x7d' :: after).takeWhile (· ≠ '\x7d') = digits := by
    rw [List.takeWhile_append_of_pos (by simpa using hinside)]
    simp
  have hbehind : (digits ++ '\x7d' :: after).dropWhile (· ≠ '\x7d') = '\x7d' :: after := by
    rw [List.dropWhile_append_of_pos (by simpa using hinside)]
    simp
  have hshort : shortEscape? 'u' = none := rfl
  simp only [readEscape, hshort, hbefore, hbehind]

/-- Decoding digits does not change what is left behind them. -/
private theorem snd_of_map_eq_ok {decoded : Except EscapeError Char} {d : Char}
    {rest after : List Char} (h : decoded.map (·, rest) = .ok (d, after)) : after = rest := by
  cases decoded with
  | error e => simp [Except.map] at h
  | ok e =>
    simp only [Except.map, Except.ok.injEq, Prod.mk.injEq] at h
    exact h.2.symm

/-- **An escape never gives characters back**, so that reading what follows it comes to an end. -/
theorem readEscape_length_le {c d : Char} {rest after : List Char}
    (h : readEscape c rest = .ok (d, after)) : after.length ≤ rest.length := by
  -- one case for each kind of escape: a letter, two digits, digits behind a letter, anything else
  unfold readEscape at h
  split at h
  next => simp only [Except.ok.injEq, Prod.mk.injEq] at h; simp [h.2]
  next => simp [snd_of_map_eq_ok h]
  next =>
    split at h
    next braced =>
      split at h
      next => simp at h
      next head tail hsplit =>
        -- what is left begins behind the closing brace
        have hshorter := (List.dropWhile_suffix (· ≠ '\x7d') (l := braced)).length_le
        rw [hsplit] at hshorter
        simp only [snd_of_map_eq_ok h, List.length_cons] at hshorter ⊢
        omega
    next => simp [snd_of_map_eq_ok h]
  next => simp only [Except.ok.injEq, Prod.mk.injEq] at h; simp [h.2]

/-- The text that the characters between two quotes stand for. -/
def unescape : List Char → Except EscapeError (List Char)
  | [] => .ok []
  | '\\' :: [] => .error .trailingBackslash
  | '\\' :: c :: rest =>
    match _hread : readEscape c rest with
    | .error e => .error e
    | .ok (d, after) => (unescape after).map (d :: ·)
  | c :: rest => (unescape rest).map (c :: ·)
termination_by text => text.length
decreasing_by
  -- what follows an escape is shorter than the escape and it together
  · have := readEscape_length_le _hread
    simp only [List.length_cons]
    omega
  · simp

@[simp] theorem unescape_nil : unescape [] = .ok [] := by rw [unescape]

/-- A character other than a backslash stands for itself. -/
theorem unescape_cons_of_ne {c : Char} (hslash : c ≠ '\\') (rest : List Char) :
    unescape (c :: rest) = (unescape rest).map (c :: ·) := by
  rw [unescape]
  -- the two rules for a backslash are tried first and do not apply
  · intro h; exact absurd h hslash
  · intro _ _ h; exact absurd h hslash

/-- A backslash and what belongs to it stand for one character, before what the rest stands for. -/
theorem unescape_escape {c : Char} {rest : List Char} :
    unescape ('\\' :: c :: rest) =
      match readEscape c rest with
      | .error e => .error e
      | .ok (d, after) => (unescape after).map (d :: ·) := by
  rw [unescape]
  split <;> simp_all

end CheckedExpr.Text
