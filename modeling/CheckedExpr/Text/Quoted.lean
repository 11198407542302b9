import CheckedExpr.Text.Escape
import CheckedExpr.Text.Printable

/-!
# Texts between quotes

How a text or a character is shown inside a message or a descriptor: between quotes, with a
backslash before a backslash and before the quote that closes it, letters for the common control
characters, and code points for what `isPrintable` does not show.

* `unescape_quotedChar_append`: reading back what is written for one character gives the character.
* `unescape_flatMap_quotedChar`: hence what is written for a text reads back as the text.
-/

namespace CheckedExpr.Text

/-- How a character is written between two quotes of the given kind. -/
def quotedChar (quote c : Char) : List Char :=
  if c = '\x00' then ['\\', '0']
  else if c = '\t' then ['\\', 't']
  else if c = '\r' then ['\\', 'r']
  else if c = '\n' then ['\\', 'n']
  else if c = '\\' ∨ c = quote then ['\\', c]
  else if isPrintable c then [c]
  else '\\' :: 'u' :: '\x7b' :: Nat.toDigits 16 c.toNat ++ ['\x7d']

/-- A text between double quotes. -/
def quoted (text : String) : String :=
  String.ofList ('"' :: text.toList.flatMap (quotedChar '"') ++ ['"'])

/-- A character between single quotes. -/
def quotedCharacter (c : Char) : String :=
  String.ofList ('\'' :: quotedChar '\'' c ++ ['\''])

/-! ### Reading back -/

/-- The digit that is written for a number below sixteen is the digit of that number. -/
theorem hexDigit?_digitChar {n : Nat} (hsmall : n < 16) : hexDigit? n.digitChar = some n := by
  revert n
  decide

/-- A number is written in hexadecimal digits only. -/
theorem all_isHexDigit_toDigits (n : Nat) : (Nat.toDigits 16 n).all isHexDigit = true := by
  -- by induction on the number: the last digit is that of the remainder, the others that of the
  -- quotient
  induction n using Nat.strongRecOn with
  | ind n ih =>
    rw [Nat.toDigits_eq_if (by decide)]
    split
    next hsmall => simp [isHexDigit, hexDigit?_digitChar hsmall]
    next hlarge =>
      rw [List.all_append, ih (n / 16) (by omega)]
      simp [isHexDigit, hexDigit?_digitChar (Nat.mod_lt n (by decide : 0 < 16))]

/-- A further digit is the last one of the number, so all others count sixteen times as much. -/
theorem hexValue_append_singleton (digits : List Char) (c : Char) :
    hexValue (digits ++ [c]) = 16 * hexValue digits + (hexDigit? c).getD 0 := by
  simp [hexValue]

/-- The digits of a number spell that number. -/
theorem hexValue_toDigits (n : Nat) : hexValue (Nat.toDigits 16 n) = n := by
  -- the same induction as for the digits themselves
  induction n using Nat.strongRecOn with
  | ind n ih =>
    rw [Nat.toDigits_eq_if (by decide)]
    split
    next hsmall => simp [hexValue, hexDigit?_digitChar hsmall]
    next hlarge =>
      rw [hexValue_append_singleton, ih (n / 16) (by omega),
        hexDigit?_digitChar (Nat.mod_lt n (by decide : 0 < 16)), Option.getD_some]
      omega

/-- A backslash, `u` and the code point in braces stand for the character. -/
theorem unescape_codePoint_append (c : Char) (rest : List Char) :
    unescape ('\\' :: 'u' :: '\x7b' :: Nat.toDigits 16 c.toNat ++ '\x7d' :: rest) =
      (unescape rest).map (c :: ·) := by
  -- no digit is the closing brace, so the brace that is written is the first one
  have hbrace : ∀ d ∈ Nat.toDigits 16 c.toNat, d ≠ '\x7d' := by
    intro d hd hclosing
    have hall := List.all_eq_true.1 (all_isHexDigit_toDigits c.toNat) d hd
    subst hclosing
    exact absurd hall (by decide)
  have hcount : max (Nat.toDigits 16 c.toNat).length 1 = (Nat.toDigits 16 c.toNat).length := by
    have := Nat.length_toDigits_pos (b := 16) (n := c.toNat)
    omega
  have hdecoded :
      decodeDigits (max (Nat.toDigits 16 c.toNat).length 1) (Nat.toDigits 16 c.toNat) = .ok c := by
    simp only [decodeDigits, hcount, all_isHexDigit_toDigits, hexValue_toDigits,
      charOfNat?_toNat, and_self, if_true]
  rw [List.cons_append, List.cons_append, List.cons_append, unescape_escape,
    readEscape_braced hbrace, hdecoded]
  rfl

/-- **What is written for a character reads back as the character**, whatever follows it. -/
theorem unescape_quotedChar_append {quote : Char} (hshort : shortEscape? quote = none)
    (hx : quote ≠ 'x') (hu : quote ≠ 'u') (c : Char) (rest : List Char) :
    unescape (quotedChar quote c ++ rest) = (unescape rest).map (c :: ·) := by
  -- one case for each way in which a character is written
  unfold quotedChar
  split
  next h => subst h; simp [unescape_escape, readEscape, shortEscape?]
  split
  next h => subst h; simp [unescape_escape, readEscape, shortEscape?]
  split
  next h => subst h; simp [unescape_escape, readEscape, shortEscape?]
  split
  next h => subst h; simp [unescape_escape, readEscape, shortEscape?]
  split
  next h =>
    -- a backslash or the quote stands for itself behind a backslash
    have hself : readEscape c rest = .ok (c, rest) := by
      rcases h with rfl | rfl
      · simp [readEscape, shortEscape?]
      · exact readEscape_self hshort hx hu rest
    simp [unescape_escape, hself]
  split
  -- a character that is shown as it is and is no backslash
  next hplain _ =>
    simp only [not_or] at hplain
    exact unescape_cons_of_ne hplain.1 rest
  next => simpa using unescape_codePoint_append c rest

/-- What is written between quotes for a text reads back as the text. -/
theorem unescape_flatMap_quotedChar {quote : Char} (hshort : shortEscape? quote = none)
    (hx : quote ≠ 'x') (hu : quote ≠ 'u') (text : List Char) :
    unescape (text.flatMap (quotedChar quote)) = .ok text := by
  -- by induction on the text, a character at a time
  induction text with
  | nil => simp
  | cons c cs ih =>
    rw [List.flatMap_cons, unescape_quotedChar_append hshort hx hu, ih]
    rfl

end CheckedExpr.Text
