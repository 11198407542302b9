import CheckedExpr.Code
import CheckedExpr.Proofs.HexRounding
import CheckedExpr.Proofs.NumberStrings
import CheckedExpr.Proofs.QuotedLiteral
import CheckedExpr.Proofs.TokenRows

/-!
# Numerals as literals and in strings

A numeral may stand in code as a literal, and in a string that is used as a number. Decimal numerals
are the same number both times. Hexadecimal ones are read in two ways: a literal takes in its digits
one by one, and keeps the magnitude of any number of them; a string is read as a number of 64 bits
at most, which is rounded once. So there are numerals that do not mean the same
(`Numeral.IsMisread`): those of more than 64 bits, which are no number in a string, and those with
digits that round down a half before the others are looked at.

* `Numeral.ofText_text_of_not_isMisread`, `Numeral.beq_ofText_text_of_isMisread`: the two numbers.
* `Expr.parseWithin_numeral`, `Expr.parseWithin_plusQuoted`: the two texts.
* `Numeral.exists_readsTwice`: the two numbers are the same unless the numeral is misread.
-/

namespace CheckedExpr

/-- What numeric texts are written with has no meaning between quotes. -/
theorem Number.IsNumericChar.not_special {c quote : Char} (h : IsNumericChar c)
    (hquote : quote = '"' ∨ quote = '\'') : ¬(c = quote ∨ c = '\\') := by
  rintro (rfl | rfl)
  · rcases hquote with rfl | rfl <;> exact absurd h (by decide)
  · exact absurd h (by decide)

namespace Numeral

open Number

/-- Whether the literal and the string of a numeral are not the same number. -/
inductive IsMisread : Numeral → Prop
  | wide {marker : Char} {digits : List Char} : 2 ^ 64 ≤ Text.hexValue digits →
    IsMisread (.hex marker digits)
  | tie {marker : Char} {digits : List Char} : LosesTie digits → IsMisread (.hex marker digits)

variable {n : Numeral} {text rest : List Char}

theorem eq_text_of_read (h : read text = some (n, [])) : text = n.text := by
  rw [append_of_read h, List.append_nil]

/-- A numeral has the characters of numeric texts. -/
theorem Spelled.isNumericChar (h : n.Spelled) : ∀ c ∈ n.text, IsNumericChar c := by
  cases h with
  | decimal hspelled => exact isNumericChar_of_mem_numeral hspelled
  | hex hmarker hne hdigits =>
    exact isNumericChar_of_mem_hex hmarker fun c hc =>
      .inr (.inr (.inr (List.all_eq_true.mp hdigits c hc)))

/-! ### In a string -/

/-- Digits in a string are rounded once, if they fit into 64 bits. -/
theorem ofText_hex {marker : Char} {digits : List Char} (h : (hex marker digits).Spelled) :
    ofText (hex marker digits).text =
      if Text.hexValue digits < 2 ^ 64 then nearestNumber (Text.hexValue digits) else nan := by
  have htrim : Text.trim (hex marker digits).text = (hex marker digits).text :=
    Text.trim_eq_self fun c hc => (h.isNumericChar c hc).isBlank_eq_false
  cases h with
  | hex hmarker hne hdigits =>
    -- there is nothing to trim, no sign to take off, and no second one in front of the digits
    have htake : (takeSign (Text.trim (hex marker digits).text)).2 = '0' :: marker :: digits := by
      rw [htrim]
      rfl
    have hplus : ∀ c ∈ digits.head?, c ≠ '+' := by
      rintro c hc rfl
      have hdigit := List.all_eq_true.mp hdigits '+' (List.mem_of_mem_head? hc)
      exact absurd hdigit (by decide)
    have htext : '0' :: marker :: digits = (hex marker digits).text := rfl
    rw [ofText_of_isHexPrefixed hmarker htake, htrim, if_pos htext, ofHexText_of_ne_plus hplus,
      ofNat_eq_nearestNumber]
    simp only [hne, hdigits, ne_eq, not_false_eq_true, true_and]

/-- A numeral that is not misread is the same number both times. -/
theorem ofText_text_of_not_isMisread (h : n.Spelled) (hn : ¬ n.IsMisread) :
    ofText n.text = n.value := by
  cases n with
  | decimal d =>
    cases h with
    | decimal hspelled => exact ofText_text hspelled
  | hex marker digits =>
    have hfits : Text.hexValue digits < 2 ^ 64 := Nat.lt_of_not_le fun hwide => hn (.wide hwide)
    rw [ofText_hex h, if_pos hfits, value,
      foldl_shiftIn_of_not_losesTie (hfits.trans (pow_lt_pow_right₀ one_lt_two (by norm_num)))
        fun htie => hn (.tie htie)]

/-- Nothing is equal to what is not a number, and a lost tie leads to another number. -/
theorem beq_ofText_text_of_isMisread (h : n.Spelled) (hn : n.IsMisread) :
    (n.value == ofText n.text) = false := by
  obtain ⟨marker, digits, rfl⟩ : ∃ marker digits, n = .hex marker digits := by
    cases hn <;> exact ⟨_, _, rfl⟩
  rw [ofText_hex h]
  split
  next hfits =>
    -- both are numbers, so only a tie can have been lost
    cases hn with
    | wide hwide => exact absurd hfits (Nat.not_lt.mpr hwide)
    | tie htie =>
      exact foldl_shiftIn_beq_of_losesTie
        (hfits.trans (pow_lt_pow_right₀ one_lt_two (by norm_num))) htie
  next =>
    rw [← Bool.not_eq_true, Float.beq_iff_ne_nan_and_eq]
    exact fun heq => heq.2.1 rfl

end Numeral

open Scan

/-! ### In code -/

namespace Chain

variable {inner : Scan ExprRule Chain} {n : Numeral} {token : String}

/-- A numeral begins with a digit or with a point. -/
theorem exists_cons_of_readNumeral {text rest : List Char}
    (h : Numeral.read text = some (n, rest)) :
    ∃ c cs, text = c :: cs ∧ (isDigit c = true ∨ c = '.') := by
  by_contra hno
  have hnone : Numeral.read text = none := by
    refine readNumeral_eq_none fun c hc => ?_
    obtain ⟨cs, rfl⟩ := List.head?_eq_some_iff.mp hc
    exact ⟨Bool.eq_false_iff.mpr fun hdigit => hno ⟨c, cs, rfl, .inl hdigit⟩,
      fun hpoint => hno ⟨c, cs, rfl, .inr hpoint⟩⟩
  rw [hnone] at h
  cases h

/-- No numeral begins with a gap or a sign. -/
theorem exists_cons_of_readNumeral_of_notMem {text rest : List Char}
    (h : Numeral.read text = some (n, rest)) :
    ∃ c cs, text = c :: cs ∧ isGap c = false ∧ c ∉ signChars := by
  obtain ⟨c, cs, rfl, hc⟩ := exists_cons_of_readNumeral h
  have hall : ∀ d ∈ lexemeEnds ++ signChars, isDigit d = false ∧ d ≠ '.' :=
    List.all_iff_forall_prop.mp (by decide)
  have hnotMem : c ∉ lexemeEnds ++ signChars := fun hmem =>
    hc.elim (fun hdigit => by simp [(hall c hmem).1] at hdigit) (hall c hmem).2
  obtain ⟨hends, hsigns⟩ := not_or.mp (List.mem_append.not.mp hnotMem)
  exact ⟨c, cs, rfl, isGap_eq_false_of_notMem hends, hsigns⟩

/-- A numeral is a term of its own, up to the next gap. -/
theorem readsTokens_number (h : Numeral.read token.toList = some (n, [])) :
    (scanTerm inner).ReadsTokens (· = .number n) [token] [] := by
  intro source hsource
  obtain ⟨c, cs, htoken, hgap, -⟩ := exists_cons_of_readNumeral_of_notMem h
  obtain ⟨behind, hclear, hbehind⟩ := hsource.exists_cons htoken hgap
  -- what follows the last token ends the numeral
  have hread := settled_readNumeral.append (endsLexeme_of_spaced_nil hbehind) h
  rw [List.nil_append, htoken, List.cons_append, ← hclear] at hread
  exact ⟨behind, reads_scanTerm_number hread, hbehind⟩

end Chain

namespace Expr

/-- **A numeral stands for a literal.** -/
theorem parseWithin_numeral {source : String} {n : Numeral}
    (h : Numeral.read source.toList = some (n, [])) {limit : Nat} (hlimit : 1 ≤ limit) :
    parseWithin limit source = .ok (.literal (.number n.value)) := by
  obtain ⟨c, cs, hcons, hgap, hsign⟩ := Chain.exists_cons_of_readNumeral_of_notMem h
  have hsource : Spaced [source] source.toList := by simpa using spaced_flatMap [source]
  -- no digit opens a bracket
  have hbrackets : Brackets.deepest none 0 source.toList = 0 := by
    rw [Brackets.deepest_of_readNumeral h]
    rfl
  refine parseWithin_signedTerm [] (Chain.readsTokens_noSign (beginsWith_cons hcons hgap hsign))
    (fun _ => Chain.readsTokens_number h) ?_ hsource hbrackets hlimit
  rintro _ rfl depth
  rfl

/-- A text in quotes behind a plus sign. -/
def plusQuoted (quote : Char) (text : String) : String :=
  String.ofList ('+' :: quote :: (text.toList ++ [quote]))

/-- A text without escapes in quotes behind a plus sign is the conversion of that text. -/
theorem parseWithin_plusQuoted {quote : Char} (hquote : quote = '"' ∨ quote = '\'') {text : String}
    (h : ∀ c ∈ text.toList, ¬(c = quote ∨ c = '\\')) {limit : Nat} (hlimit : 2 ≤ limit) :
    parseWithin limit (plusQuoted quote text) =
      .ok (.unary .plus (.literal (.string text)) true) := by
  have hescape : Text.escapeFor quote text.toList = text.toList := Text.escapeFor_eq_self h
  have hsource : Spaced [UnaryOp.plus.spelling,
      String.ofList (Grammar.QuotedText.of quote text.toList).text]
      (plusQuoted quote text).toList := by
    -- without quotes and backslashes, the text is written as it is
    have htokens : (plusQuoted quote text).toList = [UnaryOp.plus.spelling,
        String.ofList (Grammar.QuotedText.of quote text.toList).text].flatMap String.toList := by
      rw [List.flatMap_cons, List.flatMap_singleton, String.toList_ofList, Grammar.QuotedText.of,
        hescape, plusQuoted, String.toList_ofList]
      rfl
    rw [htokens]
    exact spaced_flatMap _
  have hparse := parseWithin_signed_quoted hquote .plus hsource hlimit
  rwa [String.ofList_toList] at hparse

end Expr

/-! ### In both ways -/

/-- What a text is taken for as a literal, and as a string that is used as a number. -/
structure ReadsTwice (text : String) (literal inString : Float) : Prop where
  parse : ∀ limit, 1 ≤ limit → Expr.parseWithin limit text = .ok (.literal (.number literal))
  toNumber : ∀ κ : Type, (Value.string text : Value κ).toNumber = inString
  evaluate : ∀ (κ σ : Type) (host : Host κ σ) (scope : Scope (Value κ)) (run : Run σ) (limit : Nat),
    1 ≤ limit → (Code.text text).evaluate host scope limit run = (.ok (.number literal), run)
  evaluate_plusQuoted : ∀ (κ σ : Type) (host : Host κ σ) (scope : Scope (Value κ)) (run : Run σ)
    (limit : Nat) (quote : Char), 2 ≤ limit → quote = '"' ∨ quote = '\'' →
    (Code.text (Expr.plusQuoted quote text)).evaluate host scope limit run =
      (.ok (.number inString), run)

/-- A text is taken for one number each time. -/
theorem ReadsTwice.unique {text : String} {x y x' y' : Float} (h : ReadsTwice text x y)
    (h' : ReadsTwice text x' y') : x = x' ∧ y = y' := by
  have hliteral := (h.parse 1 le_rfl).symm.trans (h'.parse 1 le_rfl)
  have hstring := (h.toNumber Unit).symm.trans (h'.toNumber Unit)
  cases hliteral
  exact ⟨rfl, hstring⟩

/-- Code that parses is evaluated as the expression it is parsed as. -/
theorem Code.evaluate_text {κ σ : Type} {host : Host κ σ} {scope : Scope (Value κ)} {limit : Nat}
    {source : String} {e : Expr} {v : Value κ} {run after : Run σ}
    (hparse : Expr.parse source = .ok e)
    (hrun : e.evaluate host scope (.ofLimit limit) run = (.ok v, after)) :
    (Code.text source).evaluate host scope limit run = (.ok v, after) := by
  have hread : (Code.text source).toExpr Expr.defaultMaxDepth = .ok e := hparse
  unfold Code.evaluate
  rw [hread]
  change (Except.mapError _ (e.evaluate host scope _ run).1, (e.evaluate host scope _ run).2) = _
  rw [hrun]
  rfl

namespace Numeral

variable {text : String} {n : Numeral}

/-- **What a numeral is taken for**, both times. -/
theorem readsTwice (h : read text.toList = some (n, [])) :
    ReadsTwice text n.value (Number.ofText text.toList) where
  parse := fun _ => Expr.parseWithin_numeral h
  toNumber := fun _ => rfl
  evaluate := by
    intro κ σ host scope run limit hlimit
    obtain ⟨limit, rfl⟩ := Nat.exists_eq_add_of_le' hlimit
    exact Code.evaluate_text (Expr.parseWithin_numeral h (by decide)) rfl
  evaluate_plusQuoted := by
    intro κ σ host scope run limit quote hlimit hquote
    -- the sign takes one level, and the string another
    obtain ⟨limit, rfl⟩ := Nat.exists_eq_add_of_le' hlimit
    have hplain : ∀ c ∈ text.toList, ¬(c = quote ∨ c = '\\') := by
      rw [eq_text_of_read h]
      exact fun c hc => ((spelled_of_read h).isNumericChar c hc).not_special hquote
    exact Code.evaluate_text (Expr.parseWithin_plusQuoted hquote hplain (by decide)) rfl

/-- Above an even number of 53 bits there is a half, and a one behind it. -/
theorem losesTie_least : Number.LosesTie "200000000000011".toList := by
  have hfront : Text.hexValue "20000000000001".toList = (4 * 2 ^ 51 + 1) * 2 ^ 0 := by decide
  have hback : 0 < Text.hexValue ['1'] := by decide
  exact .intro hfront le_rfl (by norm_num) (by norm_num) hback

/-- A numeral that is misread is not the same number both times. -/
theorem not_readsTwice_same (h : read text.toList = some (n, [])) (hn : n.IsMisread) (x : Float) :
    ¬ ReadsTwice text x x := by
  intro hsame
  obtain ⟨hliteral, hstring⟩ := hsame.unique (readsTwice h)
  have hne := beq_ofText_text_of_isMisread (spelled_of_read h) hn
  -- a literal is a number, so it is equal to itself
  have hself := Number.beq_self n.value
  rw [n.unsigned_value.nonneg.2] at hself
  rw [← eq_text_of_read h, ← hstring, hliteral, hself] at hne
  cases hne

/-- **A numeral means the same as a literal and in a string unless it is misread.** Then the two
numbers are not even equal. -/
theorem exists_readsTwice (h : read text.toList = some (n, [])) :
    ∃ x y, ReadsTwice text x y ∧ (¬ n.IsMisread → x = y) ∧ (n.IsMisread → (x == y) = false) := by
  have hspelled := spelled_of_read h
  refine ⟨n.value, Number.ofText text.toList, readsTwice h, ?_, ?_⟩
  · intro hn
    rw [eq_text_of_read h, ofText_text_of_not_isMisread hspelled hn]
  · intro hn
    rw [eq_text_of_read h]
    exact beq_ofText_text_of_isMisread hspelled hn

/-- A decimal numeral with a fraction and an exponent, and the least digits with a lost tie. -/
theorem exists_readsTwice_tie :
    (∃ x, ReadsTwice "6.02e+23" x x) ∧
      ∃ x y, ReadsTwice "0x200000000000011" x y ∧ (x == y) = false := by
  have hdecimal : read "6.02e+23".toList =
      some (.decimal ⟨['6'], some ['0', '2'], some ⟨'e', some '+', ['2', '3']⟩⟩, []) := by decide
  obtain ⟨x, y, htwice, hsame, -⟩ := exists_readsTwice hdecimal
  obtain rfl : x = y := hsame (by rintro ⟨⟩)
  have hhex : read "0x200000000000011".toList =
      some (.hex 'x' "200000000000011".toList, []) := by decide
  obtain ⟨x', y', htwice', -, hne⟩ := exists_readsTwice hhex
  exact ⟨⟨x, htwice⟩, x', y', htwice', hne (.tie losesTie_least)⟩

/-- The least number of more than 64 bits, and the least digits with a lost tie, do not mean the same
in both ways. -/
theorem not_readsTwice_same_wide_or_tie :
    (¬ ∃ x, ReadsTwice "0x10000000000000000" x x) ∧ ¬ ∃ x, ReadsTwice "0x200000000000011" x x := by
  have hwide : read "0x10000000000000000".toList =
      some (.hex 'x' "10000000000000000".toList, []) := by decide
  have htie : read "0x200000000000011".toList =
      some (.hex 'x' "200000000000011".toList, []) := by decide
  constructor
  · rintro ⟨x, hx⟩
    exact not_readsTwice_same hwide (.wide (by decide)) x hx
  · rintro ⟨x, hx⟩
    exact not_readsTwice_same htie (.tie losesTie_least) x hx

end Numeral

end CheckedExpr
