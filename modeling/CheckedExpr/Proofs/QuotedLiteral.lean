import CheckedExpr.Proofs.SignedTerms

/-!
# Quoted texts as literals

Every text can be written between quotes of either kind: with a backslash before each quote of that
kind and before each backslash, nothing else in it has a meaning of its own. Brackets, question marks
and quotes of the other kind stay as they are, and are not counted as nesting.

* `Text.unescape_escapeFor`: escaping loses nothing.
* `Grammar.readBody_escapeFor`: no escaped quote ends the text.
* `Expr.parseWithin_quoted`, `Expr.parseWithin_signed_quoted`: what is written between the quotes
  stands for the text, also behind a sign.
-/

namespace CheckedExpr

namespace Text

/-- A text with a backslash before each backslash and before each quote of a kind. -/
def escapeFor (quote : Char) (text : List Char) : List Char :=
  text.flatMap fun c => if c = quote ∨ c = '\\' then ['\\', c] else [c]

variable {quote c : Char}

/-- A quote of the kind, or a backslash, gets a backslash before it. -/
theorem escapeFor_cons_of_special (h : c = quote ∨ c = '\\') (text : List Char) :
    escapeFor quote (c :: text) = '\\' :: c :: escapeFor quote text := by
  rw [escapeFor, List.flatMap_cons, if_pos h]
  rfl

/-- Any other character stays as it is. -/
theorem escapeFor_cons_of_plain (h : ¬(c = quote ∨ c = '\\')) (text : List Char) :
    escapeFor quote (c :: text) = c :: escapeFor quote text := by
  rw [escapeFor, List.flatMap_cons, if_neg h]
  rfl

/-- A text without such characters stays as it is. -/
theorem escapeFor_eq_self {text : List Char} (h : ∀ c ∈ text, ¬(c = quote ∨ c = '\\')) :
    escapeFor quote text = text := by
  induction text with
  | nil => rfl
  | cons c text ih =>
    obtain ⟨hc, htext⟩ := List.forall_mem_cons.mp h
    rw [escapeFor_cons_of_plain hc, ih htext]

/-- A backslash before a quote or a backslash stands for what is behind it. -/
theorem readEscape_special (hquote : quote = '"' ∨ quote = '\'') (h : c = quote ∨ c = '\\')
    (rest : List Char) : readEscape c rest = .ok (c, rest) := by
  have hc : c ∈ ['"', '\'', '\\'] := by
    rcases h with rfl | rfl
    · rcases hquote with rfl | rfl <;> decide
    · decide
  -- none of the three begins an escape with a meaning of its own
  have hall : ∀ d ∈ ['"', '\'', '\\'], shortEscape? d = none ∧ d ≠ 'x' ∧ d ≠ 'u' :=
    List.all_iff_forall_prop.mp (by decide)
  obtain ⟨hshort, hx, hu⟩ := hall c hc
  exact readEscape_self hshort hx hu rest

/-- **Escaping loses nothing.** -/
theorem unescape_escapeFor (hquote : quote = '"' ∨ quote = '\'') (text : List Char) :
    unescape (escapeFor quote text) = .ok text := by
  induction text with
  | nil => exact unescape_nil
  | cons c text ih =>
    -- what was escaped is read behind its backslash, and anything else as it stands
    by_cases hspecial : c = quote ∨ c = '\\'
    · rw [escapeFor_cons_of_special hspecial, unescape_escape,
        readEscape_special hquote hspecial]
      show (unescape (escapeFor quote text)).map (c :: ·) = .ok (c :: text)
      rw [ih]
      rfl
    · rw [escapeFor_cons_of_plain hspecial, unescape_cons_of_ne (fun h => hspecial (Or.inr h)), ih]
      rfl

end Text

namespace Grammar

variable {quote : Char}

/-- Between quotes, an escaped text is read to its end. -/
theorem readBody_escapeFor (hquote : quote ≠ '\\') (text rest : List Char) :
    readBody quote (Text.escapeFor quote text ++ quote :: rest) =
      some (Text.escapeFor quote text, rest) := by
  induction text with
  | nil => exact readBody_closing hquote rest
  | cons c text ih =>
    by_cases hspecial : c = quote ∨ c = '\\'
    · rw [Text.escapeFor_cons_of_special hspecial, List.cons_append, List.cons_append,
        readBody_escape, ih]
      rfl
    · obtain ⟨hother, hslash⟩ := not_or.mp hspecial
      rw [Text.escapeFor_cons_of_plain hspecial, List.cons_append, readBody_plain hslash hother, ih]
      rfl

/-- A text as it is written between quotes of a kind. -/
def QuotedText.of (quote : Char) (text : List Char) : QuotedText :=
  ⟨quote, Text.escapeFor quote text⟩

/-- A text that is written between quotes is read from quote to quote. -/
theorem readQuoted_of (hquote : quote ≠ '\\') (text rest : List Char) :
    readQuoted quote ((QuotedText.of quote text).text ++ rest) =
      some (QuotedText.of quote text, rest) := by
  have hbody := readBody_escapeFor hquote text rest
  show readQuoted quote (quote :: (Text.escapeFor quote text ++ [quote] ++ rest)) = _
  rw [List.append_assoc, List.singleton_append, readQuoted, if_pos rfl, hbody]
  rfl

end Grammar

open Scan

namespace Chain

variable {inner : Scan ExprRule Chain} {quote : Char} {text : List Char} {token : String}

theorem isGap_quote (hquote : quote = '"' ∨ quote = '\'') : isGap quote = false := by
  rcases hquote with rfl | rfl <;> rfl

/-- Behind the gap stands the quoted text as a whole. -/
theorem exists_readQuoted (hquote : quote = '"' ∨ quote = '\'')
    (htoken : token.toList = (Grammar.QuotedText.of quote text).text) {left : List String}
    {source : List Char} (hsource : Spaced (token :: left) source) :
    ∃ behind, Grammar.readQuoted quote (clear source) =
      some (Grammar.QuotedText.of quote text, behind) ∧ Spaced left behind := by
  have hbackslash : quote ≠ '\\' := by rcases hquote with rfl | rfl <;> decide
  obtain ⟨behind, hclear, hbehind⟩ := hsource.exists_cons htoken (isGap_quote hquote)
  refine ⟨behind, ?_, hbehind⟩
  rw [hclear]
  exact Grammar.readQuoted_of hbackslash text behind

/-- A text between quotes is a term. -/
theorem readsTokens_text (hquote : quote = '"' ∨ quote = '\'')
    (htoken : token.toList = (Grammar.QuotedText.of quote text).text) (left : List String) :
    (scanTerm inner).ReadsTokens
      (fun term => ∃ place, term = .text place (Grammar.QuotedText.of quote text))
      (token :: left) left := by
  intro source hsource
  obtain ⟨behind, hread, hbehind⟩ := exists_readQuoted hquote htoken hsource
  exact ⟨behind, reads_scanTerm_text hquote hread, hbehind⟩

/-- A quote is no sign. -/
theorem beginsWith_quoted (hquote : quote = '"' ∨ quote = '\'')
    (htoken : token.toList = (Grammar.QuotedText.of quote text).text) (left : List String) :
    BeginsWith (· ∉ signChars) (token :: left) := by
  have hnotSign : quote ∉ signChars := by rcases hquote with rfl | rfl <;> decide
  exact beginsWith_cons htoken (isGap_quote hquote) hnotSign

/-- What is written between the quotes, decoded. -/
theorem toExpr_quoted (hquote : quote = '"' ∨ quote = '\'') (source : String)
    (place limit depth : Nat) :
    (Term.text place (Grammar.QuotedText.of quote text)).toExpr source limit depth =
      .ok (.literal (.string (String.ofList text))) :=
  Term.toExpr_text_eq_ok_iff.mpr ⟨text, Text.unescape_escapeFor hquote text, rfl⟩

/-- Nothing that is nested stands outside the quotes. -/
theorem deepest_quoted (hquote : quote = '"' ∨ quote = '\'')
    (htoken : token.toList = (Grammar.QuotedText.of quote text).text) {source : List Char}
    (hsource : Spaced [token] source) : Brackets.deepest none 0 source = 0 := by
  obtain ⟨behind, hquoted, hbehind⟩ := exists_readQuoted hquote htoken hsource
  -- what stands between the quotes is passed over as a whole
  rw [← Brackets.deepest_clear, Brackets.deepest_of_readQuoted hquote hquoted,
    ← Brackets.deepest_clear, hbehind.clear_eq_nil]
  rfl

end Chain

namespace Expr

variable {quote : Char} (hquote : quote = '"' ∨ quote = '\'') {text : List Char} {source : String}
  {limit : Nat}
include hquote

/-- **A text that is written between quotes stands for itself**, whatever is in it. -/
theorem parseWithin_quoted
    (hsource : Spaced [String.ofList (Grammar.QuotedText.of quote text).text] source.toList)
    (hlimit : 1 ≤ limit) :
    parseWithin limit source = .ok (.literal (.string (String.ofList text))) := by
  have htoken := String.toList_ofList (l := (Grammar.QuotedText.of quote text).text)
  refine parseWithin_signedTerm []
    (Chain.readsTokens_noSign (Chain.beginsWith_quoted hquote htoken []))
    (fun _ => Chain.readsTokens_text hquote htoken []) ?_ hsource
    (Chain.deepest_quoted hquote htoken hsource) hlimit
  rintro _ ⟨place, rfl⟩ depth
  exact Chain.toExpr_quoted hquote source place limit depth

/-- A sign may stand before the quotes. -/
theorem parseWithin_signed_quoted (op : UnaryOp)
    (hsource : Spaced [op.spelling, String.ofList (Grammar.QuotedText.of quote text).text]
      source.toList)
    (hlimit : 2 ≤ limit) :
    parseWithin limit source = .ok (.unary op (.literal (.string (String.ofList text))) true) := by
  have htoken := String.toList_ofList (l := (Grammar.QuotedText.of quote text).text)
  -- neither the sign nor what is between the quotes counts as a bracket
  have hbrackets : Brackets.deepest none 0 source.toList = 0 := by
    obtain ⟨behind, hclear, hbehind⟩ := hsource.exists_clear_eq
    have hsign : ∀ c ∈ op.spelling.toList, c ∉ Brackets.special := by
      cases op <;> exact List.all_iff_forall_prop.mp (by decide)
    rw [← Brackets.deepest_clear, hclear, Brackets.deepest_clear,
      Brackets.deepest_append_of_notMem hsign]
    exact Chain.deepest_quoted hquote htoken hbehind
  refine parseWithin_signedTerm [op]
    (Chain.readsTokens_oneSign op (Chain.beginsWith_quoted hquote htoken []))
    (fun _ => Chain.readsTokens_text hquote htoken []) ?_ hsource hbrackets hlimit
  rintro _ ⟨place, rfl⟩ depth
  exact Chain.toExpr_quoted hquote source place limit depth

end Expr

end CheckedExpr
