import CheckedExpr.Proofs.ChainReading
import CheckedExpr.Proofs.DecimalNumerals

/-!
# The lexemes of a text

A text of code is a row of lexemes with gaps between them: marks, words, numerals and quoted texts.
What a lexeme is and where it ends is described here without the functions that read it. A lexeme
goes on as long as it can, so where it begins, only one lexeme stands, and the text has one row of
lexemes at most.

* `Lexeme.EndsBefore`: how a lexeme is written, and what may follow it.
* `Lexes`: the lexemes that stand in a text.
* `Lexes.unique`: a text has one row of lexemes at most.
-/

namespace CheckedExpr

open Scan

/-- A smallest part of a text of code. -/
inductive Lexeme where
  /-- An operator, a bracket or what separates parts from each other. -/
  | mark (spelling : String)
  /-- A name, or a word with a meaning of its own. -/
  | word (letters : List Char)
  | number (n : Numeral)
  | quoted (written : Grammar.QuotedText)
  deriving DecidableEq, Repr

/-- The marks: brackets, separators, signs, and the operators that are not words. -/
def marks : List String :=
  ["(", ")", "[", "]", ",", ".", "?", ":", "!", "~", "+", "-", "*", "/", "%", "<<", ">>", ">>>",
    "<", ">", "<=", ">=", "==", "!=", "===", "!==", "&", "^", "|", "&&", "||", "??"]

/-- Whether no quote closes some characters between quotes early: each that stands there is behind
a backslash, and no backslash is the last character. -/
inductive Closed (quote : Char) : List Char → Prop
  | nil : Closed quote []
  | escape {c : Char} {body : List Char} (h : Closed quote body) : Closed quote ('\\' :: c :: body)
  | plain {c : Char} {body : List Char} (hslash : c ≠ '\\') (hquote : c ≠ quote)
      (h : Closed quote body) : Closed quote (c :: body)

namespace Lexeme

/-- The lexeme as it is written. -/
def chars : Lexeme → List Char
  | mark spelling => spelling.toList
  | word letters => letters
  | number n => n.text
  | quoted written => written.text

/-- Whether a lexeme is written as its kind is and ends before some characters. Of the marks, and of
the numerals, that stand there it is the longest one, and a point before a digit is no mark; a word
has all the characters that can belong to it; a quoted text goes on to the first quote of its kind
that is not escaped. -/
inductive EndsBefore : Lexeme → List Char → Prop
  | mark {spelling : String} {behind : List Char} (hmark : spelling ∈ marks)
      (hlongest : ∀ other ∈ marks, other.toList <+: spelling.toList ++ behind →
        other.toList.length ≤ spelling.toList.length)
      (hpoint : spelling = "." → NoDigitFirst behind) : EndsBefore (mark spelling) behind
  | word {c : Char} {cs behind : List Char} (hstart : Grammar.isNameStart c = true)
      (hchars : ∀ d ∈ cs, Grammar.isNameChar d = true) (hend : Grammar.endsWord behind = true) :
      EndsBefore (word (c :: cs)) behind
  | number {n : Numeral} {behind : List Char} (h : n.Spelled)
      (hlongest : ∀ other : Numeral, other.Spelled → other.text <+: n.text ++ behind →
        other.text.length ≤ n.text.length) : EndsBefore (number n) behind
  | quoted {quote : Char} {body : List Char} (hquote : quote = '"' ∨ quote = '\'')
      (h : Closed quote body) (behind : List Char) : EndsBefore (quoted ⟨quote, body⟩) behind

end Lexeme

/-- Whether some lexemes stand in a text up to a rest, with any gaps before, between and behind
them. -/
inductive Lexes : List Lexeme → (text rest : List Char) → Prop
  | nil {text rest : List Char} (h : clear text = clear rest) : Lexes [] text rest
  | cons {l : Lexeme} {ls : List Lexeme} {text behind rest : List Char}
      (h : clear text = l.chars ++ behind) (hends : l.EndsBefore behind)
      (more : Lexes ls behind rest) : Lexes (l :: ls) text rest

variable {l l' : Lexeme} {ls ls' : List Lexeme}
variable {text text' mid behind behind' rest rest' : List Char}

/-! ### One lexeme where one begins -/

namespace Lexeme

/-- The kinds of lexemes. -/
inductive Kind where
  | mark
  | word
  | number
  | quoted
  deriving DecidableEq

/-- The kind of a lexeme. -/
def kind : Lexeme → Kind
  | mark _ => .mark
  | word _ => .word
  | number _ => .number
  | quoted _ => .quoted

/-- The kind that the first characters of a text tell. A point belongs to the digit behind it. -/
def Kind.ofText : List Char → Kind
  | [] => .mark
  | c :: cs =>
    if Grammar.isNameStart c = true then .word
    else if c = '"' ∨ c = '\'' then .quoted
    else if isDigit c = true ∨ c = '.' ∧ cs.head?.any isDigit = true then .number
    else .mark

/-- A digit, or a point before one, begins a numeral. -/
theorem Kind.ofText_number {c : Char} {cs : List Char}
    (h : isDigit c = true ∨ c = '.' ∧ cs.head?.any isDigit = true) : ofText (c :: cs) = .number := by
  have hword : ¬ Grammar.isNameStart c = true := by
    intro hstart
    rcases h with hdigit | ⟨rfl, -⟩
    · rw [Chain.isDigit_eq_false_of_isNameStart hstart] at hdigit
      cases hdigit
    · exact absurd hstart (by decide)
  have hquoted : ¬(c = '"' ∨ c = '\'') := by
    rintro (rfl | rfl) <;> rcases h with hdigit | ⟨hpoint, -⟩ <;> contradiction
  rw [ofText, if_neg hword, if_neg hquoted, if_pos h]

/-- A decimal numeral begins with a digit, or with a point and a digit behind it. -/
theorem Kind.ofText_decimal {d : Decimal} (h : d.Spelled) (behind : List Char) :
    ofText (d.text ++ behind) = .number := by
  obtain ⟨whole, fraction, exponent⟩ := d
  cases whole with
  | cons c cs => exact ofText_number (.inl (h.whole c List.mem_cons_self))
  | nil =>
    -- without digits before the point there are some behind it
    obtain ⟨digits, rfl⟩ : ∃ digits, fraction = some digits := by
      cases fraction with
      | none => exact absurd rfl (h.digits.resolve_left (absurd rfl))
      | some digits => exact ⟨digits, rfl⟩
    obtain ⟨d, ds, rfl⟩ : ∃ d ds, digits = d :: ds :=
      List.exists_cons_of_ne_nil (h.digits.resolve_left (absurd rfl))
    have hdigit : isDigit d = true := h.fraction _ rfl d List.mem_cons_self
    exact ofText_number (.inr ⟨rfl, hdigit⟩)

/-- No first character of a mark begins a word, a quoted text or a numeral, but for the point. -/
theorem Kind.ofText_mark {spelling : String} (h : spelling ∈ marks)
    (hpoint : spelling = "." → NoDigitFirst behind) :
    ofText (spelling.toList ++ behind) = .mark := by
  -- a point in front of a digit begins a number, the other marks begin nothing else
  by_cases hone : spelling = "."
  · subst hone
    have hnone : behind.head?.any isDigit = false := by
      cases behind with
      | nil => rfl
      | cons c cs => exact hpoint rfl c rfl
    have hshape : ofText ('.' :: behind) =
        if isDigit '.' = true ∨ '.' = '.' ∧ behind.head?.any isDigit = true then .number
        else .mark := rfl
    rw [show ".".toList ++ behind = '.' :: behind from rfl, hshape, hnone]
    decide
  · have hall : ∀ other ∈ marks, other ≠ "." → ofText (other.toList ++ behind) = .mark := by
      simp only [marks, List.forall_mem_cons]
      and_intros
      all_goals first
        | exact fun _ => rfl
        | exact fun hne => absurd rfl hne
        | exact fun _ hmem => absurd hmem List.not_mem_nil
    exact hall spelling h hone

/-- A lexeme is of the kind that its first characters tell. -/
theorem EndsBefore.kind_eq (h : l.EndsBefore behind) : Kind.ofText (l.chars ++ behind) = l.kind := by
  cases h with
  | mark hmark _ hpoint => exact Kind.ofText_mark hmark hpoint
  -- the first letter decides, whatever stands behind it
  | word hstart _ _ => simp [chars, Kind.ofText, hstart, kind]
  | number h _ =>
    cases h with
    | decimal h => exact Kind.ofText_decimal h behind
    | hex => exact Kind.ofText_number (.inl rfl)
  | quoted hquote _ _ =>
    rcases hquote with rfl | rfl <;> rfl

/-- A word is read as far as its letters go, so it can be told from the text. -/
theorem eq_of_word_append {cs cs' : List Char}
    (hchars : ∀ d ∈ cs, Grammar.isNameChar d = true) (hend : Grammar.endsWord behind = true)
    (hchars' : ∀ d ∈ cs', Grammar.isNameChar d = true) (hend' : Grammar.endsWord behind' = true)
    (h : cs ++ behind = cs' ++ behind') : cs = cs' := by
  -- the characters of the word are the run of name characters in front
  have htake {cs behind : List Char} (hchars : ∀ d ∈ cs, Grammar.isNameChar d = true)
      (hend : Grammar.endsWord behind = true) :
      (cs ++ behind).takeWhile Grammar.isNameChar = cs := by
    rw [List.takeWhile_append_of_pos hchars]
    cases behind with
    | nil => simp
    | cons d ds => simp [show Grammar.isNameChar d = false by simpa [Grammar.endsWord] using hend]
  rw [← htake hchars hend, h, htake hchars' hend']

end Lexeme

/-- The first quote that is not escaped can be told from the text. -/
theorem Closed.eq_of_append {quote : Char} (hslash : quote ≠ '\\') {body body' : List Char}
    (h : Closed quote body) (h' : Closed quote body')
    (htext : body ++ quote :: behind = body' ++ quote :: behind') : body = body' := by
  -- both bodies are followed step by step, as the characters fix which step is next
  induction h generalizing body' with
  | nil =>
    cases h' with
    | nil => rfl
    | escape => exact absurd (List.cons_eq_cons.mp htext).1 hslash
    | plain _ hquote => exact absurd (List.cons_eq_cons.mp htext).1.symm hquote
  | escape _ ih =>
    cases h' with
    | nil => exact absurd (List.cons_eq_cons.mp htext).1.symm hslash
    | escape h' =>
      obtain ⟨-, hbehind⟩ := List.cons_eq_cons.mp htext
      obtain ⟨rfl, hbody⟩ := List.cons_eq_cons.mp hbehind
      rw [ih h' hbody]
    | plain hplain => exact absurd (List.cons_eq_cons.mp htext).1.symm hplain
  | plain hplain hquote _ ih =>
    cases h' with
    | nil => exact absurd (List.cons_eq_cons.mp htext).1 hquote
    | escape => exact absurd (List.cons_eq_cons.mp htext).1 hplain
    | plain _ _ h' =>
      obtain ⟨rfl, hbody⟩ := List.cons_eq_cons.mp htext
      rw [ih h' hbody]

/-- **Where a lexeme stands, no other one does.** -/
theorem Lexeme.EndsBefore.unique (h : l.EndsBefore behind) (h' : l'.EndsBefore behind')
    (htext : l.chars ++ behind = l'.chars ++ behind') : l = l' := by
  have hkind : l.kind = l'.kind := by rw [← h.kind_eq, htext, h'.kind_eq]
  -- of one kind, two lexemes at one place are each as long as the other, or end at the same
  -- character
  cases h with
  | mark hmark hlongest =>
    cases h' with
    | word | number | quoted => cases hkind
    | mark hmark' hlongest' =>
      have hle := hlongest' _ hmark ⟨behind, htext⟩
      have hle' := hlongest _ hmark' ⟨behind', htext.symm⟩
      rw [String.toList_inj.mp (List.append_inj_left htext (Nat.le_antisymm hle hle'))]
  | word hstart hchars hend =>
    cases h' with
    | mark | number | quoted => cases hkind
    | word hstart' hchars' hend' =>
      obtain ⟨rfl, hletters⟩ := List.cons_eq_cons.mp htext
      rw [eq_of_word_append hchars hend hchars' hend' hletters]
  | number hn hlongest =>
    cases h' with
    | mark | word | quoted => cases hkind
    | number hn' hlongest' =>
      have hle := hlongest' _ hn ⟨behind, htext⟩
      have hle' := hlongest _ hn' ⟨behind', htext.symm⟩
      rw [hn.eq_of_text_eq hn' (List.append_inj_left htext (Nat.le_antisymm hle hle'))]
  | quoted hquote hbody =>
    cases h' with
    | mark | word | number => cases hkind
    | quoted _ hbody' =>
      simp only [chars, Grammar.QuotedText.text, List.cons_append, List.append_assoc,
        List.nil_append] at htext
      obtain ⟨rfl, hbodies⟩ := List.cons_eq_cons.mp htext
      rw [hbody.eq_of_append (by rcases hquote with rfl | rfl <;> decide) hbody' hbodies]

/-- A lexeme is never empty, so a row of lexemes has an end. -/
theorem Lexeme.EndsBefore.chars_ne_nil (h : l.EndsBefore behind) : l.chars ≠ [] := by
  cases h with
  | mark hmark =>
    have hall : (marks.all fun spelling => !spelling.toList.isEmpty) = true := rfl
    have hne := List.all_eq_true.mp hall _ hmark
    simpa [Lexeme.chars] using hne
  | word | quoted => exact List.cons_ne_nil _ _
  | number h => exact h.text_ne_nil

/-! ### Rows of lexemes -/

namespace Lexes

/-- A gap before the lexemes more or less makes no difference. -/
theorem of_clear_eq (h : Lexes ls text rest) (hclear : clear text' = clear text) :
    Lexes ls text' rest := by
  cases h with
  | nil hrest => exact .nil (hclear.trans hrest)
  | cons hl hends more => exact .cons (hclear.trans hl) hends more

theorem of_clear_rest_eq (h : Lexes ls text rest) (hclear : clear rest = clear rest') :
    Lexes ls text rest' := by
  induction h with
  | nil hrest => exact .nil (hrest.trans hclear)
  | cons hl hends _ ih => exact .cons hl hends (ih hclear)

/-- Lexemes that follow each other are a row of lexemes. -/
theorem append (h : Lexes ls text mid) (h' : Lexes ls' mid rest) :
    Lexes (ls ++ ls') text rest := by
  induction h with
  | nil hmid => exact h'.of_clear_eq hmid
  | cons hl hends _ ih => exact .cons hl hends (ih h')

/-- Where a gap was taken away in between, they still follow each other. -/
theorem append_clear (h : Lexes ls text mid) (h' : Lexes ls' (clear mid) rest) :
    Lexes (ls ++ ls') text rest :=
  h.append (h'.of_clear_eq (clear_clear mid).symm)

/-- A single lexeme at the front of a text, where no gap stands. -/
theorem single (hclear : clear text = text) (htext : text = l.chars ++ rest)
    (hends : l.EndsBefore rest) : Lexes [l] text rest :=
  .cons (hclear.trans htext) hends (.nil rfl)

/-- **A text has one row of lexemes at most.** -/
theorem unique (h : Lexes ls text rest) (h' : Lexes ls' text rest) (hrest : clear rest = []) :
    ls = ls' := by
  -- along one of the rows; the rest must be clear, or one row could stop where the other goes on
  induction h generalizing ls' with
  | nil hnil =>
    cases h' with
    | nil => rfl
    | cons hl hends =>
      rw [hnil, hrest] at hl
      exact absurd (List.append_eq_nil_iff.mp hl.symm).1 hends.chars_ne_nil
  | cons hl hends _ ih =>
    cases h' with
    | nil hnil =>
      rw [hnil, hrest] at hl
      exact absurd (List.append_eq_nil_iff.mp hl.symm).1 hends.chars_ne_nil
    | cons hl' hends' more' =>
      -- one lexeme stands first, so what is behind it is one text
      have hsame := hl.symm.trans hl'
      obtain rfl := hends.unique hends' hsame
      obtain rfl := List.append_cancel_left hsame
      rw [ih more' hrest]

end Lexes

end CheckedExpr
