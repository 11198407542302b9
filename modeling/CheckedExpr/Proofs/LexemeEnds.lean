import CheckedExpr.Chain.Reading
import Mathlib.Data.Bool.AllAny

/-!
# Where a lexeme ends

A lexeme is read as far as it goes, so what stands behind it matters: `1` before `.5` is not the
number that it is alone. A gap, a comma, a closing bracket and a colon are no part of a lexeme
outside quotes. If a text stands before one of them, or before nothing, each reader does on the
longer text what it does on the text alone: it reads the same and leaves what it left, together with
what was added (`Settled`).

* `settled_readNumeral`, `settled_readName`, `settled_readIdentifier`, `readWord_append`: the readers
  that go as far as they can.
* `readQuoted_append`: a quoted text that was read ends at its quote, whatever follows.
-/

namespace CheckedExpr

/-- The characters that no lexeme goes on with. -/
def lexemeEnds : List Char := [' ', '\t', '\r', '\n', ')', ']', ',', ':']

/-- The characters that may stand behind a chain. -/
def followers : List Char := [')', ']', ',', ':']

/-- The characters that a suffix begins with. -/
def openers : List Char := ['(', '[', '.']

/-- The signs. -/
def signChars : List Char := ['-', '!', '~', '+']

theorem mem_lexemeEnds_of_isGap {c : Char} (h : Scan.isGap c = true) : c ∈ lexemeEnds := by
  simp only [Scan.isGap, Bool.or_eq_true, beq_iff_eq] at h
  rcases h with ((rfl | rfl) | rfl) | rfl <;> decide

theorem isGap_eq_false_of_notMem {c : Char} (h : c ∉ lexemeEnds) : Scan.isGap c = false := by
  rw [← Bool.not_eq_true]
  exact fun hgap => h (mem_lexemeEnds_of_isGap hgap)

-- the lists are gone through one by one: deciding such a fact at once may go through all characters
theorem mem_lexemeEnds_of_mem_followers : ∀ c ∈ followers, c ∈ lexemeEnds :=
  List.all_iff_forall_prop.mp (by decide)

theorem notMem_openers : ∀ c ∈ lexemeEnds, c ∉ openers :=
  List.all_iff_forall_prop.mp (by decide)

theorem notMem_signChars : ∀ c ∈ lexemeEnds, c ∉ signChars :=
  List.all_iff_forall_prop.mp (by decide)

/-- Whether a text begins with such a character, if it is not empty. -/
def EndsLexeme (text : List Char) : Prop := ∀ c ∈ text.head?, c ∈ lexemeEnds

variable {α : Type} {added : List Char}

/-- A text that ends a lexeme begins with none of the characters of a class that has no such
character. -/
theorem EndsLexeme.eq_false {p : Char → Bool} (hp : lexemeEnds.all (!p ·) = true) {c : Char}
    (h : EndsLexeme (c :: added)) : p c = false := by
  have hmem : c ∈ lexemeEnds := h c rfl
  have hnot := List.all_eq_true.mp hp c hmem
  rwa [Bool.not_eq_true'] at hnot

theorem EndsLexeme.ne {c d : Char} (hd : d ∉ lexemeEnds) (h : EndsLexeme (c :: added)) : c ≠ d := by
  rintro rfl
  exact hd (h c rfl)

/-- The characters of such a class that a text begins with are the same ones with something
added. -/
theorem takeWhile_append {p : Char → Bool} (hp : lexemeEnds.all (!p ·) = true)
    (h : EndsLexeme added) (text : List Char) :
    (text ++ added).takeWhile p = text.takeWhile p := by
  induction text with
  | nil =>
    cases added with
    | nil => rfl
    | cons c added => simp [h.eq_false hp]
  | cons c text ih =>
    rw [List.cons_append, List.takeWhile_cons, List.takeWhile_cons, ih]

/-- And what is left of the text is followed by what was added. -/
theorem dropWhile_append {p : Char → Bool} (hp : lexemeEnds.all (!p ·) = true)
    (h : EndsLexeme added) (text : List Char) :
    (text ++ added).dropWhile p = text.dropWhile p ++ added := by
  induction text with
  | nil =>
    cases added with
    | nil => rfl
    | cons c added => simp [h.eq_false hp]
  | cons c text ih =>
    rw [List.cons_append, List.dropWhile_cons, List.dropWhile_cons, ih]
    split <;> rfl

/-- Whether a reader does on a text that something is added to what it does on the text alone, if
what is added ends a lexeme. -/
def Settled (read : List Char → Option (α × List Char)) : Prop :=
  ∀ text added, EndsLexeme added →
    read (text ++ added) = (read text).map fun (a, rest) => (a, rest ++ added)

/-- What was read from a text alone is read from the longer one. -/
theorem Settled.append {read : List Char → Option (α × List Char)} (hread : Settled read)
    (h : EndsLexeme added) {text rest : List Char} {a : α} (hsome : read text = some (a, rest)) :
    read (text ++ added) = some (a, rest ++ added) := by
  rw [hread text added h, hsome]
  rfl

/-- Turning down some of the results does not depend on what was added. -/
theorem Settled.filter {read : List Char → Option (α × List Char)} (hread : Settled read)
    (p : α → Bool) : Settled fun text => (read text).filter fun (a, _) => p a := by
  intro text added h
  show (read (text ++ added)).filter _ = ((read text).filter _).map _
  rw [hread text added h]
  cases read text with
  | none => rfl
  | some found =>
    simp only [Option.map_some, Option.filter_some]
    split <;> rfl

/-! ### Numerals -/

/-- The sign of an exponent is not looked for in what was added. -/
theorem readSign_append (h : EndsLexeme added) (text : List Char) :
    Exponent.readSign (text ++ added) =
      ((Exponent.readSign text).1, (Exponent.readSign text).2 ++ added) := by
  cases text with
  | nil =>
    cases added with
    | nil => rfl
    | cons c added =>
      -- what is added is looked at for a sign, and has none
      have hplus : c ≠ '+' := h.ne (by decide)
      have hminus : c ≠ '-' := h.ne (by decide)
      simp [Exponent.readSign, hplus, hminus]
  | cons c text =>
    rw [List.cons_append]
    unfold Exponent.readSign
    split <;> simp_all

/-- An exponent does not begin in what was added. -/
theorem readExponent_append (h : EndsLexeme added) (text : List Char) :
    Exponent.read (text ++ added) =
      ((Exponent.read text).1, (Exponent.read text).2 ++ added) := by
  cases text with
  | nil =>
    cases added with
    | nil => rfl
    | cons c added =>
      -- what is added does not begin with a marker
      have hlower : c ≠ 'e' := h.ne (by decide)
      have hupper : c ≠ 'E' := h.ne (by decide)
      simp [Exponent.read, hlower, hupper]
  | cons c text =>
    rw [List.cons_append, Exponent.read, Exponent.read, readSign_append h]
    simp only [takeWhile_append (p := isDigit) (by decide) h,
      dropWhile_append (p := isDigit) (by decide) h]
    split <;> rfl

/-- A fraction does not begin in what was added. -/
theorem readFraction_append (h : EndsLexeme added) (text : List Char) :
    Decimal.readFraction (text ++ added) =
      ((Decimal.readFraction text).1, (Decimal.readFraction text).2 ++ added) := by
  cases text with
  | nil =>
    cases added with
    | nil => rfl
    | cons c added =>
      -- what is added does not begin with a point
      have hpoint : c ≠ '.' := h.ne (by decide)
      simp [Decimal.readFraction, hpoint]
  | cons c text =>
    by_cases hpoint : c = '.'
    · subst hpoint
      rw [List.cons_append, Decimal.readFraction, Decimal.readFraction,
        takeWhile_append (by decide) h, dropWhile_append (by decide) h]
    · simp [Decimal.readFraction, hpoint]

/-- A decimal number is settled since its three parts are. -/
theorem settled_readDecimal : Settled Decimal.read := by
  intro text added h
  unfold Decimal.read
  simp only [takeWhile_append (p := isDigit) (by decide) h,
    dropWhile_append (p := isDigit) (by decide) h, readFraction_append h, readExponent_append h]
  split <;> rfl

/-- A hexadecimal number is settled, also where only its zero or nothing stands in the text. -/
theorem settled_readHex : Settled Numeral.readHex := by
  intro text added h
  -- the zero and the marker are two characters, so what is added may come to stand for either
  match text with
  | [] =>
    cases added with
    | nil => rfl
    | cons c added =>
      have hzero : c ≠ '0' := h.ne (by decide)
      cases added <;> simp [Numeral.readHex, hzero]
  | [c] =>
    cases added with
    | nil => simp [Numeral.readHex]
    | cons d added =>
      have hlower : d ≠ 'x' := h.ne (by decide)
      have hupper : d ≠ 'X' := h.ne (by decide)
      by_cases hzero : c = '0'
      · subst hzero
        simp [Numeral.readHex, hlower, hupper]
      · simp [Numeral.readHex, hzero]
  | c :: marker :: text =>
    by_cases hzero : c = '0'
    · subst hzero
      simp only [List.cons_append, Numeral.readHex,
        takeWhile_append (p := Text.isHexDigit) (by decide) h,
        dropWhile_append (p := Text.isHexDigit) (by decide) h]
      split <;> rfl
    · simp [Numeral.readHex, hzero]

/-- **A numeral is settled**, whichever of the two notations it has. -/
theorem settled_readNumeral : Settled Numeral.read := by
  intro text added h
  unfold Numeral.read
  rw [settled_readHex text added h]
  cases Numeral.readHex text with
  | some found => rfl
  | none =>
    rw [Option.map_none]
    simp only [settled_readDecimal text added h, Option.map_map]
    rfl

/-! ### Names and words -/

/-- A name goes on with letters and digits, which end no lexeme. -/
theorem settled_readName : Settled Grammar.readName := by
  intro text added h
  cases text with
  | nil =>
    cases added with
    | nil => rfl
    | cons c added =>
      -- what is added does not begin with a letter
      have hstart : Grammar.isNameStart c = false := h.eq_false (by decide)
      simp [Grammar.readName, hstart]
  | cons c text =>
    rw [List.cons_append, Grammar.readName, Grammar.readName,
      takeWhile_append (by decide) h, dropWhile_append (by decide) h]
    split <;> rfl

theorem settled_readIdentifier : Settled Chain.readIdentifier :=
  settled_readName.filter fun name => !Chain.keywords.contains name

/-- A row of given characters does not go on in what is added if that does not begin with one of
them. -/
theorem isPrefixOf?_append_of_head? {word : List Char} (h : ∀ c ∈ added.head?, c ∉ word)
    (text : List Char) :
    word.isPrefixOf? (text ++ added) = (word.isPrefixOf? text).map (· ++ added) := by
  induction word generalizing text with
  | nil => cases text <;> rfl
  | cons w word ih =>
    have hmore : ∀ c ∈ added.head?, c ∉ word :=
      fun c hc hmem => h c hc (List.mem_cons_of_mem w hmem)
    cases text with
    | nil =>
      cases added with
      | nil => rfl
      | cons c added =>
        -- the word would have to go on in what is added
        have hne : w ≠ c := fun hsame => h c rfl (hsame ▸ List.mem_cons_self)
        rw [List.nil_append, Grammar.isPrefixOf?_cons_cons, beq_false_of_ne hne]
        rfl
    | cons c text =>
      rw [List.cons_append, Grammar.isPrefixOf?_cons_cons, Grammar.isPrefixOf?_cons_cons]
      split
      · exact ih hmore text
      · rfl

/-- What ends a lexeme occurs in no word that has no such character. -/
theorem EndsLexeme.notMem {word : List Char} (hword : ∀ c ∈ word, c ∉ lexemeEnds)
    (h : EndsLexeme added) : ∀ c ∈ added.head?, c ∉ word :=
  fun c hc hmem => hword c hmem (h c hc)

/-- Whether a word ends is seen at the text alone. -/
theorem endsWord_append (h : EndsLexeme added) (rest : List Char) :
    Grammar.endsWord (rest ++ added) = Grammar.endsWord rest := by
  cases rest with
  | nil =>
    cases added with
    | nil => rfl
    | cons c added =>
      -- a word that ends with the text still ends there
      have hname : Grammar.isNameChar c = false := h.eq_false (by decide)
      simp [Grammar.endsWord, hname]
  | cons c rest => rfl

/-- A word is settled since it ends where the text says so. -/
theorem readWord_append {word : List Char} (hword : ∀ c ∈ word, c ∉ lexemeEnds)
    (h : EndsLexeme added) (text : List Char) :
    Grammar.readWord word (text ++ added) = (Grammar.readWord word text).map (· ++ added) := by
  unfold Grammar.readWord
  rw [isPrefixOf?_append_of_head? (h.notMem hword)]
  cases word.isPrefixOf? text with
  | none => rfl
  | some rest =>
    rw [Option.map_some, Option.filter_some, Option.filter_some, endsWord_append h]
    split <;> rfl

/-! ### Quoted texts -/

/-- What is added behind a text that was read is left. -/
theorem readBody_append {quote : Char} {text body rest : List Char}
    (h : Grammar.readBody quote text = some (body, rest)) (added : List Char) :
    Grammar.readBody quote (text ++ added) = some (body, rest ++ added) := by
  -- by induction on how the body was read: up to the quote, past an escape, or past a character
  refine Grammar.readBody_induction
    (motive := fun text body rest =>
      Grammar.readBody quote (text ++ added) = some (body, rest ++ added))
    ?closing ?escape ?plain h
  case closing =>
    intro hslash rest
    exact Grammar.readBody_closing hslash (rest ++ added)
  case escape =>
    intro c text body rest ih
    rw [List.cons_append, List.cons_append, Grammar.readBody_escape, ih]
    rfl
  case plain =>
    intro c text body rest hslash hquote ih
    rw [List.cons_append, Grammar.readBody_plain hslash hquote, ih]
    rfl

/-- A quoted text ends at its quote, so what was added is left. -/
theorem readQuoted_append {quote : Char} {text rest : List Char} {written : Grammar.QuotedText}
    (h : Grammar.readQuoted quote text = some (written, rest)) (added : List Char) :
    Grammar.readQuoted quote (text ++ added) = some (written, rest ++ added) := by
  cases text with
  | nil => cases h
  | cons c cs =>
    simp only [Grammar.readQuoted] at h
    split at h
    · next hsame =>
      -- the body ends with its quote, so it does not reach what is added
      obtain ⟨⟨body, after⟩, hbody, hread⟩ := Option.map_eq_some_iff.mp h
      cases hread
      rw [List.cons_append, Grammar.readQuoted, if_pos hsame, readBody_append hbody]
      rfl
    · cases h

end CheckedExpr
