import CheckedExpr.Grammar.Scan

/-!
# Names, words and quoted texts

The lexemes that expressions and descriptors share. Names are made of ASCII letters, digits, the
underscore and the dollar sign, and do not begin with a digit. Each reader takes as many characters
as it can, and what it has read, put before what it left, is what it was given:

* `append_of_readName`, `append_of_readWord`, `append_of_readQuoted`.
-/

namespace CheckedExpr.Grammar

/-- A character that a name may begin with. -/
def isNameStart (c : Char) : Bool := c.isAlpha || c == '_' || c == '$'

/-- A character that a name may go on with. -/
def isNameChar (c : Char) : Bool := c.isAlphanum || c == '_' || c == '$'

/-- Whether a word that stands before these characters ends there. -/
def endsWord : List Char → Bool
  | [] => true
  | c :: _ => !isNameChar c

/-- Reads a name: all characters that can belong to it. -/
def readName : List Char → Option (List Char × List Char)
  | [] => none
  | c :: cs =>
    if isNameStart c then some (c :: cs.takeWhile isNameChar, cs.dropWhile isNameChar) else none

/-- Reads a given word that no further character of a name follows. -/
def readWord (word text : List Char) : Option (List Char) :=
  (word.isPrefixOf? text).filter endsWord

/-- A text in quotes as it is written. -/
structure QuotedText where
  quote : Char
  /-- The characters between the quotes, escapes not yet read. -/
  body : List Char
  deriving DecidableEq, Repr

/-- The characters from quote to quote. -/
def QuotedText.text (q : QuotedText) : List Char := q.quote :: (q.body ++ [q.quote])

/-- Reads up to the closing quote and over it. A backslash keeps the next character from closing
the text. -/
def readBody (quote : Char) : List Char → Option (List Char × List Char)
  | [] => none
  -- a backslash at the end escapes nothing, so the text is never closed
  | '\\' :: [] => none
  | '\\' :: c :: rest =>
    (readBody quote rest).map fun (body, after) => ('\\' :: c :: body, after)
  | c :: rest =>
    if c = quote then some ([], rest)
    else (readBody quote rest).map fun (body, after) => (c :: body, after)

/-- Reads a text between two quotes of the given kind. -/
def readQuoted (quote : Char) : List Char → Option (QuotedText × List Char)
  | [] => none
  | c :: cs =>
    if c = quote then (readBody quote cs).map fun (body, after) => (⟨quote, body⟩, after) else none

/-! ### The steps of reading between quotes -/

/-- A quote that is no backslash closes what is read. -/
theorem readBody_closing {quote : Char} (hslash : quote ≠ '\\') (rest : List Char) :
    readBody quote (quote :: rest) = some ([], rest) := by
  rw [readBody, if_pos rfl]
  · intro h; exact absurd h hslash
  · intro _ _ h; exact absurd h hslash

/-- A backslash and the character behind it are read together, even if the character is a quote. -/
theorem readBody_escape (quote c : Char) (rest : List Char) :
    readBody quote ('\\' :: c :: rest) =
      (readBody quote rest).map fun (body, after) => ('\\' :: c :: body, after) := by
  rw [readBody]

/-- Any other character is read alone. -/
theorem readBody_plain {quote c : Char} (hslash : c ≠ '\\') (hquote : c ≠ quote)
    (rest : List Char) :
    readBody quote (c :: rest) =
      (readBody quote rest).map fun (body, after) => (c :: body, after) := by
  rw [readBody, if_neg hquote]
  · intro h; exact absurd h hslash
  · intro _ _ h; exact absurd h hslash

/-- What has been read ends at a quote, and before it stand escapes and hslash characters. -/
theorem readBody_induction {quote : Char} {motive : List Char → List Char → List Char → Prop}
    (closing : quote ≠ '\\' → ∀ rest, motive (quote :: rest) [] rest)
    (escape : ∀ c text body rest, motive text body rest →
      motive ('\\' :: c :: text) ('\\' :: c :: body) rest)
    (plain : ∀ c text body rest, c ≠ '\\' → c ≠ quote → motive text body rest →
      motive (c :: text) (c :: body) rest)
    {text body rest : List Char} (h : readBody quote text = some (body, rest)) :
    motive text body rest := by
  -- the two rules for a backslash are tried first; where neither applies there is no backslash
  have hfree {c : Char} {cs : List Char} (hend : c = '\\' → cs = [] → False)
      (hpair : ∀ d ds, c = '\\' → cs = d :: ds → False) : c ≠ '\\' := by
    intro hslash
    cases cs with
    | nil => exact hend hslash rfl
    | cons d ds => exact hpair d ds hslash rfl
  induction text using readBody.induct quote generalizing body rest with
  | case1 => simp [readBody] at h
  | case2 => simp [readBody] at h
  | case3 c cs ih =>
    rw [readBody_escape] at h
    obtain ⟨⟨inner, after⟩, hinside, hsame⟩ := Option.map_eq_some_iff.mp h
    cases hsame
    exact escape c cs inner _ (ih hinside)
  -- the quote itself: were it a backslash, an earlier rule would have applied
  | case4 cs hend hpair =>
    have hslash : quote ≠ '\\' := hfree hend hpair
    rw [readBody_closing hslash] at h
    cases h
    exact closing hslash cs
  | case5 c cs hend hpair hother ih =>
    have hslash : c ≠ '\\' := hfree hend hpair
    rw [readBody_plain hslash hother] at h
    obtain ⟨⟨inner, after⟩, hinside, hsame⟩ := Option.map_eq_some_iff.mp h
    cases hsame
    exact plain c cs inner _ hslash hother (ih hinside)

/-! ### Nothing is lost -/

/-- Two texts are held against each other character by character. -/
theorem isPrefixOf?_cons_cons (w c : Char) (word text : List Char) :
    (w :: word).isPrefixOf? (c :: text) = if w == c then word.isPrefixOf? text else none := rfl

/-- What is left behind a word, put behind the word, is what there was. -/
theorem append_of_isPrefixOf? {word text rest : List Char}
    (h : word.isPrefixOf? text = some rest) : text = word ++ rest := by
  -- by induction on the word, over all texts
  induction word generalizing text with
  | nil => exact Option.some.inj h
  | cons w ws ih =>
    cases text with
    | nil => cases h
    | cons c cs =>
      rw [isPrefixOf?_cons_cons] at h
      split at h
      next hsame => rw [ih h, beq_iff_eq.1 hsame]; rfl
      next => cases h

/-- **A name and what is left behind it are what there was.** -/
theorem append_of_readName {text name rest : List Char} (h : readName text = some (name, rest)) :
    text = name ++ rest := by
  cases text with
  | nil => simp [readName] at h
  | cons c cs =>
    simp only [readName] at h
    split at h
    next =>
      simp only [Option.some.injEq, Prod.mk.injEq] at h
      rw [← h.1, ← h.2, List.cons_append, List.takeWhile_append_dropWhile]
    next => simp at h

/-- **A word and what is left behind it are what there was.** -/
theorem append_of_readWord {word text rest : List Char} (h : readWord word text = some rest) :
    text = word ++ rest :=
  append_of_isPrefixOf? (Option.filter_eq_some_iff.1 h).1

/-- What stands before the closing quote, the quote and what is left are what there was. -/
theorem append_of_readBody {quote : Char} {text body rest : List Char}
    (h : readBody quote text = some (body, rest)) : text = body ++ quote :: rest := by
  -- one case for each rule; an escape loses neither of its characters
  refine readBody_induction (motive := fun text body rest => text = body ++ quote :: rest)
    ?closing ?escape ?plain h
  case closing =>
    intro _ rest
    rfl
  case escape =>
    intro c text body rest hsame
    rw [hsame, List.cons_append, List.cons_append]
  case plain =>
    intro c text body rest _ _ hsame
    rw [hsame, List.cons_append]

/-- **A quoted text and what is left behind it are what there was**, both quotes included. -/
theorem append_of_readQuoted {quote : Char} {text rest : List Char} {q : QuotedText}
    (h : readQuoted quote text = some (q, rest)) : text = q.text ++ rest := by
  cases text with
  | nil => simp [readQuoted] at h
  | cons c cs =>
    simp only [readQuoted] at h
    split at h
    next hsame =>
      simp only [Option.map_eq_some_iff, Prod.mk.injEq] at h
      obtain ⟨⟨body, after⟩, hinside, rfl, rfl⟩ := h
      simp [QuotedText.text, append_of_readBody hinside, hsame]
    next => simp at h

end CheckedExpr.Grammar
