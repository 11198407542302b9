import CheckedExpr.Proofs.ChainSyntax
import CheckedExpr.Proofs.LexemeEnds

/-!
# How a chain is read

The rules of the grammar of expressions once more, from the parts to the whole: if the parts are
read from the texts that stand there, so is what they make up. Each choice of the grammar needs
besides that the alternatives before the right one refuse the text. Mostly its first character is
enough for that.

* `Scan.ReadsRow`: what a repetition reads, item by item, whatever gaps are between them.
* `Chain.reads_scanTerm_name` and its neighbours: one rule for each alternative.
* `Chain.refuses_scanTerm` and its neighbours: the first characters that a rule refuses.
-/

namespace CheckedExpr

namespace Scan

variable {ρ α γ : Type} {item : Scan ρ α} {P : γ → α → Prop} {text mid rest : List Char}

/-- The property of what is read may be weakened. -/
theorem Reads.mono {R S : α → Prop} (h : item.Reads R text rest) (hle : ∀ a, R a → S a) :
    item.Reads S text rest := by
  intro offset attempts
  obtain ⟨a, stop, after, hscan, ha⟩ := h offset attempts
  exact ⟨a, stop, after, hscan, hle a ha⟩

/-! ### Rows -/

/-- Items that a scan reads one behind the other, with a gap before each of them. -/
inductive ReadsRow (item : Scan ρ α) (P : γ → α → Prop) : List γ → (text rest : List Char) → Prop
  | nil {text : List Char} : ReadsRow item P [] text text
  | cons {x : γ} {xs : List γ} {text mid rest : List Char}
      (first : item.Reads (P x) (clear text) mid) (more : ReadsRow item P xs mid rest) :
      ReadsRow item P (x :: xs) text rest

theorem reads_gap_bind {R : α → Prop} (h : item.Reads R (clear text) rest) :
    (do gap; item : Scan ρ α).Reads R text rest :=
  (reads_gap rfl).bind fun _ _ => h

/-- An item that is refused behind a gap is refused together with it. -/
theorem refuses_gap_bind (h : item.Refuses (clear text)) :
    (do gap; item : Scan ρ α).Refuses text :=
  (reads_gap rfl).bind_refuses fun _ _ => h

/-- A row is read by as many rounds as it has items, and one more that refuses. -/
theorem ReadsRow.exists_rounds {xs : List γ} (h : ReadsRow item P xs text rest)
    (hend : item.Refuses (clear rest)) {bound : List Char} (hbound : xs.length ≤ bound.length + 1)
    (offset : Nat) (attempts : Attempts ρ) :
    ∃ as stop after, rounds (do gap; item) bound ⟨text, offset⟩ attempts =
      ((as, ⟨rest, stop⟩), after) ∧ List.Forall₂ P xs as := by
  -- by induction on the row; the bound loses a character for every item
  induction h generalizing bound offset attempts with
  | nil =>
    obtain ⟨after, hrefuse⟩ := refuses_gap_bind hend offset attempts
    refine ⟨[], offset, after, ?_, .nil⟩
    cases bound <;> rw [rounds, hrefuse]
  | cons first more ih =>
    obtain ⟨a, stop, after, hread, ha⟩ := reads_gap_bind first offset attempts
    cases bound with
    | nil =>
      -- the bound is used up, so this item is the last one
      obtain rfl := List.length_eq_zero_iff.mp (Nat.le_zero.mp (Nat.le_of_succ_le_succ hbound))
      cases more
      exact ⟨[a], stop, after, by rw [rounds, hread], .cons ha .nil⟩
    | cons c bound =>
      obtain ⟨as, stop', after', hmore, has⟩ := ih hend (Nat.le_of_succ_le_succ hbound) stop after
      refine ⟨a :: as, stop', after', ?_, .cons ha has⟩
      rw [rounds, hread]
      simp only [hmore]

theorem reads_many_nil (h : item.Refuses text) :
    (many item).Reads (List.Forall₂ P ([] : List γ)) text text :=
  h.bind.orElse_reads (reads_pure .nil)

/-- **A first item and a row of further ones** are read if the row has no more items than there are
rounds. -/
theorem reads_many_cons {x : γ} {xs : List γ} (first : item.Reads (P x) text mid)
    (more : ReadsRow item P xs mid rest) (hend : item.Refuses (clear rest))
    (hlength : xs.length ≤ mid.length + 1) :
    (many item).Reads (List.Forall₂ P (x :: xs)) text rest := by
  -- behind the first item there are as many rounds as characters, and one
  refine Reads.orElse_left (first.bind fun a ha => ?_)
  have hrepeated : (repeated (do gap; item)).Reads (List.Forall₂ P xs) mid rest := by
    intro offset attempts
    obtain ⟨as, stop, after, hrounds, has⟩ := more.exists_rounds hend hlength offset attempts
    exact ⟨as, stop, after, by rw [repeated, hrounds], has⟩
  exact hrepeated.bind fun as has => reads_pure (.cons ha has)

theorem reads_afterComma {R : α → Prop} (h : item.Reads R (clear text) rest) :
    (afterComma item).Reads R (',' :: text) rest :=
  (reads_exactly [',']).bind fun _ _ => reads_gap_bind h

/-- A first item and those behind commas are read. -/
theorem reads_commaSeparated_cons {x : γ} {xs : List γ} (first : item.Reads (P x) text mid)
    (more : (many (afterComma item)).Reads (List.Forall₂ P xs) (clear mid) rest) :
    (commaSeparated item).Reads (List.Forall₂ P (x :: xs)) text rest := by
  refine Reads.orElse_left (first.bind fun a ha => ?_)
  refine (reads_gap rfl).bind fun _ _ => ?_
  exact more.bind fun as has => reads_pure (.cons ha has)

/-! ### First characters -/

/-- A text begins with a gap or with what it begins with behind the gap. -/
theorem forall_head?_of_clear {p : Char → Prop} (hgap : ∀ c, isGap c = true → p c)
    (h : ∀ c ∈ (clear text).head?, p c) : ∀ c ∈ text.head?, p c := by
  cases text with
  | nil => exact fun _ hc => absurd hc (by simp)
  | cons c text =>
    rintro d ⟨⟩
    by_cases hc : isGap c = true
    · exact hgap c hc
    · -- nothing is cut off, so it is the first character behind the gap
      rw [clear_of_not_isGap (by simpa using hc)] at h
      exact h c rfl

/-- A text that begins with another character does not begin with the word. -/
theorem isPrefixOf?_eq_none {c : Char} {word : List Char} (h : ∀ d ∈ text.head?, d ≠ c) :
    (c :: word).isPrefixOf? text = none := by
  cases text with
  | nil => rfl
  | cons d text =>
    have hne : (c == d) = false := beq_false_of_ne (h d rfl).symm
    rw [Grammar.isPrefixOf?_cons_cons, hne]
    rfl

theorem refuses_exactly_cons {c : Char} {word : List Char} (h : ∀ d ∈ text.head?, d ≠ c) :
    (exactly (c :: word) : Scan ρ Unit).Refuses text :=
  refuses_exactly (isPrefixOf?_eq_none h)

theorem refuses_afterComma (h : ∀ d ∈ text.head?, d ≠ ',') : (afterComma item).Refuses text :=
  (refuses_exactly_cons h).bind

end Scan

open Scan

namespace Chain

variable {inner : Scan ExprRule Chain} {text mid behind rest : List Char}

/-! ### Brackets -/

/-- A chain is read with the brackets around it, whatever gaps are inside them. -/
theorem reads_scanEnclosed {opening closing : Char} {P : Chain → Prop}
    (h : inner.Reads P (clear behind) mid) (hmid : clear mid = closing :: rest) :
    (scanEnclosed opening closing inner).Reads P (opening :: behind) rest := by
  refine (reads_exactly [opening]).bind fun _ _ => ?_
  refine (reads_gap rfl).bind fun _ _ => ?_
  refine h.bind fun c hc => ?_
  refine (reads_gap hmid).bind fun _ _ => ?_
  exact (reads_exactly [closing]).bind fun _ _ => reads_pure hc

/-- Chains with commas between them are read with the brackets around them. -/
theorem reads_scanList {opening closing : Char} {P : List Chain → Prop}
    (h : (commaSeparated inner).Reads P (clear behind) mid) (hmid : clear mid = closing :: rest) :
    (scanList opening closing inner).Reads P (opening :: behind) rest := by
  refine (reads_exactly [opening]).bind fun _ _ => ?_
  refine (reads_gap rfl).bind fun _ _ => ?_
  refine h.bind fun cs hcs => ?_
  refine (reads_gap hmid).bind fun _ _ => ?_
  exact (reads_exactly [closing]).bind fun _ _ => reads_pure hcs

/-- What is to stand in brackets is refused where the opening one is missing. -/
theorem refuses_scanEnclosed {opening closing : Char} (h : ∀ c ∈ text.head?, c ≠ opening) :
    (scanEnclosed opening closing inner).Refuses text :=
  (refuses_exactly_cons h).bind

theorem refuses_scanList {opening closing : Char} (h : ∀ c ∈ text.head?, c ≠ opening) :
    (scanList opening closing inner).Refuses text :=
  (refuses_exactly_cons h).bind

/-! ### Joints -/

/-- An operator is read where its spelling stands. -/
theorem reads_scanOperator {op : InfixOp} (h : readSpelling op text = some rest) :
    (scanOperator op).Reads (· = op) text rest := by
  rw [scanOperator_eq]
  exact Reads.rule (reads_lexeme (a := op) (by rw [h]; rfl) rfl)

/-- Where the characters of a spelling do not stand, the operator does not either. -/
theorem readSpelling_eq_none {op : InfixOp} (h : op.spelling.toList.isPrefixOf? text = none) :
    readSpelling op text = none := by
  unfold readSpelling
  -- of the two ways to read a spelling, both begin with the characters
  split
  · rw [Grammar.readWord, h]
    rfl
  · exact h

/-- An operator is refused where its spelling does not stand. -/
theorem refuses_scanOperator {op : InfixOp} (h : readSpelling op text = none) :
    (scanOperator op).Refuses text := by
  rw [scanOperator_eq]
  exact Refuses.rule (refuses_lexeme (by rw [h]; rfl))

/-- Only `??` begins with a question mark, so the middle of a choice is in nobody's way. -/
theorem reads_scanJoint_operator {op : InfixOp} {before after : List InfixOp}
    (horder : .binary .nullish :: operatorOrder = before ++ op :: after)
    (hbefore : ∀ other ∈ before, readSpelling other text = none)
    (h : readSpelling op text = some rest) :
    (scanJoint inner).Reads (· = .operator op) text rest := by
  rw [scanJoint_eq]
  have hop : (Joint.operator <$> scanOperator op : Scan ExprRule (Joint Chain)).Reads
      (· = .operator op) text rest := (reads_scanOperator h).map fun other => congrArg _
  -- the operator is the first one, or the middle of a choice is tried before it as well
  cases before with
  | nil =>
    obtain ⟨rfl, -⟩ := List.cons.inj horder
    exact hop.orElse_left
  | cons first before =>
    obtain ⟨rfl, hmore⟩ := List.cons.inj horder
    obtain ⟨hnullish, hbefore⟩ := List.forall_mem_cons.mp hbefore
    -- any other operator begins with another character than the middle of a choice
    have hmark : ∀ c ∈ text.head?, c ≠ '?' := by
      have hmem : op ∈ operatorOrder := by
        rw [hmore]
        exact List.mem_append_right _ List.mem_cons_self
      have hfirst : ∀ other ∈ operatorOrder, ∀ rest,
          ∀ c ∈ (other.spelling.toList ++ rest).head?, c ≠ '?' := by
        unfold operatorOrder
        simp only [List.forall_mem_cons]
        simp [InfixOp.spelling, BinaryOp.spelling, LogicalOp.spelling]
      rw [append_of_readSpelling h]
      exact hfirst op hmem rest
    rw [show operatorOrder = before ++ op :: after from hmore, List.map_append, List.map_cons]
    refine (refuses_scanOperator hnullish).bind.orElse_reads
      (Refuses.orElse_reads (Refuses.rule (refuses_scanEnclosed hmark).bind) (reads_firstOf ?_ hop))
    rw [List.forall_mem_map]
    exact fun other hother => (refuses_scanOperator (hbefore other hother)).bind

/-- The middle of a choice is read where `??` does not stand. -/
theorem reads_scanJoint_choice {P : Chain → Prop}
    (hnullish : readSpelling (.binary .nullish) text = none)
    (h : (scanEnclosed '?' ':' inner).Reads P text rest) :
    (scanJoint inner).Reads (fun joint => ∃ middle, joint = .choice middle ∧ P middle) text
      rest := by
  rw [scanJoint_eq]
  have hchoice := h.map (f := Joint.choice) (R := fun joint => ∃ middle, joint = .choice middle ∧
    P middle) fun middle hmiddle => ⟨middle, rfl, hmiddle⟩
  exact (refuses_scanOperator hnullish).bind.orElse_reads hchoice.rule.orElse_left

/-- The character that the spelling of an operator begins with neither ends a lexeme nor opens a
suffix. -/
theorem exists_spelling_eq_cons (op : InfixOp) :
    ∃ c word, op.spelling.toList = c :: word ∧ c ∉ lexemeEnds ∧ c ∉ openers := by
  rcases op with op | op <;> cases op <;> exact ⟨_, _, rfl, by decide⟩

/-- No joint stands where a lexeme ends. -/
theorem refuses_scanJoint (h : EndsLexeme text) : (scanJoint inner).Refuses text := by
  have hoperator (op : InfixOp) :
      (Joint.operator <$> scanOperator op : Scan ExprRule (Joint Chain)).Refuses text := by
    obtain ⟨c, word, hspelling, hc, -⟩ := exists_spelling_eq_cons op
    refine (refuses_scanOperator (readSpelling_eq_none ?_)).bind
    rw [hspelling]
    refine isPrefixOf?_eq_none fun d hd => ?_
    rintro rfl
    exact hc (h d hd)
  rw [scanJoint_eq]
  -- the three alternatives in their order: the first operator, the choice, the other operators
  refine (hoperator _).orElse (Refuses.orElse ?_ (refuses_firstOf ?_))
  · refine Refuses.rule (refuses_scanEnclosed fun c hc => ?_).bind
    rintro rfl
    exact absurd (h _ hc) (by decide)
  · rw [List.forall_mem_map]
    exact fun op _ => hoperator op

/-! ### Suffixes -/

/-- Arguments in parentheses are the first alternative of a suffix. -/
theorem reads_scanSuffix_call {P : List Chain → Prop}
    (h : (scanList '(' ')' inner).Reads P text rest) :
    (scanSuffix inner).Reads (fun s => ∃ arguments, s = .call arguments ∧ P arguments) text rest := by
  have hcall := h.map (f := Suffix.call) (R := fun s => ∃ arguments, s = .call arguments ∧
    P arguments) fun arguments harguments => ⟨arguments, rfl, harguments⟩
  exact hcall.rule.orElse_left

/-- A key in square brackets is read once it is no call. -/
theorem reads_scanSuffix_index {P : Chain → Prop}
    (h : (scanEnclosed '[' ']' inner).Reads P ('[' :: text) rest) :
    (scanSuffix inner).Reads (fun s => ∃ key, s = .index key ∧ P key) ('[' :: text) rest := by
  have hindex := h.map (f := Suffix.index) (R := fun s => ∃ key, s = .index key ∧ P key)
    fun key hkey => ⟨key, rfl, hkey⟩
  have hcall : (scanList '(' ')' inner).Refuses ('[' :: text) := refuses_scanList (by simp)
  exact Refuses.orElse_reads (Refuses.rule hcall.bind) hindex.rule.orElse_left

/-- A name behind a point is read once it is neither a call nor a key. -/
theorem reads_scanSuffix_field {name : List Char}
    (h : Grammar.readName (clear text) = some (name, rest)) :
    (scanSuffix inner).Reads (· = .field name) ('.' :: text) rest := by
  have hcall : (scanList '(' ')' inner).Refuses ('.' :: text) := refuses_scanList (by simp)
  have hindex : (scanEnclosed '[' ']' inner).Refuses ('.' :: text) := refuses_scanEnclosed (by simp)
  refine Refuses.orElse_reads (Refuses.rule hcall.bind) ?_
  refine Refuses.orElse_reads (Refuses.rule hindex.bind) (Reads.orElse_left (Reads.rule ?_))
  refine (reads_exactly ['.']).bind fun _ _ => ?_
  refine (reads_gap rfl).bind fun _ _ => ?_
  refine (Reads.rule (reads_lexeme (P := (· = name)) h rfl)).bind fun found hfound => ?_
  exact reads_pure (congrArg _ hfound)

/-- A suffix is refused where none of its openers stands. -/
theorem refuses_scanSuffix (h : ∀ c ∈ text.head?, c ∉ openers) :
    (scanSuffix inner).Refuses text := by
  have hne {d : Char} (hd : d ∈ openers) : ∀ c ∈ text.head?, c ≠ d := by
    rintro c hc rfl
    exact h c hc hd
  refine refuses_firstOf ?_
  simp only [List.forall_mem_cons]
  refine ⟨?call, ?index, ?field, fun _ hmem => absurd hmem List.not_mem_nil⟩
  case call => exact Refuses.rule (refuses_scanList (hne (by decide))).bind
  case index => exact Refuses.rule (refuses_scanEnclosed (hne (by decide))).bind
  case field => exact Refuses.rule (refuses_exactly_cons (hne (by decide))).bind

/-! ### Terms -/

/-- A numeral begins with a digit or with a point. -/
theorem readNumeral_eq_none (h : ∀ c ∈ text.head?, isDigit c = false ∧ c ≠ '.') :
    Numeral.read text = none := by
  cases text with
  | nil => rfl
  | cons c text =>
    obtain ⟨hdigit, hpoint⟩ := h c rfl
    have hzero : c ≠ '0' := by
      rintro rfl
      cases hdigit
    simp [Numeral.read, Numeral.readHex, Decimal.read, Decimal.readFraction, hdigit, hpoint, hzero]

theorem refuses_number (h : ∀ c ∈ text.head?, isDigit c = false ∧ c ≠ '.') :
    (Term.number <$> token .number Numeral.read Numeral.text : Scan ExprRule Term).Refuses text :=
  Refuses.bind (Refuses.rule (refuses_lexeme (readNumeral_eq_none h)))

/-- A quoted text is refused where no quote stands. -/
theorem refuses_scanText (h : ∀ c ∈ text.head?, c ≠ '"' ∧ c ≠ '\'') :
    scanText.Refuses text := by
  refine Reads.bind_refuses reads_place fun _ _ => ?_
  refine Refuses.bind (Refuses.rule (refuses_lexeme ?_))
  cases text with
  | nil => rfl
  | cons c text =>
    obtain ⟨hdouble, hsingle⟩ := h c rfl
    simp [Grammar.readQuoted, hdouble, hsingle]

/-- A word is refused where it does not stand as a whole word. -/
theorem refuses_scanKeyword {r : ExprRule} {word : String} {term : Term}
    (h : Grammar.readWord word.toList text = none) :
    (scanKeyword r word term).Refuses text :=
  Refuses.rule (refuses_lexeme (by rw [h]; rfl))

/-- A word is read as its term. -/
theorem reads_scanKeyword {r : ExprRule} {word : String} {term : Term}
    (h : Grammar.readWord word.toList text = some rest) :
    (scanKeyword r word term).Reads (· = term) text rest :=
  Reads.rule (reads_lexeme (a := term) (by rw [h]; rfl) rfl)

theorem refuses_array (h : ∀ c ∈ text.head?, c ≠ '[') :
    (rule .array (Term.array <$> scanList '[' ']' inner)).Refuses text :=
  Refuses.rule (refuses_scanList h).bind

theorem refuses_group (h : ∀ c ∈ text.head?, c ≠ '(') :
    (rule .group (Term.group <$> scanEnclosed '(' ')' inner)).Refuses text :=
  Refuses.rule (refuses_scanEnclosed h).bind

/-- A numeral is the first alternative of a term. -/
theorem reads_scanTerm_number {n : Numeral} (h : Numeral.read text = some (n, rest)) :
    (scanTerm inner).Reads (· = .number n) text rest := by
  have htoken : (token ExprRule.number Numeral.read Numeral.text).Reads (· = n) text rest :=
    Reads.rule (reads_lexeme h rfl)
  exact Reads.orElse_left (htoken.map fun _ => congrArg _)

/-- A quoted text begins with its quote. -/
theorem exists_cons_of_readQuoted {quote : Char} {written : Grammar.QuotedText}
    (h : Grammar.readQuoted quote text = some (written, rest)) :
    ∃ behind, text = quote :: behind := by
  cases text with
  | nil => cases h
  | cons c behind =>
    simp only [Grammar.readQuoted] at h
    split at h
    · next hsame => exact ⟨behind, by rw [hsame]⟩
    · cases h

/-- A text in either of the quotes is read as a term. -/
theorem reads_scanTerm_text {quote : Char} (hquote : quote = '"' ∨ quote = '\'')
    {written : Grammar.QuotedText} (h : Grammar.readQuoted quote text = some (written, rest)) :
    (scanTerm inner).Reads (fun term => ∃ offset, term = .text offset written) text rest := by
  obtain ⟨behind, rfl⟩ := exists_cons_of_readQuoted h
  have hread : (fun rest => Grammar.readQuoted '"' rest <|> Grammar.readQuoted '\'' rest)
      (quote :: behind) = some (written, rest) := by
    -- double quotes are tried first, and a text in single ones does not begin with them
    refine (Option.orElse_eq_some _ _ _).mpr ?_
    rcases hquote with rfl | rfl
    · exact Or.inl h
    · exact Or.inr ⟨by simp [Grammar.readQuoted], h⟩
  refine Refuses.orElse_reads (refuses_number ?_) (Reads.orElse_left ?_)
  · rintro c ⟨⟩
    rcases hquote with rfl | rfl <;> exact ⟨rfl, by decide⟩
  refine reads_place.bind fun offset _ => ?_
  refine (Reads.rule (reads_lexeme (P := (· = written)) hread rfl)).bind fun found hfound => ?_
  exact reads_pure ⟨offset, by rw [hfound]⟩

/-- The alternatives before those that begin with a bracket or a name. -/
def literals : List (Scan ExprRule Term) :=
  [Term.number <$> token .number Numeral.read Numeral.text, scanText,
    scanKeyword .trueWord "true" (.boolean true), scanKeyword .falseWord "false" (.boolean false),
    scanKeyword .nullWord "null" .null, scanKeyword .thisWord "this" .this]

/-- The alternatives of a term, with those that stand for themselves in front. -/
theorem scanTerm_eq (inner : Scan ExprRule Chain) :
    scanTerm inner = firstOf (literals ++ [rule .array (Term.array <$> scanList '[' ']' inner),
      rule .group (Term.group <$> scanEnclosed '(' ')' inner),
      Term.name <$> token .name readIdentifier id]) := rfl

/-- Numbers, texts and words are refused by the first character and by the words. -/
theorem refuses_literals
    (hfirst : ∀ c ∈ text.head?, isDigit c = false ∧ c ∉ ['.', '"', '\''])
    (hwords : ∀ pair ∈ wordTerms, Grammar.readWord pair.1.toList text = none) :
    ∀ literal ∈ literals, literal.Refuses text := by
  simp only [wordTerms, List.forall_mem_cons] at hwords
  obtain ⟨htrue, hfalse, hnull, hthis, -⟩ := hwords
  unfold literals
  simp only [List.forall_mem_cons]
  -- numbers and quoted texts are told by the first character, the words are not read by assumption
  refine ⟨refuses_number ?number, refuses_scanText ?text, refuses_scanKeyword htrue,
    refuses_scanKeyword hfalse, refuses_scanKeyword hnull, refuses_scanKeyword hthis,
    fun _ hmem => absurd hmem List.not_mem_nil⟩
  case number =>
    intro c hc
    obtain ⟨hdigit, hmem⟩ := hfirst c hc
    refine ⟨hdigit, ?_⟩
    rintro rfl
    exact hmem (by simp)
  case text =>
    intro c hc
    obtain ⟨-, hmem⟩ := hfirst c hc
    constructor <;> rintro rfl <;> exact hmem (by simp)

/-- No other word stands where a word stands, since none of them is the beginning of another. -/
theorem reads_scanTerm_word {word : String} {term : Term} (hword : (word, term) ∈ wordTerms)
    (h : Grammar.readWord word.toList text = some rest) :
    (scanTerm inner).Reads (· = term) text rest := by
  have htext := Grammar.append_of_readWord h
  have hrefuse {r : ExprRule} {other : String} {term' : Term}
      (hother : ∀ rest, other.toList.isPrefixOf? (word.toList ++ rest) = none) :
      (scanKeyword r other term').Refuses text := by
    refine refuses_scanKeyword ?_
    rw [htext, Grammar.readWord, hother]
    rfl
  have hletter : ∀ c ∈ text.head?, isDigit c = false ∧ c ≠ '.' ∧ c ≠ '"' ∧ c ≠ '\'' := by
    have hall : ∀ pair ∈ wordTerms, ∀ c ∈ pair.1.toList,
        isDigit c = false ∧ c ≠ '.' ∧ c ≠ '"' ∧ c ≠ '\'' :=
      forall_mem_wordTerms (by decide)
    have hne : ∀ pair ∈ wordTerms, pair.1.toList ≠ [] := by
      simp only [wordTerms, List.forall_mem_cons]
      decide
    rw [htext, List.head?_append_of_ne_nil _ (hne _ hword)]
    exact fun c hc => hall _ hword c (List.mem_of_mem_head? hc)
  refine (refuses_number fun c hc => ⟨(hletter c hc).1, (hletter c hc).2.1⟩).orElse_reads ?_
  refine (refuses_scanText fun c hc => (hletter c hc).2.2).orElse_reads ?_
  -- the words are tried one after the other, so each of them is refused by those before it
  simp only [wordTerms, List.mem_cons, List.not_mem_nil, Prod.mk.injEq, or_false] at hword
  rcases hword with ⟨rfl, rfl⟩ | ⟨rfl, rfl⟩ | ⟨rfl, rfl⟩ | ⟨rfl, rfl⟩
  · exact (reads_scanKeyword h).orElse_left
  · exact (hrefuse fun _ => rfl).orElse_reads (reads_scanKeyword h).orElse_left
  · exact (hrefuse fun _ => rfl).orElse_reads
      ((hrefuse fun _ => rfl).orElse_reads (reads_scanKeyword h).orElse_left)
  · exact (hrefuse fun _ => rfl).orElse_reads ((hrefuse fun _ => rfl).orElse_reads
      ((hrefuse fun _ => rfl).orElse_reads (reads_scanKeyword h).orElse_left))

/-- Where the first character is no letter, no word stands. -/
theorem readWord_eq_none (h : ∀ c ∈ text.head?, Grammar.isNameStart c = false) :
    ∀ pair ∈ wordTerms, Grammar.readWord pair.1.toList text = none := by
  -- every word begins with a letter
  have hword {c : Char} {word : List Char} (hc : Grammar.isNameStart c = true) :
      Grammar.readWord (c :: word) text = none := by
    have hfront : (c :: word).isPrefixOf? text = none := by
      refine isPrefixOf?_eq_none fun d hd => ?_
      rintro rfl
      rw [h d hd] at hc
      cases hc
    rw [Grammar.readWord, hfront]
    rfl
  simp only [wordTerms, List.forall_mem_cons]
  exact ⟨hword rfl, hword rfl, hword rfl, hword rfl, fun _ hmem => absurd hmem List.not_mem_nil⟩

/-- A list in square brackets is read once no literal stands there. -/
theorem reads_scanTerm_array {P : List Chain → Prop}
    (h : (scanList '[' ']' inner).Reads P ('[' :: text) rest) :
    (scanTerm inner).Reads (fun term => ∃ elements, term = .array elements ∧ P elements)
      ('[' :: text) rest := by
  have harray := h.map (f := Term.array) (R := fun term => ∃ elements, term = .array elements ∧
    P elements) fun elements helements => ⟨elements, rfl, helements⟩
  have hliterals : ∀ literal ∈ literals, literal.Refuses ('[' :: text) := by
    refine refuses_literals ?_ (readWord_eq_none ?_) <;> rintro c ⟨⟩ <;> decide
  rw [scanTerm_eq]
  exact reads_firstOf hliterals harray.rule

/-- A chain in parentheses is read once neither a literal nor an array stands there. -/
theorem reads_scanTerm_group {P : Chain → Prop}
    (h : (scanEnclosed '(' ')' inner).Reads P ('(' :: text) rest) :
    (scanTerm inner).Reads (fun term => ∃ c, term = .group c ∧ P c) ('(' :: text) rest := by
  have hgroup := h.map (f := Term.group) (R := fun term => ∃ c, term = .group c ∧ P c)
    fun c hc => ⟨c, rfl, hc⟩
  have hliterals : ∀ literal ∈ literals, literal.Refuses ('(' :: text) := by
    refine refuses_literals ?_ (readWord_eq_none ?_) <;> rintro c ⟨⟩ <;> decide
  have harray : (rule .array (Term.array <$> scanList '[' ']' inner)).Refuses ('(' :: text) :=
    refuses_array (by simp)
  -- the literals and the array are tried before the group
  rw [scanTerm_eq, List.append_cons]
  refine reads_firstOf ?_ hgroup.rule
  rw [List.forall_mem_append, List.forall_mem_singleton]
  exact ⟨hliterals, harray⟩

/-- A word that stands at the front of a text is the name that stands there. -/
theorem readName_of_readWord {c : Char} {word : List Char} (hc : Grammar.isNameStart c = true)
    (hword : word.all Grammar.isNameChar = true)
    (h : Grammar.readWord (c :: word) text = some rest) :
    Grammar.readName text = some (c :: word, rest) := by
  obtain ⟨hfront, hends⟩ := Option.filter_eq_some_iff.mp h
  have htext := Grammar.append_of_isPrefixOf? hfront
  have hall : ∀ d ∈ word, Grammar.isNameChar d = true := List.all_eq_true.mp hword
  -- the word ends where it does, so the name does not go on either
  have htake : rest.takeWhile Grammar.isNameChar = [] := by
    cases rest with
    | nil => rfl
    | cons d rest => simpa [Grammar.endsWord] using hends
  have hdrop : rest.dropWhile Grammar.isNameChar = rest := by
    have hsplit := List.takeWhile_append_dropWhile (p := Grammar.isNameChar) (l := rest)
    rwa [htake] at hsplit
  rw [htext, List.cons_append, Grammar.readName, if_pos hc,
    List.takeWhile_append_of_pos hall, List.dropWhile_append_of_pos hall, htake, hdrop,
    List.append_nil]

/-- No name begins with a digit. -/
theorem isDigit_eq_false_of_isNameStart {c : Char} (h : Grammar.isNameStart c = true) :
    isDigit c = false := by
  -- both are ranges of characters, compared by their numbers
  by_contra hdigit
  rw [Bool.not_eq_false] at hdigit
  unfold isDigit at hdigit
  unfold Grammar.isNameStart Char.isAlpha Char.isUpper Char.isLower at h
  simp only [Bool.and_eq_true, Bool.or_eq_true, decide_eq_true_eq, beq_iff_eq, Char.le_def,
    UInt32.le_iff_toNat_le, ge_iff_le] at hdigit h
  rcases h with (h | rfl) | rfl
  · -- the digits stand before the letters of either case
    have hnine : '9'.val.toNat = 57 := rfl
    have hupper : 'A'.val.toNat = 65 := rfl
    have hlower : 'a'.val.toNat = 97 := rfl
    omega
  · exact absurd hdigit.2 (by decide)
  · exact absurd hdigit.1 (by decide)

/-- A name begins with a character that a name may begin with. -/
theorem exists_cons_of_readName {name : List Char}
    (h : Grammar.readName text = some (name, rest)) :
    ∃ c behind, text = c :: behind ∧ Grammar.isNameStart c = true := by
  cases text with
  | nil => cases h
  | cons c behind =>
    simp only [Grammar.readName] at h
    split at h
    · next hc => exact ⟨c, behind, rfl, hc⟩
    · cases h

/-- Were a word to stand where a name does, it would be the name, but names are none of the words. -/
theorem readWord_eq_none_of_readIdentifier {name : List Char}
    (h : readIdentifier text = some (name, rest)) :
    ∀ pair ∈ wordTerms, Grammar.readWord pair.1.toList text = none := by
  obtain ⟨hread, hkeyword⟩ := Option.filter_eq_some_iff.mp h
  have hnone {c : Char} {word : List Char} (hmem : (c :: word) ∈ keywords)
      (hc : Grammar.isNameStart c = true) (hword : word.all Grammar.isNameChar = true) :
      Grammar.readWord (c :: word) text = none := by
    -- a word that is read is the name that is read
    by_contra hsome
    obtain ⟨rest', hrest⟩ := Option.ne_none_iff_exists'.mp hsome
    have hsame := readName_of_readWord hc hword hrest
    rw [hread] at hsame
    cases hsame
    simp [hmem] at hkeyword
  simp only [wordTerms, List.forall_mem_cons]
  exact ⟨hnone (by decide) rfl rfl, hnone (by decide) rfl rfl, hnone (by decide) rfl rfl,
    hnone (by decide) rfl rfl, fun _ hmem => absurd hmem List.not_mem_nil⟩

/-- **A name is read** as the last alternative, for nothing else begins as it does. -/
theorem reads_scanTerm_name {name : List Char} (h : readIdentifier text = some (name, rest)) :
    (scanTerm inner).Reads (· = .name name) text rest := by
  have hname : (Term.name <$> token .name readIdentifier id : Scan ExprRule Term).Reads
      (· = .name name) text rest := by
    have htoken : (token ExprRule.name readIdentifier id).Reads (· = name) text rest :=
      Reads.rule (reads_lexeme h rfl)
    exact htoken.map fun _ => congrArg _
  have hread := (Option.filter_eq_some_iff.mp h).1
  have hstart : ∀ c ∈ text.head?, Grammar.isNameStart c = true := by
    obtain ⟨c, behind, rfl, hc⟩ := exists_cons_of_readName hread
    rintro d ⟨⟩
    exact hc
  have hfirst {d : Char} (hd : Grammar.isNameStart d = false) : ∀ c ∈ text.head?, c ≠ d := by
    rintro c hc rfl
    rw [hstart c hc] at hd
    cases hd
  -- a name is no literal: it begins with a letter, and the words are not names
  have hliterals : ∀ literal ∈ literals, literal.Refuses text := by
    refine refuses_literals (fun c hc => ?_) (readWord_eq_none_of_readIdentifier h)
    refine ⟨isDigit_eq_false_of_isNameStart (hstart c hc), ?_⟩
    simp only [List.mem_cons, List.not_mem_nil, or_false, not_or]
    exact ⟨hfirst rfl c hc, hfirst rfl c hc, hfirst rfl c hc⟩
  have hothers : ∀ choice ∈ literals ++ [rule .array (Term.array <$> scanList '[' ']' inner),
      rule .group (Term.group <$> scanEnclosed '(' ')' inner)], choice.Refuses text := by
    simp only [List.forall_mem_append, List.forall_mem_cons]
    exact ⟨hliterals, refuses_array (hfirst rfl), refuses_group (hfirst rfl),
      fun _ hmem => absurd hmem List.not_mem_nil⟩
  rw [scanTerm_eq, List.append_cons, List.append_cons]
  refine reads_firstOf ?_ hname
  rw [List.append_assoc]
  exact hothers

/-- No term stands where a chain has ended. -/
theorem refuses_scanTerm (h : ∀ c ∈ text.head?, c ∈ followers) :
    (scanTerm inner).Refuses text := by
  -- no alternative begins with a character that may follow a chain
  have hclass {p : Char → Bool} (hp : followers.all (!p ·) = true) :
      ∀ c ∈ text.head?, p c = false := by
    intro c hc
    have hnot := List.all_eq_true.mp hp c (h c hc)
    rwa [Bool.not_eq_true'] at hnot
  have hfirst {d : Char} (hd : d ∉ followers) : ∀ c ∈ text.head?, c ≠ d := by
    rintro c hc rfl
    exact hd (h c hc)
  have hliterals : ∀ literal ∈ literals, literal.Refuses text := by
    refine refuses_literals (fun c hc => ⟨hclass rfl c hc, ?_⟩) (readWord_eq_none (hclass rfl))
    simp only [List.mem_cons, List.not_mem_nil, or_false, not_or]
    exact ⟨hfirst (by decide) c hc, hfirst (by decide) c hc, hfirst (by decide) c hc⟩
  have hname : readIdentifier text = none := by
    have hstart := hclass (p := Grammar.isNameStart) rfl
    unfold readIdentifier
    cases text with
    | nil => rfl
    | cons c text => simp [Grammar.readName, hstart c rfl]
  rw [scanTerm_eq]
  refine refuses_firstOf ?_
  simp only [List.forall_mem_append, List.forall_mem_cons]
  exact ⟨hliterals, refuses_array (hfirst (by decide)), refuses_group (hfirst (by decide)),
    (Refuses.rule (refuses_lexeme hname)).bind, fun _ hmem => absurd hmem List.not_mem_nil⟩

/-- A term begins with a character that is no sign, and no equals sign either. -/
theorem TermText.exists_cons {term : Term} (h : TermText inner text term rest) :
    ∃ c behind, text = c :: behind ∧ c ∉ '=' :: signChars := by
  -- a number, a quote, a letter or an opening bracket
  cases h with
  | number hn =>
    cases text with
    | nil => cases hn
    | cons c behind =>
      refine ⟨c, behind, rfl, fun hmem => ?_⟩
      have hnone : Numeral.read (c :: behind) = none := by
        have hall : ∀ d ∈ '=' :: signChars, isDigit d = false ∧ d ≠ '.' :=
          List.all_iff_forall_prop.mp (by decide)
        refine readNumeral_eq_none ?_
        rintro d ⟨⟩
        exact hall c hmem
      rw [hnone] at hn
      cases hn
  | text hquote hwritten =>
    obtain ⟨behind, rfl⟩ := exists_cons_of_readQuoted hwritten
    refine ⟨_, behind, rfl, ?_⟩
    rcases hquote with rfl | rfl <;> decide
  | word hword hread =>
    have hletters : ∀ pair ∈ wordTerms, ∃ c word, pair.1.toList = c :: word ∧
        c ∉ '=' :: signChars := by
      simp only [wordTerms, List.forall_mem_cons]
      exact ⟨⟨_, _, rfl, by decide⟩, ⟨_, _, rfl, by decide⟩, ⟨_, _, rfl, by decide⟩,
        ⟨_, _, rfl, by decide⟩, fun _ hmem => absurd hmem List.not_mem_nil⟩
    obtain ⟨c, word, hspelling, hc⟩ := hletters _ hword
    rw [Grammar.append_of_readWord hread, hspelling]
    exact ⟨c, word ++ rest, rfl, hc⟩
  | array helements =>
    obtain ⟨behind, -, rfl, -⟩ := accepts_scanList helements
    exact ⟨'[', behind, rfl, by decide⟩
  | group hc =>
    obtain ⟨behind, -, rfl, -⟩ := accepts_scanEnclosed hc
    exact ⟨'(', behind, rfl, by decide⟩
  | name hname =>
    obtain ⟨c, behind, rfl, hc⟩ := exists_cons_of_readName (Option.filter_eq_some_iff.mp hname).1
    have hall : ∀ d ∈ '=' :: signChars, Grammar.isNameStart d = false :=
      List.all_iff_forall_prop.mp (by decide)
    refine ⟨c, behind, rfl, fun hmem => ?_⟩
    rw [hall c hmem] at hc
    cases hc

/-! ### Operands and chains -/

/-- A sign is read where its spelling stands. -/
theorem reads_scanSign (op : UnaryOp) :
    scanSign.Reads (· = op) (op.spelling.toList ++ rest) rest := by
  have hsign : (do sign (ExprRule.sign op) op.spelling; return op).Reads (· = op)
      (op.spelling.toList ++ rest) rest :=
    (Reads.rule (reads_exactly op.spelling.toList)).bind fun _ _ => reads_pure rfl
  -- each sign is a character of its own, so those that are tried before it refuse it
  have hrefuse {other : UnaryOp} (h : other.spelling.toList.isPrefixOf?
      (op.spelling.toList ++ rest) = none) :
      (do sign (ExprRule.sign other) other.spelling; return other).Refuses
        (op.spelling.toList ++ rest) :=
    (Refuses.rule (refuses_exactly h)).bind
  cases op with
  | neg => exact hsign.orElse_left
  | not => exact (hrefuse rfl).orElse_reads hsign.orElse_left
  | bitNot => exact (hrefuse rfl).orElse_reads ((hrefuse rfl).orElse_reads hsign.orElse_left)
  | plus =>
    exact (hrefuse rfl).orElse_reads
      ((hrefuse rfl).orElse_reads ((hrefuse rfl).orElse_reads hsign.orElse_left))

/-- A sign is refused where none of their characters stands. -/
theorem refuses_scanSign (h : ∀ c ∈ text.head?, c ∉ signChars) :
    scanSign.Refuses text := by
  have hne {d : Char} (hd : d ∈ signChars) : ∀ c ∈ text.head?, c ≠ d := by
    rintro c hc rfl
    exact h c hc hd
  refine refuses_firstOf ?_
  rw [List.forall_mem_map]
  intro op _
  -- each sign is a single character
  obtain ⟨c, hspelling, hmem⟩ : ∃ c, op.spelling.toList = [c] ∧ c ∈ signChars := by
    cases op <;> exact ⟨_, rfl, by decide⟩
  refine Refuses.bind (Refuses.rule ?_)
  rw [hspelling]
  exact refuses_exactly_cons (hne hmem)

/-- **An operand is read part by part**, with gaps between the parts. -/
theorem reads_scanOperand {P : List UnaryOp → Prop} {Q : Term → Prop} {R : List Suffix → Prop}
    (hsigns : (many scanSign).Reads P text mid) (hterm : (scanTerm inner).Reads Q (clear mid) behind)
    (hsuffixes : (many (scanSuffix inner)).Reads R (clear behind) rest) :
    (scanOperand inner).Reads (fun operand => ∃ signs term suffixes,
      operand = .mk signs term suffixes ∧ P signs ∧ Q term ∧ R suffixes) text rest := by
  refine hsigns.bind fun signs hsigns => ?_
  refine (reads_gap rfl).bind fun _ _ => ?_
  refine hterm.bind fun term hterm => ?_
  refine (reads_gap rfl).bind fun _ _ => ?_
  refine hsuffixes.bind fun suffixes hsuffixes => ?_
  exact reads_pure ⟨signs, term, suffixes, rfl, hsigns, hterm, hsuffixes⟩

/-- A joint is read, and an operand behind it. -/
theorem reads_scanLink {P : Joint Chain → Prop} {Q : Operand → Prop}
    (hjoint : (scanJoint inner).Reads P text mid)
    (hoperand : (scanOperand inner).Reads Q (clear mid) rest) :
    (scanLink inner).Reads (fun link => P link.1 ∧ Q link.2) text rest := by
  refine hjoint.bind fun joint hjoint => ?_
  refine (reads_gap rfl).bind fun _ _ => ?_
  exact hoperand.bind fun operand hoperand => reads_pure ⟨hjoint, hoperand⟩

/-- A first operand is read, and the links behind it. -/
theorem reads_scanChain {P : Operand → Prop} {Q : List (Joint Chain × Operand) → Prop}
    (hfirst : (scanOperand inner).Reads P text mid)
    (hlinks : (many (scanLink inner)).Reads Q (clear mid) rest) :
    (scanChain inner).Reads (fun c => ∃ offset first links,
      c = .mk offset first links ∧ P first ∧ Q links) text rest := by
  refine Reads.rule (reads_place.bind fun offset _ => ?_)
  refine hfirst.bind fun first hfirst => ?_
  refine (reads_gap rfl).bind fun _ _ => ?_
  exact hlinks.bind fun links hlinks => reads_pure ⟨offset, first, links, rfl, hfirst, hlinks⟩

/-- In front of what may follow a chain, no operand stands. -/
theorem refuses_scanOperand (h : ∀ c ∈ (clear text).head?, c ∈ followers) :
    (scanOperand inner).Refuses text := by
  have hsign : scanSign.Refuses text := by
    refine refuses_scanSign (forall_head?_of_clear (fun c hgap => ?_) fun c hc => ?_)
    · exact notMem_signChars c (mem_lexemeEnds_of_isGap hgap)
    · exact notMem_signChars c (mem_lexemeEnds_of_mem_followers c (h c hc))
  unfold scanOperand
  refine (reads_many_nil (γ := Unit) (P := fun _ _ => True) hsign).bind_refuses fun _ _ => ?_
  refine (reads_gap rfl).bind_refuses fun _ _ => ?_
  exact (refuses_scanTerm h).bind

/-- In front of what may follow a chain no chain stands, at any nesting. -/
theorem refuses_scanNested (h : ∀ c ∈ (clear text).head?, c ∈ followers)
    (nesting : Nat) : (scanNested nesting).Refuses text := by
  -- without a level left everything is refused
  cases nesting with
  | zero => exact refuses_refuse
  | succ nesting =>
    rw [scanNested, scanChain]
    exact Refuses.rule (reads_place.bind_refuses fun _ _ => (refuses_scanOperand h).bind)

/-! ### Texts -/

/-- A whole text is read if chains are and nothing but a gap is left. -/
theorem reads_scanScript {nesting : Nat} {P : List Chain → Prop}
    (h : (commaSeparated (scanNested nesting)).Reads P (clear text) rest) (hrest : clear rest = []) :
    (scanScript nesting).Reads P text [] := by
  refine Reads.rule ((reads_gap rfl).bind fun _ _ => ?_)
  refine h.bind fun chains hchains => ?_
  refine (reads_gap hrest).bind fun _ _ => ?_
  exact reads_finish.bind fun _ _ => reads_pure hchains

/-- A text of chains with commas between them is read, if nothing else but gaps is in it. -/
theorem exists_ofText_of_reads {source : String} {P : List Chain → Prop}
    (h : (commaSeparated (scanNested (source.toList.length + 1))).Reads P (clear source.toList) rest)
    (hrest : clear rest = []) : ∃ chains, ofText source = .ok chains ∧ P chains := by
  obtain ⟨chains, hrun, hchains⟩ := (reads_scanScript h hrest).exists_run
  refine ⟨chains, ?_, hchains⟩
  -- the scan ran through, so there is no error to report
  unfold ofText
  split
  case h_1 hok =>
    rw [hrun] at hok
    cases hok
    rfl
  case h_2 herror =>
    rw [hrun] at herror
    cases herror

end Chain

end CheckedExpr
