import CheckedExpr.Proofs.ReadingOn

/-!
# Tokens with gaps between them

A text may be put together from tokens with any gaps before, between and behind them. What stands
behind the first gap of such a text is its first token, and what stands behind that is a text of the
other tokens. A token may be a text of its own, with gaps at its ends. Then the gap before it reads
on into the token, so that only what is left behind the gap is the same.

* `Spaced.exists_cons`: the first token and what stands behind it.
* `Spaced.of_clear_eq`: a gap before the first token more or less makes no difference.
-/

namespace CheckedExpr

open Scan

/-- Whether a text is some tokens in a row, with any gaps before, between and behind them. -/
inductive Spaced : List String → List Char → Prop
  | nil {gap : List Char} (h : ∀ c ∈ gap, isGap c = true) : Spaced [] gap
  | cons {gap : List Char} {token : String} {tokens : List String} {text : List Char}
      (h : ∀ c ∈ gap, isGap c = true) (more : Spaced tokens text) :
      Spaced (token :: tokens) (gap ++ (token.toList ++ text))

/-- Whether the first of some tokens, if there is one, begins with a character that is no gap and
has a property. -/
def BeginsWith (p : Char → Prop) (tokens : List String) : Prop :=
  ∀ token ∈ tokens.head?, ∃ c cs, token.toList = c :: cs ∧ isGap c = false ∧ p c

/-- How many characters some tokens have. -/
def tokenLength : List String → Nat
  | [] => 0
  | token :: tokens => token.toList.length + tokenLength tokens

@[simp] theorem tokenLength_nil : tokenLength [] = 0 := rfl

@[simp] theorem tokenLength_cons (token : String) (tokens : List String) :
    tokenLength (token :: tokens) = token.toList.length + tokenLength tokens := rfl

variable {token : String} {tokens : List String} {text text' : List Char} {p : Char → Prop}

theorem beginsWith_nil : BeginsWith p [] := fun _ h => absurd h (by simp)

/-- Only the first token counts. -/
theorem beginsWith_cons {c : Char} {cs : List Char} (h : token.toList = c :: cs)
    (hgap : isGap c = false) (hc : p c) : BeginsWith p (token :: tokens) := by
  rintro _ ⟨⟩
  exact ⟨c, cs, h, hgap, hc⟩

/-- The property of the first character may be weakened. -/
theorem BeginsWith.mono {q : Char → Prop} (h : BeginsWith p tokens) (hle : ∀ c, p c → q c) :
    BeginsWith q tokens := by
  intro token htoken
  obtain ⟨c, cs, hcons, hgap, hc⟩ := h token htoken
  exact ⟨c, cs, hcons, hgap, hle c hc⟩

/-- A gap more in front is cut off with the rest of it. -/
theorem clear_gap_append {gap : List Char} (h : ∀ c ∈ gap, isGap c = true) (text : List Char) :
    clear (gap ++ text) = clear text :=
  List.dropWhile_append_of_pos h

theorem clear_eq_nil {gap : List Char} (h : ∀ c ∈ gap, isGap c = true) : clear gap = [] :=
  List.dropWhile_eq_nil_iff.mpr h

/-- Every text is a gap and what stands behind it. -/
theorem exists_gap_append_clear (text : List Char) :
    ∃ gap, (∀ c ∈ gap, isGap c = true) ∧ text = gap ++ clear text :=
  ⟨text.takeWhile isGap, fun _ hc => List.mem_takeWhile_imp hc,
    List.takeWhile_append_dropWhile.symm⟩

namespace Spaced

theorem clear_eq_nil (h : Spaced [] text) : clear text = [] := by
  cases h with
  | nil h => exact CheckedExpr.clear_eq_nil h

/-- A text that is nothing but a gap is one of no tokens. -/
theorem of_clear_eq_nil (h : clear text = []) : Spaced [] text :=
  .nil (List.dropWhile_eq_nil_iff.mp h)

/-- Behind the gap stands the first token. -/
theorem exists_clear_eq (h : Spaced (token :: tokens) text) :
    ∃ behind, clear text = clear (token.toList ++ behind) ∧ Spaced tokens behind := by
  cases h with
  | cons h more => exact ⟨_, clear_gap_append h _, more⟩

/-- Behind the gap stands the first token, if it does not begin with a gap itself. -/
theorem exists_cons {c : Char} {cs : List Char} (h : Spaced (token :: tokens) text)
    (htoken : token.toList = c :: cs) (hgap : isGap c = false) :
    ∃ behind, clear text = c :: (cs ++ behind) ∧ Spaced tokens behind := by
  obtain ⟨behind, hclear, hbehind⟩ := h.exists_clear_eq
  rw [htoken, List.cons_append, clear_of_not_isGap hgap] at hclear
  exact ⟨behind, hclear, hbehind⟩

/-- What the first token begins with is what the text begins with, behind its gap. -/
theorem before (h : Spaced tokens text) (hfirst : BeginsWith p tokens) : Before p text := by
  cases tokens with
  | nil =>
    rw [Before, h.clear_eq_nil]
    exact fun _ hc => absurd hc (by simp)
  | cons token tokens =>
    obtain ⟨c, cs, htoken, hgap, hc⟩ := hfirst token rfl
    obtain ⟨behind, hclear, -⟩ := h.exists_cons htoken hgap
    exact Chain.before_of_clear_eq hc hclear

/-- A gap before the first token more or less makes no difference. -/
theorem of_clear_eq (h : Spaced tokens text) (hfirst : BeginsWith p tokens)
    (hclear : clear text' = clear text) : Spaced tokens text' := by
  cases tokens with
  | nil => exact of_clear_eq_nil (hclear.trans h.clear_eq_nil)
  | cons token tokens =>
    obtain ⟨c, cs, htoken, hgap, -⟩ := hfirst token rfl
    obtain ⟨behind, hsplit, hbehind⟩ := h.exists_cons htoken hgap
    -- the other text has a gap of its own before the same token
    obtain ⟨gap, hgaps, htext'⟩ := exists_gap_append_clear text'
    rw [htext', hclear, hsplit, ← List.cons_append, ← htoken]
    exact .cons hgaps hbehind

/-- The characters of the tokens are characters of the text. -/
theorem tokenLength_le (h : Spaced tokens text) : tokenLength tokens ≤ text.length := by
  induction h with
  | nil => exact Nat.zero_le _
  | cons h more ih =>
    rw [tokenLength_cons, List.length_append, List.length_append]
    omega

/-- No token is longer than the text. -/
theorem length_le_of_mem (h : Spaced tokens text) (hmem : token ∈ tokens) :
    token.toList.length ≤ text.length := by
  induction h with
  | nil => cases hmem
  | cons _ more ih =>
    rw [List.length_append, List.length_append]
    rcases List.mem_cons.mp hmem with rfl | hmem
    · omega
    · have hle := ih hmem
      omega

/-- Beside its first token, a text has room for every further one. -/
theorem length_lt_of_mem {first : String} {c : Char} {cs : List Char}
    (h : Spaced (first :: tokens) text) (hfirst : first.toList = c :: cs) (hmem : token ∈ tokens) :
    token.toList.length < text.length := by
  cases h with
  | cons _ more =>
    have hle := more.length_le_of_mem hmem
    rw [hfirst, List.length_append, List.length_append, List.length_cons]
    omega

end Spaced

/-! ### Reading tokens -/

namespace Scan

/-- Whether a scan reads some tokens, with any gaps between them, and leaves some others. -/
def ReadsTokens {ρ α : Type} (scan : Scan ρ α) (P : α → Prop) (tokens left : List String) : Prop :=
  ∀ text, Spaced tokens text → ∃ rest, scan.Reads P (clear text) rest ∧ Spaced left rest

variable {ρ α : Type} {item : Scan ρ α} {P : α → Prop} {left : List String}

/-- The property of what is read may be weakened. -/
theorem ReadsTokens.mono {Q : α → Prop} (h : item.ReadsTokens P tokens left)
    (hle : ∀ a, P a → Q a) : item.ReadsTokens Q tokens left := by
  intro text htext
  obtain ⟨rest, hread, hrest⟩ := h text htext
  exact ⟨rest, hread.mono hle, hrest⟩

/-- No item is read in front of a token that none begins with. -/
theorem readsTokens_many_nil (hfirst : BeginsWith p left)
    (hrefuse : ∀ text, (∀ c ∈ text.head?, p c) → item.Refuses text) :
    (many item).ReadsTokens (· = []) left left := by
  intro text htext
  have hitem : item.Refuses (clear text) := hrefuse _ (htext.before hfirst)
  -- the scan that reads nothing has cut off the gap, which makes no difference to the tokens
  refine ⟨clear text, ?_, htext.of_clear_eq hfirst (clear_clear text)⟩
  refine (reads_many_nil (P := fun (_ : Unit) _ => True) hitem).mono fun as has => ?_
  cases has
  rfl

/-- One item is read if none can follow it. -/
theorem readsTokens_many_one (h : item.ReadsTokens P tokens left) (hfirst : BeginsWith p left)
    (hrefuse : ∀ text, (∀ c ∈ text.head?, p c) → item.Refuses text) :
    (many item).ReadsTokens (fun as => ∃ a, as = [a] ∧ P a) tokens left := by
  intro text htext
  obtain ⟨rest, hread, hrest⟩ := h text htext
  have hitem : item.Refuses (clear rest) := hrefuse _ (hrest.before hfirst)
  refine ⟨rest, ?_, hrest⟩
  -- the rows that are read are indexed by items, of which there is one here
  have hmany := reads_many_cons (x := ()) (P := fun _ => P) hread .nil hitem (Nat.zero_le _)
  refine hmany.mono fun as has => ?_
  cases has with
  | cons ha hmore =>
    cases hmore
    exact ⟨_, rfl, ha⟩

/-- One item is read at the end of a text as a row of one. -/
theorem readsTokens_commaSeparated_one (h : item.ReadsTokens P tokens []) :
    (commaSeparated item).ReadsTokens (fun as => ∃ a, as = [a] ∧ P a) tokens [] := by
  intro text htext
  obtain ⟨rest, hread, hrest⟩ := h text htext
  -- nothing is left behind the item, so there is no comma either
  have hcomma : (afterComma item).Refuses (clear rest) := by
    refine refuses_afterComma ?_
    rw [hrest.clear_eq_nil]
    exact fun _ hc => absurd hc (by simp)
  have hmany := reads_many_nil (P := fun (_ : Unit) => P) hcomma
  have hnil : clear (clear rest) = [] := by rw [clear_clear, hrest.clear_eq_nil]
  refine ⟨clear rest, ?_, .of_clear_eq_nil hnil⟩
  refine (reads_commaSeparated_cons (x := ()) (P := fun _ => P) hread hmany).mono fun as has => ?_
  cases has with
  | cons ha hmore =>
    cases hmore
    exact ⟨_, rfl, ha⟩

end Scan

namespace Chain

variable {inner : Scan ExprRule Chain} {left inside : List String} {P : Chain → Prop}

/-! ### Brackets -/

section Brackets

variable {opening closing : Char} {o c : String} (ho : o.toList = [opening])
  (hc : c.toList = [closing]) (hopening : isGap opening = false) (hclosing : isGap closing = false)
include ho hc hopening hclosing

/-- Something in brackets is read with its brackets. -/
theorem readsTokens_scanEnclosed (h : inner.ReadsTokens P (inside ++ c :: left) (c :: left)) :
    (scanEnclosed opening closing inner).ReadsTokens P (o :: (inside ++ c :: left)) left := by
  intro text htext
  obtain ⟨behind, hclear, hbehind⟩ := htext.exists_cons ho hopening
  obtain ⟨mid, hread, hmid⟩ := h behind hbehind
  obtain ⟨rest, hclearMid, hrest⟩ := hmid.exists_cons hc hclosing
  rw [hclear]
  exact ⟨rest, reads_scanEnclosed hread hclearMid, hrest⟩

/-- Items with commas between them are read with their brackets. -/
theorem readsTokens_scanList {Q : List Chain → Prop}
    (h : (commaSeparated inner).ReadsTokens Q (inside ++ c :: left) (c :: left)) :
    (scanList opening closing inner).ReadsTokens Q (o :: (inside ++ c :: left)) left := by
  intro text htext
  obtain ⟨behind, hclear, hbehind⟩ := htext.exists_cons ho hopening
  obtain ⟨mid, hread, hmid⟩ := h behind hbehind
  obtain ⟨rest, hclearMid, hrest⟩ := hmid.exists_cons hc hclosing
  rw [hclear]
  exact ⟨rest, reads_scanList hread hclearMid, hrest⟩

end Brackets

/-! ### Terms and suffixes -/

/-- A chain in parentheses is a term. -/
theorem readsTokens_group (h : inner.ReadsTokens P (inside ++ ")" :: left) (")" :: left)) :
    (scanTerm inner).ReadsTokens (fun term => ∃ c, term = .group c ∧ P c)
      ("(" :: (inside ++ ")" :: left)) left := by
  have henclosed : (scanEnclosed '(' ')' inner).ReadsTokens P ("(" :: (inside ++ ")" :: left)) left :=
    readsTokens_scanEnclosed rfl rfl rfl rfl h
  intro text htext
  obtain ⟨rest, hread, hrest⟩ := henclosed text htext
  obtain ⟨behind, hclear, -⟩ := htext.exists_cons (c := '(') rfl rfl
  rw [hclear] at hread ⊢
  exact ⟨rest, reads_scanTerm_group hread, hrest⟩

/-- Chains in square brackets are the elements of an array. -/
theorem readsTokens_array {Q : List Chain → Prop}
    (h : (commaSeparated inner).ReadsTokens Q (inside ++ "]" :: left) ("]" :: left)) :
    (scanTerm inner).ReadsTokens (fun term => ∃ elements, term = .array elements ∧ Q elements)
      ("[" :: (inside ++ "]" :: left)) left := by
  have hlist : (scanList '[' ']' inner).ReadsTokens Q ("[" :: (inside ++ "]" :: left)) left :=
    readsTokens_scanList rfl rfl rfl rfl h
  intro text htext
  obtain ⟨rest, hread, hrest⟩ := hlist text htext
  obtain ⟨behind, hclear, -⟩ := htext.exists_cons (c := '[') rfl rfl
  rw [hclear] at hread ⊢
  exact ⟨rest, reads_scanTerm_array hread, hrest⟩

/-- Chains in parentheses behind a term are the arguments of a call. -/
theorem readsTokens_call {Q : List Chain → Prop}
    (h : (commaSeparated inner).ReadsTokens Q (inside ++ ")" :: left) (")" :: left)) :
    (scanSuffix inner).ReadsTokens (fun s => ∃ arguments, s = .call arguments ∧ Q arguments)
      ("(" :: (inside ++ ")" :: left)) left := by
  have hlist : (scanList '(' ')' inner).ReadsTokens Q ("(" :: (inside ++ ")" :: left)) left :=
    readsTokens_scanList rfl rfl rfl rfl h
  intro text htext
  obtain ⟨rest, hread, hrest⟩ := hlist text htext
  exact ⟨rest, reads_scanSuffix_call hread, hrest⟩

/-- A chain in square brackets behind a term is a key. -/
theorem readsTokens_index (h : inner.ReadsTokens P (inside ++ "]" :: left) ("]" :: left)) :
    (scanSuffix inner).ReadsTokens (fun s => ∃ key, s = .index key ∧ P key)
      ("[" :: (inside ++ "]" :: left)) left := by
  have henclosed : (scanEnclosed '[' ']' inner).ReadsTokens P ("[" :: (inside ++ "]" :: left)) left :=
    readsTokens_scanEnclosed rfl rfl rfl rfl h
  intro text htext
  obtain ⟨rest, hread, hrest⟩ := henclosed text htext
  obtain ⟨behind, hclear, -⟩ := htext.exists_cons (c := '[') rfl rfl
  rw [hclear] at hread ⊢
  exact ⟨rest, reads_scanSuffix_index hread, hrest⟩

/-- Behind the last token stands nothing but a gap, which ends every lexeme. -/
theorem endsLexeme_of_spaced_nil (h : Spaced [] text) : EndsLexeme text := by
  -- the text may be empty, or begin with the gap that it is
  refine forall_head?_of_clear (fun c hc => mem_lexemeEnds_of_isGap hc) ?_
  rw [h.clear_eq_nil]
  exact fun _ hc => absurd hc (by simp)

/-- A point and a name at the end of a text are a suffix. -/
theorem readsTokens_field {name : String}
    (hname : Grammar.readName name.toList = some (name.toList, [])) :
    (scanSuffix inner).ReadsTokens (· = .field name.toList) [".", name] [] := by
  intro text htext
  obtain ⟨behind, hclear, hbehind⟩ := htext.exists_cons (c := '.') rfl rfl
  obtain ⟨c, cs, hcons, hstart⟩ := exists_cons_of_readName hname
  -- a name does not begin with a gap, so the gap before it ends where the name begins
  have hgap : isGap c = false := isGap_eq_false_of_notMem fun hmem => by
    have hall : ∀ d ∈ lexemeEnds, Grammar.isNameStart d = false :=
      List.all_iff_forall_prop.mp (by decide)
    rw [hall c hmem] at hstart
    cases hstart
  obtain ⟨rest, hclearName, hrest⟩ := hbehind.exists_cons hcons hgap
  have hread := settled_readName.append (endsLexeme_of_spaced_nil hrest) hname
  rw [List.nil_append, hcons, List.cons_append, ← hclearName, ← hcons] at hread
  rw [hclear]
  exact ⟨rest, reads_scanSuffix_field hread, hrest⟩

/-! ### Operands -/

/-- The spelling of a sign is read as this sign. -/
theorem readsTokens_scanSign (op : UnaryOp) :
    scanSign.ReadsTokens (· = op) (op.spelling :: left) left := by
  intro text htext
  obtain ⟨c, cs, hspelling, hgap⟩ : ∃ c cs, op.spelling.toList = c :: cs ∧ isGap c = false := by
    cases op <;> exact ⟨_, _, rfl, rfl⟩
  obtain ⟨rest, hclear, hrest⟩ := htext.exists_cons hspelling hgap
  -- the spelling is put together again, for the rule asks for all of it
  rw [hclear, ← List.cons_append, ← hspelling]
  exact ⟨rest, reads_scanSign op, hrest⟩

/-- An operand is read part by part: the signs, the term and the suffixes. -/
theorem readsTokens_scanOperand {S : List UnaryOp → Prop} {T : Term → Prop}
    {F : List Suffix → Prop} {behindSigns behindTerm : List String}
    (hsigns : (many scanSign).ReadsTokens S tokens behindSigns)
    (hterm : (scanTerm inner).ReadsTokens T behindSigns behindTerm)
    (hsuffixes : (many (scanSuffix inner)).ReadsTokens F behindTerm left) :
    (scanOperand inner).ReadsTokens (fun operand => ∃ signs term suffixes,
      operand = .mk signs term suffixes ∧ S signs ∧ T term ∧ F suffixes) tokens left := by
  intro text htext
  obtain ⟨mid, hreadSigns, hmid⟩ := hsigns text htext
  obtain ⟨behind, hreadTerm, hbehind⟩ := hterm mid hmid
  obtain ⟨rest, hreadSuffixes, hrest⟩ := hsuffixes behind hbehind
  exact ⟨rest, reads_scanOperand hreadSigns hreadTerm hreadSuffixes, hrest⟩

/-- No sign stands before a bracket. -/
theorem readsTokens_noSign (hfirst : BeginsWith (· ∉ signChars) left) :
    (many scanSign).ReadsTokens (· = []) left left :=
  readsTokens_many_nil hfirst fun _ h => refuses_scanSign h

/-- One sign before something that is none is read alone. -/
theorem readsTokens_oneSign (op : UnaryOp) (hfirst : BeginsWith (· ∉ signChars) left) :
    (many scanSign).ReadsTokens (· = [op]) (op.spelling :: left) left := by
  refine
    (readsTokens_many_one (readsTokens_scanSign op) hfirst fun _ h => refuses_scanSign h).mono ?_
  rintro _ ⟨_, rfl, rfl⟩
  rfl

theorem readsTokens_noSuffix (hfirst : BeginsWith (· ∉ openers) left) :
    (many (scanSuffix inner)).ReadsTokens (· = []) left left :=
  readsTokens_many_nil hfirst fun _ h => refuses_scanSuffix h

/-! ### Joints and chains -/

theorem mem_operators (op : InfixOp) : op ∈ InfixOp.binary .nullish :: operatorOrder := by
  rcases op with op | op <;> cases op <;> decide

/-- Before a bracket stands the bracket or a gap. -/
theorem head?_of_parenthesis (h : Spaced ("(" :: left) text) :
    ∀ c ∈ text.head?, c ∈ '(' :: lexemeEnds := by
  refine forall_head?_of_clear (fun c hc => ?_) fun c hc => ?_
  · exact List.mem_cons_of_mem _ (mem_lexemeEnds_of_isGap hc)
  · obtain ⟨behind, hclear, -⟩ := h.exists_cons (c := '(') rfl rfl
    rw [hclear] at hc
    cases hc
    exact List.mem_cons_self

section Spelling

variable {op : InfixOp} {text : List Char} (htext : ∀ c ∈ text.head?, c ∈ '(' :: lexemeEnds)
include htext

/-- There the spelling of an operator ends, also where it is a word. -/
theorem readSpelling_spelling : readSpelling op (op.spelling.toList ++ text) = some text := by
  have hfront := isPrefixOf?_append op.spelling.toList text
  -- the operator that is a word must not go on in what follows, be it a bracket or a gap
  have hword : Grammar.endsWord text = true := by
    cases text with
    | nil => rfl
    | cons c text =>
      have hall : ∀ d ∈ '(' :: lexemeEnds, Grammar.isNameChar d = false :=
        List.all_iff_forall_prop.mp (by decide)
      rw [Grammar.endsWord, hall c (htext c rfl)]
      rfl
  unfold readSpelling
  split
  · rw [Grammar.readWord, hfront, Option.filter_some, if_pos hword]
  · exact hfront

/-- An operator that is tried earlier is not read there: it would have to be the beginning of the
spelling, or to go on in the gap or in the bracket. -/
theorem readSpelling_earlier {before after : List InfixOp}
    (horder : .binary .nullish :: operatorOrder = before ++ op :: after) :
    ∀ other ∈ before, readSpelling other (op.spelling.toList ++ text) = none := by
  intro other hother
  have hnotMem : ∀ c ∈ text.head?, c ∉ other.spelling.toList := by
    have hall : ∀ d ∈ '(' :: lexemeEnds, d ∉ other.spelling.toList := by
      rcases other with other | other <;> cases other <;>
        exact List.all_iff_forall_prop.mp (by decide)
    exact fun c hc => hall c (htext c hc)
  -- an operator that is tried earlier is no prefix of this one
  have hpairwise := pairwise_operators
  rw [horder, List.pairwise_append] at hpairwise
  have hnone : other.spelling.toList.isPrefixOf? op.spelling.toList = none :=
    hpairwise.2.2 other hother op List.mem_cons_self
  refine readSpelling_eq_none ?_
  rw [isPrefixOf?_append_of_head? hnotMem, hnone]
  rfl

end Spelling

/-- An operator before a bracket is read as itself. -/
theorem readsTokens_operator (op : InfixOp) :
    (scanJoint inner).ReadsTokens (· = .operator op) (op.spelling :: "(" :: left) ("(" :: left) := by
  intro text htext
  obtain ⟨c, word, hspelling, hends, -⟩ := exists_spelling_eq_cons op
  obtain ⟨behind, hclear, hbehind⟩ := htext.exists_cons hspelling (isGap_eq_false_of_notMem hends)
  rw [← List.cons_append, ← hspelling] at hclear
  have hhead := head?_of_parenthesis hbehind
  obtain ⟨before, after, horder⟩ := List.append_of_mem (mem_operators op)
  rw [hclear]
  exact ⟨behind, reads_scanJoint_operator horder (readSpelling_earlier hhead horder)
    (readSpelling_spelling hhead), hbehind⟩

/-- A question mark that no second one follows opens the middle of a choice. -/
theorem readsTokens_choice (h : inner.ReadsTokens P (inside ++ ":" :: left) (":" :: left))
    (hfirst : BeginsWith (· ≠ '?') (inside ++ ":" :: left)) :
    (scanJoint inner).ReadsTokens (fun joint => ∃ middle, joint = .choice middle ∧ P middle)
      ("?" :: (inside ++ ":" :: left)) left := by
  have henclosed : (scanEnclosed '?' ':' inner).ReadsTokens P ("?" :: (inside ++ ":" :: left)) left :=
    readsTokens_scanEnclosed rfl rfl rfl rfl h
  intro text htext
  obtain ⟨rest, hread, hrest⟩ := henclosed text htext
  obtain ⟨behind, hclear, hbehind⟩ := htext.exists_cons (c := '?') rfl rfl
  -- a second question mark would make an operator of the two
  have hnullish : readSpelling (.binary .nullish) (clear text) = none := by
    have hhead : ∀ d ∈ behind.head?, d ≠ '?' := by
      refine forall_head?_of_clear (fun d hd => ?_) (hbehind.before hfirst)
      rintro rfl
      cases hd
    have hsecond : ['?'].isPrefixOf? behind = none := isPrefixOf?_eq_none hhead
    rw [hclear]
    exact readSpelling_eq_none hsecond
  exact ⟨rest, reads_scanJoint_choice hnullish hread, hrest⟩

/-- A joint and the operand behind it are a link. -/
theorem readsTokens_scanLink {J : Joint Chain → Prop} {O : Operand → Prop} {mid : List String}
    (hjoint : (scanJoint inner).ReadsTokens J tokens mid)
    (hoperand : (scanOperand inner).ReadsTokens O mid left) :
    (scanLink inner).ReadsTokens (fun link => J link.1 ∧ O link.2) tokens left := by
  intro text htext
  obtain ⟨mid, hreadJoint, hmid⟩ := hjoint text htext
  obtain ⟨rest, hreadOperand, hrest⟩ := hoperand mid hmid
  exact ⟨rest, reads_scanLink hreadJoint hreadOperand, hrest⟩

theorem refuses_scanLink (h : ∀ c ∈ text.head?, c ∈ followers) : (scanLink inner).Refuses text := by
  have hends : EndsLexeme text := fun c hc => mem_lexemeEnds_of_mem_followers c (h c hc)
  exact (refuses_scanJoint hends).bind

/-- The first operand and the links behind it are a chain. -/
theorem readsTokens_scanChain {O : Operand → Prop} {L : List (Joint Chain × Operand) → Prop}
    {mid : List String} (hfirst : (scanOperand inner).ReadsTokens O tokens mid)
    (hlinks : (many (scanLink inner)).ReadsTokens L mid left) :
    (scanChain inner).ReadsTokens (fun c => ∃ offset first links,
      c = .mk offset first links ∧ O first ∧ L links) tokens left := by
  intro text htext
  obtain ⟨mid, hreadFirst, hmid⟩ := hfirst text htext
  obtain ⟨rest, hreadLinks, hrest⟩ := hlinks mid hmid
  exact ⟨rest, reads_scanChain hreadFirst hreadLinks, hrest⟩

end Chain

end CheckedExpr
