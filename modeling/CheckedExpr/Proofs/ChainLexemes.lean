import CheckedExpr.Proofs.Layout
import CheckedExpr.Proofs.Lexemes

/-!
# The lexemes of a chain

A chain has lexemes too, which are those of its operands, brackets, commas, joints, signs and
suffixes from left to right. What is read from a text are chains with the lexemes of the text, and a
text has one row of lexemes at most: so none is lost, repeated or moved, and none is read as another
one.

* `Lexeme.endsBefore_mark`: where a mark ends, by the marks that it could go on to.
* `Chain.lexemes_eq_tokens`: the lexemes of a chain are those of its row of tokens.
* `Chain.lexes_of_ofText`: a text has the lexemes of the chains that are read from it.
-/

namespace CheckedExpr

open Scan

variable {ls : List Lexeme} {text mid behind rest : List Char}

/-! ### Where a mark ends -/

namespace Lexeme

/-- The marks that a mark could go on to. -/
def extensions (spelling : String) : List String :=
  marks.filter fun other => spelling.toList.isPrefixOf other.toList && other != spelling

/-- A mark ends where none that it could go on to stands. -/
theorem endsBefore_mark {spelling : String} (hmark : spelling ∈ marks)
    (hextend : ∀ other ∈ extensions spelling, ¬ other.toList <+: spelling.toList ++ behind)
    (hpoint : spelling = "." → NoDigitFirst behind) : (mark spelling).EndsBefore behind := by
  refine .mark hmark (fun other hother hfront => ?_) hpoint
  by_contra hlonger
  -- a longer mark that stands there begins with this one
  have hbegins : spelling.toList <+: other.toList :=
    List.prefix_of_prefix_length_le (List.prefix_append _ _) hfront (by omega)
  have hne : other ≠ spelling := by
    rintro rfl
    exact hlonger (Nat.le_refl _)
  exact hextend other (List.mem_filter.mpr ⟨hother, by simpa [hne] using hbegins⟩) hfront

/-- Whether a mark ends wherever it stands: no other one goes on from it, and it is no point. -/
def isAlone (spelling : String) : Bool :=
  marks.contains spelling && (extensions spelling).isEmpty && spelling != "."

/-- A mark that stands alone needs no look at what is behind it. -/
theorem endsBefore_mark_of_isAlone {spelling : String} (h : isAlone spelling = true)
    (behind : List Char) : (mark spelling).EndsBefore behind := by
  simp only [isAlone, Bool.and_eq_true, List.isEmpty_iff, bne_iff_ne, List.contains_iff_mem] at h
  obtain ⟨⟨hmark, hnone⟩, hpoint⟩ := h
  refine endsBefore_mark hmark ?_ (absurd · hpoint)
  rw [hnone]
  exact fun _ hmem => absurd hmem List.not_mem_nil

/-- A mark that only goes on with an equals sign ends before any other character. -/
theorem endsBefore_mark_of_ne {spelling : String} (hmark : spelling ∈ marks)
    (hpoint : spelling ≠ ".") (hnext : ∀ c ∈ behind.head?, c ≠ '=')
    (hextend : ∀ other ∈ extensions spelling, spelling.toList ++ ['='] <+: other.toList) :
    (mark spelling).EndsBefore behind := by
  refine endsBefore_mark hmark (fun other hother hfront => ?_) (absurd · hpoint)
  have hequals : ['='] <+: behind :=
    (List.prefix_append_right_inj _).mp ((hextend other hother).trans hfront)
  obtain ⟨more, rfl⟩ := hequals
  exact hnext '=' rfl rfl

end Lexeme

/-! ### Readers keep to the lexemes -/

/-- What is read between quotes has none of them but behind a backslash. -/
theorem closed_of_readBody {quote : Char} {body : List Char}
    (h : Grammar.readBody quote text = some (body, rest)) : Closed quote body := by
  -- the reader takes a character or an escaped one at a time, like the definition of `Closed`
  refine Grammar.readBody_induction (motive := fun _ body _ => Closed quote body)
    ?closing ?escape ?plain h
  case closing =>
    intro _ _
    exact .nil
  case escape =>
    intro c _ body _ hbody
    exact .escape hbody
  case plain =>
    intro c _ body _ hslash hquote hbody
    exact .plain hslash hquote hbody

/-- A quoted text is read up to the quote that closes it. -/
theorem endsBefore_of_readQuoted {quote : Char} {written : Grammar.QuotedText}
    (hquote : quote = '"' ∨ quote = '\'')
    (h : Grammar.readQuoted quote text = some (written, rest)) :
    (Lexeme.quoted written).EndsBefore rest := by
  unfold Grammar.readQuoted at h
  split at h
  next => cases h
  next c cs =>
    split at h
    next =>
      obtain ⟨⟨body, after⟩, hbody, hwritten⟩ := Option.map_eq_some_iff.mp h
      cases hwritten
      -- a quoted text ends itself, whatever stands behind it
      exact .quoted hquote (closed_of_readBody hbody) rest
    next => cases h

/-- A name is read to its last character. -/
theorem endsBefore_of_readName {name : List Char}
    (h : Grammar.readName text = some (name, rest)) : (Lexeme.word name).EndsBefore rest := by
  unfold Grammar.readName at h
  split at h
  next => cases h
  next c cs =>
    split at h
    next hstart =>
      cases h
      refine .word hstart (fun _ hd => List.mem_takeWhile_imp hd) ?_
      -- the name took all that it could, so what is left does not go on with it
      cases hbehind : cs.dropWhile Grammar.isNameChar with
      | nil => rfl
      | cons d ds =>
        have hd := List.head?_dropWhile_not Grammar.isNameChar cs
        rw [hbehind] at hd
        simpa [Grammar.endsWord] using hd
    next => cases h

/-- A word is read only where no name goes on with it. -/
theorem endsBefore_of_readWord {c : Char} {cs : List Char} (hstart : Grammar.isNameStart c = true)
    (hchars : cs.all Grammar.isNameChar = true)
    (h : Grammar.readWord (c :: cs) text = some rest) : (Lexeme.word (c :: cs)).EndsBefore rest :=
  .word hstart (List.all_eq_true.mp hchars) (Option.filter_eq_some_iff.mp h).2

/-- The numeral that is read is the longest one that stands there. -/
theorem endsBefore_of_readNumeral {n : Numeral} (h : Numeral.read text = some (n, rest)) :
    (Lexeme.number n).EndsBefore rest := by
  refine .number (Numeral.spelled_of_read h) fun other hspelled hfront => ?_
  rw [← Numeral.append_of_read h] at hfront
  exact Numeral.length_le_of_read h hspelled hfront

/-! ### The lexemes of a chain -/

/-- The lexeme of a sign. -/
def UnaryOp.lexeme (op : UnaryOp) : Lexeme := .mark op.spelling

/-- The lexeme of an operator. One of them is a word. -/
def InfixOp.lexeme (op : InfixOp) : Lexeme :=
  if op = .binary .isIn then .word op.spelling.toList else .mark op.spelling

/-- Word or mark, the lexeme of an operator has the characters of its spelling. -/
theorem InfixOp.chars_lexeme (op : InfixOp) : op.lexeme.chars = op.spelling.toList := by
  unfold lexeme
  split <;> rfl

mutual

/-- The lexemes of a chain from left to right. -/
def Chain.lexemes : Chain → List Lexeme
  | .mk _ first links => first.lexemes ++ linksLexemes links

/-- The lexemes of joints and the operands behind them. -/
def linksLexemes : List (Joint Chain × Operand) → List Lexeme
  | [] => []
  | (.operator op, operand) :: links => op.lexeme :: (operand.lexemes ++ linksLexemes links)
  | (.choice middle, operand) :: links =>
    .mark "?" :: (middle.lexemes ++ .mark ":" :: (operand.lexemes ++ linksLexemes links))

/-- The lexemes of an operand: those of its signs, its term and its suffixes. -/
def Operand.lexemes : Operand → List Lexeme
  | .mk signs term suffixes =>
    signs.map UnaryOp.lexeme ++ (term.lexemes ++ suffixesLexemes suffixes)

/-- The lexemes of a term. -/
def Term.lexemes : Term → List Lexeme
  | .number n => [.number n]
  | .text _ written => [.quoted written]
  | .boolean true => [.word "true".toList]
  | .boolean false => [.word "false".toList]
  | .null => [.word "null".toList]
  | .this => [.word "this".toList]
  | .array elements => .mark "[" :: (rowLexemes elements ++ [.mark "]"])
  | .group inner => .mark "(" :: (inner.lexemes ++ [.mark ")"])
  | .name name => [.word name]

/-- The lexemes of some suffixes. -/
def suffixesLexemes : List Suffix → List Lexeme
  | [] => []
  | suffix :: suffixes => suffix.lexemes ++ suffixesLexemes suffixes

/-- The lexemes of a suffix. -/
def Suffix.lexemes : Suffix → List Lexeme
  | .call arguments => .mark "(" :: (rowLexemes arguments ++ [.mark ")"])
  | .index key => .mark "[" :: (key.lexemes ++ [.mark "]"])
  | .field name => [.mark ".", .word name]

/-- The lexemes of some chains with commas between them. -/
def rowLexemes : List Chain → List Lexeme
  | [] => []
  | c :: cs => c.lexemes ++ behindCommasLexemes cs

/-- The lexemes of some chains with a comma before each of them. -/
def behindCommasLexemes : List Chain → List Lexeme
  | [] => []
  | c :: cs => .mark "," :: (c.lexemes ++ behindCommasLexemes cs)

end

/-- The lexemes of a joint: an operator, or the middle of a choice between its marks. -/
def Joint.lexemes : Joint Chain → List Lexeme
  | .operator op => [op.lexeme]
  | .choice middle => .mark "?" :: (middle.lexemes ++ [.mark ":"])

/-- The lexemes of a token of a row. -/
def Token.lexemes : Token → List Lexeme
  | .term t => t.lexemes
  | .sign op => [op.lexeme]
  | .suffix s => s.lexemes
  | .joint j => j.lexemes

/-- Link by link, the lexemes of the joint come before those of its operand. -/
theorem linksLexemes_eq_flatMap (links : List (Joint Chain × Operand)) :
    linksLexemes links = links.flatMap fun (joint, operand) => joint.lexemes ++ operand.lexemes := by
  induction links with
  | nil => rfl
  | cons link links ih =>
    obtain ⟨op | middle, operand⟩ := link
    · simp [linksLexemes, Joint.lexemes, ih]
    · simp [linksLexemes, Joint.lexemes, ih]

/-- Suffixes follow each other with nothing in between. -/
theorem suffixesLexemes_eq_flatMap (suffixes : List Suffix) :
    suffixesLexemes suffixes = suffixes.flatMap Suffix.lexemes := by
  induction suffixes with
  | nil => rfl
  | cons suffix suffixes ih => rw [suffixesLexemes, ih, List.flatMap_cons]

/-- Each further chain of a row has its comma before it. -/
theorem behindCommasLexemes_eq_flatMap (cs : List Chain) :
    behindCommasLexemes cs = cs.flatMap fun c => .mark "," :: c.lexemes := by
  induction cs with
  | nil => rfl
  | cons c cs ih => rw [behindCommasLexemes, ih, List.flatMap_cons, List.cons_append]

/-- An operand has the tokens of its signs, its term and its suffixes, in that order. -/
theorem Operand.lexemes_eq_tokens (operand : Operand) :
    operand.lexemes = operand.tokens.flatMap Token.lexemes := by
  obtain ⟨signs, term, suffixes⟩ := operand
  rw [lexemes, suffixesLexemes_eq_flatMap]
  simp only [tokens, List.flatMap_append, List.flatMap_cons, List.flatMap_map, Token.lexemes]
  rw [← List.map_eq_flatMap]

/-- **The lexemes of a chain are those of its tokens**, in their order. -/
theorem Chain.lexemes_eq_tokens (c : Chain) : c.lexemes = c.tokens.flatMap Token.lexemes := by
  obtain ⟨offset, first, links⟩ := c
  rw [lexemes, linksLexemes_eq_flatMap, tokens, List.flatMap_append, first.lexemes_eq_tokens,
    List.flatMap_assoc]
  congr 1
  refine List.flatMap_congr fun link _ => ?_
  rw [List.flatMap_cons, ← link.2.lexemes_eq_tokens]
  rfl

/-! ### Scans by the lexemes of what they read -/

/-- Whether what a scan reads stands in the text with its lexemes. -/
def Scan.LexesAs {ρ α : Type} (scan : Scan ρ α) (lexemes : α → List Lexeme) : Prop :=
  ∀ ⦃text : List Char⦄ ⦃a : α⦄ ⦃rest : List Char⦄, scan.Accepts text a rest →
    Lexes (lexemes a) text rest

namespace Scan

variable {ρ α : Type} {item : Scan ρ α} {lexemes : α → List Lexeme}

/-- Items of a row have gaps between them, which are not among the lexemes. -/
theorem LexesAs.row (hitem : item.LexesAs lexemes) {as : List α} (h : Row item as text rest) :
    Lexes (as.flatMap lexemes) text rest := by
  induction h with
  | nil => exact .nil rfl
  | cons hfirst _ ih => exact ((hitem hfirst).of_clear_eq (clear_clear _).symm).append ih

theorem LexesAs.many (hitem : item.LexesAs lexemes) :
    (many item).LexesAs fun as => as.flatMap lexemes := by
  intro text as rest h
  rcases h.of_many with ⟨rfl, rfl⟩ | ⟨a, more, mid, rfl, hfirst, hrow, -⟩
  · exact .nil rfl
  · exact (hitem hfirst).append (hitem.row hrow)

/-- The comma before an item is a lexeme of its own. -/
theorem LexesAs.afterComma (hitem : item.LexesAs lexemes) :
    (afterComma item).LexesAs fun a => .mark "," :: lexemes a := by
  intro text a rest h
  obtain ⟨behind, rfl, ha⟩ := h.of_afterComma
  refine .cons (clear_of_not_isGap rfl) (Lexeme.endsBefore_mark_of_isAlone rfl behind) ?_
  exact (hitem ha).of_clear_eq (clear_clear behind).symm

end Scan

namespace Chain

variable {inner : Scan ExprRule Chain}

/-- A row of chains stands in the text with its commas. -/
theorem lexesAs_commaSeparated (hinner : inner.LexesAs lexemes) :
    (commaSeparated inner).LexesAs rowLexemes := by
  intro text cs rest h
  rcases h.of_commaSeparated with ⟨rfl, rfl⟩ | ⟨c, more, mid, rfl, hfirst, hmore⟩
  · exact .nil rfl
  · rw [rowLexemes, behindCommasLexemes_eq_flatMap]
    exact (hinner hfirst).append_clear (hinner.afterComma.many hmore)

/-! ### Brackets -/

/-- What stands between an opening and a closing mark, with the two of them. -/
theorem lexes_enclosed {opening closing : Char} {o c : String} (ho : o.toList = [opening])
    (hc : c.toList = [closing]) (hopening : isGap opening = false)
    (hopens : (Lexeme.mark o).EndsBefore behind) (hcloses : (Lexeme.mark c).EndsBefore rest)
    (htext : text = opening :: behind) (h : Lexes ls (clear behind) mid)
    (hmid : clear mid = closing :: rest) : Lexes (.mark o :: (ls ++ [.mark c])) text rest := by
  have hfront : clear text = (Lexeme.mark o).chars ++ behind := by
    rw [htext, clear_of_not_isGap hopening, Lexeme.chars, ho]
    rfl
  have hback : clear mid = (Lexeme.mark c).chars ++ rest := by
    rw [hmid, Lexeme.chars, hc]
    rfl
  -- a gap behind the opening bracket belongs to the lexeme that follows it
  have hinside : Lexes ls behind mid := h.of_clear_eq (clear_clear behind).symm
  exact .cons hfront hopens (hinside.append (.cons hback hcloses (.nil rfl)))

/-- Brackets are marks that end wherever they stand. -/
theorem lexes_bracketed {opening closing : Char} {o c : String} (ho : o.toList = [opening])
    (hc : c.toList = [closing]) (hopening : isGap opening = false)
    (hopens : Lexeme.isAlone o = true) (hcloses : Lexeme.isAlone c = true)
    (htext : text = opening :: behind) (h : Lexes ls (clear behind) mid)
    (hmid : clear mid = closing :: rest) : Lexes (.mark o :: (ls ++ [.mark c])) text rest :=
  lexes_enclosed ho hc hopening (Lexeme.endsBefore_mark_of_isAlone hopens behind)
    (Lexeme.endsBefore_mark_of_isAlone hcloses rest) htext h hmid

/-! ### Signs and operators -/

/-- A sign is a mark, and `!` is another one before an equals sign. -/
theorem endsBefore_sign (op : UnaryOp) (h : ∀ c ∈ rest.head?, c ≠ '=') :
    op.lexeme.EndsBefore rest := by
  cases op with
  | neg | bitNot | plus => exact Lexeme.endsBefore_mark_of_isAlone rfl rest
  | not =>
    refine Lexeme.endsBefore_mark_of_ne (by decide) (by decide) h ?_
    decide

/-- A row of signs before something that does not begin with an equals sign. -/
theorem lexes_of_signRow {signs : List UnaryOp} (h : Row scanSign signs text mid)
    (hmid : ∀ c ∈ mid.head?, c ≠ '=') :
    Lexes (signs.map UnaryOp.lexeme) text mid ∧ ∀ c ∈ text.head?, c ≠ '=' := by
  -- from the last sign to the first: each must not be followed by the rest of a longer mark
  induction h with
  | nil => exact ⟨.nil rfl, hmid⟩
  | @cons op ops text between mid first more ih =>
    obtain ⟨hlexes, hbetween⟩ := ih hmid
    have htext := accepts_scanSign first
    refine ⟨.cons htext (endsBefore_sign op hbetween) hlexes, ?_⟩
    refine forall_head?_of_clear (fun c hgap => ?_) fun c hc => ?_
    · rintro rfl
      cases hgap
    · rw [htext] at hc
      rintro rfl
      cases op <;> cases hc

/-- No term begins with an equals sign. -/
theorem forall_head?_of_termText {term : Term} (h : TermText inner text term rest) :
    ∀ c ∈ text.head?, c ≠ '=' := by
  obtain ⟨first, behind, rfl, hfirst⟩ := h.exists_cons
  rintro c ⟨⟩ rfl
  exact hfirst List.mem_cons_self

/-- The signs of an operand stand before its term. -/
theorem lexes_of_signs {signs : List UnaryOp} {term : Term}
    (h : (many scanSign).Accepts text signs mid) (hterm : TermText inner (clear mid) term rest) :
    Lexes (signs.map UnaryOp.lexeme) text mid := by
  have hmid : ∀ c ∈ mid.head?, c ≠ '=' := by
    refine forall_head?_of_clear (fun c hgap => ?_) (forall_head?_of_termText hterm)
    rintro rfl
    cases hgap
  -- the first sign stands at the front, the others may have gaps before them
  rcases h.of_many with ⟨rfl, rfl⟩ | ⟨op, more, behind, rfl, hfirst, hrow, -⟩
  · exact .nil rfl
  · obtain ⟨hlexes, hbehind⟩ := lexes_of_signRow hrow hmid
    refine .cons ?_ (endsBefore_sign op hbehind) hlexes
    rw [accepts_scanSign hfirst]
    cases op <;> exact clear_of_not_isGap rfl

/-- Whatever mark an operator could go on to is an operator that is tried before it. -/
theorem exists_mem_of_mem_extensions {op : InfixOp} {before after : List InfixOp}
    (horder : .binary .nullish :: operatorOrder = before ++ op :: after) {other : String}
    (h : other ∈ Lexeme.extensions op.spelling) :
    ∃ op' ∈ before, op' ≠ .binary .isIn ∧ op'.spelling = other := by
  have hall : ((Lexeme.extensions op.spelling).all fun other =>
      (.binary .nullish :: operatorOrder).any fun op' : InfixOp => op'.spelling == other) = true := by
    rcases op with op | op <;> cases op <;> rfl
  obtain ⟨op', hop', hspelling⟩ := List.any_eq_true.mp (List.all_eq_true.mp hall other h)
  obtain rfl := eq_of_beq hspelling
  obtain ⟨hmark, hextends⟩ := List.mem_filter.mp h
  simp only [Bool.and_eq_true, bne_iff_ne, List.isPrefixOf_iff_prefix] at hextends
  obtain ⟨⟨more, hmore⟩, hne⟩ := hextends
  refine ⟨op', ?_, ?_, rfl⟩
  · have hpairwise := pairwise_operators
    rw [horder] at hop' hpairwise
    rcases List.mem_append.mp hop' with hbefore | hop'
    · exact hbefore
    rcases List.mem_cons.mp hop' with rfl | hafter
    · exact absurd rfl hne
    -- a spelling that is tried later does not begin with this one
    · have hnone := (List.pairwise_cons.mp (List.pairwise_append.mp hpairwise).2.1).1 op' hafter
      rw [← hmore, isPrefixOf?_append] at hnone
      cases hnone
  · rintro rfl
    exact absurd hmark (by decide)

/-- **An operator that is read is the longest one that stands there**, as those that are longer are
tried before it. -/
theorem lexes_of_readSpelling {op : InfixOp} {before after : List InfixOp}
    (horder : .binary .nullish :: operatorOrder = before ++ op :: after)
    (hbefore : ∀ other ∈ before, readSpelling other text = none)
    (h : readSpelling op text = some rest) : Lexes [op.lexeme] text rest := by
  have htext := append_of_readSpelling h
  refine .single ?_ (htext.trans (by rw [op.chars_lexeme])) ?_
  · rw [htext]
    rcases op with op | op <;> cases op <;> exact clear_of_not_isGap rfl
  -- one operator is a word, and it ends where a name would
  by_cases hword : op = .binary .isIn
  · subst hword
    rw [readSpelling, if_pos rfl] at h
    exact endsBefore_of_readWord rfl rfl h
  · rw [InfixOp.lexeme, if_neg hword]
    refine Lexeme.endsBefore_mark ?mark (fun other hother hfront => ?longest) (absurd · ?point)
    case mark => rcases op with op | op <;> cases op <;> first | decide | exact absurd rfl hword
    case longest =>
      -- the longer operators were tried before and did not fit
      obtain ⟨op', hop', hnotWord, rfl⟩ := exists_mem_of_mem_extensions horder hother
      have hnone := hbefore op' hop'
      obtain ⟨more, hmore⟩ := hfront
      rw [readSpelling, if_neg hnotWord, htext, ← hmore, isPrefixOf?_append] at hnone
      cases hnone
    case point => rcases op with op | op <;> cases op <;> decide

theorem isDigit_eq_false_of_isGap {c : Char} (h : isGap c = true) : isDigit c = false := by
  have hall : (lexemeEnds.all fun d => !isDigit d) = true := rfl
  simpa using List.all_eq_true.mp hall c (mem_lexemeEnds_of_isGap h)

section Parts

variable (hinner : inner.LexesAs lexemes)
include hinner

/-- A suffix stands in the text with its brackets, or with its point and the name behind it. -/
theorem lexesAs_scanSuffix : (scanSuffix inner).LexesAs Suffix.lexemes := by
  intro text s rest h
  cases accepts_scanSuffix h with
  | call h =>
    obtain ⟨behind, mid, htext, hrow, hmid⟩ := accepts_scanList h
    exact lexes_bracketed rfl rfl rfl rfl rfl htext (lexesAs_commaSeparated hinner hrow) hmid
  | index h =>
    obtain ⟨behind, mid, htext, hkey, hmid⟩ := accepts_scanEnclosed h
    exact lexes_bracketed rfl rfl rfl rfl rfl htext (hinner hkey) hmid
  | @field behind rest name h =>
    have hname := Grammar.append_of_readName h
    -- a name stands behind the point, and no digit
    have hdigit : NoDigitFirst behind := by
      refine forall_head?_of_clear (fun c hgap => ?_) fun c hc => ?_
      · exact isDigit_eq_false_of_isGap hgap
      · obtain ⟨d, ds, hcons, hstart⟩ := exists_cons_of_readName h
        rw [hcons] at hc
        cases hc
        exact isDigit_eq_false_of_isNameStart hstart
    have hpoint : (Lexeme.mark ".").EndsBefore behind :=
      Lexeme.endsBefore_mark (by decide) (fun _ hmem => absurd hmem List.not_mem_nil)
        fun _ => hdigit
    exact .cons (clear_of_not_isGap rfl) hpoint
      (.cons hname (endsBefore_of_readName h) (.nil rfl))

/-- A term begins where a gap has ended, so its lexemes do. -/
theorem lexes_of_termText {term : Term} (hclear : clear text = text)
    (h : TermText inner text term rest) : Lexes term.lexemes text rest := by
  cases h with
  | number h => exact .single hclear (Numeral.append_of_read h) (endsBefore_of_readNumeral h)
  | text hquote h =>
    exact .single hclear (Grammar.append_of_readQuoted h) (endsBefore_of_readQuoted hquote h)
  | word hword h =>
    -- the four words, one by one
    have hfront := Grammar.append_of_readWord h
    simp only [wordTerms, List.mem_cons, List.not_mem_nil, or_false, Prod.mk.injEq] at hword
    obtain ⟨rfl, rfl⟩ | ⟨rfl, rfl⟩ | ⟨rfl, rfl⟩ | ⟨rfl, rfl⟩ := hword
    all_goals exact .single hclear hfront (endsBefore_of_readWord rfl rfl h)
  | array h =>
    obtain ⟨behind, mid, htext, hrow, hmid⟩ := accepts_scanList h
    exact lexes_bracketed rfl rfl rfl rfl rfl htext (lexesAs_commaSeparated hinner hrow) hmid
  | group h =>
    obtain ⟨behind, mid, htext, hc, hmid⟩ := accepts_scanEnclosed h
    exact lexes_bracketed rfl rfl rfl rfl rfl htext (hinner hc) hmid
  | name h =>
    have hname := (Option.filter_eq_some_iff.mp h).1
    exact .single hclear (Grammar.append_of_readName hname) (endsBefore_of_readName hname)

/-- An operand stands in the text with its signs before and its suffixes behind the term. -/
theorem lexesAs_scanOperand : (scanOperand inner).LexesAs Operand.lexemes := by
  intro text operand rest h
  obtain ⟨signs, term, suffixes, mid, behind, rfl, hsigns, hterm, hsuffixes⟩ :=
    accepts_scanOperand h
  rw [Operand.lexemes, suffixesLexemes_eq_flatMap]
  exact (lexes_of_signs hsigns hterm).append_clear
    ((lexes_of_termText hinner (clear_clear mid) hterm).append_clear
      ((lexesAs_scanSuffix hinner).many hsuffixes))

/-- A joint is an operator, or a middle between its two marks. -/
theorem lexes_of_jointText {joint : Joint Chain} (h : JointText inner text joint rest) :
    Lexes joint.lexemes text rest := by
  cases h with
  | operator horder hbefore h => exact lexes_of_readSpelling horder hbefore h
  | choice hnullish h =>
    obtain ⟨behind, mid, rfl, hmiddle, hmid⟩ := accepts_scanEnclosed h
    have hopens : (Lexeme.mark "?").EndsBefore behind := by
      refine Lexeme.endsBefore_mark (by decide) (fun other hother hfront => ?_)
        (absurd · (by decide))
      -- the one mark that it could go on to is the operator that was tried before
      obtain rfl : other = "??" := List.mem_singleton.mp hother
      obtain ⟨more, hmore⟩ := hfront
      change "??".toList ++ more = '?' :: behind at hmore
      rw [← hmore, readSpelling, if_neg (by decide)] at hnullish
      rw [show (InfixOp.binary .nullish).spelling = "??" from rfl, isPrefixOf?_append] at hnullish
      cases hnullish
    exact lexes_enclosed rfl rfl rfl hopens (Lexeme.endsBefore_mark_of_isAlone rfl _) rfl
      (hinner hmiddle) hmid

/-- A joint stands in the text before its operand. -/
theorem lexesAs_scanLink :
    (scanLink inner).LexesAs fun (joint, operand) => joint.lexemes ++ operand.lexemes := by
  intro text link rest h
  obtain ⟨mid, hjoint, hoperand⟩ := accepts_scanLink h
  exact (lexes_of_jointText hinner hjoint).append_clear (lexesAs_scanOperand hinner hoperand)

/-- A chain stands in the text as its first operand and the links behind it. -/
theorem lexesAs_scanChain : (scanChain inner).LexesAs lexemes := by
  intro text c rest h
  obtain ⟨offset, first, links, mid, rfl, hfirst, hlinks⟩ := accepts_scanChain h
  rw [lexemes, linksLexemes_eq_flatMap]
  exact (lexesAs_scanOperand hinner hfirst).append_clear
    ((lexesAs_scanLink hinner).many hlinks)

end Parts

theorem lexesAs_scanNested (depth : Nat) : (scanNested depth).LexesAs lexemes := by
  -- at no depth is anything read, and a level more reads chains of those below it
  induction depth with
  | zero => exact fun _ _ _ h => h.of_refuse.elim
  | succ depth ih => exact lexesAs_scanChain ih

/-- **A text has the lexemes of what is read from it.** Beside them there are only gaps. -/
theorem lexes_of_ofText {source : String} {chains : List Chain} (h : ofText source = .ok chains) :
    Lexes (rowLexemes chains) source.toList [] := by
  obtain ⟨mid, hchains, hmid⟩ := accepts_of_ofText h
  have hrow := lexesAs_commaSeparated (lexesAs_scanNested _) hchains
  exact (hrow.of_clear_eq (clear_clear _).symm).of_clear_rest_eq hmid

end Chain

end CheckedExpr
