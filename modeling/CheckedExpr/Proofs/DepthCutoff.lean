import CheckedExpr.Proofs.BracketDepth
import CheckedExpr.Proofs.ChainSyntax
import CheckedExpr.Proofs.Cutoff

/-!
# Brackets go no deeper than chains

Brackets are counted without reading the text, and chains are held against the limit when it has
been read. On a text that is read, the second test is at least as strict as the first. A bracket
that the count sees open is one that the grammar has opened: quotes mean the same to both, and a
question mark that stands alone can only begin the middle of a choice. What stands inside is a
chain, and a chain takes a level at least. So, read from left to right, the open brackets are
never more than the levels of the chains around them (`Brackets.Within`).

* `Chain.within_scanNested`: a chain that an expression is made of keeps its brackets within the
  limit.
* `Expr.parseWithin_cutoff`: the limit is a cutoff, and counting brackets never decides about a text
  that stands for an expression at some limit.
-/

namespace CheckedExpr

open Scan

namespace Brackets

/-! ### Characters that do not count -/

/-- The characters that counting brackets looks at. -/
def special : List Char := ['\'', '"', '(', '[', '?', ')', ']', ':']

variable {text rest : List Char} {depth : Nat}

/-- Other characters are passed over. -/
theorem deepest_cons_of_notMem {c : Char} (h : c ∉ special) :
    deepest none depth (c :: text) = deepest none depth text := by
  simp only [special, List.mem_cons, List.not_mem_nil, not_or, or_false] at h
  rw [deepest, if_neg, if_neg, if_neg]
  · simp [isClosing, h]
  · simp [isOpening, h]
  · simp [h]
  · intro rest hmark
    exact absurd hmark h.2.2.2.2.1

theorem deepest_append_of_notMem {word : List Char} (h : ∀ c ∈ word, c ∉ special) :
    deepest none depth (word ++ rest) = deepest none depth rest := by
  induction word with
  | nil => rfl
  | cons c word ih =>
    obtain ⟨hc, hword⟩ := List.forall_mem_cons.mp h
    rw [List.cons_append, deepest_cons_of_notMem hc, ih hword]

/-- A class of characters that has none of those that count. -/
theorem notMem_special_of {p : Char → Bool} (hp : special.all (!p ·) = true) {c : Char}
    (h : p c = true) : c ∉ special := by
  intro hmem
  have hnot := List.all_eq_true.mp hp c hmem
  rw [h] at hnot
  cases hnot

/-- What is taken by its kind of character is passed over, if none of the characters that count is
of that kind. -/
theorem notMem_of_mem_takeWhile {p : Char → Bool} (hp : special.all (!p ·) = true) {c : Char}
    (h : c ∈ text.takeWhile p) : c ∉ special :=
  notMem_special_of hp (List.mem_takeWhile_imp h)

/-- Gaps are passed over. -/
theorem deepest_clear (text : List Char) :
    deepest none depth (clear text) = deepest none depth text := by
  have hsplit := List.takeWhile_append_dropWhile (p := isGap) (l := text)
  conv_rhs => rw [← hsplit]
  rw [deepest_append_of_notMem fun c hc => notMem_of_mem_takeWhile (by decide) hc]
  rfl

/-! ### Lexemes -/

/-- Names are passed over. -/
theorem deepest_of_readName {name : List Char} (h : Grammar.readName text = some (name, rest)) :
    deepest none depth text = deepest none depth rest := by
  rw [Grammar.append_of_readName h, deepest_append_of_notMem]
  cases text with
  | nil => cases h
  | cons c cs =>
    -- a first character that starts names, and the run of name characters behind it
    simp only [Grammar.readName] at h
    split at h
    · next hstart =>
      cases h
      refine List.forall_mem_cons.mpr ⟨notMem_special_of (by decide) hstart, fun d hd => ?_⟩
      exact notMem_of_mem_takeWhile (by decide) hd
    · cases h

/-- An exponent is a marker, a sign and digits, and none of them opens or closes anything. -/
theorem notMem_of_mem_exponent {e : Exponent} (h : (Exponent.read text).1 = some e) :
    ∀ c ∈ e.text, c ∉ special := by
  cases text with
  | nil => cases h
  | cons c cs =>
    unfold Exponent.read at h
    simp only at h
    split at h
    · next hexponent =>
      cases h
      -- a marker, perhaps a sign, and digits
      have hmarker : c ∉ special := by
        rcases hexponent.1 with rfl | rfl <;> decide
      have hsign : ∀ d ∈ (Exponent.readSign cs).1.toList, d ∉ special := by
        unfold Exponent.readSign
        split <;> simp [special]
      unfold Exponent.text
      rw [List.forall_mem_cons, List.forall_mem_append]
      exact ⟨hmarker, hsign, fun d hd => notMem_of_mem_takeWhile (by decide) hd⟩
    · cases h

/-- Nor do the digits and the point of a decimal numeral. -/
theorem notMem_of_mem_decimal {d : Decimal} (h : Decimal.read text = some (d, rest)) :
    ∀ c ∈ d.text, c ∉ special := by
  unfold Decimal.read at h
  simp only at h
  split at h
  · cases h
  · cases h
    unfold Decimal.text
    rw [List.forall_mem_append, List.forall_mem_append]
    -- the three parts of a numeral, of which the last two may be missing
    refine ⟨fun c hc => notMem_of_mem_takeWhile (by decide) hc, ?fraction, ?exponent⟩
    case fraction =>
      unfold Decimal.readFraction
      split
      · rw [Option.map_some, Option.getD_some, List.forall_mem_cons]
        exact ⟨by decide, fun c hc => notMem_of_mem_takeWhile (by decide) hc⟩
      · simp
    case exponent =>
      cases hexponent : (Exponent.read (Decimal.readFraction (text.dropWhile isDigit)).2).1 with
      | none => simp
      | some e => exact notMem_of_mem_exponent hexponent

/-- So are numerals. -/
theorem deepest_of_readNumeral {n : Numeral} (h : Numeral.read text = some (n, rest)) :
    deepest none depth text = deepest none depth rest := by
  rw [Numeral.append_of_read h, deepest_append_of_notMem]
  unfold Numeral.read at h
  split at h
  -- hexadecimal digits behind their marker
  · next hhex =>
    cases h
    unfold Numeral.readHex at hhex
    split at hhex
    · simp only at hhex
      split at hhex
      · next hmarker =>
        cases hhex
        have hx := hmarker.1
        unfold Numeral.text
        rw [List.forall_mem_cons, List.forall_mem_cons]
        refine ⟨by decide, by rcases hx with rfl | rfl <;> decide, fun c hc => ?_⟩
        exact notMem_of_mem_takeWhile (by decide) hc
      · cases hhex
    · cases hhex
  -- or else a decimal numeral
  · obtain ⟨⟨d, after⟩, hd, hn⟩ := Option.map_eq_some_iff.mp h
    cases hn
    exact notMem_of_mem_decimal hd

/-- Quotes mean the same to counting as to reading. -/
theorem deepest_of_readBody {quote : Char} {body : List Char}
    (h : Grammar.readBody quote text = some (body, rest)) :
    deepest (some quote) depth text = deepest none depth rest := by
  -- by the recursion of the reader, which takes two characters where there is a backslash, as the
  -- scan for brackets does
  refine Grammar.readBody_induction
    (motive := fun text _ rest => deepest (some quote) depth text = deepest none depth rest)
    ?closing ?escape ?plain h
  case closing =>
    intro hslash rest
    rw [deepest, if_pos rfl]
    exact fun _ _ h => absurd h hslash
  case escape =>
    intro c text body rest ih
    rw [deepest, ih]
  case plain =>
    intro c text body rest hslash hquote ih
    rw [deepest, if_neg hquote, ih]
    exact fun _ _ h => absurd h hslash

/-- A quoted text is passed over as a whole, with whatever stands in it. -/
theorem deepest_of_readQuoted {quote : Char} (hquote : quote = '"' ∨ quote = '\'')
    {written : Grammar.QuotedText} (h : Grammar.readQuoted quote text = some (written, rest)) :
    deepest none depth text = deepest none depth rest := by
  cases text with
  | nil => cases h
  | cons c cs =>
    simp only [Grammar.readQuoted] at h
    split at h
    · next hsame =>
      subst hsame
      obtain ⟨⟨body, after⟩, hbody, hread⟩ := Option.map_eq_some_iff.mp h
      cases hread
      -- the scan enters the quotes here, and its clause for two question marks does not apply
      rw [deepest, if_pos hquote.symm]
      · exact deepest_of_readBody hbody
      · intro _ hmark
        rcases hquote with rfl | rfl <;> cases hmark
    · cases h

/-- Of the operators, `??` has question marks, but these stand in a pair. -/
theorem deepest_spelling (op : InfixOp) :
    deepest none depth (op.spelling.toList ++ rest) = deepest none depth rest := by
  by_cases hop : op = .binary .nullish
  · subst hop
    rfl
  · refine deepest_append_of_notMem ?_
    rcases op with op | op
    · cases op
      case nullish => exact absurd rfl hop
      all_goals exact List.all_iff_forall_prop.mp (by decide)
    · cases op <;> exact List.all_iff_forall_prop.mp (by decide)

/-! ### Brackets -/

/-- An opening character takes a level. A question mark that does is not followed by a second
one. -/
theorem deepest_opening {c : Char} (hopening : isOpening c = true)
    (hsingle : c = '?' → ∀ more, text ≠ '?' :: more) :
    deepest none depth (c :: text) = deepest none (depth + 1) text := by
  rw [deepest, if_neg, if_pos hopening]
  · rintro (rfl | rfl) <;> cases hopening
  · intro more hmark hmore
    exact hsingle hmark more hmore

/-- A closing character gives back a level. -/
theorem deepest_closing {c : Char} (hclosing : isClosing c = true) :
    deepest none (depth + 1) (c :: text) = max (depth + 1) (deepest none depth text) := by
  rw [deepest, if_neg, if_neg, if_pos hclosing, Nat.add_sub_cancel]
  · -- no character does both
    intro hopening
    unfold isOpening at hopening
    unfold isClosing at hclosing
    simp only [Bool.or_eq_true, beq_iff_eq] at hopening hclosing
    rcases hopening with (rfl | rfl) | rfl <;> revert hclosing <;> decide
  · rintro (rfl | rfl) <;> cases hclosing
  · intro more hmark
    subst hmark
    cases hclosing

/-! ### Stretches of a text -/

/-- Whether, from a text to what is left of it, brackets go no deeper than a limit, if fewer than
`depth` levels were open before. -/
def Within (limit depth : Nat) (text rest : List Char) : Prop :=
  ∀ opened < depth, deepest none opened text ≤ max limit (deepest none opened rest)

variable {limit : Nat} {mid : List Char}

/-- A stretch that changes nothing goes nowhere. -/
theorem within_of_eq (h : ∀ opened, deepest none opened text = deepest none opened rest) :
    Within limit depth text rest := by
  intro opened _
  rw [h opened]
  exact Nat.le_max_right _ _

/-- Two stretches in a row. -/
theorem Within.trans (h : Within limit depth text mid) (h' : Within limit depth mid rest) :
    Within limit depth text rest := by
  intro opened hopened
  have hfirst := h opened hopened
  have hsecond := h' opened hopened
  omega

theorem Within.mono {depth' : Nat} (h : Within limit depth' text rest) (hle : depth ≤ depth') :
    Within limit depth text rest :=
  fun opened hopened => h opened (Nat.lt_of_lt_of_le hopened hle)

/-- A gap before a stretch does not matter. -/
theorem within_clear_left :
    Within limit depth (clear text) rest ↔ Within limit depth text rest := by
  unfold Within
  simp only [deepest_clear]

/-- One level of brackets: there is room for one more inside. A question mark that opens a level is
not followed by a second one. -/
theorem Within.bracketed {opening closing : Char} {behind : List Char}
    (hopening : isOpening opening = true) (hclosing : isClosing closing = true)
    (hsingle : opening = '?' → ∀ more, behind ≠ '?' :: more)
    (hinner : Within limit (depth + 1) behind mid) (hmid : clear mid = closing :: rest)
    (hlimit : depth ≤ limit) : Within limit depth (opening :: behind) rest := by
  intro opened hopened
  -- the opening character takes a level, which the closing one gives back
  have hopen : deepest none opened (opening :: behind) = deepest none (opened + 1) behind :=
    deepest_opening hopening hsingle
  have hclose : deepest none (opened + 1) mid = max (opened + 1) (deepest none opened rest) := by
    rw [← deepest_clear mid, hmid, deepest_closing hclosing]
  have hinside := hinner (opened + 1) (Nat.succ_lt_succ hopened)
  rw [hopen]
  omega

end Brackets

/-! ### Chains -/

namespace Chain

open Brackets

section Levels

variable {source : String} {limit depth : Nat} {inner : Scan ExprRule Chain}
  {text rest : List Char}

/-- Whether the chains that a scan accepts keep their brackets within the limit, as far as
expressions are made of them. -/
def KeepsBrackets (source : String) (limit : Nat) (inner : Scan ExprRule Chain) : Prop :=
  ∀ ⦃text c rest depth e⦄, inner.Accepts text c rest → c.toExpr source limit depth = .ok e →
    Within limit (depth + 1) text rest

/-- A row of items keeps within the limit if each item does. -/
theorem within_of_row {α : Type} {item : Scan ExprRule α} {as : List α}
    (hitem : ∀ a ∈ as, ∀ text rest, item.Accepts text a rest → Within limit depth text rest)
    (h : Row item as text rest) : Within limit depth text rest := by
  induction h with
  | nil => exact within_of_eq fun _ => rfl
  | cons first more ih =>
    obtain ⟨ha, has⟩ := List.forall_mem_cons.mp hitem
    exact (within_clear_left.mp (ha _ _ first)).trans (ih has)

theorem within_of_many {α : Type} {item : Scan ExprRule α} {as : List α}
    (hitem : ∀ a ∈ as, ∀ text rest, item.Accepts text a rest → Within limit depth text rest)
    (h : (many item).Accepts text as rest) : Within limit depth text rest := by
  rcases h.of_many with ⟨-, rfl⟩ | ⟨a, more, mid, rfl, hfirst, hrow, -⟩
  · exact within_of_eq fun _ => rfl
  · obtain ⟨ha, has⟩ := List.forall_mem_cons.mp hitem
    exact (ha _ _ hfirst).trans (within_of_row has hrow)

/-- Commas between chains open nothing. -/
theorem within_of_commaSeparated {cs : List Chain}
    (hcs : ∀ c ∈ cs, ∀ text rest, inner.Accepts text c rest → Within limit depth text rest)
    (h : (commaSeparated inner).Accepts text cs rest) : Within limit depth text rest := by
  rcases h.of_commaSeparated with ⟨-, rfl⟩ | ⟨c, more, mid, rfl, hfirst, hmore⟩
  · exact within_of_eq fun _ => rfl
  obtain ⟨hc, hcs⟩ := List.forall_mem_cons.mp hcs
  -- the commas count for nothing, so each further chain does what the first one does
  have hrow : Within limit depth (clear mid) rest := by
    refine within_of_many (fun c' hc' text rest h => ?_) hmore
    obtain ⟨behind, rfl, hitem⟩ := h.of_afterComma
    have hbehind : Within limit depth behind rest :=
      within_clear_left.mp (hcs c' hc' _ _ hitem)
    have hcomma : Within limit depth (',' :: behind) behind :=
      within_of_eq fun _ => deepest_cons_of_notMem (by decide)
    exact hcomma.trans hbehind
  exact (hc _ _ hfirst).trans (within_clear_left.mp hrow)

/-- Chains between brackets may open one level less than the brackets themselves. -/
theorem within_of_scanList {opening closing : Char} {cs : List Chain}
    (hinner : KeepsBrackets source limit inner) (hopening : isOpening opening = true)
    (hclosing : isClosing closing = true) (hmark : opening ≠ '?')
    (hmade : ∀ c ∈ cs, ∃ e, c.toExpr source limit depth = .ok e) (hlimit : depth ≤ limit)
    (h : (scanList opening closing inner).Accepts text cs rest) :
    Within limit depth text rest := by
  obtain ⟨behind, mid, rfl, hchains, hmid⟩ := accepts_scanList h
  refine Within.bracketed hopening hclosing (absurd · hmark) (within_clear_left.mp ?_) hmid hlimit
  refine within_of_commaSeparated (fun c hc text rest h => ?_) hchains
  obtain ⟨e, he⟩ := hmade c hc
  exact hinner h he

/-- And so may a single chain, also the middle of a choice. -/
theorem within_of_scanEnclosed {opening closing : Char} {c : Chain} {e : Expr}
    (hinner : KeepsBrackets source limit inner) (hopening : isOpening opening = true)
    (hclosing : isClosing closing = true)
    (hsingle : opening = '?' → ∀ more, text ≠ '?' :: '?' :: more)
    (hmade : c.toExpr source limit depth = .ok e) (hlimit : depth ≤ limit)
    (h : (scanEnclosed opening closing inner).Accepts text c rest) :
    Within limit depth text rest := by
  obtain ⟨behind, mid, rfl, hchain, hmid⟩ := accepts_scanEnclosed h
  refine Within.bracketed hopening hclosing ?_ (within_clear_left.mp (hinner hchain hmade)) hmid
    hlimit
  -- an opening question mark is a bracket only if it stands alone
  rintro rfl more rfl
  exact hsingle rfl more rfl

/-- A joint opens a level only if it is a choice. -/
theorem within_of_joint {joint : Joint Chain} (hinner : KeepsBrackets source limit inner)
    (hmade : ∀ middle, joint = .choice middle → ∃ m, middle.toExpr source limit depth = .ok m)
    (hlimit : depth ≤ limit) (h : JointText inner text joint rest) :
    Within limit depth text rest := by
  cases h with
  | operator _ _ hop =>
    rw [append_of_readSpelling hop]
    exact within_of_eq fun _ => deepest_spelling _
  | choice hnullish hmiddle =>
    obtain ⟨m, hm⟩ := hmade _ rfl
    refine within_of_scanEnclosed hinner rfl rfl ?_ hm hlimit hmiddle
    -- two question marks would have been read as an operator
    rintro - more rfl
    cases hnullish

/-- A suffix opens a level if it has brackets. -/
theorem within_of_suffix {s : Suffix} {x : Except ParseError Expr} {e : Expr}
    (hinner : KeepsBrackets source limit inner)
    (hmade : s.toExpr source limit depth x = .ok e) (hlimit : depth ≤ limit)
    (h : SuffixText inner text s rest) : Within limit depth text rest := by
  cases h with
  | call harguments =>
    -- what is between the brackets of a call or an index lies one level deeper
    obtain ⟨es, hes, -⟩ := Suffix.toExpr_call_eq_ok_iff.mp hmade
    exact within_of_scanList hinner rfl rfl (by decide) (exists_of_forall₂ hes) hlimit harguments
  | index hkey =>
    obtain ⟨k, hk, -⟩ := Suffix.toExpr_index_eq_ok_iff.mp hmade
    exact within_of_scanEnclosed hinner rfl rfl (fun hmark => by cases hmark) hk hlimit hkey
  | @field behind rest name hname =>
    refine within_of_eq fun opened => ?_
    calc deepest none opened ('.' :: behind)
        = deepest none opened (clear behind) := by
          rw [deepest_cons_of_notMem (by decide), deepest_clear]
      _ = deepest none opened rest := deepest_of_readName hname

/-- A term opens a level if it has brackets: those in a quoted text do not count. -/
theorem within_of_term {term : Term} {e : Expr} (hinner : KeepsBrackets source limit inner)
    (hmade : term.toExpr source limit depth = .ok e) (hlimit : depth ≤ limit)
    (h : TermText inner text term rest) : Within limit depth text rest := by
  cases h with
  | number hn => exact within_of_eq fun _ => deepest_of_readNumeral hn
  | text hquote hwritten => exact within_of_eq fun _ => deepest_of_readQuoted hquote hwritten
  | word hword hread =>
    have hplain : ∀ pair ∈ wordTerms, ∀ c ∈ pair.1.toList, c ∉ special :=
      forall_mem_wordTerms (by decide)
    -- the four words are letters
    rw [Grammar.append_of_readWord hread]
    exact within_of_eq fun _ => deepest_append_of_notMem (hplain _ hword)
  | array helements =>
    -- arrays and groups open a bracket, and their elements lie one level deeper
    obtain ⟨es, hes, -⟩ := Term.toExpr_array_eq_ok_iff.mp hmade
    exact within_of_scanList hinner rfl rfl (by decide) (exists_of_forall₂ hes) hlimit helements
  | group hc =>
    exact within_of_scanEnclosed hinner rfl rfl (fun hmark => by cases hmark) hmade hlimit hc
  | name hname =>
    have hread := (Option.filter_eq_some_iff.mp hname).1
    exact within_of_eq fun _ => deepest_of_readName hread

/-- An operand keeps within the limit as its signs, its term and its suffixes do. -/
theorem within_of_scanOperand {operand : Operand} {e : Expr}
    (hinner : KeepsBrackets source limit inner)
    (hmade : operand.toExpr source limit depth = .ok e) (hlimit : depth ≤ limit)
    (h : (scanOperand inner).Accepts text operand rest) : Within limit depth text rest := by
  obtain ⟨signs, term, suffixes, mid, behind, rfl, hsigns, hterm, hsuffixes⟩ :=
    accepts_scanOperand h
  obtain ⟨a, ha, -⟩ := Operand.toExpr_mk_eq_ok_iff.mp hmade
  obtain ⟨t, ht⟩ := exists_of_suffixesToExpr_eq_ok ha
  -- the three stretches of an operand, each up to what the next one begins with
  have hsignsWithin : Within limit depth text mid := by
    refine within_of_many (fun op _ text rest h => ?_) hsigns
    rw [accepts_scanSign h]
    refine within_of_eq fun _ => deepest_append_of_notMem ?_
    cases op <;> exact List.all_iff_forall_prop.mp (by decide)
  have htermWithin : Within limit depth mid behind :=
    within_clear_left.mp (within_of_term hinner ht hlimit hterm)
  have hsuffixesWithin : Within limit depth behind rest := by
    refine within_clear_left.mp (within_of_many (fun s hs text rest h => ?_) hsuffixes)
    obtain ⟨x, b, hb⟩ := Suffix.exists_of_suffixesToExpr_eq_ok ha s hs
    exact within_of_suffix hinner hb hlimit (accepts_scanSuffix h)
  exact hsignsWithin.trans (htermWithin.trans hsuffixesWithin)

/-- A chain takes a level at least, so what its parts may open fits around it too. -/
theorem keepsBrackets_scanChain (hinner : KeepsBrackets source limit inner) :
    KeepsBrackets source limit (scanChain inner) := by
  intro text c rest depth e h hmade
  obtain ⟨offset, first, links, mid, rfl, hfirst, hlinks⟩ := accepts_scanChain h
  obtain ⟨hlimit, hfold⟩ := toExpr_mk_eq_ok_iff.mp hmade
  obtain ⟨hmiddles, hoperands⟩ := Grouping.exists_of_fold_eq_ok hfold
  rw [Grouping.joints_ofLinks, List.forall_mem_map] at hmiddles
  rw [Grouping.operands_ofLinks, List.forall_mem_cons, List.forall_mem_map] at hoperands
  have hlevels : depth + 1 ≤ depth + levels first links := by
    rw [levels]
    omega
  -- each part of the chain keeps its brackets below the levels of the chain
  obtain ⟨a, ha⟩ := hoperands.1
  have hfirstWithin : Within limit (depth + levels first links) text mid :=
    within_of_scanOperand hinner ha hlimit hfirst
  have hlinksWithin : Within limit (depth + levels first links) mid rest := by
    refine within_clear_left.mp (within_of_many (fun link hlink text rest h => ?_) hlinks)
    obtain ⟨between, hjoint, hoperand⟩ := accepts_scanLink h
    obtain ⟨b, hb⟩ := hoperands.2 link hlink
    have hjointWithin := within_of_joint hinner (hmiddles link hlink) hlimit hjoint
    have hoperandWithin :=
      within_clear_left.mp (within_of_scanOperand hinner hb hlimit hoperand)
    exact hjointWithin.trans hoperandWithin
  exact (hfirstWithin.trans hlinksWithin).mono hlevels

/-- **At every depth, chains keep their brackets within the limit.** -/
theorem keepsBrackets_scanNested (nesting : Nat) :
    KeepsBrackets source limit (scanNested nesting) := by
  induction nesting with
  | zero =>
    intro text c rest depth e h _
    exact h.of_refuse.elim
  | succ nesting ih => exact keepsBrackets_scanChain ih

end Levels

/-- **A text keeps its brackets within the limit** if it is read and expressions are made of its
chains. -/
theorem deepest_le_of_chainsToExpr {source : String} {limit : Nat} {chains : List Chain}
    {es : List Expr} (h : ofText source = .ok chains)
    (hmade : chainsToExpr source limit 0 chains = .ok es) :
    deepest none 0 source.toList ≤ limit := by
  obtain ⟨mid, hchains, hmid⟩ := accepts_of_ofText h
  -- from the beginning to the end of the text no level is left open
  have hall : ∀ c ∈ chains, ∃ e, c.toExpr source limit 0 = .ok e :=
    exists_of_forall₂ (chainsToExpr_eq_ok_iff.mp hmade)
  have hwithin : Within limit 1 source.toList mid := by
    refine within_clear_left.mp (within_of_commaSeparated (fun c hc text rest h => ?_) hchains)
    obtain ⟨e, he⟩ := hall c hc
    exact keepsBrackets_scanNested _ h he
  have hend : deepest none 0 mid = 0 := by
    rw [← deepest_clear, hmid]
    rfl
  have hopened := hwithin 0 Nat.one_pos
  rw [hend, Nat.max_zero] at hopened
  exact hopened

end Chain

/-! ### Texts -/

namespace Expr

/-- A text that stands for an expression at some limit and has too many brackets for another one is
read, and what is made of its chains at the other limit is too deep as well. -/
theorem isTooDeep_of_firstExcess? {source : String} {within limit offset : Nat} {e : Expr}
    (h : parseWithin within source = .ok e)
    (hexcess : Brackets.firstExcess? limit source.toList = some offset) :
    ∃ chains, Chain.ofText source = .ok chains ∧
      ∃ err, chainsToExpr source limit 0 chains = .error err ∧ err.IsTooDeep := by
  obtain ⟨-, chains, hread, es, hes, -⟩ := parseWithin_eq_ok_iff.mp h
  have hcutoff : Cutoff fun limit => chainsToExpr source limit 0 chains :=
    cutoff_chainsToExpr fun c _ => c.cutoff_toExpr
  refine ⟨chains, hread, ?_⟩
  -- at the other limit there is the same expression, or an error of nesting
  rcases hcutoff.eq_ok_or_isTooDeep (chainsToExpr_eq_ok_iff.mpr hes) limit with hmade | hdeep
  · -- were the chains to pass, the brackets would have passed before
    have hpass :=
      Brackets.firstExcess?_eq_none_iff.mpr (Chain.deepest_le_of_chainsToExpr hread hmade)
    rw [hexcess] at hpass
    cases hpass
  · exact hdeep

/-- **The limit on nesting is a cutoff.** For every text there is a threshold: below it parsing ends
for want of levels, and from it on there is one result, an expression or an error about the text.
On a text that stands for an expression, counting brackets is never what decides: a limit that is
too low for the brackets is too low for what is made of the chains. -/
theorem parseWithin_cutoff (source : String) :
    (∃ threshold,
      (∀ limit < threshold, ∃ err, parseWithin limit source = .error err ∧
        err.toFailure.kind = .resourceExceeded) ∧
      ((∃ e, ∀ limit ≥ threshold, parseWithin limit source = .ok e) ∨
        ∃ err, err.toFailure.kind = .syntaxError ∧
          ∀ limit ≥ threshold, parseWithin limit source = .error err)) ∧
    ∀ within e, parseWithin within source = .ok e → ∀ limit offset,
      Brackets.firstExcess? limit source.toList = some offset →
        ∃ chains, Chain.ofText source = .ok chains ∧
          ∃ err, chainsToExpr source limit 0 chains = .error err ∧
            err.toFailure.kind = .resourceExceeded := by
  refine ⟨?threshold, ?brackets⟩
  case threshold =>
    obtain ⟨threshold, hbelow, result, hresult, habove⟩ := cutoff_parseWithin source
    refine ⟨threshold, hbelow, ?_⟩
    -- the result from the threshold on is one of the two that are told apart in the statement
    cases result with
    | ok e => exact Or.inl ⟨e, habove⟩
    | error err => exact Or.inr ⟨err, ParseError.kind_of_not_isTooDeep (hresult err rfl), habove⟩
  case brackets =>
    intro within e h limit offset hexcess
    exact isTooDeep_of_firstExcess? h hexcess

/-- Two arrays, one in the other: they are three levels, but their brackets only two. -/
theorem parseWithin_cutoff_arrays :
    ∃ e, parseWithin 3 "[[1]]" = .ok e ∧
      Brackets.firstExcess? 1 "[[1]]".toList = some 1 ∧
        ∃ chains, Chain.ofText "[[1]]" = .ok chains ∧
          ∃ err, chainsToExpr "[[1]]" 1 0 chains = .error err ∧
            err.toFailure.kind = .resourceExceeded := by
  have hparsed : (match parseWithin 3 "[[1]]" with
      | .ok _ => true
      | .error _ => false) = true := by
    decide +kernel
  have hexcess : Brackets.firstExcess? 1 "[[1]]".toList = some 1 := by decide
  -- three levels are enough for this text and one is not
  cases h : parseWithin 3 "[[1]]" with
  | error err =>
    rw [h] at hparsed
    cases hparsed
  | ok e => exact ⟨e, rfl, hexcess, (parseWithin_cutoff "[[1]]").2 3 e h 1 1 hexcess⟩

end Expr

end CheckedExpr
