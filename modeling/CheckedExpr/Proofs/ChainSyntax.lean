import CheckedExpr.Chain.Reading
import CheckedExpr.Proofs.Accepting
import Mathlib.Data.Bool.AllAny
import Mathlib.Data.Option.Basic

/-!
# What a chain is written as

For each rule of the grammar of expressions, how the text that it has accepted is put together from
texts that its parts have accepted. The rules take the scan of the chains inside them as a
parameter, so that a fact about all levels of chains is proved for one level from the same fact
about the levels below.

* `Chain.accepts_scanEnclosed`, `Chain.accepts_scanList`: what stands between brackets.
* `Chain.JointText`, `Chain.SuffixText`, `Chain.TermText`: the alternatives of the other rules.
* `Chain.accepts_of_ofText`: a text that is read is one row of chains, and nothing else.
-/

namespace CheckedExpr

open Scan

/-! ### Rows of steps are lawful -/

instance {ρ : Type} : LawfulMonad (Scan ρ) :=
  LawfulMonad.mk' (Scan ρ)
    (fun scan => by
      funext cursor attempts
      change (scan >>= pure) cursor attempts = _
      rw [run_bind]
      split <;> simp_all [run_pure])
    (fun _ _ => rfl)
    (fun first second third => by
      funext cursor attempts
      simp only [run_bind]
      rcases first cursor attempts with ⟨_ | _, _⟩ <;> rfl)

namespace Chain

variable {inner : Scan ExprRule Chain} {text rest : List Char}

/-! ### Brackets -/

/-- **What was read in brackets** stands between them, with gaps at either end. -/
theorem accepts_scanEnclosed {opening closing : Char} {c : Chain}
    (h : (scanEnclosed opening closing inner).Accepts text c rest) :
    ∃ behind mid, text = opening :: behind ∧ inner.Accepts (clear behind) c mid ∧
      clear mid = closing :: rest := by
  -- the steps are taken apart in their order; each gap tells where the next step began
  obtain ⟨_, behind, hopening, h⟩ := Accepts.of_bind h
  obtain ⟨_, _, hgap, h⟩ := h.of_bind
  obtain ⟨c', mid, hinner, h⟩ := h.of_bind
  obtain ⟨_, _, hgap', h⟩ := h.of_bind
  obtain ⟨_, _, hclosing, h⟩ := h.of_bind
  obtain ⟨rfl, rfl⟩ := h.of_pure
  rw [hgap.of_gap] at hinner
  rw [hgap'.of_gap] at hclosing
  exact ⟨behind, mid, hopening.of_exactly, hinner, hclosing.of_exactly⟩

/-- A list stands between its brackets in the same way. -/
theorem accepts_scanList {opening closing : Char} {cs : List Chain}
    (h : (scanList opening closing inner).Accepts text cs rest) :
    ∃ behind mid, text = opening :: behind ∧
      (commaSeparated inner).Accepts (clear behind) cs mid ∧ clear mid = closing :: rest := by
  obtain ⟨_, behind, hopening, h⟩ := Accepts.of_bind h
  obtain ⟨_, _, hgap, h⟩ := h.of_bind
  obtain ⟨cs', mid, hinner, h⟩ := h.of_bind
  obtain ⟨_, _, hgap', h⟩ := h.of_bind
  obtain ⟨_, _, hclosing, h⟩ := h.of_bind
  obtain ⟨rfl, rfl⟩ := h.of_pure
  rw [hgap.of_gap] at hinner
  rw [hgap'.of_gap] at hclosing
  exact ⟨behind, mid, hopening.of_exactly, hinner, hclosing.of_exactly⟩

/-- The middle of a choice stands between a question mark and a colon as in brackets. -/
theorem scanJoint_eq (inner : Scan ExprRule Chain) :
    scanJoint inner = firstOf ((Joint.operator <$> scanOperator (.binary .nullish)) ::
      rule .choice (Joint.choice <$> scanEnclosed '?' ':' inner) ::
      operatorOrder.map fun op => Joint.operator <$> scanOperator op) := by
  unfold scanJoint scanEnclosed
  simp only [map_bind, map_pure]

/-! ### Joints -/

/-- Reads the spelling of an operator. The one that is a word ends where a word ends. -/
def readSpelling (op : InfixOp) (text : List Char) : Option (List Char) :=
  if op = .binary .isIn then Grammar.readWord op.spelling.toList text
  else op.spelling.toList.isPrefixOf? text

/-- Of the operators in the order in which they are tried, none is the beginning of a later one. -/
theorem pairwise_operators : (InfixOp.binary .nullish :: operatorOrder).Pairwise fun earlier later =>
    earlier.spelling.toList.isPrefixOf? later.spelling.toList = none := by
  unfold operatorOrder
  decide

/-- Both ways to read an operator are one token, which differs in the reader alone. -/
theorem scanOperator_eq (op : InfixOp) :
    scanOperator op = token (.operator op) (fun text => (readSpelling op text).map (op, ·))
      fun _ => op.spelling.toList := by
  unfold scanOperator readSpelling
  rcases op with op | op <;> cases op <;> rfl

/-- A spelling that was read stands at the front of the text. -/
theorem append_of_readSpelling {op : InfixOp} (h : readSpelling op text = some rest) :
    text = op.spelling.toList ++ rest := by
  unfold readSpelling at h
  split at h
  · exact Grammar.append_of_readWord h
  · exact Grammar.append_of_isPrefixOf? h

/-- An operator that was read is the one that was looked for. -/
theorem accepts_scanOperator {op op' : InfixOp} (h : (scanOperator op).Accepts text op' rest) :
    op' = op ∧ readSpelling op text = some rest := by
  rw [scanOperator_eq] at h
  have hread := h.of_token
  simp only [Option.map_eq_some_iff, Prod.mk.injEq] at hread
  obtain ⟨_, hread, rfl, rfl⟩ := hread
  exact ⟨rfl, hread⟩

/-- An operator that was declined is not spelled there. -/
theorem declines_scanOperator {op : InfixOp} (h : (scanOperator op).Declines text) :
    readSpelling op text = none := by
  rw [scanOperator_eq] at h
  exact Option.map_eq_none_iff.mp h.of_token

/-- A text at whose front a joint stands: one of the operators, of which none that is tried earlier
stands there, or the middle of a choice. -/
inductive JointText (inner : Scan ExprRule Chain) : List Char → Joint Chain → List Char → Prop
  | operator {text rest : List Char} {op : InfixOp} {before after : List InfixOp}
      (horder : .binary .nullish :: operatorOrder = before ++ op :: after)
      (hbefore : ∀ other ∈ before, readSpelling other text = none)
      (h : readSpelling op text = some rest) : JointText inner text (.operator op) rest
  | choice {text rest : List Char} {middle : Chain}
      (hnullish : readSpelling (.binary .nullish) text = none)
      (h : (scanEnclosed '?' ':' inner).Accepts text middle rest) :
      JointText inner text (.choice middle) rest

/-- **A joint that was read** is one of its alternatives, and those before it were declined. -/
theorem accepts_scanJoint {joint : Joint Chain} (h : (scanJoint inner).Accepts text joint rest) :
    JointText inner text joint rest := by
  rw [scanJoint_eq] at h
  rcases Accepts.of_orElse h with hnullish | ⟨hnullish, h⟩
  · obtain ⟨op, hop, rfl⟩ := hnullish.of_map
    obtain ⟨rfl, hread⟩ := accepts_scanOperator hop
    exact .operator rfl (fun _ hother => absurd hother List.not_mem_nil) hread
  rcases Accepts.of_orElse h with hchoice | ⟨-, h⟩
  · obtain ⟨middle, hmiddle, rfl⟩ := hchoice.of_rule.of_map
    exact .choice (declines_scanOperator hnullish.of_map) hmiddle
  -- some operator of the order was read, and the choices before it are the operators before it
  · obtain ⟨before, choice, after, horder, hbefore, hchoice⟩ := Accepts.of_firstOf h
    obtain ⟨before, behind, hsplit, rfl, hbehind⟩ := List.map_eq_append_iff.mp horder
    obtain ⟨op, after, rfl, rfl, rfl⟩ := List.map_eq_cons_iff.mp hbehind
    obtain ⟨op', hop, rfl⟩ := hchoice.of_map
    obtain ⟨rfl, hread⟩ := accepts_scanOperator hop
    rw [List.forall_mem_map] at hbefore
    refine .operator (congrArg _ hsplit) (List.forall_mem_cons.mpr
      ⟨declines_scanOperator hnullish.of_map, fun other hother => ?_⟩) hread
    exact declines_scanOperator (hbefore other hother).of_map

/-! ### Suffixes -/

/-- A text at whose front a suffix stands. -/
inductive SuffixText (inner : Scan ExprRule Chain) : List Char → Suffix → List Char → Prop
  | call {text rest : List Char} {arguments : List Chain}
      (h : (scanList '(' ')' inner).Accepts text arguments rest) :
      SuffixText inner text (.call arguments) rest
  | index {text rest : List Char} {key : Chain}
      (h : (scanEnclosed '[' ']' inner).Accepts text key rest) :
      SuffixText inner text (.index key) rest
  | field {behind rest name : List Char}
      (h : Grammar.readName (clear behind) = some (name, rest)) :
      SuffixText inner ('.' :: behind) (.field name) rest

/-- A suffix that was read is one of its three alternatives. -/
theorem accepts_scanSuffix {s : Suffix} (h : (scanSuffix inner).Accepts text s rest) :
    SuffixText inner text s rest := by
  -- in the order of the alternatives
  rcases Accepts.of_orElse h with hcall | ⟨-, h⟩
  · obtain ⟨arguments, harguments, rfl⟩ := hcall.of_rule.of_map
    exact .call harguments
  rcases Accepts.of_orElse h with hindex | ⟨-, h⟩
  · obtain ⟨key, hkey, rfl⟩ := hindex.of_rule.of_map
    exact .index hkey
  rcases Accepts.of_orElse h with hfield | ⟨-, h⟩
  · obtain ⟨_, behind, hpoint, h⟩ := hfield.of_rule.of_bind
    obtain ⟨_, _, hgap, h⟩ := h.of_bind
    obtain ⟨name, mid, hname, h⟩ := h.of_bind
    obtain ⟨rfl, rfl⟩ := h.of_pure
    rw [hgap.of_gap] at hname
    rw [hpoint.of_exactly]
    exact .field hname.of_token
  · exact h.of_refuse.elim

/-! ### Terms -/

/-- The terms that are words, by their words. -/
def wordTerms : List (String × Term) :=
  [("true", .boolean true), ("false", .boolean false), ("null", .null), ("this", .this)]

/-- What can be tested on the letters of all words holds of each. -/
theorem forall_mem_wordTerms {p : Char → Prop} [DecidablePred p]
    (h : (wordTerms.all fun pair => pair.1.toList.all (p ·)) = true) :
    ∀ pair ∈ wordTerms, ∀ c ∈ pair.1.toList, p c :=
  fun pair hpair => List.all_iff_forall_prop.mp (List.all_eq_true.mp h pair hpair)

/-- A text at whose front a term stands. -/
inductive TermText (inner : Scan ExprRule Chain) : List Char → Term → List Char → Prop
  | number {text rest : List Char} {n : Numeral} (h : Numeral.read text = some (n, rest)) :
      TermText inner text (.number n) rest
  | text {text rest : List Char} {offset : Nat} {quote : Char} {written : Grammar.QuotedText}
      (hquote : quote = '"' ∨ quote = '\'')
      (h : Grammar.readQuoted quote text = some (written, rest)) :
      TermText inner text (.text offset written) rest
  | word {text rest : List Char} {word : String} {term : Term} (hword : (word, term) ∈ wordTerms)
      (h : Grammar.readWord word.toList text = some rest) : TermText inner text term rest
  | array {text rest : List Char} {elements : List Chain}
      (h : (scanList '[' ']' inner).Accepts text elements rest) :
      TermText inner text (.array elements) rest
  | group {text rest : List Char} {c : Chain}
      (h : (scanEnclosed '(' ')' inner).Accepts text c rest) : TermText inner text (.group c) rest
  | name {text rest name : List Char} (h : readIdentifier text = some (name, rest)) :
      TermText inner text (.name name) rest

/-- A text that was read stands in one of the two quotes. -/
theorem accepts_scanText {term : Term} (h : scanText.Accepts text term rest) :
    ∃ offset quote written, term = .text offset written ∧ (quote = '"' ∨ quote = '\'') ∧
      Grammar.readQuoted quote text = some (written, rest) := by
  obtain ⟨offset, _, hplace, h⟩ := Accepts.of_bind h
  obtain ⟨written, _, htoken, h⟩ := h.of_bind
  obtain ⟨rfl, rfl⟩ := h.of_pure
  rw [hplace.of_place] at htoken
  rcases (Option.orElse_eq_some _ _ _).mp htoken.of_token with hread | ⟨-, hread⟩
  · exact ⟨offset, '"', written, rfl, Or.inl rfl, hread⟩
  · exact ⟨offset, '\'', written, rfl, Or.inr rfl, hread⟩

/-- A word that was read stands there as a whole word. -/
theorem accepts_scanKeyword {r : ExprRule} {word : String} {term term' : Term}
    (h : (scanKeyword r word term).Accepts text term' rest) :
    term' = term ∧ Grammar.readWord word.toList text = some rest := by
  have hread := Accepts.of_token h
  simp only [Option.map_eq_some_iff, Prod.mk.injEq] at hread
  obtain ⟨_, hread, rfl, rfl⟩ := hread
  exact ⟨rfl, hread⟩

/-- **A term that was read** is one of its alternatives. -/
theorem accepts_scanTerm {term : Term} (h : (scanTerm inner).Accepts text term rest) :
    TermText inner text term rest := by
  -- in the order of the alternatives, each of which is tried where the ones before it decline
  rcases Accepts.of_orElse h with hnumber | ⟨-, h⟩
  · obtain ⟨n, hn, rfl⟩ := hnumber.of_map
    exact .number hn.of_token
  rcases Accepts.of_orElse h with htext | ⟨-, h⟩
  · obtain ⟨offset, quote, written, rfl, hquote, hread⟩ := accepts_scanText htext
    exact .text hquote hread
  rcases Accepts.of_orElse h with htrue | ⟨-, h⟩
  · obtain ⟨rfl, hread⟩ := accepts_scanKeyword htrue
    exact .word (by simp [wordTerms]) hread
  rcases Accepts.of_orElse h with hfalse | ⟨-, h⟩
  · obtain ⟨rfl, hread⟩ := accepts_scanKeyword hfalse
    exact .word (by simp [wordTerms]) hread
  rcases Accepts.of_orElse h with hnull | ⟨-, h⟩
  · obtain ⟨rfl, hread⟩ := accepts_scanKeyword hnull
    exact .word (by simp [wordTerms]) hread
  rcases Accepts.of_orElse h with hthis | ⟨-, h⟩
  · obtain ⟨rfl, hread⟩ := accepts_scanKeyword hthis
    exact .word (by simp [wordTerms]) hread
  rcases Accepts.of_orElse h with harray | ⟨-, h⟩
  · obtain ⟨elements, helements, rfl⟩ := harray.of_rule.of_map
    exact .array helements
  rcases Accepts.of_orElse h with hgroup | ⟨-, h⟩
  · obtain ⟨c, hc, rfl⟩ := hgroup.of_rule.of_map
    exact .group hc
  rcases Accepts.of_orElse h with hname | ⟨-, h⟩
  · obtain ⟨name, hread, rfl⟩ := hname.of_map
    exact .name hread.of_token
  · exact h.of_refuse.elim

/-! ### Operands and chains -/

/-- A sign that was read is spelled at the front. -/
theorem accepts_scanSign {op : UnaryOp} (h : scanSign.Accepts text op rest) :
    text = op.spelling.toList ++ rest := by
  -- the signs are a row of choices, so the one that was made belongs to one of the signs
  obtain ⟨before, choice, after, horder, -, hchoice⟩ := Accepts.of_firstOf h
  obtain ⟨_, _, -, -, hbehind⟩ := List.map_eq_append_iff.mp horder
  obtain ⟨op', _, -, rfl, -⟩ := List.map_eq_cons_iff.mp hbehind
  obtain ⟨_, _, hsign, h⟩ := hchoice.of_bind
  obtain ⟨rfl, rfl⟩ := h.of_pure
  exact hsign.of_rule.of_exactly

/-- An operand that was read is signs, a term and suffixes, with gaps between them. -/
theorem accepts_scanOperand {operand : Operand}
    (h : (scanOperand inner).Accepts text operand rest) :
    ∃ signs term suffixes mid behind, operand = .mk signs term suffixes ∧
      (many scanSign).Accepts text signs mid ∧ TermText inner (clear mid) term behind ∧
        (many (scanSuffix inner)).Accepts (clear behind) suffixes rest := by
  obtain ⟨signs, mid, hsigns, h⟩ := Accepts.of_bind h
  obtain ⟨_, _, hgap, h⟩ := h.of_bind
  obtain ⟨term, behind, hterm, h⟩ := h.of_bind
  obtain ⟨_, _, hgap', h⟩ := h.of_bind
  obtain ⟨suffixes, _, hsuffixes, h⟩ := h.of_bind
  obtain ⟨rfl, rfl⟩ := h.of_pure
  rw [hgap.of_gap] at hterm
  rw [hgap'.of_gap] at hsuffixes
  exact ⟨signs, term, suffixes, mid, behind, rfl, hsigns, accepts_scanTerm hterm, hsuffixes⟩

/-- A link that was read is a joint and an operand with a gap between them. -/
theorem accepts_scanLink {link : Joint Chain × Operand}
    (h : (scanLink inner).Accepts text link rest) :
    ∃ mid, JointText inner text link.1 mid ∧
      (scanOperand inner).Accepts (clear mid) link.2 rest := by
  obtain ⟨joint, mid, hjoint, h⟩ := Accepts.of_bind h
  obtain ⟨_, _, hgap, h⟩ := h.of_bind
  obtain ⟨operand, _, hoperand, h⟩ := h.of_bind
  obtain ⟨rfl, rfl⟩ := h.of_pure
  rw [hgap.of_gap] at hoperand
  exact ⟨mid, accepts_scanJoint hjoint, hoperand⟩

/-- A chain that was read is an operand and links behind a gap. -/
theorem accepts_scanChain {c : Chain} (h : (scanChain inner).Accepts text c rest) :
    ∃ offset first links mid, c = .mk offset first links ∧
      (scanOperand inner).Accepts text first mid ∧
        (many (scanLink inner)).Accepts (clear mid) links rest := by
  obtain ⟨offset, _, hplace, h⟩ := (Accepts.of_rule h).of_bind
  obtain ⟨first, mid, hfirst, h⟩ := h.of_bind
  obtain ⟨_, _, hgap, h⟩ := h.of_bind
  obtain ⟨links, _, hlinks, h⟩ := h.of_bind
  obtain ⟨rfl, rfl⟩ := h.of_pure
  rw [hplace.of_place] at hfirst
  rw [hgap.of_gap] at hlinks
  exact ⟨offset, first, links, mid, rfl, hfirst, hlinks⟩

/-! ### Texts -/

/-- A text that is read is chains with commas between them, with gaps at either end. -/
theorem accepts_of_ofText {source : String} {chains : List Chain}
    (h : ofText source = .ok chains) :
    ∃ mid, (commaSeparated (scanNested (source.toList.length + 1))).Accepts
      (clear source.toList) chains mid ∧ clear mid = [] := by
  unfold ofText at h
  split at h
  · next hrun =>
    cases h
    obtain ⟨rest, hscript⟩ := accepts_of_run hrun
    -- a gap, the chains, another gap, and the end of the text
    obtain ⟨_, _, hgap, h⟩ := hscript.of_rule.of_bind
    obtain ⟨chains, mid, hchains, h⟩ := h.of_bind
    obtain ⟨_, _, hgap', h⟩ := h.of_bind
    obtain ⟨_, _, hfinish, h⟩ := h.of_bind
    obtain ⟨rfl, -⟩ := h.of_pure
    rw [hgap.of_gap] at hchains
    rw [hgap'.of_gap] at hfinish
    exact ⟨mid, hchains, hfinish.of_finish⟩
  · cases h

end Chain

end CheckedExpr
