import CheckedExpr.Proofs.ChainReading
import CheckedExpr.Proofs.Passing

/-!
# Chains in front of further text

A chain that is read from a whole text is read in the same way if the text is a part of another
one, provided that it stands where a chain may end: before a closing bracket, a comma, a colon or
the end, with any gap between. That does not hold of every text that a rule has accepted. `a` is
read from `a ? b`, but before a colon more is read. So the facts here have a condition on what the
rule has left: for a chain, that it is followed by something that may follow chains. Rules in a
row provide for it, since what the next rule has accepted begins with one of its own characters.

* `Scan.Extends`: a text with something added behind it, up to the gap in between.
* `Scan.Carries`: what one scan has accepted, another one reads from the extended text.
* `Chain.readsOn_scanNested`: the chains of some levels are read by a scan of as many levels or more.
-/

namespace CheckedExpr

namespace Scan

/-! ### Extended texts -/

/-- Whether a text is another one with something behind it that, up to a gap, is `next`. -/
def Extends (next text text' : List Char) : Prop :=
  ∃ added, text' = text ++ added ∧ clear added = next

/-- Whether what stands behind a gap has a property, if anything stands there. -/
def Before (p : Char → Prop) (text : List Char) : Prop := ∀ c ∈ (clear text).head?, p c

variable {next text text' : List Char}

/-- Behind the gap stands what it did, or the added text if there was nothing else. -/
theorem clear_append (text added : List Char) :
    clear (text ++ added) = if clear text = [] then clear added else clear text ++ added := by
  unfold clear
  rw [List.dropWhile_append]
  simp only [List.isEmpty_iff]

/-- Behind the gap the text is extended by the same. -/
theorem Extends.clear (h : Extends next text text') : Extends next (clear text) (clear text') := by
  obtain ⟨added, rfl, hadded⟩ := h
  rw [clear_append]
  split
  · next hnil => exact ⟨next, by rw [hnil, hadded, List.nil_append], by rw [← hadded, clear_clear]⟩
  · exact ⟨added, rfl, hadded⟩

/-- The first character stays. -/
theorem Extends.exists_cons {c : Char} (h : Extends next (c :: text) text') :
    ∃ behind, text' = c :: behind ∧ Extends next text behind := by
  obtain ⟨added, rfl, hadded⟩ := h
  exact ⟨text ++ added, rfl, added, rfl, hadded⟩

/-- What stands behind a gap still does if something is added further behind. -/
theorem Extends.exists_clear_cons {c : Char} {behind : List Char} (h : Extends next text text')
    (hclear : Scan.clear text = c :: behind) :
    ∃ behind', Scan.clear text' = c :: behind' ∧ Extends next behind behind' := by
  have hext := h.clear
  rw [hclear] at hext
  exact hext.exists_cons

/-- Behind a text of nothing but a gap stands what was added. -/
theorem Extends.clear_eq (h : Extends next text text') (hnil : Scan.clear text = []) :
    Scan.clear text' = next := by
  obtain ⟨added, rfl, hadded⟩ := h
  rw [clear_append, if_pos hnil, hadded]

/-- What holds behind the gap still does if it holds of what was added. -/
theorem Extends.before {p : Char → Prop} (h : Extends next text text') (ht : Before p text)
    (hnext : ∀ c ∈ next.head?, p c) : Before p text' := by
  cases hclear : Scan.clear text with
  | nil =>
    -- nothing but a gap stands before what was added
    rw [Before, h.clear_eq hclear]
    exact hnext
  | cons c behind =>
    obtain ⟨behind', hclear', -⟩ := h.exists_clear_cons hclear
    rw [Before, hclear] at ht
    rw [Before, hclear']
    exact ht

/-- What is added ends a lexeme if it begins, behind its gap, with what may follow a chain. -/
theorem Extends.endsLexeme (h : Extends next text text') (hnext : ∀ c ∈ next.head?, c ∈ followers) :
    ∃ added, text' = text ++ added ∧ Extends next [] added ∧ EndsLexeme added := by
  obtain ⟨added, rfl, hadded⟩ := h
  refine ⟨added, rfl, ⟨added, rfl, hadded⟩, ?_⟩
  refine forall_head?_of_clear (fun c hc => mem_lexemeEnds_of_isGap hc) fun c hc => ?_
  rw [hadded] at hc
  exact mem_lexemeEnds_of_mem_followers c (hnext c hc)

/-- A text may be put before what is extended. -/
theorem Extends.append (h : Extends next [] text') (text : List Char) :
    Extends next text (text ++ text') := by
  obtain ⟨added, hadded, hclear⟩ := h
  rw [List.nil_append] at hadded
  subst hadded
  exact ⟨text', rfl, hclear⟩

/-! ### What is carried over -/

/-- Whether what a scan has accepted, with a rest of some kind, is read by another scan from every
extended text, up to a relation between what is read. -/
def Carries {ρ α β : Type} (next : List Char) (R : α → β → Prop) (F : List Char → Prop)
    (scan : Scan ρ α) (scan' : Scan ρ β) : Prop :=
  ∀ ⦃text a rest⦄, scan.Accepts text a rest → F rest → ∀ ⦃text'⦄, Extends next text text' →
    ∃ rest', scan'.Reads (R a) text' rest' ∧ Extends next rest rest'

variable {ρ α β : Type} {R : α → β → Prop} {F G : List Char → Prop} {item : Scan ρ α}
  {item' : Scan ρ β}

/-- A row is carried over item by item. Before each item but the first stands the rest of the one
before it. -/
theorem Carries.row (hitem : Carries next R F item item')
    (hnext : ∀ text a rest, item.Accepts (clear text) a rest → F text)
    (hlast : ∀ text, G text → F text) {as : List α} {text rest : List Char}
    (h : Row item as text rest) (hrest : G rest) {text' : List Char}
    (hext : Extends next text text') :
    ∃ rest', ReadsRow item' R as text' rest' ∧ Extends next rest rest' := by
  induction h generalizing text' with
  | nil => exact ⟨text', .nil, hext⟩
  | cons first more ih =>
    -- behind this item stands the next one, or what the row has left
    have hmid := by
      cases more with
      | nil => exact hlast _ hrest
      | cons second _ => exact hnext _ _ _ second
    obtain ⟨mid', hread, hext'⟩ := hitem first hmid hext.clear
    obtain ⟨rest', hrow, hext''⟩ := ih hrest hext'
    exact ⟨rest', .cons hread hrow, hext''⟩

/-- **A repetition is carried over** if its item is and if the other scan stops where this one
did. -/
theorem Carries.many (hitem : Carries next R F item item')
    (hnext : ∀ text a rest, item.Accepts (clear text) a rest → F text)
    (hlast : ∀ text, G text → F text)
    (hend : ∀ text text', G text → Extends next text text' →
      item'.Refuses text' ∧ item'.Refuses (clear text')) :
    Carries next (List.Forall₂ R) G (many item) (many item') := by
  intro text as rest h hrest text' hext
  rcases h.of_many with ⟨rfl, rfl⟩ | ⟨a, more, mid, rfl, hfirst, hrow, hlength⟩
  · exact ⟨text', reads_many_nil (hend _ _ hrest hext).1, hext⟩
  -- the first item stands before the second one, or before what is left
  · have hmid : F mid := by
      cases hrow with
      | nil => exact hlast _ hrest
      | cons second _ => exact hnext _ _ _ second
    obtain ⟨mid', hread, hext'⟩ := hitem hfirst hmid hext
    obtain ⟨rest', hmore, hext''⟩ := hitem.row hnext hlast hrow hrest hext'
    -- there are no fewer characters than before, so there are rounds enough
    have hle : more.length ≤ mid'.length + 1 := by
      obtain ⟨added, rfl, -⟩ := hext'
      rw [List.length_append]
      omega
    exact ⟨rest', reads_many_cons hread hmore (hend _ _ hrest hext'').2 hle, hext''⟩

/-- An item behind a comma is carried over with its comma. -/
theorem Carries.afterComma (hitem : Carries next R F item item') :
    Carries next R F (afterComma item) (afterComma item') := by
  intro text a rest h hrest text' hext
  obtain ⟨behind, rfl, hinner⟩ := h.of_afterComma
  obtain ⟨behind', rfl, hext'⟩ := hext.exists_cons
  obtain ⟨rest', hread, hext''⟩ := hitem hinner hrest hext'.clear
  exact ⟨rest', reads_afterComma hread, hext''⟩

end Scan

open Scan

namespace Chain

/-- Whether the chains of one scan are carried over to another one, which refuses what may follow a
chain. -/
structure ReadsOn (next : List Char) (inner inner' : Scan ExprRule Chain) : Prop where
  carries : Carries next PassesTo (Before (· ∈ followers)) inner inner'
  refuses : ∀ text, Before (· ∈ followers) text → inner'.Refuses text

variable {next : List Char} {inner inner' : Scan ExprRule Chain}
  {text text' rest : List Char}

/-- Only the character behind the gap counts. -/
theorem before_of_clear_eq {c : Char} {behind : List Char} {p : Char → Prop} (hc : p c)
    (h : clear text = c :: behind) : Before p text := by
  rw [Before, h]
  rintro d ⟨⟩
  exact hc

/-! ### Brackets -/

/-- What stands in brackets is carried over, since the closing one may follow a chain. -/
theorem carries_scanEnclosed {opening closing : Char} (hclosing : closing ∈ followers)
    (hinner : ReadsOn next inner inner') :
    Carries next PassesTo (fun _ => True) (scanEnclosed opening closing inner)
      (scanEnclosed opening closing inner') := by
  intro text c rest h _ text' hext
  obtain ⟨behind, mid, rfl, hchain, hmid⟩ := accepts_scanEnclosed h
  obtain ⟨behind', rfl, hext'⟩ := hext.exists_cons
  obtain ⟨mid', hread, hext''⟩ :=
    hinner.carries hchain (before_of_clear_eq hclosing hmid) hext'.clear
  obtain ⟨rest', hmid', hrest'⟩ := hext''.exists_clear_cons hmid
  exact ⟨rest', reads_scanEnclosed hread hmid', hrest'⟩

/-- Whether, behind a gap, a given character stands. -/
def Closes (closing : Char) (text : List Char) : Prop := ∃ behind, clear text = closing :: behind

/-- What closes has the properties of its bracket. -/
theorem Closes.before {closing : Char} {p : Char → Prop} (h : Closes closing text)
    (hp : p closing) : Before p text := by
  obtain ⟨behind, hbehind⟩ := h
  exact before_of_clear_eq hp hbehind

/-- A bracket still closes if something is added behind it. -/
theorem Closes.extends {closing : Char} (h : Closes closing text) (hext : Extends next text text') :
    Closes closing text' := by
  obtain ⟨behind, hbehind⟩ := h
  obtain ⟨behind', hbehind', -⟩ := hext.exists_clear_cons hbehind
  exact ⟨behind', hbehind'⟩

/-- What stands behind a comma begins with the comma, and a comma may follow a chain. -/
theorem before_of_accepts_afterComma {c : Chain}
    (h : (afterComma inner).Accepts (clear text) c rest) :
    Before (· ∈ followers) text := by
  obtain ⟨behind, hcomma, -⟩ := h.of_afterComma
  exact before_of_clear_eq (by decide) hcomma

section Lists

variable {closing : Char} (hclosing : closing = ')' ∨ closing = ']')
  (hinner : ReadsOn next inner inner')
include hclosing hinner

/-- The chains behind commas, in front of a closing bracket. -/
theorem carries_commas :
    Carries next (List.Forall₂ PassesTo) (Closes closing) (many (afterComma inner))
      (many (afterComma inner')) := by
  have hfollows : closing ∈ followers := by
    rcases hclosing with rfl | rfl <;> decide
  have hcomma : closing ≠ ',' := by
    rcases hclosing with rfl | rfl <;> decide
  refine hinner.carries.afterComma.many (fun text c rest h => before_of_accepts_afterComma h)
    (fun text h => h.before hfollows) fun text text' h hext => ?_
  -- no further chain is read, since the bracket is no comma
  have hhead : Before (· ≠ ',') text' := (h.extends hext).before hcomma
  refine ⟨refuses_afterComma (forall_head?_of_clear ?_ hhead), refuses_afterComma hhead⟩
  rintro d hd rfl
  cases hd

/-- Chains with commas between them, in front of a closing bracket. -/
theorem carries_commaSeparated :
    Carries next (List.Forall₂ PassesTo) (Closes closing) (commaSeparated inner)
      (commaSeparated inner') := by
  have hfollows : closing ∈ followers := by
    rcases hclosing with rfl | rfl <;> decide
  intro text cs rest h hrest text' hext
  rcases h.of_commaSeparated with ⟨rfl, rfl⟩ | ⟨c, more, mid, rfl, hfirst, hmore⟩
  · -- nothing stands between the brackets
    have hrefuse := hinner.refuses text' ((hrest.extends hext).before hfollows)
    exact ⟨text', reads_commaSeparated_nil hrefuse, hext⟩
  · -- behind the first chain stands a comma or the bracket
    have hmid : Before (· ∈ followers) mid := by
      rcases hmore.of_many with ⟨-, rfl⟩ | ⟨_, _, _, -, hsecond, -⟩
      · have hclear := hrest.before hfollows
        rw [Before, clear_clear] at hclear
        exact hclear
      · exact before_of_accepts_afterComma hsecond
    obtain ⟨mid', hread, hext'⟩ := hinner.carries hfirst hmid hext
    obtain ⟨rest', hreadMore, hext''⟩ := carries_commas hclosing hinner hmore hrest hext'.clear
    exact ⟨rest', reads_commaSeparated_cons hread hreadMore, hext''⟩

end Lists

/-- Lists are carried over with their brackets. -/
theorem carries_scanList {opening closing : Char} (hclosing : closing = ')' ∨ closing = ']')
    (hinner : ReadsOn next inner inner') :
    Carries next (List.Forall₂ PassesTo) (fun _ => True) (scanList opening closing inner)
      (scanList opening closing inner') := by
  intro text cs rest h _ text' hext
  obtain ⟨behind, mid, rfl, hchains, hmid⟩ := accepts_scanList h
  obtain ⟨behind', rfl, hext'⟩ := hext.exists_cons
  obtain ⟨mid', hread, hext''⟩ :=
    carries_commaSeparated hclosing hinner hchains ⟨rest, hmid⟩ hext'.clear
  obtain ⟨rest', hmid', hrest'⟩ := hext''.exists_clear_cons hmid
  exact ⟨rest', reads_scanList hread hmid', hrest'⟩

/-! ### Joints, suffixes and terms -/

/-- No operator goes on in what ends a lexeme. -/
theorem readSpelling_append {added : List Char} (h : EndsLexeme added) (op : InfixOp)
    (text : List Char) :
    readSpelling op (text ++ added) = (readSpelling op text).map (· ++ added) := by
  have hspelling : ∀ c ∈ op.spelling.toList, c ∉ lexemeEnds := by
    rcases op with op | op <;> cases op <;> exact List.all_iff_forall_prop.mp (by decide)
  unfold readSpelling
  split
  · exact readWord_append hspelling h text
  · exact isPrefixOf?_append_of_head? (h.notMem hspelling) text

/-- A joint begins with a character that opens no suffix. -/
theorem JointText.exists_cons {joint : Joint Chain} (h : JointText inner text joint rest) :
    ∃ c behind, text = c :: behind ∧ c ∉ openers := by
  cases h with
  | operator _ _ hread =>
    obtain ⟨c, word, hspelling, -, hc⟩ := exists_spelling_eq_cons _
    rw [append_of_readSpelling hread, hspelling]
    exact ⟨c, word ++ rest, rfl, hc⟩
  | choice _ hmiddle =>
    obtain ⟨behind, -, rfl, -⟩ := accepts_scanEnclosed hmiddle
    exact ⟨'?', behind, rfl, by decide⟩

theorem before_openers_of_followers (h : Before (· ∈ followers) text) : Before (· ∉ openers) text :=
  fun c hc => notMem_openers c (mem_lexemeEnds_of_mem_followers c (h c hc))

theorem before_of_accepts_scanLink {link : Joint Chain × Operand}
    (h : (scanLink inner).Accepts (clear text) link rest) : Before (· ∉ openers) text := by
  obtain ⟨mid, hjoint, -⟩ := accepts_scanLink h
  obtain ⟨c, behind, hclear, hc⟩ := hjoint.exists_cons
  exact before_of_clear_eq hc hclear

section Parts

variable (hnext : ∀ c ∈ next.head?, c ∈ followers) (hinner : ReadsOn next inner inner')
include hnext hinner

/-- A joint is read from the longer text as itself. -/
theorem JointText.exists_reads {joint : Joint Chain} (h : JointText inner text joint rest)
    (hext : Extends next text text') :
    ∃ rest', (scanJoint inner').Reads joint.PassesTo text' rest' ∧ Extends next rest rest' := by
  obtain ⟨added, rfl, hadded, hends⟩ := hext.endsLexeme hnext
  -- operators that were tried before are not there now either
  have hnone {op : InfixOp} (hop : readSpelling op text = none) :
      readSpelling op (text ++ added) = none := by
    rw [readSpelling_append hends, hop]
    rfl
  cases h with
  | @operator _ op before after horder hbefore hread =>
    have hread' : readSpelling op (text ++ added) = some (rest ++ added) := by
      rw [readSpelling_append hends, hread]
      rfl
    have hjoint : (scanJoint inner').Reads (· = .operator op) (text ++ added) (rest ++ added) :=
      reads_scanJoint_operator horder (fun other hother => hnone (hbefore other hother)) hread'
    refine ⟨rest ++ added, hjoint.mono ?_, hadded.append rest⟩
    rintro _ rfl
    exact .operator op
  | choice hnullish hmiddle =>
    obtain ⟨rest', hread, hext'⟩ := carries_scanEnclosed (by decide) hinner hmiddle trivial hext
    refine ⟨rest', (reads_scanJoint_choice (hnone hnullish) hread).mono ?_, hext'⟩
    rintro _ ⟨middle', rfl, hpasses⟩
    exact .choice hpasses

/-- So is a suffix. -/
theorem SuffixText.exists_reads {s : Suffix} (h : SuffixText inner text s rest)
    (hext : Extends next text text') :
    ∃ rest', (scanSuffix inner').Reads s.PassesTo text' rest' ∧ Extends next rest rest' := by
  cases h with
  | call harguments =>
    obtain ⟨rest', hread, hext'⟩ :=
      carries_scanList (Or.inl rfl) hinner harguments trivial hext
    refine ⟨rest', (reads_scanSuffix_call hread).mono ?_, hext'⟩
    rintro _ ⟨arguments', rfl, hpasses⟩
    exact Suffix.passesTo_call hpasses
  | index hkey =>
    obtain ⟨behind, -, rfl, -⟩ := accepts_scanEnclosed hkey
    obtain ⟨behind', rfl, -⟩ := hext.exists_cons
    obtain ⟨rest', hread, hext'⟩ := carries_scanEnclosed (by decide) hinner hkey trivial hext
    refine ⟨rest', (reads_scanSuffix_index hread).mono ?_, hext'⟩
    rintro _ ⟨key', rfl, hpasses⟩
    exact Suffix.passesTo_index hpasses
  | field hname =>
    obtain ⟨behind', rfl, hext'⟩ := hext.exists_cons
    -- the name may stand at the end of the text, where it must not go on
    obtain ⟨added, hsame, hadded, hends⟩ := hext'.clear.endsLexeme hnext
    have hread := settled_readName.append hends hname
    rw [← hsame] at hread
    refine ⟨_, (reads_scanSuffix_field hread).mono ?_, hadded.append rest⟩
    rintro _ rfl
    exact Suffix.passesTo_field _

/-- And so is a term. -/
theorem TermText.exists_reads {term : Term} (h : TermText inner text term rest)
    (hext : Extends next text text') :
    ∃ rest', (scanTerm inner').Reads term.PassesTo text' rest' ∧ Extends next rest rest' := by
  obtain ⟨added, hsame, hadded, hends⟩ := hext.endsLexeme hnext
  cases h with
  | number hn =>
    have hread := settled_readNumeral.append hends hn
    rw [← hsame] at hread
    refine ⟨_, (reads_scanTerm_number hread).mono ?_, hadded.append rest⟩
    rintro _ rfl
    exact Term.passesTo_of_eq fun _ _ _ => rfl
  | text hquote hwritten =>
    -- a quoted text has ended, so it does not matter what follows
    have hread := readQuoted_append hwritten added
    rw [← hsame] at hread
    refine ⟨_, (reads_scanTerm_text hquote hread).mono ?_, hadded.append rest⟩
    rintro _ ⟨offset', rfl⟩
    exact Term.passesTo_text _ offset' _
  | @word _ word _ hword hread =>
    have hletters : ∀ pair ∈ wordTerms, ∀ c ∈ pair.1.toList, c ∉ lexemeEnds :=
      forall_mem_wordTerms (by decide)
    have hread' : Grammar.readWord word.toList text' = some (rest ++ added) := by
      rw [hsame, readWord_append (hletters _ hword) hends, hread]
      rfl
    refine ⟨_, (reads_scanTerm_word hword hread').mono ?_, hadded.append rest⟩
    rintro _ rfl
    simp only [wordTerms, List.mem_cons, List.not_mem_nil, Prod.mk.injEq, or_false] at hword
    rcases hword with ⟨-, rfl⟩ | ⟨-, rfl⟩ | ⟨-, rfl⟩ | ⟨-, rfl⟩ <;>
      exact Term.passesTo_of_eq fun _ _ _ => rfl
  | array helements =>
    obtain ⟨behind, -, rfl, -⟩ := accepts_scanList helements
    obtain ⟨behind', rfl, -⟩ := hext.exists_cons
    obtain ⟨rest', hread, hext'⟩ := carries_scanList (Or.inr rfl) hinner helements trivial hext
    refine ⟨rest', (reads_scanTerm_array hread).mono ?_, hext'⟩
    rintro _ ⟨elements', rfl, hpasses⟩
    exact Term.passesTo_array hpasses
  | group hc =>
    obtain ⟨behind, -, rfl, -⟩ := accepts_scanEnclosed hc
    obtain ⟨behind', rfl, -⟩ := hext.exists_cons
    obtain ⟨rest', hread, hext'⟩ := carries_scanEnclosed (by decide) hinner hc trivial hext
    refine ⟨rest', (reads_scanTerm_group hread).mono ?_, hext'⟩
    rintro _ ⟨c', rfl, hpasses⟩
    exact Term.passesTo_group hpasses
  | name hname =>
    have hread := settled_readIdentifier.append hends hname
    rw [← hsame] at hread
    refine ⟨_, (reads_scanTerm_name hread).mono ?_, hadded.append rest⟩
    rintro _ rfl
    exact Term.passesTo_of_eq fun _ _ _ => rfl

/-! ### Operands and chains -/

omit hinner in
/-- Signs are carried over where a term follows them, which begins with none. -/
theorem carries_signs :
    Carries next (List.Forall₂ (· = ·))
      (fun rest => ∃ c behind, clear rest = c :: behind ∧ c ∉ signChars)
      (many scanSign) (many scanSign) := by
  -- a sign is a single character, whatever stands behind it
  have hsign : Carries next (· = ·) (fun _ => True) scanSign scanSign := by
    intro text op rest h _ text' hext
    obtain ⟨added, rfl, hadded, -⟩ := hext.endsLexeme hnext
    rw [accepts_scanSign h, List.append_assoc]
    exact ⟨rest ++ added, (reads_scanSign op).mono fun _ => Eq.symm, hadded.append rest⟩
  refine hsign.many (fun _ _ _ _ => trivial) (fun _ _ => trivial) fun text text' h hext => ?_
  obtain ⟨c, behind, hclear, hc⟩ := h
  obtain ⟨behind', hclear', -⟩ := hext.exists_clear_cons hclear
  have hhead : ∀ d ∈ (clear text').head?, d ∉ signChars := by
    rw [hclear']
    rintro d ⟨⟩
    exact hc
  refine ⟨refuses_scanSign (forall_head?_of_clear (fun d hd => ?_) hhead), refuses_scanSign hhead⟩
  exact notMem_signChars d (mem_lexemeEnds_of_isGap hd)

/-- Suffixes are carried over where none follows them. -/
theorem carries_suffixes :
    Carries next (List.Forall₂ Suffix.PassesTo) (Before (· ∉ openers)) (many (scanSuffix inner))
      (many (scanSuffix inner')) := by
  have hsuffix : Carries next Suffix.PassesTo (fun _ => True) (scanSuffix inner)
      (scanSuffix inner') :=
    fun text s rest h _ text' hext => (accepts_scanSuffix h).exists_reads hnext hinner hext
  refine hsuffix.many (fun _ _ _ _ => trivial) (fun _ _ => trivial) fun text text' h hext => ?_
  -- no suffix begins with what follows, whether there is a gap before it or not
  have hhead : Before (· ∉ openers) text' :=
    hext.before h fun c hc => notMem_openers c (mem_lexemeEnds_of_mem_followers c (hnext c hc))
  refine ⟨refuses_scanSuffix (forall_head?_of_clear (fun d hd => ?_) hhead),
    refuses_scanSuffix hhead⟩
  exact notMem_openers d (mem_lexemeEnds_of_isGap hd)

/-- An operand is carried over part by part. -/
theorem carries_scanOperand :
    Carries next Operand.PassesTo (Before (· ∉ openers)) (scanOperand inner)
      (scanOperand inner') := by
  intro text operand rest h hrest text' hext
  obtain ⟨signs, term, suffixes, mid, behind, rfl, hsigns, hterm, hsuffixes⟩ :=
    accepts_scanOperand h
  have hfront : ∃ c behind, clear mid = c :: behind ∧ c ∉ signChars := by
    obtain ⟨c, behind, hclear, hc⟩ := hterm.exists_cons
    exact ⟨c, behind, hclear, fun hmem => hc (List.mem_cons_of_mem _ hmem)⟩
  obtain ⟨mid', hreadSigns, hext₁⟩ := carries_signs hnext hsigns hfront hext
  obtain ⟨behind', hreadTerm, hext₂⟩ := hterm.exists_reads hnext hinner hext₁.clear
  obtain ⟨rest', hreadSuffixes, hext₃⟩ := carries_suffixes hnext hinner hsuffixes hrest hext₂.clear
  refine ⟨rest', (reads_scanOperand hreadSigns hreadTerm hreadSuffixes).mono ?_, hext₃⟩
  rintro _ ⟨signs', term', suffixes', rfl, hsame, hpassesTerm, hpassesSuffixes⟩
  -- signs are read as they are, so both rows of them are the same
  obtain rfl := List.forall₂_eq_eq_eq ▸ hsame
  exact Operand.passesTo_mk signs hpassesTerm hpassesSuffixes

/-- A link is carried over where no suffix follows its operand. -/
theorem carries_scanLink :
    Carries next LinkPassesTo (Before (· ∉ openers)) (scanLink inner) (scanLink inner') := by
  intro text link rest h hrest text' hext
  obtain ⟨mid, hjoint, hoperand⟩ := accepts_scanLink h
  obtain ⟨mid', hreadJoint, hext'⟩ := hjoint.exists_reads hnext hinner hext
  obtain ⟨rest', hreadOperand, hext''⟩ :=
    carries_scanOperand hnext hinner hoperand hrest hext'.clear
  exact ⟨rest', reads_scanLink hreadJoint hreadOperand, hext''⟩

/-- Links are carried over where something follows that may follow a chain. -/
theorem carries_links :
    Carries next (List.Forall₂ LinkPassesTo) (Before (· ∈ followers)) (many (scanLink inner))
      (many (scanLink inner')) := by
  refine (carries_scanLink hnext hinner).many (fun text link rest h => before_of_accepts_scanLink h)
    (fun text h => before_openers_of_followers h) fun text text' h hext => ?_
  have hhead : ∀ c ∈ (clear text').head?, c ∈ lexemeEnds :=
    fun c hc => mem_lexemeEnds_of_mem_followers c (hext.before h hnext c hc)
  have hends : EndsLexeme text' :=
    forall_head?_of_clear (fun c hc => mem_lexemeEnds_of_isGap hc) hhead
  exact ⟨(refuses_scanJoint hends).bind, (refuses_scanJoint hhead).bind⟩

/-- A chain is carried over if the chains inside it are. -/
theorem carries_scanChain :
    Carries next PassesTo (Before (· ∈ followers)) (scanChain inner) (scanChain inner') := by
  intro text c rest h hrest text' hext
  obtain ⟨offset, first, links, mid, rfl, hfirst, hmore⟩ := accepts_scanChain h
  -- behind the first operand stands a joint or what stands behind the chain
  have hmid : Before (· ∉ openers) mid := by
    rcases hmore.of_many with ⟨-, rfl⟩ | ⟨_, _, _, -, hsecond, -⟩
    · have hclear := before_openers_of_followers hrest
      rw [Before, clear_clear] at hclear
      exact hclear
    · exact before_of_accepts_scanLink hsecond
  obtain ⟨mid', hreadFirst, hext'⟩ := carries_scanOperand hnext hinner hfirst hmid hext
  obtain ⟨rest', hreadLinks, hext''⟩ := carries_links hnext hinner hmore hrest hext'.clear
  refine ⟨rest', (reads_scanChain hreadFirst hreadLinks).mono ?_, hext''⟩
  rintro _ ⟨offset', first', links', rfl, hpassesFirst, hpassesLinks⟩
  exact passesTo_mk offset offset' hpassesFirst hpassesLinks

end Parts

/-- **A chain is read in front of further text as it is read alone**, by a scan of as many levels
or more. -/
theorem readsOn_scanNested (hnext : ∀ c ∈ next.head?, c ∈ followers) {nesting nesting' : Nat}
    (hle : nesting ≤ nesting') : ReadsOn next (scanNested nesting) (scanNested nesting') := by
  -- by induction on the levels: the chains inside a chain are of one level less in both scans
  induction nesting generalizing nesting' with
  | zero =>
    refine ⟨fun text c rest h => h.of_refuse.elim, fun text h => ?_⟩
    exact refuses_scanNested h nesting'
  | succ nesting ih =>
    obtain ⟨nesting', rfl⟩ := Nat.exists_eq_add_one_of_ne_zero (Nat.ne_zero_of_lt hle)
    have hinner : ReadsOn next (scanNested nesting) (scanNested nesting') :=
      ih (Nat.le_of_succ_le_succ hle)
    exact ⟨carries_scanChain hnext hinner, fun text h => refuses_scanNested h (nesting' + 1)⟩

end Chain

end CheckedExpr
