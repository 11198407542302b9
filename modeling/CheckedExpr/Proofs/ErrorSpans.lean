import CheckedExpr.Descriptor.Dialect
import CheckedExpr.Proofs.Cutoff
import CheckedExpr.Proofs.ChainSyntax
import CheckedExpr.Proofs.ScanPlaces

/-!
# Errors point into their text

An error about a text carries a span of the text, and is shown with the line and the column of its
start. Spans come from many sides: from counting brackets, from the furthest place that a grammar
has reached, and from the places that were noted for chains, quoted texts and entries while they
were read. All of them are cut at places of the text, whatever characters it is made of.

What a scan reads is handed on and looked at only later, when an expression or a model is made of
it. So the property that is carried through a grammar is about what will be made: it fails, if at
all, at a span of the text. Then the noted places need no bookkeeping of their own.

* `Brackets.isBoundary_of_excess?`: the places at which brackets are counted.
* `Chain.FailsInside`, `Descriptor.FailsInside`: the property, level by level.
* `ParseError.pointsInto_of_parse`: the errors of expressions and of both notations of descriptors.
-/

namespace CheckedExpr

open Except (FailsWith failsWith_ok failsWith_error)
open Scan

/-! ### Spans -/

/-- Whether a span is a stretch of a source that begins and ends between two of its characters, or
at its ends. -/
structure Span.IsWithin (span : Span) (source : String) : Prop where
  start_le_stop : span.start ≤ span.stop
  stop_le_size : span.stop ≤ source.utf8ByteSize
  start_isValid : String.Pos.Raw.IsValid source ⟨span.start⟩
  stop_isValid : String.Pos.Raw.IsValid source ⟨span.stop⟩

/-- Whether an error is about a source, and points at a stretch of it. -/
structure ParseError.PointsInto (err : ParseError) (source : String) : Prop where
  source_eq : err.source = source
  within : err.span.IsWithin source

variable {source : String}

/-- Two boundaries in their order make a span. -/
theorem Span.isWithin_of_isBoundary {start stop : Nat} (hle : start ≤ stop)
    (hstart : Text.isBoundary source.toList start = true)
    (hstop : Text.isBoundary source.toList stop = true) : (Span.mk start stop).IsWithin source where
  start_le_stop := hle
  stop_le_size := by
    rw [← Text.utf8Length_toList]
    exact Text.le_of_isBoundary hstop
  start_isValid := Text.isBoundary_toList_iff.mp hstart
  stop_isValid := Text.isBoundary_toList_iff.mp hstop

/-- A span of a source starts at a place that has a line and a column. -/
theorem Span.IsWithin.startsAtBoundary {span : Span} (h : span.IsWithin source) :
    span.startsAtBoundary source = true := by
  have hstart : span.start ≤ source.utf8ByteSize := h.start_le_stop.trans h.stop_le_size
  unfold Span.startsAtBoundary
  rw [Nat.min_eq_left hstart]
  exact Text.isBoundary_toList_iff.mpr h.start_isValid

/-- An error that points at a single place. -/
theorem ParseError.pointsInto_place {cause : ParseCause} {offset : Nat}
    (h : Text.isBoundary source.toList offset = true) :
    (ParseError.mk source cause ⟨offset, offset⟩).PointsInto source :=
  ⟨rfl, Span.isWithin_of_isBoundary (Nat.le_refl offset) h h⟩

/-- An error that points at a quoted text. -/
theorem ParseError.pointsInto_written {cause : ParseCause} {offset : Nat} {written : List Char}
    (hstart : Text.isBoundary source.toList offset = true)
    (hstop : Text.isBoundary source.toList (offset + Text.utf8Length written) = true) :
    (ParseError.mk source cause ⟨offset, offset + Text.utf8Length written⟩).PointsInto source :=
  ⟨rfl, Span.isWithin_of_isBoundary (Nat.le_add_right _ _) hstart hstop⟩

/-! ### Brackets -/

namespace Brackets

variable {limit depth offset place : Nat} {quote : Option Char} {text : List Char}

/-- Opening characters are of one byte, so counting may go on by one. -/
theorem utf8Size_of_isOpening {c : Char} (h : isOpening c = true) : c.utf8Size = 1 := by
  simp only [isOpening, Bool.or_eq_true, beq_iff_eq] at h
  obtain (rfl | rfl) | rfl := h <;> rfl

theorem utf8Size_of_isClosing {c : Char} (h : isClosing c = true) : c.utf8Size = 1 := by
  simp only [isClosing, Bool.or_eq_true, beq_iff_eq] at h
  obtain (rfl | rfl) | rfl := h <;> rfl

/-- A place behind some characters that were counted. -/
theorem exists_before_append (read : List Char) {rest : List Char} {next : Nat}
    (hnext : next = offset + Text.utf8Length read)
    (h : ∃ before after, rest = before ++ after ∧ place = next + Text.utf8Length before) :
    ∃ before after, read ++ rest = before ++ after ∧
      place = offset + Text.utf8Length before := by
  obtain ⟨before, after, rfl, rfl⟩ := h
  refine ⟨read ++ before, after, (List.append_assoc _ _ _).symm, ?_⟩
  rw [hnext, Text.utf8Length_append, Nat.add_assoc]

/-- Counting goes on from one character to the next one, between quotes as well as outside. -/
theorem exists_before_of_excess? (h : excess? limit quote depth offset text = some place) :
    ∃ before after, text = before ++ after ∧ place = offset + Text.utf8Length before := by
  -- what counts for one byte is a character of one byte
  fun_induction excess? limit quote depth offset text with
  | case1 => cases h
  | case2 q depth offset d rest ih =>
    exact exists_before_append ['\\', d] (Nat.add_assoc offset 1 d.utf8Size) (ih h)
  | case3 depth offset q c rest _ ih => exact exists_before_append [c] (by simp) (ih h)
  | case4 depth offset rest ih => exact exists_before_append ['?', '?'] rfl (ih h)
  | case5 depth offset c rest _ hquote ih =>
    have hsize : c.utf8Size = 1 := by obtain rfl | rfl := hquote <;> rfl
    exact exists_before_append [c] (by simp [hsize]) (ih h)
  | case6 depth offset c rest _ hquote hopening hlimit =>
    cases h
    exact ⟨[], c :: rest, rfl, rfl⟩
  | case7 depth offset c rest _ hquote hopening hlimit ih =>
    have hsize := utf8Size_of_isOpening hopening
    exact exists_before_append [c] (by simp [hsize]) (ih h)
  | case8 depth offset c rest _ hquote hopening hclosing ih =>
    have hsize := utf8Size_of_isClosing hclosing
    exact exists_before_append [c] (by simp [hsize]) (ih h)
  | case9 depth offset c rest _ hquote hopening hclosing ih =>
    exact exists_before_append [c] (by simp) (ih h)

/-- The first place that is too deep is one of the text. -/
theorem isBoundary_of_firstExcess? (h : firstExcess? limit text = some place) :
    Text.isBoundary text place = true := by
  obtain ⟨before, after, htext, hplace⟩ := exists_before_of_excess? h
  rw [Nat.zero_add] at hplace
  exact Text.isBoundary_iff.mpr ⟨before, after, htext, hplace⟩

end Brackets

/-! ### What is made of chains -/

/-- Whether what is made of a chain, below any levels and with any limit, fails inside the source
only. -/
def Chain.FailsInside (source : String) (c : Chain) : Prop :=
  ∀ limit depth, FailsWith (·.PointsInto source) (c.toExpr source limit depth)

def Operand.FailsInside (source : String) (operand : Operand) : Prop :=
  ∀ limit depth, FailsWith (·.PointsInto source) (operand.toExpr source limit depth)

def Term.FailsInside (source : String) (term : Term) : Prop :=
  ∀ limit depth, FailsWith (·.PointsInto source) (term.toExpr source limit depth)

/-- A suffix fails inside the source only, behind something that does. -/
def Suffix.FailsInside (source : String) (suffix : Suffix) : Prop :=
  ∀ limit depth object, FailsWith (·.PointsInto source) object →
    FailsWith (·.PointsInto source) (suffix.toExpr source limit depth object)

/-- A joint fails in its middle, if it has one. -/
def Joint.FailsInside (source : String) (joint : Joint Chain) : Prop :=
  ∀ middle, joint = .choice middle → middle.FailsInside source

section Making

variable {limit depth : Nat} {p : ParseError → Prop}

/-- A text that cannot be decoded is pointed at as a whole. -/
theorem failsWith_decodeText {offset : Nat} {written : Grammar.QuotedText}
    (hstart : Text.isBoundary source.toList offset = true)
    (hstop : Text.isBoundary source.toList (offset + Text.utf8Length written.text) = true) :
    FailsWith (·.PointsInto source) (decodeText source offset written) := by
  unfold decodeText
  cases Text.unescape written.body with
  | ok text => exact failsWith_ok _
  | error reason => exact failsWith_error (ParseError.pointsInto_written hstart hstop)

/-- Chains fail as one of them does. -/
theorem failsWith_chainsToExpr {cs : List Chain} (h : ∀ c ∈ cs, c.FailsInside source) :
    FailsWith (·.PointsInto source) (chainsToExpr source limit depth cs) := by
  -- the first chain that fails ends it, and every chain fails inside
  induction cs with
  | nil => exact failsWith_ok []
  | cons c cs ih =>
    obtain ⟨hc, hcs⟩ := List.forall_mem_cons.mp h
    exact (hc limit depth).bind fun e => (ih hcs).bind fun es => failsWith_ok _

/-- Suffixes fail as one of them does, or as what they stand behind. -/
theorem failsWith_suffixesToExpr {suffixes : List Suffix} {object : Except ParseError Expr}
    (hobject : FailsWith (·.PointsInto source) object)
    (h : ∀ s ∈ suffixes, s.FailsInside source) :
    FailsWith (·.PointsInto source) (suffixesToExpr source limit depth object suffixes) := by
  induction suffixes generalizing object with
  | nil => exact hobject
  | cons s suffixes ih =>
    obtain ⟨hs, hsuffixes⟩ := List.forall_mem_cons.mp h
    exact ih (hs limit depth object hobject) hsuffixes

/-- Signs do not fail. -/
theorem failsWith_foldr_applySign {operand : Except ParseError Expr} (signs : List UnaryOp)
    (h : FailsWith p operand) : FailsWith p (signs.foldr applySign operand) := by
  induction signs with
  | nil => exact h
  | cons op signs ih => exact ih.map _

/-- A grouping fails as its operands and middles do, in whatever order they are looked at. -/
theorem Grouping.failsWith_fold {tree : Grouping Chain Operand}
    {build : Chain → Except ParseError Expr} {make : Operand → Except ParseError Expr}
    (hmiddles : ∀ joint ∈ tree.joints, ∀ middle, joint = .choice middle →
      FailsWith p (build middle))
    (hoperands : ∀ operand ∈ tree.operands, FailsWith p (make operand)) :
    FailsWith p ((tree.map build make).fold id Joint.toExpr) := by
  induction tree with
  | operand a => exact hoperands a List.mem_cons_self
  | joined joint left right ihleft ihright =>
    rw [joints, List.forall_mem_append, List.forall_mem_cons] at hmiddles
    rw [operands, List.forall_mem_append] at hoperands
    obtain ⟨hleft, hmiddle, hright⟩ := hmiddles
    have hl := ihleft hleft hoperands.1
    have hr := ihright hright hoperands.2
    -- a choice looks at its middle first, which is as good as any other order
    rcases joint with (op | op) | middle
    · exact hl.bind fun l => hr.bind fun r => failsWith_ok _
    · exact hl.bind fun l => hr.bind fun r => failsWith_ok _
    · exact (hmiddle middle rfl).bind fun m => hl.bind fun l => hr.bind fun r => failsWith_ok _

/-- **One level.** A chain that is too deep is pointed at by its place. -/
theorem Chain.failsInside_mk {offset : Nat} {first : Operand}
    {links : List (Joint Chain × Operand)}
    (hoffset : Text.isBoundary source.toList offset = true) (hfirst : first.FailsInside source)
    (hlinks : ∀ link ∈ links, link.1.FailsInside source ∧ link.2.FailsInside source) :
    (Chain.mk offset first links).FailsInside source := by
  intro limit depth
  rw [Chain.toExpr]
  -- the limit is tested before the parts are looked at
  split
  · exact failsWith_error (ParseError.pointsInto_place hoffset)
  · rw [linksToExpr_eq_map, ← Grouping.map_ofLinks]
    refine Grouping.failsWith_fold ?middles ?operands
    case middles =>
      rw [Grouping.joints_ofLinks, List.forall_mem_map]
      exact fun link hlink middle hmiddle => (hlinks link hlink).1 middle hmiddle _ _
    case operands =>
      rw [Grouping.operands_ofLinks, List.forall_mem_cons, List.forall_mem_map]
      exact ⟨hfirst _ _, fun link hlink => (hlinks link hlink).2 _ _⟩

end Making

/-! ### What is read of chains -/

namespace Chain

variable {low : Nat} {inner : Scan ExprRule Chain}
  (hinner : ∀ low, StaysIn source.toList low inner (Chain.FailsInside source))

/-- An operator is read from the text and hands on nothing that could fail. -/
theorem staysIn_scanOperator (op : InfixOp) :
    StaysIn source.toList low (scanOperator op) fun _ => True := by
  rw [scanOperator_eq]
  refine staysIn_token fun given a rest h => ⟨?_, trivial⟩
  obtain ⟨_, hread, heq⟩ := Option.map_eq_some_iff.mp h
  cases heq
  exact append_of_readSpelling hread

theorem staysIn_scanSign : StaysIn source.toList low scanSign fun _ => True := by
  refine staysIn_firstOf ?_
  rw [List.forall_mem_map]
  exact fun op _ => (staysIn_sign op.spelling).bind fun _ _ => staysIn_pure trivial

theorem staysIn_scanKeyword {r : ExprRule} {word : String} {term : Term}
    (h : term.FailsInside source) :
    StaysIn source.toList low (scanKeyword r word term) (Term.FailsInside source) := by
  refine staysIn_token fun given a rest hread => ?_
  obtain ⟨_, hword, heq⟩ := Option.map_eq_some_iff.mp hread
  cases heq
  exact ⟨Grammar.append_of_readWord hword, h⟩

/-- The text ends where its closing quote ends. -/
theorem staysIn_scanText : StaysIn source.toList low scanText (Term.FailsInside source) := by
  refine staysIn_placed (fun given written rest hread => ?_) fun offset written hstart hstop => ?_
  · obtain hread | ⟨-, hread⟩ := (Option.orElse_eq_some _ _ _).mp hread
    · exact Grammar.append_of_readQuoted hread
    · exact Grammar.append_of_readQuoted hread
  · exact fun limit depth => (failsWith_decodeText hstart hstop).bind fun text => failsWith_ok _

include hinner

/-- Chains between brackets hand on their own failures. -/
theorem staysIn_scanList (opening closing : Char) :
    StaysIn source.toList low (scanList opening closing inner) fun cs =>
      ∀ c ∈ cs, c.FailsInside source :=
  (staysIn_commaSeparated (hinner low)).enclosed (fun _ hcs => hcs) [opening] [closing]

theorem staysIn_scanEnclosed (opening closing : Char) :
    StaysIn source.toList low (scanEnclosed opening closing inner) (Chain.FailsInside source) :=
  (hinner low).enclosed (fun _ hc => hc) [opening] [closing]

/-- A joint hands on the failures of its middle. -/
theorem staysIn_scanJoint :
    StaysIn source.toList low (scanJoint inner) (Joint.FailsInside source) := by
  -- an operator makes no errors, it is only the middle of a choice that can fail later
  have hoperator (op : InfixOp) : StaysIn source.toList low
      (Joint.operator <$> scanOperator op : Scan ExprRule (Joint Chain))
      (Joint.FailsInside source) :=
    (staysIn_scanOperator op).map fun _ _ _ h => by cases h
  have hchoice : StaysIn source.toList low
      (rule .choice (Joint.choice <$> scanEnclosed '?' ':' inner)) (Joint.FailsInside source) := by
    refine ((staysIn_scanEnclosed hinner '?' ':').map fun c hc => ?_).rule
    rintro _ ⟨⟩
    exact hc
  -- two question marks come first, so that they are no choice, and the other operators come last
  rw [scanJoint_eq]
  refine staysIn_firstOf ?_
  rw [List.forall_mem_cons, List.forall_mem_cons, List.forall_mem_map]
  exact ⟨hoperator _, hchoice, fun op _ => hoperator op⟩

/-- A suffix hands on the failures of the chains in it. -/
theorem staysIn_scanSuffix :
    StaysIn source.toList low (scanSuffix inner) (Suffix.FailsInside source) := by
  refine staysIn_firstOf ?_
  simp only [List.forall_mem_cons, List.not_mem_nil, false_imp_iff, implies_true, and_true]
  refine ⟨?call, ?index, ?field⟩
  case call =>
    refine ((staysIn_scanList hinner '(' ')').map fun cs hcs => ?_).rule
    -- the arguments may fail, and so may the object in front, both inside the text
    exact fun limit depth object hobject =>
      (failsWith_chainsToExpr hcs).bind fun es => hobject.bind fun e => failsWith_ok _
  case index =>
    refine ((staysIn_scanEnclosed hinner '[' ']').map fun c hc => ?_).rule
    exact fun limit depth object hobject =>
      (hc limit depth).bind fun key => hobject.bind fun e => failsWith_ok _
  case field =>
    refine ((staysIn_exactly _).bind fun _ _ => staysIn_gap.bind fun _ _ => ?_).rule
    refine (staysIn_token (P := fun _ => True) fun given name rest hread => ?_).bind fun name _ =>
      staysIn_pure ?_
    · exact ⟨Grammar.append_of_readName hread, trivial⟩
    · exact fun limit depth object hobject => hobject.bind fun e => failsWith_ok _

/-- A term fails in a quoted text, or in the chains between its brackets. -/
theorem staysIn_scanTerm :
    StaysIn source.toList low (scanTerm inner) (Term.FailsInside source) := by
  refine staysIn_firstOf ?_
  simp only [List.forall_mem_cons, List.not_mem_nil, false_imp_iff, implies_true, and_true]
  refine ⟨?number, staysIn_scanText, ?trueWord, ?falseWord, ?nullWord, ?thisWord, ?array, ?group,
    ?name⟩
  case trueWord | falseWord | nullWord | thisWord =>
    -- words, numbers and names always become expressions
    exact staysIn_scanKeyword fun limit depth => failsWith_ok _
  case number =>
    refine (staysIn_token (P := fun _ => True) fun given n rest hread => ?_).map fun n _ => ?_
    · exact ⟨Numeral.append_of_read hread, trivial⟩
    · exact fun limit depth => failsWith_ok _
  case array =>
    -- elements and groups fail where the chains inside do
    refine ((staysIn_scanList hinner '[' ']').map fun cs hcs => ?_).rule
    exact fun limit depth => (failsWith_chainsToExpr hcs).bind fun es => failsWith_ok _
  case group =>
    refine ((staysIn_scanEnclosed hinner '(' ')').map fun c hc => ?_).rule
    exact fun limit depth => hc limit depth
  case name =>
    refine (staysIn_token (P := fun _ => True) fun given name rest hread => ?_).map fun name _ => ?_
    · exact ⟨Grammar.append_of_readName (Option.filter_eq_some_iff.mp hread).1, trivial⟩
    · exact fun limit depth => failsWith_ok _

/-- An operand hands on the failures of its term and its suffixes. -/
theorem staysIn_scanOperand :
    StaysIn source.toList low (scanOperand inner) (Operand.FailsInside source) := by
  refine (staysIn_many staysIn_scanSign).bind fun signs _ => staysIn_gap.bind fun _ _ => ?_
  refine (staysIn_scanTerm hinner).bind fun term hterm => staysIn_gap.bind fun _ _ => ?_
  refine (staysIn_many (staysIn_scanSuffix hinner)).bind fun suffixes hsuffixes => staysIn_pure ?_
  intro limit depth
  rw [Operand.toExpr]
  exact failsWith_foldr_applySign signs (failsWith_suffixesToExpr (hterm limit depth) hsuffixes)

/-- A link hands on those of its joint and its operand. -/
theorem staysIn_scanLink :
    StaysIn source.toList low (scanLink inner) fun link =>
      link.1.FailsInside source ∧ link.2.FailsInside source := by
  refine (staysIn_scanJoint hinner).bind fun joint hjoint => staysIn_gap.bind fun _ _ => ?_
  exact (staysIn_scanOperand hinner).bind fun operand hoperand =>
    staysIn_pure ⟨hjoint, hoperand⟩

/-- A chain notes its place before anything is read of it, which is what a limit points at. -/
theorem staysIn_scanChain :
    StaysIn source.toList low (scanChain inner) (Chain.FailsInside source) := by
  refine StaysIn.rule (staysIn_place_bind fun start hstart => ?_)
  refine (staysIn_scanOperand hinner).bind fun first hfirst => staysIn_gap.bind fun _ _ => ?_
  exact (staysIn_many (staysIn_scanLink hinner)).bind fun links hlinks =>
    staysIn_pure (failsInside_mk hstart hfirst hlinks)

omit hinner

/-- At every depth, a chain fails inside the source only. -/
theorem staysIn_scanNested (nesting low : Nat) :
    StaysIn source.toList low (scanNested nesting) (Chain.FailsInside source) := by
  -- for every place at which the chain may begin
  induction nesting generalizing low with
  | zero => exact staysIn_refuse
  | succ nesting ih => exact staysIn_scanChain ih

theorem staysIn_scanScript (nesting low : Nat) :
    StaysIn source.toList low (scanScript nesting) fun cs => ∀ c ∈ cs, c.FailsInside source :=
  (staysIn_commaSeparated (staysIn_scanNested nesting low)).whole

end Chain

/-- **The errors of expressions.** -/
theorem Expr.failsWith_parseWithin (limit : Nat) (source : String) :
    FailsWith (·.PointsInto source) (parseWithin limit source) := by
  have hread : StaysIn source.toList 0 (Chain.scanScript (source.toList.length + 1))
      fun cs => ∀ c ∈ cs, c.FailsInside source := Chain.staysIn_scanScript _ 0
  unfold parseWithin
  -- three things can go wrong, one after the other: too many brackets, a text that is not read, and
  -- a chain that does not become an expression
  cases hbrackets : Brackets.firstExcess? limit source.toList with
  | some offset =>
    exact failsWith_error
      (ParseError.pointsInto_place (Brackets.isBoundary_of_firstExcess? hbrackets))
  | none =>
    dsimp only
    unfold Chain.ofText
    cases hrun : run (Chain.scanScript (source.toList.length + 1)) source.toList with
    | error attempts =>
      exact failsWith_error (ParseError.pointsInto_place (hread.of_run_eq_error hrun))
    | ok chains =>
      refine (failsWith_chainsToExpr (hread.of_run_eq_ok hrun)).bind fun body => ?_
      split
      · exact failsWith_ok _
      · exact failsWith_ok _

/-! ### What is made of descriptors -/

/-- Whether an error is one of syntax, and points into a source. -/
def ParseError.IsSyntaxIn (source : String) (err : ParseError) : Prop :=
  err.PointsInto source ∧ err.toFailure.kind = .syntaxError

/-- Whether what is made of a descriptor fails inside the source only, and as a matter of syntax. -/
def Descriptor.FailsInside (source : String) (descriptor : Descriptor) : Prop :=
  ∀ dialect, FailsWith (ParseError.IsSyntaxIn source) (descriptor.toModel dialect source)

/-- Whether a quoted key ends where its closing quote ends. -/
def DescriptorKey.IsPlaced (source : String) : DescriptorKey → Prop
  | bare _ => True
  | quoted offset written =>
    Text.isBoundary source.toList offset = true ∧
      Text.isBoundary source.toList (offset + Text.utf8Length written.text) = true

/-- Whether an entry is a stretch of the source with what can be pointed at inside it. -/
structure Descriptor.EntryInside (source : String) (entry : Span × DescriptorKey × Descriptor) :
    Prop where
  span : entry.1.IsWithin source
  key : entry.2.1.IsPlaced source
  descriptor : entry.2.2.FailsInside source

/-- A key that cannot be decoded is pointed at, or the entry that it is in. -/
theorem DescriptorKey.failsWith_decode {dialect : Dialect} {span : Span} {key : DescriptorKey}
    (hspan : span.IsWithin source) (hkey : key.IsPlaced source) :
    FailsWith (ParseError.IsSyntaxIn source) (key.decode dialect source span) := by
  cases key with
  | bare name => exact failsWith_ok _
  | quoted offset written =>
    unfold decode
    dsimp only
    cases Text.unescape written.body with
    | ok name => exact failsWith_ok _
    | error reason =>
      -- the notations point at the key, or at the whole entry
      cases dialect with
      | verbose => exact failsWith_error ⟨ParseError.pointsInto_written hkey.1 hkey.2, rfl⟩
      | compact => exact failsWith_error ⟨⟨rfl, hspan⟩, rfl⟩

namespace Descriptor

/-- Parameters fail as one of them does. -/
theorem failsWith_toModels {dialect : Dialect} {descriptors : List Descriptor}
    (h : ∀ d ∈ descriptors, d.FailsInside source) :
    FailsWith (ParseError.IsSyntaxIn source) (toModels dialect source descriptors) := by
  induction descriptors with
  | nil => exact failsWith_ok []
  | cons d descriptors ih =>
    obtain ⟨hd, hdescriptors⟩ := List.forall_mem_cons.mp h
    exact (hd dialect).bind fun m => (ih hdescriptors).bind fun ms => failsWith_ok _

/-- A key that is declared twice is pointed at by its second entry. -/
theorem failsWith_toEntries {dialect : Dialect} {keys : List String}
    {entries : List (Span × DescriptorKey × Descriptor)}
    (h : ∀ entry ∈ entries, EntryInside source entry) :
    FailsWith (ParseError.IsSyntaxIn source) (toEntries dialect source keys entries) := by
  induction entries generalizing keys with
  | nil => exact failsWith_ok []
  | cons entry entries ih =>
    -- the key is decoded first, then its model is made, and a key that is there already is reported
    -- at its own place
    obtain ⟨span, key, d⟩ := entry
    obtain ⟨hentry, hentries⟩ := List.forall_mem_cons.mp h
    refine (DescriptorKey.failsWith_decode hentry.span hentry.key).bind fun name => ?_
    refine (hentry.descriptor dialect).bind fun m => ?_
    split
    · exact failsWith_error ⟨⟨rfl, hentry.span⟩, rfl⟩
    · exact (ih hentries).bind fun more => failsWith_ok _

theorem failsInside_simple (kind : SimpleModel) : (simple kind).FailsInside source :=
  fun _ => failsWith_ok _

variable {d : Descriptor}

theorem FailsInside.nullable (h : d.FailsInside source) : (nullable d).FailsInside source :=
  fun dialect => (h dialect).bind fun _ => failsWith_ok _

theorem FailsInside.array (h : d.FailsInside source) : (array d).FailsInside source :=
  fun dialect => (h dialect).bind fun _ => failsWith_ok _

theorem failsInside_object {entries : List (Span × DescriptorKey × Descriptor)}
    (h : ∀ entry ∈ entries, EntryInside source entry) : (object entries).FailsInside source :=
  fun _ => (failsWith_toEntries h).bind fun _ => failsWith_ok _

/-- A function fails in its parameters or its result. -/
theorem failsInside_function {parameters : List Descriptor}
    (hparameters : ∀ p ∈ parameters, p.FailsInside source) (hresult : d.FailsInside source) :
    (function parameters d).FailsInside source :=
  fun dialect => (failsWith_toModels hparameters).bind fun _ => (hresult dialect).bind fun _ =>
    failsWith_ok _

end Descriptor

/-! ### What is read of descriptors -/

section Reading

variable {ρ : Type} {low : Nat}

/-- A key that is quoted notes where it stands, and a bare one cannot fail. -/
theorem DescriptorKey.staysIn_scan (quotedRule bareRule : ρ) :
    StaysIn source.toList low (scan quotedRule bareRule) (DescriptorKey.IsPlaced source) := by
  refine StaysIn.orElse ?quoted ?bare
  case quoted =>
    refine staysIn_placed (fun given written rest hread => ?_) fun offset written hstart hstop => ?_
    · exact Grammar.append_of_readQuoted hread
    · exact ⟨hstart, hstop⟩
  case bare =>
    refine (staysIn_token (P := fun _ => True) fun given name rest hread => ?_).map fun _ _ => ?_
    · exact ⟨Grammar.append_of_readName hread, trivial⟩
    · trivial

/-- An entry stops where it has been read up to, which is not before its start. -/
theorem DescriptorKey.staysIn_scanEntry (low : Nat) {key : Scan ρ DescriptorKey}
    {type : Scan ρ Descriptor}
    (hkey : ∀ low, StaysIn source.toList low key (DescriptorKey.IsPlaced source))
    (htype : ∀ low, StaysIn source.toList low type (Descriptor.FailsInside source)) :
    StaysIn source.toList low (scanEntry key type) (Descriptor.EntryInside source) := by
  refine staysIn_place_bind fun start hstart => ?_
  refine (hkey start).bind fun key hkey => staysIn_gap.bind fun _ _ => ?_
  refine (staysIn_exactly _).bind fun _ _ => staysIn_gap.bind fun _ _ => ?_
  refine (htype start).bind fun d hd => staysIn_place.bind fun stop hstop => staysIn_pure ?_
  exact ⟨Span.isWithin_of_isBoundary hstop.1 hstart hstop.2, hkey, hd⟩

end Reading

namespace Verbose

variable {low : Nat} {type : Scan Rule Descriptor}
  (htype : ∀ low, StaysIn source.toList low type (Descriptor.FailsInside source))

/-- The words for simple models. -/
theorem staysIn_scanSimple :
    StaysIn source.toList low scanSimple (Descriptor.FailsInside source) := by
  have hword (kind : SimpleModel) : StaysIn source.toList low (scanWord kind) fun _ => True := by
    refine staysIn_token fun given a rest hread => ⟨?_, trivial⟩
    obtain ⟨_, hword, heq⟩ := Option.map_eq_some_iff.mp hread
    cases heq
    exact Grammar.append_of_readWord hword
  -- the words are tried in this order
  have hwords : StaysIn source.toList low
      (firstOf ([.null, .number, .string, .boolean].map scanWord)) fun _ => True := by
    refine staysIn_firstOf ?_
    rw [List.forall_mem_map]
    exact fun kind _ => hword kind
  exact (hwords.bind fun kind _ => staysIn_pure (Descriptor.failsInside_simple kind)).rule

include htype

/-- A word with one type in brackets. -/
theorem staysIn_scanWrapped (word : String) :
    StaysIn source.toList low (scanWrapped word type) (Descriptor.FailsInside source) := by
  refine (staysIn_exactly _).bind fun _ _ => staysIn_gap.bind fun _ _ => ?_
  exact (htype low).enclosed (fun _ hd => hd) ['('] [')']

/-- An object with its entries, each with the span that it was read from. -/
theorem staysIn_scanObject :
    StaysIn source.toList low (scanObject type) (Descriptor.FailsInside source) := by
  have hentry := DescriptorKey.staysIn_scanEntry low
    (fun low => DescriptorKey.staysIn_scan Rule.quotedKey .bareKey) htype
  refine StaysIn.rule ((staysIn_exactly _).bind fun _ _ => staysIn_gap.bind fun _ _ => ?_)
  exact (staysIn_commaSeparated hentry.rule).enclosed
    (fun _ hentries => Descriptor.failsInside_object hentries) ['('] [')']

/-- A function with its parameters and its result. -/
theorem staysIn_scanFunction :
    StaysIn source.toList low (scanFunction type) (Descriptor.FailsInside source) := by
  refine StaysIn.rule ((staysIn_exactly _).bind fun _ _ => staysIn_gap.bind fun _ _ => ?_)
  refine (staysIn_exactly _).bind fun _ _ => staysIn_gap.bind fun _ _ => ?_
  refine (staysIn_commaSeparated (htype low)).bind fun parameters hparameters => ?_
  refine staysIn_gap.bind fun _ _ => (staysIn_exactly _).bind fun _ _ => ?_
  refine staysIn_gap.bind fun _ _ => (htype low).bind fun result hresult => ?_
  exact staysIn_pure (Descriptor.failsInside_function hparameters hresult)

/-- One level of the notation. -/
theorem staysIn_scanType :
    StaysIn source.toList low (scanType type) (Descriptor.FailsInside source) := by
  refine staysIn_firstOf ?_
  simp only [List.forall_mem_cons, List.not_mem_nil, false_imp_iff, implies_true, and_true]
  refine ⟨staysIn_scanSimple, ?nullable, ?array, staysIn_scanObject htype,
    staysIn_scanFunction htype⟩
  case nullable => exact ((staysIn_scanWrapped htype _).map fun d hd => hd.nullable).rule
  case array => exact ((staysIn_scanWrapped htype _).map fun d hd => hd.array).rule

omit htype

/-- **All levels of the notation.** -/
theorem staysIn_scanNested (nesting low : Nat) :
    StaysIn source.toList low (scanNested nesting) (Descriptor.FailsInside source) := by
  induction nesting generalizing low with
  | zero => exact staysIn_refuse
  | succ nesting ih => exact staysIn_scanType ih

/-- **The errors of the verbose notation.** -/
theorem failsWith_parse (source : String) :
    FailsWith (ParseError.IsSyntaxIn source) (parse source) := by
  have hread : StaysIn source.toList 0 (scanWhole source.toList)
      (Descriptor.FailsInside source) := (staysIn_scanNested _ 0).whole
  unfold parse
  cases hrun : run (scanWhole source.toList) source.toList with
  | ok d => exact hread.of_run_eq_ok hrun .verbose
  | error attempts =>
    exact failsWith_error ⟨ParseError.pointsInto_place (hread.of_run_eq_error hrun), rfl⟩

end Verbose

namespace Compact

variable {low : Nat} {type : Scan Rule Descriptor}
  (htype : ∀ low, StaysIn source.toList low type (Descriptor.FailsInside source))

/-- The words for simple models, which end where no name goes on. -/
theorem staysIn_scanWord (kind : SimpleModel) :
    StaysIn source.toList low (scanWord kind) (Descriptor.FailsInside source) := by
  refine (staysIn_token (P := fun _ => True) fun given a rest hread => ?_).map fun kind _ => ?_
  · obtain ⟨_, hword, heq⟩ := Option.map_eq_some_iff.mp hread
    cases heq
    exact ⟨Grammar.append_of_readWord hword, trivial⟩
  · exact Descriptor.failsInside_simple kind

/-- A mark behind a type cannot fail. -/
theorem staysIn_scanMark : StaysIn source.toList low scanMark fun _ => True := by
  refine StaysIn.orElse ?_ (StaysIn.rule ?_)
  · exact (staysIn_sign _).bind fun _ _ => staysIn_pure trivial
  · refine (staysIn_exactly _).bind fun _ _ => staysIn_gap.bind fun _ _ => ?_
    exact (staysIn_exactly _).bind fun _ _ => staysIn_pure trivial

/-- Marks put layers around a type, which do not fail either. -/
theorem failsInside_foldl_apply {base : Descriptor} (h : base.FailsInside source)
    (marks : List Mark) : (marks.foldl Mark.apply base).FailsInside source := by
  induction marks generalizing base with
  | nil => exact h
  | cons mark marks ih =>
    cases mark with
    | optional => exact ih h.nullable
    | array => exact ih h.array

include htype

/-- A function in its brackets. -/
theorem staysIn_scanFunction :
    StaysIn source.toList low (scanFunction type) (Descriptor.FailsInside source) := by
  refine StaysIn.rule ((staysIn_exactly _).bind fun _ _ => staysIn_gap.bind fun _ _ => ?_)
  refine (staysIn_exactly _).bind fun _ _ => staysIn_gap.bind fun _ _ => ?_
  refine (staysIn_commaSeparated (htype low)).bind fun parameters hparameters => ?_
  refine staysIn_gap.bind fun _ _ => (staysIn_exactly _).bind fun _ _ => ?_
  refine staysIn_gap.bind fun _ _ => (htype low).bind fun result hresult => ?_
  refine staysIn_gap.bind fun _ _ => (staysIn_exactly _).bind fun _ _ => ?_
  exact staysIn_pure (Descriptor.failsInside_function hparameters hresult)

/-- An object in its braces. -/
theorem staysIn_scanObject :
    StaysIn source.toList low (scanObject type) (Descriptor.FailsInside source) := by
  have hentry := DescriptorKey.staysIn_scanEntry low
    (fun low => DescriptorKey.staysIn_scan Rule.quotedKey .bareKey) htype
  exact ((staysIn_commaSeparated hentry.rule).enclosed
    (fun _ hentries => Descriptor.failsInside_object hentries) _ _).rule

theorem staysIn_scanGroup :
    StaysIn source.toList low (scanGroup type) (Descriptor.FailsInside source) :=
  (htype low).enclosed (fun _ hd => hd) ['('] [')']

/-- One level of the notation, with the marks behind it. -/
theorem staysIn_scanType :
    StaysIn source.toList low (scanType type) (Descriptor.FailsInside source) := by
  have hbase : StaysIn source.toList low
      (firstOf ([.null, .number, .string, .boolean].map scanWord ++
        [scanFunction type, scanObject type, scanGroup type]))
      (Descriptor.FailsInside source) := by
    refine staysIn_firstOf ?_
    rw [List.forall_mem_append, List.forall_mem_map]
    refine ⟨fun kind _ => staysIn_scanWord kind, ?_⟩
    simp only [List.forall_mem_cons, List.not_mem_nil, false_imp_iff, implies_true, and_true]
    exact ⟨staysIn_scanFunction htype, staysIn_scanObject htype, staysIn_scanGroup htype⟩
  -- marks behind a model wrap it, and what they make fails where the model does
  refine StaysIn.rule (hbase.bind fun base hbase => staysIn_gap.bind fun _ _ => ?_)
  exact (staysIn_many staysIn_scanMark).bind fun marks _ =>
    staysIn_pure (failsInside_foldl_apply hbase marks)

omit htype

theorem staysIn_scanNested (nesting low : Nat) :
    StaysIn source.toList low (scanNested nesting) (Descriptor.FailsInside source) := by
  induction nesting generalizing low with
  | zero => exact staysIn_refuse
  | succ nesting ih => exact staysIn_scanType ih

/-- **The errors of the compact notation.** -/
theorem failsWith_parse (source : String) :
    FailsWith (ParseError.IsSyntaxIn source) (parse source) := by
  have hread : StaysIn source.toList 0 (scanWhole source.toList)
      (Descriptor.FailsInside source) := (staysIn_scanNested _ 0).whole
  unfold parse
  cases hrun : run (scanWhole source.toList) source.toList with
  | ok d => exact hread.of_run_eq_ok hrun .compact
  | error attempts =>
    exact failsWith_error ⟨ParseError.pointsInto_place (hread.of_run_eq_error hrun), rfl⟩

end Compact

/-! ### Whole texts -/

/-- **Errors point into their text.** Whatever a text is made of and whatever the limit on nesting
is, an error about it carries a span of it, which is shown with the error: the span does not run
backwards, does not go past the end, and begins and ends between two characters, so that its start
has a line and a column. Such errors are of syntax, and those of expressions may also be of a limit
that was passed. -/
theorem ParseError.pointsInto_of_parse (source : String) :
    (∀ (limit : Nat) (err : ParseError), Expr.parseWithin limit source = .error err →
      (err.toFailure.kind = .syntaxError ∨ err.toFailure.kind = .resourceExceeded) ∧
        err.toFailure.span = some err.span ∧ err.PointsInto source ∧
          err.span.startsAtBoundary err.source = true) ∧
    ∀ (dialect : Dialect) (err : ParseError), dialect.parse source = .error err →
      err.toFailure.kind = .syntaxError ∧
        err.toFailure.span = some err.span ∧ err.PointsInto source ∧
          err.span.startsAtBoundary err.source = true := by
  -- two facts about all errors, whichever of the parsers they come from
  have hshown (err : ParseError) : err.toFailure.span = some err.span := by
    unfold toFailure
    cases err.cause <;> rfl
  have hrenders {err : ParseError} (h : err.PointsInto source) :
      err.span.startsAtBoundary err.source = true := by
    rw [h.source_eq]
    exact h.within.startsAtBoundary
  constructor
  · intro limit err herr
    have hinside := Expr.failsWith_parseWithin limit source err herr
    refine ⟨?_, hshown err, hinside, hrenders hinside⟩
    by_cases hdeep : err.IsTooDeep
    · exact Or.inr hdeep
    · exact Or.inl (kind_of_not_isTooDeep hdeep)
  · intro dialect err herr
    obtain ⟨hinside, hkind⟩ : err.IsSyntaxIn source := by
      cases dialect with
      | verbose => exact Verbose.failsWith_parse source err herr
      | compact => exact Compact.failsWith_parse source err herr
    exact ⟨hkind, hshown err, hinside, hrenders hinside⟩

/-- An escape that stands for nothing, and a key that is declared twice, with characters of two bytes
inside what is pointed at and before it. -/
theorem ParseError.pointsInto_of_parse_multibyte :
    let text := "x + 'ü\\xé'"
    let descriptor := "object(\"ü\": number, \"ü\": string)"
    (∃ err, Expr.parseWithin 8 text = .error err ∧ err.span = ⟨4, 12⟩ ∧ err.PointsInto text) ∧
      ∃ err, Dialect.verbose.parse descriptor = .error err ∧ err.span = ⟨21, 33⟩ ∧
        err.toFailure.kind = .syntaxError ∧ err.PointsInto descriptor := by
  intro text descriptor
  -- the places are in bytes: the umlaut takes two of them in either text
  have hspan : (match Expr.parseWithin 8 text with
      | .ok _ => false
      | .error err => err.span == ⟨4, 12⟩) = true := by
    decide +kernel
  have hspan' : (match Dialect.verbose.parse descriptor with
      | .ok _ => false
      | .error err => err.span == ⟨21, 33⟩) = true := by
    decide +kernel
  constructor
  · cases herr : Expr.parseWithin 8 text with
    | ok e =>
      rw [herr] at hspan
      cases hspan
    | error err =>
      rw [herr] at hspan
      obtain ⟨-, -, hinside, -⟩ := (ParseError.pointsInto_of_parse text).1 8 err herr
      exact ⟨err, rfl, beq_iff_eq.mp hspan, hinside⟩
  · cases herr : Dialect.verbose.parse descriptor with
    | ok m =>
      rw [herr] at hspan'
      cases hspan'
    | error err =>
      rw [herr] at hspan'
      obtain ⟨hkind, -, hinside, -⟩ :=
        (ParseError.pointsInto_of_parse descriptor).2 .verbose err herr
      exact ⟨err, rfl, beq_iff_eq.mp hspan', hkind, hinside⟩

end CheckedExpr
