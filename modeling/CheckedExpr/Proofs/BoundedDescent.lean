import CheckedExpr.Proofs.ChainReading
import CheckedExpr.Proofs.DepthCutoff
import CheckedExpr.Proofs.ScanAgreement

/-!
# Counting brackets bounds the descent

Reading a text goes down one level for each chain inside a chain, also for those that are tried and
given up. Whether a text is well formed is not known then, and the count of brackets does not know
it either: it does not tell the kinds of brackets apart, and it takes every colon for a closing one.
Still it bounds the descent. A chain is only tried behind an opening character, and at that place
the count has gone up; the count comes down again only where the grammar leaves the chain or gives
up the text. So a text that keeps the limit is read in the same way whatever is done inside of one
chain more than the limit allows for, since nothing ever is.

* `scanNestedOver`: the descent with anything at all below the levels that are looked at.
* `agree_scanChain`: one level. What stands behind an opening character has room for one level less.
* `agree_scanNestedOver`: by induction on the levels, what lies below them does not matter.
* `scanUnbounded`: the descent without a bound, the only solution of the equation of the grammar.
* `descent_bounded`: counting brackets bounds the descent, for every text.
-/

namespace CheckedExpr

open Scan

/-! ### Room for more levels -/

namespace Brackets

variable {limit depth : Nat}

/-- Whether a text with some open levels before it keeps a limit. -/
def Room (limit depth : Nat) (text : List Char) : Prop := deepest none depth text ≤ limit

/-- Gaps open no levels. -/
theorem room_clear (text : List Char) (h : Room limit depth text) :
    Room limit depth (clear text) := by
  unfold Room
  rwa [deepest_clear]

theorem room_of_comma (text : List Char) (h : Room limit depth (',' :: text)) :
    Room limit depth text := by
  unfold Room at h
  rwa [deepest_cons_of_notMem (by decide)] at h

/-- No text has room where the limit is passed already. -/
theorem not_room (h : limit < depth) (text : List Char) : ¬ Room limit depth text := by
  intro hroom
  have hle := le_deepest none depth text
  unfold Room at hroom
  omega

/-- Each character opens one level at most. -/
theorem deepest_le_length (quote : Option Char) (depth : Nat) (text : List Char) :
    deepest quote depth text ≤ depth + text.length := by
  fun_induction deepest quote depth text with
  | case1 => exact Nat.le_refl _
  | _ => simp only [List.length_cons] at *; omega

/-- So a text has room where as many levels are allowed as it has characters. -/
theorem room_length (text : List Char) : Room text.length 0 text := by
  have hle := deepest_le_length none 0 text
  unfold Room
  omega

end Brackets

namespace Chain

open Brackets

section Levels

variable {limit depth : Nat} {inner inner' : Scan ExprRule Chain}

/-- A scan that reads no brackets agrees with itself. -/
theorem agree_of_deepest_eq {α : Type} {scan : Scan ExprRule α}
    (h : ∀ text a rest, scan.Accepts text a rest →
      deepest none depth text = deepest none depth rest) :
    Agree (Room limit depth) (Room limit depth) scan scan := by
  refine agree_self fun text a rest hroom ha => ?_
  unfold Room
  rwa [← h text a rest ha]

/-- Between brackets there is one level less. A question mark counts only if it stands alone. -/
theorem agree_bracketed {α : Type} {body body' : Scan ExprRule α} {opening closing : Char}
    (hopening : isOpening opening = true) (hclosing : isClosing closing = true)
    (h : Agree (Room limit (depth + 1)) (Room limit (depth + 1)) body body') :
    Agree (fun text => Room limit depth text ∧
        (opening = '?' → ∀ more, text ≠ '?' :: '?' :: more)) (Room limit depth)
      (do exactly [opening]; gap; let a ← body; gap; exactly [closing]; return a)
      (do exactly [opening]; gap; let a ← body'; gap; exactly [closing]; return a) := by
  have hgap : Agree (Room limit (depth + 1)) (Room limit (depth + 1))
      (gap : Scan ExprRule Unit) gap := agree_gap room_clear
  -- one level more is open behind the opening bracket
  have hopen : Agree (fun text => Room limit depth text ∧
      (opening = '?' → ∀ more, text ≠ '?' :: '?' :: more)) (Room limit (depth + 1))
      (exactly [opening] : Scan ExprRule Unit) (exactly [opening]) := by
    refine agree_self fun text u rest hroom hread => ?_
    obtain ⟨hroom, hsingle⟩ := hroom
    rw [hread.of_exactly] at hroom hsingle
    unfold Room at hroom ⊢
    rwa [← deepest_opening hopening]
    rintro rfl more rfl
    exact hsingle rfl more rfl
  -- and one level less behind the closing one
  have hclose : Agree (Room limit (depth + 1)) (Room limit depth)
      (exactly [closing] : Scan ExprRule Unit) (exactly [closing]) := by
    refine agree_self fun text u rest hroom hread => ?_
    rw [hread.of_exactly] at hroom
    unfold Room at hroom ⊢
    rw [List.singleton_append, deepest_closing hclosing] at hroom
    exact Nat.le_trans (Nat.le_max_right _ _) hroom
  refine hopen.bind fun _ => hgap.bind fun _ => h.bind fun a => hgap.bind fun _ => ?_
  exact hclose.bind fun _ => agree_pure a

/-- An operator opens nothing, though one of them begins like the middle of a choice. -/
theorem agree_scanOperator (op : InfixOp) :
    Agree (Room limit depth) (Room limit depth) (scanOperator op) (scanOperator op) := by
  refine agree_of_deepest_eq fun text op' rest h => ?_
  rw [append_of_readSpelling (accepts_scanOperator h).2]
  exact deepest_spelling op

/-- A sign opens nothing. -/
theorem agree_scanSign : Agree (Room limit depth) (Room limit depth) scanSign scanSign := by
  refine agree_of_deepest_eq fun text op rest h => ?_
  rw [accepts_scanSign h]
  refine deepest_append_of_notMem ?_
  cases op <;> exact List.all_iff_forall_prop.mp (by decide)

section Inside

variable (h : Agree (Room limit (depth + 1)) (Room limit (depth + 1)) inner inner')

include h

/-- A chain in brackets has one level less. -/
theorem agree_scanEnclosed {opening closing : Char} (hopening : isOpening opening = true)
    (hclosing : isClosing closing = true) :
    Agree (fun text => Room limit depth text ∧
        (opening = '?' → ∀ more, text ≠ '?' :: '?' :: more)) (Room limit depth)
      (scanEnclosed opening closing inner) (scanEnclosed opening closing inner') :=
  agree_bracketed hopening hclosing h

theorem agree_scanList {opening closing : Char} (hopening : isOpening opening = true)
    (hclosing : isClosing closing = true) (hmark : opening ≠ '?') :
    Agree (Room limit depth) (Room limit depth) (scanList opening closing inner)
      (scanList opening closing inner') := by
  have hchains := h.commaSeparated room_clear room_of_comma
  exact (agree_bracketed hopening hclosing hchains).mono
    fun text hroom => ⟨hroom, fun hsame => absurd hsame hmark⟩

/-! ### The parts of a chain -/

/-- The middle of a choice has one level less, and operators take none. -/
theorem agree_scanJoint :
    Agree (Room limit depth) (Room limit depth) (scanJoint inner) (scanJoint inner') := by
  rw [scanJoint_eq, scanJoint_eq]
  have hoperators (ops : List InfixOp) : List.Forall₂ (Agree (Room limit depth) (Room limit depth))
      (ops.map fun op => (Joint.operator <$> scanOperator op : Scan ExprRule (Joint Chain)))
      (ops.map fun op => Joint.operator <$> scanOperator op) := by
    rw [List.forall₂_map_left_iff, List.forall₂_map_right_iff, List.forall₂_same]
    exact fun op _ => (agree_scanOperator op).map _
  -- behind the first operator, which is `??`, a question mark stands alone
  refine Agree.orElse ((agree_scanOperator _).map _) (Agree.orElse ?choice ?operators)
  case choice =>
    refine (((agree_scanEnclosed h rfl rfl).map _).rule _).mono fun text hroom => ?_
    refine ⟨hroom.1, fun _ more hmore => ?_⟩
    have hnullish := declines_scanOperator hroom.2.of_map
    rw [hmore] at hnullish
    cases hnullish
  case operators =>
    exact (agree_firstOf (hoperators operatorOrder)).mono fun text hroom => hroom.1.1

/-- A suffix is a bracket with chains inside, or a name behind a point. -/
theorem agree_scanSuffix :
    Agree (Room limit depth) (Room limit depth) (scanSuffix inner) (scanSuffix inner') := by
  refine agree_firstOf (.cons ?call (.cons ?index (.cons ?field .nil)))
  case call => exact ((agree_scanList h rfl rfl (by decide)).map _).rule _
  case index =>
    refine (((agree_scanEnclosed h rfl rfl).map _).rule _).mono fun text hroom => ?_
    exact ⟨hroom, fun hsame => absurd hsame (by decide)⟩
  case field =>
    -- neither the point nor the name opens anything
    have hpoint : Agree (Room limit depth) (Room limit depth)
        (exactly ['.'] : Scan ExprRule Unit) (exactly ['.']) := by
      refine agree_of_deepest_eq fun text u rest hread => ?_
      rw [hread.of_exactly]
      exact deepest_cons_of_notMem (by decide)
    have hname : Agree (Room limit depth) (Room limit depth)
        (token ExprRule.property Grammar.readName id) (token .property Grammar.readName id) :=
      agree_of_deepest_eq fun text name rest hread => deepest_of_readName hread.of_token
    refine (hpoint.bind fun _ => (agree_gap room_clear).bind fun _ => ?_).rule _
    exact hname.bind fun name => agree_pure (Suffix.field name)

/-- Brackets aside, a term opens nothing: not even brackets in a quoted text count. -/
theorem agree_scanTerm :
    Agree (Room limit depth) (Room limit depth) (scanTerm inner) (scanTerm inner') := by
  -- both terms have the same literals, which open no brackets
  have hword {r : ExprRule} {word : String} {term : Term}
      (hplain : ∀ c ∈ word.toList, c ∉ special) :
      Agree (Room limit depth) (Room limit depth) (scanKeyword r word term)
        (scanKeyword r word term) := by
    refine agree_of_deepest_eq fun text term' rest hread => ?_
    rw [Grammar.append_of_readWord (accepts_scanKeyword hread).2]
    exact deepest_append_of_notMem hplain
  refine agree_firstOf (.cons ?number (.cons ?text (.cons ?true (.cons ?false (.cons ?null
    (.cons ?this (.cons ?array (.cons ?group (.cons ?name .nil)))))))))
  case number =>
    refine agree_of_deepest_eq fun text term rest hread => ?_
    obtain ⟨n, hn, rfl⟩ := hread.of_map
    exact deepest_of_readNumeral hn.of_token
  case text =>
    refine agree_of_deepest_eq fun text term rest hread => ?_
    obtain ⟨_, _, _, -, hquote, hwritten⟩ := accepts_scanText hread
    exact deepest_of_readQuoted hquote hwritten
  case true | false | null | this => exact hword (List.all_iff_forall_prop.mp (by decide))
  case array => exact ((agree_scanList h rfl rfl (by decide)).map _).rule _
  case group =>
    refine (((agree_scanEnclosed h rfl rfl).map _).rule _).mono fun text hroom => ?_
    exact ⟨hroom, fun hsame => absurd hsame (by decide)⟩
  case name =>
    refine agree_of_deepest_eq fun text term rest hread => ?_
    obtain ⟨name, hname, rfl⟩ := hread.of_map
    exact deepest_of_readName (Option.filter_eq_some_iff.mp hname.of_token).1

/-- An operand keeps the room that its signs, its term and its suffixes have. -/
theorem agree_scanOperand :
    Agree (Room limit depth) (Room limit depth) (scanOperand inner) (scanOperand inner') := by
  refine (agree_scanSign.many room_clear).bind fun signs => (agree_gap room_clear).bind fun _ => ?_
  refine (agree_scanTerm h).bind fun term => (agree_gap room_clear).bind fun _ => ?_
  refine ((agree_scanSuffix h).many room_clear).bind fun suffixes => ?_
  exact agree_pure (Operand.mk signs term suffixes)

theorem agree_scanLink :
    Agree (Room limit depth) (Room limit depth) (scanLink inner) (scanLink inner') := by
  refine (agree_scanJoint h).bind fun joint => (agree_gap room_clear).bind fun _ => ?_
  exact (agree_scanOperand h).bind fun operand => agree_pure (joint, operand)

/-- **One level.** Chains agree where those inside them agree with one level more open. -/
theorem agree_scanChain :
    Agree (Room limit depth) (Room limit depth) (scanChain inner) (scanChain inner') := by
  refine Agree.rule (agree_place.bind fun offset => ?_) _
  refine (agree_scanOperand h).bind fun first => (agree_gap room_clear).bind fun _ => ?_
  refine ((agree_scanLink h).many room_clear).bind fun links => ?_
  exact agree_pure (Chain.mk offset first links)

end Inside

end Levels

/-! ### All levels -/

/-- Reads a chain with `levels` levels of chains, itself included, and does anything at all in place
of a chain inside them. -/
def scanNestedOver (beyond : Scan ExprRule Chain) : (levels : Nat) → Scan ExprRule Chain
  | 0 => beyond
  | levels + 1 => scanChain (scanNestedOver beyond levels)

/-- The program does nothing in place of the chains that lie below its levels: it refuses them. -/
theorem scanNested_eq (levels : Nat) : scanNested levels = scanNestedOver refuse levels := by
  induction levels with
  | zero => rfl
  | succ levels ih => rw [scanNested, scanNestedOver, ih]

/-- **What lies below the levels does not matter.** If there are as many levels as the limit allows
for, and one, it is all the same how many there are, and what is done inside of them. -/
theorem agree_scanNestedOver {limit depth levels levels' : Nat}
    (beyond beyond' : Scan ExprRule Chain) (h : limit < depth + levels)
    (h' : limit < depth + levels') :
    Agree (Room limit depth) (Room limit depth) (scanNestedOver beyond levels)
      (scanNestedOver beyond' levels') := by
  -- by induction on the levels: with each of them, one bracket more is open
  induction levels generalizing depth levels' with
  | zero => exact agree_of_not (not_room h)
  | succ levels ih =>
    cases levels' with
    | zero => exact agree_of_not (not_room h')
    | succ levels' => exact agree_scanChain (ih (by omega) (by omega))

/-! ### The descent without a bound -/

/-- Reads a chain with any number of levels. A text has no more levels than characters. -/
def scanUnbounded : Scan ExprRule Chain := fun cursor => scanNested (cursor.rest.length + 1) cursor

/-- The levels that the limit allows for, and one, are as good as all of them. -/
theorem agree_scanUnbounded {limit depth levels : Nat} (beyond : Scan ExprRule Chain)
    (h : limit < depth + levels) :
    Agree (Room limit depth) (Room limit depth) (scanNestedOver beyond levels) scanUnbounded := by
  refine ⟨?same, (agree_scanNestedOver beyond beyond h h).leaves⟩
  case same =>
    intro cursor attempts hroom
    -- both are the descent with the greater one of their two numbers of levels
    let most := max levels (cursor.rest.length + 1)
    have hlevels : scanNestedOver beyond levels cursor attempts =
        scanNestedOver refuse most cursor attempts :=
      (agree_scanNestedOver beyond refuse h (by omega)).same cursor attempts hroom
    have hlength : scanNestedOver refuse (cursor.rest.length + 1) cursor attempts =
        scanNestedOver refuse most cursor attempts :=
      (agree_scanNestedOver refuse refuse (by omega) (by omega)).same cursor attempts
        (room_length cursor.rest)
    rw [hlevels, ← hlength, ← scanNested_eq]
    rfl

/-- The descent without a bound reads a chain by the rule of chains, and what is inside of it in the
same way. -/
theorem scanChain_scanUnbounded : scanChain scanUnbounded = scanUnbounded := by
  funext cursor attempts
  have hinner : Agree (Room cursor.rest.length 1) (Room cursor.rest.length 1)
      (scanNestedOver refuse cursor.rest.length) scanUnbounded :=
    agree_scanUnbounded refuse (by omega)
  have hchain := (agree_scanChain hinner).same cursor attempts (room_length cursor.rest)
  rw [← hchain, ← scanNested_eq]
  rfl

/-- Nothing else does. -/
theorem eq_scanUnbounded {whole : Scan ExprRule Chain} (h : scanChain whole = whole) :
    whole = scanUnbounded := by
  have hlevels (levels : Nat) : scanNestedOver whole levels = whole := by
    -- a solution may be put in its own place as often as there are levels
    induction levels with
    | zero => rfl
    | succ levels ih => rw [scanNestedOver, ih, h]
  funext cursor attempts
  have hagree : Agree (Room cursor.rest.length 0) (Room cursor.rest.length 0)
      (scanNestedOver whole (cursor.rest.length + 1)) scanUnbounded :=
    agree_scanUnbounded whole (by omega)
  rw [hlevels] at hagree
  exact hagree.same cursor attempts (room_length cursor.rest)

/-! ### Whole texts -/

/-- Reads a whole text, given how to read a chain. -/
def scanScriptOf (chain : Scan ExprRule Chain) : Scan ExprRule (List Chain) :=
  rule .script do
    gap
    let chains ← commaSeparated chain
    gap
    finish .finish
    return chains

theorem scanScript_eq (levels : Nat) : scanScript levels = scanScriptOf (scanNested levels) := rfl

/-- A whole text agrees where its chains do. -/
theorem agree_scanScriptOf {limit : Nat} {chain chain' : Scan ExprRule Chain}
    (h : Agree (Room limit 0) (Room limit 0) chain chain') :
    Agree (Room limit 0) (fun _ => True) (scanScriptOf chain) (scanScriptOf chain') := by
  have hfinish : Agree (Room limit 0) (fun _ => True) (finish ExprRule.finish)
      (finish ExprRule.finish) := agree_self fun _ _ _ _ _ => trivial
  -- the gaps, the commas and the end of the text open no levels
  refine Agree.rule ((agree_gap room_clear).bind fun _ => ?_) _
  refine (h.commaSeparated room_clear room_of_comma).bind fun chains => ?_
  refine (agree_gap room_clear).bind fun _ => hfinish.bind fun _ => ?_
  exact agree_pure chains

/-- **Counting brackets bounds the descent.** The descent without a bound exists and is unique. On a
text that keeps a limit, well formed or not, it has at no time more chains inside one another than
the limit and one: it is all the same what would be done inside of them. The outcome is compared as
a whole, with the attempts, in which also alternatives show that were given up. So the program may
as well read with that many levels. -/
theorem descent_bounded :
    scanChain scanUnbounded = scanUnbounded ∧
    (∀ whole : Scan ExprRule Chain, scanChain whole = whole → whole = scanUnbounded) ∧
    ∀ (source : String) (limit : Nat), Brackets.firstExcess? limit source.toList = none →
      (∀ (beyond : Scan ExprRule Chain) (attempts : Attempts ExprRule),
        scanScriptOf (scanNestedOver beyond (limit + 1)) (Cursor.start source.toList) attempts =
          scanScriptOf scanUnbounded (Cursor.start source.toList) attempts) ∧
      Scan.run (scanScript (limit + 1)) source.toList =
        Scan.run (scanScriptOf scanUnbounded) source.toList ∧
      ofText source = (Scan.run (scanScript (limit + 1)) source.toList).mapError
        (.ofAttempts vocabulary source) := by
  refine ⟨scanChain_scanUnbounded, fun _ => eq_scanUnbounded, ?bounded⟩
  case bounded =>
    intro source limit hbrackets
    have hroom : Room limit 0 source.toList := firstExcess?_eq_none_iff.mp hbrackets
    have hscript (beyond : Scan ExprRule Chain) {limit : Nat} (hroom : Room limit 0 source.toList)
        (attempts : Attempts ExprRule) :
        scanScriptOf (scanNestedOver beyond (limit + 1)) (Cursor.start source.toList) attempts =
          scanScriptOf scanUnbounded (Cursor.start source.toList) attempts :=
      (agree_scanScriptOf (agree_scanUnbounded beyond (by omega))).same _ attempts hroom
    -- a run is the outcome from the beginning of the text, where nothing was attempted
    have hrun {limit : Nat} (hroom : Room limit 0 source.toList) :
        Scan.run (scanScript (limit + 1)) source.toList =
          Scan.run (scanScriptOf scanUnbounded) source.toList := by
      unfold Scan.run
      rw [scanScript_eq, scanNested_eq, hscript refuse hroom]
    refine ⟨fun beyond => hscript beyond hroom, hrun hroom, ?_⟩
    unfold ofText
    rw [hrun hroom, hrun (room_length source.toList)]
    cases Scan.run (scanScriptOf scanUnbounded) source.toList with
    | ok chains => rfl
    | error attempts => rfl

/-- A text that ends inside of an array, and in which a quoted text and a pair of question marks
hide some characters from the count. Its three levels of brackets are kept by a limit of three, and
with one level less it makes a difference what is done inside of them. -/
theorem descent_bounded_unclosed :
    let source := "(a ? [b ?? ':(('"
    Brackets.firstExcess? 3 source.toList = none ∧
    (∀ (beyond : Scan ExprRule Chain) (attempts : Attempts ExprRule),
      scanScriptOf (scanNestedOver beyond 4) (Cursor.start source.toList) attempts =
        scanScriptOf scanUnbounded (Cursor.start source.toList) attempts) ∧
    ∃ beyond beyond' : Scan ExprRule Chain,
      scanScriptOf (scanNestedOver beyond 3) (Cursor.start source.toList) .empty ≠
        scanScriptOf (scanNestedOver beyond' 3) (Cursor.start source.toList) .empty := by
  intro source
  have hbrackets : Brackets.firstExcess? 3 source.toList = none := by decide
  refine ⟨hbrackets, (descent_bounded.2.2 source 3 hbrackets).1,
    refuse, fun _ _ => (none, ⟨99, []⟩), fun hsame => ?_⟩
  -- the attempts of the second one reach further than the text
  have hoffset := congrArg (fun outcome => outcome.2.offset) hsame
  revert hoffset
  decide +kernel

end Chain

end CheckedExpr
