import CheckedExpr.Proofs.ChainSyntax
import CheckedExpr.Proofs.InferenceFailures
import CheckedExpr.Proofs.MakingRules
import CheckedExpr.Proofs.UnsignedNumbers

/-!
# The shape of expressions that are parsed

A caller can build trees that no text stands for. Those that are parsed have a shape: a sequence
stands at the root only, and it never has a single expression; operators stand before their operand,
properties are names, names are no keywords, and numbers are not below zero. None of this is
tested when a tree is made. It follows from what the grammar reads: a name is read where nothing
else is, a keyword is a name only behind a point, and a minus sign is an operator.

* `Expr.Written`: expressions that can be written, without a sequence in them.
* `Chain.makesWritten_scanChain`: one level. What is made of a chain that was read can be written if
  what is made of the chains inside it can.
* `Expr.Written.failsWith_infer`: inference never blames such an expression for its shape.
* `Expr.parsed_of_parseWithin`: the shape, and what follows for inference.
-/

namespace CheckedExpr

open Scan

/-! ### Names -/

namespace Grammar

/-- Whether a text is a name: a letter, an underscore or a dollar sign, and then such characters and
digits. -/
def IsName (text : List Char) : Prop :=
  ∃ c cs, text = c :: cs ∧ isNameStart c = true ∧ ∀ d ∈ cs, isNameChar d = true

/-- A name is read as one. -/
theorem isName_of_readName {text name rest : List Char} (h : readName text = some (name, rest)) :
    IsName name := by
  cases text with
  | nil => cases h
  | cons c cs =>
    simp only [readName] at h
    split at h
    next hstart =>
      cases h
      exact ⟨c, _, rfl, hstart, fun d hd => List.mem_takeWhile_imp hd⟩
    next => cases h

end Grammar

/-- A name that stands for itself is no keyword. -/
theorem Chain.isName_of_readIdentifier {text name rest : List Char}
    (h : readIdentifier text = some (name, rest)) : Grammar.IsName name ∧ name ∉ keywords := by
  obtain ⟨hread, hkeyword⟩ := Option.filter_eq_some_iff.mp h
  refine ⟨Grammar.isName_of_readName hread, fun hmem => ?_⟩
  simp [hmem] at hkeyword

/-! ### Expressions that can be written -/

namespace Expr

/-- Whether an expression is of a shape that can be written, without a sequence in it. -/
inductive Written : Expr → Prop
  | array {elements : List Expr} (h : ∀ e ∈ elements, Written e) : Written (.array elements)
  | binary {op : BinaryOp} {left right : Expr} (hleft : Written left) (hright : Written right) :
    Written (.binary op left right)
  | call {callee : Expr} {arguments : List Expr} (hcallee : Written callee)
    (h : ∀ e ∈ arguments, Written e) : Written (.call callee arguments)
  | conditional {test consequent alternate : Expr} (htest : Written test)
    (hconsequent : Written consequent) (halternate : Written alternate) :
    Written (.conditional test consequent alternate)
  | identifier {name : String} (h : Grammar.IsName name.toList)
    (hkeyword : name.toList ∉ Chain.keywords) : Written (.identifier name)
  | number {x : Float} (h : 0 ≤ x ∧ x.isNaN = false) : Written (.literal (.number x))
  | string (s : String) : Written (.literal (.string s))
  | boolean (b : Bool) : Written (.literal (.boolean b))
  | null : Written (.literal .null)
  | logical {op : LogicalOp} {left right : Expr} (hleft : Written left) (hright : Written right) :
    Written (.logical op left right)
  | index {object key : Expr} (hobject : Written object) (hkey : Written key) :
    Written (.member true object key)
  /-- A property may be a keyword. -/
  | field {object : Expr} {name : String} (hobject : Written object)
    (h : Grammar.IsName name.toList) : Written (.member false object (.identifier name))
  | this : Written .this
  | unary {op : UnaryOp} {argument : Expr} (h : Written argument) :
    Written (.unary op argument true)

/-- Whether an expression is of a shape that a text can stand for: one that can be written, or a
sequence of some that can, of which there is not exactly one. -/
def Parsed (e : Expr) : Prop :=
  e.Written ∨ ∃ body, e = .sequence body ∧ body.length ≠ 1 ∧ ∀ a ∈ body, a.Written

/-- Signs stand before their operand. -/
theorem written_foldr_unary {e : Expr} (h : e.Written) (signs : List UnaryOp) :
    (signs.foldr (fun op a => unary op a true) e).Written := by
  induction signs with
  | nil => exact h
  | cons op signs ih => exact .unary ih

end Expr

/-- An operator between two expressions that can be written makes one that can. -/
theorem InfixOp.written_node (op : InfixOp) {l r : Expr} (hl : l.Written) (hr : r.Written) :
    (op.node l r).Written := by
  cases op with
  | binary op => exact .binary hl hr
  | logical op => exact .logical hl hr

/-- What a grouping is made of can be written if what its operands and middles are made of can. -/
theorem Grouping.written_of_fold {tree : Grouping Chain Operand}
    {build : Chain → Except ParseError Expr} {make : Operand → Except ParseError Expr} {e : Expr}
    (hbuild : ∀ joint ∈ tree.joints, ∀ middle, joint = .choice middle →
      ∀ m, build middle = .ok m → m.Written)
    (hmake : ∀ operand ∈ tree.operands, ∀ a, make operand = .ok a → a.Written)
    (h : (tree.map build make).fold id Joint.toExpr = .ok e) : e.Written := by
  -- along the tree, as every node is made of what its two sides make
  induction tree generalizing e with
  | operand a => exact hmake a (by simp [operands]) e h
  | joined joint left right ihleft ihright =>
    rw [joints, List.forall_mem_append, List.forall_mem_cons] at hbuild
    rw [operands, List.forall_mem_append] at hmake
    obtain ⟨hbuildLeft, hmiddle, hbuildRight⟩ := hbuild
    obtain ⟨hmakeLeft, hmakeRight⟩ := hmake
    cases joint with
    | operator op =>
      obtain ⟨l, hl, r, hr, rfl⟩ := Joint.toExpr_operator_eq_ok_iff.mp h
      exact op.written_node (ihleft hbuildLeft hmakeLeft hl) (ihright hbuildRight hmakeRight hr)
    | choice middle =>
      obtain ⟨m, hm, l, hl, r, hr, rfl⟩ := Joint.toExpr_choice_eq_ok_iff.mp h
      exact .conditional (ihleft hbuildLeft hmakeLeft hl) (hmiddle middle rfl m hm)
        (ihright hbuildRight hmakeRight hr)

/-! ### Chains that are read -/

namespace Chain

section Levels

variable {source : String} {limit depth : Nat} {inner : Scan ExprRule Chain}
  {text rest : List Char}

/-- Whether what is made of the chains that a scan accepts can be written. -/
def MakesWritten (inner : Scan ExprRule Chain) : Prop :=
  ∀ ⦃text c rest source limit depth e⦄, inner.Accepts text c rest →
    c.toExpr source limit depth = .ok e → e.Written

/-- What is made of several chains can be written. -/
theorem written_of_forall₂ {cs : List Chain} {es : List Expr} (hinner : MakesWritten inner)
    (hcs : ∀ c ∈ cs, ∃ text rest, inner.Accepts text c rest)
    (h : List.Forall₂ (fun c e => c.toExpr source limit depth = .ok e) cs es) :
    ∀ e ∈ es, e.Written := by
  refine forall_of_forall₂ h fun c hc e he => ?_
  obtain ⟨_, _, hc⟩ := hcs c hc
  exact hinner hc he

theorem written_of_scanList {opening closing : Char} {cs : List Chain} {es : List Expr}
    (hinner : MakesWritten inner) (h : (scanList opening closing inner).Accepts text cs rest)
    (hes : List.Forall₂ (fun c e => c.toExpr source limit depth = .ok e) cs es) :
    ∀ e ∈ es, e.Written := by
  obtain ⟨_, _, -, hchains, -⟩ := accepts_scanList h
  exact written_of_forall₂ hinner hchains.exists_of_commaSeparated hes

theorem written_of_scanEnclosed {opening closing : Char} {c : Chain} {e : Expr}
    (hinner : MakesWritten inner) (h : (scanEnclosed opening closing inner).Accepts text c rest)
    (hmade : c.toExpr source limit depth = .ok e) : e.Written := by
  obtain ⟨_, _, -, hchain, -⟩ := accepts_scanEnclosed h
  exact hinner hchain hmade

/-- **A term can be written**: a number has no sign, and a name is no keyword. -/
theorem written_of_term {term : Term} {e : Expr} (hinner : MakesWritten inner)
    (h : TermText inner text term rest) (hmade : term.toExpr source limit depth = .ok e) :
    e.Written := by
  cases h with
  | number hn =>
    obtain rfl := Except.ok.inj hmade
    exact .number (Numeral.unsigned_value _).nonneg
  | text hquote hwritten =>
    obtain ⟨s, -, rfl⟩ := Term.toExpr_text_eq_ok_iff.mp hmade
    exact .string _
  | word hword hread =>
    simp only [wordTerms, List.mem_cons, Prod.mk.injEq, List.not_mem_nil, or_false] at hword
    rcases hword with ⟨-, rfl⟩ | ⟨-, rfl⟩ | ⟨-, rfl⟩ | ⟨-, rfl⟩
    all_goals obtain rfl := Except.ok.inj hmade
    · exact .boolean true
    · exact .boolean false
    · exact .null
    · exact .this
  | array helements =>
    obtain ⟨es, hes, rfl⟩ := Term.toExpr_array_eq_ok_iff.mp hmade
    exact .array (written_of_scanList hinner helements hes)
  | group hc => exact written_of_scanEnclosed hinner hc hmade
  | name hname =>
    obtain rfl := Except.ok.inj hmade
    -- a name is read as an identifier only if it is no keyword
    obtain ⟨hname, hkeyword⟩ := isName_of_readIdentifier hname
    exact .identifier (by rwa [String.toList_ofList]) (by rwa [String.toList_ofList])

/-- A suffix with a name behind a point can be any name, also a keyword. -/
theorem written_of_suffix {s : Suffix} {x : Except ParseError Expr} {e : Expr}
    (hinner : MakesWritten inner) (h : SuffixText inner text s rest)
    (hx : ∀ a, x = .ok a → a.Written) (hmade : s.toExpr source limit depth x = .ok e) :
    e.Written := by
  cases h with
  | call harguments =>
    obtain ⟨es, hes, a, ha, rfl⟩ := Suffix.toExpr_call_eq_ok_iff.mp hmade
    exact .call (hx a ha) (written_of_scanList hinner harguments hes)
  | index hkey =>
    obtain ⟨k, hk, a, ha, rfl⟩ := Suffix.toExpr_index_eq_ok_iff.mp hmade
    exact .index (hx a ha) (written_of_scanEnclosed hinner hkey hk)
  | field hname =>
    obtain ⟨a, ha, rfl⟩ := Suffix.toExpr_field_eq_ok_iff.mp hmade
    -- behind a point any name may stand, a keyword as well
    have hname := Grammar.isName_of_readName hname
    exact .field (hx a ha) (by rwa [String.toList_ofList])

/-- Suffixes of what can be written can be written. -/
theorem written_of_suffixesToExpr {suffixes : List Suffix} {x : Except ParseError Expr} {e : Expr}
    (hinner : MakesWritten inner) (hx : ∀ a, x = .ok a → a.Written)
    (hsuffixes : ∀ s ∈ suffixes, ∃ text rest, (scanSuffix inner).Accepts text s rest)
    (h : suffixesToExpr source limit depth x suffixes = .ok e) : e.Written := by
  -- from left to right, each suffix stands behind something that can be written
  induction suffixes generalizing x with
  | nil => exact hx e h
  | cons s suffixes ih =>
    obtain ⟨⟨_, _, hs⟩, hsuffixes⟩ := List.forall_mem_cons.mp hsuffixes
    rw [suffixesToExpr] at h
    exact ih (fun a ha => written_of_suffix hinner (accepts_scanSuffix hs) hx ha) hsuffixes h

/-- So can an operand with its signs and suffixes. -/
theorem written_of_scanOperand {operand : Operand} {e : Expr} (hinner : MakesWritten inner)
    (h : (scanOperand inner).Accepts text operand rest)
    (hmade : operand.toExpr source limit depth = .ok e) : e.Written := by
  obtain ⟨signs, term, suffixes, mid, behind, rfl, -, hterm, hsuffixes⟩ := accepts_scanOperand h
  obtain ⟨a, ha, rfl⟩ := Operand.toExpr_mk_eq_ok_iff.mp hmade
  refine Expr.written_foldr_unary ?_ signs
  refine written_of_suffixesToExpr hinner (fun t ht => ?_) hsuffixes.exists_of_many ha
  exact written_of_term hinner hterm ht

/-- A joint has nothing that is made of it but the middle of a choice. -/
theorem written_of_joint {joint : Joint Chain} (hinner : MakesWritten inner)
    (h : JointText inner text joint rest) :
    ∀ middle, joint = .choice middle → ∀ m, middle.toExpr source limit depth = .ok m →
      m.Written := by
  rintro middle rfl m hm
  cases h with
  | choice _ hmiddle => exact written_of_scanEnclosed hinner hmiddle hm

/-- **One level.** What is made of a chain can be written if what is made of those inside it can. -/
theorem makesWritten_scanChain (hinner : MakesWritten inner) :
    MakesWritten (scanChain inner) := by
  intro text c rest source limit depth e h hmade
  obtain ⟨offset, first, links, mid, rfl, hfirst, hlinks⟩ := accepts_scanChain h
  obtain ⟨-, hfold⟩ := toExpr_mk_eq_ok_iff.mp hmade
  -- what the grouping makes is written if its parts are
  refine Grouping.written_of_fold ?middles ?operands hfold
  case middles =>
    rw [Grouping.joints_ofLinks, List.forall_mem_map]
    intro link hlink
    obtain ⟨_, _, haccepts⟩ := hlinks.exists_of_many link hlink
    obtain ⟨_, hjoint, -⟩ := accepts_scanLink haccepts
    exact written_of_joint hinner hjoint
  case operands =>
    -- the first operand, and one with every link
    rw [Grouping.operands_ofLinks, List.forall_mem_cons, List.forall_mem_map]
    refine ⟨fun a ha => written_of_scanOperand hinner hfirst ha, fun link hlink a ha => ?_⟩
    obtain ⟨_, _, haccepts⟩ := hlinks.exists_of_many link hlink
    obtain ⟨_, -, hoperand⟩ := accepts_scanLink haccepts
    exact written_of_scanOperand hinner hoperand ha

/-- At every depth, what is made of a chain can be written. -/
theorem makesWritten_scanNested (nesting : Nat) : MakesWritten (scanNested nesting) := by
  induction nesting with
  | zero =>
    intro text c rest source limit depth e h _
    exact h.of_refuse.elim
  | succ nesting ih => exact makesWritten_scanChain ih

end Levels

end Chain

/-! ### Inference -/

/-- Models that do not fit are no matter of syntax. -/
theorem InferError.IsMismatch.kind_ne {err : InferError} (h : err.IsMismatch) :
    err.toFailure.kind ≠ .syntaxError := by
  cases err with
  | merge | unmet | argument | undeclared => exact fun hkind => nomatch hkind
  | tooDeep | unbound | emptyArray | behindOperand | unnamedProperty => exact h.elim

namespace Expr

open Inference
open Except (FailsWith)

variable {scope : Scope Model} {allowance : Allowance} {e : Expr}

/-- What inference looks at in an expression that can be written can be written. -/
theorem Written.of_mem_parts (h : e.Written) : ∀ part ∈ e.parts, part.Written := by
  cases h with
  | array hes => exact hes
  | call hcallee hes => exact List.forall_mem_cons.mpr ⟨hcallee, hes⟩
  | binary hleft hright => simp [parts, hleft, hright]
  | logical hleft hright => simp [parts, hleft, hright]
  | conditional htest hconsequent halternate => simp [parts, htest, hconsequent, halternate]
  | index hobject hkey => simp [parts, hobject, hkey]
  | field hobject => simp [parts, hobject]
  | unary hargument => simp [parts, hargument]
  | identifier | number | string | boolean | null | this => simp [parts]

/-- An expression that can be written is not blamed for its shape. -/
theorem Written.kind_ne_of_blames {err : InferError} (h : e.Written) (hblames : e.Blames err) :
    err.toFailure.kind ≠ .syntaxError := by
  cases hblames with
  | mismatch hmismatch => exact hmismatch.kind_ne
  | unbound | emptyArray => exact fun hkind => nomatch hkind
  | behindOperand => cases h
  | unnamedProperty _ _ hunnamed =>
    cases h with
    | field => exact absurd rfl (hunnamed _)

theorem kind_ne_of_tooDeep (limit : Nat) :
    (InferError.tooDeep limit).toFailure.kind ≠ .syntaxError :=
  fun hkind => nomatch hkind

/-- **Inference never blames for its shape what can be written.** -/
theorem Written.failsWith_infer (h : e.Written) :
    FailsWith (fun err => err.toFailure.kind ≠ .syntaxError) (e.infer scope allowance) := by
  -- level by level, for all allowances at once
  induction e using parts_induction generalizing allowance with
  | h e ih =>
    refine Expr.failsWith_infer ?level ?blames ?parts
    case level => exact fun limit _ => kind_ne_of_tooDeep limit
    case blames => exact fun err => h.kind_ne_of_blames
    case parts => exact fun inner _ part hpart => ih part hpart (h.of_mem_parts part hpart)

/-- A sequence gives no reason of its own to fail, so it fails as its expressions do. -/
theorem Parsed.failsWith_infer (h : e.Parsed) :
    FailsWith (fun err => err.toFailure.kind ≠ .syntaxError) (e.infer scope allowance) := by
  obtain hwritten | ⟨body, rfl, -, hbody⟩ := h
  · exact hwritten.failsWith_infer
  · refine Expr.failsWith_infer ?level ?blames ?parts
    case level => exact fun limit _ => kind_ne_of_tooDeep limit
    case parts => exact fun inner _ part hpart => (hbody part hpart).failsWith_infer
    case blames =>
      intro err hblames
      cases hblames with
      | mismatch hmismatch => exact hmismatch.kind_ne

/-- **The shape of what is parsed.** Whatever the limit on nesting is, an expression that is parsed
is of a shape that a text can stand for. So inference may refuse it for the models it has, for a
name that is not known, or for its depth, but never for how it is written. -/
theorem parsed_of_parseWithin {limit : Nat} {source : String}
    (h : parseWithin limit source = .ok e) :
    e.Parsed ∧ ∀ (scope : Scope Model) (allowance : Allowance) (err : InferError),
      e.infer scope allowance = .error err → err.toFailure.kind ≠ .syntaxError := by
  have hparsed : e.Parsed := by
    obtain ⟨-, chains, hread, es, hes, hshape⟩ := parseWithin_eq_ok_iff.mp h
    obtain ⟨_, hchains, -⟩ := Chain.accepts_of_ofText hread
    have hwritten : ∀ a ∈ es, a.Written :=
      Chain.written_of_forall₂ (Chain.makesWritten_scanNested _)
        hchains.exists_of_commaSeparated hes
    -- one expression is the result itself, and more of them are the parts of a sequence
    obtain rfl | ⟨hlength, rfl⟩ := hshape
    · exact Or.inl (hwritten e List.mem_cons_self)
    · exact Or.inr ⟨es, rfl, hlength, hwritten⟩
  exact ⟨hparsed, fun scope allowance => hparsed.failsWith_infer⟩

/-- Keywords stand behind a point, a name begins with one, and a number has a sign. The text stands
for two expressions. -/
theorem parsed_of_parseWithin_keywords :
    ∃ e, parseWithin 4 "a.null + trueish, -0x1f" = .ok e ∧ e.kindName = "Compound" ∧ e.Parsed ∧
      ∀ (scope : Scope Model) (allowance : Allowance) (err : InferError),
        e.infer scope allowance = .error err → err.toFailure.kind ≠ .syntaxError := by
  -- a keyword as a property, a name that begins with one, and a sign before a number
  have hparsed : (match parseWithin 4 "a.null + trueish, -0x1f" with
      | .ok e => e.kindName == "Compound"
      | .error _ => false) = true := by
    decide +kernel
  cases h : parseWithin 4 "a.null + trueish, -0x1f" with
  | error reason =>
    rw [h] at hparsed
    cases hparsed
  | ok e =>
    rw [h] at hparsed
    exact ⟨e, rfl, beq_iff_eq.mp hparsed, parsed_of_parseWithin h⟩

end Expr

end CheckedExpr
