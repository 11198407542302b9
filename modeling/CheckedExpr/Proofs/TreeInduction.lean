import CheckedExpr.Chain
import CheckedExpr.Descriptor
import CheckedExpr.Expr
import Mathlib.Data.List.Forall2
import Mathlib.Logic.Relation

/-!
# Induction over trees

Expressions, models, descriptors and chains hold lists of their own kind. The principles here state
the induction hypothesis for such a list as one about each of its members, so that a proof about
trees is one case for each constructor. What is made of such a list is a list again, and its members
are paired with those they are made of; `forall_of_forall₂` carries a property over to them.
-/

namespace CheckedExpr

/-- Induction over an expression. -/
@[elab_as_elim]
theorem Expr.tree_induction {P : Expr → Prop}
    (array : ∀ elements, (∀ e ∈ elements, P e) → P (.array elements))
    (binary : ∀ op left right, P left → P right → P (.binary op left right))
    (call : ∀ callee arguments, P callee → (∀ e ∈ arguments, P e) → P (.call callee arguments))
    (sequence : ∀ body, (∀ e ∈ body, P e) → P (.sequence body))
    (conditional : ∀ test consequent alternate, P test → P consequent → P alternate →
      P (.conditional test consequent alternate))
    (identifier : ∀ name, P (.identifier name))
    (literal : ∀ value, P (.literal value))
    (logical : ∀ op left right, P left → P right → P (.logical op left right))
    (member : ∀ computed object property, P object → P property →
      P (.member computed object property))
    (this : P .this)
    (unary : ∀ op argument before, P argument → P (.unary op argument before)) :
    ∀ e, P e := by
  -- the recursor takes a property of lists besides, which is that of all their members
  refine @Expr.rec P (fun es => ∀ e ∈ es, P e) array binary call sequence conditional identifier
    literal logical member this unary ?nil ?cons
  case nil => simp
  case cons =>
    intro e es he hes
    exact List.forall_mem_cons.mpr ⟨he, hes⟩

/-- Induction over a model. -/
@[elab_as_elim]
theorem Model.tree_induction {P : Model → Prop} (simple : ∀ kind, P (.simple kind))
    (nullable : ∀ inner, P inner → P (.nullable inner))
    (array : ∀ element, P element → P (.array element))
    (object : ∀ entries : List (String × Model), (∀ entry ∈ entries, P entry.2) →
      P (.object entries))
    (function : ∀ parameters result, (∀ m ∈ parameters, P m) → P result →
      P (.function parameters result)) :
    ∀ m, P m := by
  -- entries and parameters are lists of two kinds, so there are two properties of lists
  refine @Model.rec P (fun entries => ∀ entry ∈ entries, P entry.2) (fun ms => ∀ m ∈ ms, P m)
    (fun entry => P entry.2) simple nullable array object function ?noEntry ?entries ?noModel
    ?models ?entry
  case noEntry => simp
  case entries =>
    intro entry entries hentry hentries
    exact List.forall_mem_cons.mpr ⟨hentry, hentries⟩
  case noModel => simp
  case models =>
    intro m ms hm hms
    exact List.forall_mem_cons.mpr ⟨hm, hms⟩
  case entry =>
    intro key m hm
    exact hm

/-- Induction over a descriptor. -/
@[elab_as_elim]
theorem Descriptor.tree_induction {P : Descriptor → Prop} (simple : ∀ kind, P (.simple kind))
    (nullable : ∀ inner, P inner → P (.nullable inner))
    (array : ∀ element, P element → P (.array element))
    (object : ∀ entries : List (Span × DescriptorKey × Descriptor),
      (∀ entry ∈ entries, P entry.2.2) → P (.object entries))
    (function : ∀ parameters result, (∀ d ∈ parameters, P d) → P result →
      P (.function parameters result)) :
    ∀ d, P d := by
  -- an entry is a pair in a pair, and each of the two has a property of its own
  refine @Descriptor.rec P (fun entries => ∀ entry ∈ entries, P entry.2.2)
    (fun ds => ∀ d ∈ ds, P d) (fun entry => P entry.2.2) (fun written => P written.2)
    simple nullable array object function ?noEntry ?entries ?noDescriptor ?descriptors ?entry
    ?written
  case noEntry => simp
  case entries =>
    intro entry entries hentry hentries
    exact List.forall_mem_cons.mpr ⟨hentry, hentries⟩
  case noDescriptor => simp
  case descriptors =>
    intro d ds hd hds
    exact List.forall_mem_cons.mpr ⟨hd, hds⟩
  case entry =>
    intro span written hwritten
    exact hwritten
  case written =>
    intro key d hd
    exact hd

/-- Induction over a chain and what it is made of: a property of chains, of operands, of terms and
of suffixes at once. -/
theorem Chain.tree_induction {P : Chain → Prop} {O : Operand → Prop} {T : Term → Prop}
    {S : Suffix → Prop}
    (chain : ∀ offset first (links : List (Joint Chain × Operand)), O first →
      (∀ link ∈ links, (∀ middle, link.1 = .choice middle → P middle) ∧ O link.2) →
        P (.mk offset first links))
    (operand : ∀ signs term (suffixes : List Suffix), T term → (∀ s ∈ suffixes, S s) →
      O (.mk signs term suffixes))
    (number : ∀ n, T (.number n)) (text : ∀ offset written, T (.text offset written))
    (boolean : ∀ b, T (.boolean b)) (null : T .null) (this : T .this)
    (array : ∀ elements : List Chain, (∀ c ∈ elements, P c) → T (.array elements))
    (group : ∀ inner, P inner → T (.group inner)) (name : ∀ name, T (.name name))
    (call : ∀ arguments : List Chain, (∀ c ∈ arguments, P c) → S (.call arguments))
    (index : ∀ key, P key → S (.index key)) (field : ∀ name, S (.field name)) :
    ∀ c, P c := by
  -- of a joint one needs to know its middle, if it has one: a choice holds a chain
  refine @Chain.rec P O T S
    (fun links => ∀ link ∈ links, (∀ middle, link.1 = .choice middle → P middle) ∧ O link.2)
    (fun suffixes => ∀ s ∈ suffixes, S s) (fun chains => ∀ c ∈ chains, P c)
    (fun link => (∀ middle, link.1 = .choice middle → P middle) ∧ O link.2)
    (fun joint => ∀ middle, joint = .choice middle → P middle)
    chain operand number text boolean null this array group name call index field
    ?noLink ?links ?noSuffix ?suffixes ?noChain ?chains ?link ?operator ?choice
  case noLink => simp
  case links =>
    intro link links hlink hlinks
    exact List.forall_mem_cons.mpr ⟨hlink, hlinks⟩
  case noSuffix => simp
  case suffixes =>
    intro s suffixes hs hsuffixes
    exact List.forall_mem_cons.mpr ⟨hs, hsuffixes⟩
  case noChain => simp
  case chains =>
    intro c chains hc hchains
    exact List.forall_mem_cons.mpr ⟨hc, hchains⟩
  case link =>
    intro joint operand hjoint hoperand
    exact ⟨hjoint, hoperand⟩
  case operator =>
    intro op middle h
    cases h
  case choice =>
    intro inner hinner middle h
    cases h
    exact hinner

/-! ### Lists in pairs -/

section Pairs

variable {α β γ : Type} {R : α → β → Prop} {as : List α} {bs : List β}

/-- Each member of the first list has a partner. -/
theorem exists_of_forall₂ (h : List.Forall₂ R as bs) : ∀ a ∈ as, ∃ b, R a b := by
  induction h with
  | nil => simp
  | cons hab _ ih => exact List.forall_mem_cons.mpr ⟨⟨_, hab⟩, ih⟩

/-- Members that have a partner each make a list that does. -/
theorem exists_forall₂ (h : ∀ a ∈ as, ∃ b, R a b) : ∃ bs, List.Forall₂ R as bs := by
  induction as with
  | nil => exact ⟨[], .nil⟩
  | cons a as ih =>
    obtain ⟨⟨b, hb⟩, has⟩ := List.forall_mem_cons.mp h
    obtain ⟨bs, hbs⟩ := ih has
    exact ⟨b :: bs, .cons hb hbs⟩

/-- What each member of a list passes on to its partners holds of all members of the other list. -/
theorem forall_of_forall₂ {Q : β → Prop} (h : List.Forall₂ R as bs)
    (has : ∀ a ∈ as, ∀ b, R a b → Q b) : ∀ b ∈ bs, Q b := by
  induction h with
  | nil => simp
  | cons hab _ ih =>
    obtain ⟨ha, has⟩ := List.forall_mem_cons.mp has
    exact List.forall_mem_cons.mpr ⟨ha _ hab, ih has⟩

/-- Partners of partners, in lists that are paired with a list between them. -/
theorem forall₂_comp {S : β → γ → Prop} {cs : List γ} (hab : List.Forall₂ R as bs)
    (hbc : List.Forall₂ S bs cs) : List.Forall₂ (Relation.Comp R S) as cs := by
  induction hab generalizing cs with
  | nil =>
    cases hbc
    exact .nil
  | cons hab _ ih =>
    cases hbc with
    | cons hbc hrest => exact .cons ⟨_, hab, hbc⟩ (ih hrest)

end Pairs

end CheckedExpr
