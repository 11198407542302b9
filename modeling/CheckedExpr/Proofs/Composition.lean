import CheckedExpr.Proofs.QuotedLiteral
import CheckedExpr.Proofs.TokenRows

/-!
# Expressions put together from texts

Texts that stand for single expressions can be put in brackets and then be parts of a longer text:
with a sign before them or a suffix behind them, with an operator between them, or as the parts of a
choice. In brackets, between commas and as keys they need no brackets of their own. The longer text
stands for the expression with theirs in it, whatever gaps are between its tokens.

What an expression is made of is what was read, and not the place where it stands: if an expression
is made of a chain in one text, it is made of what is read in its place in another one, given some
more levels (`Chain.Makes`). So a part is read in a longer text as it is read alone
(`Stands.readsTokens`), the tokens around it are read as what they are, and the parts that were read
are put together.

* `Stands`: texts that stand for a single expression; `Composed`: what they can be put together to.
* `Composed.exists_threshold`: the whole stands for what its parts are put together to.
* `Expr.parseWithin_composed`: the same, together with the texts between quotes.
-/

namespace CheckedExpr

open Scan

/-! ### What is made where there is room -/

/-- Whether an expression is made in every text, wherever there is room enough. -/
def Makes (make : String → Nat → Nat → Except ParseError Expr) (e : Expr) : Prop :=
  ∃ room, ∀ ⦃source limit depth⦄, depth + room ≤ limit → make source limit depth = .ok e

/-- An expression that is made of a chain, of an operand, of a term. -/
def Chain.Makes (e : Expr) (c : Chain) : Prop := CheckedExpr.Makes (c.toExpr · · ·) e

@[inherit_doc Chain.Makes]
def Operand.Makes (e : Expr) (operand : Operand) : Prop :=
  CheckedExpr.Makes (operand.toExpr · · ·) e

@[inherit_doc Chain.Makes]
def Term.Makes (e : Expr) (term : Term) : Prop := CheckedExpr.Makes (term.toExpr · · ·) e

/-- An expression that a suffix makes of the one before it. -/
def Suffix.Makes (before e : Expr) (s : Suffix) : Prop :=
  ∃ room, ∀ ⦃source limit depth⦄, depth + room ≤ limit →
    s.toExpr source limit depth (.ok before) = .ok e

variable {e : Expr} {es : List Expr}

/-- A row of chains has room enough if each has, so as much as the one that needs most. -/
theorem exists_room_of_forall₂ {cs : List Chain} (h : List.Forall₂ Chain.Makes es cs) :
    ∃ room, ∀ ⦃source limit depth⦄, depth + room ≤ limit →
      List.Forall₂ (fun c e => c.toExpr source limit depth = .ok e) cs es := by
  induction h with
  | nil => exact ⟨0, fun _ _ _ _ => .nil⟩
  | cons hc _ ih =>
    obtain ⟨room, hroom⟩ := hc
    obtain ⟨room', hroom'⟩ := ih
    refine ⟨max room room', fun source limit depth hlimit => .cons ?_ ?_⟩
    · exact hroom (by omega)
    · exact hroom' (by omega)

namespace Term

/-- Parentheses make what is made of the chain inside. -/
theorem makes_group {c : Chain} (h : c.Makes e) : (group c).Makes e := by
  obtain ⟨room, hroom⟩ := h
  refine ⟨room, fun source limit depth hlimit => ?_⟩
  show (group c).toExpr source limit depth = .ok e
  rw [toExpr]
  exact hroom hlimit

/-- An array makes the array of what its elements make. -/
theorem makes_array {cs : List Chain} (h : List.Forall₂ Chain.Makes es cs) :
    (array cs).Makes (.array es) := by
  obtain ⟨room, hroom⟩ := exists_room_of_forall₂ h
  exact ⟨room, fun source limit depth hlimit => toExpr_array_eq_ok_iff.mpr ⟨es, hroom hlimit, rfl⟩⟩

end Term

namespace Suffix

/-- Arguments make a call of what stands before them. -/
theorem makes_call {cs : List Chain} (h : List.Forall₂ Chain.Makes es cs) (callee : Expr) :
    (call cs).Makes callee (.call callee es) := by
  obtain ⟨room, hroom⟩ := exists_room_of_forall₂ h
  refine ⟨room, fun source limit depth hlimit => ?_⟩
  exact toExpr_call_eq_ok_iff.mpr ⟨es, hroom hlimit, callee, rfl, rfl⟩

/-- A key in brackets makes a member of what stands before it. -/
theorem makes_index {key : Chain} {k : Expr} (h : key.Makes k) (object : Expr) :
    (index key).Makes object (.index object k) := by
  obtain ⟨room, hroom⟩ := h
  refine ⟨room, fun source limit depth hlimit => ?_⟩
  exact toExpr_index_eq_ok_iff.mpr ⟨k, hroom hlimit, object, rfl, rfl⟩

theorem makes_field (name : String) (object : Expr) :
    (field name.toList).Makes object (.field object name) := by
  refine ⟨0, fun source limit depth _ => toExpr_field_eq_ok_iff.mpr ⟨object, rfl, ?_⟩⟩
  rw [String.ofList_toList]

end Suffix

namespace Operand

/-- Signs are put before what the term makes. -/
theorem makes_signed {term : Term} (signs : List UnaryOp) (h : term.Makes e) :
    (mk signs term []).Makes (signs.foldr (fun op a => .unary op a true) e) := by
  obtain ⟨room, hroom⟩ := h
  exact ⟨room, fun source limit depth hlimit => toExpr_mk_eq_ok_iff.mpr ⟨e, hroom hlimit, rfl⟩⟩

/-- A suffix is put behind what the term makes. -/
theorem makes_suffixed {term : Term} {object : Expr} (h : term.Makes object) {s : Suffix}
    (hs : s.Makes object e) : (mk [] term [s]).Makes e := by
  obtain ⟨room, hroom⟩ := h
  obtain ⟨room', hroom'⟩ := hs
  refine ⟨max room room', fun source limit depth hlimit => toExpr_mk_eq_ok_iff.mpr ⟨e, ?_, rfl⟩⟩
  have hterm : term.toExpr source limit depth = .ok object := hroom (by omega)
  rw [suffixesToExpr, suffixesToExpr, hterm]
  exact hroom' (by omega)

end Operand

namespace Chain

/-- A chain of one operand makes what the operand does, with a level more. -/
theorem makes_single {first : Operand} (offset : Nat) (h : first.Makes e) :
    (mk offset first []).Makes e := by
  obtain ⟨room, hroom⟩ := h
  refine ⟨room + levels first [], fun source limit depth hlimit => ?_⟩
  exact toExpr_mk_eq_ok_iff.mpr ⟨by omega, hroom (by omega)⟩

/-- Two operands with an operator between them make the operation. -/
theorem makes_operator {first second : Operand} {l r : Expr} (offset : Nat) (op : InfixOp)
    (hfirst : first.Makes l) (hsecond : second.Makes r) :
    (mk offset first [(.operator op, second)]).Makes (op.node l r) := by
  obtain ⟨room, hroom⟩ := hfirst
  obtain ⟨room', hroom'⟩ := hsecond
  refine ⟨max room room' + levels first [(.operator op, second)],
    fun source limit depth hlimit => ?_⟩
  refine toExpr_mk_eq_ok_iff.mpr ⟨by omega, Joint.toExpr_operator_eq_ok_iff.mpr ?_⟩
  exact ⟨l, hroom (by omega), r, hroom' (by omega), rfl⟩

/-- Two operands and the middle between them make a conditional. -/
theorem makes_choice {first second : Operand} {middle : Chain} {l m r : Expr} (offset : Nat)
    (hfirst : first.Makes l) (hmiddle : middle.Makes m) (hsecond : second.Makes r) :
    (mk offset first [(.choice middle, second)]).Makes (.conditional l m r) := by
  obtain ⟨room, hroom⟩ := hfirst
  obtain ⟨room', hroom'⟩ := hmiddle
  obtain ⟨room'', hroom''⟩ := hsecond
  refine ⟨max room (max room' room'') + levels first [(.choice middle, second)],
    fun source limit depth hlimit => ?_⟩
  refine toExpr_mk_eq_ok_iff.mpr ⟨by omega, Joint.toExpr_choice_eq_ok_iff.mpr ?_⟩
  exact ⟨m, hroom' (by omega), l, hroom (by omega), r, hroom'' (by omega), rfl⟩

end Chain

/-! ### Texts as parts -/

/-- Whether a text stands for a single expression, at some limit. -/
structure Stands (source : String) (e : Expr) : Prop where
  parses : ∃ limit, Expr.parseWithin limit source = .ok e
  single : ∀ body, e ≠ .sequence body

/-- Whether an expression stands for several others. -/
def Expr.isSequence : Expr → Bool
  | .sequence _ => true
  | _ => false

/-- That a text stands for a single expression can be computed. -/
theorem exists_stands {source : String} (limit : Nat)
    (h : (Expr.parseWithin limit source).toOption.any (!·.isSequence) = true) :
    ∃ e, Stands source e := by
  cases hparsed : Expr.parseWithin limit source with
  | error reason =>
    rw [hparsed] at h
    cases h
  | ok e =>
    refine ⟨e, ⟨limit, hparsed⟩, ?_⟩
    rintro body rfl
    rw [hparsed] at h
    cases h

/-- Such a text consists of one chain, which makes the expression. -/
theorem Stands.exists_accepts {source : String} (h : Stands source e) :
    ∃ c mid, (Chain.scanNested (source.toList.length + 1)).Accepts (clear source.toList) c mid ∧
      clear mid = [] ∧ ∃ limit, c.toExpr source limit 0 = .ok e := by
  obtain ⟨limit, hparse⟩ := h.parses
  obtain ⟨-, chains, hread, es, hes, hshape⟩ := Expr.parseWithin_eq_ok_iff.mp hparse
  rcases hshape with rfl | ⟨-, rfl⟩
  · -- one expression was made, so one chain was read, and nothing behind it
    cases hes with
    | @cons c _ _ _ hc hes =>
      cases hes
      obtain ⟨rest, hchains, hrest⟩ := Chain.accepts_of_ofText hread
      rcases hchains.of_commaSeparated with ⟨hnil, -⟩ | ⟨_, more, mid, hcons, hfirst, hmore⟩
      · cases hnil
      · cases hcons
        rcases hmore.of_many with ⟨-, rfl⟩ | ⟨_, _, _, hcons, -⟩
        · rw [clear_clear] at hrest
          exact ⟨c, mid, hfirst, hrest, limit, hc⟩
        · cases hcons
  · -- any other number of them would be a sequence
    exact absurd rfl (h.single es)

variable {s : String} {tokens left : List String} {nesting : Nat}

/-- **A part is read where it stands**, whatever follows it, if that may follow a chain. -/
theorem Stands.readsTokens (h : Stands s e) (hleft : BeginsWith (· ∈ followers) left)
    (hnesting : s.toList.length < nesting) :
    (Chain.scanNested nesting).ReadsTokens (Chain.Makes e) (s :: left) left := by
  intro text htext
  obtain ⟨c, mid, haccepts, hmid, limit, hmade⟩ := h.exists_accepts
  obtain ⟨behind, hclear, hbehind⟩ := htext.exists_clear_eq
  -- the part is read alone, and the text goes on with what may follow a chain
  have hext : Extends (clear behind) s.toList (s.toList ++ behind) := ⟨behind, rfl, rfl⟩
  have hfollows : ∀ c ∈ (clear behind).head?, c ∈ followers := hbehind.before hleft
  have hcarries := (Chain.readsOn_scanNested hfollows hnesting).carries
  -- alone, nothing but a gap is left of it
  have hlast : Before (· ∈ followers) mid := by
    rw [Before, hmid]
    exact fun _ hc => absurd hc (by simp)
  obtain ⟨rest, hread, hrest⟩ := hcarries haccepts hlast hext.clear
  rw [hclear]
  refine ⟨rest, hread.mono fun c' hpasses => ?_, ?_⟩
  · exact ⟨limit, fun source' limit' depth' hroom => hpasses (by omega) e hmade⟩
  · exact hbehind.of_clear_eq hleft (hrest.clear_eq hmid)

/-! ### Rows of parts -/

/-- Commas stand before all parts but the first. -/
theorem intersperse_cons (s : String) (ss : List String) :
    (s :: ss).intersperse "," = s :: ss.flatMap fun t => [",", t] := by
  induction ss generalizing s with
  | nil => rfl
  | cons t ss ih =>
    rw [List.intersperse_cons_cons, ih t]
    rfl

/-- The parts are still there with commas between them. -/
theorem mem_intersperse {ss : List String} (h : s ∈ ss) : s ∈ ss.intersperse "," := by
  cases ss with
  | nil => cases h
  | cons t ss =>
    rw [intersperse_cons]
    rcases List.mem_cons.mp h with rfl | h
    · exact List.mem_cons_self
    · refine List.mem_cons_of_mem _ (List.mem_flatMap.mpr ⟨s, h, ?_⟩)
      exact List.mem_cons_of_mem _ List.mem_cons_self

/-- To put commas between the parts is to put them between rows of one part each. -/
theorem intercalate_singletons (ss : List String) :
    [","].intercalate (ss.map fun s => [s]) = ss.intersperse "," := by
  cases ss with
  | nil => rfl
  | cons s ss =>
    rw [intercalate_comma_cons, intersperse_cons]
    rfl

/-- **Parts with commas between them are read one by one**, in front of a closing bracket or the
end. -/
theorem readsTokens_commaSeparated {ss : List String} (h : List.Forall₂ Stands ss es)
    (hnesting : ∀ s ∈ ss, s.toList.length < nesting)
    (hleft : BeginsWith (· ∈ [')', ']']) left) :
    (commaSeparated (Chain.scanNested nesting)).ReadsTokens (List.Forall₂ Chain.Makes es)
      (ss.intersperse "," ++ left) left := by
  have hfollows : BeginsWith (· ∈ followers) left :=
    hleft.mono (List.all_iff_forall_prop.mp (by decide))
  have hcomma : BeginsWith (fun c => c ∈ followers ∧ c ≠ ',') left :=
    hleft.mono (List.all_iff_forall_prop.mp (by decide))
  -- each part goes with what it stands for
  have hitem : ∀ part ∈ ss.zip es, ∀ left, BeginsWith (· ∈ followers) left →
      (Chain.scanNested nesting).ReadsTokens (Chain.Makes part.2) ([part.1] ++ left) left := by
    rintro ⟨s, e⟩ hmem left hleft
    have hs : Stands s e := List.forall₂_zip h hmem
    exact hs.readsTokens hleft (hnesting s (List.of_mem_zip hmem).1)
  have hnone : ∀ text, Spaced left text → (Chain.scanNested nesting).Refuses (clear text) := by
    intro text htext
    -- no chain begins with what may follow one
    refine Chain.refuses_scanNested ?_ nesting
    rw [clear_clear]
    exact htext.before hfollows
  have hparts : (ss.zip es).map Prod.fst = ss := List.map_fst_zip (Nat.le_of_eq h.length_eq)
  have hes : (ss.zip es).map Prod.snd = es := List.map_snd_zip (Nat.le_of_eq h.length_eq.symm)
  have hread := readsTokens_commas hitem (by decide) hcomma hnone
  have htokens : (ss.zip es).map (fun part => [part.1]) = ss.map fun s => [s] := by
    rw [← congrArg (List.map fun s => [s]) hparts, List.map_map]
    rfl
  rw [htokens, intercalate_singletons] at hread
  refine hread.mono fun cs hcs => ?_
  rw [← hes, List.forall₂_map_left_iff]
  exact hcs

/-! ### Operands and chains -/

/-- A part in parentheses is a term. -/
theorem Stands.readsTokens_group (h : Stands s e) (hnesting : s.toList.length < nesting) :
    (Chain.scanTerm (Chain.scanNested nesting)).ReadsTokens (Term.Makes e) ("(" :: s :: ")" :: left)
      left := by
  have hinner : (Chain.scanNested nesting).ReadsTokens (Chain.Makes e) ([s] ++ ")" :: left)
      (")" :: left) :=
    h.readsTokens (beginsWith_cons (c := ')') rfl rfl (by decide)) hnesting
  refine (Chain.readsTokens_group hinner).mono ?_
  rintro _ ⟨c, rfl, hc⟩
  exact Term.makes_group hc

section Operands

variable {object : Expr} {mid : List String}

/-- A term without signs and suffixes. -/
theorem readsTokens_operand
    (hterm : (Chain.scanTerm (Chain.scanNested nesting)).ReadsTokens (Term.Makes e) tokens left)
    (htokens : BeginsWith (· ∉ signChars) tokens) (hleft : BeginsWith (· ∉ openers) left) :
    (Chain.scanOperand (Chain.scanNested nesting)).ReadsTokens (Operand.Makes e) tokens left := by
  refine (Chain.readsTokens_scanOperand (Chain.readsTokens_noSign htokens) hterm
    (Chain.readsTokens_noSuffix hleft)).mono ?_
  rintro _ ⟨_, term, _, rfl, rfl, hmakes, rfl⟩
  exact Operand.makes_signed [] hmakes

/-- A term with one sign. -/
theorem readsTokens_operand_signed (op : UnaryOp)
    (hterm : (Chain.scanTerm (Chain.scanNested nesting)).ReadsTokens (Term.Makes e) tokens left)
    (htokens : BeginsWith (· ∉ signChars) tokens) (hleft : BeginsWith (· ∉ openers) left) :
    (Chain.scanOperand (Chain.scanNested nesting)).ReadsTokens (Operand.Makes (.unary op e true))
      (op.spelling :: tokens) left := by
  refine (Chain.readsTokens_scanOperand (Chain.readsTokens_oneSign op htokens) hterm
    (Chain.readsTokens_noSuffix hleft)).mono ?_
  rintro _ ⟨_, term, _, rfl, rfl, hmakes, rfl⟩
  exact Operand.makes_signed [op] hmakes

/-- A term with one suffix. -/
theorem readsTokens_operand_suffixed
    (hterm : (Chain.scanTerm (Chain.scanNested nesting)).ReadsTokens (Term.Makes object) tokens mid)
    (hsuffix : (Chain.scanSuffix (Chain.scanNested nesting)).ReadsTokens (Suffix.Makes object e) mid
      left)
    (htokens : BeginsWith (· ∉ signChars) tokens) (hleft : BeginsWith (· ∉ openers) left) :
    (Chain.scanOperand (Chain.scanNested nesting)).ReadsTokens (Operand.Makes e) tokens left := by
  have hsuffixes := readsTokens_many_one hsuffix hleft fun _ h => Chain.refuses_scanSuffix h
  refine (Chain.readsTokens_scanOperand (Chain.readsTokens_noSign htokens) hterm hsuffixes).mono ?_
  rintro _ ⟨_, term, _, rfl, rfl, hmakes, ⟨s, rfl, hs⟩⟩
  exact Operand.makes_suffixed hmakes hs

end Operands

/-- An operand by itself. -/
theorem readsTokens_chain
    (h : (Chain.scanOperand (Chain.scanNested nesting)).ReadsTokens (Operand.Makes e) tokens left)
    (hleft : BeginsWith (· ∈ followers) left) :
    (Chain.scanNested (nesting + 1)).ReadsTokens (Chain.Makes e) tokens left := by
  have hlinks : (many (Chain.scanLink (Chain.scanNested nesting))).ReadsTokens (· = []) left left :=
    readsTokens_many_nil hleft fun _ h => Chain.refuses_scanLink h
  refine (Chain.readsTokens_scanChain h hlinks).mono ?_
  rintro _ ⟨offset, first, _, rfl, hfirst, rfl⟩
  exact Chain.makes_single offset hfirst

/-- Two operands with a joint between them. -/
theorem readsTokens_chain_joined {l r : Expr} {J : Joint Chain → Prop} {mid behind : List String}
    (hfirst : (Chain.scanOperand (Chain.scanNested nesting)).ReadsTokens (Operand.Makes l) tokens mid)
    (hjoint : (Chain.scanJoint (Chain.scanNested nesting)).ReadsTokens J mid behind)
    (hsecond : (Chain.scanOperand (Chain.scanNested nesting)).ReadsTokens (Operand.Makes r) behind
      left)
    (hleft : BeginsWith (· ∈ followers) left)
    (hmakes : ∀ offset first joint second, Operand.Makes l first → J joint →
      Operand.Makes r second → Chain.Makes e (.mk offset first [(joint, second)])) :
    (Chain.scanNested (nesting + 1)).ReadsTokens (Chain.Makes e) tokens left := by
  -- one operand, and one link behind it
  have hlink := Chain.readsTokens_scanLink hjoint hsecond
  have hlinks := readsTokens_many_one hlink hleft fun _ h => Chain.refuses_scanLink h
  refine (Chain.readsTokens_scanChain hfirst hlinks).mono ?_
  rintro _ ⟨offset, first, _, rfl, hfirst, ⟨⟨joint, second⟩, rfl, hjoint, hsecond⟩⟩
  exact hmakes offset first joint second hfirst hjoint hsecond

/-! ### The shapes -/

theorem beginsWith_parenthesis : BeginsWith (· ∉ signChars) ("(" :: left) :=
  beginsWith_cons (c := '(') rfl rfl (by decide)

/-- A part in brackets, as an operand. -/
theorem Stands.readsTokens_groupOperand (h : Stands s e) (hnesting : s.toList.length < nesting)
    (hleft : BeginsWith (· ∉ openers) left) :
    (Chain.scanOperand (Chain.scanNested nesting)).ReadsTokens (Operand.Makes e)
      ("(" :: s :: ")" :: left) left :=
  readsTokens_operand (h.readsTokens_group hnesting) beginsWith_parenthesis hleft

/-- A part in brackets, as a chain. -/
theorem Stands.readsTokens_groupChain (h : Stands s e) (hnesting : s.toList.length < nesting)
    (hleft : BeginsWith (· ∈ followers) left) :
    (Chain.scanNested (nesting + 1)).ReadsTokens (Chain.Makes e) ("(" :: s :: ")" :: left) left := by
  have hopeners : BeginsWith (· ∉ openers) left :=
    hleft.mono fun c hc => notMem_openers c (mem_lexemeEnds_of_mem_followers c hc)
  exact readsTokens_chain (h.readsTokens_groupOperand hnesting hopeners) hleft

/-- A sign before a part in parentheses. -/
theorem Stands.readsTokens_signed (h : Stands s e) (op : UnaryOp)
    (hnesting : s.toList.length < nesting) :
    (Chain.scanNested (nesting + 1)).ReadsTokens (Chain.Makes (.unary op e true))
      [op.spelling, "(", s, ")"] [] := by
  have hoperand := readsTokens_operand_signed op (h.readsTokens_group hnesting)
    beginsWith_parenthesis beginsWith_nil
  exact readsTokens_chain hoperand beginsWith_nil

section Shapes

variable {s₁ s₂ s₃ : String} {e₁ e₂ e₃ : Expr} {ss : List String}

/-- Two parts in parentheses with an operator between them. -/
theorem Stands.readsTokens_joined (h₁ : Stands s₁ e₁) (op : InfixOp) (h₂ : Stands s₂ e₂)
    (hs₁ : s₁.toList.length < nesting) (hs₂ : s₂.toList.length < nesting) :
    (Chain.scanNested (nesting + 1)).ReadsTokens (Chain.Makes (op.node e₁ e₂))
      ["(", s₁, ")", op.spelling, "(", s₂, ")"] [] := by
  obtain ⟨c, word, hspelling, hends, hopens⟩ := Chain.exists_spelling_eq_cons op
  have hop : BeginsWith (· ∉ openers) [op.spelling, "(", s₂, ")"] :=
    beginsWith_cons hspelling (isGap_eq_false_of_notMem hends) hopens
  refine readsTokens_chain_joined (h₁.readsTokens_groupOperand hs₁ hop)
    (Chain.readsTokens_operator op)
    (h₂.readsTokens_groupOperand hs₂ beginsWith_nil) beginsWith_nil ?_
  rintro offset first _ second hl rfl hr
  exact Chain.makes_operator offset op hl hr

/-- The middle of a choice is a chain of its own, so its part is read one level further down. -/
theorem Stands.readsTokens_choice (h₁ : Stands s₁ e₁) (h₂ : Stands s₂ e₂) (h₃ : Stands s₃ e₃)
    (hs₁ : s₁.toList.length < nesting + 1) (hs₂ : s₂.toList.length < nesting)
    (hs₃ : s₃.toList.length < nesting + 1) :
    (Chain.scanNested (nesting + 2)).ReadsTokens (Chain.Makes (.conditional e₁ e₂ e₃))
      ["(", s₁, ")", "?", "(", s₂, ")", ":", "(", s₃, ")"] [] := by
  have hmark : BeginsWith (· ∉ openers) ["?", "(", s₂, ")", ":", "(", s₃, ")"] :=
    beginsWith_cons (c := '?') rfl rfl (by decide)
  have hcolon : BeginsWith (· ∈ followers) [":", "(", s₃, ")"] :=
    beginsWith_cons (c := ':') rfl rfl (by decide)
  -- the middle is a chain of its own, one level deeper than the two beside it
  have hmiddle : (Chain.scanNested (nesting + 1)).ReadsTokens (Chain.Makes e₂)
      (["(", s₂, ")"] ++ [":", "(", s₃, ")"]) [":", "(", s₃, ")"] :=
    h₂.readsTokens_groupChain hs₂ hcolon
  have hjoint := Chain.readsTokens_choice hmiddle (beginsWith_cons (c := '(') rfl rfl (by decide))
  refine readsTokens_chain_joined (h₁.readsTokens_groupOperand hs₁ hmark) hjoint
    (h₃.readsTokens_groupOperand hs₃ beginsWith_nil) beginsWith_nil ?_
  rintro offset first _ second hl ⟨middle, rfl, hm⟩ hr
  exact Chain.makes_choice offset hl hm hr

/-- A part in brackets with a suffix, as a chain. -/
theorem Stands.readsTokens_suffixed (h : Stands s e₁)
    (hsuffix : (Chain.scanSuffix (Chain.scanNested nesting)).ReadsTokens (Suffix.Makes e₁ e) tokens
      [])
    (hnesting : s.toList.length < nesting) :
    (Chain.scanNested (nesting + 1)).ReadsTokens (Chain.Makes e) ("(" :: s :: ")" :: tokens) [] := by
  have hoperand := readsTokens_operand_suffixed (h.readsTokens_group hnesting) hsuffix
    beginsWith_parenthesis beginsWith_nil
  exact readsTokens_chain hoperand beginsWith_nil

/-- Parts with commas between them as the arguments of a part. -/
theorem Stands.readsTokens_call (h : Stands s e) (hs : List.Forall₂ Stands ss es)
    (hnesting : s.toList.length < nesting) (hss : ∀ t ∈ ss, t.toList.length < nesting) :
    (Chain.scanNested (nesting + 1)).ReadsTokens (Chain.Makes (.call e es))
      ("(" :: s :: ")" :: "(" :: (ss.intersperse "," ++ [")"])) [] := by
  have hclosing : BeginsWith (· ∈ [')', ']']) [")"] :=
    beginsWith_cons (c := ')') rfl rfl (by decide)
  refine h.readsTokens_suffixed ?_ hnesting
  refine (Chain.readsTokens_call (readsTokens_commaSeparated hs hss hclosing)).mono ?_
  rintro _ ⟨cs, rfl, hcs⟩
  exact Suffix.makes_call hcs e

/-- Parts with commas between them as the elements of an array. -/
theorem readsTokens_array (hs : List.Forall₂ Stands ss es)
    (hss : ∀ t ∈ ss, t.toList.length < nesting) :
    (Chain.scanNested (nesting + 1)).ReadsTokens (Chain.Makes (.array es))
      ("[" :: (ss.intersperse "," ++ ["]"])) [] := by
  have hclosing : BeginsWith (· ∈ [')', ']']) ["]"] :=
    beginsWith_cons (c := ']') rfl rfl (by decide)
  -- the array is a term, with no signs before it and no suffixes behind it
  have hterm : (Chain.scanTerm (Chain.scanNested nesting)).ReadsTokens (Term.Makes (.array es))
      ("[" :: (ss.intersperse "," ++ ["]"])) [] := by
    refine (Chain.readsTokens_array (readsTokens_commaSeparated hs hss hclosing)).mono ?_
    rintro _ ⟨cs, rfl, hcs⟩
    exact Term.makes_array hcs
  have hopen : BeginsWith (· ∉ signChars) ("[" :: (ss.intersperse "," ++ ["]"])) :=
    beginsWith_cons (c := '[') rfl rfl (by decide)
  exact readsTokens_chain (readsTokens_operand hterm hopen beginsWith_nil) beginsWith_nil

/-- A part in square brackets as the key of another one. -/
theorem Stands.readsTokens_index (h₁ : Stands s₁ e₁) (h₂ : Stands s₂ e₂)
    (hs₁ : s₁.toList.length < nesting) (hs₂ : s₂.toList.length < nesting) :
    (Chain.scanNested (nesting + 1)).ReadsTokens (Chain.Makes (.index e₁ e₂))
      ["(", s₁, ")", "[", s₂, "]"] [] := by
  have hkey : (Chain.scanNested nesting).ReadsTokens (Chain.Makes e₂) ([s₂] ++ ["]"]) ["]"] :=
    h₂.readsTokens (beginsWith_cons (c := ']') rfl rfl (by decide)) hs₂
  refine h₁.readsTokens_suffixed ((Chain.readsTokens_index hkey).mono ?_) hs₁
  rintro _ ⟨key, rfl, hmakes⟩
  exact Suffix.makes_index hmakes e₁

/-- A name behind a point as the property of a part. -/
theorem Stands.readsTokens_field {name : String} {c : Char} {cs : List Char} (h : Stands s e)
    (hname : name.toList = c :: cs) (hstart : Grammar.isNameStart c = true)
    (hchars : ∀ d ∈ cs, Grammar.isNameChar d = true) (hnesting : s.toList.length < nesting) :
    (Chain.scanNested (nesting + 1)).ReadsTokens (Chain.Makes (.field e name))
      ["(", s, ")", ".", name] [] := by
  have hread : Grammar.readName name.toList = some (name.toList, []) := by
    rw [hname, Grammar.readName, if_pos hstart, List.takeWhile_eq_self_iff.mpr hchars,
      List.dropWhile_eq_nil_iff.mpr hchars]
  refine h.readsTokens_suffixed ((Chain.readsTokens_field hread).mono ?_) hnesting
  rintro _ rfl
  exact Suffix.makes_field name e

end Shapes

/-! ### Whole texts -/

/-- A text that is read as chains that make some expressions stands for them at every limit from
some threshold on. -/
theorem exists_threshold_of_readsTokens {source : String}
    (h : (commaSeparated (Chain.scanNested (source.toList.length + 1))).ReadsTokens
      (List.Forall₂ Chain.Makes es) tokens [])
    (hsource : Spaced tokens source.toList) (hshape : es = [e] ∨ es.length ≠ 1 ∧ .sequence es = e) :
    ∃ threshold, ∀ limit ≥ threshold, Expr.parseWithin limit source = .ok e := by
  obtain ⟨rest, hread, hrest⟩ := h _ hsource
  obtain ⟨chains, htext, hchains⟩ := Chain.exists_ofText_of_reads hread hrest.clear_eq_nil
  obtain ⟨room, hroom⟩ := exists_room_of_forall₂ hchains
  -- the limit has to leave room for what is made, and for the brackets of the text
  refine ⟨max room (Brackets.deepest none 0 source.toList), fun limit hlimit => ?_⟩
  have hbrackets : Brackets.firstExcess? limit source.toList = none :=
    Brackets.firstExcess?_eq_none_iff.mpr (by omega)
  exact Expr.parseWithin_eq_ok_iff.mpr ⟨hbrackets, chains, htext, es, hroom (by omega), hshape⟩

/-- The same of a text that is read as a single chain. -/
theorem exists_threshold_of_chain {source : String}
    (h : (Chain.scanNested (source.toList.length + 1)).ReadsTokens (Chain.Makes e) tokens [])
    (hsource : Spaced tokens source.toList) :
    ∃ threshold, ∀ limit ≥ threshold, Expr.parseWithin limit source = .ok e := by
  refine exists_threshold_of_readsTokens ?_ hsource (Or.inl rfl)
  refine (readsTokens_commaSeparated_one h).mono ?_
  rintro _ ⟨c, rfl, hc⟩
  exact .cons hc .nil

/-! ### Composition -/

/-- Tokens that texts standing for single expressions are parts of, and the expression that they are
put together to. -/
inductive Composed : List String → Expr → Prop
  | group {s : String} {e : Expr} (h : Stands s e) : Composed ["(", s, ")"] e
  | signed {s : String} {e : Expr} (op : UnaryOp) (h : Stands s e) :
      Composed [op.spelling, "(", s, ")"] (.unary op e true)
  | joined {s₁ s₂ : String} {e₁ e₂ : Expr} (op : InfixOp) (h₁ : Stands s₁ e₁) (h₂ : Stands s₂ e₂) :
      Composed ["(", s₁, ")", op.spelling, "(", s₂, ")"] (op.node e₁ e₂)
  | choice {s₁ s₂ s₃ : String} {e₁ e₂ e₃ : Expr} (h₁ : Stands s₁ e₁) (h₂ : Stands s₂ e₂)
      (h₃ : Stands s₃ e₃) :
      Composed ["(", s₁, ")", "?", "(", s₂, ")", ":", "(", s₃, ")"] (.conditional e₁ e₂ e₃)
  | call {s : String} {e : Expr} {ss : List String} {es : List Expr} (h : Stands s e)
      (hs : List.Forall₂ Stands ss es) :
      Composed ("(" :: s :: ")" :: "(" :: (ss.intersperse "," ++ [")"])) (.call e es)
  | array {ss : List String} {es : List Expr} (hs : List.Forall₂ Stands ss es) :
      Composed ("[" :: (ss.intersperse "," ++ ["]"])) (.array es)
  | index {s₁ s₂ : String} {e₁ e₂ : Expr} (h₁ : Stands s₁ e₁) (h₂ : Stands s₂ e₂) :
      Composed ["(", s₁, ")", "[", s₂, "]"] (.index e₁ e₂)
  | field {s name : String} {e : Expr} (h : Stands s e) {c : Char} {cs : List Char}
      (hname : name.toList = c :: cs) (hstart : Grammar.isNameStart c = true)
      (hchars : ∀ d ∈ cs, Grammar.isNameChar d = true) :
      Composed ["(", s, ")", ".", name] (.field e name)
  | sequence {ss : List String} {es : List Expr} (hs : List.Forall₂ Stands ss es)
      (hlength : 2 ≤ ss.length) : Composed (ss.intersperse ",") (.sequence es)

/-- **Texts of parts stand for what the parts are put together to**, from some limit on. -/
theorem Composed.exists_threshold {tokens : List String} {e : Expr} (h : Composed tokens e)
    {source : String} (hsource : Spaced tokens source.toList) :
    ∃ threshold, ∀ limit ≥ threshold, Expr.parseWithin limit source = .ok e := by
  -- a part is shorter than the text, which begins with a token of its own
  have hpart {first token : String} {more : List String} {c : Char} {cs : List Char}
      (htokens : tokens = first :: more) (hfirst : first.toList = c :: cs) (hmem : token ∈ more) :
      token.toList.length < source.toList.length :=
    (htokens ▸ hsource).length_lt_of_mem hfirst hmem
  cases h with
  | group h =>
    have hs := hpart rfl (c := '(') rfl List.mem_cons_self
    exact exists_threshold_of_chain (h.readsTokens_groupChain hs beginsWith_nil) hsource
  | @signed s _ op h =>
    obtain ⟨c, word, hspelling⟩ : ∃ c word, op.spelling.toList = c :: word := by
      cases op <;> exact ⟨_, _, rfl⟩
    have hs : s.toList.length < source.toList.length := hpart rfl hspelling (by simp)
    exact exists_threshold_of_chain (h.readsTokens_signed op hs) hsource
  | @joined s₁ s₂ _ _ op h₁ h₂ =>
    have hs₁ : s₁.toList.length < source.toList.length := hpart rfl (c := '(') rfl (by simp)
    have hs₂ : s₂.toList.length < source.toList.length := hpart rfl (c := '(') rfl (by simp)
    exact exists_threshold_of_chain (h₁.readsTokens_joined op h₂ hs₁ hs₂) hsource
  | @choice s₁ s₂ s₃ _ _ _ h₁ h₂ h₃ =>
    have hs₁ : s₁.toList.length < source.toList.length := hpart rfl (c := '(') rfl (by simp)
    have hs₃ : s₃.toList.length < source.toList.length := hpart rfl (c := '(') rfl (by simp)
    obtain ⟨n, hn⟩ : ∃ n, source.toList.length = n + 1 :=
      Nat.exists_eq_add_one_of_ne_zero (Nat.ne_zero_of_lt hs₁)
    have hs₂ : s₂.toList.length < n := by
      have hlength := hsource.tokenLength_le
      have hopen : "(".toList.length = 1 := rfl
      simp only [tokenLength_cons, hopen] at hlength
      omega
    -- the whole has a level for itself, one for its parts and one for the part in its middle
    rw [hn] at hs₁ hs₃
    have hread := h₁.readsTokens_choice h₂ h₃ hs₁ hs₂ hs₃
    have hlevels : n + 2 = source.toList.length + 1 := by rw [hn]
    rw [hlevels] at hread
    exact exists_threshold_of_chain hread hsource
  | @call s _ ss _ h hs =>
    have hcallee : s.toList.length < source.toList.length := hpart rfl (c := '(') rfl (by simp)
    have harguments : ∀ t ∈ ss, t.toList.length < source.toList.length := by
      intro t ht
      have hmem := mem_intersperse ht
      exact hpart rfl (c := '(') rfl (by simp [hmem])
    exact exists_threshold_of_chain (h.readsTokens_call hs hcallee harguments) hsource
  | @array ss _ hs =>
    have helements : ∀ t ∈ ss, t.toList.length < source.toList.length := fun t ht =>
      hpart rfl (c := '[') rfl (List.mem_append_left _ (mem_intersperse ht))
    exact exists_threshold_of_chain (readsTokens_array hs helements) hsource
  | @index s₁ s₂ _ _ h₁ h₂ =>
    have hs₁ : s₁.toList.length < source.toList.length := hpart rfl (c := '(') rfl (by simp)
    have hs₂ : s₂.toList.length < source.toList.length := hpart rfl (c := '(') rfl (by simp)
    exact exists_threshold_of_chain (h₁.readsTokens_index h₂ hs₁ hs₂) hsource
  | @field s _ _ h _ _ hname hstart hchars =>
    have hs : s.toList.length < source.toList.length := hpart rfl (c := '(') rfl (by simp)
    exact exists_threshold_of_chain (h.readsTokens_field hname hstart hchars hs) hsource
  | @sequence ss es hs hlength =>
    have hss : ∀ t ∈ ss, t.toList.length < source.toList.length + 1 := fun t ht =>
      Nat.lt_succ_of_le (hsource.length_le_of_mem (mem_intersperse ht))
    have hread := readsTokens_commaSeparated hs hss beginsWith_nil
    rw [List.append_nil] at hread
    -- there are two at least, so what is made of them is a sequence
    have hcount : es.length ≠ 1 := by
      rw [← hs.length_eq]
      omega
    exact exists_threshold_of_readsTokens hread hsource (Or.inr ⟨hcount, rfl⟩)

namespace Expr

/-- **Reading goes by the parts of a text.** Texts that stand for single expressions stand for them
in any text that they are put together to, with any gaps between the tokens: the whole stands for
what the expressions are put together to. And what is written between quotes stands for itself. -/
theorem parseWithin_composed :
    (∀ tokens e source, Composed tokens e → Spaced tokens source.toList →
      ∃ threshold, ∀ limit ≥ threshold, parseWithin limit source = .ok e) ∧
    ∀ quote, quote = '"' ∨ quote = '\'' → ∀ (s source : String),
      Spaced [String.ofList (Grammar.QuotedText.of quote s.toList).text] source.toList →
        ∀ limit ≥ 1, parseWithin limit source = .ok (.literal (.string s)) := by
  refine ⟨fun tokens e source h hsource => h.exists_threshold hsource, ?_⟩
  intro quote hquote s source hsource limit hlimit
  have hparse := parseWithin_quoted hquote hsource hlimit
  rwa [String.ofList_toList] at hparse

/-- A sum of two parts, the second of which has an operator that binds less, and a text with both
kinds of quotes and with brackets in it. -/
theorem parseWithin_composed_sum :
    ∃ e₁ e₂, Stands "a" e₁ ∧ Stands "b ?? c" e₂ ∧
      (∃ threshold, ∀ limit ≥ threshold,
        parseWithin limit "(a)\t+ ( b ?? c)" = .ok (.binary .add e₁ e₂)) ∧
      parseWithin 1 "'it\\'s [\"?'\n" = .ok (.literal (.string "it's [\"?")) := by
  have hfirst : ∃ e, Stands "a" e := exists_stands 1 (by decide +kernel)
  have hsecond : ∃ e, Stands "b ?? c" e := exists_stands 2 (by decide +kernel)
  obtain ⟨e₁, h₁⟩ := hfirst
  obtain ⟨e₂, h₂⟩ := hsecond
  have htokens : Spaced ["(", "a", ")", "+", "(", "b ?? c", ")"] "(a)\t+ ( b ?? c)".toList := by
    have hgap (gap : List Char) (h : gap.all isGap = true) : ∀ c ∈ gap, isGap c = true :=
      List.all_eq_true.mp h
    -- the text cut into gaps and tokens by turns
    have hspaced : Spaced ["(", "a", ")", "+", "(", "b ?? c", ")"]
        ("".toList ++ ("(".toList ++ ("".toList ++ ("a".toList ++ ("".toList ++ (")".toList ++
          ("\t".toList ++ ("+".toList ++ (" ".toList ++ ("(".toList ++ (" ".toList ++
            ("b ?? c".toList ++ ("".toList ++ (")".toList ++ "".toList)))))))))))))) :=
      .cons (hgap _ rfl) <| .cons (hgap _ rfl) <| .cons (hgap _ rfl) <|
        .cons (hgap _ rfl) <| .cons (hgap _ rfl) <| .cons (hgap _ rfl) <|
          .cons (hgap _ rfl) <| .nil (hgap _ rfl)
    exact hspaced
  have hquoted : Spaced [String.ofList (Grammar.QuotedText.of '\'' "it's [\"?".toList).text]
      "'it\\'s [\"?'\n".toList := by
    have hspaced : Spaced [String.ofList (Grammar.QuotedText.of '\'' "it's [\"?".toList).text]
        ("".toList ++ ((String.ofList (Grammar.QuotedText.of '\'' "it's [\"?".toList).text).toList ++
          "\n".toList)) :=
      .cons (List.all_eq_true.mp rfl) (.nil (List.all_eq_true.mp rfl))
    rw [String.toList_ofList] at hspaced
    exact hspaced
  exact ⟨e₁, e₂, h₁, h₂,
    parseWithin_composed.1 _ _ _ (Composed.joined (.binary .add) h₁ h₂) htokens,
    parseWithin_composed.2 '\'' (Or.inr rfl) "it's [\"?" _ hquoted 1 (Nat.le_refl 1)⟩

end Expr

end CheckedExpr
