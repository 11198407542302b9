import CheckedExpr.Expr.Parse
import CheckedExpr.Proofs.ChainLexemes
import CheckedExpr.Proofs.Except
import CheckedExpr.Proofs.TreeInduction
import Mathlib.Data.List.Forall2

/-!
# Expressions respect precedence

What an expression is built for is said by layouts: a chain builds an expression if some layout of
its tokens respects the levels and denotes the expression, and likewise for the chains inside its
terms, suffixes and joints. Since a row has exactly one such layout, a chain builds one expression
at most; and an expression that is parsed is the one that its chain builds. The chains have the
lexemes of the text, of which there is one row, so nothing of the text is missing in the expression
or out of its place.

* `Chain.Builds`, `Layout.Denotes`, `Term.Denotes`: which expression a row stands for.
* `Chain.Builds.unique`: there is one at most.
* `Chain.builds_of_toExpr`: the one that grouping makes is it.
-/

namespace CheckedExpr

mutual

/-- Whether a chain builds an expression: some layout of its tokens respects the levels and denotes
the expression. -/
inductive Chain.Builds : Chain → Expr → Prop
  | intro {c : Chain} {t : Layout} {e : Expr} (htokens : t.tokens = c.tokens) (ht : t.Respects)
      (h : Layout.Denotes t e) : Chain.Builds c e

/-- Whether some chains build some expressions, each the one at its place. -/
inductive Chain.BuildAll : List Chain → List Expr → Prop
  | nil : Chain.BuildAll [] []
  | cons {c : Chain} {cs : List Chain} {e : Expr} {es : List Expr} (h : Chain.Builds c e)
      (hs : Chain.BuildAll cs es) : Chain.BuildAll (c :: cs) (e :: es)

/-- Whether a layout denotes an expression: it is the same tree. -/
inductive Layout.Denotes : Layout → Expr → Prop
  | term {t : Term} {e : Expr} (h : Term.Denotes t e) : Layout.Denotes (.term t) e
  | signed {op : UnaryOp} {argument : Layout} {e : Expr} (h : Layout.Denotes argument e) :
      Layout.Denotes (.signed op argument) (.unary op e true)
  | call {object : Layout} {arguments : List Chain} {e : Expr} {es : List Expr}
      (h : Layout.Denotes object e) (hs : Chain.BuildAll arguments es) :
      Layout.Denotes (.suffixed object (.call arguments)) (.call e es)
  | index {object : Layout} {key : Chain} {e k : Expr} (h : Layout.Denotes object e)
      (hkey : Chain.Builds key k) : Layout.Denotes (.suffixed object (.index key)) (.index e k)
  | field {object : Layout} {name : List Char} {e : Expr} (h : Layout.Denotes object e) :
      Layout.Denotes (.suffixed object (.field name)) (.field e (String.ofList name))
  | binary {op : BinaryOp} {left right : Layout} {l r : Expr} (hleft : Layout.Denotes left l)
      (hright : Layout.Denotes right r) :
      Layout.Denotes (.joined (.operator (.binary op)) left right) (.binary op l r)
  | logical {op : LogicalOp} {left right : Layout} {l r : Expr} (hleft : Layout.Denotes left l)
      (hright : Layout.Denotes right r) :
      Layout.Denotes (.joined (.operator (.logical op)) left right) (.logical op l r)
  | choice {middle : Chain} {left right : Layout} {l m r : Expr} (hleft : Layout.Denotes left l)
      (hmiddle : Chain.Builds middle m) (hright : Layout.Denotes right r) :
      Layout.Denotes (.joined (.choice middle) left right) (.conditional l m r)

/-- Whether a term denotes an expression. What stands inside brackets is a row of its own. -/
inductive Term.Denotes : Term → Expr → Prop
  | number (n : Numeral) : Term.Denotes (.number n) (.literal (.number n.value))
  | text {offset : Nat} {written : Grammar.QuotedText} {s : List Char}
      (h : Text.unescape written.body = .ok s) :
      Term.Denotes (.text offset written) (.literal (.string (String.ofList s)))
  | boolean (b : Bool) : Term.Denotes (.boolean b) (.literal (.boolean b))
  | null : Term.Denotes .null (.literal .null)
  | this : Term.Denotes .this .this
  | array {elements : List Chain} {es : List Expr} (h : Chain.BuildAll elements es) :
      Term.Denotes (.array elements) (.array es)
  | group {inner : Chain} {e : Expr} (h : Chain.Builds inner e) : Term.Denotes (.group inner) e
  | name (name : List Char) : Term.Denotes (.name name) (.identifier (String.ofList name))

end

/-! ### One expression at most -/

/-- **A chain builds one expression at most**, and likewise all that is inside it. -/
theorem Chain.Builds.unique {c : Chain} {e e' : Expr} (h : c.Builds e) (h' : c.Builds e') :
    e = e' := by
  refine @Chain.Builds.rec (fun c e _ => ∀ e', c.Builds e' → e = e')
    (fun cs es _ => ∀ es', Chain.BuildAll cs es' → es = es')
    (fun t e _ => ∀ e', t.Denotes e' → e = e') (fun t e _ => ∀ e', t.Denotes e' → e = e')
    ?intro ?nil ?cons ?term ?signed ?call ?index ?field ?binary ?logical ?choice ?number ?text
    ?boolean ?null ?this ?array ?group ?name c e h e' h'
  case intro =>
    -- both layouts are of the same tokens and respect the levels, so they are one
    rintro c t e htokens ht - ih e' ⟨htokens', ht', h'⟩
    obtain rfl := Layout.eq_of_tokens_eq ht ht' (htokens.trans htokens'.symm)
    exact ih e' h'
  case nil => rintro es' ⟨⟩; rfl
  case cons =>
    rintro c cs e es - - ih ihs _ (_ | ⟨h, hs⟩)
    rw [ih _ h, ihs _ hs]
  case term =>
    rintro t e - ih _ (h | _)
    exact ih _ h
  case signed =>
    rintro op argument e - ih _ (_ | h)
    rw [ih _ h]
  case call =>
    rintro object arguments e es - - ih ihs _ (_ | _ | ⟨h, hs⟩)
    rw [ih _ h, ihs _ hs]
  case index =>
    rintro object key e k - - ih ihkey _ (_ | _ | _ | ⟨h, hkey⟩)
    rw [ih _ h, ihkey _ hkey]
  case field =>
    rintro object name e - ih _ (_ | _ | _ | _ | h)
    rw [ih _ h]
  case binary =>
    rintro op left right l r - - ihleft ihright _ (_ | _ | _ | _ | _ | ⟨hleft, hright⟩)
    rw [ihleft _ hleft, ihright _ hright]
  case logical =>
    rintro op left right l r - - ihleft ihright _ (_ | _ | _ | _ | _ | _ | ⟨hleft, hright⟩)
    rw [ihleft _ hleft, ihright _ hright]
  case choice =>
    rintro middle left right l m r - - - ihleft ihmiddle ihright _ h'
    cases h' with
    | choice hleft hmiddle hright => rw [ihleft _ hleft, ihmiddle _ hmiddle, ihright _ hright]
  case number | boolean | name => rintro _ _ ⟨⟩; rfl
  case null | this => rintro _ ⟨⟩; rfl
  case text =>
    rintro offset written s h e' h'
    cases h' with
    | text h' => rw [Except.ok.inj (h.symm.trans h')]
  case array =>
    rintro elements es - ih e' h'
    cases h' with
    | array h => rw [ih _ h]
  case group =>
    rintro inner e - ih e' h'
    cases h' with
    | group h => exact ih _ h

/-! ### What grouping makes -/

/-- The joint with something else made of its middle. -/
def Joint.map {μ ν : Type} (f : μ → ν) : Joint μ → Joint ν
  | operator op => .operator op
  | choice middle => .choice (f middle)

/-- What the middle of a choice is made into does not change the level of the joint. -/
@[simp] theorem Joint.level_map {μ ν : Type} (f : μ → ν) (j : Joint μ) :
    (j.map f).level = j.level := by
  cases j <;> rfl

@[simp] theorem Joint.opens_map {μ ν : Type} (f : μ → ν) (j k : Joint μ) :
    (j.map f).opens (k.map f) = j.opens k := by
  cases j with
  | operator op =>
    change decide (op.level < (k.map f).level) = decide (op.level < k.level)
    rw [level_map]
  | choice middle => rfl

namespace Grouping

variable {μ ν α β γ : Type} (f : μ → ν) (g : α → β)

/-- The grouping with something else made of its middles and operands. -/
def map : Grouping μ α → Grouping ν β
  | operand a => operand (g a)
  | joined joint left right => joined (joint.map f) left.map right.map

/-- Grouping looks at the levels of joints only. -/
theorem map_add (joint : Joint μ) (a : α) (tree : Grouping μ α) :
    (tree.add joint a).map f g = (tree.map f g).add (joint.map f) (g a) := by
  induction tree with
  | operand b => rfl
  | joined outer left right _ ih =>
    simp only [add, map, Joint.opens_map]
    split <;> simp [map, ih]

/-- So grouping comes before or after what is made of the operands, to the same effect. -/
theorem map_ofLinks (first : α) (links : List (Joint μ × α)) :
    (ofLinks first links).map f g =
      ofLinks (g first) (links.map fun (joint, a) => (joint.map f, g a)) := by
  -- adding to any tree, not only to the first operand, so that the induction goes through
  suffices h : ∀ tree : Grouping μ α,
      (links.foldl (fun tree (joint, a) => tree.add joint a) tree).map f g =
        (links.map fun (joint, a) => (joint.map f, g a)).foldl
          (fun tree (joint, a) => tree.add joint a) (tree.map f g) from h (operand first)
  induction links with
  | nil => intro tree; rfl
  | cons link links ih => intro tree; simp [ih, map_add]

end Grouping

/-! ### What is made of a chain -/

section Making

variable {source : String} {limit depth : Nat}

/-- Whether what is made of a layout is what the layout denotes, if anything is made of it. -/
def Layout.Stands (t : Layout) (made : Except ParseError Expr) : Prop :=
  ∀ e, made = .ok e → t.Denotes e

/-- What is made of links is made of each joint and each operand on its own. -/
theorem linksToExpr_eq_map (links : List (Joint Chain × Operand)) :
    linksToExpr source limit depth links = links.map fun (joint, operand) =>
      (joint.map (Chain.toExpr source limit depth), operand.toExpr source limit depth) := by
  induction links with
  | nil => rfl
  | cons link links ih =>
    obtain ⟨joint | middle, operand⟩ := link <;> rw [linksToExpr, ih] <;> rfl

/-- What is made of a chain that keeps the limit, by its grouping. -/
theorem Chain.toExpr_mk (offset : Nat) (first : Operand) (links : List (Joint Chain × Operand))
    {e : Expr} (h : (Chain.mk offset first links).toExpr source limit depth = .ok e) :
    ((Grouping.ofLinks first links).map
      (Chain.toExpr source limit (depth + Chain.levels first links))
      (Operand.toExpr source limit (depth + Chain.levels first links))).fold id Joint.toExpr =
        .ok e := by
  rw [Chain.toExpr] at h
  split at h
  next => cases h
  next =>
    -- what is folded is the grouping of the results, which is the grouping of the rows, carried
    -- over
    rw [linksToExpr_eq_map, ← Grouping.map_ofLinks] at h
    exact h

namespace Layout

variable {t left right : Layout} {x y : Except ParseError Expr}

/-- A sign is put on what its argument stands for. -/
theorem Stands.signed (h : t.Stands x) (op : UnaryOp) : (signed op t).Stands (applySign op x) := by
  intro e he
  obtain ⟨a, ha, rfl⟩ := Except.map_eq_ok_iff.mp he
  exact .signed (h a ha)

/-- Signs are put on from the inside out. -/
theorem Stands.foldr_signed (h : t.Stands x) (signs : List UnaryOp) :
    Stands (signs.foldr .signed t) (signs.foldr applySign x) := by
  induction signs with
  | nil => exact h
  | cons op signs ih => exact ih.signed op

/-- Suffixes are put on from left to right, each on what is made up to there. -/
theorem Stands.suffixesToExpr {suffixes : List Suffix}
    (hsuffixes : ∀ s ∈ suffixes, ∀ t x, Stands t x →
      Stands (suffixed t s) (s.toExpr source limit depth x))
    (h : t.Stands x) :
    Stands (suffixes.foldl .suffixed t)
      (CheckedExpr.suffixesToExpr source limit depth x suffixes) := by
  -- each suffix is put behind all that stands before it, so the text grows along with the induction
  induction suffixes generalizing t x with
  | nil => exact h
  | cons s suffixes ih =>
    obtain ⟨hs, hsuffixes⟩ := List.forall_mem_cons.mp hsuffixes
    rw [CheckedExpr.suffixesToExpr]
    exact ih hsuffixes (hs t x h)

/-- A joint is built of its two operands, and a choice of its middle too. -/
theorem Stands.joined {joint : Joint Chain} {build : Chain → Except ParseError Expr}
    (hjoint : ∀ middle, joint = .choice middle → ∀ e, build middle = .ok e → middle.Builds e)
    (hleft : left.Stands x) (hright : right.Stands y) :
    (joined joint left right).Stands ((joint.map build).toExpr x y) := by
  intro e he
  -- an operator makes its left operand first; a choice makes its middle before both others
  rcases joint with (op | op) | middle
  · obtain ⟨l, hl, he⟩ := Except.bind_eq_ok_iff.mp he
    obtain ⟨r, hr, he⟩ := Except.bind_eq_ok_iff.mp he
    cases he
    exact .binary (hleft l hl) (hright r hr)
  · obtain ⟨l, hl, he⟩ := Except.bind_eq_ok_iff.mp he
    obtain ⟨r, hr, he⟩ := Except.bind_eq_ok_iff.mp he
    cases he
    exact .logical (hleft l hl) (hright r hr)
  · obtain ⟨m, hm, he⟩ := Except.bind_eq_ok_iff.mp he
    obtain ⟨l, hl, he⟩ := Except.bind_eq_ok_iff.mp he
    obtain ⟨r, hr, he⟩ := Except.bind_eq_ok_iff.mp he
    cases he
    exact .choice (hleft l hl) (hjoint middle rfl m hm) (hright r hr)

/-- The layout of a grouping stands for what is made of the grouping. -/
theorem stands_fold {tree : Grouping Chain Operand} {build : Chain → Except ParseError Expr}
    {make : Operand → Except ParseError Expr}
    (hmiddles : ∀ joint ∈ tree.joints, ∀ middle, joint = .choice middle →
      ∀ e, build middle = .ok e → middle.Builds e)
    (hoperands : ∀ operand ∈ tree.operands, operand.layout.Stands (make operand)) :
    Stands (tree.fold Operand.layout .joined) ((tree.map build make).fold id Joint.toExpr) := by
  induction tree with
  | operand a => exact hoperands a List.mem_cons_self
  | joined joint left right ihleft ihright =>
    -- the joint in the middle, and what is said of either side
    simp only [Grouping.joints, Grouping.operands, List.forall_mem_append,
      List.forall_mem_cons] at hmiddles hoperands
    exact .joined hmiddles.2.1 (ihleft hmiddles.1 hoperands.1)
      (ihright hmiddles.2.2 hoperands.2)

end Layout

/-- Chains that are made one after the other build their expressions one by one. -/
theorem buildAll_of_chainsToExpr {cs : List Chain} {es : List Expr}
    (hcs : ∀ c ∈ cs, ∀ e, c.toExpr source limit depth = .ok e → c.Builds e)
    (h : chainsToExpr source limit depth cs = .ok es) : Chain.BuildAll cs es := by
  induction cs generalizing es with
  | nil =>
    cases h
    exact .nil
  | cons c cs ih =>
    obtain ⟨hc, hcs⟩ := List.forall_mem_cons.mp hcs
    rw [chainsToExpr] at h
    obtain ⟨e, he, h⟩ := Except.bind_eq_ok_iff.mp h
    obtain ⟨rest, hrest, h⟩ := Except.bind_eq_ok_iff.mp h
    cases h
    exact .cons (hc e he) (ih hcs hrest)

namespace Layout

variable {t : Layout} {x : Except ParseError Expr}

/-- A quoted text stands for the string that its escapes spell. -/
theorem stands_text (offset : Nat) (written : Grammar.QuotedText) :
    (term (.text offset written)).Stands
      ((Term.text offset written).toExpr source limit depth) := by
  intro e h
  obtain ⟨s, hs, h⟩ := Except.bind_eq_ok_iff.mp h
  cases h
  -- the text was decoded, or there would be an error
  unfold decodeText at hs
  split at hs
  next hbody =>
    cases hs
    exact .term (.text hbody)
  next => cases hs

/-- An array stands for its elements in their order. -/
theorem stands_array {elements : List Chain}
    (helements : ∀ c ∈ elements, ∀ e, c.toExpr source limit depth = .ok e → c.Builds e) :
    (term (.array elements)).Stands ((Term.array elements).toExpr source limit depth) := by
  intro e h
  obtain ⟨es, hes, h⟩ := Except.bind_eq_ok_iff.mp h
  cases h
  exact .term (.array (buildAll_of_chainsToExpr helements hes))

/-- A call stands for the object that is called, with its arguments in their order. -/
theorem Stands.call {arguments : List Chain} (ht : t.Stands x)
    (harguments : ∀ c ∈ arguments, ∀ e, c.toExpr source limit depth = .ok e → c.Builds e) :
    (suffixed t (.call arguments)).Stands
      ((Suffix.call arguments).toExpr source limit depth x) := by
  intro e h
  obtain ⟨es, hes, h⟩ := Except.bind_eq_ok_iff.mp h
  obtain ⟨a, ha, h⟩ := Except.bind_eq_ok_iff.mp h
  cases h
  exact .call (ht a ha) (buildAll_of_chainsToExpr harguments hes)

/-- An index stands for the object and the key, which is a row of its own. -/
theorem Stands.index {key : Chain} (ht : t.Stands x)
    (hkey : ∀ e, key.toExpr source limit depth = .ok e → key.Builds e) :
    (suffixed t (.index key)).Stands ((Suffix.index key).toExpr source limit depth x) := by
  intro e h
  obtain ⟨k, hk, h⟩ := Except.bind_eq_ok_iff.mp h
  obtain ⟨a, ha, h⟩ := Except.bind_eq_ok_iff.mp h
  cases h
  exact .index (ht a ha) (hkey k hk)

/-- A field stands for the object and the name behind the point. -/
theorem Stands.field (ht : t.Stands x) (name : List Char) :
    (suffixed t (.field name)).Stands ((Suffix.field name).toExpr source limit depth x) := by
  intro e h
  obtain ⟨a, ha, h⟩ := Except.bind_eq_ok_iff.mp h
  cases h
  exact .field (ht a ha)

end Layout

/-- **What is made of a chain is what the chain builds.** -/
theorem Chain.builds_of_toExpr {c : Chain} {e : Expr} (h : c.toExpr source limit depth = .ok e) :
    c.Builds e := by
  -- operands, terms and suffixes stand for what is made of them at every depth
  revert depth e
  induction c using Chain.tree_induction
    (O := fun operand => ∀ depth, operand.layout.Stands (operand.toExpr source limit depth))
    (T := fun term => ∀ depth, (Layout.term term).Stands (term.toExpr source limit depth))
    (S := fun s => ∀ depth t x, Layout.Stands t x →
      (Layout.suffixed t s).Stands (s.toExpr source limit depth x)) with
  | chain offset first links hfirst hlinks =>
    intro depth e h
    -- the witness is the layout that grouping makes, which has the tokens and respects the levels
    have hmade := Chain.toExpr_mk offset first links h
    refine ⟨Chain.tokens_layout _, Chain.respects_layout _, Layout.stands_fold ?_ ?_ e hmade⟩
    · rw [Grouping.joints_ofLinks, List.forall_mem_map]
      exact fun link hlink middle hmiddle e => (hlinks link hlink).1 middle hmiddle
    · rw [Grouping.operands_ofLinks, List.forall_mem_cons, List.forall_mem_map]
      exact ⟨hfirst _, fun link hlink => (hlinks link hlink).2 _⟩
  | operand signs term suffixes hterm hsuffixes depth =>
    rw [Operand.toExpr]
    exact (Layout.Stands.suffixesToExpr (fun s hs => hsuffixes s hs depth)
      (hterm depth)).foldr_signed signs
  | number n depth =>
    rintro e ⟨⟩
    exact .term (.number n)
  | text offset written depth => exact Layout.stands_text offset written
  | boolean b depth =>
    rintro e ⟨⟩
    exact .term (.boolean b)
  | null depth =>
    rintro e ⟨⟩
    exact .term .null
  | this depth =>
    rintro e ⟨⟩
    exact .term .this
  | array elements ih depth => exact Layout.stands_array fun c hc e => ih c hc
  | group inner ih depth =>
    intro e h
    exact .term (.group (ih h))
  | name name depth =>
    rintro e ⟨⟩
    exact .term (.name name)
  | call arguments ih depth t x ht => exact ht.call fun c hc e => ih c hc
  | index key ih depth t x ht => exact ht.index fun e => ih
  | field name depth t x ht => exact ht.field name

end Making

/-- The operators by their levels. The lowest level is left to choices. -/
def InfixOp.spellingsByLevel : List (List String) :=
  [[], ["||"], ["&&"], ["|"], ["^"], ["&", "??"], ["==", "!=", "===", "!=="],
    ["<", ">", "<=", ">="], ["<<", ">>", ">>>"], ["+", "-"], ["*", "/", "%"], ["in"]]

/-- The level of an operator is the place of its spelling in the table. -/
theorem InfixOp.level_eq_findIdx (op : InfixOp) :
    op.level = spellingsByLevel.findIdx (·.contains op.spelling) := by
  rcases op with op | op <;> cases op <;> decide

/-- **Precedence.** What a text is parsed as is built from the rows that it is read as. A text has one
row of lexemes at most, and the lexemes of the rows are those of the text, none lost, repeated or
moved; and a row, also one inside brackets, has the lexemes of its tokens. Each row has exactly one
layout of its tokens that respects the levels. So what is built for a row is unique. -/
theorem Expr.parseWithin_respects {limit : Nat} {source : String} {e : Expr}
    (h : parseWithin limit source = .ok e) :
    (∃ chains es, Chain.ofText source = .ok chains ∧ Lexes (rowLexemes chains) source.toList [] ∧
      Chain.BuildAll chains es ∧ (es = [e] ∨ es.length ≠ 1 ∧ e = .sequence es)) ∧
    (∀ ls ls' : List Lexeme, Lexes ls source.toList [] → Lexes ls' source.toList [] → ls = ls') ∧
    (∀ c : Chain, c.lexemes = c.tokens.flatMap Token.lexemes) ∧
    (∀ c : Chain, ∃! t : Layout, t.tokens = c.tokens ∧ t.Respects) ∧
    (∀ (c : Chain) (a b : Expr), c.Builds a → c.Builds b → a = b) ∧
    ∀ op : InfixOp, op.level = InfixOp.spellingsByLevel.findIdx (·.contains op.spelling) := by
  refine ⟨?parsed, fun ls ls' h h' => h.unique h' rfl, Chain.lexemes_eq_tokens, fun c => ?layouts,
    fun c a b => Chain.Builds.unique, InfixOp.level_eq_findIdx⟩
  case parsed =>
    unfold parseWithin at h
    split at h
    -- brackets that are nested too deeply are refused before anything is read
    next => cases h
    next =>
      obtain ⟨chains, hchains, h⟩ := Except.bind_eq_ok_iff.mp h
      obtain ⟨es, hes, h⟩ := Except.bind_eq_ok_iff.mp h
      refine ⟨chains, es, hchains, Chain.lexes_of_ofText hchains,
        buildAll_of_chainsToExpr (fun c _ e => Chain.builds_of_toExpr) hes, ?_⟩
      -- a single row is the expression itself, several are a sequence
      split at h
      next a =>
        cases h
        exact Or.inl rfl
      next hnotOne =>
        cases h
        refine Or.inr ⟨fun hlength => ?_, rfl⟩
        obtain ⟨a, rfl⟩ := List.length_eq_one_iff.mp hlength
        exact hnotOne a rfl
  case layouts =>
    refine ⟨c.layout, ⟨c.tokens_layout, c.respects_layout⟩, ?_⟩
    rintro t ⟨htokens, ht⟩
    exact Chain.layout_unique htokens ht

/-- A text with signs, brackets, a choice and operators of six levels: what it is parsed as, and its
lexemes, which are those of the row that is read. -/
theorem Expr.parseWithin_respects_mixed :
    (match parseWithin 10 "!a || b in [c] ? d : e - f.g * h" with
      | .ok (.conditional (.logical .or (.unary .not _ true) (.binary .isIn _ (.array [_]))) _
          (.binary .sub _ (.binary .mul (.member false _ _) _))) => true
      | _ => false) = true ∧
    ∃ e chains es, parseWithin 10 "!a || b in [c] ? d : e - f.g * h" = .ok e ∧
      Chain.ofText "!a || b in [c] ? d : e - f.g * h" = .ok chains ∧
        Lexes (rowLexemes chains) "!a || b in [c] ? d : e - f.g * h".toList [] ∧
        (rowLexemes chains).map (String.ofList ·.chars) =
          ["!", "a", "||", "b", "in", "[", "c", "]", "?", "d", ":", "e", "-", "f", ".", "g", "*",
            "h"] ∧
        Chain.BuildAll chains es ∧ (es = [e] ∨ es.length ≠ 1 ∧ e = .sequence es) := by
  have hshape : (match parseWithin 10 "!a || b in [c] ? d : e - f.g * h" with
      | .ok (.conditional (.logical .or (.unary .not _ true) (.binary .isIn _ (.array [_]))) _
          (.binary .sub _ (.binary .mul (.member false _ _) _))) => true
      | _ => false) = true := by
    decide +kernel
  have hlexemes : (Chain.ofText "!a || b in [c] ? d : e - f.g * h").toOption.map
      (fun chains => (rowLexemes chains).map (String.ofList ·.chars)) =
        some ["!", "a", "||", "b", "in", "[", "c", "]", "?", "d", ":", "e", "-", "f", ".", "g",
          "*", "h"] := by
    decide +kernel
  refine ⟨hshape, ?_⟩
  cases h : parseWithin 10 "!a || b in [c] ? d : e - f.g * h" with
  | error reason =>
    rw [h] at hshape
    cases hshape
  | ok e =>
    obtain ⟨chains, es, hchains, hlexes, hbuild⟩ := (parseWithin_respects h).1
    rw [hchains] at hlexemes
    exact ⟨e, chains, es, rfl, hchains, hlexes, Option.some.inj hlexemes, hbuild⟩

end CheckedExpr
