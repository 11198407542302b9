import CheckedExpr.Chain.Grouping

/-!
# Layouts of a row of operators

A chain is a row of tokens: terms, signs before them, suffixes behind them and joints between them.
A layout is a tree over such a row that says what each of them works on. Many layouts read as the
same row, and one of them respects how tightly signs, suffixes and joints bind. It exists, since
grouping makes it, and there is no other one, since in a layout that respects the levels its
uppermost joint can be told from the row: it is the leftmost choice, if there is a choice, and
otherwise the rightmost of the joints of the lowest level.

Groups, elements, arguments, keys and the middles of choices are chains of their own. They stay
closed here: a layout keeps the tokens they belong to as they are.

* `Layout.Respects`: what a sign, a suffix or a joint may have next to it.
* `Layout.eq_of_tokens_eq`: two layouts of one row that respect the levels are the same.
* `Chain.tokens_layout`, `Chain.respects_layout`: the layout that grouping makes is one of the row,
  and respects the levels.
-/

namespace CheckedExpr

/-- What a row is made of. -/
inductive Token where
  | term (t : Term)
  | sign (op : UnaryOp)
  | suffix (s : Suffix)
  | joint (j : Joint Chain)

/-- A tree over a row. -/
inductive Layout where
  | term (t : Term)
  | signed (op : UnaryOp) (argument : Layout)
  | suffixed (object : Layout) (suffix : Suffix)
  | joined (joint : Joint Chain) (left right : Layout)

/-! ### Joints next to each other -/

theorem InfixOp.level_pos (op : InfixOp) : 0 < op.level := by
  rcases op with op | op <;> cases op <;> decide

namespace Joint

variable {μ : Type} {j outer joint : Joint μ}

/-- Whether a joint is a choice. -/
def isChoice : Joint μ → Bool
  | choice _ => true
  | operator _ => false

/-- The lowest level is that of choices alone. -/
theorem level_eq_zero_iff : j.level = 0 ↔ j.isChoice = true := by
  cases j with
  | operator op => simpa [level, isChoice] using Nat.pos_iff_ne_zero.mp op.level_pos
  | choice middle => simp [level, isChoice]

/-- Whether a joint may have another one as the uppermost joint of its left operand: one of a lower
level never, and a choice does not have a choice there. -/
def AllowsLeft (joint left : Joint μ) : Prop :=
  joint.level ≤ left.level ∧ (joint.isChoice = true → left.level ≠ joint.level)

/-- Whether a joint may have another one as the uppermost joint of its right operand: one of a lower
level never, and an operator has none of its own level there. -/
def AllowsRight (joint right : Joint μ) : Prop :=
  joint.level ≤ right.level ∧ (joint.isChoice = false → right.level ≠ joint.level)

/-- A joint that opens to another one may have it right below itself. -/
theorem allowsRight_of_opens (h : outer.opens joint = true) : outer.AllowsRight joint := by
  cases outer with
  | choice middle => exact ⟨Nat.zero_le _, fun h => by cases h⟩
  | operator op =>
    have hlevel : op.level < joint.level := by simpa [opens] using h
    exact ⟨Nat.le_of_lt hlevel, fun _ => Nat.ne_of_gt hlevel⟩

/-- A joint that does not open to another one may stand left below it. -/
theorem allowsLeft_of_not_opens (h : ¬ outer.opens joint = true) : joint.AllowsLeft outer := by
  cases outer with
  | choice middle => exact absurd rfl h
  | operator op =>
    have hlevel : joint.level ≤ op.level := by simpa [opens] using h
    refine ⟨hlevel, fun hchoice => ?_⟩
    rw [level_eq_zero_iff.mpr hchoice]
    exact Nat.ne_of_gt op.level_pos

/-- Two joints never allow each other, the one to the right and the other to the left. -/
theorem AllowsRight.not_allowsLeft (h : outer.AllowsRight joint) : ¬ joint.AllowsLeft outer := by
  rintro ⟨hle, hne⟩
  have hlevel : outer.level = joint.level := Nat.le_antisymm h.1 hle
  -- the two are of one level, and by it either both are choices or neither is
  cases hchoice : joint.isChoice with
  | true => exact hne hchoice hlevel
  | false =>
    refine h.2 ?_ hlevel.symm
    have hpos : outer.level ≠ 0 := by
      rw [hlevel, Ne, level_eq_zero_iff, hchoice]
      exact Bool.false_ne_true
    rw [Ne, level_eq_zero_iff] at hpos
    exact Bool.eq_false_iff.mpr hpos

end Joint

namespace Layout

/-- The tokens from left to right. -/
def tokens : Layout → List Token
  | term t => [.term t]
  | signed op argument => .sign op :: argument.tokens
  | suffixed object suffix => object.tokens ++ [.suffix suffix]
  | joined joint left right => left.tokens ++ .joint joint :: right.tokens

/-- The uppermost joint, if the layout is not that of an operand. -/
def joint? : Layout → Option (Joint Chain)
  | joined joint _ _ => some joint
  | _ => none

/-- Whether the layout has a sign in front of all the rest. -/
def isSigned : Layout → Bool
  | signed .. => true
  | _ => false

/-- Whether a layout respects how tightly things bind: suffixes more than signs, signs more than
joints, and joints by their levels, where the left one of two equal ones comes first, unless they
are choices. -/
def Respects : Layout → Prop
  | term _ => True
  | signed _ argument => argument.Respects ∧ argument.joint? = none
  | suffixed object _ => object.Respects ∧ object.joint? = none ∧ object.isSigned = false
  | joined joint left right =>
    left.Respects ∧ right.Respects ∧ (∀ j, left.joint? = some j → joint.AllowsLeft j) ∧
      ∀ j, right.joint? = some j → joint.AllowsRight j

variable {t u left right : Layout} {j k : Joint Chain}

/-! ### What the row tells about the layout -/

/-- A layout without an uppermost joint has no joints at all. -/
theorem joint_notMem_tokens (ht : t.Respects) (hnone : t.joint? = none) :
    .joint k ∉ t.tokens := by
  induction t with
  | term t => simp [tokens]
  | signed op argument ih => simpa [tokens] using ih ht.1 ht.2
  | suffixed object suffix ih => simpa [tokens] using ih ht.1 ht.2.1
  | joined => cases hnone

theorem exists_joint?_of_mem (ht : t.Respects) (hk : .joint k ∈ t.tokens) :
    ∃ j, t.joint? = some j := by
  cases h : t.joint? with
  | none => exact absurd hk (joint_notMem_tokens ht h)
  | some j => exact ⟨j, rfl⟩

/-- No joint is of a lower level than the uppermost one. -/
theorem level_le_of_mem (ht : t.Respects) (hj : t.joint? = some j) (hk : .joint k ∈ t.tokens) :
    j.level ≤ k.level := by
  induction t generalizing j with
  | term | signed | suffixed => cases hj
  | joined joint left right ihleft ihright =>
    obtain rfl : joint = j := Option.some.inj hj
    obtain ⟨hleft, hright, hrespectsLeft, hrespectsRight⟩ := ht
    simp only [tokens, List.mem_append, List.mem_cons, Token.joint.injEq] at hk
    -- on either side the uppermost joint is not of a lower level, and no other one is below it
    rcases hk with hk | rfl | hk
    · obtain ⟨j, hj⟩ := exists_joint?_of_mem hleft hk
      exact Nat.le_trans (hrespectsLeft j hj).1 (ihleft hleft hj hk)
    · exact Nat.le_refl _
    · obtain ⟨j, hj⟩ := exists_joint?_of_mem hright hk
      exact Nat.le_trans (hrespectsRight j hj).1 (ihright hright hj hk)

/-- What a joint allows as the uppermost joint on its left, it allows as any joint there. -/
theorem allowsLeft_of_mem (hleft : left.Respects)
    (h : ∀ j, left.joint? = some j → k.AllowsLeft j) (hj : .joint j ∈ left.tokens) :
    k.AllowsLeft j := by
  obtain ⟨i, hi⟩ := exists_joint?_of_mem hleft hj
  have hij := level_le_of_mem hleft hi hj
  obtain ⟨hki, hne⟩ := h i hi
  exact ⟨Nat.le_trans hki hij, fun hchoice => by have := hne hchoice; omega⟩

theorem allowsRight_of_mem (hright : right.Respects)
    (h : ∀ j, right.joint? = some j → k.AllowsRight j) (hj : .joint j ∈ right.tokens) :
    k.AllowsRight j := by
  obtain ⟨i, hi⟩ := exists_joint?_of_mem hright hj
  have hij := level_le_of_mem hright hi hj
  obtain ⟨hki, hne⟩ := h i hi
  exact ⟨Nat.le_trans hki hij, fun hoperator => by have := hne hoperator; omega⟩

/-- Where one row is laid out twice, neither uppermost joint stands left of the other. -/
theorem eq_nil_of_tokens_split (hright : right.Respects)
    (hj : ∀ i, right.joint? = some i → j.AllowsRight i) (hleft : left.Respects)
    (hk : ∀ i, left.joint? = some i → k.AllowsLeft i) {before mid behind : List Token}
    (hbefore : left.tokens = before ++ mid)
    (hbehind : .joint j :: right.tokens = mid ++ .joint k :: behind) : mid = [] := by
  -- otherwise `j` stands on the left of `k` and `k` on the right of `j`, and each allows the other
  cases mid with
  | nil => rfl
  | cons first mid =>
    obtain ⟨rfl, htokens⟩ := List.cons_eq_cons.mp hbehind
    have hkj : k.AllowsLeft j := allowsLeft_of_mem hleft hk (by rw [hbefore]; simp)
    have hjk : j.AllowsRight k := allowsRight_of_mem hright hj (by rw [htokens]; simp)
    exact absurd hkj hjk.not_allowsLeft

/-- A layout without joints and signs begins with its term. -/
theorem exists_term_cons (ht : t.Respects) (hjoint : t.joint? = none) (hsign : t.isSigned = false) :
    ∃ first rest, t.tokens = .term first :: rest := by
  induction t with
  | term t => exact ⟨t, [], rfl⟩
  | signed => cases hsign
  | suffixed object suffix ih =>
    obtain ⟨first, rest, htokens⟩ := ih ht.1 ht.2.1 ht.2.2
    exact ⟨first, rest ++ [.suffix suffix], by rw [tokens, htokens, List.cons_append]⟩
  | joined => cases hjoint

/-- Whether the uppermost layer is a joint can be told from the row. -/
theorem joint?_eq_none_of_tokens_eq (ht : t.Respects) (h : t.tokens = u.tokens)
    (hnone : t.joint? = none) : u.joint? = none := by
  cases u with
  | term | signed | suffixed => rfl
  | joined k left right =>
    refine absurd ?_ (joint_notMem_tokens (k := k) ht hnone)
    rw [h, tokens]
    simp

/-- So can whether it is a sign. -/
theorem isSigned_eq_false_of_tokens_eq (ht : t.Respects) (h : t.tokens = u.tokens)
    (hjoint : t.joint? = none) (hsign : t.isSigned = false) : u.isSigned = false := by
  cases u with
  | term | suffixed | joined => rfl
  | signed op argument =>
    obtain ⟨first, rest, htokens⟩ := exists_term_cons ht hjoint hsign
    rw [htokens, tokens] at h
    cases h

/-- **There is one layout at most.** Two layouts of one row that respect the levels are the same. -/
theorem eq_of_tokens_eq (ht : t.Respects) (hu : u.Respects) (h : t.tokens = u.tokens) : t = u := by
  induction t generalizing u with
  | term t =>
    have hjoint := joint?_eq_none_of_tokens_eq ht h rfl
    have hsign := isSigned_eq_false_of_tokens_eq ht h rfl rfl
    cases u with
    | term => simpa [tokens] using h
    | signed => cases hsign
    | suffixed object suffix =>
      -- one row ends in a term, the other in a suffix
      have hlast := congrArg List.getLast? h
      simp [tokens] at hlast
    | joined => cases hjoint
  | signed op argument ih =>
    -- by the uppermost layer of either layout, which the row tells
    have hjoint := joint?_eq_none_of_tokens_eq ht h rfl
    cases u with
    | term => simp [tokens] at h
    | signed op' argument' =>
      simp only [tokens, List.cons.injEq, Token.sign.injEq] at h
      rw [h.1, ih ht.1 hu.1 h.2]
    | suffixed => cases isSigned_eq_false_of_tokens_eq hu h.symm rfl rfl
    | joined => cases hjoint
  | suffixed object suffix ih =>
    have hjoint := joint?_eq_none_of_tokens_eq ht h rfl
    have hsign := isSigned_eq_false_of_tokens_eq ht h rfl rfl
    cases u with
    | term =>
      have hlast := congrArg List.getLast? h
      simp [tokens] at hlast
    | signed => cases hsign
    | suffixed object' suffix' =>
      -- both rows end in their suffix, so they can be cut there
      obtain ⟨hobject, hsuffix⟩ := List.append_inj' h rfl
      simp only [List.cons.injEq, Token.suffix.injEq, and_true] at hsuffix
      rw [ih ht.1 hu.1 hobject, hsuffix]
    | joined => cases hjoint
  | joined joint left right ihleft ihright =>
    cases u with
    | term | signed | suffixed => cases joint?_eq_none_of_tokens_eq hu h.symm rfl
    | joined joint' left' right' =>
      obtain ⟨hleft, hright, hrespectsLeft, hrespectsRight⟩ := ht
      obtain ⟨hleft', hright', hrespectsLeft', hrespectsRight'⟩ := hu
      -- one of the two left operands is the longer one, by tokens that turn out to be none
      obtain ⟨mid, hleftTokens, hrightTokens⟩ | ⟨mid, hleftTokens, hrightTokens⟩ :=
        List.append_eq_append_iff.mp h
      · obtain rfl := eq_nil_of_tokens_split hright hrespectsRight hleft' hrespectsLeft'
          hleftTokens hrightTokens
        obtain ⟨hjoint, hrightTokens⟩ := List.cons_eq_cons.mp hrightTokens
        rw [List.append_nil] at hleftTokens
        rw [Token.joint.inj hjoint, ihleft hleft hleft' hleftTokens.symm,
          ihright hright hright' hrightTokens]
      · obtain rfl := eq_nil_of_tokens_split hright' hrespectsRight' hleft hrespectsLeft
          hleftTokens hrightTokens
        obtain ⟨hjoint, hrightTokens⟩ := List.cons_eq_cons.mp hrightTokens
        rw [List.append_nil] at hleftTokens
        rw [Token.joint.inj hjoint, ihleft hleft hleft' hleftTokens,
          ihright hright hright' hrightTokens.symm]

end Layout

/-! ### The layout that grouping makes -/

namespace Grouping

variable {μ α : Type}

/-- The uppermost joint. -/
def joint? : Grouping μ α → Option (Joint μ)
  | operand _ => none
  | joined joint _ _ => some joint

/-- Whether a grouping respects the levels of its joints. -/
def Respects : Grouping μ α → Prop
  | operand _ => True
  | joined joint left right =>
    left.Respects ∧ right.Respects ∧ (∀ j, left.joint? = some j → joint.AllowsLeft j) ∧
      ∀ j, right.joint? = some j → joint.AllowsRight j

/-- The uppermost joint stays, or is the one that was added if that was not opened to. -/
theorem joint?_add (joint : Joint μ) (a : α) (tree : Grouping μ α) :
    (tree.add joint a).joint? = tree.joint? ∨ (tree.add joint a).joint? = some joint := by
  cases tree with
  | operand b => exact Or.inr rfl
  | joined outer left right =>
    rw [add]
    split
    next => exact Or.inl rfl
    next => exact Or.inr rfl

/-- Adding a joint keeps to the levels. -/
theorem respects_add (joint : Joint μ) (a : α) {tree : Grouping μ α} (h : tree.Respects) :
    (tree.add joint a).Respects := by
  induction tree with
  | operand b => simp [add, Respects, joint?]
  | joined outer left right _ ih =>
    obtain ⟨hleft, hright, hrespectsLeft, hrespectsRight⟩ := h
    rw [add]
    split
    next hopens =>
      -- the joint goes down on the right, where it may become the uppermost one
      refine ⟨hleft, ih hright, hrespectsLeft, fun j hj => ?_⟩
      rcases joint?_add joint a right with hroot | hroot
      · exact hrespectsRight j (hroot ▸ hj)
      · obtain rfl : joint = j := Option.some.inj (hroot ▸ hj)
        exact Joint.allowsRight_of_opens hopens
    next hopens =>
      -- the joint takes all that is there as its left operand
      refine ⟨⟨hleft, hright, hrespectsLeft, hrespectsRight⟩, trivial, fun j hj => ?_,
        fun j hj => ?_⟩
      · obtain rfl : outer = j := Option.some.inj hj
        exact Joint.allowsLeft_of_not_opens hopens
      · cases hj

theorem respects_foldl_add (links : List (Joint μ × α)) {tree : Grouping μ α} (h : tree.Respects) :
    (links.foldl (fun tree (joint, a) => tree.add joint a) tree).Respects := by
  induction links generalizing tree with
  | nil => exact h
  | cons link links ih => exact ih (respects_add link.1 link.2 h)

/-- **Grouping respects the levels**, whatever the joints are. -/
theorem respects_ofLinks (first : α) (links : List (Joint μ × α)) :
    (ofLinks first links).Respects :=
  respects_foldl_add links trivial

variable {leaf : α → Layout} {tree : Grouping Chain α}

/-- The layout of a grouping, given that of its operands, has its uppermost joint. -/
theorem joint?_fold (hleaf : ∀ a, (leaf a).joint? = none) (tree : Grouping Chain α) :
    (tree.fold leaf .joined).joint? = tree.joint? := by
  cases tree with
  | operand a => exact hleaf a
  | joined joint left right => rfl

/-- The layout of a grouping respects the levels as the grouping does, since operands have no joint
on top. -/
theorem respects_fold (hleaf : ∀ a, (leaf a).Respects ∧ (leaf a).joint? = none)
    (h : tree.Respects) : (tree.fold leaf .joined).Respects := by
  induction tree with
  | operand a => exact (hleaf a).1
  | joined joint left right ihleft ihright =>
    obtain ⟨hleft, hright, hallowsLeft, hallowsRight⟩ := h
    refine ⟨ihleft hleft, ihright hright, ?_, ?_⟩
    · rw [joint?_fold fun a => (hleaf a).2]
      exact hallowsLeft
    · rw [joint?_fold fun a => (hleaf a).2]
      exact hallowsRight

/-- A joint that is added comes to stand at the end of the row, and its operand behind it. -/
theorem tokens_fold_add (joint : Joint Chain) (a : α) (tree : Grouping Chain α) :
    ((tree.add joint a).fold leaf .joined).tokens =
      (tree.fold leaf .joined).tokens ++ .joint joint :: (leaf a).tokens := by
  induction tree with
  | operand b => rfl
  | joined outer left right _ ih =>
    rw [add]
    split
    -- added below on the right, where the row ends as well
    next => simp only [fold, Layout.tokens, ih, List.append_assoc, List.cons_append]
    next => rfl

/-- The joints that are added come to stand in their order. -/
theorem tokens_fold_foldl_add (links : List (Joint Chain × α)) (tree : Grouping Chain α) :
    ((links.foldl (fun tree (joint, a) => tree.add joint a) tree).fold leaf .joined).tokens =
      (tree.fold leaf .joined).tokens ++
        links.flatMap fun (joint, a) => .joint joint :: (leaf a).tokens := by
  induction links generalizing tree with
  | nil => simp
  | cons link links ih =>
    rw [List.foldl_cons, ih, tokens_fold_add, List.flatMap_cons, List.append_assoc]

end Grouping

namespace Operand

/-- The tokens of an operand. -/
def tokens : Operand → List Token
  | .mk signs term suffixes => signs.map .sign ++ .term term :: suffixes.map .suffix

/-- The layout of an operand: suffixes come before signs. -/
def layout : Operand → Layout
  | .mk signs term suffixes => signs.foldr .signed (suffixes.foldl .suffixed (.term term))

/-- Suffixes come to stand behind the tokens of their object. -/
theorem tokens_foldl_suffixed (suffixes : List Suffix) (object : Layout) :
    (suffixes.foldl .suffixed object).tokens = object.tokens ++ suffixes.map .suffix := by
  induction suffixes generalizing object with
  | nil => simp
  | cons suffix suffixes ih => simp [ih, Layout.tokens]

/-- Signs come to stand before the tokens of their argument. -/
theorem tokens_foldr_signed (signs : List UnaryOp) (argument : Layout) :
    (signs.foldr .signed argument).tokens = signs.map .sign ++ argument.tokens := by
  induction signs with
  | nil => rfl
  | cons op signs ih => simp [ih, Layout.tokens]

/-- The layout of an operand keeps its tokens. -/
theorem tokens_layout (operand : Operand) : operand.layout.tokens = operand.tokens := by
  obtain ⟨signs, term, suffixes⟩ := operand
  rw [layout, tokens_foldr_signed, tokens_foldl_suffixed]
  rfl

/-- Suffixes may be put on what has neither joints nor signs on top. -/
theorem respects_foldl_suffixed (suffixes : List Suffix) {object : Layout}
    (h : object.Respects ∧ object.joint? = none ∧ object.isSigned = false) :
    (suffixes.foldl .suffixed object).Respects ∧
      (suffixes.foldl .suffixed object).joint? = none := by
  induction suffixes generalizing object with
  | nil => exact ⟨h.1, h.2.1⟩
  | cons suffix suffixes ih => exact ih ⟨h, rfl, rfl⟩

/-- Signs may be put on what has no joint on top. -/
theorem respects_foldr_signed (signs : List UnaryOp) {argument : Layout}
    (h : argument.Respects ∧ argument.joint? = none) :
    (signs.foldr .signed argument).Respects ∧ (signs.foldr .signed argument).joint? = none := by
  induction signs with
  | nil => exact h
  | cons op signs ih => exact ⟨ih, rfl⟩

/-- The layout of an operand respects how tightly signs and suffixes bind. -/
theorem respects_layout (operand : Operand) :
    operand.layout.Respects ∧ operand.layout.joint? = none := by
  obtain ⟨signs, term, suffixes⟩ := operand
  exact respects_foldr_signed signs (respects_foldl_suffixed suffixes ⟨trivial, rfl, rfl⟩)

end Operand

namespace Chain

/-- The tokens of a chain: the row that it is. -/
def tokens : Chain → List Token
  | .mk _ first links =>
    first.tokens ++ links.flatMap fun (joint, operand) => .joint joint :: operand.tokens

/-- The layout that grouping makes. -/
def layout : Chain → Layout
  | .mk _ first links => (Grouping.ofLinks first links).fold Operand.layout .joined

/-- Nothing of the row is lost, repeated or moved. -/
theorem tokens_layout (c : Chain) : c.layout.tokens = c.tokens := by
  obtain ⟨offset, first, links⟩ := c
  rw [layout, Grouping.ofLinks, Grouping.tokens_fold_foldl_add, tokens]
  simp only [Grouping.fold, Operand.tokens_layout]

theorem respects_layout (c : Chain) : c.layout.Respects := by
  obtain ⟨offset, first, links⟩ := c
  exact Grouping.respects_fold Operand.respects_layout (Grouping.respects_ofLinks first links)

/-- **There is one layout that respects the levels**, for every row. -/
theorem layout_unique {c : Chain} {t : Layout} (htokens : t.tokens = c.tokens)
    (ht : t.Respects) : t = c.layout :=
  Layout.eq_of_tokens_eq ht c.respects_layout (htokens.trans c.tokens_layout.symm)

end Chain

end CheckedExpr
