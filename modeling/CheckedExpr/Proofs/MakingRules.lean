import CheckedExpr.Proofs.Precedence

/-!
# When an expression is made of a chain

For each part of a chain, exactly when an expression is made of it, and which one. An expression is
made of a whole only if one is made of each of its parts, in whatever order they are looked at; and
a chain has room for the levels that it adds. Facts about what is made take a chain apart by these
equivalences and do not look at the steps of `Chain.toExpr` again.

* `Chain.toExpr_mk_eq_ok_iff`: the rule of chains, the only one that looks at the limit.
* `Joint.toExpr_operator_eq_ok_iff`, `Suffix.toExpr_call_eq_ok_iff` and their neighbours: the rules
  of the other parts.
-/

namespace CheckedExpr

/-- The expression of an operator between two expressions. -/
def InfixOp.node : InfixOp → (left right : Expr) → Expr
  | binary op => .binary op
  | logical op => .logical op

variable {source : String} {limit depth : Nat} {x y : Except ParseError Expr} {e : Expr}

/-! ### Joints -/

/-- An operator makes an expression of both its operands. -/
theorem Joint.toExpr_operator_eq_ok_iff {op : InfixOp} :
    (Joint.operator op).toExpr x y = .ok e ↔
      ∃ l, x = .ok l ∧ ∃ r, y = .ok r ∧ op.node l r = e := by
  cases op with
  | binary op | logical op =>
    unfold Joint.toExpr
    simp only [Except.bind_eq_ok_iff]
    simp [pure, Except.pure, InfixOp.node]

/-- A choice makes one of its middle and of both its operands. -/
theorem Joint.toExpr_choice_eq_ok_iff {middle : Except ParseError Expr} :
    (Joint.choice middle).toExpr x y = .ok e ↔
      ∃ m, middle = .ok m ∧ ∃ l, x = .ok l ∧ ∃ r, y = .ok r ∧ .conditional l m r = e := by
  unfold Joint.toExpr
  simp only [Except.bind_eq_ok_iff]
  simp [pure, Except.pure]

/-! ### Chains -/

/-- A chain needs room for its levels, and then its parts are put together by its grouping. -/
theorem Chain.toExpr_mk_eq_ok_iff {offset : Nat} {first : Operand}
    {links : List (Joint Chain × Operand)} :
    (Chain.mk offset first links).toExpr source limit depth = .ok e ↔
      depth + levels first links ≤ limit ∧
        ((Grouping.ofLinks first links).map
          (Chain.toExpr source limit (depth + levels first links))
          (Operand.toExpr source limit (depth + levels first links))).fold id Joint.toExpr =
            .ok e := by
  rw [Chain.toExpr]
  -- the limit is looked at before the parts are, so without room nothing is made
  by_cases hroom : limit < depth + levels first links
  · rw [if_pos hroom]
    refine iff_of_false (by simp) fun h => ?_
    exact absurd h.1 (Nat.not_le_of_lt hroom)
  · rw [if_neg hroom, and_iff_right (Nat.le_of_not_lt hroom), linksToExpr_eq_map,
      ← Grouping.map_ofLinks]

/-- Of several chains something is made if an expression is made of each. -/
theorem chainsToExpr_eq_ok_iff {cs : List Chain} {es : List Expr} :
    chainsToExpr source limit depth cs = .ok es ↔
      List.Forall₂ (fun c e => c.toExpr source limit depth = .ok e) cs es := by
  induction cs generalizing es with
  | nil =>
    rw [chainsToExpr, List.forall₂_nil_left_iff]
    simp [eq_comm]
  | cons c cs ih =>
    rw [chainsToExpr, List.forall₂_cons_left_iff]
    simp only [Except.bind_eq_ok_iff, ih]
    simp only [pure, Except.pure, Except.ok.injEq]
    -- the same parts, in the order in which the two sides bind them
    constructor
    · rintro ⟨e, he, es', hes, rfl⟩
      exact ⟨e, es', he, hes, rfl⟩
    · rintro ⟨e, es', he, hes, rfl⟩
      exact ⟨e, he, es', hes, rfl⟩

/-! ### Operands, terms and suffixes -/

/-- Signs are put before what is made of the rest, the last one first. -/
theorem foldr_applySign_eq_ok_iff {signs : List UnaryOp} :
    signs.foldr applySign x = .ok e ↔
      ∃ a, x = .ok a ∧ signs.foldr (fun op a => .unary op a true) a = e := by
  induction signs generalizing e with
  | nil => simp
  | cons op signs ih =>
    rw [List.foldr_cons, applySign, Except.map_eq_ok_iff]
    simp only [ih]
    constructor
    · rintro ⟨_, ⟨a, ha, rfl⟩, rfl⟩
      exact ⟨a, ha, rfl⟩
    · rintro ⟨a, ha, rfl⟩
      exact ⟨_, ⟨a, ha, rfl⟩, rfl⟩

/-- An operand is its term with the suffixes, and the signs before that. -/
theorem Operand.toExpr_mk_eq_ok_iff {signs : List UnaryOp} {term : Term} {suffixes : List Suffix} :
    (Operand.mk signs term suffixes).toExpr source limit depth = .ok e ↔
      ∃ a, suffixesToExpr source limit depth (term.toExpr source limit depth) suffixes = .ok a ∧
        signs.foldr (fun op a => .unary op a true) a = e := by
  rw [Operand.toExpr]
  exact foldr_applySign_eq_ok_iff

/-- A quoted text is decoded, which may fail. -/
theorem Term.toExpr_text_eq_ok_iff {offset : Nat} {written : Grammar.QuotedText} :
    (Term.text offset written).toExpr source limit depth = .ok e ↔
      ∃ s, Text.unescape written.body = .ok s ∧
        .literal (.string (String.ofList s)) = e := by
  unfold Term.toExpr
  rw [Except.bind_eq_ok_iff]
  unfold decodeText
  -- the place is looked at for the error alone
  cases Text.unescape written.body with
  | error reason => simp
  | ok s => simp [pure, Except.pure]

/-- An array is made of its elements. -/
theorem Term.toExpr_array_eq_ok_iff {elements : List Chain} :
    (Term.array elements).toExpr source limit depth = .ok e ↔
      ∃ es, List.Forall₂ (fun c e => c.toExpr source limit depth = .ok e) elements es ∧
        .array es = e := by
  unfold Term.toExpr
  simp only [Except.bind_eq_ok_iff, chainsToExpr_eq_ok_iff]
  simp [pure, Except.pure]

/-- A call is made of its arguments and of what is called. -/
theorem Suffix.toExpr_call_eq_ok_iff {arguments : List Chain} :
    (Suffix.call arguments).toExpr source limit depth x = .ok e ↔
      ∃ es, List.Forall₂ (fun c e => c.toExpr source limit depth = .ok e) arguments es ∧
        ∃ a, x = .ok a ∧ .call a es = e := by
  unfold Suffix.toExpr
  simp only [Except.bind_eq_ok_iff, chainsToExpr_eq_ok_iff]
  simp [pure, Except.pure]

/-- A member with a key is made of the key and of what it is a member of. -/
theorem Suffix.toExpr_index_eq_ok_iff {key : Chain} :
    (Suffix.index key).toExpr source limit depth x = .ok e ↔
      ∃ k, key.toExpr source limit depth = .ok k ∧ ∃ a, x = .ok a ∧ .index a k = e := by
  unfold Suffix.toExpr
  simp only [Except.bind_eq_ok_iff]
  simp [pure, Except.pure]

/-- A field is made of what it is a field of. -/
theorem Suffix.toExpr_field_eq_ok_iff {name : List Char} :
    (Suffix.field name).toExpr source limit depth x = .ok e ↔
      ∃ a, x = .ok a ∧ .field a (String.ofList name) = e := by
  unfold Suffix.toExpr
  rw [Except.bind_eq_ok_iff]
  simp [pure, Except.pure]

/-- Of a term with suffixes something is made only if something is made of the term alone. -/
theorem exists_of_suffixesToExpr_eq_ok {suffixes : List Suffix}
    (h : suffixesToExpr source limit depth x suffixes = .ok e) : ∃ a, x = .ok a := by
  induction suffixes generalizing x with
  | nil => exact ⟨e, h⟩
  | cons s suffixes ih =>
    rw [suffixesToExpr] at h
    obtain ⟨b, hb⟩ := ih h
    -- whichever suffix it is, it is made behind something
    cases s with
    | call arguments =>
      obtain ⟨_, _, a, ha, _⟩ := Suffix.toExpr_call_eq_ok_iff.mp hb
      exact ⟨a, ha⟩
    | index key =>
      obtain ⟨_, _, a, ha, _⟩ := Suffix.toExpr_index_eq_ok_iff.mp hb
      exact ⟨a, ha⟩
    | field name =>
      obtain ⟨a, ha, _⟩ := Suffix.toExpr_field_eq_ok_iff.mp hb
      exact ⟨a, ha⟩

/-- Of a term with suffixes something is made only if each suffix is made behind something. -/
theorem Suffix.exists_of_suffixesToExpr_eq_ok {suffixes : List Suffix}
    (h : suffixesToExpr source limit depth x suffixes = .ok e) :
    ∀ s ∈ suffixes, ∃ y a, s.toExpr source limit depth y = .ok a := by
  induction suffixes generalizing x with
  | nil => simp
  | cons s suffixes ih =>
    rw [suffixesToExpr] at h
    obtain ⟨a, ha⟩ := CheckedExpr.exists_of_suffixesToExpr_eq_ok h
    exact List.forall_mem_cons.mpr ⟨⟨x, a, ha⟩, ih h⟩

/-! ### Groupings -/

/-- Of a grouping something is made only if something is made of its operands and middles. -/
theorem Grouping.exists_of_fold_eq_ok {tree : Grouping Chain Operand}
    {build : Chain → Except ParseError Expr} {make : Operand → Except ParseError Expr}
    (h : (tree.map build make).fold id Joint.toExpr = .ok e) :
    (∀ joint ∈ tree.joints, ∀ middle, joint = .choice middle → ∃ m, build middle = .ok m) ∧
      ∀ operand ∈ tree.operands, ∃ a, make operand = .ok a := by
  induction tree generalizing e with
  | operand a =>
    refine ⟨by simp [joints], ?_⟩
    rw [operands, List.forall_mem_singleton]
    exact ⟨e, h⟩
  | joined joint left right ihleft ihright =>
    rw [joints, operands, List.forall_mem_append, List.forall_mem_append, List.forall_mem_cons]
    -- an operator has no middle; that of a choice is made with the operands
    cases joint with
    | operator op =>
      obtain ⟨l, hl, r, hr, -⟩ := Joint.toExpr_operator_eq_ok_iff.mp h
      have hnone : ∀ middle, Joint.operator op = .choice middle → ∃ m, build middle = .ok m := by
        rintro middle ⟨⟩
      exact ⟨⟨(ihleft hl).1, hnone, (ihright hr).1⟩, (ihleft hl).2, (ihright hr).2⟩
    | choice middle =>
      obtain ⟨m, hm, l, hl, r, hr, -⟩ := Joint.toExpr_choice_eq_ok_iff.mp h
      have hmiddle : ∀ other, Joint.choice middle = .choice other → ∃ m, build other = .ok m := by
        rintro other ⟨⟩
        exact ⟨m, hm⟩
      exact ⟨⟨(ihleft hl).1, hmiddle, (ihright hr).1⟩, (ihleft hl).2, (ihright hr).2⟩

/-! ### Texts -/

/-- A text stands for an expression if its brackets keep the limit and an expression is made of
each of its chains. One chain is the expression itself; any other number of them is a sequence. -/
theorem Expr.parseWithin_eq_ok_iff :
    Expr.parseWithin limit source = .ok e ↔
      Brackets.firstExcess? limit source.toList = none ∧
        ∃ chains, Chain.ofText source = .ok chains ∧
          ∃ es, List.Forall₂ (fun c e => c.toExpr source limit 0 = .ok e) chains es ∧
            (es = [e] ∨ es.length ≠ 1 ∧ .sequence es = e) := by
  unfold Expr.parseWithin
  cases hbrackets : Brackets.firstExcess? limit source.toList with
  | some offset => simp
  | none =>
    simp only [Except.bind_eq_ok_iff, chainsToExpr_eq_ok_iff, true_and]
    refine exists_congr fun chains => and_congr_right fun _ => ?_
    refine exists_congr fun es => and_congr_right fun _ => ?_
    -- none, one, or two and more
    rcases es with _ | ⟨a, _ | ⟨b, es⟩⟩ <;> simp [pure, Except.pure]

end CheckedExpr
