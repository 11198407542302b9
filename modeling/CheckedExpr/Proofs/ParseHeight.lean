import CheckedExpr.Proofs.Descent
import CheckedExpr.Proofs.MakingRules

/-!
# Parsed expressions are no higher than the limit

A chain is held against the limit before it is known which tree it groups to. What it adds to the
depth is only an estimate: one level for each joint, the greatest number of signs and suffixes of an
operand, and one for the term. The tree is no higher than that, however its joints group: each node
of the grouping takes one joint, so that what stands below a node of `n` joints is at most `n`
levels higher than the highest operand (`Grouping.height_le_of_fold`).

* `Chain.height_le_of_toExpr`: what is made of a chain fits between its depth and the limit.
* `Expr.height_le_of_parseWithin`: so inference and evaluation, given the same limit, do not run out
  of levels on an expression that was parsed within it. A sequence adds one level that the limit
  does not count.
-/

namespace CheckedExpr

/-! ### Operands and their signs and suffixes -/

section Operands

variable {source : String} {limit depth bound : Nat} {x : Except ParseError Expr} {e : Expr}

/-- Each sign is a level of its own. -/
theorem height_foldr_unary (signs : List UnaryOp) (a : Expr) :
    (signs.foldr (fun op a => .unary op a true) a).height = signs.length + a.height := by
  induction signs with
  | nil => simp
  | cons op signs ih =>
    rw [List.foldr_cons, Expr.height, ih, List.length_cons]
    omega

/-- Expressions that are made below a depth, in a row. -/
private theorem heightAll_le_of_forall₂ {cs : List Chain} {es : List Expr} {P : Chain → Expr → Prop}
    (hcs : ∀ c ∈ cs, ∀ e, P c e → e.height ≤ bound) (h : List.Forall₂ P cs es) :
    Expr.heightAll es ≤ bound := by
  rw [Expr.heightAll_le_iff]
  exact forall_of_forall₂ h hcs

/-- A suffix adds one level to what stands left of it, if what stands inside it is lower. -/
def Suffix.AddsLevel (source : String) (limit depth : Nat) (s : Suffix) : Prop :=
  ∀ ⦃bound x e⦄, 0 < bound → limit - depth ≤ bound → (∀ a, x = .ok a → a.height ≤ bound) →
    s.toExpr source limit depth x = .ok e → e.height ≤ bound + 1

/-- A call is one level higher than its object, as its arguments are no higher than what the limit
leaves. -/
theorem Suffix.addsLevel_call {arguments : List Chain}
    (harguments : ∀ c ∈ arguments, ∀ e, c.toExpr source limit depth = .ok e →
      e.height ≤ limit - depth) : (call arguments).AddsLevel source limit depth := by
  intro bound x e _ hbound hx h
  obtain ⟨es, hes, a, ha, rfl⟩ := toExpr_call_eq_ok_iff.mp h
  have hobject : a.height ≤ bound := hx a ha
  have hall : Expr.heightAll es ≤ limit - depth := heightAll_le_of_forall₂ harguments hes
  rw [Expr.height]
  omega

/-- So is an index with its key. -/
theorem Suffix.addsLevel_index {key : Chain}
    (hkey : ∀ e, key.toExpr source limit depth = .ok e → e.height ≤ limit - depth) :
    (index key).AddsLevel source limit depth := by
  intro bound x e _ hbound hx h
  obtain ⟨k, hk, a, ha, rfl⟩ := toExpr_index_eq_ok_iff.mp h
  have hobject : a.height ≤ bound := hx a ha
  have hk : k.height ≤ limit - depth := hkey k hk
  rw [Expr.index, Expr.height]
  omega

/-- The name behind a point is a leaf. -/
theorem Suffix.addsLevel_field (name : List Char) : (field name).AddsLevel source limit depth := by
  intro bound x e hpos _ hx h
  obtain ⟨a, ha, rfl⟩ := toExpr_field_eq_ok_iff.mp h
  have hobject : a.height ≤ bound := hx a ha
  rw [Expr.field, Expr.height, Expr.height]
  omega

/-- Each suffix adds one level to what stands left of it. -/
theorem height_le_of_suffixesToExpr {suffixes : List Suffix}
    (hsuffixes : ∀ s ∈ suffixes, s.AddsLevel source limit depth) (hpos : 0 < bound)
    (hbound : limit - depth ≤ bound) (hx : ∀ a, x = .ok a → a.height ≤ bound)
    (h : suffixesToExpr source limit depth x suffixes = .ok e) :
    e.height ≤ bound + suffixes.length := by
  -- the bound goes up by one with each suffix that is put on
  induction suffixes generalizing x bound with
  | nil => exact hx e h
  | cons s suffixes ih =>
    obtain ⟨hs, hsuffixes⟩ := List.forall_mem_cons.mp hsuffixes
    rw [suffixesToExpr] at h
    have hstep : ∀ a, s.toExpr source limit depth x = .ok a → a.height ≤ bound + 1 :=
      fun a ha => hs hpos hbound hx ha
    have hrest := ih hsuffixes (by omega) (by omega) hstep h
    rw [List.length_cons]
    omega

end Operands

/-! ### Groupings -/

/-- **A tree of `n` joints is at most `n` levels higher than its operands.** -/
theorem Grouping.height_le_of_fold {tree : Grouping Chain Operand}
    {build : Chain → Except ParseError Expr} {make : Operand → Except ParseError Expr} {bound : Nat}
    (hmiddles : ∀ joint ∈ tree.joints, ∀ middle, joint = .choice middle →
      ∀ e, build middle = .ok e → e.height ≤ bound)
    (hoperands : ∀ operand ∈ tree.operands, ∀ e, make operand = .ok e → e.height ≤ bound)
    {e : Expr} (h : (tree.map build make).fold id Joint.toExpr = .ok e) :
    e.height ≤ tree.joints.length + bound := by
  induction tree generalizing e with
  | operand a =>
    have ha : e.height ≤ bound := hoperands a List.mem_cons_self e h
    exact Nat.le_trans ha (Nat.le_add_left _ _)
  | joined joint left right ihleft ihright =>
    simp only [joints, operands, List.forall_mem_append, List.forall_mem_cons]
      at hmiddles hoperands
    rw [joints, List.length_append, List.length_cons]
    have hleft {l : Expr} (hl : (left.map build make).fold id Joint.toExpr = .ok l) :
        l.height ≤ left.joints.length + bound := ihleft hmiddles.1 hoperands.1 hl
    have hright {r : Expr} (hr : (right.map build make).fold id Joint.toExpr = .ok r) :
        r.height ≤ right.joints.length + bound := ihright hmiddles.2.2 hoperands.2 hr
    -- a node takes one joint, and the joints of both sides are left for what is below it
    cases joint with
    | operator op =>
      obtain ⟨l, hl, r, hr, rfl⟩ := Joint.toExpr_operator_eq_ok_iff.mp h
      have hnode : (op.node l r).height = 1 + max l.height r.height := by
        cases op <;> rw [InfixOp.node, Expr.height]
      have hleftHeight := hleft hl
      have hrightHeight := hright hr
      omega
    | choice middle =>
      obtain ⟨m, hm, l, hl, r, hr, rfl⟩ := Joint.toExpr_choice_eq_ok_iff.mp h
      have hmiddleHeight := hmiddles.2.1 middle rfl m hm
      have hleftHeight := hleft hl
      have hrightHeight := hright hr
      rw [Expr.height]
      omega

/-! ### Chains -/

namespace Chain

/-- None of some numbers is greater than their maximum. -/
theorem le_foldl_max (n : Nat) (ns : List Nat) : ∀ m ∈ n :: ns, m ≤ ns.foldl max n := by
  induction ns generalizing n with
  | nil => simp
  | cons k ns ih =>
    have hmax := ih (max n k)
    rw [List.forall_mem_cons] at hmax
    rw [List.foldl_cons, List.forall_mem_cons, List.forall_mem_cons]
    exact ⟨Nat.le_trans (Nat.le_max_left n k) hmax.1, Nat.le_trans (Nat.le_max_right n k) hmax.1,
      hmax.2⟩

/-- Every operand of a chain has its signs and suffixes among the levels of the chain. -/
theorem run_le_levels {first : Operand} {links : List (Joint Chain × Operand)} :
    ∀ operand ∈ first :: links.map (·.2),
      links.length + operand.run + 1 ≤ levels first links := by
  intro operand hoperand
  have hrun : operand.run ∈ first.run :: links.map (·.2.run) := by
    have hmem := List.mem_map_of_mem (f := Operand.run) hoperand
    rw [List.map_cons, List.map_map] at hmem
    exact hmem
  have hle := le_foldl_max _ _ _ hrun
  rw [levels]
  omega

variable {source : String} {limit depth : Nat}

/-- What is made of a chain fits in, if what is made of its operands and middles does. -/
theorem height_le_of_toExpr_mk {offset : Nat} {first : Operand}
    {links : List (Joint Chain × Operand)}
    (hoperands : ∀ operand ∈ first :: links.map (·.2), ∀ depth e,
      operand.toExpr source limit depth = .ok e → e.height ≤ limit - depth + 1 + operand.run)
    (hmiddles : ∀ link ∈ links, ∀ middle, link.1 = .choice middle → ∀ depth e,
      middle.toExpr source limit depth = .ok e → depth + e.height ≤ limit)
    {e : Expr} (h : (mk offset first links).toExpr source limit depth = .ok e) :
    depth + e.height ≤ limit := by
  obtain ⟨hroom, hfold⟩ := toExpr_mk_eq_ok_iff.mp h
  -- the levels of the chain are those of its joints and of its longest operand, which is the bound
  have hlevels : ∀ operand ∈ first :: links.map (·.2),
      links.length + operand.run + 1 ≤ levels first links := run_le_levels
  obtain ⟨bound, hbound⟩ : ∃ bound, bound =
      limit - (depth + levels first links) + (levels first links - links.length) := ⟨_, rfl⟩
  have hmiddlesBound : ∀ joint ∈ (Grouping.ofLinks first links).joints, ∀ middle,
      joint = .choice middle → ∀ a,
        middle.toExpr source limit (depth + levels first links) = .ok a → a.height ≤ bound := by
    rw [Grouping.joints_ofLinks, List.forall_mem_map]
    intro link hlink middle hmiddle a ha
    have hfits := hmiddles link hlink middle hmiddle _ a ha
    omega
  have hoperandsBound : ∀ operand ∈ (Grouping.ofLinks first links).operands, ∀ a,
      operand.toExpr source limit (depth + levels first links) = .ok a → a.height ≤ bound := by
    rw [Grouping.operands_ofLinks]
    intro operand hoperand a ha
    have hrun := hlevels operand hoperand
    have hheight := hoperands operand hoperand _ a ha
    omega
  have hjoints : (Grouping.ofLinks first links).joints.length = links.length := by
    rw [Grouping.joints_ofLinks, List.length_map]
  have hheight := Grouping.height_le_of_fold hmiddlesBound hoperandsBound hfold
  have hrun := hlevels first List.mem_cons_self
  rw [hjoints] at hheight
  omega

/-- **What is made of a chain fits between its depth and the limit.** -/
theorem height_le_of_toExpr {c : Chain} {e : Expr} (h : c.toExpr source limit depth = .ok e) :
    depth + e.height ≤ limit := by
  revert depth e
  -- a term is one level higher than what stands in its brackets, an operand higher by its run
  induction c using Chain.tree_induction
    (O := fun operand => ∀ depth e, operand.toExpr source limit depth = .ok e →
      e.height ≤ limit - depth + 1 + operand.run)
    (T := fun term => ∀ depth e, term.toExpr source limit depth = .ok e →
      e.height ≤ limit - depth + 1)
    (S := fun s => ∀ depth, s.AddsLevel source limit depth) with
  | chain offset first links hfirst hlinks =>
    intro depth e h
    refine height_le_of_toExpr_mk ?_ (fun link hlink middle hmiddle _ _ ha => ?_) h
    · rw [List.forall_mem_cons, List.forall_mem_map]
      exact ⟨hfirst, fun link hlink => (hlinks link hlink).2⟩
    · exact (hlinks link hlink).1 middle hmiddle ha
  | operand signs term suffixes hterm hsuffixes depth e h =>
    obtain ⟨a, ha, rfl⟩ := Operand.toExpr_mk_eq_ok_iff.mp h
    have hsuffixed : a.height ≤ limit - depth + 1 + suffixes.length :=
      height_le_of_suffixesToExpr (fun s hs => hsuffixes s hs depth) (Nat.succ_pos _)
        (Nat.le_succ _) (hterm depth) ha
    rw [height_foldr_unary, Operand.run]
    omega
  | number _ _ _ h | boolean _ _ _ h | null _ _ h | this _ _ h | name _ _ _ h =>
    cases h
    rw [Expr.height]
    omega
  | text offset written depth e h =>
    obtain ⟨s, -, rfl⟩ := Term.toExpr_text_eq_ok_iff.mp h
    rw [Expr.height]
    omega
  | array elements ih depth e h =>
    obtain ⟨es, hes, rfl⟩ := Term.toExpr_array_eq_ok_iff.mp h
    have hall : Expr.heightAll es ≤ limit - depth := by
      refine heightAll_le_of_forall₂ (fun c hc e he => ?_) hes
      have hfits := ih c hc he
      omega
    rw [Expr.height]
    omega
  | group inner ih depth e h =>
    have hfits := ih h
    omega
  | call arguments ih depth =>
    refine Suffix.addsLevel_call fun c hc e he => ?_
    have hfits := ih c hc he
    omega
  | index key ih depth =>
    refine Suffix.addsLevel_index fun e he => ?_
    have hfits := ih he
    omega
  | field name depth => exact Suffix.addsLevel_field name

end Chain

/-! ### Texts -/

namespace Expr

/-- Whether an expression keeps a limit: a sequence in each of its expressions, any other
expression as a whole. -/
def KeepsLimit (limit : Nat) : Expr → Prop
  | sequence body => ∀ e ∈ body, e.height ≤ limit
  | e => e.height ≤ limit

/-- The levels that a walk needs for an expression that keeps a limit: one more for a sequence. -/
def walkLimit (limit : Nat) : Expr → Nat
  | sequence _ => limit + 1
  | _ => limit

/-- With one level more for a sequence, the whole expression is low enough. -/
theorem KeepsLimit.height_le {limit : Nat} {e : Expr} (h : e.KeepsLimit limit) :
    e.height ≤ e.walkLimit limit := by
  cases e with
  | sequence body =>
    have hall : heightAll body ≤ limit := heightAll_le_iff.mpr h
    rw [height, walkLimit]
    omega
  | _ => exact h

/-- What is made of one chain is no sequence, or keeps the limit as a whole even so. -/
theorem keepsLimit_of_height_le {limit : Nat} {e : Expr} (h : e.height ≤ limit) :
    e.KeepsLimit limit := by
  cases e with
  | sequence body =>
    rw [height] at h
    have hall : heightAll body ≤ limit := by omega
    exact heightAll_le_iff.mp hall
  | _ => exact h

/-- **What is parsed within a limit keeps it.** -/
theorem keepsLimit_of_parseWithin {limit : Nat} {source : String} {e : Expr}
    (h : parseWithin limit source = .ok e) : e.KeepsLimit limit := by
  obtain ⟨-, chains, -, es, hes, hshape⟩ := parseWithin_eq_ok_iff.mp h
  have hheights : heightAll es ≤ limit := by
    refine heightAll_le_of_forall₂ (fun c _ e he => ?_) hes
    have hfits := Chain.height_le_of_toExpr he
    omega
  rw [heightAll_le_iff] at hheights
  rcases hshape with rfl | ⟨-, rfl⟩
  · exact keepsLimit_of_height_le (hheights e List.mem_cons_self)
  · exact hheights

/-- **The limit of parsing bounds the expression.** An expression that is parsed within a limit is
no higher than the limit, or, if it is a sequence, none of its expressions is, and the whole is one
level higher at most. So inference and evaluation with that many levels do not end for want of
levels, in whatever scope and with whatever host. -/
theorem height_le_of_parseWithin {limit : Nat} {source : String} {e : Expr}
    (h : parseWithin limit source = .ok e) :
    ((∀ body, e ≠ .sequence body) → e.height ≤ limit) ∧
    (∀ body, e = .sequence body → (∀ a ∈ body, a.height ≤ limit) ∧ e.height ≤ limit + 1) ∧
    (∀ (scope : Scope Model) (cause : Nat),
      e.infer scope (.ofLimit (e.walkLimit limit)) ≠ .error (.tooDeep cause)) ∧
    ∀ (κ σ : Type) (host : Host κ σ) (scope : Scope (Value κ)) (run : Run σ) (cause : Nat),
      (e.evaluate host scope (.ofLimit (e.walkLimit limit)) run).1 ≠ .error (.tooDeep cause) := by
  -- one bound for both shapes, from which the walks get theirs
  have hkeeps : e.KeepsLimit limit := keepsLimit_of_parseWithin h
  have hwalk : e.depth ≤ e.walkLimit limit := Nat.le_trans (depth_le_height e) hkeeps.height_le
  refine ⟨?single, ?sequence, ?inference, ?evaluation⟩
  case single =>
    intro hsingle
    -- a sequence has one level more than its elements, everything else is within the limit
    cases e with
    | sequence body => exact absurd rfl (hsingle body)
    | _ => exact hkeeps
  case sequence =>
    rintro body rfl
    exact ⟨hkeeps, hkeeps.height_le⟩
  case inference =>
    intro scope cause
    exact grounded_infer hwalk cause
  case evaluation =>
    intro κ σ host scope run cause
    exact grounded_evaluate hwalk run cause

/-- A choice between operands with a sign, a suffix and brackets. Its tree has four levels, and the
estimate is six. -/
theorem height_le_of_parseWithin_choice :
    ∃ e, parseWithin 6 "-a.b ? [c] : d" = .ok e ∧ e.height = 4 ∧
      ((∀ body, e ≠ .sequence body) → e.height ≤ 6) ∧
      (∀ body, e = .sequence body → (∀ a ∈ body, a.height ≤ 6) ∧ e.height ≤ 6 + 1) ∧
      (∀ (scope : Scope Model) (cause : Nat),
        e.infer scope (.ofLimit (e.walkLimit 6)) ≠ .error (.tooDeep cause)) ∧
      ∀ (κ σ : Type) (host : Host κ σ) (scope : Scope (Value κ)) (run : Run σ) (cause : Nat),
        (e.evaluate host scope (.ofLimit (e.walkLimit 6)) run).1 ≠ .error (.tooDeep cause) := by
  have hparsed : (match parseWithin 6 "-a.b ? [c] : d" with
      | .ok e => e.height == 4
      | .error _ => false) = true := by
    decide +kernel
  cases h : parseWithin 6 "-a.b ? [c] : d" with
  | error reason =>
    rw [h] at hparsed
    cases hparsed
  | ok e =>
    rw [h] at hparsed
    exact ⟨e, rfl, beq_iff_eq.mp hparsed, height_le_of_parseWithin h⟩

end Expr

end CheckedExpr
