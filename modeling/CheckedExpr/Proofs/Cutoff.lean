import CheckedExpr.Proofs.BracketDepth
import CheckedExpr.Proofs.MakingRules

/-!
# The limit on nesting is a cutoff

What is made of a text depends on the limit, and so do the errors: several parts of a text may be at
fault at once, and nesting is only one of the faults. Still the limit can do no more than cut off.
Seen as a function of the limit, a result is a *cutoff* if it is an error of nesting below some
threshold and one and the same result, which is no such error, from there on. Steps in a row make a
cutoff of cutoffs (`Cutoff.bind`): a limit that lets the first step pass lets it end as every
greater limit does, so it is the same part of the text that decides.

* `Cutoff.bind`, `Cutoff.guard`: the steps that making an expression is put together from.
* `Chain.cutoff_toExpr`: what is made of a chain is a cutoff.
* `Expr.cutoff_parseWithin`: so is what a text is parsed as, counting of brackets included.
-/

namespace CheckedExpr

/-- Whether an error is about nesting past a limit. -/
def ParseError.IsTooDeep (e : ParseError) : Prop := e.toFailure.kind = .resourceExceeded

/-- Every other error is about the text. -/
theorem ParseError.isTooDeep_iff {e : ParseError} :
    e.IsTooDeep ↔ ∃ limit, e.cause = .tooDeep limit := by
  unfold IsTooDeep toFailure
  cases e.cause with
  | tooDeep limit => simp
  | unexpected | invalidLiteral | duplicateKey => simp

/-- What is not an error of nesting is one of syntax. -/
theorem ParseError.kind_of_not_isTooDeep {e : ParseError} (h : ¬ e.IsTooDeep) :
    e.toFailure.kind = .syntaxError := by
  rw [isTooDeep_iff] at h
  unfold toFailure
  cases hcause : e.cause with
  | tooDeep limit => exact absurd ⟨limit, hcause⟩ h
  | unexpected | invalidLiteral | duplicateKey => rfl

/-- The error of a limit is one of nesting, wherever it is placed. -/
theorem ParseError.isTooDeep_mk (source : String) (limit : Nat) (span : Span) :
    (ParseError.mk source (.tooDeep limit) span).IsTooDeep :=
  isTooDeep_iff.mpr ⟨limit, rfl⟩

/-- Whether a result, as a function of the limit, is an error of nesting below a threshold and one
and the same result from there on, which is no error of nesting. -/
def Cutoff {α : Type} (x : Nat → Except ParseError α) : Prop :=
  ∃ threshold, (∀ limit < threshold, ∃ e, x limit = .error e ∧ e.IsTooDeep) ∧
    ∃ result, (∀ e, result = .error e → ¬ e.IsTooDeep) ∧ ∀ limit ≥ threshold, x limit = result

namespace Cutoff

variable {α β : Type} {x : Nat → Except ParseError α}

/-! ### Steps -/

theorem const {result : Except ParseError α} (h : ∀ e, result = .error e → ¬ e.IsTooDeep) :
    Cutoff fun _ => result :=
  ⟨0, fun _ hlimit => absurd hlimit (Nat.not_lt_zero _), result, h, fun _ _ => rfl⟩

theorem ok (a : α) : Cutoff fun _ => .ok a :=
  const fun e he => by cases he

/-- Steps in a row. -/
theorem bind {next : Nat → α → Except ParseError β} (hx : Cutoff x)
    (hnext : ∀ a, Cutoff fun limit => next limit a) :
    Cutoff fun limit => x limit >>= next limit := by
  obtain ⟨threshold, hbelow, result, hresult, habove⟩ := hx
  have hlow {limit : Nat} (hlimit : limit < threshold) :
      ∃ e, (x limit >>= next limit) = .error e ∧ e.IsTooDeep := by
    obtain ⟨e, he, hdeep⟩ := hbelow limit hlimit
    exact ⟨e, by rw [he]; rfl, hdeep⟩
  cases result with
  | error e =>
    -- the first step fails for good, so the second one is never made
    refine ⟨threshold, fun limit hlimit => hlow hlimit, .error e, ?_, fun limit hlimit => ?_⟩
    · intro e' he'
      cases he'
      exact hresult e rfl
    · show (x limit >>= next limit) = _
      rw [habove limit hlimit]
      rfl
  | ok a =>
    obtain ⟨threshold', hbelow', result', hresult', habove'⟩ := hnext a
    refine ⟨max threshold threshold', fun limit hlimit => ?_, result', hresult',
      fun limit hlimit => ?_⟩
    · by_cases hfirst : limit < threshold
      · exact hlow hfirst
      · obtain ⟨e, he, hdeep⟩ := hbelow' limit (by omega)
        refine ⟨e, ?_, hdeep⟩
        show (x limit >>= next limit) = _
        rw [habove limit (by omega)]
        exact he
    · show (x limit >>= next limit) = _
      rw [habove limit (by omega)]
      exact habove' limit (by omega)

/-- What a result is made into does not depend on the limit either. -/
theorem map (hx : Cutoff x) (f : α → β) : Cutoff fun limit => (x limit).map f := by
  have hbind : Cutoff fun limit => x limit >>= fun a => .ok (f a) := hx.bind fun a => ok (f a)
  have heq : (fun limit => (x limit).map f) = fun limit => x limit >>= fun a => .ok (f a) := by
    funext limit
    cases x limit <;> rfl
  rw [heq]
  exact hbind

/-- A test of the limit before all other steps. -/
theorem guard {y : Nat → Except ParseError α} (room : Nat) (hx : Cutoff x)
    (hbelow : ∀ limit < room, ∃ e, y limit = .error e ∧ e.IsTooDeep)
    (habove : ∀ limit ≥ room, y limit = x limit) : Cutoff y := by
  obtain ⟨threshold, hbelow', result, hresult, habove'⟩ := hx
  -- both thresholds must be reached, and the test fails with an error of nesting too
  refine ⟨max room threshold, fun limit hlimit => ?_, result, hresult, fun limit hlimit => ?_⟩
  · by_cases hroom : limit < room
    · exact hbelow limit hroom
    · rw [habove limit (by omega)]
      exact hbelow' limit (by omega)
  · rw [habove limit (by omega)]
    exact habove' limit (by omega)

/-- A result that is there at one limit is there at every limit at which nesting is no fault. -/
theorem eq_ok_or_isTooDeep (hx : Cutoff x) {limit : Nat} {a : α} (h : x limit = .ok a)
    (limit' : Nat) : x limit' = .ok a ∨ ∃ e, x limit' = .error e ∧ e.IsTooDeep := by
  obtain ⟨threshold, hbelow, result, -, habove⟩ := hx
  have hresult : result = .ok a := by
    by_cases hlimit : limit < threshold
    · obtain ⟨e, he, -⟩ := hbelow limit hlimit
      rw [h] at he
      cases he
    · rw [← habove limit (by omega)]
      exact h
  by_cases hlimit : limit' < threshold
  · exact Or.inr (hbelow limit' hlimit)
  · exact Or.inl ((habove limit' (by omega)).trans hresult)

end Cutoff

/-! ### Chains -/

section Making

variable {source : String} {depth : Nat} {x y : Nat → Except ParseError Expr}

/-- A joint of cutoffs is a cutoff: its parts are made one after the other. -/
theorem cutoff_joint {joint : Joint Chain} {build : Nat → Chain → Except ParseError Expr}
    (hjoint : ∀ middle, joint = .choice middle → Cutoff fun limit => build limit middle)
    (hx : Cutoff x) (hy : Cutoff y) :
    Cutoff fun limit => (joint.map (build limit)).toExpr (x limit) (y limit) := by
  rcases joint with (op | op) | middle
  · exact hx.bind fun l => hy.bind fun r => .ok _
  · exact hx.bind fun l => hy.bind fun r => .ok _
  · exact (hjoint middle rfl).bind fun m => hx.bind fun l => hy.bind fun r => .ok _

/-- The tree of a chain is the same for every limit. -/
theorem cutoff_fold {tree : Grouping Chain Operand}
    {build : Nat → Chain → Except ParseError Expr} {make : Nat → Operand → Except ParseError Expr}
    (hmiddles : ∀ joint ∈ tree.joints, ∀ middle, joint = .choice middle →
      Cutoff fun limit => build limit middle)
    (hoperands : ∀ operand ∈ tree.operands, Cutoff fun limit => make limit operand) :
    Cutoff fun limit => (tree.map (build limit) (make limit)).fold id Joint.toExpr := by
  induction tree with
  | operand a => exact hoperands a List.mem_cons_self
  | joined joint left right ihleft ihright =>
    simp only [Grouping.joints, Grouping.operands, List.forall_mem_append, List.forall_mem_cons]
      at hmiddles hoperands
    exact cutoff_joint hmiddles.2.1 (ihleft hmiddles.1 hoperands.1)
      (ihright hmiddles.2.2 hoperands.2)

/-- Several chains are made one after the other. -/
theorem cutoff_chainsToExpr {cs : List Chain}
    (hcs : ∀ c ∈ cs, Cutoff fun limit => c.toExpr source limit depth) :
    Cutoff fun limit => chainsToExpr source limit depth cs := by
  induction cs with
  | nil => exact .ok []
  | cons c cs ih =>
    obtain ⟨hc, hcs⟩ := List.forall_mem_cons.mp hcs
    exact hc.bind fun e => (ih hcs).bind fun es => .ok _

/-- Suffixes are put on a cutoff one after the other. -/
theorem cutoff_suffixesToExpr {suffixes : List Suffix}
    (hsuffixes : ∀ s ∈ suffixes, ∀ x, Cutoff x →
      Cutoff fun limit => s.toExpr source limit depth (x limit)) (hx : Cutoff x) :
    Cutoff fun limit => suffixesToExpr source limit depth (x limit) suffixes := by
  induction suffixes generalizing x with
  | nil => exact hx
  | cons s suffixes ih =>
    obtain ⟨hs, hsuffixes⟩ := List.forall_mem_cons.mp hsuffixes
    exact ih hsuffixes (hs x hx)

/-- So are signs, which ask for nothing. -/
theorem cutoff_foldr_applySign (signs : List UnaryOp) (hx : Cutoff x) :
    Cutoff fun limit => signs.foldr applySign (x limit) := by
  induction signs with
  | nil => exact hx
  | cons op signs ih => exact ih.map _

/-- A text that cannot be decoded is at fault whatever the limit is. -/
theorem cutoff_text (offset : Nat) (written : Grammar.QuotedText) :
    Cutoff fun limit => (Term.text offset written).toExpr source limit depth := by
  refine .const fun e he hdeep => ?_
  obtain ⟨limit, hcause⟩ := ParseError.isTooDeep_iff.mp hdeep
  unfold Term.toExpr decodeText at he
  cases hbody : Text.unescape written.body with
  | ok s =>
    rw [hbody] at he
    cases he
  | error reason =>
    rw [hbody] at he
    cases he
    cases hcause

/-- **What is made of a chain is a cutoff.** -/
theorem Chain.cutoff_toExpr (c : Chain) : Cutoff fun limit => c.toExpr source limit depth := by
  revert depth
  -- at every depth, since what is inside a chain is made below its levels
  induction c using Chain.tree_induction
    (O := fun operand => ∀ depth, Cutoff fun limit => operand.toExpr source limit depth)
    (T := fun term => ∀ depth, Cutoff fun limit => term.toExpr source limit depth)
    (S := fun s => ∀ depth x, Cutoff x →
      Cutoff fun limit => s.toExpr source limit depth (x limit)) with
  | chain offset first links hfirst hlinks =>
    intro depth
    have hfold : Cutoff fun limit => ((Grouping.ofLinks first links).map
        (Chain.toExpr source limit (depth + levels first links))
        (Operand.toExpr source limit (depth + levels first links))).fold id Joint.toExpr := by
      refine cutoff_fold ?_ ?_
      · rw [Grouping.joints_ofLinks, List.forall_mem_map]
        exact fun link hlink middle hmiddle => (hlinks link hlink).1 middle hmiddle
      · rw [Grouping.operands_ofLinks, List.forall_mem_cons, List.forall_mem_map]
        exact ⟨hfirst _, fun link hlink => (hlinks link hlink).2 _⟩
    -- the limit is tested once, before the tree is looked at
    refine hfold.guard (depth + levels first links) (fun limit hlimit => ?_)
      fun limit hlimit => ?_
    · rw [Chain.toExpr, if_pos hlimit]
      exact ⟨_, rfl, ParseError.isTooDeep_mk _ _ _⟩
    · rw [Chain.toExpr, if_neg (Nat.not_lt.mpr hlimit), linksToExpr_eq_map,
        ← Grouping.map_ofLinks]
  | operand signs term suffixes hterm hsuffixes depth =>
    exact cutoff_foldr_applySign signs
      (cutoff_suffixesToExpr (fun s hs => hsuffixes s hs depth) (hterm depth))
  | number | boolean | null | this | name => exact .ok _
  | text offset written depth => exact cutoff_text offset written
  | array elements ih depth => exact (cutoff_chainsToExpr fun c hc => ih c hc).bind fun es => .ok _
  | group inner ih depth => exact ih
  | call arguments ih depth x hx =>
    exact (cutoff_chainsToExpr fun c hc => ih c hc).bind fun es => hx.bind fun a => .ok _
  | index key ih depth x hx =>
    have hkey : Cutoff fun limit => key.toExpr source limit depth := ih
    exact hkey.bind fun k => hx.bind fun a => .ok _
  | field name depth x hx => exact hx.bind fun a => .ok _

end Making

/-! ### Texts -/

namespace Expr

/-- **What a text is parsed as is a cutoff.** -/
theorem cutoff_parseWithin (source : String) : Cutoff fun limit => parseWithin limit source := by
  have hread : Cutoff fun _ => Chain.ofText source := by
    refine .const fun e he hdeep => ?_
    obtain ⟨limit, hcause⟩ := ParseError.isTooDeep_iff.mp hdeep
    unfold Chain.ofText at he
    split at he
    · cases he
    · cases he
      cases hcause
  -- reading does not look at the limit, and what it gives is made chain by chain
  have hmade (close : List Expr → Except ParseError Expr)
      (hclose : ∀ body, Cutoff fun _ => close body) :
      Cutoff fun limit =>
        Chain.ofText source >>= fun chains => chainsToExpr source limit 0 chains >>= close :=
    hread.bind fun chains => (cutoff_chainsToExpr fun c _ => c.cutoff_toExpr).bind hclose
  -- brackets are counted first, and pass from their greatest depth on
  refine (hmade ?close ?closed).guard (Brackets.deepest none 0 source.toList)
    (fun limit hlimit => ?below) fun limit hlimit => ?above
  case above =>
    have hpass := Brackets.firstExcess?_eq_none_iff.mpr hlimit
    unfold parseWithin
    split
    · next offset hexcess =>
      rw [hpass] at hexcess
      cases hexcess
    · next => rfl
  case below =>
    cases hexcess : Brackets.firstExcess? limit source.toList with
    | none =>
      have hle := Brackets.firstExcess?_eq_none_iff.mp hexcess
      exact absurd hlimit (Nat.not_lt.mpr hle)
    | some offset =>
      unfold parseWithin
      rw [hexcess]
      exact ⟨_, rfl, ParseError.isTooDeep_mk _ _ _⟩
  case closed =>
    intro body
    rcases body with _ | ⟨a, _ | ⟨b, body⟩⟩ <;> exact .ok _

end Expr

end CheckedExpr
