import CheckedExpr.Proofs.DepthCutoff
import CheckedExpr.Proofs.SpacedText

/-!
# Terms by themselves

A text may be nothing but one term behind some signs, with any gaps around them. Then what it stands
for is the expression of the term with the signs before it, as soon as the limit leaves one level for
the term and one for each sign.

* `Chain.readsTokens_signedTerm`: such a text is one chain of one operand.
* `Expr.parseWithin_signedTerm`: what it stands for.
-/

namespace CheckedExpr

open Scan

namespace Chain

variable {signs : List UnaryOp} {T : Term → Prop} {tokens behind : List String}

/-- A text of signs and a term is a chain of one operand, without suffixes and links. -/
theorem readsTokens_signedTerm {nesting : Nat}
    (hsigns : (many scanSign).ReadsTokens (· = signs) tokens behind)
    (hterm : (scanTerm (scanNested nesting)).ReadsTokens T behind []) :
    (scanNested (nesting + 1)).ReadsTokens
      (fun c => ∃ offset term, c = .mk offset (.mk signs term []) [] ∧ T term) tokens [] := by
  have hfirst := readsTokens_scanOperand hsigns hterm (readsTokens_noSuffix beginsWith_nil)
  have hlinks : (many (scanLink (scanNested nesting))).ReadsTokens (· = []) [] [] :=
    readsTokens_many_nil beginsWith_nil fun _ h => refuses_scanLink h
  refine (readsTokens_scanChain hfirst hlinks).mono ?_
  rintro _ ⟨offset, _, _, rfl, ⟨_, term, _, rfl, rfl, hmem, rfl⟩, rfl⟩
  exact ⟨offset, term, rfl, hmem⟩

/-- One level for the term and one for each sign are enough. -/
theorem toExpr_signedTerm {source : String} {limit : Nat} (hlimit : signs.length < limit)
    (offset : Nat) {term : Term} {e : Expr}
    (hterm : ∀ depth, term.toExpr source limit depth = .ok e) :
    (Chain.mk offset (.mk signs term []) []).toExpr source limit 0 =
      .ok (signs.foldr (fun op a => .unary op a true) e) := by
  -- the only operand has no suffixes, so its levels are those of the signs and one
  have hlevels : levels (.mk signs term []) [] = signs.length + 1 := by
    simp [levels, Operand.run]
  exact toExpr_mk_eq_ok_iff.mpr
    ⟨by omega, Operand.toExpr_mk_eq_ok_iff.mpr ⟨e, hterm _, rfl⟩⟩

end Chain

namespace Expr

/-- **What a term behind some signs stands for by itself.** -/
theorem parseWithin_signedTerm (signs : List UnaryOp) {T : Term → Prop}
    {tokens behind : List String} {source : String} {limit : Nat} {e : Expr}
    (hsigns : (many Chain.scanSign).ReadsTokens (· = signs) tokens behind)
    (hterm : ∀ nesting, (Chain.scanTerm (Chain.scanNested nesting)).ReadsTokens T behind [])
    (hexpr : ∀ term, T term → ∀ depth, term.toExpr source limit depth = .ok e)
    (hsource : Spaced tokens source.toList)
    (hbrackets : Brackets.deepest none 0 source.toList = 0) (hlimit : signs.length < limit) :
    parseWithin limit source = .ok (signs.foldr (fun op a => .unary op a true) e) := by
  have hread := readsTokens_commaSeparated_one
    (Chain.readsTokens_signedTerm hsigns (hterm source.toList.length))
  obtain ⟨rest, hrow, hrest⟩ := hread _ hsource
  obtain ⟨_, hchains, _, rfl, offset, term, rfl, hmem⟩ :=
    Chain.exists_ofText_of_reads hrow hrest.clear_eq_nil
  have hwithin : Brackets.firstExcess? limit source.toList = none :=
    Brackets.firstExcess?_eq_none_iff.mpr (by omega)
  -- nothing is nested in brackets, and one chain was read
  refine parseWithin_eq_ok_iff.mpr ⟨hwithin, _, hchains, [_], ?_, Or.inl rfl⟩
  exact .cons (Chain.toExpr_signedTerm hlimit offset (hexpr term hmem)) .nil

end Expr

end CheckedExpr
