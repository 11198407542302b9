import CheckedExpr.Proofs.DepthLimits

/-!
# Parts that meet in any order

The elements of an array meet one after the other, and a merge may fail on the way. Still their
order does not matter, nor does how often an element stands there: what the merges come to is the
join of the set of all models of elements, and there is a merge at each step exactly if there is a
model that accepts them all. The two outcomes of a choice meet in the same way.

* `Expr.modelsOf`: the models of some expressions, as a set.
* `Expr.infer_array_iff_isLUB`: the rule of arrays, which depends on the elements through that set
  only.
* `Expr.exists_infer_array_iff`: when an array has a model at all.
* `Expr.infer_meeting_order`: elements and outcomes may change places.
-/

namespace CheckedExpr

namespace Model

/-- Some models have a join with another one if all of them are below a model. -/
theorem exists_isLUB_insert {ms : List Model} {m d : Model} (hm : m ≤ d) (hms : ∀ n ∈ ms, n ≤ d) :
    ∃ join, IsLUB (insert m {n | n ∈ ms}) join := by
  induction ms generalizing m with
  | nil => exact ⟨m, by simp⟩
  | cons n ms ih =>
    obtain ⟨hn, hms⟩ := List.forall_mem_cons.mp hms
    -- the first two are merged, and their merge is below the bound as well
    obtain ⟨merged, hmerged⟩ := exists_merge_of_le hm hn
    have hlub := isLUB_of_merge hmerged
    obtain ⟨join, hjoin⟩ := ih ((isLUB_pair_iff.mp hlub).2.2 d hm hn) hms
    rw [Expr.setOf_mem_cons]
    exact ⟨join, exists_isLUB_insert_iff.mp ⟨merged, hlub, hjoin⟩⟩

end Model

namespace Expr

variable {scope : Scope Model} {allowance : Allowance} {es es' : List Expr} {T : Model}

/-- The models of some expressions. -/
def modelsOf (scope : Scope Model) (allowance : Allowance) (es : List Expr) : Set Model :=
  {m | ∃ e ∈ es, e.infer scope allowance = .ok m}

/-- Where each expression has a model, the set is that of the models in the list. -/
theorem modelsOf_eq_of_forall₂ {ms : List Model}
    (h : List.Forall₂ (fun e m => e.infer scope allowance = .ok m) es ms) :
    modelsOf scope allowance es = {m | m ∈ ms} := by
  induction h with
  | nil => simp [modelsOf]
  | cons he _ ih =>
    rw [setOf_mem_cons, ← ih]
    ext m
    simp [modelsOf, he, eq_comm]

theorem modelsOf_congr (h : ∀ e, e ∈ es ↔ e ∈ es') :
    modelsOf scope allowance es = modelsOf scope allowance es' := by
  simp only [modelsOf, h]

/-- **The rule of arrays, by the set of models.** An array has a model exactly if there is an
element, all elements have models, and these have a join. -/
theorem infer_array_iff_isLUB :
    (array es).infer scope allowance = .ok T ↔
      ∃ inner, allowance.enter = .ok inner ∧ (∃ e, e ∈ es) ∧
        (∀ e ∈ es, ∃ m, e.infer scope inner = .ok m) ∧
          ∃ m, IsLUB (modelsOf scope inner es) m ∧ .array m = T := by
  -- the list of models is only a way to name the set
  rw [infer_array_iff]
  refine exists_congr fun inner => and_congr_right fun _ => ?_
  constructor
  · rintro ⟨ms, m, hms, hne, hm, rfl⟩
    have hsome : es ≠ [] := fun hnil => hne (by rw [hnil] at hms; cases hms; rfl)
    refine ⟨List.exists_mem_of_ne_nil es hsome, exists_of_forall₂ hms, m, ?_, rfl⟩
    rwa [modelsOf_eq_of_forall₂ hms]
  · rintro ⟨⟨e, he⟩, hes, m, hm, rfl⟩
    obtain ⟨ms, hms⟩ := exists_forall₂ hes
    have hne : ms ≠ [] := fun hnil => by
      rw [hnil] at hms
      cases hms
      cases he
    rw [modelsOf_eq_of_forall₂ hms] at hm
    exact ⟨ms, m, hms, hne, hm, rfl⟩

/-- **When an array has a model.** It is not enough that any two elements meet: there has to be one
model that accepts the models of all of them. -/
theorem exists_infer_array_iff :
    (∃ T, (array es).infer scope allowance = .ok T) ↔
      ∃ inner, allowance.enter = .ok inner ∧ (∃ e, e ∈ es) ∧
        (∀ e ∈ es, ∃ m, e.infer scope inner = .ok m) ∧
          ∃ d : Model, ∀ m ∈ modelsOf scope inner es, d.accepts m = true := by
  simp only [infer_array_iff_isLUB]
  constructor
  · rintro ⟨_, inner, hinner, hsome, hes, m, hm, rfl⟩
    exact ⟨inner, hinner, hsome, hes, m, fun n hn => hm.1 hn⟩
  · rintro ⟨inner, hinner, ⟨e, he⟩, hes, d, hd⟩
    obtain ⟨ms, hms⟩ := exists_forall₂ hes
    rw [modelsOf_eq_of_forall₂ hms] at hd
    -- a bound of them all bounds every merge on the way, so none of the merges fails
    cases hms with
    | nil => cases he
    | cons hfirst hrest =>
      obtain ⟨hm, hrestBelow⟩ := List.forall_mem_cons.mp hd
      obtain ⟨join, hjoin⟩ := Model.exists_isLUB_insert hm hrestBelow
      rw [← setOf_mem_cons, ← modelsOf_eq_of_forall₂ (.cons hfirst hrest)] at hjoin
      exact ⟨_, inner, hinner, ⟨e, he⟩, hes, join, hjoin, rfl⟩

/-- **What meets may change places.** The elements of an array may stand in any order and be
repeated: the array has the same model, if it has one, and this is the array of the least model that
accepts the models of all elements. The two outcomes of a choice may change places as well. -/
theorem infer_meeting_order (hsame : ∀ e, e ∈ es ↔ e ∈ es') (test a b : Expr) (T : Model) :
    ((array es).infer scope allowance = .ok T ↔ (array es').infer scope allowance = .ok T) ∧
    ((array es).infer scope allowance = .ok T →
      ∃ m, T = .array m ∧
        (∀ e ∈ es, ∃ n, e.infer scope allowance = .ok n ∧ m.accepts n = true) ∧
        ∀ d : Model, (∀ e ∈ es, ∀ n, e.infer scope allowance = .ok n → d.accepts n = true) →
          d.accepts m = true) ∧
    ((conditional test a b).infer scope allowance = .ok T ↔
      (conditional test b a).infer scope allowance = .ok T) := by
  refine ⟨?order, ?least, ?choice⟩
  case order =>
    simp only [infer_array_iff_isLUB, hsame, modelsOf_congr hsame]
  case least =>
    intro h
    obtain ⟨inner, hinner, -, hes, m, hm, rfl⟩ := infer_array_iff_isLUB.mp h
    -- an element has the same model on its own, where there is a level more
    have hcovers := Allowance.covers_of_enter hinner
    refine ⟨m, rfl, fun e he => ?_, fun d hd => ?_⟩
    · obtain ⟨n, hn⟩ := hes e he
      exact ⟨n, infer_of_covers hcovers hn, hm.1 ⟨e, he, hn⟩⟩
    · refine hm.2 ?_
      rintro n ⟨e, he, hn⟩
      exact hd e he n (infer_of_covers hcovers hn)
  case choice =>
    have hswap {x y : Expr} (h : (conditional test x y).infer scope allowance = .ok T) :
        (conditional test y x).infer scope allowance = .ok T := by
      obtain ⟨inner, hinner, htest, m, hm, n, hn, hT⟩ := infer_conditional_iff.mp h
      rw [Set.pair_comm] at hT
      exact infer_conditional_iff.mpr ⟨inner, hinner, htest, n, hn, m, hm, hT⟩
    exact ⟨hswap, hswap⟩

/-- Elements in another order, one of them twice. -/
theorem infer_meeting_order_repeated :
    (∀ e, e ∈ [.this, literal (.boolean true)] ↔
      e ∈ [literal (.boolean true), .this, literal (.boolean true)]) ∧
    (array [literal (.boolean true), .this, literal (.boolean true)]).infer
      ⟨fun _ => none, .nullable .boolean⟩ (.ofLimit 2) = .ok (.array (.nullable .boolean)) := by
  have hsame : ∀ e, e ∈ [.this, literal (.boolean true)] ↔
      e ∈ [literal (.boolean true), .this, literal (.boolean true)] := by
    intro e
    simp only [List.mem_cons, List.not_mem_nil, or_false]
    tauto
  refine ⟨hsame, ?_⟩
  refine (infer_meeting_order hsame .this .this .this (.array (.nullable .boolean))).1.mp ?_
  cbv

end Expr

end CheckedExpr
