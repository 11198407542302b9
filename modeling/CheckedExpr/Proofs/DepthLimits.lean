import CheckedExpr.Proofs.Descent
import CheckedExpr.Proofs.HostCalls
import CheckedExpr.Proofs.InferenceRules

/-!
# Limits of depth

A limit does nothing to a walk but end it. Inference goes into every part, so it comes to the end of
an expression exactly if the limit is no less than the depth. Evaluation may leave parts alone and
may come to an end with less; with a larger limit, it then does the very same.

* `Expr.infer_levels_eq_ok_iff`: the limits with which inference succeeds.
* `Expr.infer_of_covers`: what is inferred with some allowance is inferred with a larger one.
* `Evaluation.CutShort`: an evaluation that does the same as another one, unless it runs out of
  levels. Every step keeps this, and going down may only run out earlier.
* `Expr.limit_exact`: both walks, with the calls that evaluation makes of the host.
-/

namespace CheckedExpr

/-! ### Inference -/

namespace Expr

variable {scope : Scope Model} {limit left : Nat} {e : Expr} {T : Model}

/-- With levels enough, inference does not notice that there is a limit. -/
theorem infer_levels_of_depth_le (h : e.depth ≤ left) :
    e.infer scope (.levels limit left) = e.infer scope .unbounded := by
  -- each part has one level less to go, and one level less is left for it
  induction e using parts_induction generalizing left with
  | h e ih =>
    obtain ⟨left, rfl⟩ := Nat.exists_eq_add_one.mpr (Nat.lt_of_lt_of_le e.depth_pos h)
    refine infer_congr (Allowance.enter_levels_succ limit left) Allowance.enter_unbounded
      (.refl scope e) fun part hpart => ?_
    exact ih part hpart (depth_le_succ_iff.mp h part hpart)

/-- Inference goes down every branch of an expression, so it succeeds only with levels enough. -/
theorem depth_le_of_infer (h : e.infer scope (.levels limit left) = .ok T) : e.depth ≤ left := by
  induction e using parts_induction generalizing left T with
  | h e ih =>
    obtain ⟨inner, hinner, hparts⟩ := exists_infer_of_mem_parts h
    cases left with
    | zero => cases hinner
    | succ left =>
      obtain rfl : Allowance.levels limit left = inner := by simpa using hinner
      refine depth_le_succ_iff.mpr fun part hpart => ?_
      obtain ⟨m, hm⟩ := hparts part hpart
      exact ih part hpart hm

/-- **The limit of inference is exact.** -/
theorem infer_levels_eq_ok_iff :
    e.infer scope (.levels limit left) = .ok T ↔
      e.depth ≤ left ∧ e.infer scope .unbounded = .ok T := by
  constructor
  · intro h
    have hdepth := depth_le_of_infer h
    exact ⟨hdepth, (infer_levels_of_depth_le hdepth).symm.trans h⟩
  · rintro ⟨hdepth, h⟩
    exact (infer_levels_of_depth_le hdepth).trans h

/-- Inference that succeeds does so with every larger allowance too. -/
theorem infer_of_covers {allowance larger : Allowance} (hcovers : larger.Covers allowance)
    (h : e.infer scope allowance = .ok T) : e.infer scope larger = .ok T := by
  -- no limit is covered by no limit only, and a limit by greater ones too
  cases allowance with
  | unbounded =>
    cases larger with
    | unbounded => exact h
    | levels => exact absurd hcovers id
  | levels limit left =>
    obtain ⟨hdepth, h⟩ := infer_levels_eq_ok_iff.mp h
    cases larger with
    | unbounded => exact h
    | levels => exact infer_levels_eq_ok_iff.mpr ⟨Nat.le_trans hdepth hcovers, h⟩

end Expr

/-! ### Evaluation -/

variable {κ σ : Type}

namespace Evaluation

variable {α β : Type} {m n : Evaluation κ σ α} {run after : Run σ}

/-- Whether a part of a run does the same as another one, unless it ends for want of levels. -/
def CutShort (m n : Evaluation κ σ α) : Prop :=
  ∀ run, (∃ limit, (m run).1 = .error (.tooDeep limit)) ∨ m run = n run

theorem CutShort.refl (m : Evaluation κ σ α) : CutShort m m := fun _ => .inr rfl

/-- What ends for want of levels at once is cut short of anything. -/
theorem cutShort_tooDeep (limit : Nat) (n : Evaluation κ σ α) :
    CutShort (throw (.tooDeep limit)) n := fun _ => .inl ⟨limit, rfl⟩

/-- **Steps in a row are cut short at the first one that is.** -/
theorem CutShort.bind {next next' : α → Evaluation κ σ β} (h : CutShort m n)
    (hnext : ∀ a, CutShort (next a) (next' a)) : CutShort (m >>= next) (n >>= next') := by
  intro run
  rw [run_bind, run_bind]
  rcases h run with ⟨limit, hdeep⟩ | hsame
  · -- what comes next does not matter where the first part has ended like this
    rcases hm : m run with ⟨_ | _, after⟩
    · rw [hm] at hdeep
      exact .inl ⟨limit, congrArg Except.error (Except.error.inj hdeep)⟩
    · rw [hm] at hdeep
      cases hdeep
  · rw [hsame]
    rcases n run with ⟨_ | a, after⟩
    · exact .inr rfl
    · exact hnext a after

/-- No step but going down depends on how many levels there are. -/
def cutShortSteps (host : Host κ σ) : Lockstep host host where
  Rel := CutShort
  pure _ := .refl _
  bind := .bind
  apply _ _ _ := .refl _
  newArray _ := .refl _
  read _ _ := .refl _
  call _ _ := .refl _

/-- What ends otherwise than for want of levels is not cut short. -/
theorem CutShort.eq_of_grounded (h : CutShort m n) (hm : Grounded m) : m = n := by
  funext run
  rcases h run with ⟨limit, hdeep⟩ | hsame
  · exact absurd hdeep (hm run limit)
  · exact hsame

/-- A value shows that nothing was cut short. -/
theorem CutShort.eq_of_ok {a : α} (h : CutShort m n) (hm : (m run).1 = .ok a) :
    m run = n run := by
  rcases h run with ⟨limit, hdeep⟩ | hsame
  · rw [hm] at hdeep
    cases hdeep
  · exact hsame

end Evaluation

namespace Expr

open Evaluation

variable {host : Host κ σ} {scope : Scope (Value κ)} {allowance larger : Allowance} {limit : Nat}

/-- **A smaller allowance may cut an evaluation short, and does nothing else to it.** -/
theorem cutShort_evaluate (e : Expr) (hcovers : larger.Covers allowance) :
    CutShort (e.evaluate host scope allowance) (e.evaluate host scope larger) := by
  induction e using parts_induction generalizing allowance larger with
  | h e ih =>
    cases hinner : allowance.enter with
    | error limit =>
      rw [evaluate_of_enter_error hinner]
      exact cutShort_tooDeep limit _
    | ok inner =>
      obtain ⟨inner', hinner', hcovers⟩ := hcovers.enter hinner
      exact (cutShortSteps host).evaluate hinner hinner' (.refl scope e)
        fun part hpart => ih part hpart hcovers

theorem evaluate_ofLimit_of_depth_le {e : Expr} (h : e.depth ≤ limit) :
    e.evaluate host scope (.ofLimit limit) = e.evaluate host scope .unbounded :=
  (cutShort_evaluate e (Allowance.unbounded_covers _)).eq_of_grounded (grounded_evaluate h)

/-- What an evaluation that succeeds has done, it also does with a larger allowance, and the calls
that it has made of the host are the same. -/
theorem evaluate_of_covers {e : Expr} (hcovers : larger.Covers allowance) {run after : Run σ}
    {v : Value κ} (h : e.evaluate host scope allowance run = (.ok v, after)) :
    e.evaluate host scope larger run = (.ok v, after) ∧
      host.calls (fun host => e.evaluate host scope larger) run =
        host.calls (fun host => e.evaluate host scope allowance) run := by
  have hsame : e.evaluate host scope allowance run = e.evaluate host scope larger run :=
    (cutShort_evaluate e hcovers).eq_of_ok (congrArg Prod.fst h)
  -- the evaluation behind the recorder succeeds as well
  have hrecorded : (e.evaluate host.recording scope allowance run.record).1 = .ok v := by
    have hretraced : e.evaluate host scope allowance run.record.forget = _ :=
      retraces_evaluate e run.record
    rw [Run.forget_record, h] at hretraced
    exact (congrArg Prod.fst hretraced).symm
  have hcalls := (cutShort_evaluate e hcovers).eq_of_ok hrecorded
  exact ⟨hsame.symm.trans h, congrArg (fun result => result.2.world.calls) hcalls.symm⟩

/-- **Limits of depth are exact, and both walks keep to the same ones.** -/
theorem limit_exact (e : Expr) (limit : Nat) (models : Scope Model) (host : Host κ σ)
    (values : Scope (Value κ)) (run : Run σ) :
    (∀ T, e.infer models (.ofLimit limit) = .ok T ↔
      e.depth ≤ limit ∧ e.infer models .unbounded = .ok T) ∧
    (e.depth ≤ limit →
      e.infer models (.ofLimit limit) = e.infer models .unbounded ∧
      e.evaluate host values (.ofLimit limit) run = e.evaluate host values .unbounded run ∧
      host.calls (fun host => e.evaluate host values (.ofLimit limit)) run =
        host.calls (fun host => e.evaluate host values .unbounded) run) ∧
    ∀ larger v after, limit ≤ larger →
      e.evaluate host values (.ofLimit limit) run = (.ok v, after) →
        e.evaluate host values (.ofLimit larger) run = (.ok v, after) ∧
        host.calls (fun host => e.evaluate host values (.ofLimit larger)) run =
          host.calls (fun host => e.evaluate host values (.ofLimit limit)) run := by
  -- inference goes everywhere, evaluation only where it has to
  refine ⟨fun T => infer_levels_eq_ok_iff, ?enough, ?larger⟩
  case enough =>
    intro h
    refine ⟨infer_levels_of_depth_le h, ?_, ?_⟩
    · rw [evaluate_ofLimit_of_depth_le h]
    · simp only [evaluate_ofLimit_of_depth_le h]
  case larger =>
    intro larger v after hle h
    exact evaluate_of_covers (Allowance.covers_ofLimit hle) h

/-- An expression of depth four that has its value at limit three, since what is deepest in it is
left alone. -/
def skipping : Expr :=
  .conditional (.literal (.boolean true)) (.call (.identifier "f") [.literal (.boolean true)])
    (.unary .not (.unary .not (.literal (.boolean true)) true) true)

/-- At limit three inference fails, and evaluation has the value that it has at every greater
limit. -/
theorem limit_exact_skipping :
    (skipping.depth ≤ 4 ∧ 3 ≤ 7 ∧
      skipping.evaluate .echoing ⟨fun _ => some (.function 0 "f" ()), .undefined⟩ (.ofLimit 3)
        ⟨1, ()⟩ = (.ok (.boolean true), ⟨1, ()⟩)) ∧
    skipping.infer ⟨fun _ => some (.function [.boolean] .boolean), .null⟩ (.ofLimit 3) ≠
      .ok .boolean ∧
    skipping.infer ⟨fun _ => some (.function [.boolean] .boolean), .null⟩ (.ofLimit 4) =
      skipping.infer ⟨fun _ => some (.function [.boolean] .boolean), .null⟩ .unbounded ∧
    skipping.evaluate .echoing ⟨fun _ => some (.function 0 "f" ()), .undefined⟩ (.ofLimit 7)
      ⟨1, ()⟩ = (.ok (.boolean true), ⟨1, ()⟩) := by
  have hdepth : skipping.depth ≤ 4 := by decide
  -- three levels are enough for a run that skips the deepest part
  have hthree : skipping.evaluate .echoing ⟨fun _ => some (.function 0 "f" ()), .undefined⟩
      (.ofLimit 3) ⟨1, ()⟩ = (.ok (.boolean true), ⟨1, ()⟩) :=
    rfl
  have hexact (limit : Nat) :=
    limit_exact skipping limit ⟨fun _ => some (.function [.boolean] .boolean), .null⟩ .echoing
      ⟨fun _ => some (.function 0 "f" ()), .undefined⟩ ⟨1, ()⟩
  refine ⟨⟨hdepth, by decide, hthree⟩, ?_, ((hexact 4).2.1 hdepth).1, ?_⟩
  · intro h
    exact absurd (((hexact 3).1 _).mp h).1 (by decide)
  · exact ((hexact 3).2.2 7 _ _ (by decide) hthree).1

end Expr

end CheckedExpr
