import CheckedExpr.Chain

/-!
# Which operands a joint takes

Joints have levels: a joint of a higher level takes its operands before one of a lower level does.
Of two joints of the same level, the left one comes first, but the middles of choices open to the
right. `Grouping.ofLinks` builds the tree that a chain stands for by adding one joint with its
right operand after the other: the new joint goes down the right edge of the tree as long as it
binds more tightly than what it meets.

* `operands_ofLinks`, `joints_ofLinks`: read from left to right, the tree is the chain.
-/

namespace CheckedExpr

/-- How tightly an operator binds. Choices have level zero. -/
def InfixOp.level : InfixOp → Nat
  | logical .or => 1
  | logical .and => 2
  | binary .bitOr => 3
  | binary .bitXor => 4
  | binary .bitAnd | binary .nullish => 5
  | binary .eq | binary .ne | binary .strictEq | binary .strictNe => 6
  | binary .lt | binary .gt | binary .le | binary .ge => 7
  | binary .shl | binary .shr | binary .ushr => 8
  | binary .add | binary .sub => 9
  | binary .mul | binary .div | binary .rem => 10
  | binary .isIn => 11

namespace Joint

variable {μ ν : Type}

/-- How tightly a joint binds. -/
def level : Joint μ → Nat
  | operator op => op.level
  | choice _ => 0

/-- Whether a joint to the right of another one takes its operands first. -/
def opens : (left right : Joint μ) → Bool
  | choice _, _ => true
  | operator op, right => op.level < right.level

end Joint

/-- Operands with joints between them, grouped. -/
inductive Grouping (μ α : Type) where
  | operand (a : α)
  | joined (joint : Joint μ) (left right : Grouping μ α)
  deriving Repr

namespace Grouping

variable {μ α β : Type}

/-- Adds a joint and its right operand behind a grouping. -/
def add (joint : Joint μ) (a : α) : Grouping μ α → Grouping μ α
  | operand b => joined joint (operand b) (operand a)
  | joined outer left right =>
    -- the new joint goes down to the right as long as it binds more tightly than what it meets
    if outer.opens joint then joined outer left (right.add joint a)
    -- it does not, so it takes all that is there as its left operand
    else joined joint (joined outer left right) (operand a)

/-- The grouping of an operand and the joints and operands behind it. -/
def ofLinks (first : α) (links : List (Joint μ × α)) : Grouping μ α :=
  links.foldl (fun tree (joint, a) => tree.add joint a) (operand first)

/-- Puts together what the operands stand for. -/
def fold (leaf : α → β) (node : Joint μ → β → β → β) : Grouping μ α → β
  | operand a => leaf a
  | joined joint left right => node joint (left.fold leaf node) (right.fold leaf node)

/-- The operands from left to right. -/
def operands : Grouping μ α → List α
  | operand a => [a]
  | joined _ left right => left.operands ++ right.operands

/-- The joints from left to right. -/
def joints : Grouping μ α → List (Joint μ)
  | operand _ => []
  | joined joint left right => left.joints ++ joint :: right.joints

/-! ### Nothing is lost -/

/-- A joint that is added brings its right operand, behind all the others. -/
@[simp] theorem operands_add (joint : Joint μ) (a : α) (tree : Grouping μ α) :
    (tree.add joint a).operands = tree.operands ++ [a] := by
  induction tree with
  | operand b => rfl
  | joined outer left right _ ih =>
    -- either the joint goes into the right part or above the whole, and stands last both times
    simp only [add]
    split <;> simp [operands, ih]

@[simp] theorem joints_add (joint : Joint μ) (a : α) (tree : Grouping μ α) :
    (tree.add joint a).joints = tree.joints ++ [joint] := by
  induction tree with
  | operand b => rfl
  | joined outer left right _ ih =>
    simp only [add]
    split <;> simp [joints, ih]

/-- Adding joints one after the other keeps their operands in order. -/
theorem operands_foldl_add (links : List (Joint μ × α)) (tree : Grouping μ α) :
    (links.foldl (fun tree (joint, a) => tree.add joint a) tree).operands =
      tree.operands ++ links.map (·.2) := by
  induction links generalizing tree with
  | nil => simp
  | cons link links ih => simp [ih]

/-- It keeps the joints in order, too. -/
theorem joints_foldl_add (links : List (Joint μ × α)) (tree : Grouping μ α) :
    (links.foldl (fun tree (joint, a) => tree.add joint a) tree).joints =
      tree.joints ++ links.map (·.1) := by
  induction links generalizing tree with
  | nil => simp
  | cons link links ih => simp [ih]

/-- **No operand is lost**, repeated or moved by grouping. -/
theorem operands_ofLinks (first : α) (links : List (Joint μ × α)) :
    (ofLinks first links).operands = first :: links.map (·.2) := by
  simp [ofLinks, operands_foldl_add, operands]

/-- **No joint is lost**, repeated or moved by grouping. -/
theorem joints_ofLinks (first : α) (links : List (Joint μ × α)) :
    (ofLinks first links).joints = links.map (·.1) := by
  simp [ofLinks, joints_foldl_add, joints]

end Grouping

end CheckedExpr
