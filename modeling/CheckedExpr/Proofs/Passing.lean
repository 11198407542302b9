import CheckedExpr.Proofs.MakingRules

/-!
# Chains that are written elsewhere

What is made of a chain depends on the text that it stands in only through places, which errors
point at, and on the limit only through the room that it leaves. A chain *passes to* another one if
whatever is made of the first is made of the second as well, in any text and wherever there is at
least as much room. The relation goes through every part of a chain, so it holds of two chains that
are written alike, at whatever places.

* `Grouping.related_ofLinks`: chains whose parts are related have related trees.
* `Chain.passesTo_mk`, `Operand.passesTo_mk` and their neighbours: one rule for each part.
-/

namespace CheckedExpr

/-- Whether what one step gives, another one gives too. -/
def Passes {ε α : Type} (x x' : Except ε α) : Prop := ∀ a, x = .ok a → x' = .ok a

/-! ### Related trees -/

namespace Grouping

variable {μ ν α β : Type}

/-- Two trees of one shape, with related joints and operands at each place. -/
inductive Related (J : Joint μ → Joint ν → Prop) (A : α → β → Prop) :
    Grouping μ α → Grouping ν β → Prop
  | operand {a : α} {b : β} (h : A a b) : Related J A (.operand a) (.operand b)
  | joined {j : Joint μ} {k : Joint ν} {left right : Grouping μ α} {left' right' : Grouping ν β}
      (hjoint : J j k) (hleft : Related J A left left') (hright : Related J A right right') :
      Related J A (.joined j left right) (.joined k left' right')

variable {J : Joint μ → Joint ν → Prop} {A : α → β → Prop}

/-- Where joints bind alike, a tree is added to at the same place. -/
theorem related_add (hopens : ∀ j k, J j k → ∀ j' k', J j' k' → j.opens j' = k.opens k')
    {tree : Grouping μ α} {tree' : Grouping ν β} (h : Related J A tree tree') {j : Joint μ}
    {k : Joint ν} (hjoint : J j k) {a : α} {b : β} (hoperand : A a b) :
    Related J A (tree.add j a) (tree'.add k b) := by
  -- both trees go down on the right as long as the joints there bind less
  induction h with
  | operand h => exact .joined hjoint (.operand h) (.operand hoperand)
  | joined houter hleft hright _ ih =>
    unfold add
    rw [hopens _ _ houter _ _ hjoint]
    split
    · exact .joined houter hleft ih
    · exact .joined hjoint (.joined houter hleft hright) (.operand hoperand)

/-- Related links are grouped into related trees. -/
theorem related_ofLinks (hopens : ∀ j k, J j k → ∀ j' k', J j' k' → j.opens j' = k.opens k')
    {first : α} {first' : β} (hfirst : A first first') {links : List (Joint μ × α)}
    {links' : List (Joint ν × β)}
    (hlinks : List.Forall₂ (fun link link' => J link.1 link'.1 ∧ A link.2 link'.2) links links') :
    Related J A (ofLinks first links) (ofLinks first' links') := by
  -- adding to any two related trees, so that the induction over the links goes through
  have hfold {tree : Grouping μ α} {tree' : Grouping ν β} (h : Related J A tree tree') :
      Related J A (links.foldl (fun tree link => tree.add link.1 link.2) tree)
        (links'.foldl (fun tree link => tree.add link.1 link.2) tree') := by
    induction hlinks generalizing tree tree' with
    | nil => exact h
    | cons hlink _ ih => exact ih (related_add hopens h hlink.1 hlink.2)
  exact hfold (.operand hfirst)

end Grouping

/-! ### Parts of chains -/

/-- Whether what is made of a chain is made of another one, where there is as much room. -/
def Chain.PassesTo (c c' : Chain) : Prop :=
  ∀ ⦃source limit depth source' limit' depth'⦄, limit + depth' ≤ limit' + depth →
    Passes (c.toExpr source limit depth) (c'.toExpr source' limit' depth')

/-- The same for operands, which have to add as many levels besides. -/
structure Operand.PassesTo (operand operand' : Operand) : Prop where
  run : operand.run = operand'.run
  made : ∀ ⦃source limit depth source' limit' depth'⦄, limit + depth' ≤ limit' + depth →
    Passes (operand.toExpr source limit depth) (operand'.toExpr source' limit' depth')

/-- The same for terms. -/
def Term.PassesTo (term term' : Term) : Prop :=
  ∀ ⦃source limit depth source' limit' depth'⦄, limit + depth' ≤ limit' + depth →
    Passes (term.toExpr source limit depth) (term'.toExpr source' limit' depth')

/-- The same for suffixes, behind steps of which the first passes to the second. -/
def Suffix.PassesTo (s s' : Suffix) : Prop :=
  ∀ ⦃source limit depth source' limit' depth'⦄, limit + depth' ≤ limit' + depth →
    ∀ ⦃x x'⦄, Passes x x' →
      Passes (s.toExpr source limit depth x) (s'.toExpr source' limit' depth' x')

/-- The same for joints: they are the same operator, or the middle of one passes to that of the
other. -/
inductive Joint.PassesTo : Joint Chain → Joint Chain → Prop
  | operator (op : InfixOp) : Joint.PassesTo (.operator op) (.operator op)
  | choice {middle middle' : Chain} (h : middle.PassesTo middle') :
      Joint.PassesTo (.choice middle) (.choice middle')

variable {source source' : String} {limit depth limit' depth' : Nat}

/-- Chains that pass to others do so in a row. -/
theorem forall₂_of_passesTo {cs cs' : List Chain} (h : List.Forall₂ Chain.PassesTo cs cs')
    (hroom : limit + depth' ≤ limit' + depth) {es : List Expr}
    (hes : List.Forall₂ (fun c e => c.toExpr source limit depth = .ok e) cs es) :
    List.Forall₂ (fun c e => c.toExpr source' limit' depth' = .ok e) cs' es := by
  induction h generalizing es with
  | nil =>
    cases hes
    exact .nil
  | cons hc _ ih =>
    cases hes with
    | cons he hes => exact .cons (hc hroom _ he) (ih hes)

/-! ### Suffixes and terms -/

namespace Suffix

/-- A call passes on if its arguments do. -/
theorem passesTo_call {arguments arguments' : List Chain}
    (h : List.Forall₂ Chain.PassesTo arguments arguments') :
    (call arguments).PassesTo (call arguments') := by
  intro source limit depth source' limit' depth' hroom x x' hx e he
  obtain ⟨es, hes, a, ha, rfl⟩ := toExpr_call_eq_ok_iff.mp he
  exact toExpr_call_eq_ok_iff.mpr ⟨es, forall₂_of_passesTo h hroom hes, a, hx a ha, rfl⟩

/-- A key in brackets passes on if its chain does. -/
theorem passesTo_index {key key' : Chain} (h : key.PassesTo key') :
    (index key).PassesTo (index key') := by
  intro source limit depth source' limit' depth' hroom x x' hx e he
  obtain ⟨k, hk, a, ha, rfl⟩ := toExpr_index_eq_ok_iff.mp he
  exact toExpr_index_eq_ok_iff.mpr ⟨k, h hroom k hk, a, hx a ha, rfl⟩

/-- A field is its name, wherever it stands. -/
theorem passesTo_field (name : List Char) : (field name).PassesTo (field name) := by
  intro source limit depth source' limit' depth' hroom x x' hx e he
  obtain ⟨a, ha, rfl⟩ := toExpr_field_eq_ok_iff.mp he
  exact toExpr_field_eq_ok_iff.mpr ⟨a, hx a ha, rfl⟩

end Suffix

/-- Suffixes that pass to others do so one behind the other. -/
theorem passes_suffixesToExpr {suffixes suffixes' : List Suffix}
    (h : List.Forall₂ Suffix.PassesTo suffixes suffixes')
    (hroom : limit + depth' ≤ limit' + depth) {x x' : Except ParseError Expr} (hx : Passes x x') :
    Passes (suffixesToExpr source limit depth x suffixes)
      (suffixesToExpr source' limit' depth' x' suffixes') := by
  induction h generalizing x x' with
  | nil => exact hx
  | cons hs _ ih =>
    rw [suffixesToExpr, suffixesToExpr]
    exact ih (hs hroom hx)

namespace Term

/-- Terms without parts that could be too deep or at fault. -/
theorem passesTo_of_eq {term : Term} {e : Expr}
    (h : ∀ source limit depth, term.toExpr source limit depth = .ok e) :
    term.PassesTo term := by
  intro source limit depth source' limit' depth' hroom a ha
  rw [h] at ha ⊢
  exact ha

/-- What a quoted text denotes does not depend on where it stands. -/
theorem passesTo_text (offset offset' : Nat) (written : Grammar.QuotedText) :
    (text offset written).PassesTo (text offset' written) := by
  intro source limit depth source' limit' depth' hroom e he
  exact toExpr_text_eq_ok_iff.mpr (toExpr_text_eq_ok_iff.mp he)

/-- An array passes on if its elements do. -/
theorem passesTo_array {elements elements' : List Chain}
    (h : List.Forall₂ Chain.PassesTo elements elements') :
    (array elements).PassesTo (array elements') := by
  intro source limit depth source' limit' depth' hroom e he
  obtain ⟨es, hes, rfl⟩ := toExpr_array_eq_ok_iff.mp he
  exact toExpr_array_eq_ok_iff.mpr ⟨es, forall₂_of_passesTo h hroom hes, rfl⟩

/-- What stands in parentheses passes on as the chain inside does. -/
theorem passesTo_group {c c' : Chain} (h : c.PassesTo c') :
    (group c).PassesTo (group c') := by
  intro source limit depth source' limit' depth' hroom e he
  unfold toExpr at he ⊢
  exact h hroom e he

end Term

/-- An operand passes on if its term and its suffixes do; signs have nothing to pass on. -/
theorem Operand.passesTo_mk (signs : List UnaryOp) {term term' : Term}
    {suffixes suffixes' : List Suffix} (hterm : term.PassesTo term')
    (hsuffixes : List.Forall₂ Suffix.PassesTo suffixes suffixes') :
    (mk signs term suffixes).PassesTo (mk signs term' suffixes') where
  -- suffixes that pass on are as many, and only their number counts for the levels
  run := by rw [run, run, hsuffixes.length_eq]
  made := by
    intro source limit depth source' limit' depth' hroom e he
    obtain ⟨a, ha, rfl⟩ := toExpr_mk_eq_ok_iff.mp he
    exact toExpr_mk_eq_ok_iff.mpr
      ⟨a, passes_suffixesToExpr hsuffixes hroom (hterm hroom) a ha, rfl⟩

/-! ### Chains -/

/-- Joints that pass to each other bind alike, for an operator is the same one. -/
theorem Joint.PassesTo.opens_eq {j k j' k' : Joint Chain} (h : j.PassesTo k) (h' : j'.PassesTo k') :
    j.opens j' = k.opens k' := by
  cases h with
  | choice => rfl
  | operator op => cases h' <;> rfl

/-- What a joint makes of its operands passes on with them. -/
theorem Joint.PassesTo.made {joint joint' : Joint Chain} (h : joint.PassesTo joint')
    (hroom : limit + depth' ≤ limit' + depth) {x x' y y' : Except ParseError Expr}
    (hx : Passes x x') (hy : Passes y y') :
    Passes ((joint.map (Chain.toExpr source limit depth)).toExpr x y)
      ((joint'.map (Chain.toExpr source' limit' depth')).toExpr x' y') := by
  intro e he
  cases h with
  | operator op =>
    obtain ⟨l, hl, r, hr, rfl⟩ := toExpr_operator_eq_ok_iff.mp he
    exact toExpr_operator_eq_ok_iff.mpr ⟨l, hx l hl, r, hy r hr, rfl⟩
  | choice hmiddle =>
    obtain ⟨m, hm, l, hl, r, hr, rfl⟩ := toExpr_choice_eq_ok_iff.mp he
    exact toExpr_choice_eq_ok_iff.mpr ⟨m, hmiddle hroom m hm, l, hx l hl, r, hy r hr, rfl⟩

/-- **Related trees of operands that pass on** make the same expression. -/
theorem Grouping.Related.made {tree tree' : Grouping Chain Operand}
    (h : Related Joint.PassesTo Operand.PassesTo tree tree')
    (hroom : limit + depth' ≤ limit' + depth) :
    Passes
      ((tree.map (Chain.toExpr source limit depth) (Operand.toExpr source limit depth)).fold id
        Joint.toExpr)
      ((tree'.map (Chain.toExpr source' limit' depth')
        (Operand.toExpr source' limit' depth')).fold id Joint.toExpr) := by
  induction h with
  | operand h => exact h.made hroom
  | joined hjoint _ _ ihleft ihright => exact hjoint.made hroom ihleft ihright

namespace Chain

/-- Links whose parts pass to those of others. -/
def LinkPassesTo (link link' : Joint Chain × Operand) : Prop :=
  link.1.PassesTo link'.1 ∧ link.2.PassesTo link'.2

/-- Chains take as many levels if their operands have as many signs and suffixes. -/
theorem levels_eq {first first' : Operand} (hfirst : first.PassesTo first')
    {links links' : List (Joint Chain × Operand)} (hlinks : List.Forall₂ LinkPassesTo links links') :
    levels first links = levels first' links' := by
  have hruns : links.map (·.2.run) = links'.map (·.2.run) := by
    induction hlinks with
    | nil => rfl
    | cons hlink _ ih => rw [List.map_cons, List.map_cons, hlink.2.run, ih]
  rw [levels, levels, hfirst.run, hruns, hlinks.length_eq]

/-- **A chain passes to every chain whose parts its parts pass to.** -/
theorem passesTo_mk (offset offset' : Nat) {first first' : Operand} (hfirst : first.PassesTo first')
    {links links' : List (Joint Chain × Operand)} (hlinks : List.Forall₂ LinkPassesTo links links') :
    (mk offset first links).PassesTo (mk offset' first' links') := by
  intro source limit depth source' limit' depth' hroom e he
  obtain ⟨hlimit, hmade⟩ := toExpr_mk_eq_ok_iff.mp he
  -- both chains take as many levels, so what is left of the room is as much for the parts
  have hlevels := levels_eq hfirst hlinks
  have htrees := Grouping.related_ofLinks (fun _ _ h _ _ h' => h.opens_eq h') hfirst hlinks
  refine toExpr_mk_eq_ok_iff.mpr ⟨by omega, ?_⟩
  exact htrees.made (by omega) e hmade

end Chain

end CheckedExpr
