import CheckedExpr.Proofs.Conformance
import CheckedExpr.Proofs.LooseEquality
import CheckedExpr.Proofs.TableOrder

/-!
# Structural equality

Structural equality looks through arrays and objects at what they hold, and asks for identity only
where functions are compared. At each level it is the same comparison, `Alike`, with equality itself
for what the two values hold. So a law of equality is a law of this comparison, which has a case for
each kind of value, and an induction over what values hold, `part_induction`.

Equality is symmetric and transitive, but not reflexive. Numbers are compared as numbers, so what is
not a number differs from itself, and so does every value from which one is reached.

* `equal_iff_alike`: equality is the comparison of one level at every level.
* `equal_self_iff`: which values are equal to themselves.
* `equal_object_iff`: objects are compared as maps, whatever the order in which fields were given.
* `Model.conforms_of_equal`: no model tells equal values apart.
* `equal_partialEquivalence`: all of this of any values.
-/

namespace CheckedExpr

/-- Equality of numbers is transitive. -/
theorem Number.beq_trans {x y z : Float} (hxy : (x == y) = true) (hyz : (y == z) = true) :
    (x == z) = true := by
  obtain ⟨hx, -, hxy⟩ := Float.beq_iff_ne_nan_and_eq.mp hxy
  obtain ⟨-, hz, hyz⟩ := Float.beq_iff_ne_nan_and_eq.mp hyz
  refine Float.beq_iff_ne_nan_and_eq.mpr ⟨hx, hz, ?_⟩
  -- equal numbers are the same or are the two zeros, and there is no third zero to come to
  rcases hxy with rfl | ⟨rfl, rfl⟩ | ⟨rfl, rfl⟩
  · exact hyz
  · rcases hyz with rfl | ⟨-, rfl⟩ | ⟨-, rfl⟩
    · exact .inr (.inl ⟨rfl, rfl⟩)
    · exact .inr (.inl ⟨rfl, rfl⟩)
    · exact .inl rfl
  · rcases hyz with rfl | ⟨-, rfl⟩ | ⟨-, rfl⟩
    · exact .inr (.inr ⟨rfl, rfl⟩)
    · exact .inl rfl
    · exact .inr (.inr ⟨rfl, rfl⟩)

namespace Value

variable {κ : Type} {u v w : Value κ}

/-! ### What values hold -/

/-- What a value holds: the items of an array, and what stands in the fields of an object. -/
inductive HasPart : Value κ → Value κ → Prop
  | item {identity : Identity} {items : List (Value κ)} {item : Value κ} (mem : item ∈ items) :
    HasPart (array identity items) item
  | field {identity : Identity} {fields : List (String × Value κ)} {key : String} {v : Value κ}
    (mem : (key, v) ∈ fields) : HasPart (object identity fields) v

/-- Whether one comes from a value to another one through items and fields, in any number of
steps. -/
def Reaches : Value κ → Value κ → Prop := Relation.ReflTransGen HasPart

/-- Induction over what values hold. -/
@[elab_as_elim]
theorem part_induction {P : Value κ → Prop} (step : ∀ v, (∀ w, v.HasPart w → P w) → P v) :
    ∀ v, P v := by
  -- values of most kinds hold nothing, so nothing has to be known for the step
  have hleaf (v : Value κ) (h : ∀ w, ¬ v.HasPart w) : P v :=
    step v fun w hw => absurd hw (h w)
  refine @Value.rec κ P (fun items => ∀ item ∈ items, P item)
    (fun fields => ∀ field ∈ fields, P field.2) (fun field => P field.2)
    (hleaf _ nofun) (hleaf _ nofun) (fun _ => hleaf _ nofun) (fun _ => hleaf _ nofun)
    (fun _ => hleaf _ nofun) ?array ?object (fun _ _ _ => hleaf _ nofun) ?noItem ?items ?noField
    ?fields ?pair
  case array =>
    intro identity items hitems
    refine step _ fun w hw => ?_
    cases hw with
    | item hmem => exact hitems w hmem
  case object =>
    intro identity fields hfields
    refine step _ fun w hw => ?_
    cases hw with
    | @field _ _ key _ hmem => exact hfields (key, w) hmem
  case noItem => simp
  case items =>
    intro item items hitem hitems
    exact List.forall_mem_cons.mpr ⟨hitem, hitems⟩
  case noField => simp
  case fields =>
    intro field fields hfield hfields
    exact List.forall_mem_cons.mpr ⟨hfield, hfields⟩
  case pair =>
    intro key v hv
    exact hv

/-! ### One level of the comparison -/

/-- Whether two values are of one kind and the same in it, where what they hold is compared by a
relation. -/
inductive Alike (R : Value κ → Value κ → Prop) : Value κ → Value κ → Prop
  | undefined : Alike R undefined undefined
  | null : Alike R null null
  | boolean (b : Bool) : Alike R (boolean b) (boolean b)
  | number {x y : Float} (same : (x == y) = true) : Alike R (number x) (number y)
  | string (s : String) : Alike R (string s) (string s)
  | array {i j : Identity} {items items' : List (Value κ)} (same : List.Forall₂ R items items') :
    Alike R (array i items) (array j items')
  | object {i j : Identity} {fields fields' : Table (Value κ)}
    (same : Table.Related R fields fields') : Alike R (object i fields) (object j fields')
  | function (i : Identity) {name name' : String} {body body' : κ} :
    Alike R (function i name body) (function i name' body')

section Laws

variable {R S : Value κ → Value κ → Prop}

theorem Alike.isNullish_eq (h : Alike R v w) : v.isNullish = w.isNullish := by
  cases h <;> rfl

/-- The relation matters only for what the first value holds. -/
theorem Alike.imp (h : Alike R v w) (himp : ∀ a, v.HasPart a → ∀ b, R a b → S a b) :
    Alike S v w := by
  cases h with
  | undefined => exact .undefined
  | null => exact .null
  | boolean b => exact .boolean b
  | number same => exact .number same
  | string s => exact .string s
  | array same =>
    -- the members of a pair are known to be held by their values, which is what the relation may
    -- use
    have hitems := (List.forall₂_and_left _ _).mpr ⟨fun a ha => himp a (.item ha), same⟩
    exact .array (hitems.imp fun a b hab => hab.1 b hab.2)
  | object same =>
    have hfields := (List.forall₂_and_left _ _).mpr ⟨fun a ha => himp a.2 (.field ha), same⟩
    exact .object (hfields.imp fun a b hab => ⟨hab.2.1, hab.1 b.2 hab.2.2⟩)
  | function i => exact .function i

/-- Turned round, with the relation turned round. -/
theorem Alike.flip (h : Alike R v w) : Alike (fun a b => R b a) w v := by
  cases h with
  | undefined => exact .undefined
  | null => exact .null
  | boolean b => exact .boolean b
  | number same => exact .number (Number.beq_symm same)
  | string s => exact .string s
  | array same => exact .array same.flip
  | object same => exact .object same.flip
  | function i => exact .function i

/-- Values that are like a third one are like each other, by way of what the third one holds. -/
theorem Alike.comp (huv : Alike R u v) (hvw : Alike S v w) : Alike (Relation.Comp R S) u w := by
  cases huv with
  | undefined => cases hvw with | undefined => exact .undefined
  | null => cases hvw with | null => exact .null
  | boolean b => cases hvw with | boolean => exact .boolean b
  | number same => cases hvw with | number same' => exact .number (Number.beq_trans same same')
  | string s => cases hvw with | string => exact .string s
  | array same => cases hvw with | array same' => exact .array (forall₂_comp same same')
  | object same => cases hvw with | object same' => exact .object (same.comp same')
  | function i => cases hvw with | function => exact .function i

/-- A value is like itself if what it holds is, unless it is a number that is none. -/
theorem alike_self_iff :
    Alike R v v ↔ (∀ a, v.HasPart a → R a a) ∧ ∀ x, v = number x → x.isNaN = false := by
  constructor
  · intro h
    refine ⟨fun a ha => ?part, ?number⟩
    case part =>
      cases ha with
      | item hmem => cases h with | array same => exact List.forall₂_same.mp same a hmem
      | field hmem => cases h with | object same => exact (List.forall₂_same.mp same _ hmem).2
    case number =>
      rintro x rfl
      cases h with
      | number same =>
        rw [Number.beq_self, Bool.not_eq_true'] at same
        exact same
  · rintro ⟨hparts, hnumber⟩
    -- a number is the only value that decides by itself, and not by what it holds
    cases v with
    | undefined => exact .undefined
    | null => exact .null
    | boolean b => exact .boolean b
    | number x =>
      refine .number ?_
      rw [Number.beq_self, hnumber x rfl, Bool.not_false]
    | string s => exact .string s
    | array i items => exact .array (List.forall₂_same.mpr fun a ha => hparts a (.item ha))
    | object i fields =>
      exact .object (List.forall₂_same.mpr fun a ha => ⟨rfl, hparts a.2 (.field ha)⟩)
    | function i name body => exact .function i

end Laws

/-! ### Equality -/

/-- Items are compared one by one, and there must be as many of them. -/
theorem equalItems_iff {items items' : List (Value κ)} :
    equalItems items items' = true ↔ List.Forall₂ (fun v w => v.equal w = true) items items' := by
  induction items generalizing items' with
  | nil => cases items' <;> simp [equalItems]
  | cons item items ih =>
    cases items' with
    | nil => simp [equalItems]
    | cons item' items' => rw [equalItems, Bool.and_eq_true, ih, List.forall₂_cons]

/-- So are fields, with their keys. -/
theorem equalFields_iff {fields fields' : Table (Value κ)} :
    equalFields fields fields' = true ↔
      Table.Related (fun v w => v.equal w = true) fields fields' := by
  unfold Table.Related
  induction fields generalizing fields' with
  | nil => cases fields' <;> simp [equalFields]
  | cons field fields ih =>
    cases fields' with
    | nil => simp [equalFields]
    | cons field' fields' =>
      rw [equalFields, Bool.and_eq_true, Bool.and_eq_true, beq_iff_eq, ih, List.forall₂_cons]

/-- Equal values are alike in what they hold. -/
theorem alike_of_equal (h : v.equal w = true) : Alike (fun a b => a.equal b = true) v w := by
  -- values of two kinds are never equal, so the kind of the first one settles that of the second
  cases v with
  | undefined => cases w with | undefined => exact .undefined | _ => cases h
  | null => cases w with | null => exact .null | _ => cases h
  | boolean b =>
    cases w with
    | boolean b' =>
      rw [equal, beq_iff_eq] at h
      exact h ▸ .boolean b
    | _ => cases h
  | number x =>
    cases w with
    | number y =>
      rw [equal] at h
      exact .number h
    | _ => cases h
  | string s =>
    cases w with
    | string t =>
      rw [equal, beq_iff_eq] at h
      exact h ▸ .string s
    | _ => cases h
  | array i items =>
    cases w with
    | array j items' =>
      rw [equal, equalItems_iff] at h
      exact .array h
    | _ => cases h
  | object i fields =>
    cases w with
    | object j fields' =>
      rw [equal, equalFields_iff] at h
      exact .object h
    | _ => cases h
  | function i name body =>
    cases w with
    | function j name' body' =>
      rw [equal, beq_iff_eq] at h
      exact h ▸ .function i
    | _ => cases h

theorem equal_of_alike (h : Alike (fun a b => a.equal b = true) v w) : v.equal w = true := by
  cases h with
  | undefined | null => rw [equal]
  | boolean | string | function => rw [equal, beq_iff_eq]
  | number same => rwa [equal]
  | array same => rwa [equal, equalItems_iff]
  | object same => rwa [equal, equalFields_iff]

/-- **Equality is the comparison of one level at every level.** -/
theorem equal_iff_alike : v.equal w = true ↔ Alike (fun a b => a.equal b = true) v w :=
  ⟨alike_of_equal, equal_of_alike⟩

/-- **Equality is symmetric.** -/
theorem equal_symm (h : v.equal w = true) : w.equal v = true := by
  induction v using part_induction generalizing w with
  | step v ih =>
    -- what the values hold is equal both ways round, and so is the level above
    have hparts : Alike (fun a b => b.equal a = true) v w :=
      (alike_of_equal h).imp fun a ha b hab => ih a ha hab
    exact equal_of_alike hparts.flip

/-- **Equality is transitive.** -/
theorem equal_trans (huv : u.equal v = true) (hvw : v.equal w = true) : u.equal w = true := by
  -- what the first value holds is smaller than it, and so the induction goes along it
  induction u using part_induction generalizing v w with
  | step u ih =>
    have hcomp := (alike_of_equal huv).comp (alike_of_equal hvw)
    refine equal_of_alike (hcomp.imp ?_)
    rintro a ha c ⟨b, hab, hbc⟩
    exact ih a ha hab hbc

/-- **A value is equal to itself unless what is not a number is reached from it.** -/
theorem equal_self_iff :
    v.equal v = true ↔ ¬ ∃ x : Float, x.isNaN = true ∧ v.Reaches (number x) := by
  induction v using part_induction with
  | step v ih =>
    rw [equal_iff_alike, alike_self_iff]
    constructor
    · rintro ⟨hparts, hnumber⟩ ⟨x, hx, hreach⟩
      -- the number is the value itself, or is reached from something that the value holds
      rcases Relation.ReflTransGen.cases_head_iff.mp hreach with hself | ⟨w, hw, hbelow⟩
      · rw [hnumber x hself] at hx
        cases hx
      · exact (ih w hw).mp (hparts w hw) ⟨x, hx, hbelow⟩
    · intro hnone
      refine ⟨fun w hw => (ih w hw).mpr ?part, fun x hself => ?number⟩
      case part =>
        rintro ⟨x, hx, hbelow⟩
        exact hnone ⟨x, hx, .head hw hbelow⟩
      case number =>
        rw [← Bool.not_eq_true]
        intro hx
        exact hnone ⟨x, hx, hself ▸ .refl⟩

/-- **Objects are compared as maps.** It is enough to look up every key of the one object in the
other one, if both have as many keys. -/
theorem equal_object_iff {i j : Identity} {fields fields' : Table (Value κ)}
    (h : fields.Ascends) (h' : fields'.Ascends) :
    (object i fields).equal (object j fields') = true ↔ fields.length = fields'.length ∧
      ∀ key v, fields.get? key = some v → ∃ w, fields'.get? key = some w ∧ v.equal w = true := by
  rw [equal, equalFields_iff, Table.related_iff_of_ascends h h']

end Value

/-! ### Models -/

namespace Model

variable {κ : Type} {v w : Value κ}

/-- Values of one kind conform to the same simple models. -/
theorem SimpleModel.conforms_of_alike {R : Value κ → Value κ → Prop} {kind : SimpleModel}
    (h : v.Alike R w) : SimpleModel.conforms kind v = SimpleModel.conforms kind w := by
  cases kind with
  | null => exact h.isNullish_eq
  | number | string | boolean => cases h <;> rfl

/-- A field that is missing on one side is missing on the other, and counts as undefined on both. -/
theorem equal_field {fields fields' : Table (Value κ)}
    (h : Table.Related (fun a b => a.equal b = true) fields fields') (key : String) :
    ((fields.get? key).getD .undefined).equal ((fields'.get? key).getD .undefined) = true := by
  have hrel := h.get? key
  generalize fields.get? key = a?, fields'.get? key = b? at hrel ⊢
  cases hrel with
  | some hab => exact hab
  | none => rw [Option.getD_none, Value.equal]

/-- **No model tells equal values apart.** -/
theorem conforms_of_equal {m : Model} (h : v.equal w = true) (hv : m.conforms v = true) :
    m.conforms w = true := by
  induction m using tree_induction generalizing v w with
  | simple kind =>
    rw [conforms] at hv ⊢
    rwa [← SimpleModel.conforms_of_alike (Value.alike_of_equal h)]
  | nullable inner ih =>
    rw [conforms_nullable_iff] at hv ⊢
    rw [← (Value.alike_of_equal h).isNullish_eq]
    exact hv.imp_right (ih h)
  | array element ih =>
    obtain ⟨i, items, rfl, hitems⟩ := conforms_array_iff.mp hv
    cases Value.alike_of_equal h with
    | array same =>
      refine conforms_array_iff.mpr ⟨_, _, rfl, forall_of_forall₂ same ?_⟩
      intro a ha b hab
      exact ih hab (hitems a ha)
  | object entries ih =>
    cases Value.alike_of_equal h with
    | object same =>
      rw [conforms, conformsEntries_eq_true_iff] at hv ⊢
      intro entry hentry
      exact ih entry hentry (equal_field same entry.1) (hv entry hentry)
    | _ => cases hv
  | function parameters result =>
    -- of a function a model sees only that it is one
    cases Value.alike_of_equal h with
    | function => rw [conforms]
    | _ => cases hv

end Model

/-! ### Laws -/

namespace Value

variable {κ : Type}

/-- **Structural equality is a partial equivalence,** reflexive but for what is not a number. No
model tells equal values apart, and objects are compared as maps. -/
theorem equal_partialEquivalence :
    (∀ u v : Value κ, u.equal v = true → v.equal u = true) ∧
    (∀ u v w : Value κ, u.equal v = true → v.equal w = true → u.equal w = true) ∧
    (∀ v : Value κ, v.equal v = true ↔
      ¬ ∃ x : Float, x.isNaN = true ∧ v.Reaches (number x)) ∧
    (∀ u v : Value κ, u.equal v = true → ∀ m : Model, m.conforms u = m.conforms v) ∧
    ∀ (i j : Identity) (fields fields' : Table (Value κ)), fields.Ascends → fields'.Ascends →
      ((object i fields).equal (object j fields') = true ↔ fields.length = fields'.length ∧
        ∀ key v, fields.get? key = some v → ∃ w, fields'.get? key = some w ∧ v.equal w = true) := by
  refine ⟨?symmetric, ?transitive, ?reflexive, ?conforming, ?maps⟩
  case symmetric =>
    intro u v huv
    exact equal_symm huv
  case transitive =>
    intro u v w huv hvw
    exact equal_trans huv hvw
  case reflexive =>
    intro v
    exact equal_self_iff
  case conforming =>
    intro u v huv m
    rw [Bool.eq_iff_iff]
    exact ⟨Model.conforms_of_equal huv, Model.conforms_of_equal (equal_symm huv)⟩
  case maps =>
    intro i j fields fields' hfields hfields'
    exact equal_object_iff hfields hfields'

/-- Zeros of both signs, fields that were given in another order, and what is not a number deep
inside. -/
theorem equal_partialEquivalence_zeros :
    let fields : Table (Value Unit) := Table.ofPairs [("x", number 0), ("f", function 2 "f" ())]
    let fields' : Table (Value Unit) := Table.ofPairs [("f", function 2 "f" ()), ("x", number (-0))]
    let u : Value Unit := array 0 [object 1 fields, undefined]
    let v : Value Unit := array 3 [object 4 fields', undefined]
    let broken : Value Unit := array 0 [ofFields 1 [("x", array 2 [number Number.nan])]]
    (u.equal v = true ∧ v.equal u = true ∧ u.equal u = true) ∧
      (∀ m : Model, m.conforms u = m.conforms v) ∧
      (broken.equal broken = false ∧ ∃ x : Float, x.isNaN = true ∧ broken.Reaches (number x)) ∧
      (fields.Ascends ∧ fields'.Ascends ∧
        ∀ key v, fields.get? key = some v → ∃ w, fields'.get? key = some w ∧ v.equal w = true) := by
  intro fields fields' u v broken
  obtain ⟨symmetric, transitive, reflexive, conforming, maps⟩ := @equal_partialEquivalence Unit
  have huv : u.equal v = true := by decide +kernel
  have hvu : v.equal u = true := symmetric u v huv
  have hbroken : broken.equal broken = false := by decide +kernel
  -- the number that is reached is not named, the equivalence gives it
  have hreach : ∃ x : Float, x.isNaN = true ∧ broken.Reaches (number x) := by
    by_contra hnone
    rw [← reflexive, hbroken] at hnone
    cases hnone
  have hfields : fields.Ascends := Table.ascends_ofPairs _
  have hfields' : fields'.Ascends := Table.ascends_ofPairs _
  have hobjects : (object 1 fields).equal (object 4 fields') = true := by decide +kernel
  exact ⟨⟨huv, hvu, transitive u v u huv hvu⟩, conforming u v huv, ⟨hbroken, hreach⟩, hfields,
    hfields', ((maps 1 4 fields fields' hfields hfields').mp hobjects).2⟩

end Value

end CheckedExpr
