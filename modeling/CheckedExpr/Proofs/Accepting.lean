import CheckedExpr.Proofs.Reading
import Mathlib.Data.List.DropRight

/-!
# Taking a scan apart

`Scan.Reads` and `Scan.Refuses` build up what a scan does from what its parts do. This is the way
back. A scan *accepts* a text if it has read something from it, wherever and after whatever attempts
that was, and *declines* it if it has refused it once. From what a combinator has accepted follows
what its parts have accepted, and for a choice what its earlier parts have declined.

* `Accepts.of_bind`, `Accepts.of_rule`, `Accepts.of_orElse`, `Accepts.of_firstOf`: the parts of the
  combinators.
* `Row`: what a repetition has accepted, item by item, with the gaps between the items.
-/

namespace CheckedExpr.Scan

variable {ρ α β : Type}

/-- What is left of a text behind a gap. -/
def clear (text : List Char) : List Char := text.dropWhile isGap

@[simp] theorem clear_clear (text : List Char) : clear (clear text) = clear text :=
  List.dropWhile_idempotent isGap text

theorem clear_of_not_isGap {c : Char} {text : List Char} (h : isGap c = false) :
    clear (c :: text) = c :: text := by
  rw [clear, List.dropWhile_cons_of_neg (by simp [h])]

/-- Whether a scan has read something from a text and left a rest. -/
def Accepts (scan : Scan ρ α) (text : List Char) (a : α) (rest : List Char) : Prop :=
  ∃ offset attempts stop after, scan ⟨text, offset⟩ attempts = (some (a, ⟨rest, stop⟩), after)

/-- Whether a scan has refused a text. -/
def Declines (scan : Scan ρ α) (text : List Char) : Prop :=
  ∃ offset attempts after, scan ⟨text, offset⟩ attempts = (none, after)

variable {scan : Scan ρ α} {text mid rest : List Char} {a : α} {b : β}

/-- What was read from a whole text was accepted at its beginning. -/
theorem accepts_of_run (h : scan.run text = .ok a) : ∃ rest, scan.Accepts text a rest := by
  unfold run at h
  split at h
  · next read stop after hscan =>
    cases h
    exact ⟨stop.rest, 0, .empty, stop.offset, after, hscan⟩
  · cases h

/-! ### Steps in a row -/

/-- Nothing was read, and all of the text is left. -/
theorem Accepts.of_pure {a' : α} (h : (pure a' : Scan ρ α).Accepts text a rest) :
    a = a' ∧ rest = text := by
  obtain ⟨offset, attempts, stop, after, hscan⟩ := h
  cases hscan
  exact ⟨rfl, rfl⟩

/-- **What a row has accepted**, its steps have accepted one behind the other. -/
theorem Accepts.of_bind {next : α → Scan ρ β} (h : (scan >>= next).Accepts text b rest) :
    ∃ a mid, scan.Accepts text a mid ∧ (next a).Accepts mid b rest := by
  obtain ⟨offset, attempts, stop, after, hscan⟩ := h
  rw [run_bind] at hscan
  split at hscan
  · next a behind between hfirst =>
    -- the second step was started where the first one stopped, with the attempts made by then
    exact ⟨a, behind.rest, ⟨offset, attempts, behind.offset, between, hfirst⟩,
      ⟨behind.offset, between, stop, after, hscan⟩⟩
  · cases hscan

/-- What was made of something that was read. -/
theorem Accepts.of_map {f : α → β} (h : (f <$> scan).Accepts text b rest) :
    ∃ a, scan.Accepts text a rest ∧ f a = b := by
  obtain ⟨a, mid, ha, hb⟩ := Accepts.of_bind h
  obtain ⟨rfl, rfl⟩ := hb.of_pure
  exact ⟨a, ha, rfl⟩

/-- Making something of what was read declines nothing. -/
theorem Declines.of_map {f : α → β} (h : (f <$> scan).Declines text) : scan.Declines text := by
  obtain ⟨offset, attempts, after, hscan⟩ := h
  -- the map is the row whose second step reads nothing, and that one never declines
  change (scan >>= fun a => pure (f a)) _ _ = _ at hscan
  rw [run_bind] at hscan
  split at hscan
  · cases hscan
  · next between hfirst => exact ⟨offset, attempts, between, hfirst⟩

/-! ### Rules and choices -/

/-- A rule has accepted what its body has. -/
theorem Accepts.of_rule {r : ρ} (h : (rule r scan).Accepts text a rest) :
    scan.Accepts text a rest := by
  obtain ⟨offset, attempts, stop, after, hscan⟩ := h
  unfold rule at hscan
  split at hscan
  · next read between hread =>
    cases hscan
    exact ⟨offset, attempts, stop, after, hread⟩
  · cases hscan

/-- A rule has declined what its body has. -/
theorem Declines.of_rule {r : ρ} (h : (rule r scan).Declines text) : scan.Declines text := by
  obtain ⟨offset, attempts, after, hscan⟩ := h
  unfold rule at hscan
  split at hscan
  · cases hscan
  · next between hread => exact ⟨offset, attempts, between, hread⟩

/-- A second choice is made only after the first one was declined. -/
theorem Accepts.of_orElse {second : Scan ρ α} (h : (scan <|> second).Accepts text a rest) :
    scan.Accepts text a rest ∨ scan.Declines text ∧ second.Accepts text a rest := by
  obtain ⟨offset, attempts, stop, after, hscan⟩ := h
  rw [run_orElse] at hscan
  split at hscan
  · next read between hfirst =>
    cases hscan
    exact Or.inl ⟨offset, attempts, stop, after, hfirst⟩
  · next between hfirst =>
    exact Or.inr ⟨⟨offset, attempts, between, hfirst⟩, offset, between, stop, after, hscan⟩

theorem Accepts.of_refuse (h : (refuse : Scan ρ α).Accepts text a rest) : False := by
  obtain ⟨offset, attempts, stop, after, hscan⟩ := h
  cases hscan

/-- Of several choices, one was made after all earlier ones were declined. -/
theorem Accepts.of_firstOf {choices : List (Scan ρ α)}
    (h : (firstOf choices).Accepts text a rest) :
    ∃ before choice after, choices = before ++ choice :: after ∧
      (∀ scan ∈ before, scan.Declines text) ∧ choice.Accepts text a rest := by
  induction choices with
  | nil => exact h.of_refuse.elim
  | cons first choices ih =>
    rcases Accepts.of_orElse h with hfirst | ⟨hdeclines, hmore⟩
    · exact ⟨[], first, choices, rfl, by simp, hfirst⟩
    · obtain ⟨before, choice, after, rfl, hbefore, hchoice⟩ := ih hmore
      exact ⟨first :: before, choice, after, rfl, List.forall_mem_cons.mpr ⟨hdeclines, hbefore⟩,
        hchoice⟩

/-! ### Lexemes -/

/-- What a lexeme has accepted its reader has read. -/
theorem Accepts.of_lexeme {read : List Char → Option (α × List Char)} {written : α → List Char}
    (h : (lexeme read written : Scan ρ α).Accepts text a rest) : read text = some (a, rest) := by
  obtain ⟨offset, attempts, stop, after, hscan⟩ := h
  unfold lexeme at hscan
  split at hscan
  · next hread =>
    cases hscan
    exact hread
  · cases hscan

/-- What a lexeme has declined its reader does not read. -/
theorem Declines.of_lexeme {read : List Char → Option (α × List Char)} {written : α → List Char}
    (h : (lexeme read written : Scan ρ α).Declines text) : read text = none := by
  obtain ⟨offset, attempts, after, hscan⟩ := h
  unfold lexeme at hscan
  split at hscan
  · cases hscan
  · next hread => exact hread

/-- The same for a token, which is a lexeme under a rule's name. -/
theorem Accepts.of_token {r : ρ} {read : List Char → Option (α × List Char)}
    {written : α → List Char} (h : (token r read written).Accepts text a rest) :
    read text = some (a, rest) :=
  Accepts.of_lexeme (Accepts.of_rule h)

theorem Declines.of_token {r : ρ} {read : List Char → Option (α × List Char)}
    {written : α → List Char} (h : (token r read written).Declines text) : read text = none :=
  Declines.of_lexeme (Declines.of_rule h)

/-- A word that was read stands at the front of the text. -/
theorem Accepts.of_exactly {word : List Char} {u : Unit}
    (h : (exactly word : Scan ρ Unit).Accepts text u rest) : text = word ++ rest := by
  have hread := Accepts.of_lexeme h
  simp only [Option.map_eq_some_iff, Prod.mk.injEq, true_and, exists_eq_right] at hread
  exact Grammar.append_of_isPrefixOf? hread

/-- Behind a gap is left what a gap leaves. -/
theorem Accepts.of_gap {u : Unit} (h : (gap : Scan ρ Unit).Accepts text u rest) :
    rest = clear text := by
  obtain ⟨offset, attempts, stop, after, hscan⟩ := h
  cases hscan
  rfl

/-- Asking for the place has left the text as it was. -/
theorem Accepts.of_place {n : Nat} (h : (place : Scan ρ Nat).Accepts text n rest) :
    rest = text := by
  obtain ⟨offset, attempts, stop, after, hscan⟩ := h
  cases hscan
  rfl

/-- The end was found where nothing is left. -/
theorem Accepts.of_finish {r : ρ} {u : Unit} (h : (finish r).Accepts text u rest) :
    text = [] := by
  have hread := Accepts.of_token h
  cases text with
  | nil => rfl
  | cons c cs => cases hread

/-! ### Repetitions -/

/-- Items that a scan has accepted one behind the other, with a gap before each of them. -/
inductive Row (item : Scan ρ α) : List α → (text rest : List Char) → Prop
  | nil {text : List Char} : Row item [] text text
  | cons {a : α} {as : List α} {text mid rest : List Char} (first : item.Accepts (clear text) a mid)
      (more : Row item as mid rest) : Row item (a :: as) text rest

/-- **The rounds of a repetition have read a row**, of one item more than the bound at most. -/
theorem row_of_rounds {item : Scan ρ α} {bound : List Char} {offset stop : Nat}
    {attempts after : Attempts ρ} {as : List α}
    (h : rounds (do gap; item) bound ⟨text, offset⟩ attempts = ((as, ⟨rest, stop⟩), after)) :
    Row item as text rest ∧ as.length ≤ bound.length + 1 := by
  -- a round that is not refused has accepted an item behind a gap
  have hround {offset : Nat} {attempts after : Attempts ρ} {text : List Char} {a : α}
      {behind : Cursor}
      (h : (do gap; item : Scan ρ α) ⟨text, offset⟩ attempts = (some (a, behind), after)) :
      item.Accepts (clear text) a behind.rest := by
    obtain ⟨_, mid, hgap, hitem⟩ := Accepts.of_bind ⟨offset, attempts, behind.offset, after, h⟩
    rw [hgap.of_gap] at hitem
    exact hitem
  -- by induction on the bound: each character of it allows for one round more
  induction bound generalizing text offset attempts as with
  | nil =>
    unfold rounds at h
    split at h
    · cases h
      exact ⟨.nil, Nat.zero_le _⟩
    · next hread =>
      cases h
      exact ⟨.cons (hround hread) .nil, Nat.le_refl _⟩
  | cons c bound ih =>
    unfold rounds at h
    split at h
    · cases h
      exact ⟨.nil, Nat.zero_le _⟩
    · next a behind between hread =>
      rcases hmore : rounds (do gap; item) bound behind between with ⟨⟨more, stop'⟩, after'⟩
      rw [hmore] at h
      cases h
      obtain ⟨hrow, hlength⟩ := ih hmore
      exact ⟨.cons (hround hread) hrow, Nat.succ_le_succ hlength⟩

/-- The first item of a repetition stands where the repetition does, and the others are a row. The
row has no more items than its text allows for. -/
theorem Accepts.of_many {item : Scan ρ α} {as : List α}
    (h : (many item).Accepts text as rest) :
    (as = [] ∧ rest = text) ∨
      ∃ a more mid, as = a :: more ∧ item.Accepts text a mid ∧ Row item more mid rest ∧
        more.length ≤ mid.length + 1 := by
  rcases Accepts.of_orElse h with hsome | ⟨-, hnone⟩
  · obtain ⟨a, mid, hfirst, hrest⟩ := hsome.of_bind
    obtain ⟨more, behind, hmore, hpure⟩ := hrest.of_bind
    obtain ⟨rfl, rfl⟩ := hpure.of_pure
    -- the bound on the rounds is what stands behind the first item
    obtain ⟨offset, attempts, stop, after, hrepeated⟩ := hmore
    cases hrounds : rounds (do gap; item) mid ⟨mid, offset⟩ attempts with
    | mk read between =>
      unfold repeated at hrepeated
      rw [hrounds] at hrepeated
      cases hrepeated
      obtain ⟨hrow, hlength⟩ := row_of_rounds hrounds
      exact Or.inr ⟨a, more, mid, rfl, hfirst, hrow, hlength⟩
  · exact Or.inl hnone.of_pure

/-- What stands behind a comma. -/
def afterComma (item : Scan ρ α) : Scan ρ α := do
  exactly [',']
  gap
  item

/-- An item behind a comma stands behind the comma and a gap. -/
theorem Accepts.of_afterComma {item : Scan ρ α} (h : (afterComma item).Accepts text a rest) :
    ∃ behind, text = ',' :: behind ∧ item.Accepts (clear behind) a rest := by
  obtain ⟨_, behind, hcomma, h⟩ := Accepts.of_bind h
  obtain ⟨_, _, hgap, hitem⟩ := h.of_bind
  rw [hgap.of_gap] at hitem
  exact ⟨behind, hcomma.of_exactly, hitem⟩

/-- Items with commas between them: none, or a first one and a row of others behind commas. -/
theorem Accepts.of_commaSeparated {item : Scan ρ α} {as : List α}
    (h : (commaSeparated item).Accepts text as rest) :
    (as = [] ∧ rest = text) ∨
      ∃ a more mid, as = a :: more ∧ item.Accepts text a mid ∧
        (many (afterComma item)).Accepts (clear mid) more rest := by
  rcases Accepts.of_orElse h with hsome | ⟨-, hnone⟩
  · obtain ⟨a, mid, hfirst, hrest⟩ := hsome.of_bind
    obtain ⟨_, _, hgap, hrest⟩ := hrest.of_bind
    obtain ⟨more, behind, hmore, hpure⟩ := hrest.of_bind
    obtain ⟨rfl, rfl⟩ := hpure.of_pure
    rw [hgap.of_gap] at hmore
    exact Or.inr ⟨a, more, mid, rfl, hfirst, hmore⟩
  · exact Or.inl hnone.of_pure

/-! What a repetition has read are items that were accepted somewhere. -/

/-- Each item of a row was accepted at some place. -/
theorem Row.exists_accepts {item : Scan ρ α} {as : List α} (h : Row item as text rest) :
    ∀ a ∈ as, ∃ text rest, item.Accepts text a rest := by
  induction h with
  | nil => simp
  | cons first _ ih => exact List.forall_mem_cons.mpr ⟨⟨_, _, first⟩, ih⟩

theorem Accepts.exists_of_many {item : Scan ρ α} {as : List α}
    (h : (many item).Accepts text as rest) : ∀ a ∈ as, ∃ text rest, item.Accepts text a rest := by
  rcases h.of_many with ⟨rfl, -⟩ | ⟨a, more, mid, rfl, hfirst, hrow, -⟩
  · simp
  · exact List.forall_mem_cons.mpr ⟨⟨_, _, hfirst⟩, hrow.exists_accepts⟩

/-- Each item of a list with commas was accepted somewhere in the text. -/
theorem Accepts.exists_of_commaSeparated {item : Scan ρ α} {as : List α}
    (h : (commaSeparated item).Accepts text as rest) :
    ∀ a ∈ as, ∃ text rest, item.Accepts text a rest := by
  rcases h.of_commaSeparated with ⟨rfl, -⟩ | ⟨a, more, mid, rfl, hfirst, hmore⟩
  · simp
  · refine List.forall_mem_cons.mpr ⟨⟨_, _, hfirst⟩, fun a ha => ?_⟩
    obtain ⟨_, _, hitem⟩ := hmore.exists_of_many a ha
    obtain ⟨_, -, hitem⟩ := hitem.of_afterComma
    exact ⟨_, _, hitem⟩

end CheckedExpr.Scan
