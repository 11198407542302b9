import CheckedExpr.Proofs.Accepting

/-!
# Scans that agree

Two scans may do the same on some texts and not on others. They *agree* from one property of texts
to another one if they do the same on every text with the first property, to the place, to what is
read and to the attempts, and if they then leave a text with the second property. So the properties
are handed on from step to step, and scans that are put together in the same way from scans that
agree do agree.

* `Agree.bind`, `Agree.orElse`, `agree_firstOf`: the combinators. A second choice is made only where
  the first one was declined.
* `Agree.repeated`, `Agree.many`, `Agree.commaSeparated`: repetitions, where the property is one
  that each round keeps.
-/

namespace CheckedExpr.Scan

variable {ρ α β : Type}

/-- Whether two scans do the same on every text with a property, and leave a text with another
one. -/
structure Agree (P Q : List Char → Prop) (scan scan' : Scan ρ α) : Prop where
  same : ∀ cursor attempts, P cursor.rest → scan cursor attempts = scan' cursor attempts
  leaves : ∀ text a rest, P text → scan.Accepts text a rest → Q rest

variable {P Q R : List Char → Prop} {scan scan' : Scan ρ α}

/-- A scan agrees with itself from what it asks of a text to what it leaves. -/
theorem agree_self (h : ∀ text a rest, P text → scan.Accepts text a rest → Q rest) :
    Agree P Q scan scan :=
  ⟨fun _ _ _ => rfl, h⟩

theorem agree_of_not (h : ∀ text, ¬ P text) : Agree P Q scan scan' :=
  ⟨fun cursor _ hP => absurd hP (h cursor.rest), fun text _ _ hP => absurd hP (h text)⟩

/-- Scans agree from any property that holds of fewer texts. -/
theorem Agree.mono {P' : List Char → Prop} (h : Agree P Q scan scan')
    (hP : ∀ text, P' text → P text) : Agree P' Q scan scan' :=
  ⟨fun cursor attempts hP' => h.same cursor attempts (hP _ hP'),
    fun text a rest hP' => h.leaves text a rest (hP _ hP')⟩

/-! ### Steps in a row -/

/-- Reading nothing keeps every property. -/
theorem agree_pure (a : α) : Agree P P (pure a : Scan ρ α) (pure a) := by
  refine agree_self fun text b rest hP h => ?_
  obtain ⟨-, rfl⟩ := h.of_pure
  exact hP

/-- Rows agree whose first steps do and whose second steps agree from what the first ones leave. -/
theorem Agree.bind {next next' : α → Scan ρ β} (h : Agree P Q scan scan')
    (hnext : ∀ a, Agree Q R (next a) (next' a)) : Agree P R (scan >>= next) (scan' >>= next') := by
  refine ⟨?same, ?leaves⟩
  case same =>
    intro cursor attempts hP
    rw [run_bind, run_bind, ← h.same cursor attempts hP]
    split
    · next a behind after hscan =>
      -- what the first step has left is where the second one begins
      have hQ : Q behind.rest :=
        h.leaves cursor.rest a behind.rest hP
          ⟨cursor.offset, attempts, behind.offset, after, hscan⟩
      exact (hnext a).same behind after hQ
    · rfl
  case leaves =>
    intro text b rest hP hb
    obtain ⟨a, mid, ha, hb⟩ := hb.of_bind
    exact (hnext a).leaves mid b rest (h.leaves text a mid hP ha) hb

theorem Agree.map (h : Agree P Q scan scan') (f : α → β) : Agree P Q (f <$> scan) (f <$> scan') :=
  h.bind fun a => agree_pure (f a)

/-- Rules with agreeing bodies agree: what they put down depends on the refusal alone. -/
theorem Agree.rule (h : Agree P Q scan scan') (r : ρ) : Agree P Q (rule r scan) (rule r scan') := by
  refine ⟨?same, ?leaves⟩
  case same =>
    intro cursor attempts hP
    unfold Scan.rule
    rw [h.same cursor attempts hP]
  case leaves =>
    intro text a rest hP ha
    exact h.leaves text a rest hP ha.of_rule

/-- The place is the same for both scans, and the text stays. -/
theorem agree_place : Agree P P (place : Scan ρ Nat) place := by
  refine agree_self fun text n rest hP h => ?_
  rw [h.of_place]
  exact hP

/-! ### Choices -/

/-- The second choices need to agree only where the first one was declined. -/
theorem Agree.orElse {first first' second second' : Scan ρ α} (h : Agree P Q first first')
    (hsecond : Agree (fun text => P text ∧ first.Declines text) Q second second') :
    Agree P Q (first <|> second) (first' <|> second') := by
  refine ⟨?same, ?leaves⟩
  -- the second alternative is tried only on what the first one declines
  case same =>
    intro cursor attempts hP
    rw [run_orElse, run_orElse, ← h.same cursor attempts hP]
    split
    · rfl
    · next after hfirst =>
      exact hsecond.same cursor after ⟨hP, cursor.offset, attempts, after, hfirst⟩
  case leaves =>
    intro text a rest hP ha
    rcases ha.of_orElse with hfirst | ⟨hdeclines, ha⟩
    · exact h.leaves text a rest hP hfirst
    · exact hsecond.leaves text a rest ⟨hP, hdeclines⟩ ha

/-- Rows of choices agree if they agree choice by choice. -/
theorem agree_firstOf {choices choices' : List (Scan ρ α)}
    (h : List.Forall₂ (Agree P Q) choices choices') :
    Agree P Q (firstOf choices) (firstOf choices') := by
  -- by induction on the two rows; that the choices before were declined is not made use of
  induction h with
  | nil => exact agree_self fun _ _ _ _ h => h.of_refuse.elim
  | cons hfirst _ ih => exact hfirst.orElse (ih.mono fun _ h => h.1)

/-- Items, or none where the first one is declined. -/
theorem Agree.orNone {scan scan' : Scan ρ (List α)} (h : Agree P P scan scan') :
    Agree P P (scan <|> pure []) (scan' <|> pure []) := by
  have hnone : Agree P P (pure [] : Scan ρ (List α)) (pure []) := agree_pure []
  exact h.orElse (hnone.mono fun _ hP => hP.1)

/-! ### Repetitions -/

/-- What each round keeps is kept by all of them, and they are the same rounds. -/
theorem Agree.rounds (h : Agree P P scan scan') (bound : List Char) (cursor : Cursor)
    (attempts : Attempts ρ) (hP : P cursor.rest) :
    rounds scan bound cursor attempts = rounds scan' bound cursor attempts ∧
      P (rounds scan bound cursor attempts).1.2.rest := by
  have hround {a : α} {cursor behind : Cursor} {attempts after : Attempts ρ} (hP : P cursor.rest)
      (hscan : scan cursor attempts = (some (a, behind), after)) : P behind.rest :=
    h.leaves cursor.rest a behind.rest hP ⟨cursor.offset, attempts, behind.offset, after, hscan⟩
  -- by induction on the bound, which allows for one round more with each character
  induction bound generalizing cursor attempts with
  | nil =>
    unfold Scan.rounds
    rw [← h.same cursor attempts hP]
    split
    · exact ⟨rfl, hP⟩
    · next hscan => exact ⟨rfl, hround hP hscan⟩
  | cons c bound ih =>
    unfold Scan.rounds
    rw [← h.same cursor attempts hP]
    split
    · exact ⟨rfl, hP⟩
    · next a behind after hscan =>
      obtain ⟨hsame, hleaves⟩ := ih behind after (hround hP hscan)
      rw [← hsame]
      exact ⟨rfl, hleaves⟩

/-- Repetitions agree if each round keeps the property. -/
theorem Agree.repeated (h : Agree P P scan scan') : Agree P P (repeated scan) (repeated scan') := by
  refine ⟨?same, ?leaves⟩
  case same =>
    intro cursor attempts hP
    unfold Scan.repeated
    rw [(h.rounds cursor.rest cursor attempts hP).1]
  case leaves =>
    rintro text as rest hP ⟨offset, attempts, stop, after, hscan⟩
    -- what the repetition has left is what its rounds have left
    have hleaves := (h.rounds text ⟨text, offset⟩ attempts hP).2
    cases hrounds : Scan.rounds scan text ⟨text, offset⟩ attempts with
    | mk read between =>
      unfold Scan.repeated at hscan
      rw [hrounds] at hscan hleaves
      cases hscan
      exact hleaves

section Gaps

variable (hgap : ∀ text, P text → P (clear text))

include hgap

/-- A gap keeps a property that may be asked behind a gap. -/
theorem agree_gap : Agree P P (gap : Scan ρ Unit) gap := by
  refine agree_self fun text u rest hP h => ?_
  rw [h.of_gap]
  exact hgap text hP

/-- Items with gaps between them agree if the items do. -/
theorem Agree.many (h : Agree P P scan scan') : Agree P P (many scan) (many scan') := by
  refine (h.bind fun first => ?_).orNone
  refine Agree.bind (Agree.repeated ((agree_gap hgap).bind fun _ => h)) fun more => ?_
  exact agree_pure (first :: more)

/-- Items with commas between them agree if the items do and a comma may be passed over. -/
theorem Agree.commaSeparated (hcomma : ∀ text, P (',' :: text) → P text)
    (h : Agree P P scan scan') : Agree P P (commaSeparated scan) (commaSeparated scan') := by
  have hitem : Agree P P (afterComma scan) (afterComma scan') := by
    refine Agree.bind (agree_self fun text u rest hP hread => ?_) fun _ =>
      (agree_gap hgap).bind fun _ => h
    -- a comma was read, so the text was one that begins with it
    rw [hread.of_exactly] at hP
    exact hcomma rest hP
  refine (h.bind fun first => ?_).orNone
  refine (agree_gap hgap).bind fun _ => (hitem.many hgap).bind fun more => ?_
  exact agree_pure (first :: more)

end Gaps

end CheckedExpr.Scan
