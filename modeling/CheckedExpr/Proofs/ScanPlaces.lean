import CheckedExpr.Grammar.Lexeme
import CheckedExpr.Proofs.TextPlaces

/-!
# Scans stay at the places of their text

Places are counted in bytes while a text is read, and nothing keeps a count from ending up inside a
character but the readers themselves: what a reader says it has read, and what it leaves, have to be
the text that it was given. If all readers do that, then every place at which a scan stands, and the
furthest place at which a rule was refused, lies between two characters of the text.

The furthest place is a matter of refusals too, so a scan is looked at with both of its outcomes.
Each combinator has one rule.

* `Cursor.StandsIn`: a cursor at a place of a text, with what follows this place before it.
* `Scan.StaysIn`: a scan goes from such cursors to such cursors, and reads something of a property.
* `Scan.staysIn_lexeme`: the rule that asks something of a reader.
-/

namespace CheckedExpr

variable {ρ α β : Type} {text : List Char} {low : Nat}

/-! ### Cursors -/

/-- Whether a cursor stands in a text, at a given place or behind it. -/
structure Cursor.StandsIn (text : List Char) (low : Nat) (cursor : Cursor) : Prop where
  low_le : low ≤ cursor.offset
  exists_before : ∃ before, text = before ++ cursor.rest ∧ cursor.offset = Text.utf8Length before

namespace Cursor

variable {cursor : Cursor}

theorem standsIn_start (text : List Char) : (start text).StandsIn text 0 :=
  ⟨Nat.le_refl 0, [], rfl, rfl⟩

/-- Where a cursor stands, no character is cut. -/
theorem StandsIn.isBoundary (h : cursor.StandsIn text low) :
    Text.isBoundary text cursor.offset = true := by
  obtain ⟨before, htext, hoffset⟩ := h.exists_before
  exact Text.isBoundary_iff.mpr ⟨before, cursor.rest, htext, hoffset⟩

theorem StandsIn.self (h : cursor.StandsIn text low) : cursor.StandsIn text cursor.offset :=
  ⟨Nat.le_refl _, h.exists_before⟩

theorem StandsIn.mono {high : Nat} (h : cursor.StandsIn text high) (hlow : low ≤ high) :
    cursor.StandsIn text low :=
  ⟨Nat.le_trans hlow h.low_le, h.exists_before⟩

/-- **A step forward stays at the places of the text** if what it passes over and what it leaves are
together what stood there. -/
theorem StandsIn.advance {read rest : List Char} (h : cursor.StandsIn text low)
    (hread : cursor.rest = read ++ rest) : (cursor.advance read rest).StandsIn text low := by
  obtain ⟨before, htext, hoffset⟩ := h.exists_before
  refine ⟨Nat.le_add_right_of_le h.low_le, before ++ read, ?_, ?_⟩
  · calc text = before ++ cursor.rest := htext
      _ = before ++ read ++ rest := by rw [hread, List.append_assoc]
  · calc cursor.offset + Text.utf8Length read
        = Text.utf8Length before + Text.utf8Length read := by rw [hoffset]
      _ = Text.utf8Length (before ++ read) := (Text.utf8Length_append before read).symm

end Cursor

/-- Reporting a rule leaves the furthest place, or moves it to where the rule was started. -/
theorem Attempts.isBoundary_report {attempts : Attempts ρ} {r : ρ} {offset before : Nat}
    (hattempts : Text.isBoundary text attempts.offset = true)
    (hoffset : Text.isBoundary text offset = true) :
    Text.isBoundary text (attempts.report r offset before).offset = true := by
  unfold report
  -- the furthest place stays, becomes the new one, or is the same as it
  split
  · exact hattempts
  · split
    · exact hoffset
    · split
      · exact hoffset
      · exact hattempts

namespace Scan

/-! ### Outcomes -/

/-- Whether an outcome lies in a text: the furthest place of the attempts does, and if something was
read, then it has a property, and the cursor stands in the text. -/
structure LiesIn (text : List Char) (low : Nat) (P : α → Prop)
    (outcome : Option (α × Cursor) × Attempts ρ) : Prop where
  furthest : Text.isBoundary text outcome.2.offset = true
  read : ∀ a behind, outcome.1 = some (a, behind) → behind.StandsIn text low ∧ P a

/-- Whether a scan stays in a text that it is started in, at a given place or behind it, and reads
something of a property if it does not refuse. -/
def StaysIn (text : List Char) (low : Nat) (scan : Scan ρ α) (P : α → Prop) : Prop :=
  ∀ cursor attempts, cursor.StandsIn text low → Text.isBoundary text attempts.offset = true →
    LiesIn text low P (scan cursor attempts)

variable {scan : Scan ρ α} {P : α → Prop} {R : β → Prop}

theorem liesIn_none {attempts : Attempts ρ} (h : Text.isBoundary text attempts.offset = true) :
    LiesIn text low P (none, attempts) :=
  ⟨h, fun a behind hread => by cases hread⟩

/-- A result lies in a text if the furthest place and the cursor behind it do. -/
theorem liesIn_some {attempts : Attempts ρ} {a : α} {behind : Cursor}
    (h : Text.isBoundary text attempts.offset = true) (hbehind : behind.StandsIn text low)
    (ha : P a) : LiesIn text low P (some (a, behind), attempts) := by
  refine ⟨h, ?_⟩
  rintro _ _ ⟨⟩
  exact ⟨hbehind, ha⟩

/-! ### Steps in a row -/

theorem staysIn_pure {a : α} (h : P a) : StaysIn text low (pure a : Scan ρ α) P :=
  fun _ _ hcursor hattempts => liesIn_some hattempts hcursor h

/-- A row stays in a text if each of its steps does. -/
theorem StaysIn.bind {next : α → Scan ρ β} (hscan : StaysIn text low scan P)
    (hnext : ∀ a, P a → StaysIn text low (next a) R) : StaysIn text low (scan >>= next) R := by
  intro cursor attempts hcursor hattempts
  have hfirst := hscan cursor attempts hcursor hattempts
  rw [run_bind]
  -- a refused first step ends the row, and its attempts are those of the row
  rcases h : scan cursor attempts with ⟨_ | ⟨a, behind⟩, after⟩
  · rw [h] at hfirst
    exact liesIn_none hfirst.furthest
  · rw [h] at hfirst
    obtain ⟨hbehind, ha⟩ := hfirst.read a behind rfl
    exact hnext a ha behind after hbehind hfirst.furthest

/-- What is made of the thing that was read has the property that is asked of it. -/
theorem StaysIn.map {f : α → β} (h : StaysIn text low scan P) (hf : ∀ a, P a → R (f a)) :
    StaysIn text low (f <$> scan) R :=
  h.bind fun a ha => staysIn_pure (hf a ha)

/-- What is read behind a place has been read from there on. -/
theorem staysIn_place_bind {next : Nat → Scan ρ β}
    (h : ∀ start, Text.isBoundary text start = true → StaysIn text start (next start) R) :
    StaysIn text low (place >>= next) R := by
  intro cursor attempts hcursor hattempts
  have hnext := h cursor.offset hcursor.isBoundary cursor attempts hcursor.self hattempts
  refine ⟨hnext.furthest, fun b behind hread => ?_⟩
  -- the step was followed from its own place on, which lies behind the one that was given
  obtain ⟨hbehind, hb⟩ := hnext.read b behind hread
  exact ⟨hbehind.mono hcursor.low_le, hb⟩

/-- The place that a scan asks for is one of the text. -/
theorem staysIn_place :
    StaysIn text low (place : Scan ρ Nat) fun stop =>
      low ≤ stop ∧ Text.isBoundary text stop = true :=
  fun _ _ hcursor hattempts =>
    liesIn_some hattempts hcursor ⟨hcursor.low_le, hcursor.isBoundary⟩

/-! ### Rules and choices -/

/-- A choice stays in a text if both of its sides do. -/
theorem StaysIn.orElse {second : Scan ρ α} (h : StaysIn text low scan P)
    (hsecond : StaysIn text low second P) : StaysIn text low (scan <|> second) P := by
  intro cursor attempts hcursor hattempts
  have hfirst := h cursor attempts hcursor hattempts
  rw [run_orElse]
  rcases hrun : scan cursor attempts with ⟨_ | read, after⟩
  · rw [hrun] at hfirst
    -- the second side starts at the old cursor with the attempts of the first one
    exact hsecond cursor after hcursor hfirst.furthest
  · rwa [hrun] at hfirst

theorem staysIn_refuse : StaysIn text low (refuse : Scan ρ α) P :=
  fun _ _ _ hattempts => liesIn_none hattempts

/-- A row of choices stays in a text if each of them does. -/
theorem staysIn_firstOf {choices : List (Scan ρ α)}
    (h : ∀ choice ∈ choices, StaysIn text low choice P) : StaysIn text low (firstOf choices) P := by
  induction choices with
  | nil => exact staysIn_refuse
  | cons choice choices ih =>
    obtain ⟨hchoice, hchoices⟩ := List.forall_mem_cons.mp h
    exact hchoice.orElse (ih hchoices)

/-- A refused rule reports the place where it was started, which is one of the text. -/
theorem StaysIn.rule {r : ρ} (h : StaysIn text low scan P) : StaysIn text low (rule r scan) P := by
  intro cursor attempts hcursor hattempts
  have hbody := h cursor attempts hcursor hattempts
  unfold Scan.rule
  rcases hrun : scan cursor attempts with ⟨_ | read, after⟩
  · rw [hrun] at hbody
    exact liesIn_none (Attempts.isBoundary_report hbody.furthest hcursor.isBoundary)
  · rwa [hrun] at hbody

/-! ### Lexemes -/

section Lexemes

variable {read : List Char → Option (α × List Char)} {written : α → List Char}

/-- A reader must lose nothing of the text that it was given. -/
theorem staysIn_lexeme
    (hread : ∀ given a rest, read given = some (a, rest) → given = written a ++ rest ∧ P a) :
    StaysIn text low (lexeme read written : Scan ρ α) P := by
  intro cursor attempts hcursor hattempts
  unfold lexeme
  cases h : read cursor.rest with
  | none => exact liesIn_none hattempts
  | some found =>
    obtain ⟨hgiven, ha⟩ := hread _ _ _ h
    exact liesIn_some hattempts (hcursor.advance hgiven) ha

/-- A token is a lexeme under a rule's name. -/
theorem staysIn_token {r : ρ}
    (hread : ∀ given a rest, read given = some (a, rest) → given = written a ++ rest ∧ P a) :
    StaysIn text low (token r read written) P :=
  (staysIn_lexeme hread).rule

/-- A word is taken off the text that it is found at. -/
theorem staysIn_exactly (word : List Char) :
    StaysIn text low (exactly word : Scan ρ Unit) fun _ => True := by
  refine staysIn_lexeme fun given a rest h => ⟨?_, trivial⟩
  obtain ⟨_, hprefix, heq⟩ := Option.map_eq_some_iff.mp h
  cases heq
  exact Grammar.append_of_isPrefixOf? hprefix

theorem staysIn_sign {r : ρ} (word : String) :
    StaysIn text low (sign r word : Scan ρ Unit) fun _ => True :=
  (staysIn_exactly word.toList).rule

/-- A gap is cut off, so it and the rest are the text. -/
theorem staysIn_gap : StaysIn text low (gap : Scan ρ Unit) fun _ => True := by
  intro cursor attempts hcursor hattempts
  have hrest : cursor.rest = cursor.rest.takeWhile isGap ++ cursor.rest.dropWhile isGap :=
    List.takeWhile_append_dropWhile.symm
  exact liesIn_some hattempts (hcursor.advance hrest) trivial

/-- Nothing is read at the end of a text. -/
theorem staysIn_finish (r : ρ) : StaysIn text low (finish r) fun _ => True := by
  refine staysIn_token fun given a rest h => ⟨?_, trivial⟩
  split at h
  · cases h
    rfl
  · cases h

/-- A lexeme together with the place where it starts: it ends at a place too. -/
theorem staysIn_placed {r : ρ} {make : Nat → α → β}
    (hread : ∀ given a rest, read given = some (a, rest) → given = written a ++ rest)
    (hmake : ∀ start a, Text.isBoundary text start = true →
      Text.isBoundary text (start + Text.utf8Length (written a)) = true → R (make start a)) :
    StaysIn text low
      (do let start ← place
          let a ← token r read written
          return make start a) R := by
  intro cursor attempts hcursor hattempts
  -- the bind rule forgets which place was asked for, so the three steps are run by hand
  show LiesIn text low R ((token r read written >>= fun a => pure (make cursor.offset a)) _ _)
  rw [run_bind, token, rule, lexeme]
  cases h : read cursor.rest with
  | none => exact liesIn_none (Attempts.isBoundary_report hattempts hcursor.isBoundary)
  | some found =>
    have hbehind := hcursor.advance (hread _ _ _ h)
    exact liesIn_some hattempts hbehind
      (hmake cursor.offset found.1 hcursor.isBoundary hbehind.isBoundary)

end Lexemes

/-! ### Repetitions -/

section Repetition

variable {item : Scan ρ α}

/-- All rounds together stay in a text if each of them does. -/
theorem staysIn_rounds (hitem : StaysIn text low item P) (bound : List Char) {cursor : Cursor}
    {attempts : Attempts ρ} (hcursor : cursor.StandsIn text low)
    (hattempts : Text.isBoundary text attempts.offset = true) :
    let outcome := rounds item bound cursor attempts
    (∀ a ∈ outcome.1.1, P a) ∧ outcome.1.2.StandsIn text low ∧
      Text.isBoundary text outcome.2.offset = true := by
  -- every round is started where the one before it has stopped
  induction bound generalizing cursor attempts with
  | nil =>
    have hround := hitem cursor attempts hcursor hattempts
    rw [rounds]
    rcases h : item cursor attempts with ⟨_ | ⟨a, behind⟩, after⟩
    · rw [h] at hround
      exact ⟨by simp, hcursor, hround.furthest⟩
    · rw [h] at hround
      obtain ⟨hbehind, ha⟩ := hround.read a behind rfl
      exact ⟨List.forall_mem_singleton.mpr ha, hbehind, hround.furthest⟩
  | cons c bound ih =>
    have hround := hitem cursor attempts hcursor hattempts
    rw [rounds]
    rcases h : item cursor attempts with ⟨_ | ⟨a, behind⟩, after⟩
    · rw [h] at hround
      exact ⟨by simp, hcursor, hround.furthest⟩
    · rw [h] at hround
      obtain ⟨hbehind, ha⟩ := hround.read a behind rfl
      obtain ⟨hmore, hstop, hfurthest⟩ := ih hbehind hround.furthest
      exact ⟨List.forall_mem_cons.mpr ⟨ha, hmore⟩, hstop, hfurthest⟩

/-- A repetition stays in a text if its item does. -/
theorem staysIn_repeated (hitem : StaysIn text low item P) :
    StaysIn text low (repeated item) fun as => ∀ a ∈ as, P a := by
  intro cursor attempts hcursor hattempts
  obtain ⟨has, hstop, hfurthest⟩ := staysIn_rounds hitem cursor.rest hcursor hattempts
  exact liesIn_some hfurthest hstop has

/-- Items with gaps between them stay in a text. -/
theorem staysIn_many (hitem : StaysIn text low item P) :
    StaysIn text low (many item) fun as => ∀ a ∈ as, P a := by
  refine StaysIn.orElse ?_ (staysIn_pure (by simp))
  refine hitem.bind fun a ha => ?_
  refine (staysIn_repeated (staysIn_gap.bind fun _ _ => hitem)).bind fun as has => ?_
  exact staysIn_pure (List.forall_mem_cons.mpr ⟨ha, has⟩)

/-- Items with commas between them stay in a text. -/
theorem staysIn_commaSeparated (hitem : StaysIn text low item P) :
    StaysIn text low (commaSeparated item) fun as => ∀ a ∈ as, P a := by
  have hmore : StaysIn text low (do exactly [',']; gap; item) P :=
    (staysIn_exactly _).bind fun _ _ => staysIn_gap.bind fun _ _ => hitem
  refine StaysIn.orElse ?_ (staysIn_pure (by simp))
  refine hitem.bind fun a ha => staysIn_gap.bind fun _ _ => ?_
  exact (staysIn_many hmore).bind fun as has =>
    staysIn_pure (List.forall_mem_cons.mpr ⟨ha, has⟩)

end Repetition

/-! ### Whole texts and parts in brackets -/

/-- Something between two rows of characters that stand for brackets. -/
theorem StaysIn.enclosed {make : α → β} (h : StaysIn text low scan P)
    (hmake : ∀ a, P a → R (make a)) (opening closing : List Char) :
    StaysIn text low
      (do exactly opening
          gap
          let a ← scan
          gap
          exactly closing
          return make a) R := by
  refine (staysIn_exactly opening).bind fun _ _ => staysIn_gap.bind fun _ _ => ?_
  refine h.bind fun a ha => staysIn_gap.bind fun _ _ => ?_
  exact (staysIn_exactly closing).bind fun _ _ => staysIn_pure (hmake a ha)

/-- Something that makes up a text, with gaps around it. -/
theorem StaysIn.whole {r last : ρ} (h : StaysIn text low scan P) :
    StaysIn text low
      (Scan.rule r do
          gap
          let a ← scan
          gap
          finish last
          return a) P := by
  refine StaysIn.rule (staysIn_gap.bind fun _ _ => h.bind fun a ha => ?_)
  exact staysIn_gap.bind fun _ _ => (staysIn_finish last).bind fun _ _ => staysIn_pure ha

/-- What is read from a whole text has the property. -/
theorem StaysIn.of_run_eq_ok {a : α} (h : StaysIn text 0 scan P) (hrun : scan.run text = .ok a) :
    P a := by
  have hscan := h (.start text) .empty (Cursor.standsIn_start text) (Text.isBoundary_zero text)
  unfold run at hrun
  split at hrun
  · next read behind after hread =>
    cases hrun
    rw [hread] at hscan
    exact (hscan.read _ _ rfl).2
  · cases hrun

/-- **A refused text is refused at one of its places.** -/
theorem StaysIn.of_run_eq_error {attempts : Attempts ρ} (h : StaysIn text 0 scan P)
    (hrun : scan.run text = .error attempts) : Text.isBoundary text attempts.offset = true := by
  have hscan := h (.start text) .empty (Cursor.standsIn_start text) (Text.isBoundary_zero text)
  unfold run at hrun
  split at hrun
  · cases hrun
  · next after hread =>
    cases hrun
    rw [hread] at hscan
    exact hscan.furthest

end Scan

end CheckedExpr
