import CheckedExpr.Grammar.Lexeme
import Mathlib.Data.List.Forall2

/-!
# What a scan reads

A scan carries along where it is and what was tried. Neither changes what is read, so the facts
about a grammar are stated without them: a scan *reads* a property from a text and leaves a rest, or
it *refuses* the text. Each combinator has one rule for either, and a proof about a grammar is put
together from these.

* `Reads.bind`, `Reads.rule`, `Reads.orElse_left`, `Refuses.orElse`: the rules of combinators.
* `reads_many`, `reads_commaSeparated`: the rules of repetitions, for items that are written in a
  row.
-/

namespace CheckedExpr.Scan

variable {ρ α β γ : Type}

/-- Whether a scan reads something of a property from a text and leaves a rest, wherever the text
stands and whatever was tried before. -/
def Reads (scan : Scan ρ α) (P : α → Prop) (text rest : List Char) : Prop :=
  ∀ offset attempts, ∃ a stop after,
    scan ⟨text, offset⟩ attempts = (some (a, ⟨rest, stop⟩), after) ∧ P a

/-- Whether a scan refuses a text, wherever it stands and whatever was tried before. -/
def Refuses (scan : Scan ρ α) (text : List Char) : Prop :=
  ∀ offset attempts, ∃ after, scan ⟨text, offset⟩ attempts = (none, after)

variable {scan : Scan ρ α} {P : α → Prop} {R : β → Prop} {text mid rest : List Char}

theorem Reads.exists_run (h : scan.Reads P text rest) : ∃ a, scan.run text = .ok a ∧ P a := by
  obtain ⟨a, stop, after, hscan, ha⟩ := h 0 .empty
  exact ⟨a, by rw [run, Cursor.start, hscan], ha⟩

/-! ### Steps in a row -/

theorem reads_pure {a : α} (h : P a) : (pure a : Scan ρ α).Reads P text text :=
  fun offset attempts => ⟨a, offset, attempts, rfl, h⟩

/-- The rule of a row: what the first step leaves is what the second one is given. -/
theorem Reads.bind {next : α → Scan ρ β} (hscan : scan.Reads P text mid)
    (hnext : ∀ a, P a → (next a).Reads R mid rest) : (scan >>= next).Reads R text rest := by
  intro offset attempts
  obtain ⟨a, stop, after, hfirst, ha⟩ := hscan offset attempts
  -- the second step starts at the place and with the attempts that the first one ends with
  obtain ⟨b, stop', after', hsecond, hb⟩ := hnext a ha stop after
  exact ⟨b, stop', after', by rw [run_bind, hfirst]; exact hsecond, hb⟩

theorem Reads.map {f : α → β} (h : scan.Reads P text rest) (hf : ∀ a, P a → R (f a)) :
    (f <$> scan).Reads R text rest :=
  h.bind fun a ha => reads_pure (hf a ha)

/-- A row of steps refuses where its first step does. -/
theorem Refuses.bind {next : α → Scan ρ β} (h : scan.Refuses text) :
    (scan >>= next).Refuses text := by
  intro offset attempts
  obtain ⟨after, hscan⟩ := h offset attempts
  exact ⟨after, by rw [run_bind, hscan]⟩

/-- A row of steps refuses where its second step does. -/
theorem Reads.bind_refuses {next : α → Scan ρ β} (hscan : scan.Reads P text mid)
    (hnext : ∀ a, P a → (next a).Refuses mid) : (scan >>= next).Refuses text := by
  intro offset attempts
  obtain ⟨a, stop, after, hfirst, ha⟩ := hscan offset attempts
  obtain ⟨after', hsecond⟩ := hnext a ha stop after
  exact ⟨after', by rw [run_bind, hfirst]; exact hsecond⟩

/-! ### Rules and choices -/

/-- A rule reads what its body reads; only refusals are put down under its name. -/
theorem Reads.rule {r : ρ} (h : scan.Reads P text rest) : (rule r scan).Reads P text rest := by
  intro offset attempts
  obtain ⟨a, stop, after, hscan, ha⟩ := h offset attempts
  exact ⟨a, stop, after, by rw [Scan.rule, hscan], ha⟩

/-- A rule refuses where its body does, though with other attempts. -/
theorem Refuses.rule {r : ρ} (h : scan.Refuses text) : (rule r scan).Refuses text := by
  intro offset attempts
  obtain ⟨after, hscan⟩ := h offset attempts
  exact ⟨_, by rw [Scan.rule, hscan]⟩

/-- A choice reads what its first side reads. -/
theorem Reads.orElse_left {second : Scan ρ α} (h : scan.Reads P text rest) :
    (scan <|> second).Reads P text rest := by
  intro offset attempts
  obtain ⟨a, stop, after, hscan, ha⟩ := h offset attempts
  exact ⟨a, stop, after, by rw [run_orElse, hscan], ha⟩

/-- Where the first side refuses, a choice reads what its second side reads. -/
theorem Refuses.orElse_reads {second : Scan ρ α} (h : scan.Refuses text)
    (hsecond : second.Reads P text rest) : (scan <|> second).Reads P text rest := by
  intro offset attempts
  obtain ⟨after, hscan⟩ := h offset attempts
  -- the refusal gave the cursor back and left its attempts to the second side
  obtain ⟨a, stop, after', hread, ha⟩ := hsecond offset after
  exact ⟨a, stop, after', by rw [run_orElse, hscan]; exact hread, ha⟩

/-- A choice refuses where both of its sides do. -/
theorem Refuses.orElse {second : Scan ρ α} (h : scan.Refuses text)
    (hsecond : second.Refuses text) : (scan <|> second).Refuses text := by
  intro offset attempts
  obtain ⟨after, hscan⟩ := h offset attempts
  obtain ⟨after', hrefuse⟩ := hsecond offset after
  exact ⟨after', by rw [run_orElse, hscan]; exact hrefuse⟩

theorem refuses_refuse : (refuse : Scan ρ α).Refuses text :=
  fun _ attempts => ⟨attempts, rfl⟩

/-- A row of choices refuses where each of them does. -/
theorem refuses_firstOf {choices : List (Scan ρ α)} (h : ∀ choice ∈ choices, choice.Refuses text) :
    (firstOf choices).Refuses text := by
  induction choices with
  | nil => exact refuses_refuse
  | cons choice choices ih =>
    obtain ⟨hchoice, hchoices⟩ := List.forall_mem_cons.mp h
    exact hchoice.orElse (ih hchoices)

/-- The first choice that does not refuse a text reads it. -/
theorem reads_firstOf {before after : List (Scan ρ α)}
    (hbefore : ∀ choice ∈ before, choice.Refuses text) (h : scan.Reads P text rest) :
    (firstOf (before ++ scan :: after)).Reads P text rest := by
  induction before with
  | nil => exact h.orElse_left
  | cons choice before ih =>
    obtain ⟨hchoice, hbefore⟩ := List.forall_mem_cons.mp hbefore
    exact hchoice.orElse_reads (ih hbefore)

/-! ### Lexemes -/

/-- A lexeme is read where its reader reads it. -/
theorem reads_lexeme {read : List Char → Option (α × List Char)} {written : α → List Char} {a : α}
    (hread : read text = some (a, rest)) (h : P a) :
    (lexeme read written : Scan ρ α).Reads P text rest := by
  intro offset attempts
  exact ⟨a, _, attempts, by rw [lexeme, hread]; rfl, h⟩

/-- A lexeme is refused where its reader reads nothing. -/
theorem refuses_lexeme {read : List Char → Option (α × List Char)} {written : α → List Char}
    (hread : read text = none) : (lexeme read written : Scan ρ α).Refuses text := by
  intro offset attempts
  exact ⟨attempts, by rw [lexeme, hread]⟩

/-- What stands behind a word is what the text goes on with once the word is taken off. -/
theorem isPrefixOf?_append (word rest : List Char) :
    word.isPrefixOf? (word ++ rest) = some rest := by
  induction word with
  | nil => simp [List.isPrefixOf?]
  | cons c cs ih => simp [List.isPrefixOf?, ih]

theorem reads_exactly (word : List Char) :
    (exactly word : Scan ρ Unit).Reads (fun _ => True) (word ++ rest) rest :=
  reads_lexeme (a := ()) (by rw [isPrefixOf?_append]; rfl) trivial

/-- A word is refused in front of a text that does not begin with it. -/
theorem refuses_exactly {word : List Char} (h : word.isPrefixOf? text = none) :
    (exactly word : Scan ρ Unit).Refuses text :=
  refuses_lexeme (by rw [h]; rfl)

/-- A gap is read as far as it goes. -/
theorem reads_gap (h : text.dropWhile isGap = rest) :
    (gap : Scan ρ Unit).Reads (fun _ => True) text rest := by
  intro offset attempts
  exact ⟨(), _, attempts, by rw [gap, h]; rfl, trivial⟩

theorem reads_gap_space (h : rest.dropWhile isGap = rest) :
    (gap : Scan ρ Unit).Reads (fun _ => True) (' ' :: rest) rest :=
  reads_gap h

theorem reads_place : (place : Scan ρ Nat).Reads (fun _ => True) text text :=
  fun offset attempts => ⟨offset, offset, attempts, rfl, trivial⟩

theorem reads_finish {r : ρ} : (finish r).Reads (fun _ => True) [] [] :=
  Reads.rule (reads_lexeme (a := ()) rfl trivial)

/-! ### Repetitions -/

section Repetition

variable {print : γ → List Char} {S : List Char → Prop} {xs : List γ} {P : γ → α → Prop}

/-- There are no more items than characters if no item is printed as nothing. -/
private theorem length_le_length_flatMap (hprint : ∀ x ∈ xs, print x ≠ []) :
    xs.length ≤ (xs.flatMap print).length := by
  induction xs with
  | nil => simp
  | cons x xs ih =>
    obtain ⟨hx, hxs⟩ := List.forall_mem_cons.mp hprint
    have hpos := List.length_pos_iff.mpr hx
    have hrest := ih hxs
    rw [List.flatMap_cons, List.length_append, List.length_cons]
    omega

/-- What follows an item is the next one or the rest. -/
private theorem follows_flatMap (hrest : S rest) (hnext : ∀ x ∈ xs, ∀ r, S (print x ++ r)) :
    S (xs.flatMap print ++ rest) := by
  cases xs with
  | nil => exact hrest
  | cons x xs =>
    rw [List.flatMap_cons, List.append_assoc]
    exact hnext x List.mem_cons_self _

/-- **The rounds of a repetition read the items of a row**, one each, and stop where none follows,
given that there is a round for every item. -/
theorem rounds_flatMap {item : Scan ρ α} (hrest : S rest) (hnext : ∀ x ∈ xs, ∀ r, S (print x ++ r))
    (hitem : ∀ x ∈ xs, ∀ r, S r → item.Reads (P x) (print x ++ r) r) (hend : item.Refuses rest)
    {bound : List Char} (hbound : xs.length ≤ bound.length) (offset : Nat) (attempts : Attempts ρ) :
    ∃ as stop after, rounds item bound ⟨xs.flatMap print ++ rest, offset⟩ attempts =
      ((as, ⟨rest, stop⟩), after) ∧ List.Forall₂ P xs as := by
  -- the rounds are bounded by a text, which only has to be long enough
  induction xs generalizing bound offset attempts with
  | nil =>
    obtain ⟨after, hrefuse⟩ := hend offset attempts
    refine ⟨[], offset, after, ?_, .nil⟩
    cases bound with
    | nil => rw [rounds, List.flatMap_nil, List.nil_append, hrefuse]
    | cons c bound => rw [rounds, List.flatMap_nil, List.nil_append, hrefuse]
  | cons x xs ih =>
    obtain ⟨hx, hxs⟩ := List.forall_mem_cons.mp hitem
    obtain ⟨-, hnext⟩ := List.forall_mem_cons.mp hnext
    cases bound with
    | nil => exact absurd hbound (Nat.not_succ_le_zero _)
    | cons c bound =>
      -- the item stands before what follows it, so it is read up to there and no further
      obtain ⟨a, stop, after, hread, ha⟩ := hx _ (follows_flatMap hrest hnext) offset attempts
      obtain ⟨as, stop', after', hmore, has⟩ :=
        ih hnext hxs (Nat.le_of_succ_le_succ hbound) stop after
      refine ⟨a :: as, stop', after', ?_, .cons ha has⟩
      rw [rounds, List.flatMap_cons, List.append_assoc, hread]
      simp only [hmore]

/-- A repetition reads the items of a row without running out of rounds. -/
theorem reads_repeated {item : Scan ρ α} (hprint : ∀ x ∈ xs, print x ≠ []) (hrest : S rest)
    (hnext : ∀ x ∈ xs, ∀ r, S (print x ++ r))
    (hitem : ∀ x ∈ xs, ∀ r, S r → item.Reads (P x) (print x ++ r) r) (hend : item.Refuses rest) :
    (repeated item).Reads (List.Forall₂ P xs) (xs.flatMap print ++ rest) rest := by
  intro offset attempts
  -- every item has a character at least, so the text is a bound that suffices
  have hbound : xs.length ≤ (xs.flatMap print ++ rest).length := by
    rw [List.length_append]
    exact Nat.le_add_right_of_le (length_le_length_flatMap hprint)
  obtain ⟨as, stop, after, hrounds, has⟩ :=
    rounds_flatMap hrest hnext hitem hend hbound offset attempts
  exact ⟨as, stop, after, by rw [repeated, hrounds], has⟩

/-- Items in a row that begin with no gap and do not run into what follows them. -/
theorem reads_many {item : Scan ρ α} (hclear : ∀ r, S r → r.dropWhile isGap = r)
    (hprint : ∀ x ∈ xs, print x ≠ []) (hrest : S rest)
    (hnext : ∀ x ∈ xs, ∀ r, S (print x ++ r))
    (hitem : ∀ x ∈ xs, ∀ r, S r → item.Reads (P x) (print x ++ r) r) (hend : item.Refuses rest) :
    (many item).Reads (List.Forall₂ P xs) (xs.flatMap print ++ rest) rest := by
  cases xs with
  | nil => exact hend.bind.orElse_reads (reads_pure .nil)
  | cons x xs =>
    obtain ⟨hx, hxs⟩ := List.forall_mem_cons.mp hitem
    obtain ⟨-, hprint⟩ := List.forall_mem_cons.mp hprint
    obtain ⟨-, hnext⟩ := List.forall_mem_cons.mp hnext
    rw [List.flatMap_cons, List.append_assoc]
    refine Reads.orElse_left ((hx _ (follows_flatMap hrest hnext)).bind fun a ha => ?_)
    -- behind the first item, each round begins with a gap, which is empty
    refine (reads_repeated hprint hrest hnext (P := P) ?_ ?_).bind fun as has =>
      reads_pure (.cons ha has)
    · intro x hx r hr
      exact (reads_gap (hclear _ (hnext x hx r))).bind fun _ _ => hxs x hx r hr
    · exact (reads_gap (hclear rest hrest)).bind_refuses fun _ _ => hend

theorem reads_commaSeparated_nil {item : Scan ρ α} (h : item.Refuses rest) :
    (commaSeparated item).Reads (List.Forall₂ P ([] : List γ)) rest rest :=
  h.bind.orElse_reads (reads_pure .nil)

/-- Items with a comma and a space between them, in front of a text that begins neither with a gap
nor with a comma. -/
theorem reads_commaSeparated {item : Scan ρ α} {x : γ} (hS : ∀ r, S (',' :: r)) (hrest : S rest)
    (hclear : ∀ r, S r → r.dropWhile isGap = r) (hcomma : [','].isPrefixOf? rest = none)
    (hprint : ∀ x ∈ xs, ∀ r, (print x ++ r).dropWhile isGap = print x ++ r)
    (hitem : ∀ y ∈ x :: xs, ∀ r, S r → item.Reads (P y) (print y ++ r) r) :
    (commaSeparated item).Reads (List.Forall₂ P (x :: xs))
      (print x ++ (xs.flatMap (fun y => ',' :: ' ' :: print y) ++ rest)) rest := by
  obtain ⟨hx, hxs⟩ := List.forall_mem_cons.mp hitem
  -- behind the first item stands a comma or the rest
  have hfollow : S (xs.flatMap (fun y => ',' :: ' ' :: print y) ++ rest) :=
    follows_flatMap hrest fun _ _ _ => hS _
  refine Reads.orElse_left ((hx _ hfollow).bind fun a ha => ?_)
  refine (reads_gap (hclear _ hfollow)).bind fun _ _ => ?_
  refine (reads_many hclear (by simp) hrest (fun _ _ _ => hS _) (P := P) ?_ ?_).bind fun as has =>
    reads_pure (.cons ha has)
  · intro y hy r hr
    refine (reads_exactly [',']).bind fun _ _ => ?_
    exact (reads_gap_space (hprint y hy r)).bind fun _ _ => hxs y hy r hr
  · exact (refuses_exactly hcomma).bind

end Repetition

end CheckedExpr.Scan
