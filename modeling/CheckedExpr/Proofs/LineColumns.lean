import CheckedExpr.Proofs.TextPlaces
import Mathlib.Data.List.DropRight
import Mathlib.Data.List.Induction
import Mathlib.Data.Prod.Lex

/-!
# Lines and columns keep the order of places

A place is counted in bytes, a column in characters, and a line in newlines. Nothing is lost on the
way from the one to the others: of two places, the later one has the later line, or the same line
and the later column. One law is behind it. A character moves on by one column, and a newline to the
first column of the next line, whatever the number of its bytes is.

* `lineColumnBehind`: newlines, and characters behind the last newline, counted from the end of what
  stands before a place.
* `lineColumnFrom_eq_behind`: this is what reading on character by character comes to.
* `lineColumn_orderEmbedding`: the order, the law of single characters, and what holds at both ends.
-/

namespace CheckedExpr.Span

/-! ### Counting -/

/-- The line and column behind some characters: the newlines among them, and the characters behind
the last newline, both counted from one. -/
def lineColumnBehind (before : List Char) : Nat × Nat :=
  (before.count '\n' + 1, (before.rtakeWhile (· ≠ '\n')).length + 1)

/-- The line and column behind one more character. -/
def next (c : Char) (position : Nat × Nat) : Nat × Nat :=
  if c = '\n' then (position.1 + 1, 1) else (position.1, position.2 + 1)

/-- One more character moves on by the law of single characters. -/
theorem lineColumnBehind_concat (before : List Char) (c : Char) :
    lineColumnBehind (before ++ [c]) = next c (lineColumnBehind before) := by
  unfold lineColumnBehind next
  by_cases h : c = '\n'
  · simp [h, List.rtakeWhile_concat_neg]
  · simp [h, List.rtakeWhile_concat_pos, List.count_append]

/-- So does reading on by one, however many bytes the character has. -/
theorem lineColumnFrom_cons (line column : Nat) (c : Char) (after : List Char) :
    lineColumnFrom line column (c :: after) c.utf8Size = next c (line, column) := by
  rw [lineColumnFrom, if_neg (Nat.lt_irrefl _), Nat.sub_self, lineColumnFrom_zero,
    lineColumnFrom_zero]
  rfl

/-- **Reading on is counting.** -/
theorem lineColumnFrom_eq_behind (before after : List Char) :
    lineColumnFrom 1 1 (before ++ after) (Text.utf8Length before) = lineColumnBehind before := by
  -- from the end, since a newline settles the column for all that stands before it
  induction before using List.reverseRecOn generalizing after with
  | nil => exact lineColumnFrom_zero 1 1 after
  | append_singleton before c ih =>
    have hbefore := ih []
    rw [List.append_nil] at hbefore
    have hread := lineColumnFrom_append 1 1 before (c :: after) c.utf8Size
    dsimp only at hread
    rw [hbefore, lineColumnFrom_cons] at hread
    rw [List.append_assoc, List.singleton_append, Text.utf8Length_append, Text.utf8Length_cons,
      Text.utf8Length_nil, Nat.add_zero, hread, lineColumnBehind_concat]

/-! ### The order -/

/-- **A character never leads back.** -/
theorem lt_next (c : Char) (position : Nat × Nat) : toLex position < toLex (next c position) := by
  rw [Prod.Lex.toLex_lt_toLex]
  unfold next
  split
  · exact Or.inl (Nat.lt_succ_self _)
  · exact Or.inr ⟨rfl, Nat.lt_succ_self _⟩

/-- So more characters lead further on. -/
theorem lt_lineColumnBehind_append (before : List Char) {more : List Char} (h : more ≠ []) :
    toLex (lineColumnBehind before) < toLex (lineColumnBehind (before ++ more)) := by
  -- from the back, since the law is about the character that comes last
  induction more using List.reverseRecOn with
  | nil => exact absurd rfl h
  | append_singleton more c ih =>
    have hlast := lt_next c (lineColumnBehind (before ++ more))
    rw [← lineColumnBehind_concat, List.append_assoc] at hlast
    by_cases hmore : more = []
    · subst hmore
      rwa [List.append_nil] at hlast
    · exact (ih hmore).trans hlast

/-! ### Spans -/

/-- A span that starts at a place of a source. -/
def startingAt {source : String} (p : source.Pos) (stop : Nat) : Span := ⟨p.offset.byteIdx, stop⟩

variable {source : String}

/-- The line and column of a place are those behind the text before it. -/
theorem lineColumn_startingAt {p : source.Pos} {before after : String} (h : p.Splits before after)
    (stop : Nat) : (startingAt p stop).lineColumn source = lineColumnBehind before.toList := by
  obtain ⟨hsource, hoffset⟩ := Text.exists_of_splits h
  unfold lineColumn startingAt
  rw [hsource, hoffset, lineColumnFrom_eq_behind]

/-- A later place has the later line and column. -/
theorem lineColumn_lt {p q : source.Pos} (h : p < q) (stop stop' : Nat) :
    toLex ((startingAt p stop).lineColumn source) <
      toLex ((startingAt q stop').lineColumn source) := by
  -- what stands before the later place begins with what stands before the earlier one
  obtain ⟨more, hmore, hbefore, -⟩ := (p.splits.lt_iff_exists_eq_append q.splits).mp h
  rw [lineColumn_startingAt p.splits, lineColumn_startingAt q.splits, hbefore, String.toList_append]
  exact lt_lineColumnBehind_append _ (by simpa using hmore)

/-- **Lines and columns tell the order of places.** -/
theorem lineColumn_lt_iff (p q : source.Pos) (stop stop' : Nat) :
    toLex ((startingAt p stop).lineColumn source) <
      toLex ((startingAt q stop').lineColumn source) ↔ p < q := by
  refine ⟨fun h => ?_, fun h => lineColumn_lt h stop stop'⟩
  -- positions are compared by their bytes, so one of three cases holds
  obtain hpq | heq | hqp : p < q ∨ p = q ∨ q < p := by
    simp only [String.Pos.lt_iff, String.Pos.Raw.lt_iff, String.Pos.ext_iff, String.Pos.Raw.ext_iff]
    omega
  · exact hpq
  · subst heq
    rw [lineColumn_startingAt p.splits, lineColumn_startingAt p.splits] at h
    exact absurd h (lt_irrefl _)
  · exact absurd (lineColumn_lt hqp stop' stop) (lt_asymm h)

theorem lineColumn_startPos (stop : Nat) :
    (startingAt source.startPos stop).lineColumn source = (1, 1) :=
  lineColumn_startingAt source.splits_startPos stop

/-- The place behind one more character. -/
theorem lineColumn_next (p : source.Pos) (h : p ≠ source.endPos) (stop stop' : Nat) :
    (startingAt (p.next h) stop').lineColumn source =
      next (p.get h) ((startingAt p stop).lineColumn source) := by
  rw [lineColumn_startingAt (p.splits_next h), lineColumn_startingAt p.splits,
    String.toList_append, String.toList_singleton, lineColumnBehind_concat]

/-- A place past the end counts as the end. -/
theorem lineColumn_of_le {span : Span} (h : source.utf8ByteSize ≤ span.start) (stop : Nat) :
    span.lineColumn source = (startingAt source.endPos stop).lineColumn source := by
  obtain ⟨more, hmore⟩ := Nat.exists_eq_add_of_le h
  have hend := lineColumnFrom_append 1 1 source.toList [] more
  rw [List.append_nil, Text.utf8Length_toList] at hend
  unfold lineColumn
  rw [hmore, hend]
  rfl

/-- Lines and columns count from one. -/
theorem le_lineColumnFrom {line column : Nat} (hline : 1 ≤ line) (hcolumn : 1 ≤ column)
    (text : List Char) (offset : Nat) :
    1 ≤ (lineColumnFrom line column text offset).1 ∧
      1 ≤ (lineColumnFrom line column text offset).2 := by
  fun_induction lineColumnFrom line column text offset with
  | case1 => exact ⟨hline, hcolumn⟩
  | case2 => exact ⟨hline, hcolumn⟩
  | case3 line _ _ _ _ ih => exact ih (Nat.le_succ_of_le hline) le_rfl
  | case4 _ column _ _ _ _ _ ih => exact ih hline (Nat.le_succ_of_le hcolumn)

/-- **Lines and columns keep the order of places.** Of two places of a source, one has the smaller
line and column exactly if it is the earlier one. Lines and columns count from one. From a place to
the next one there is one column more on the same line, unless a newline stands between them; then
it is the first column of the next line. All that starts past the end has the line and column of the
end. -/
theorem lineColumn_orderEmbedding (source : String) :
    (∀ (p q : source.Pos) (stop stop' : Nat),
      toLex ((startingAt p stop).lineColumn source) <
        toLex ((startingAt q stop').lineColumn source) ↔ p < q) ∧
    (∀ span : Span, 1 ≤ (span.lineColumn source).1 ∧ 1 ≤ (span.lineColumn source).2) ∧
    (∀ stop, (startingAt source.startPos stop).lineColumn source = (1, 1)) ∧
    (∀ (p : source.Pos) (h : p ≠ source.endPos) (stop stop' : Nat),
      let position := (startingAt p stop).lineColumn source
      (startingAt (p.next h) stop').lineColumn source =
        if p.get h = '\n' then (position.1 + 1, 1) else (position.1, position.2 + 1)) ∧
    ∀ (span : Span) (stop : Nat), source.utf8ByteSize ≤ span.start →
      span.lineColumn source = (startingAt source.endPos stop).lineColumn source :=
  ⟨lineColumn_lt_iff, fun _ => le_lineColumnFrom le_rfl le_rfl _ _, lineColumn_startPos,
    lineColumn_next, fun _ stop h => lineColumn_of_le h stop⟩

/-- A newline behind a character of two bytes, and a character of four bytes behind it. -/
theorem lineColumn_orderEmbedding_multibyte :
    let source := "é\n😀"
    toLex ((Span.mk 2 3).lineColumn source) < toLex ((Span.mk 3 7).lineColumn source) ∧
      (Span.mk 2 3).lineColumn source = (1, 2) ∧ (Span.mk 3 7).lineColumn source = (2, 1) ∧
      (Span.mk 100 200).lineColumn source = (2, 2) := by
  intro source
  obtain ⟨horder, -, -, -, hpast⟩ := lineColumn_orderEmbedding source
  -- the newline stands behind a character of two bytes
  let newline : source.Pos := ⟨⟨2⟩, Text.isBoundary_toList_iff.mp (by decide +kernel)⟩
  let face : source.Pos := ⟨⟨3⟩, Text.isBoundary_toList_iff.mp (by decide +kernel)⟩
  refine ⟨(horder newline face 3 7).mpr ?_, by decide +kernel, by decide +kernel, ?_⟩
  · exact show 2 < 3 by decide
  · rw [hpast ⟨100, 200⟩ 7 (by decide +kernel)]
    decide +kernel

end CheckedExpr.Span
