import CheckedExpr.Span

/-!
# Places of strings

Places are counted in bytes here, and texts are lists of characters. Strings have places of their
own, which are those between two characters. Both say the same: a number of bytes is a place of a
string exactly if it is the length of a beginning of its characters.

* `Text.isBoundary_iff`: the places of a text.
* `Text.isBoundary_toList_iff`: they are the places of the string.
* `Text.exists_of_splits`: the characters before and behind a place of a string.
-/

namespace CheckedExpr

namespace Text

/-- The bytes of a text are those of the string. -/
theorem utf8Length_toList (s : String) : utf8Length s.toList = s.utf8ByteSize := by
  obtain ⟨text, rfl⟩ := s.exists_eq_ofList
  rw [String.toList_ofList]
  induction text with
  | nil => rfl
  | cons c text ih =>
    rw [utf8Length_cons, ih, String.ofList_cons, String.utf8ByteSize_append,
      String.utf8ByteSize_singleton]

/-- A place of a text is the length of a beginning of it. -/
theorem isBoundary_iff {text : List Char} {offset : Nat} :
    isBoundary text offset = true ↔
      ∃ before after, text = before ++ after ∧ offset = utf8Length before := by
  rw [isBoundary, Option.isSome_iff_exists]
  constructor
  · rintro ⟨⟨before, after⟩, hcut⟩
    exact ⟨before, after, append_of_splitAtOffset hcut⟩
  · rintro ⟨before, after, rfl, rfl⟩
    exact ⟨_, splitAtOffset_utf8Length_append before after⟩

theorem isBoundary_utf8Length (before after : List Char) :
    isBoundary (before ++ after) (utf8Length before) = true :=
  isBoundary_iff.mpr ⟨before, after, rfl, rfl⟩

theorem isBoundary_zero (text : List Char) : isBoundary text 0 = true :=
  isBoundary_utf8Length [] text

/-- No place lies past the end. -/
theorem le_of_isBoundary {text : List Char} {offset : Nat} (h : isBoundary text offset = true) :
    offset ≤ utf8Length text := by
  obtain ⟨before, after, rfl, rfl⟩ := isBoundary_iff.mp h
  rw [utf8Length_append]
  exact Nat.le_add_right _ _

/-- The characters before and behind a place of a string. -/
theorem exists_of_splits {source before after : String} {p : source.Pos}
    (h : p.Splits before after) :
    source.toList = before.toList ++ after.toList ∧
      p.offset.byteIdx = utf8Length before.toList := by
  refine ⟨?_, ?_⟩
  · rw [← String.toList_append, ← h.eq_append]
  · rw [h.offset_eq_rawEndPos, utf8Length_toList]
    rfl

/-- The places of a string are those at which its characters can be cut. -/
theorem isBoundary_toList_iff {source : String} {offset : Nat} :
    isBoundary source.toList offset = true ↔ String.Pos.Raw.IsValid source ⟨offset⟩ := by
  rw [isBoundary_iff, String.Pos.Raw.isValid_iff_exists_append]
  -- both say that the text is cut in two; characters and strings only have to be exchanged
  constructor
  · rintro ⟨before, after, hsource, rfl⟩
    refine ⟨.ofList before, .ofList after, ?_, ?_⟩
    · rw [← String.ofList_append, ← hsource, String.ofList_toList]
    · have hlength := utf8Length_toList (.ofList before)
      rw [String.toList_ofList] at hlength
      rw [hlength]
      rfl
  · rintro ⟨before, after, rfl, hoffset⟩
    refine ⟨before.toList, after.toList, String.toList_append, ?_⟩
    rw [utf8Length_toList]
    exact congrArg String.Pos.Raw.byteIdx hoffset

end Text

end CheckedExpr
