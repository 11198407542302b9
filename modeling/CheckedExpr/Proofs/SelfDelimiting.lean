import CheckedExpr.Model.Bytes

/-!
# Readers that stop by themselves

A model in bytes has no mark behind it, so a reader has to know from what it has read where to stop.
Such a reader does not look at what follows: what it found in some bytes it finds in every longer
row of bytes too, and leaves what was added. A reader of models also has fuel, and may have found
the same with more of it.

* `Varint.readShort_append`, `Varint.readLong_append`, `Text.ofBytes?_append`: numbers and texts.
* `Model.readBytes_append`: models, by induction on the fuel that was enough for the shorter row.
-/

namespace CheckedExpr

variable {bytes rest : List UInt8}

/-! ### Numbers and texts -/

namespace Varint

/-- A number ends with the first group that does not announce another one. -/
theorem read_append {room n : Nat} (h : read room bytes = some (n, rest)) (more : List UInt8) :
    read room (bytes ++ more) = some (n, rest ++ more) := by
  induction room generalizing bytes n with
  | zero => cases h
  | succ room ih =>
    cases bytes with
    | nil => cases h
    | cons byte bytes =>
      rw [read] at h
      rw [List.cons_append, read]
      split at h
      next hsmall =>
        cases h
        rw [if_pos hsmall]
      next hlarge =>
        -- the groups behind this one are read by the same rule, with less room
        obtain ⟨⟨high, after⟩, hread, hsame⟩ := Option.map_eq_some_iff.mp h
        cases hsame
        rw [if_neg hlarge, ih hread]
        rfl

/-- A bound on the number is no matter of what follows. -/
theorem readBelow_append {bound room n : Nat} (h : readBelow bound room bytes = some (n, rest))
    (more : List UInt8) : readBelow bound room (bytes ++ more) = some (n, rest ++ more) := by
  obtain ⟨hread, hbound⟩ := Option.filter_eq_some_iff.mp h
  rw [readBelow, read_append hread, Option.filter_some, if_pos hbound]

theorem readShort_append {n : Nat} (h : readShort bytes = some (n, rest)) (more : List UInt8) :
    readShort (bytes ++ more) = some (n, rest ++ more) :=
  readBelow_append h more

theorem readLong_append {n : Nat} (h : readLong bytes = some (n, rest)) (more : List UInt8) :
    readLong (bytes ++ more) = some (n, rest ++ more) :=
  readBelow_append h more

end Varint

/-- A text has the number of its bytes before it. -/
theorem Text.ofBytes?_append {text : String} (h : ofBytes? bytes = some (text, rest))
    (more : List UInt8) : ofBytes? (bytes ++ more) = some (text, rest ++ more) := by
  obtain ⟨⟨length, mid⟩, hlength, h⟩ := Option.bind_eq_some_iff.mp h
  rw [ofBytes?, Varint.readLong_append hlength]
  change (if (mid ++ more).length < length then none else _) = _
  change (if mid.length < length then none else _) = _ at h
  split at h
  next => cases h
  next henough =>
    -- the bytes of the text were there, so none of the added ones is taken for it
    have hlonger : ¬ (mid ++ more).length < length := by
      rw [List.length_append]
      omega
    have hle : length ≤ mid.length := Nat.le_of_not_lt henough
    obtain ⟨decoded, hdecoded, hsame⟩ := Option.bind_eq_some_iff.mp h
    cases hsame
    rw [if_neg hlonger, List.take_append_of_le_length hle, List.drop_append_of_le_length hle,
      hdecoded]
    rfl

/-! ### Models -/

namespace Model

/-- Whether what is found with some fuel is found with more fuel and in more bytes, too. -/
structure Lasts (fuel : Nat) : Prop where
  model {larger : Nat} (hfuel : fuel ≤ larger) {bytes rest : List UInt8} {m : Model}
    (h : readBytes fuel bytes = some (m, rest)) (more : List UInt8) :
    readBytes larger (bytes ++ more) = some (m, rest ++ more)
  entries {larger : Nat} (hfuel : fuel ≤ larger) {length : Nat} {bytes rest : List UInt8}
    {entries : List (String × Model)} (h : readEntries fuel length bytes = some (entries, rest))
    (more : List UInt8) :
    readEntries larger length (bytes ++ more) = some (entries, rest ++ more)
  list {larger : Nat} (hfuel : fuel ≤ larger) {length : Nat} {bytes rest : List UInt8}
    {ms : List Model} (h : readList fuel length bytes = some (ms, rest)) (more : List UInt8) :
    readList larger length (bytes ++ more) = some (ms, rest ++ more)

namespace Lasts

variable {fuel larger : Nat}

/-- One more level of fuel: the layer says what is read next, and each part leaves what was
added. -/
theorem model_succ (hlasts : Lasts fuel) (hfuel : fuel ≤ larger) {m : Model}
    (h : readBytes (fuel + 1) bytes = some (m, rest)) (more : List UInt8) :
    readBytes (larger + 1) (bytes ++ more) = some (m, rest ++ more) := by
  rw [readBytes] at h ⊢
  obtain ⟨⟨number, behind⟩, hnumber, h⟩ := Option.bind_eq_some_iff.mp h
  obtain ⟨layer, hlayer, h⟩ := Option.bind_eq_some_iff.mp h
  rw [Varint.readShort_append hnumber]
  change Option.bind (Layer.ofNumber? number) _ = _
  rw [hlayer]
  -- what stands behind the number of a layer is read as the layer asks for
  cases layer with
  | simple =>
    obtain ⟨⟨name, after⟩, hname, h⟩ := Option.bind_eq_some_iff.mp h
    obtain ⟨kind, hkind, h⟩ := Option.bind_eq_some_iff.mp h
    cases h
    simp only [Option.bind_some, Varint.readShort_append hname, Option.bind_eq_bind, hkind]
    rfl
  | nullable =>
    obtain ⟨⟨inner, after⟩, hinner, h⟩ := Option.bind_eq_some_iff.mp h
    cases h
    simp only [Option.bind_some, Option.bind_eq_bind, hlasts.model hfuel hinner]
    rfl
  | array =>
    obtain ⟨⟨element, after⟩, helement, h⟩ := Option.bind_eq_some_iff.mp h
    cases h
    simp only [Option.bind_some, Option.bind_eq_bind, hlasts.model hfuel helement]
    rfl
  | object =>
    obtain ⟨⟨length, after⟩, hlength, h⟩ := Option.bind_eq_some_iff.mp h
    obtain ⟨⟨entries, after'⟩, hentries, h⟩ := Option.bind_eq_some_iff.mp h
    cases h
    simp only [Option.bind_some, Option.bind_eq_bind, Varint.readLong_append hlength,
      hlasts.entries hfuel hentries]
    rfl
  | function =>
    obtain ⟨⟨length, after⟩, hlength, h⟩ := Option.bind_eq_some_iff.mp h
    obtain ⟨⟨parameters, after'⟩, hparameters, h⟩ := Option.bind_eq_some_iff.mp h
    obtain ⟨⟨result, after''⟩, hresult, h⟩ := Option.bind_eq_some_iff.mp h
    cases h
    simp only [Option.bind_some, Option.bind_eq_bind, Varint.readLong_append hlength,
      hlasts.list hfuel hparameters, hlasts.model hfuel hresult]
    rfl

/-- Entries are counted, so a reader of them knows when to stop. -/
theorem entries_succ (hlasts : Lasts fuel) (hfuel : fuel ≤ larger) {length : Nat}
    {entries : List (String × Model)}
    (h : readEntries (fuel + 1) length bytes = some (entries, rest)) (more : List UInt8) :
    readEntries (larger + 1) length (bytes ++ more) = some (entries, rest ++ more) := by
  cases length with
  | zero =>
    rw [readEntries] at h ⊢
    cases h
    rfl
  | succ length =>
    rw [readEntries] at h ⊢
    -- a key, its model and the others were read, and each of them reads on
    obtain ⟨⟨key, behind⟩, hkey, h⟩ := Option.bind_eq_some_iff.mp h
    obtain ⟨⟨m, after⟩, hm, h⟩ := Option.bind_eq_some_iff.mp h
    obtain ⟨⟨others, after'⟩, hothers, h⟩ := Option.bind_eq_some_iff.mp h
    cases h
    simp only [Option.bind_some, Option.bind_eq_bind, Text.ofBytes?_append hkey,
      hlasts.model hfuel hm, hlasts.entries hfuel hothers]
    rfl

/-- So are the models of a list. -/
theorem list_succ (hlasts : Lasts fuel) (hfuel : fuel ≤ larger) {length : Nat} {ms : List Model}
    (h : readList (fuel + 1) length bytes = some (ms, rest)) (more : List UInt8) :
    readList (larger + 1) length (bytes ++ more) = some (ms, rest ++ more) := by
  cases length with
  | zero =>
    rw [readList] at h ⊢
    cases h
    rfl
  | succ length =>
    rw [readList] at h ⊢
    -- the first model and the others were read, and each of them reads on
    obtain ⟨⟨m, after⟩, hm, h⟩ := Option.bind_eq_some_iff.mp h
    obtain ⟨⟨others, after'⟩, hothers, h⟩ := Option.bind_eq_some_iff.mp h
    cases h
    simp only [Option.bind_some, Option.bind_eq_bind, hlasts.model hfuel hm,
      hlasts.list hfuel hothers]
    rfl

end Lasts

/-- **What was found lasts.** Neither more fuel nor bytes that come later change it. -/
theorem lasts (fuel : Nat) : Lasts fuel := by
  induction fuel with
  | zero =>
    refine ⟨fun _ _ _ _ h _ => ?model, fun _ length bytes rest entries h more => ?entries,
      fun _ length bytes rest ms h more => ?list⟩
    case model => cases h
    -- without fuel only rows of no members are read
    case entries =>
      cases length with
      | zero =>
        rw [readEntries] at h ⊢
        cases h
        rfl
      | succ length => cases h
    case list =>
      cases length with
      | zero =>
        rw [readList] at h ⊢
        cases h
        rfl
      | succ length => cases h
  | succ fuel ih =>
    refine ⟨fun hfuel _ _ _ h => ?model, fun hfuel _ _ _ _ h => ?entries,
      fun hfuel _ _ _ _ h => ?list⟩
    case model =>
      obtain ⟨larger, rfl⟩ := Nat.exists_eq_add_one.mpr (Nat.zero_lt_of_lt hfuel)
      exact ih.model_succ (Nat.le_of_succ_le_succ hfuel) h
    case entries =>
      obtain ⟨larger, rfl⟩ := Nat.exists_eq_add_one.mpr (Nat.zero_lt_of_lt hfuel)
      exact ih.entries_succ (Nat.le_of_succ_le_succ hfuel) h
    case list =>
      obtain ⟨larger, rfl⟩ := Nat.exists_eq_add_one.mpr (Nat.zero_lt_of_lt hfuel)
      exact ih.list_succ (Nat.le_of_succ_le_succ hfuel) h

end Model

end CheckedExpr
