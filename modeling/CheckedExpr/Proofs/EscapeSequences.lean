import CheckedExpr.Proofs.Except
import CheckedExpr.Text.Escape
import Mathlib.Data.List.Forall2
import Mathlib.Data.List.TakeWhile

/-!
# Texts with escapes in them

A text between quotes is a row of pieces, of which each stands for one character: the character as
it is, or an escape of it. Where a piece ends is told by the piece itself. So what a text stands for
is put together from what its parts stand for, and a part that is faulty is faulty wherever it
stands.

* `IsEscape`, `WrittenAs`: the pieces that stand for a character, without a word on how they are
  read.
* `readEscape_eq_ok_iff`: what is read behind a backslash is an escape, and every escape is read,
  whatever stands behind it.
* `unescape_of_pieces`, `exists_pieces_of_unescape`: the texts that stand for a text are the rows of
  pieces of its characters.
* `unescape_compositional`: both together, and what follows for two texts in a row.
-/

namespace CheckedExpr.Text

/-! ### Pieces -/

/-- Whether hexadecimal digits spell the number of a character. -/
structure SpellsChar (digits : List Char) (c : Char) : Prop where
  hex : ∀ d ∈ digits, isHexDigit d = true
  value : hexValue digits = c.toNat

/-- The ways to write a character behind a backslash. -/
inductive IsEscape (c : Char) : List Char → Prop
  | letter {l : Char} (h : shortEscape? l = some c) : IsEscape c [l]
  /-- A character whose letter has no meaning of its own. -/
  | itself (hshort : shortEscape? c = none) (hx : c ≠ 'x') (hu : c ≠ 'u') : IsEscape c [c]
  | byte {digits : List Char} (h : SpellsChar digits c) (hlength : digits.length = 2) :
    IsEscape c ('x' :: digits)
  | unit {digits : List Char} (h : SpellsChar digits c) (hlength : digits.length = 4) :
    IsEscape c ('u' :: digits)
  /-- Zeros may stand before the other digits. -/
  | braced {digits : List Char} (h : SpellsChar digits c) (hsome : digits ≠ []) :
    IsEscape c ('u' :: '\x7b' :: (digits ++ ['\x7d']))

/-- The ways to write a character between quotes: as it is, unless it is a backslash, or as an
escape. -/
inductive WrittenAs (c : Char) : List Char → Prop
  | verbatim (h : c ≠ '\\') : WrittenAs c [c]
  | escaped {escape : List Char} (h : IsEscape c escape) : WrittenAs c ('\\' :: escape)

/-! ### Digits -/

/-- A number is that of a character at most once. -/
theorem charOfNat?_eq_some_iff {n : Nat} {c : Char} : charOfNat? n = some c ↔ n = c.toNat := by
  constructor
  · intro h
    obtain ⟨valid, hc⟩ := Option.dite_none_right_eq_some.mp h
    rw [← Option.some.inj hc]
    rfl
  · rintro rfl
    exact charOfNat?_toNat c

/-- Digits are decoded if there are as many as asked for and they spell a character. -/
theorem decodeDigits_eq_ok_iff {count : Nat} {digits : List Char} {c : Char} :
    decodeDigits count digits = .ok c ↔ digits.length = count ∧ SpellsChar digits c := by
  unfold decodeDigits
  -- the digits are checked first, and only then their value
  by_cases h : digits.length = count ∧ digits.all isHexDigit
  · obtain ⟨hlength, hhex⟩ := h
    have hhex' := List.all_eq_true.mp hhex
    rw [if_pos ⟨hlength, hhex⟩, and_iff_right hlength]
    constructor
    · intro hdecoded
      split at hdecoded
      next hchar =>
        cases hdecoded
        exact ⟨hhex', charOfNat?_eq_some_iff.mp hchar⟩
      next => cases hdecoded
    · intro hspells
      rw [charOfNat?_eq_some_iff.mpr hspells.value]
  · rw [if_neg h]
    refine iff_of_false (by simp) fun hspells => h ⟨hspells.1, ?_⟩
    exact List.all_eq_true.mpr hspells.2.hex

theorem SpellsChar.not_mem_of_not_hex {digits : List Char} {c d : Char} (h : SpellsChar digits c)
    (hd : isHexDigit d = false) : d ∉ digits :=
  fun hmem => by simp [h.hex d hmem] at hd

/-- Digits of a fixed number are taken from the front of what stands behind the letter. -/
theorem map_decodeDigits_eq_ok_iff {count : Nat} {rest after : List Char} {c : Char} :
    (decodeDigits count (rest.take count)).map (·, rest.drop count) = .ok (c, after) ↔
      ∃ digits, rest = digits ++ after ∧ digits.length = count ∧ SpellsChar digits c := by
  constructor
  · intro h
    cases hdecoded : decodeDigits count (rest.take count) with
    | error reason => rw [hdecoded] at h; cases h
    | ok d =>
      rw [hdecoded] at h
      cases h
      obtain ⟨hlength, hspells⟩ := decodeDigits_eq_ok_iff.mp hdecoded
      -- the digits that were taken, and the rest of the text behind them
      exact ⟨rest.take count, (List.take_append_drop count rest).symm, hlength, hspells⟩
  · rintro ⟨digits, rfl, rfl, hspells⟩
    rw [List.take_left, List.drop_left, decodeDigits_eq_ok_iff.mpr ⟨rfl, hspells⟩]
    rfl

/-! ### Escapes -/

/-- A letter with a meaning of its own stands for that character. -/
theorem readEscape_letter {c l : Char} (h : shortEscape? l = some c) (rest : List Char) :
    readEscape l rest = .ok (c, rest) := by
  unfold readEscape
  rw [h]

theorem readEscape_byte (rest : List Char) :
    readEscape 'x' rest = (decodeDigits 2 (rest.take 2)).map (·, rest.drop 2) := rfl

/-- Four digits follow a `u`, unless there is a brace. -/
theorem readEscape_unit {rest : List Char} (h : rest.head? ≠ some '\x7b') :
    readEscape 'u' rest = (decodeDigits 4 (rest.take 4)).map (·, rest.drop 4) := by
  cases rest with
  | nil => rfl
  | cons d ds =>
    have hd : d ≠ '\x7b' := fun heq => h (congrArg some heq)
    have hshort : shortEscape? 'u' = none := rfl
    unfold readEscape
    rw [hshort]
    split <;> simp_all

/-- **An escape is read whatever stands behind it.** -/
theorem readEscape_of_isEscape {c l : Char} {more : List Char} (h : IsEscape c (l :: more))
    (after : List Char) : readEscape l (more ++ after) = .ok (c, after) := by
  cases h with
  | letter h => exact readEscape_letter h after
  | itself hshort hx hu => exact readEscape_self hshort hx hu after
  | byte h hlength =>
    rw [readEscape_byte]
    exact map_decodeDigits_eq_ok_iff.mpr ⟨more, rfl, hlength, h⟩
  | unit h hlength =>
    -- a brace is no digit, so the digits are not taken for braced ones
    have hbrace := h.not_mem_of_not_hex (d := '\x7b') (by decide)
    have hhead : (more ++ after).head? ≠ some '\x7b' := by
      cases more with
      | nil => cases hlength
      | cons d ds => simpa using fun heq => hbrace (by simp [heq])
    rw [readEscape_unit hhead]
    exact map_decodeDigits_eq_ok_iff.mpr ⟨more, rfl, hlength, h⟩
  | @braced digits h hsome =>
    have hbrace := h.not_mem_of_not_hex (d := '\x7d') (by decide)
    have hcount : max digits.length 1 = digits.length :=
      Nat.max_eq_left (List.length_pos_iff.mpr hsome)
    rw [List.cons_append, List.append_assoc, List.singleton_append,
      readEscape_braced fun d hd heq => hbrace (heq ▸ hd), hcount,
      decodeDigits_eq_ok_iff.mpr ⟨rfl, h⟩]
    rfl

/-- What is read of braced digits is digits, a closing brace and what stands behind it. -/
theorem isEscape_of_readEscape_braced {c : Char} {braced after : List Char}
    (h : readEscape 'u' ('\x7b' :: braced) = .ok (c, after)) :
    ∃ more, '\x7b' :: braced = more ++ after ∧ IsEscape c ('u' :: more) := by
  have hsplit := List.takeWhile_append_dropWhile (p := (· ≠ '\x7d')) (l := braced)
  cases hbehind : braced.dropWhile (· ≠ '\x7d') with
  | nil =>
    have hnone : readEscape 'u' ('\x7b' :: braced) = .error .unterminatedBrace := by
      have hshort : shortEscape? 'u' = none := rfl
      simp only [readEscape, hshort, hbehind]
    rw [hnone] at h
    cases h
  | cons d behind =>
    -- the text splits at the first closing brace
    have hd : d = '\x7d' := by
      have hhead := List.head?_dropWhile_not (· ≠ '\x7d') braced
      rw [hbehind] at hhead
      simpa using hhead
    obtain ⟨digits, hdigits⟩ : ∃ digits, digits = braced.takeWhile (· ≠ '\x7d') := ⟨_, rfl⟩
    have hinside : ∀ d ∈ digits, d ≠ '\x7d' := by
      intro d hmem
      rw [hdigits] at hmem
      simpa using List.mem_takeWhile_imp hmem
    rw [← hdigits, hbehind, hd] at hsplit
    rw [← hsplit] at h ⊢
    rw [readEscape_braced hinside] at h
    cases hdecoded : decodeDigits (max digits.length 1) digits with
    | error reason => rw [hdecoded] at h; cases h
    | ok d =>
      rw [hdecoded] at h
      cases h
      obtain ⟨hlength, hspells⟩ := decodeDigits_eq_ok_iff.mp hdecoded
      refine ⟨'\x7b' :: (digits ++ ['\x7d']), by simp, .braced hspells ?_⟩
      rintro rfl
      cases hlength

/-- **What is read behind a backslash is an escape.** -/
theorem isEscape_of_readEscape {c l : Char} {rest after : List Char}
    (h : readEscape l rest = .ok (c, after)) :
    ∃ more, rest = more ++ after ∧ IsEscape c (l :: more) := by
  -- the letter decides which way of writing it is, the two with digits being tried last
  cases hshort : shortEscape? l with
  | some d =>
    rw [readEscape_letter hshort] at h
    cases h
    exact ⟨[], rfl, .letter hshort⟩
  | none =>
    by_cases hx : l = 'x'
    · subst hx
      rw [readEscape_byte] at h
      obtain ⟨digits, hrest, hlength, hspells⟩ := map_decodeDigits_eq_ok_iff.mp h
      exact ⟨digits, hrest, .byte hspells hlength⟩
    by_cases hu : l = 'u'
    · subst hu
      by_cases hhead : rest.head? = some '\x7b'
      · obtain ⟨braced, rfl⟩ := List.head?_eq_some_iff.mp hhead
        exact isEscape_of_readEscape_braced h
      · rw [readEscape_unit hhead] at h
        obtain ⟨digits, hrest, hlength, hspells⟩ := map_decodeDigits_eq_ok_iff.mp h
        exact ⟨digits, hrest, .unit hspells hlength⟩
    · rw [readEscape_self hshort hx hu] at h
      cases h
      exact ⟨[], rfl, .itself hshort hx hu⟩

/-- **Reading behind a backslash and the ways to write a character agree.** -/
theorem readEscape_eq_ok_iff {c l : Char} {rest after : List Char} :
    readEscape l rest = .ok (c, after) ↔ ∃ more, rest = more ++ after ∧ IsEscape c (l :: more) := by
  refine ⟨isEscape_of_readEscape, ?_⟩
  rintro ⟨more, rfl, h⟩
  exact readEscape_of_isEscape h after

theorem IsEscape.ne_nil {c : Char} {escape : List Char} (h : IsEscape c escape) : escape ≠ [] := by
  cases h <;> simp

/-! ### Rows of pieces -/

/-- A piece stands for its character, and what is behind it is read on its own. -/
theorem WrittenAs.unescape_append {c : Char} {piece : List Char} (h : WrittenAs c piece)
    (rest : List Char) : unescape (piece ++ rest) = (unescape rest).map (c :: ·) := by
  cases h with
  | verbatim h => exact unescape_cons_of_ne h rest
  | @escaped escape h =>
    cases escape with
    | nil => exact absurd rfl h.ne_nil
    | cons l more =>
      rw [List.cons_append, List.cons_append, unescape_escape, readEscape_of_isEscape h]

/-- A row of pieces is read as its characters, whatever stands behind it. -/
theorem unescape_flatten_append {s : List Char} {pieces : List (List Char)}
    (h : List.Forall₂ WrittenAs s pieces) (rest : List Char) :
    unescape (pieces.flatten ++ rest) = (unescape rest).map (s ++ ·) := by
  -- along the pieces; the rest stays behind all of them
  induction h with
  | nil => cases hrest : unescape rest <;> simp [hrest, Except.map]
  | cons hpiece _ ih =>
    rw [List.flatten_cons, List.append_assoc, hpiece.unescape_append, ih]
    cases unescape rest <;> rfl

/-- A text that stands for one is a row of pieces. -/
theorem exists_pieces_of_unescape {text s : List Char} (h : unescape text = .ok s) :
    ∃ pieces, text = pieces.flatten ∧ List.Forall₂ WrittenAs s pieces := by
  -- the recursion of `unescape` takes off one piece after the other
  fun_induction unescape text generalizing s with
  | case1 =>
    cases h
    exact ⟨[], rfl, .nil⟩
  | case2 => cases h
  | case3 => cases h
  | case4 l rest c after hread ih =>
    obtain ⟨s, hafter, rfl⟩ := Except.map_eq_ok_iff.mp h
    obtain ⟨more, rfl, hescape⟩ := readEscape_eq_ok_iff.mp hread
    obtain ⟨pieces, rfl, hpieces⟩ := ih hafter
    exact ⟨('\\' :: l :: more) :: pieces, rfl, .cons (.escaped hescape) hpieces⟩
  | case5 c rest hlast hpair ih =>
    obtain ⟨s, hrest, rfl⟩ := Except.map_eq_ok_iff.mp h
    obtain ⟨pieces, rfl, hpieces⟩ := ih hrest
    have hplain : c ≠ '\\' := by
      intro hslash
      cases hpieces' : pieces.flatten with
      | nil => exact hlast hslash hpieces'
      | cons d ds => exact hpair d ds hslash hpieces'
    exact ⟨[c] :: pieces, rfl, .cons (.verbatim hplain) hpieces⟩

/-- A row of pieces stands for the text of its characters. -/
theorem unescape_of_pieces {s : List Char} {pieces : List (List Char)}
    (h : List.Forall₂ WrittenAs s pieces) : unescape pieces.flatten = .ok s := by
  have hrow := unescape_flatten_append h []
  rw [List.append_nil, unescape_nil] at hrow
  rw [hrow]
  exact congrArg Except.ok (List.append_nil s)

/-- **Escapes are read piece by piece.** If a text stands for something, then what stands behind it
is read as it is on its own, whether it stands for something or is faulty. And a text stands for
another one exactly if it is a row of pieces of its characters, with any choice among the ways to
write each of them. -/
theorem unescape_compositional :
    (∀ before after x : List Char, unescape before = .ok x →
      (∀ y, unescape after = .ok y → unescape (before ++ after) = .ok (x ++ y)) ∧
      ∀ reason, unescape after = .error reason → unescape (before ++ after) = .error reason) ∧
    (∀ (s : List Char) (pieces : List (List Char)), List.Forall₂ WrittenAs s pieces →
      unescape pieces.flatten = .ok s) ∧
    ∀ text s : List Char, unescape text = .ok s →
      ∃ pieces, text = pieces.flatten ∧ List.Forall₂ WrittenAs s pieces := by
  refine ⟨?append, ?written, ?read⟩
  case append =>
    intro before after x h
    -- the first text is a row of pieces, and those end where they end
    obtain ⟨pieces, rfl, hpieces⟩ := exists_pieces_of_unescape h
    have hafter := unescape_flatten_append hpieces after
    constructor
    · intro y hy
      rw [hafter, hy]
      rfl
    · intro reason hreason
      rw [hafter, hreason]
      rfl
  case written => exact fun s pieces => unescape_of_pieces
  case read => exact fun text s => exists_pieces_of_unescape

/-- Characters and escapes of all kinds, with zeros before the digits in braces. What stands behind
them ends inside an escape, or does not. -/
theorem unescape_compositional_mixed :
    let s := ['é', '\n', 'A', '€', '😀', 'q']
    let pieces := [['é'], ['\\', 'n'], ['\\', 'x', '4', '1'], ['\\', 'u', '2', '0', 'a', 'C'],
      ['\\', 'u', '\x7b', '0', '0', '0', '1', 'F', '6', '0', '0', '\x7d'], ['\\', 'q']]
    let unclosed := ['ü', '\\', 'u', '\x7b', '4', '1']
    List.Forall₂ WrittenAs s pieces ∧ unescape pieces.flatten = .ok s ∧
      unescape (pieces.flatten ++ ['ü', '\\', 'v']) = .ok (s ++ ['ü', '\x0b']) ∧
      unescape (pieces.flatten ++ unclosed) = .error .unterminatedBrace := by
  intro s pieces unclosed
  obtain ⟨hconcat, hwritten, -⟩ := unescape_compositional
  -- a character beyond sixteen bits, with zeros in front of its digits
  have hface : SpellsChar ['0', '0', '0', '1', 'F', '6', '0', '0'] '😀' :=
    ⟨List.all_eq_true.mp rfl, by decide⟩
  have hpieces : List.Forall₂ WrittenAs s pieces :=
    .cons (.verbatim (by decide)) <|
    .cons (.escaped (.letter rfl)) <|
    .cons (.escaped (.byte ⟨List.all_eq_true.mp rfl, by decide⟩ rfl)) <|
    .cons (.escaped (.unit ⟨List.all_eq_true.mp rfl, by decide⟩ rfl)) <|
    .cons (.escaped (.braced hface (by decide))) <|
    .cons (.escaped (.itself rfl (by decide) (by decide))) .nil
  have hread : unescape pieces.flatten = .ok s := hwritten s pieces hpieces
  refine ⟨hpieces, hread, ?_, ?_⟩
  · exact (hconcat _ ['ü', '\\', 'v'] s hread).1 ['ü', '\x0b'] (by decide +kernel)
  · exact (hconcat _ unclosed s hread).2 .unterminatedBrace (by decide +kernel)

end CheckedExpr.Text
