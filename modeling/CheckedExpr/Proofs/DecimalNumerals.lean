import CheckedExpr.Value.Conversion
import Mathlib.Data.List.TakeWhile

/-!
# Which texts are numerals

A decimal numeral is read in three parts, each of which takes as many digits as there are, and what
comes out was read without losing a character. Here is what may be in the parts (`Decimal.Spelled`),
and that nothing else is asked: a text is read as a numeral, to its end, exactly if it is one that
is spelled in its parts (`Decimal.ofText?_eq_some_iff`). At the front of a longer text numerals of
both notations are read as far as they go: what is read is spelled, and no numeral that stands there
is longer (`Numeral.spelled_of_read`, `Numeral.length_le_of_read`).
-/

namespace CheckedExpr

/-- A row of decimal digits. -/
def IsDigits (text : List Char) : Prop := ∀ c ∈ text, isDigit c = true

/-- A text that begins with no digit. -/
def NoDigitFirst (text : List Char) : Prop := ∀ c ∈ text.head?, isDigit c = false

/-- The digits at the front of a text are taken off it as a whole. -/
theorem takeWhile_isDigit_append {digits rest : List Char} (hdigits : IsDigits digits)
    (hrest : NoDigitFirst rest) :
    (digits ++ rest).takeWhile isDigit = digits := by
  rw [List.takeWhile_append_of_pos hdigits]
  cases rest with
  | nil => simp
  | cons c cs => simp [hrest c rfl]

/-- What is left of the text begins behind the digits. -/
theorem dropWhile_isDigit_append {digits rest : List Char} (hdigits : IsDigits digits)
    (hrest : NoDigitFirst rest) :
    (digits ++ rest).dropWhile isDigit = rest := by
  rw [List.dropWhile_append_of_pos hdigits]
  cases rest with
  | nil => simp
  | cons c cs => simp [hrest c rfl]

/-- An exponent in the characters that belong into it. -/
structure Exponent.Spelled (e : Exponent) : Prop where
  marker : e.marker = 'e' ∨ e.marker = 'E'
  sign : e.sign = none ∨ e.sign = some '+' ∨ e.sign = some '-'
  digits : IsDigits e.digits
  ne_nil : e.digits ≠ []

/-- A decimal numeral in the characters that belong into it: one digit or more, perhaps with a point
and digits behind it; or a point and one digit or more; and perhaps an exponent. -/
structure Decimal.Spelled (d : Decimal) : Prop extends d.WellFormed where
  whole : IsDigits d.whole
  fraction : ∀ digits ∈ d.fraction, IsDigits digits
  spelled_exponent : ∀ e ∈ d.exponent, e.Spelled

theorem isDigits_takeWhile (text : List Char) : IsDigits (text.takeWhile isDigit) :=
  fun _ hc => List.mem_takeWhile_imp hc

/-! ### What is read is spelled -/

/-- An exponent is read only if its letter fits and it has a digit, and then it is spelled. -/
theorem Exponent.spelled_of_read {text : List Char} {e : Exponent}
    (h : (Exponent.read text).1 = some e) : e.Spelled := by
  cases text with
  | nil => simp [Exponent.read] at h
  | cons c cs =>
    simp only [Exponent.read] at h
    split at h
    next hgood =>
      obtain rfl := Option.some.inj h
      -- it was read because it is well formed
      refine ⟨hgood.1, ?_, isDigits_takeWhile _, hgood.2⟩
      unfold Exponent.readSign
      split <;> simp
    next => cases h

/-- Behind a point there are digits, possibly none. -/
theorem Decimal.isDigits_of_readFraction {text digits : List Char}
    (h : (Decimal.readFraction text).1 = some digits) : IsDigits digits := by
  unfold Decimal.readFraction at h
  split at h
  · obtain rfl := Option.some.inj h
    exact isDigits_takeWhile _
  · cases h

/-- A decimal numeral that is read is spelled in all its parts. -/
theorem Decimal.spelled_of_read {text rest : List Char} {d : Decimal}
    (h : Decimal.read text = some (d, rest)) : d.Spelled := by
  have hwell := Decimal.wellFormed_of_read h
  simp only [Decimal.read] at h
  split at h
  next => cases h
  next =>
    simp only [Option.some.injEq, Prod.mk.injEq] at h
    obtain ⟨rfl, -⟩ := h
    exact ⟨hwell, isDigits_takeWhile _, fun _ => Decimal.isDigits_of_readFraction,
      fun _ => Exponent.spelled_of_read⟩

/-! ### What is spelled is read -/

variable {rest : List Char}

/-- An exponent begins with its letter, so it ends the digits before it and is no fraction. -/
theorem Exponent.Spelled.noDigitFirst_text {e : Exponent} (h : e.Spelled) :
    ∀ c ∈ e.text.head?, isDigit c = false ∧ c ≠ '.' := by
  rintro c ⟨⟩
  rcases h.marker with hmarker | hmarker <;> rw [hmarker] <;> decide

/-- A sign is read in front of digits, whatever follows these. -/
theorem Exponent.readSign_append {sign : Option Char} {digits : List Char} (behind : List Char)
    (hsign : sign = none ∨ sign = some '+' ∨ sign = some '-') (hdigits : IsDigits digits)
    (hne : digits ≠ []) :
    Exponent.readSign (sign.toList ++ (digits ++ behind)) = (sign, digits ++ behind) := by
  rcases hsign with rfl | rfl | rfl
  · obtain ⟨c, cs, rfl⟩ := List.exists_cons_of_ne_nil hne
    -- the first digit is no sign, so none is read
    have hc : isDigit c = true := hdigits c List.mem_cons_self
    have hplus : c ≠ '+' := by rintro rfl; exact absurd hc (by decide)
    have hminus : c ≠ '-' := by rintro rfl; exact absurd hc (by decide)
    simp [Exponent.readSign, hplus, hminus]
  · rfl
  · rfl

/-- An exponent that is spelled is read with the further digits that stand behind it. -/
theorem Exponent.Spelled.read_append {e : Exponent} (h : e.Spelled) (behind : List Char) :
    Exponent.read (e.text ++ behind) =
      (some { e with digits := e.digits ++ behind.takeWhile isDigit },
        behind.dropWhile isDigit) := by
  have hsign := Exponent.readSign_append behind h.sign h.digits h.ne_nil
  have hne : e.digits ++ behind.takeWhile isDigit ≠ [] :=
    fun hnil => h.ne_nil (List.append_eq_nil_iff.mp hnil).1
  simp only [Exponent.text, List.cons_append, List.append_assoc, Exponent.read, hsign,
    List.takeWhile_append_of_pos h.digits, List.dropWhile_append_of_pos h.digits]
  rw [if_pos ⟨h.marker, hne⟩]

theorem Exponent.Spelled.read_text {e : Exponent} (h : e.Spelled) :
    Exponent.read e.text = (some e, []) := by
  simpa using h.read_append []

/-- A fraction is read up to what neither goes on with its digits nor is another point. -/
theorem Decimal.readFraction_append {fraction : Option (List Char)}
    (hfraction : ∀ digits ∈ fraction, IsDigits digits)
    (hrest : ∀ c ∈ rest.head?, isDigit c = false ∧ c ≠ '.') :
    Decimal.readFraction ((fraction.map ('.' :: ·)).getD [] ++ rest) = (fraction, rest) := by
  have hnoDigit : NoDigitFirst rest := fun c hc => (hrest c hc).1
  -- without a fraction there must be no point behind, or it would be taken for one
  cases fraction with
  | none =>
    cases rest with
    | nil => rfl
    | cons c cs =>
      have hpoint : c ≠ '.' := (hrest c rfl).2
      simp [Decimal.readFraction, hpoint]
  | some digits =>
    have hdigits := hfraction digits rfl
    simp only [Option.map_some, Option.getD_some, List.cons_append, Decimal.readFraction,
      takeWhile_isDigit_append hdigits hnoDigit, dropWhile_isDigit_append hdigits hnoDigit]

/-- A decimal numeral is read from its own text: no part takes what belongs to the next one. -/
theorem Decimal.Spelled.read_text {d : Decimal} (h : d.Spelled) :
    Decimal.read d.text = some (d, []) := by
  obtain ⟨whole, fraction, exponent⟩ := d
  -- the parts are read from left to right, and each must be seen to end where it ends
  have hexponent : Exponent.read ((exponent.map Exponent.text).getD []) = (exponent, []) := by
    cases exponent with
    | none => rfl
    | some e => exact (h.spelled_exponent e rfl).read_text
  have hrest : ∀ c ∈ ((exponent.map Exponent.text).getD []).head?, isDigit c = false ∧ c ≠ '.' := by
    cases exponent with
    | none => simp
    | some e => exact (h.spelled_exponent e rfl).noDigitFirst_text
  have hbehind : NoDigitFirst
      ((fraction.map ('.' :: ·)).getD [] ++ (exponent.map Exponent.text).getD []) := by
    cases fraction with
    | none => exact fun c hc => (hrest c hc).1
    | some digits => rintro c ⟨⟩; decide
  have hdigits : ¬(whole = [] ∧ fraction.getD [] = []) := by
    rintro ⟨hwhole, hfraction⟩
    exact h.toWellFormed.digits.elim (absurd hwhole) (absurd hfraction)
  simp only [Decimal.read, Decimal.text, takeWhile_isDigit_append h.whole hbehind,
    dropWhile_isDigit_append h.whole hbehind, Decimal.readFraction_append h.fraction hrest,
    hdigits, hexponent, if_false]

/-- **A text is a decimal numeral exactly if it is spelled as one.** -/
theorem Decimal.ofText?_eq_some_iff {text : List Char} {d : Decimal} :
    Decimal.ofText? text = some d ↔ d.Spelled ∧ d.text = text := by
  unfold Decimal.ofText?
  constructor
  · intro h
    split at h
    next d' hread =>
      obtain rfl := Option.some.inj h
      exact ⟨Decimal.spelled_of_read hread, by simpa using (Decimal.append_of_read hread).symm⟩
    next => cases h
  · rintro ⟨hspelled, rfl⟩
    rw [hspelled.read_text]

/-- A numeral has a digit at least. -/
theorem Decimal.Spelled.text_ne_nil {d : Decimal} (h : d.Spelled) : d.text ≠ [] := by
  intro hnil
  have hof : Decimal.ofText? [] = some d := Decimal.ofText?_eq_some_iff.mpr ⟨h, hnil⟩
  cases hof

/-- The parts of a decimal numeral can be told from its text. -/
theorem Decimal.Spelled.eq_of_text_eq {d d' : Decimal} (h : d.Spelled) (h' : d'.Spelled)
    (htext : d.text = d'.text) : d = d' := by
  have hof : Decimal.ofText? d'.text = some d := Decimal.ofText?_eq_some_iff.mpr ⟨h, htext⟩
  have hof' : Decimal.ofText? d'.text = some d' := Decimal.ofText?_eq_some_iff.mpr ⟨h', rfl⟩
  exact Option.some.inj (hof.symm.trans hof')

/-! ### The characters of decimal numerals -/

namespace Number

theorem isNumeralChar_of_isDigit {c : Char} (h : isDigit c = true) : isNumeralChar c = true := by
  simp [isNumeralChar, h]

theorem isNumeralChar_of_mem_exponent {e : Exponent} (h : e.Spelled) :
    ∀ c ∈ e.text, isNumeralChar c = true := by
  refine List.forall_mem_cons.mpr ⟨?_, List.forall_mem_append.mpr ⟨?_, ?_⟩⟩
  · rcases h.marker with hmarker | hmarker <;> rw [hmarker] <;> decide
  · rcases h.sign with hsign | hsign | hsign <;> rw [hsign] <;> simp [isNumeralChar]
  · exact fun c hc => isNumeralChar_of_isDigit (h.digits c hc)

/-- The characters that decimal numerals are checked for are theirs. -/
theorem isNumeralChar_of_mem {d : Decimal} (h : d.Spelled) :
    ∀ c ∈ d.text, isNumeralChar c = true := by
  obtain ⟨whole, fraction, exponent⟩ := d
  -- digits, a point with digits, and an exponent
  refine List.forall_mem_append.mpr ⟨?_, List.forall_mem_append.mpr ⟨?_, ?_⟩⟩
  · exact fun c hc => isNumeralChar_of_isDigit (h.whole c hc)
  · cases fraction with
    | none => simp
    | some digits =>
      refine List.forall_mem_cons.mpr ⟨by decide, fun c hc => ?_⟩
      exact isNumeralChar_of_isDigit (h.fraction digits rfl c hc)
  · cases exponent with
    | none => simp
    | some e => exact isNumeralChar_of_mem_exponent (h.spelled_exponent e rfl)

/-- The letter behind the zero before hexadecimal digits. -/
def IsHexMarker (c : Char) : Prop := c = 'x' ∨ c = 'X'

instance : DecidablePred IsHexMarker := fun _ => inferInstanceAs (Decidable (_ ∨ _))

theorem IsHexMarker.notMem_text {c : Char} (hc : IsHexMarker c) {d : Decimal} (h : d.Spelled) :
    c ∉ d.text := by
  intro hmem
  have hchar := isNumeralChar_of_mem h c hmem
  rcases hc with rfl | rfl <;> exact absurd hchar (by decide)

end Number

/-! ### What is read is as long as can be -/

/-- **Where a decimal numeral is spelled, at least this much is read**, whatever stands behind it. -/
theorem Decimal.Spelled.exists_read_append {d : Decimal} (h : d.Spelled) (behind : List Char) :
    ∃ longer rest, Decimal.read (d.text ++ behind) = some (longer, rest) ∧
      d.text.length ≤ longer.text.length := by
  obtain ⟨whole, fraction, exponent⟩ := d
  have hwhole : IsDigits whole := h.whole
  have hsome : ¬(whole = [] ∧ fraction.getD [] = []) := by
    rintro ⟨hnil, hnil'⟩
    exact h.toWellFormed.digits.elim (absurd hnil) (absurd hnil')
  -- only the last part goes on behind the numeral, and the parts before it are read as they are
  cases exponent with
  | some e =>
    have he : e.Spelled := h.spelled_exponent e rfl
    have hrest : ∀ c ∈ (e.text ++ behind).head?, isDigit c = false ∧ c ≠ '.' :=
      he.noDigitFirst_text
    have hfraction := Decimal.readFraction_append h.fraction hrest
    have hbehind : NoDigitFirst ((fraction.map ('.' :: ·)).getD [] ++ (e.text ++ behind)) := by
      cases fraction with
      | none => exact fun c hc => (hrest c hc).1
      | some digits => rintro c ⟨⟩; rfl
    have hread : Decimal.read (Decimal.text ⟨whole, fraction, some e⟩ ++ behind) =
        some (⟨whole, fraction, some { e with digits := e.digits ++ behind.takeWhile isDigit }⟩,
          behind.dropWhile isDigit) := by
      simp only [Decimal.read, Decimal.text, Option.map_some, Option.getD_some, List.append_assoc,
        takeWhile_isDigit_append hwhole hbehind, dropWhile_isDigit_append hwhole hbehind,
        hfraction, if_neg hsome, he.read_append]
    refine ⟨_, _, hread, ?_⟩
    simp only [Decimal.text, Exponent.text, Option.map_some, Option.getD_some, List.length_append,
      List.length_cons]
    omega
  | none =>
    cases fraction with
    | some digits =>
      have hdigits : IsDigits digits := h.fraction digits rfl
      have hbehind : NoDigitFirst ('.' :: (digits ++ behind)) := by rintro c ⟨⟩; rfl
      have hsome' : ¬(whole = [] ∧ digits ++ behind.takeWhile isDigit = []) :=
        fun hnil => hsome ⟨hnil.1, (List.append_eq_nil_iff.mp hnil.2).1⟩
      simp only [Decimal.read, Decimal.text, Option.map_some, Option.map_none, Option.getD_some,
        Option.getD_none, List.append_nil, List.append_assoc, List.cons_append,
        takeWhile_isDigit_append hwhole hbehind, dropWhile_isDigit_append hwhole hbehind,
        Decimal.readFraction, List.takeWhile_append_of_pos hdigits, if_neg hsome']
      refine ⟨_, _, rfl, ?_⟩
      simp only [Option.map_some, Option.getD_some, List.length_append, List.length_cons]
      omega
    | none =>
      have hsome' : ¬(whole ++ behind.takeWhile isDigit = [] ∧
          (Decimal.readFraction (behind.dropWhile isDigit)).1.getD [] = []) :=
        fun hnil => hsome ⟨(List.append_eq_nil_iff.mp hnil.1).1, rfl⟩
      simp only [Decimal.read, Decimal.text, Option.map_none, Option.getD_none, List.append_nil,
        List.takeWhile_append_of_pos hwhole, List.dropWhile_append_of_pos hwhole, if_neg hsome']
      refine ⟨_, _, rfl, ?_⟩
      simp only [List.length_append]
      omega

namespace Numeral

open Number

/-- A numeral in the characters that belong into it. -/
inductive Spelled : Numeral → Prop
  | decimal {d : Decimal} : d.Spelled → Spelled (.decimal d)
  | hex {marker : Char} {digits : List Char} : IsHexMarker marker → digits ≠ [] →
    digits.all Text.isHexDigit = true → Spelled (.hex marker digits)

variable {n n' : Numeral} {text rest : List Char}

/-- A numeral of either notation has a character at least. -/
theorem Spelled.text_ne_nil (h : n.Spelled) : n.text ≠ [] := by
  cases h with
  | decimal h => exact h.text_ne_nil
  | hex => exact List.cons_ne_nil _ _

/-- A numeral can be told from its text. -/
theorem Spelled.eq_of_text_eq (h : n.Spelled) (h' : n'.Spelled) (htext : n.text = n'.text) :
    n = n' := by
  -- the two are of one notation, as only hexadecimal ones have the letter
  cases h with
  | decimal h =>
    cases h' with
    | decimal h' => rw [h.eq_of_text_eq h' htext]
    | hex hmarker =>
      refine absurd ?_ (hmarker.notMem_text h)
      change _ = '0' :: _ :: _ at htext
      simp [show Decimal.text _ = _ from htext]
  | hex hmarker =>
    cases h' with
    | decimal h' =>
      refine absurd ?_ (hmarker.notMem_text h')
      simp [show Decimal.text _ = _ from htext.symm, Numeral.text]
    | hex =>
      obtain ⟨-, hdigits⟩ := List.cons_eq_cons.mp htext
      obtain ⟨rfl, rfl⟩ := List.cons_eq_cons.mp hdigits
      rfl

/-- What is read as hexadecimal has the letter, and a digit at least behind it. -/
theorem exists_hex_of_readHex (h : readHex text = some (n, rest)) :
    ∃ marker digits, n = .hex marker digits ∧ n.Spelled := by
  unfold readHex at h
  split at h
  next marker digits =>
    simp only at h
    split at h
    -- a marker was there, and a digit behind it
    next hgood =>
      cases h
      exact ⟨_, _, rfl, .hex hgood.1 hgood.2
        (List.all_eq_true.mpr fun _ hc => List.mem_takeWhile_imp hc)⟩
    next => cases h
  next => cases h

/-- A numeral that is read is spelled in its notation. -/
theorem spelled_of_read (h : read text = some (n, rest)) : n.Spelled := by
  unfold read at h
  split at h
  next found hhex =>
    cases h
    obtain ⟨_, _, -, hspelled⟩ := exists_hex_of_readHex hhex
    exact hspelled
  next =>
    obtain ⟨⟨d, behind⟩, hd, hn⟩ := Option.map_eq_some_iff.mp h
    cases hn
    exact .decimal (Decimal.spelled_of_read hd)

/-- **No numeral at the front of a text is longer than the one that is read.** -/
theorem length_le_of_read (h : read text = some (n, rest)) (hspelled : n'.Spelled)
    (hfront : n'.text <+: text) : n'.text.length ≤ n.text.length := by
  obtain ⟨behind, rfl⟩ := hfront
  -- a shorter numeral of the other notation stands there too: the zero before the letter
  cases hspelled with
  | @decimal d hd =>
    unfold read at h
    split at h
    next found hhex =>
      cases h
      obtain ⟨marker, digits, rfl, hn⟩ := exists_hex_of_readHex hhex
      have htext := append_of_readHex hhex
      -- the second character is the letter, so the decimal numeral ends before it
      have hone : d.text.length ≤ 1 := by
        by_contra hmore
        obtain ⟨c, cs, hcons⟩ := List.exists_cons_of_ne_nil hd.text_ne_nil
        cases cs with
        | nil => simp [hcons] at hmore
        | cons c' cs =>
          cases hn with
          | hex hmarker =>
            refine hmarker.notMem_text hd ?_
            change d.text ++ behind = '0' :: marker :: (digits ++ rest) at htext
            rw [hcons, List.cons_append, List.cons_append] at htext
            obtain ⟨-, htext⟩ := List.cons_eq_cons.mp htext
            obtain ⟨rfl, -⟩ := List.cons_eq_cons.mp htext
            simp [hcons]
      exact Nat.le_trans hone (Nat.succ_le_succ (Nat.zero_le _))
    next =>
      obtain ⟨longer, rest', hread, hle⟩ := hd.exists_read_append behind
      rw [show (decimal d).text = d.text from rfl, hread] at h
      cases h
      exact hle
  | @hex marker digits hmarker hne hdigits =>
    have htake : (digits ++ behind).takeWhile Text.isHexDigit =
        digits ++ behind.takeWhile Text.isHexDigit :=
      List.takeWhile_append_of_pos (List.all_eq_true.mp hdigits)
    have hsome : digits ++ behind.takeWhile Text.isHexDigit ≠ [] :=
      fun hnil => hne (List.append_eq_nil_iff.mp hnil).1
    have hread : readHex ((hex marker digits).text ++ behind) =
        some (.hex marker (digits ++ behind.takeWhile Text.isHexDigit),
          (digits ++ behind).dropWhile Text.isHexDigit) := by
      simp only [Numeral.text, List.cons_append, readHex, htake]
      rw [if_pos ⟨hmarker, hsome⟩]
    unfold read at h
    rw [hread] at h
    cases h
    simp only [Numeral.text, List.length_cons, List.length_append]
    omega

end Numeral

end CheckedExpr
