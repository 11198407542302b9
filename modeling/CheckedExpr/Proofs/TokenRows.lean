import CheckedExpr.Proofs.SpacedText

/-!
# Rows of what is spelled with tokens

Items may be spelled with any number of tokens each. If each item is read where it stands in front
of what may follow it, so is a row of them, one behind the other or with commas between them.

* `Scan.readsTokens_many`: a row of items, as long as no further one can be read behind the last.
* `Scan.readsTokens_commas`: a row with commas, as long as no comma stands behind it.
-/

namespace CheckedExpr

open Scan

variable {p q : Char → Prop} {tokens more left : List String} {text : List Char}

/-- Whether there are some tokens, of which the first one begins with a character that is no gap and
has a property. -/
def StartsWith (p : Char → Prop) (tokens : List String) : Prop :=
  ∃ token more c cs, tokens = token :: more ∧ token.toList = c :: cs ∧ isGap c = false ∧ p c

theorem startsWith_cons {token : String} {c : Char} {cs : List Char} (h : token.toList = c :: cs)
    (hgap : isGap c = false) (hc : p c) : StartsWith p (token :: tokens) :=
  ⟨token, tokens, c, cs, rfl, h, hgap, hc⟩

/-- What starts with a token begins with it whatever stands behind. -/
theorem StartsWith.beginsWith_append (h : StartsWith p tokens) (left : List String) :
    BeginsWith p (tokens ++ left) := by
  obtain ⟨token, more, c, cs, rfl, htoken, hgap, hc⟩ := h
  exact beginsWith_cons htoken hgap hc

@[simp] theorem tokenLength_append (tokens more : List String) :
    tokenLength (tokens ++ more) = tokenLength tokens + tokenLength more := by
  induction tokens with
  | nil => exact (Nat.zero_add _).symm
  | cons token tokens ih =>
    rw [List.cons_append, tokenLength_cons, tokenLength_cons, ih, Nat.add_assoc]

/-- A first token has a character at least. -/
theorem StartsWith.tokenLength_pos (h : StartsWith p tokens) : 0 < tokenLength tokens := by
  obtain ⟨token, more, c, cs, rfl, htoken, -⟩ := h
  rw [tokenLength_cons, htoken, List.length_cons]
  omega

/-- Tokens with given gaps, one before each of them and one behind the last. -/
theorem spaced_of_gaps (gapped : List (String × String)) (last : String)
    (h : ∀ pair ∈ gapped, pair.1.toList.all isGap = true) (hlast : last.toList.all isGap = true) :
    Spaced (gapped.map Prod.snd)
      (gapped.flatMap (fun pair => pair.1.toList ++ pair.2.toList) ++ last.toList) := by
  induction gapped with
  | nil => exact .nil (List.all_eq_true.mp hlast)
  | cons pair gapped ih =>
    obtain ⟨hpair, hgapped⟩ := List.forall_mem_cons.mp h
    rw [List.map_cons, List.flatMap_cons, List.append_assoc, List.append_assoc]
    exact .cons (List.all_eq_true.mp hpair) (ih hgapped)

/-- Tokens without gaps. -/
theorem spaced_flatMap (tokens : List String) : Spaced tokens (tokens.flatMap String.toList) := by
  -- each token is given an empty gap before it
  have hspaced := spaced_of_gaps (tokens.map ("", ·)) ""
    (List.forall_mem_map.mpr fun _ _ => rfl) rfl
  simpa [List.flatMap_map, Function.comp_def] using hspaced

/-- Tokens that are left out make a row no longer. -/
theorem tokenLength_le_of_sublist (h : List.Sublist tokens more) :
    tokenLength tokens ≤ tokenLength more := by
  induction h with
  | slnil => exact Nat.le_refl _
  | cons token _ ih =>
    rw [tokenLength_cons]
    omega
  | cons_cons token _ ih =>
    rw [tokenLength_cons, tokenLength_cons]
    omega

section Commas

variable {γ : Type} {spell : γ → List String} {x : γ} {xs : List γ}

/-- Behind the first item, each one has its comma before it. -/
theorem intercalate_comma_cons (x : γ) (xs : List γ) :
    [","].intercalate ((x :: xs).map spell) = spell x ++ xs.flatMap fun y => "," :: spell y := by
  induction xs generalizing x with
  | nil => simp
  | cons y xs ih =>
    have hmore := ih y
    rw [List.map_cons] at hmore
    rw [List.map_cons, List.map_cons, List.intercalate_cons_cons, hmore, List.flatMap_cons,
      List.append_assoc]
    rfl

/-- No item of a row is longer than the row. -/
theorem tokenLength_le_intercalate (spell : γ → List String) (h : x ∈ xs) :
    tokenLength (spell x) ≤ tokenLength ([","].intercalate (xs.map spell)) := by
  cases xs with
  | nil => cases h
  | cons y ys =>
    rw [intercalate_comma_cons]
    rcases List.mem_cons.mp h with rfl | h
    · exact tokenLength_le_of_sublist (List.sublist_append_left _ _)
    · -- behind the first item, each one stands in the row with its comma
      have hmem : ("," :: spell x) ∈ ys.map fun y => "," :: spell y :=
        List.mem_map_of_mem h
      have hsub := List.sublist_flatten_of_mem hmem
      rw [← List.flatMap_def] at hsub
      exact tokenLength_le_of_sublist
        (((List.sublist_cons_self _ _).trans hsub).trans (List.sublist_append_right _ _))

end Commas

namespace Scan

variable {ρ α γ : Type} {item : Scan ρ α} {P : γ → α → Prop} {spell : γ → List String} {xs : List γ}

/-! ### One behind the other -/

/-- A row begins as its items do, or as what is left if there are none. -/
theorem beginsWith_flatMap (hspell : ∀ x ∈ xs, StartsWith p (spell x)) (hleft : BeginsWith p left) :
    BeginsWith p (xs.flatMap spell ++ left) := by
  cases xs with
  | nil => exact hleft
  | cons x xs =>
    rw [List.flatMap_cons, List.append_assoc]
    exact (hspell x List.mem_cons_self).beginsWith_append _

/-- A row has a character for every item at least. -/
theorem length_le_tokenLength (hspell : ∀ x ∈ xs, StartsWith p (spell x)) :
    xs.length ≤ tokenLength (xs.flatMap spell) := by
  induction xs with
  | nil => exact Nat.zero_le _
  | cons x xs ih =>
    obtain ⟨hx, hxs⟩ := List.forall_mem_cons.mp hspell
    have hpos := hx.tokenLength_pos
    have hmore := ih hxs
    rw [List.flatMap_cons, tokenLength_append, List.length_cons]
    omega

/-- The items behind a first one are read as a row. -/
theorem exists_readsRow_flatMap
    (hitem : ∀ x ∈ xs, ∀ left, BeginsWith p left → item.ReadsTokens (P x) (spell x ++ left) left)
    (hspell : ∀ x ∈ xs, StartsWith p (spell x)) (hleft : BeginsWith p left)
    (htext : Spaced (xs.flatMap spell ++ left) text) :
    ∃ rest, ReadsRow item P xs text rest ∧ Spaced left rest := by
  induction xs generalizing text with
  | nil => exact ⟨text, .nil, htext⟩
  | cons x xs ih =>
    obtain ⟨hx, hxs⟩ := List.forall_mem_cons.mp hitem
    obtain ⟨-, hspells⟩ := List.forall_mem_cons.mp hspell
    rw [List.flatMap_cons, List.append_assoc] at htext
    -- an item stands in front of the next one, or in front of what is left
    obtain ⟨mid, hread, hmid⟩ := hx _ (beginsWith_flatMap hspells hleft) text htext
    obtain ⟨rest, hrow, hrest⟩ := ih hxs hspells hmid
    exact ⟨rest, .cons hread hrow, hrest⟩

/-- **Items in a row are read one by one**, in front of what no further item begins with. -/
theorem readsTokens_many
    (hitem : ∀ x ∈ xs, ∀ left, BeginsWith p left → item.ReadsTokens (P x) (spell x ++ left) left)
    (hspell : ∀ x ∈ xs, StartsWith p (spell x)) (hleft : BeginsWith p left)
    (hend : ∀ text, Spaced left text → item.Refuses (clear text)) :
    (many item).ReadsTokens (List.Forall₂ P xs) (xs.flatMap spell ++ left) left := by
  intro text htext
  cases xs with
  | nil =>
    have hgap := htext.of_clear_eq hleft (clear_clear text)
    exact ⟨clear text, reads_many_nil (hend text htext), hgap⟩
  | cons x xs =>
    obtain ⟨hx, hxs⟩ := List.forall_mem_cons.mp hitem
    obtain ⟨-, hspells⟩ := List.forall_mem_cons.mp hspell
    rw [List.flatMap_cons, List.append_assoc] at htext
    obtain ⟨mid, hread, hmid⟩ := hx _ (beginsWith_flatMap hspells hleft) text htext
    obtain ⟨rest, hrow, hrest⟩ := exists_readsRow_flatMap hxs hspells hleft hmid
    -- the rounds are bounded by the characters behind the first item
    have hlength : xs.length ≤ mid.length := by
      have hle := hmid.tokenLength_le
      have hitems := length_le_tokenLength hspells
      rw [tokenLength_append] at hle
      omega
    exact ⟨rest, reads_many_cons hread hrow (hend rest hrest) (by omega), hrest⟩

/-! ### With commas between them -/

/-- A comma before an item is read with it. -/
theorem ReadsTokens.afterComma {R : α → Prop} (h : item.ReadsTokens R tokens left) :
    (afterComma item).ReadsTokens R ("," :: tokens) left := by
  intro text htext
  obtain ⟨behind, hclear, hbehind⟩ := htext.exists_cons (c := ',') rfl rfl
  obtain ⟨rest, hread, hrest⟩ := h behind hbehind
  rw [hclear]
  exact ⟨rest, reads_afterComma hread, hrest⟩

/-- **Items with commas between them are read one by one**, in front of what neither an item nor a
comma begins with. -/
theorem readsTokens_commas
    (hitem : ∀ x ∈ xs, ∀ left, BeginsWith p left → item.ReadsTokens (P x) (spell x ++ left) left)
    (hcomma : p ',') (hleft : BeginsWith (fun c => p c ∧ c ≠ ',') left)
    (hnone : ∀ text, Spaced left text → item.Refuses (clear text)) :
    (commaSeparated item).ReadsTokens (List.Forall₂ P xs)
      ([","].intercalate (xs.map spell) ++ left) left := by
  have hp : BeginsWith p left := hleft.mono fun _ hc => hc.1
  intro text htext
  cases xs with
  | nil =>
    have hgap := htext.of_clear_eq hp (clear_clear text)
    exact ⟨clear text, reads_commaSeparated_nil (hnone text htext), hgap⟩
  | cons x xs =>
    obtain ⟨hx, hxs⟩ := List.forall_mem_cons.mp hitem
    rw [intercalate_comma_cons, List.append_assoc] at htext
    have hstarts : ∀ y ∈ xs, StartsWith p ("," :: spell y) := fun y _ =>
      startsWith_cons (c := ',') rfl rfl hcomma
    obtain ⟨mid, hread, hmid⟩ := hx _ (beginsWith_flatMap hstarts hp) text htext
    -- the items behind the first one are read with the commas before them
    have hmore : (many (Scan.afterComma item)).ReadsTokens (List.Forall₂ P xs)
        ((xs.flatMap fun y => "," :: spell y) ++ left) left := by
      refine readsTokens_many (fun y hy left hleft => (hxs y hy left hleft).afterComma) hstarts hp
        fun text htext => ?_
      exact refuses_afterComma (htext.before (hleft.mono fun _ hc => hc.2))
    obtain ⟨rest, hrow, hrest⟩ := hmore mid hmid
    exact ⟨rest, reads_commaSeparated_cons hread hrow, hrest⟩

end Scan

end CheckedExpr
