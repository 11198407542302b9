import CheckedExpr.Proofs.CompactSpelling
import CheckedExpr.Proofs.VerboseRoundTrip

/-!
# The compact notation is read as it is spelled

Whatever tokens spell a model, with whatever gaps between them, `Compact.parse` reads them as the
model, as long as no object has a key twice. So the two notations denote the same models.

The grammar reads a descriptor as a base with marks behind it, while a spelling has its mark behind
the spelling of the rest. So what is shown of a spelling, by induction, is that it is a base with
marks, of which the base is read in front of whatever may follow it. The first character of a base
tells which of the alternatives reads it, but for `n` and `null`.

* `readsTokens_scanBase_word` and its neighbours: one rule for each kind of base.
* `readsTokens_scanNested`: a base is read together with the marks behind it.
* `Spells.isMarked`: every spelling is such a base with marks. This is the crux.
* `parse_spelling`: both notations denote every model.
-/

namespace CheckedExpr.Compact

open Scan

/-- Reads a descriptor without the marks behind it. -/
def scanBase (type : Scan Rule Descriptor) : Scan Rule Descriptor :=
  firstOf ([.null, .number, .string, .boolean].map scanWord ++
    [scanFunction type, scanObject type, scanGroup type])

/-- A descriptor is a base with its marks, the innermost one first. -/
theorem scanType_eq (type : Scan Rule Descriptor) :
    scanType type = Scan.rule .type (do
      let base ← scanBase type
      gap
      let marks ← many scanMark
      return marks.foldl Mark.apply base) := rfl

/-- What may stand behind a descriptor, if not the end of the text. -/
def followers : List Char := [')', ',', '-', '\x7d']

/-- What may stand behind a base: what stands behind a descriptor, or a mark. -/
def baseFollowers : List Char := '?' :: '[' :: followers

/-- What may stand behind a descriptor may stand behind a base without marks. -/
theorem mem_baseFollowers_of_mem_followers {c : Char} (h : c ∈ followers) : c ∈ baseFollowers :=
  List.mem_cons_of_mem _ (List.mem_cons_of_mem _ h)

/-! ### Marks -/

namespace Mark

/-- What a mark makes of a model. -/
def model (inner : Model) : Mark → Model
  | optional => .nullable inner
  | array => .array inner

/-- A mark makes of a descriptor what it makes of the model. -/
theorem denotes_apply {m : Model} {d : Descriptor} (mark : Mark) (h : d.Denotes m) :
    (mark.apply d).Denotes (mark.model m) := by
  cases mark with
  | optional => exact h.nullable
  | array => exact h.array

end Mark

variable {type : Scan Rule Descriptor} {m : Model} {d : Descriptor} {tokens left : List String}
  {text : List Char}

theorem denotes_foldl (marks : List Mark) (h : d.Denotes m) :
    (marks.foldl Mark.apply d).Denotes (marks.foldl Mark.model m) := by
  induction marks generalizing d m with
  | nil => exact h
  | cons mark marks ih => exact ih (mark.denotes_apply h)

/-- A mark begins as only marks do behind a base. -/
theorem startsWith_tokens (mark : Mark) : StartsWith (· ∈ baseFollowers) mark.tokens := by
  cases mark with
  | optional => exact startsWith_cons (c := '?') rfl rfl (by decide)
  | array => exact startsWith_cons (c := '[') rfl rfl (by decide)

/-- Each mark is read as itself, the brackets also with a gap between them. -/
theorem readsTokens_scanMark (mark : Mark) :
    scanMark.ReadsTokens (mark = ·) (mark.tokens ++ left) left := by
  intro text htext
  cases mark with
  | optional =>
    obtain ⟨rest, hclear, hrest⟩ := htext.exists_cons (c := '?') rfl rfl
    rw [hclear]
    have hsign : (sign Rule.optionalMark "?").Reads (fun _ => True) ('?' :: rest) rest :=
      (reads_exactly ['?']).rule
    exact ⟨rest, Reads.orElse_left (hsign.bind fun _ _ => reads_pure rfl), hrest⟩
  | array =>
    obtain ⟨behind, hclear, hbehind⟩ := htext.exists_cons (c := '[') rfl rfl
    obtain ⟨rest, hclosing, hrest⟩ := hbehind.exists_cons (c := ']') rfl rfl
    rw [hclear]
    -- the other mark is tried first, and a bracket is not it
    have hrefuse : (sign Rule.optionalMark "?").Refuses ('[' :: behind) :=
      (refuses_exactly rfl).rule
    refine ⟨rest, hrefuse.bind.orElse_reads (Reads.rule ?_), hrest⟩
    refine (reads_exactly ['[']).bind fun _ _ => ?_
    refine (reads_gap hclosing).bind fun _ _ => ?_
    exact (reads_exactly [']']).bind fun _ _ => reads_pure rfl

/-- Behind the last mark no other one is read. -/
theorem refuses_scanMark (h : ∀ c ∈ text.head?, c ∈ followers) : scanMark.Refuses text := by
  have hnone : ∀ c ∈ followers, c ≠ '?' ∧ c ≠ '[' := List.all_iff_forall_prop.mp (by decide)
  have hoptional : (sign Rule.optionalMark "?").Refuses text :=
    (refuses_exactly_cons fun c hc => (hnone c (h c hc)).1).rule
  exact hoptional.bind.orElse
    (refuses_exactly_cons fun c hc => (hnone c (h c hc)).2).bind.rule

/-- All marks behind a base are read. -/
theorem readsTokens_marks (marks : List Mark) (hleft : BeginsWith (· ∈ followers) left) :
    (many scanMark).ReadsTokens (marks = ·) (marks.flatMap Mark.tokens ++ left) left := by
  rw [← List.forall₂_eq_eq_eq]
  refine readsTokens_many (p := (· ∈ baseFollowers))
    (fun mark _ left _ => readsTokens_scanMark mark) (fun mark _ => startsWith_tokens mark)
    (hleft.mono fun c => mem_baseFollowers_of_mem_followers) fun text htext => ?_
  exact refuses_scanMark (htext.before hleft)

/-! ### Words -/

/-- Behind a word stands a gap or what may stand behind a base, which both end it. -/
theorem endsWord_of_spaced (htext : Spaced left text)
    (hleft : BeginsWith (· ∈ baseFollowers) left) :
    Grammar.endsWord text = true := by
  have hends : ∀ c ∈ text.head?, Grammar.isNameChar c = false := by
    -- a character of a gap, or the first character of what follows the word
    refine forall_head?_of_clear (fun c hc => ?_) fun c hc => ?_
    · have hall : ∀ d ∈ lexemeEnds, Grammar.isNameChar d = false :=
        List.all_iff_forall_prop.mp (by decide)
      exact hall c (mem_lexemeEnds_of_isGap hc)
    · have hall : ∀ d ∈ baseFollowers, Grammar.isNameChar d = false :=
        List.all_iff_forall_prop.mp (by decide)
      exact hall c (htext.before hleft c hc)
  cases text with
  | nil => rfl
  | cons c text =>
    rw [Grammar.endsWord, hends c rfl]
    rfl

/-- A kind is refused where its word does not stand. -/
theorem refuses_scanWord {kind : SimpleModel}
    (h : Grammar.readWord (wordOf kind).toList text = none) : (scanWord kind).Refuses text := by
  refine Refuses.bind (Refuses.rule (refuses_lexeme ?_))
  rw [h]
  rfl

/-- The word of a kind is read where it ends. -/
theorem reads_scanWord {rest : List Char} (kind : SimpleModel)
    (hrest : Grammar.endsWord rest = true) :
    (scanWord kind).Reads (Descriptor.Denotes (.simple kind)) ((wordOf kind).toList ++ rest)
      rest := by
  -- the word itself is in front, and what follows does not go on with it
  have hread : Grammar.readWord (wordOf kind).toList ((wordOf kind).toList ++ rest) =
      some rest := by
    rw [Grammar.readWord, isPrefixOf?_append, Option.filter_some, if_pos hrest]
  refine Reads.map (P := (· = kind)) (Reads.rule (reads_lexeme (a := kind) ?_ rfl)) ?_
  · rw [hread]
    rfl
  · rintro _ rfl
    exact Descriptor.denotes_simple _

/-- The words do not run into each other: `n` stands before what ends it, and so not for `null`. -/
theorem refuses_scanWord_of_ne {kind other : SimpleModel} {rest : List Char} (hne : other ≠ kind)
    (hrest : Grammar.endsWord rest = true) :
    (scanWord other).Refuses ((wordOf kind).toList ++ rest) := by
  refine refuses_scanWord ?_
  -- only `n` is the beginning of another word
  by_cases hnull : other = .null ∧ kind = .number
  · obtain ⟨rfl, rfl⟩ := hnull
    have hnext : ∀ c ∈ rest.head?, c ≠ 'u' := by
      cases rest with
      | nil => exact fun _ hc => absurd hc (by simp)
      | cons c rest =>
        rintro _ ⟨⟩ rfl
        cases hrest
    have hull : "ull".toList.isPrefixOf? rest = none := isPrefixOf?_eq_none hnext
    change ("ull".toList.isPrefixOf? rest).filter _ = none
    rw [hull]
    rfl
  · -- any two others differ in a character that both have
    cases other <;> cases kind <;> first
      | rfl
      | exact absurd rfl hne
      | exact absurd ⟨rfl, rfl⟩ hnull

/-- A word is read as the model of its kind. -/
theorem readsTokens_scanBase_word (kind : SimpleModel)
    (hleft : BeginsWith (· ∈ baseFollowers) left) :
    (scanBase type).ReadsTokens (Descriptor.Denotes (.simple kind)) (wordOf kind :: left) left := by
  intro text htext
  obtain ⟨c, cs, hword, hgap⟩ : ∃ c cs, (wordOf kind).toList = c :: cs ∧ isGap c = false := by
    cases kind <;> exact ⟨_, _, rfl, rfl⟩
  obtain ⟨rest, hclear, hrest⟩ := htext.exists_cons hword hgap
  have hends := endsWord_of_spaced hrest hleft
  rw [hclear, ← List.cons_append, ← hword]
  have hmem : kind ∈ [SimpleModel.null, .number, .string, .boolean] := by cases kind <;> decide
  obtain ⟨before, after, horder⟩ := List.append_of_mem hmem
  have hnodup : (before ++ kind :: after).Nodup := horder ▸ by decide
  refine ⟨rest, ?_, hrest⟩
  rw [scanBase, horder, List.map_append, List.map_cons, List.append_assoc]
  refine reads_firstOf (fun choice hchoice => ?_) (reads_scanWord kind hends)
  -- a word that is tried before is another one
  obtain ⟨other, hother, rfl⟩ := List.mem_map.mp hchoice
  have hne : other ≠ kind := (List.nodup_append.mp hnodup).2.2 other hother kind List.mem_cons_self
  exact refuses_scanWord_of_ne hne hends

/-! ### Functions, objects and groups -/

/-- No word begins with a character of another kind. -/
theorem refuses_words (h : ∀ c ∈ text.head?, c ∉ ['n', 's', 'b']) :
    ∀ choice ∈ [SimpleModel.null, .number, .string, .boolean].map scanWord,
      choice.Refuses text := by
  intro choice hchoice
  obtain ⟨kind, -, rfl⟩ := List.mem_map.mp hchoice
  obtain ⟨c, cs, hword, hmem⟩ : ∃ c cs, (wordOf kind).toList = c :: cs ∧ c ∈ ['n', 's', 'b'] := by
    cases kind <;> exact ⟨_, _, rfl, by decide⟩
  refine refuses_scanWord ?_
  rw [Grammar.readWord, hword, isPrefixOf?_eq_none fun d hd heq => h d hd (heq ▸ hmem)]
  rfl

theorem refuses_scanFunction (h : ∀ c ∈ text.head?, c ≠ 'f') : (scanFunction type).Refuses text :=
  (refuses_exactly_cons h).bind.rule

theorem refuses_scanObject (h : ∀ c ∈ text.head?, c ≠ '\x7b') : (scanObject type).Refuses text :=
  (refuses_exactly_cons h).bind.rule

theorem refuses_scanGroup (h : ∀ c ∈ text.head?, c ≠ '(') : (scanGroup type).Refuses text :=
  (refuses_exactly_cons h).bind

/-- No descriptor begins with what may stand behind one. -/
theorem refuses_scanNested (h : ∀ c ∈ text.head?, c ∈ followers) (nesting : Nat) :
    (scanNested nesting).Refuses text := by
  cases nesting with
  | zero => exact refuses_refuse
  | succ nesting =>
    have hnot (d : Char) (hd : d ∉ followers) : ∀ c ∈ text.head?, c ≠ d := by
      rintro c hc rfl
      exact hd (h c hc)
    -- a base stands first, and each of its alternatives begins with a character of its own
    refine Refuses.rule (Refuses.bind (refuses_firstOf ?_))
    refine List.forall_mem_append.mpr ⟨refuses_words fun c hc hmem => ?_, ?_⟩
    · have hall : ∀ d ∈ followers, d ∉ ['n', 's', 'b'] := List.all_iff_forall_prop.mp (by decide)
      exact hall c (h c hc) hmem
    · simp only [List.forall_mem_cons]
      exact ⟨refuses_scanFunction (hnot 'f' (by decide)),
        refuses_scanObject (hnot '\x7b' (by decide)),
        refuses_scanGroup (hnot '(' (by decide)), by simp⟩

section Alternatives

variable {P : Descriptor → Prop} {rest : List Char}

theorem reads_scanBase_function (h : (scanFunction type).Reads P ('f' :: text) rest) :
    (scanBase type).Reads P ('f' :: text) rest :=
  reads_firstOf (refuses_words (by simp)) h

/-- Objects are tried behind words and functions. -/
theorem reads_scanBase_object (h : (scanObject type).Reads P ('\x7b' :: text) rest) :
    (scanBase type).Reads P ('\x7b' :: text) rest := by
  have horder : scanBase type = firstOf (([.null, .number, .string, .boolean].map scanWord ++
    [scanFunction type]) ++ scanObject type :: [scanGroup type]) := rfl
  rw [horder]
  have hfunction : (scanFunction type).Refuses ('\x7b' :: text) := refuses_scanFunction (by simp)
  refine reads_firstOf (List.forall_mem_append.mpr ⟨refuses_words (by simp), ?_⟩) h
  simpa using hfunction

/-- Groups are tried last. -/
theorem reads_scanBase_group (h : (scanGroup type).Reads P ('(' :: text) rest) :
    (scanBase type).Reads P ('(' :: text) rest := by
  have horder : scanBase type = firstOf (([.null, .number, .string, .boolean].map scanWord ++
    [scanFunction type, scanObject type]) ++ scanGroup type :: []) := rfl
  rw [horder]
  have hfunction : (scanFunction type).Refuses ('(' :: text) := refuses_scanFunction (by simp)
  have hobject : (scanObject type).Refuses ('(' :: text) := refuses_scanObject (by simp)
  refine reads_firstOf (List.forall_mem_append.mpr ⟨refuses_words (by simp), ?_⟩) h
  simpa using ⟨hfunction, hobject⟩

end Alternatives

variable {inside behind : List String}

/-- A function is read with its parameters and its result, token by token. -/
theorem readsTokens_scanBase_function {parameters : List Model} {result : Model}
    (hparameters : (commaSeparated type).ReadsTokens
      (List.Forall₂ Descriptor.Denotes parameters) (inside ++ "->" :: behind) ("->" :: behind))
    (hresult : type.ReadsTokens (Descriptor.Denotes result) behind (")" :: left)) :
    (scanBase type).ReadsTokens (Descriptor.Denotes (.function parameters result))
      ("f" :: "(" :: (inside ++ "->" :: behind)) left := by
  intro text htext
  -- where each token of the text stands, with the gap in front of it
  obtain ⟨opened, hf, hopened⟩ := htext.exists_cons (c := 'f') rfl rfl
  obtain ⟨start, hopening, hstart⟩ := hopened.exists_cons (c := '(') rfl rfl
  obtain ⟨mid, hreadParameters, hmid⟩ := hparameters start hstart
  obtain ⟨after, harrow, hafter⟩ := hmid.exists_cons (c := '-') rfl rfl
  obtain ⟨stop, hreadResult, hstop⟩ := hresult after hafter
  obtain ⟨rest, hclosing, hrest⟩ := hstop.exists_cons (c := ')') rfl rfl
  rw [hf]
  -- and the scan, which goes over the same places
  refine ⟨rest, reads_scanBase_function (Reads.rule ?_), hrest⟩
  refine (reads_exactly ['f']).bind fun _ _ => ?_
  refine (reads_gap hopening).bind fun _ _ => ?_
  refine (reads_exactly ['(']).bind fun _ _ => ?_
  refine (reads_gap rfl).bind fun _ _ => ?_
  refine hreadParameters.bind fun ds hds => ?_
  refine (reads_gap harrow).bind fun _ _ => ?_
  refine (reads_exactly ['-', '>']).bind fun _ _ => ?_
  refine (reads_gap rfl).bind fun _ _ => ?_
  refine hreadResult.bind fun d hd => ?_
  refine (reads_gap hclosing).bind fun _ _ => ?_
  exact (reads_exactly [')']).bind fun _ _ => reads_pure (Descriptor.denotes_function hds hd)

/-- Reads an entry. -/
def scanEntry (type : Scan Rule Descriptor) : Scan Rule (Span × DescriptorKey × Descriptor) :=
  Scan.rule .entry (DescriptorKey.scanEntry (DescriptorKey.scan .quotedKey .bareKey) type)

/-- An entry is read with its key in quotes. -/
theorem readsTokens_scanEntry {entry : String × Model}
    (h : type.ReadsTokens (Descriptor.Denotes entry.2) tokens left) :
    (scanEntry type).ReadsTokens (Descriptor.EntryDenotes entry)
      (Text.quoted entry.1 :: ":" :: tokens) left := by
  intro text htext
  -- a key begins with its quote, so the gap before it is cut off there
  have hquoted : (Text.quoted entry.1).toList =
      '"' :: (entry.1.toList.flatMap (Text.quotedChar '"') ++ ['"']) := by
    rw [Text.quoted, String.toList_ofList]
    rfl
  obtain ⟨behind, hclear, hbehind⟩ := htext.exists_cons hquoted rfl
  obtain ⟨start, hcolon, hstart⟩ := hbehind.exists_cons (c := ':') rfl rfl
  obtain ⟨rest, hread, hrest⟩ := h start hstart
  rw [hclear, ← List.cons_append, ← hquoted]
  refine ⟨rest, Reads.rule (reads_place.bind fun place _ => ?_), hrest⟩
  refine (DescriptorKey.reads_quoted _ _ entry.1 behind).bind fun key hkey => ?_
  refine (reads_gap hcolon).bind fun _ _ => ?_
  refine (reads_exactly [':']).bind fun _ _ => ?_
  refine (reads_gap rfl).bind fun _ _ => ?_
  refine hread.bind fun d hd => reads_place.bind fun stop _ => reads_pure ?_
  exact ⟨fun dialect source => hkey dialect source _, hd⟩

/-- Entries with different keys are read as an object. -/
theorem readsTokens_scanBase_object {entries : List (String × Model)}
    (hkeys : (entries.map Prod.fst).Nodup)
    (h : (commaSeparated (scanEntry type)).ReadsTokens
      (List.Forall₂ Descriptor.EntryDenotes entries) (inside ++ "\x7d" :: left) ("\x7d" :: left)) :
    (scanBase type).ReadsTokens (Descriptor.Denotes (.object entries))
      ("\x7b" :: (inside ++ "\x7d" :: left)) left := by
  intro text htext
  obtain ⟨start, hopening, hstart⟩ := htext.exists_cons (c := '\x7b') rfl rfl
  obtain ⟨mid, hread, hmid⟩ := h start hstart
  obtain ⟨rest, hclosing, hrest⟩ := hmid.exists_cons (c := '\x7d') rfl rfl
  rw [hopening]
  refine ⟨rest, reads_scanBase_object (Reads.rule ?_), hrest⟩
  refine (reads_exactly ['\x7b']).bind fun _ _ => ?_
  refine (reads_gap rfl).bind fun _ _ => ?_
  refine Reads.bind hread fun written hwritten => ?_
  refine (reads_gap hclosing).bind fun _ _ => ?_
  exact (reads_exactly ['\x7d']).bind fun _ _ =>
    reads_pure (Descriptor.denotes_object hwritten hkeys)

/-- A model in parentheses is read as itself. -/
theorem readsTokens_scanBase_group
    (h : type.ReadsTokens (Descriptor.Denotes m) tokens (")" :: left)) :
    (scanBase type).ReadsTokens (Descriptor.Denotes m) ("(" :: tokens) left := by
  intro text htext
  obtain ⟨start, hopening, hstart⟩ := htext.exists_cons (c := '(') rfl rfl
  obtain ⟨mid, hread, hmid⟩ := h start hstart
  obtain ⟨rest, hclosing, hrest⟩ := hmid.exists_cons (c := ')') rfl rfl
  rw [hopening]
  -- a group denotes what the model inside of it denotes
  refine ⟨rest, reads_scanBase_group ?_, hrest⟩
  refine (reads_exactly ['(']).bind fun _ _ => ?_
  refine (reads_gap rfl).bind fun _ _ => ?_
  refine hread.bind fun d hd => ?_
  refine (reads_gap hclosing).bind fun _ _ => ?_
  exact (reads_exactly [')']).bind fun _ _ => reads_pure hd

/-! ### Spellings -/

/-- Whether some tokens are read as a model in front of whatever may stand behind a base, if the
reader may go down as many levels as they have characters. -/
def ReadsAsBase (m : Model) (tokens : List String) : Prop :=
  ∀ ⦃nesting : Nat⦄, tokenLength tokens ≤ nesting →
    ∀ ⦃left : List String⦄, BeginsWith (· ∈ baseFollowers) left →
      (scanBase (scanNested nesting)).ReadsTokens (Descriptor.Denotes m) (tokens ++ left) left

/-- Whether some tokens are a base that is read as it is spelled, with marks behind it. -/
def IsMarked (m : Model) (tokens : List String) : Prop :=
  ∃ (base : Model) (baseTokens : List String) (marks : List Mark),
    tokens = baseTokens ++ marks.flatMap Mark.tokens ∧
    m = marks.foldl Mark.model base ∧ ReadsAsBase base baseTokens

theorem IsMarked.of_base (h : ReadsAsBase m tokens) : IsMarked m tokens :=
  ⟨m, tokens, [], by rw [List.flatMap_nil, List.append_nil], rfl, h⟩

/-- A further mark comes behind those that are there. -/
theorem IsMarked.mark (h : IsMarked m tokens) (mark : Mark) :
    IsMarked (mark.model m) (tokens ++ mark.tokens) := by
  obtain ⟨base, baseTokens, marks, rfl, rfl, hbase⟩ := h
  refine ⟨base, baseTokens, marks ++ [mark], ?_, ?_, hbase⟩
  · rw [List.flatMap_append, List.flatMap_singleton, List.append_assoc]
  · rw [List.foldl_append, List.foldl_cons, List.foldl_nil]

/-- **A base is read together with the marks behind it.** -/
theorem readsTokens_scanNested (h : IsMarked m tokens) {nesting : Nat}
    (hnesting : tokenLength tokens < nesting) (hleft : BeginsWith (· ∈ followers) left) :
    (scanNested nesting).ReadsTokens (Descriptor.Denotes m) (tokens ++ left) left := by
  obtain ⟨base, baseTokens, marks, rfl, rfl, hbase⟩ := h
  obtain ⟨nesting, rfl⟩ := Nat.exists_eq_add_one.mpr (Nat.zero_lt_of_lt hnesting)
  -- one level is spent on the whole, and the base is no longer than it
  have hroom : tokenLength baseTokens ≤ nesting := by
    rw [tokenLength_append] at hnesting
    omega
  have hmarks : BeginsWith (· ∈ baseFollowers) (marks.flatMap Mark.tokens ++ left) :=
    beginsWith_flatMap (fun mark _ => startsWith_tokens mark)
      (hleft.mono fun c => mem_baseFollowers_of_mem_followers)
  intro text htext
  rw [List.append_assoc] at htext
  obtain ⟨mid, hreadBase, hmid⟩ := hbase hroom hmarks text htext
  obtain ⟨rest, hreadMarks, hrest⟩ := readsTokens_marks marks hleft mid hmid
  rw [scanNested, scanType_eq]
  refine ⟨rest, Reads.rule (hreadBase.bind fun d hd => ?_), hrest⟩
  refine (reads_gap rfl).bind fun _ _ => hreadMarks.bind fun found hfound => reads_pure ?_
  subst hfound
  exact denotes_foldl marks hd

theorem readsAsBase_simple (kind : SimpleModel) : ReadsAsBase (.simple kind) [wordOf kind] :=
  fun _ _ _ hleft => readsTokens_scanBase_word kind hleft

/-- A spelling in parentheses is a base, whatever marks it has inside. -/
theorem readsAsBase_group (h : IsMarked m tokens) : ReadsAsBase m ("(" :: (tokens ++ [")"])) := by
  intro nesting hnesting left _
  -- the parentheses are two characters, so there is a level for what is between them
  have hlength : tokenLength tokens + 2 ≤ nesting := by
    have hopening : "(".toList.length = 1 := rfl
    have hclosing : ")".toList.length = 1 := rfl
    simp only [tokenLength_cons, tokenLength_append, tokenLength_nil] at hnesting
    omega
  have hinner : (scanNested nesting).ReadsTokens (Descriptor.Denotes m) (tokens ++ ")" :: left)
      (")" :: left) :=
    readsTokens_scanNested h (by omega) (beginsWith_cons (c := ')') rfl rfl (by decide))
  simpa using readsTokens_scanBase_group hinner

/-- Entries in braces are a base. -/
theorem readsAsBase_object {rows : List ((String × Model) × List String)}
    (hkeys : ((rows.map Prod.fst).map Prod.fst).Nodup)
    (h : ∀ row ∈ rows, IsMarked row.1.2 row.2) :
    ReadsAsBase (.object (rows.map Prod.fst))
      ("\x7b" :: ([","].intercalate (rows.map fun row => Text.quoted row.1.1 :: ":" :: row.2) ++
        ["\x7d"])) := by
  intro nesting hnesting left _
  have hentries : (commaSeparated (scanEntry (scanNested nesting))).ReadsTokens
      (List.Forall₂ (fun row => Descriptor.EntryDenotes row.1) rows)
      ([","].intercalate (rows.map fun row => Text.quoted row.1.1 :: ":" :: row.2) ++
        "\x7d" :: left) ("\x7d" :: left) := by
    refine readsTokens_commas (p := (· ∈ followers)) (fun row hrow left hleft => ?_) (by decide)
      (beginsWith_cons (c := '\x7d') rfl rfl (by decide)) fun text htext => ?_
    · -- the tokens of an entry are fewer than those of the object
      have hle := tokenLength_le_intercalate
        (fun row : (String × Model) × List String => Text.quoted row.1.1 :: ":" :: row.2) hrow
      have hcolon : ":".toList.length = 1 := rfl
      simp only [tokenLength_cons, tokenLength_append] at hle hnesting
      exact readsTokens_scanEntry (readsTokens_scanNested (h row hrow) (by omega) hleft)
    · -- no key begins with the brace, so an object may have no entries
      obtain ⟨behind, hclear, -⟩ := htext.exists_cons (c := '\x7d') rfl rfl
      rw [hclear]
      exact (DescriptorKey.refuses_scanEntry (DescriptorKey.refuses_scan rfl rfl)).rule
  have hobject := readsTokens_scanBase_object hkeys (hentries.mono fun written hwritten =>
    List.forall₂_map_left_iff.mpr hwritten)
  simpa using hobject

/-- Parameters and a result behind the letter are a base. -/
theorem readsAsBase_function {rows : List (Model × List String)} {result : Model}
    (h : ∀ row ∈ rows, IsMarked row.1 row.2) (hresult : IsMarked result tokens) :
    ReadsAsBase (.function (rows.map Prod.fst) result)
      ("f" :: "(" :: ([","].intercalate (rows.map Prod.snd) ++ "->" :: (tokens ++ [")"]))) := by
  intro nesting hnesting left _
  have hf : "f".toList.length = 1 := rfl
  -- the tokens of a parameter or of the result are fewer, so one level less is enough for them
  simp only [tokenLength_cons, tokenLength_append] at hnesting
  have hparameters (behind : List String) : (commaSeparated (scanNested nesting)).ReadsTokens
      (List.Forall₂ (fun row => Descriptor.Denotes row.1) rows)
      ([","].intercalate (rows.map Prod.snd) ++ "->" :: behind) ("->" :: behind) := by
    refine readsTokens_commas (p := (· ∈ followers)) (fun row hrow left hleft => ?_) (by decide)
      (beginsWith_cons (c := '-') rfl rfl (by decide)) fun text htext => ?_
    · have hle := tokenLength_le_intercalate Prod.snd hrow
      exact readsTokens_scanNested (h row hrow) (by omega) hleft
    · -- nor does a model begin with the arrow
      exact refuses_scanNested (htext.before (beginsWith_cons (c := '-') rfl rfl (by decide))) _
  have hreadResult : (scanNested nesting).ReadsTokens (Descriptor.Denotes result)
      (tokens ++ ")" :: left) (")" :: left) :=
    readsTokens_scanNested hresult (by omega) (beginsWith_cons (c := ')') rfl rfl (by decide))
  have hfunction := readsTokens_scanBase_function ((hparameters _).mono fun ds hds =>
    List.forall₂_map_left_iff.mpr hds) hreadResult
  simpa using hfunction

/-- **A spelling is a base with marks behind it**, and the base is read as it is spelled. -/
theorem Spells.isMarked (h : Spells m tokens) (hm : m.DistinctKeys) : IsMarked m tokens := by
  -- by induction on the spelling: a mark comes to those that are there, all else is a new base
  induction h with
  | simple kind => exact .of_base (readsAsBase_simple kind)
  | nullable _ ih =>
    cases hm with
    | nullable hinner => exact (ih hinner).mark .optional
  | array _ ih =>
    cases hm with
    | array helement => exact (ih helement).mark .array
  | object _ ih =>
    cases hm with
    | object hkeys hentries =>
      refine .of_base (readsAsBase_object hkeys fun row hrow => ih row hrow ?_)
      exact hentries row.1 (List.mem_map_of_mem hrow)
  | function _ _ ih ihresult =>
    cases hm with
    | function hparameters hresult =>
      refine .of_base (readsAsBase_function (fun row hrow => ih row hrow ?_) (ihresult hresult))
      exact hparameters row.1 (List.mem_map_of_mem hrow)
  | group _ ih => exact .of_base (readsAsBase_group (ih hm))

/-! ### Whole texts -/

/-- A text of tokens that spell a model is read as a whole. -/
theorem reads_scanWhole (h : Spells m tokens) (hm : m.DistinctKeys) (htext : Spaced tokens text) :
    (scanWhole text).Reads (Descriptor.Denotes m) text [] := by
  have hlength : tokenLength tokens < text.length + 1 := Nat.lt_succ_of_le htext.tokenLength_le
  have hread := readsTokens_scanNested (h.isMarked hm) hlength beginsWith_nil
  rw [List.append_nil] at hread
  obtain ⟨rest, hdescriptor, hrest⟩ := hread text htext
  refine Reads.rule ((reads_gap rfl).bind fun _ _ => ?_)
  refine hdescriptor.bind fun d hd => ?_
  refine (reads_gap hrest.clear_eq_nil).bind fun _ _ => ?_
  exact reads_finish.bind fun _ _ => reads_pure hd

/-- **A text of tokens that spell a model parses as it.** -/
theorem parse_of_spells {source : String} (h : Spells m tokens) (hm : m.DistinctKeys)
    (hsource : Spaced tokens source.toList) : parse source = .ok m := by
  obtain ⟨d, hrun, hd⟩ := (reads_scanWhole h hm hsource).exists_run
  unfold parse
  rw [hrun]
  exact hd .compact source

/-- **Both notations denote every model.** A model with distinct keys in every object has a
spelling, which is read as the model without any gap in it. So is every other spelling, with
whatever gaps between its tokens; and the verbose notation reads the text of the model as the
same. -/
theorem parse_spelling {m : Model} (hm : m.DistinctKeys) :
    Spells m (Compact.tokens m) ∧
    parse (String.ofList ((Compact.tokens m).flatMap String.toList)) = .ok m ∧
    (∀ spelling source, Spells m spelling → Spaced spelling source.toList → parse source = .ok m) ∧
    Verbose.parse m.text = .ok m := by
  refine ⟨spells_tokens m, ?_, fun spelling source h => parse_of_spells h hm, ?_⟩
  -- its own tokens with no gaps between them are one of the spellings
  · refine parse_of_spells (spells_tokens m) hm ?_
    rw [String.toList_ofList]
    exact spaced_flatMap _
  -- and the other notation reads the text that is displayed
  · obtain ⟨d, hrun, hd⟩ := (Verbose.reads_scanWhole hm).exists_run
    unfold Verbose.parse
    rw [hrun]
    exact hd .verbose m.text

/-- A function without parameters, with an object in parentheses and keys that look like words. -/
theorem parse_spelling_spaced :
    let m : Model := .function [] (.nullable (.array (.object [("n", .number), ("", .boolean)])))
    m.DistinctKeys ∧ parse " f( ->\n(\x7b \"n\":n ,\t\"\" : (b)\x7d [ ])?\r)" = .ok m := by
  intro m
  have hentries : ∀ entry ∈ [("n", Model.number), ("", .boolean)], entry.2.DistinctKeys := by
    simpa using ⟨.simple .number, .simple .boolean⟩
  have hm : m.DistinctKeys :=
    .function (by simp) (.nullable (.array (.object (by decide) hentries)))
  have hobject := @Spells.object [(("n", .number), ["n"]), (("", .boolean), ["(", "b", ")"])]
    (by simpa using ⟨.simple .number, .group (.simple .boolean)⟩)
  have hspells : Spells m _ :=
    @Spells.function [] _ _ (by simp) (.nullable (.group (.array hobject)))
  have hn : Text.quoted "n" = "\"n\"" := by decide
  have hempty : Text.quoted "" = "\"\"" := by decide
  have hspaced : Spaced ["f", "(", "->", "(", "\x7b", Text.quoted "n", ":", "n", ",",
      Text.quoted "", ":", "(", "b", ")", "\x7d", "[", "]", ")", "?", ")"]
      " f( ->\n(\x7b \"n\":n ,\t\"\" : (b)\x7d [ ])?\r)".toList := by
    rw [hn, hempty]
    -- the gap before each token, and the token
    exact spaced_of_gaps [(" ", "f"), ("", "("), (" ", "->"), ("\n", "("), ("", "\x7b"),
      (" ", "\"n\""), ("", ":"), ("", "n"), (" ", ","), ("\t", "\"\""), (" ", ":"), (" ", "("),
      ("", "b"), ("", ")"), ("", "\x7d"), (" ", "["), (" ", "]"), ("", ")"), ("", "?"),
      ("\r", ")")] "" (by decide) (by decide)
  exact ⟨hm, (parse_spelling hm).2.2.1 _ _ hspells hspaced⟩

end CheckedExpr.Compact
