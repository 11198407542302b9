import CheckedExpr.Descriptor
import CheckedExpr.Proofs.Except
import CheckedExpr.Proofs.Reading
import CheckedExpr.Text.Quoted

/-!
# What a descriptor denotes

A descriptor as a tree denotes a model in the same way in both notations, as long as all its keys
can be decoded and no object declares one twice. Models whose text is to be read back must therefore
have distinct keys in every object, at whatever depth.

* `Model.DistinctKeys`: such models.
* `Descriptor.Denotes`: a descriptor denotes a model wherever it stands, with one rule for each kind
  of model.
* `DescriptorKey.reads_quoted`: a key in quotes is read as what denotes it, whatever characters it
  is made of.
-/

namespace CheckedExpr

/-- Whether no object in a model declares a key twice. -/
inductive Model.DistinctKeys : Model → Prop
  | simple (kind : SimpleModel) : DistinctKeys (.simple kind)
  | nullable {inner : Model} (h : DistinctKeys inner) : DistinctKeys (.nullable inner)
  | array {element : Model} (h : DistinctKeys element) : DistinctKeys (.array element)
  | object {entries : List (String × Model)} (hkeys : (entries.map Prod.fst).Nodup)
      (h : ∀ entry ∈ entries, DistinctKeys entry.2) : DistinctKeys (.object entries)
  | function {parameters : List Model} {result : Model}
      (hparameters : ∀ m ∈ parameters, DistinctKeys m) (hresult : DistinctKeys result) :
      DistinctKeys (.function parameters result)

/-! ### Trees -/

namespace Descriptor

/-- Whether a descriptor denotes a model, in either notation and wherever it stands. -/
def Denotes (m : Model) (d : Descriptor) : Prop :=
  ∀ dialect source, d.toModel dialect source = .ok m

/-- Whether an entry as it is written denotes an entry of a model. -/
def EntryDenotes (entry : String × Model) (written : Span × DescriptorKey × Descriptor) : Prop :=
  (∀ dialect source, written.2.1.decode dialect source written.1 = .ok entry.1) ∧
    Denotes entry.2 written.2.2

theorem denotes_simple (kind : SimpleModel) : Denotes (.simple kind) (.simple kind) :=
  fun dialect source => by rw [toModel]

/-- An optional layer around a descriptor is one around the model. -/
theorem Denotes.nullable {m : Model} {d : Descriptor} (h : Denotes m d) :
    Denotes (.nullable m) (.nullable d) := by
  intro dialect source
  rw [toModel, h dialect source]
  rfl

theorem Denotes.array {m : Model} {d : Descriptor} (h : Denotes m d) :
    Denotes (.array m) (.array d) := by
  intro dialect source
  rw [toModel, h dialect source]
  rfl

/-- Descriptors in a row denote the models in a row. -/
theorem toModels_of_denotes {ms : List Model} {ds : List Descriptor}
    (h : List.Forall₂ Denotes ms ds) (dialect : Dialect) (source : String) :
    toModels dialect source ds = .ok ms := by
  induction h with
  | nil => rw [toModels]
  | cons hd _ ih =>
    rw [toModels, hd dialect source, ih]
    rfl

/-- A function denotes the function of what its parts denote. -/
theorem denotes_function {parameters : List Model} {result : Model} {ds : List Descriptor}
    {d : Descriptor} (hparameters : List.Forall₂ Denotes parameters ds)
    (hresult : Denotes result d) :
    Denotes (.function parameters result) (.function ds d) := by
  intro dialect source
  rw [toModel, toModels_of_denotes hparameters, hresult dialect source]
  rfl

/-- An entry is taken if its key can be decoded and is new, and if its model can be read. -/
theorem toEntries_cons_eq_ok_iff {dialect : Dialect} {source : String} {keys : List String}
    {span : Span} {key : DescriptorKey} {d : Descriptor}
    {rest : List (Span × DescriptorKey × Descriptor)} {entries : List (String × Model)} :
    toEntries dialect source keys ((span, key, d) :: rest) = .ok entries ↔
      ∃ name m more, key.decode dialect source span = .ok name ∧
        d.toModel dialect source = .ok m ∧ name ∉ keys ∧
          toEntries dialect source (name :: keys) rest = .ok more ∧
            (name, m) :: more = entries := by
  rw [toEntries]
  simp only [Except.bind_eq_ok_iff]
  refine exists_congr fun name => ?_
  constructor
  · rintro ⟨hname, m, hm, h⟩
    split at h
    -- the key was there before
    next hold => cases h
    next hnew =>
      obtain ⟨more, hmore, h⟩ := Except.bind_eq_ok_iff.mp h
      exact ⟨m, more, hname, hm, hnew, hmore, Except.ok.inj h⟩
  · rintro ⟨m, more, hname, hm, hnew, hmore, rfl⟩
    refine ⟨hname, m, hm, ?_⟩
    rw [if_neg hnew, hmore]
    rfl

/-- Entries whose keys are distinct, also from those of the entries before them, are taken. -/
theorem toEntries_of_denotes {entries : List (String × Model)}
    {written : List (Span × DescriptorKey × Descriptor)} {keys : List String}
    (h : List.Forall₂ EntryDenotes entries written) (hkeys : (entries.map Prod.fst).Nodup)
    (hfresh : ∀ entry ∈ entries, entry.1 ∉ keys) (dialect : Dialect) (source : String) :
    toEntries dialect source keys written = .ok entries := by
  -- the keys met so far grow by one with each entry, and stay apart from those to come
  induction h generalizing keys with
  | nil => rw [toEntries]
  | @cons entry first entries written hfirst _ ih =>
    obtain ⟨name, m⟩ := entry
    obtain ⟨span, key, d⟩ := first
    obtain ⟨hname, hnodup⟩ := List.nodup_cons.mp hkeys
    obtain ⟨hnew, hfresh⟩ := List.forall_mem_cons.mp hfresh
    have hrest := @ih (name :: keys) hnodup fun entry hentry hmem => by
      rcases List.mem_cons.mp hmem with hsame | hold
      · exact hname (List.mem_map.mpr ⟨entry, hentry, hsame⟩)
      · exact hfresh entry hentry hold
    rw [toEntries_cons_eq_ok_iff]
    exact ⟨name, m, entries, hfirst.1 dialect source, hfirst.2 dialect source, hnew, hrest, rfl⟩

/-- **Entries with different keys denote an object**, where each of them denotes its entry. -/
theorem denotes_object {entries : List (String × Model)}
    {written : List (Span × DescriptorKey × Descriptor)}
    (h : List.Forall₂ EntryDenotes entries written) (hkeys : (entries.map Prod.fst).Nodup) :
    Denotes (.object entries) (.object written) := by
  intro dialect source
  rw [toModel, toEntries_of_denotes h hkeys (by simp)]
  rfl

end Descriptor

/-! ### Keys -/

namespace Grammar

/-- Characters that neither end a quoted text nor begin an escape are taken as they are. -/
theorem readBody_append_of_plain {quote : Char} {plain : List Char}
    (h : ∀ c ∈ plain, c ≠ '\\' ∧ c ≠ quote) (rest : List Char) :
    readBody quote (plain ++ rest) =
      (readBody quote rest).map fun (body, after) => (plain ++ body, after) := by
  induction plain with
  | nil => cases h : readBody quote rest <;> simp [h]
  | cons c cs ih =>
    obtain ⟨⟨hescape, hquote⟩, hcs⟩ := List.forall_mem_cons.mp h
    rw [List.cons_append, readBody_plain hescape hquote, ih hcs, Option.map_map]
    rfl

/-- An escape is taken with the plain characters behind it. -/
theorem readBody_escape_append {quote : Char} {plain : List Char}
    (h : ∀ c ∈ plain, c ≠ '\\' ∧ c ≠ quote) (c : Char) (rest : List Char) :
    readBody quote ('\\' :: c :: (plain ++ rest)) =
      (readBody quote rest).map fun (body, after) => ('\\' :: c :: (plain ++ body), after) := by
  rw [readBody_escape, readBody_append_of_plain h, Option.map_map]
  rfl

theorem isHexDigit_of_mem_toDigits {n : Nat} {d : Char} (h : d ∈ Nat.toDigits 16 n) :
    Text.isHexDigit d = true :=
  List.all_eq_true.mp (Text.all_isHexDigit_toDigits n) d h

/-- What is written for one character is taken as a whole. -/
theorem readBody_quotedChar_append (c : Char) (rest : List Char) :
    readBody '"' (Text.quotedChar '"' c ++ rest) =
      (readBody '"' rest).map fun (body, after) => (Text.quotedChar '"' c ++ body, after) := by
  have hpair (d : Char) : readBody '"' ('\\' :: d :: rest) =
      (readBody '"' rest).map fun (body, after) => ('\\' :: d :: body, after) :=
    @readBody_escape_append '"' [] (by simp) d rest
  unfold Text.quotedChar
  split_ifs with h0 ht hr hn hself hprintable
  -- all but two cases write a backslash and one more character
  any_goals exact hpair _
  -- a character that is printed as it is
  · obtain ⟨hescape, hquote⟩ := not_or.mp hself
    exact @readBody_append_of_plain '"' [c] (by simp [hescape, hquote]) rest
  -- the number of a character stands in braces, and none of its digits ends the text
  · have hplain : ∀ d ∈ '\x7b' :: (Nat.toDigits 16 c.toNat ++ ['\x7d']), d ≠ '\\' ∧ d ≠ '"' := by
      intro d hd
      simp only [List.mem_cons, List.mem_append, List.not_mem_nil, or_false] at hd
      rcases hd with rfl | hd | rfl
      · decide
      · have hhex := isHexDigit_of_mem_toDigits hd
        exact ⟨fun h => by subst h; exact absurd hhex (by decide),
          fun h => by subst h; exact absurd hhex (by decide)⟩
      · decide
    simpa using readBody_escape_append hplain 'u' rest

/-- What is written for a text between two quotes is taken up to the second one. -/
theorem readBody_flatMap_quotedChar (text rest : List Char) :
    readBody '"' (text.flatMap (Text.quotedChar '"') ++ '"' :: rest) =
      some (text.flatMap (Text.quotedChar '"'), rest) := by
  induction text with
  | nil =>
    rw [List.flatMap_nil, List.nil_append, readBody_closing (by decide)]
  | cons c cs ih =>
    rw [List.flatMap_cons, List.append_assoc, readBody_quotedChar_append, ih]
    rfl

end Grammar

namespace DescriptorKey

/-- Whether a key as it is written denotes a name. -/
def Denotes (name : String) (key : DescriptorKey) : Prop :=
  ∀ dialect source entry, key.decode dialect source entry = .ok name

/-- **Every name can be written as a key.** What is written for it between double quotes is read as
a key that denotes it. -/
theorem reads_quoted {ρ : Type} (quotedRule bareRule : ρ) (name : String) (rest : List Char) :
    (scan quotedRule bareRule).Reads (Denotes name) ((Text.quoted name).toList ++ rest) rest := by
  have hread : Grammar.readQuoted '"' ((Text.quoted name).toList ++ rest) =
      some (⟨'"', name.toList.flatMap (Text.quotedChar '"')⟩, rest) := by
    rw [Text.quoted, String.toList_ofList, List.cons_append, List.cons_append, List.append_assoc,
      Grammar.readQuoted, if_pos rfl, List.singleton_append, Grammar.readBody_flatMap_quotedChar]
    rfl
  refine Scan.Reads.orElse_left (Scan.reads_place.bind fun offset _ => ?_)
  refine (Scan.Reads.rule (Scan.reads_lexeme (P := fun q => q = _) hread rfl)).bind fun q hq => ?_
  refine Scan.reads_pure fun dialect source entry => ?_
  -- what was read is what was written, and decoding takes the escapes back
  subst hq
  have hbody : Text.unescape (name.toList.flatMap (Text.quotedChar '"')) = .ok name.toList :=
    Text.unescape_flatMap_quotedChar (by decide) (by decide) (by decide) name.toList
  simp only [decode, hbody, String.ofList_toList]

/-- No key stands where neither a quote nor a name begins. -/
theorem refuses_scan {ρ : Type} {quotedRule bareRule : ρ} {text : List Char}
    (hquoted : Grammar.readQuoted '"' text = none) (hbare : Grammar.readName text = none) :
    (scan quotedRule bareRule).Refuses text :=
  (Scan.reads_place.bind_refuses fun _ _ => (Scan.refuses_lexeme hquoted).rule.bind).orElse
    (Scan.refuses_lexeme hbare).rule.bind

theorem refuses_scanEntry {ρ : Type} {key : Scan ρ DescriptorKey} {type : Scan ρ Descriptor}
    {text : List Char} (h : key.Refuses text) : (scanEntry key type).Refuses text :=
  Scan.reads_place.bind_refuses fun _ _ => h.bind

/-- An entry of which the key is in quotes. -/
theorem reads_entry {ρ : Type} {quotedRule bareRule : ρ} {type : Scan ρ Descriptor}
    {entry : String × Model} {written rest : List Char}
    (hclear : (written ++ rest).dropWhile Scan.isGap = written ++ rest)
    (htype : type.Reads (Descriptor.Denotes entry.2) (written ++ rest) rest) :
    (scanEntry (scan quotedRule bareRule) type).Reads (Descriptor.EntryDenotes entry)
      ((Text.quoted entry.1).toList ++ ':' :: ' ' :: written ++ rest) rest := by
  -- the places before and behind the entry are kept for errors only
  refine Scan.reads_place.bind fun start _ => ?_
  rw [List.append_assoc]
  refine (reads_quoted quotedRule bareRule entry.1 _).bind fun key hkey => ?_
  refine (Scan.reads_gap rfl).bind fun _ _ => ?_
  refine (Scan.reads_exactly [':']).bind fun _ _ => ?_
  refine (Scan.reads_gap_space hclear).bind fun _ _ => ?_
  refine htype.bind fun d hd => ?_
  refine Scan.reads_place.bind fun stop _ => Scan.reads_pure ?_
  exact ⟨fun dialect source => hkey dialect source _, hd⟩

end DescriptorKey

end CheckedExpr
