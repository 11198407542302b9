import CheckedExpr.Descriptor.Verbose
import CheckedExpr.Proofs.DescriptorDenotation

/-!
# The verbose notation reads back

What `Model.text` writes, `Verbose.parse` reads as the same model, whatever the keys are made of, as
long as no object has one twice.

The reader tries its alternatives in order, so each kind of model needs two facts: the alternatives
before its own refuse its text, since they begin with other letters, and its own alternative reads
it. A word ends only where no character of a name follows; hence the texts that may stand behind a
descriptor are those with `Grammar.endsWord`.

* `reads_scanType_nullable` and its neighbours: one rule for each kind of model.
* `reads_scanNested`: the text of a model is read as a descriptor that denotes it, by induction on
  the model, if the reader may go down more levels than the text has characters.
* `parse_text`: the round trip.
-/

namespace CheckedExpr

/-! ### Texts as characters -/

namespace Model

section Texts

attribute [local simp] text entriesText listText

theorem toList_text_nullable (m : Model) :
    (nullable m).text.toList = "optional".toList ++ '(' :: (m.text.toList ++ [')']) := by
  simp

theorem toList_text_array (m : Model) :
    (array m).text.toList = "array".toList ++ '(' :: (m.text.toList ++ [')']) := by
  simp

/-- An object is its word and the entries in parentheses. -/
theorem toList_text_object (entries : List (String × Model)) :
    (object entries).text.toList =
      "object".toList ++ '(' :: ((entriesText entries).toList ++ [')']) := by
  simp

/-- A function is its word, the parameters in parentheses and the result behind a space. -/
theorem toList_text_function (parameters : List Model) (result : Model) :
    (function parameters result).text.toList =
      "function".toList ++ '(' :: ((listText parameters).toList ++
        ')' :: ' ' :: result.text.toList) := by
  simp

/-- The characters of an entry. -/
def entryChars (entry : String × Model) : List Char :=
  (Text.quoted entry.1).toList ++ ':' :: ' ' :: entry.2.text.toList

/-- Behind the first model, each one has a comma and a space before it. -/
theorem toList_listText_cons (m : Model) (ms : List Model) :
    (listText (m :: ms)).toList =
      m.text.toList ++ ms.flatMap (fun m => ',' :: ' ' :: m.text.toList) := by
  induction ms generalizing m with
  | nil => simp
  | cons next rest ih => simp [ih]

theorem toList_entriesText_cons (entry : String × Model) (entries : List (String × Model)) :
    (entriesText (entry :: entries)).toList =
      entryChars entry ++ entries.flatMap (fun entry => ',' :: ' ' :: entryChars entry) := by
  induction entries generalizing entry with
  | nil => simp [entryChars]
  | cons next rest ih => simp [entryChars, ih]

end Texts

/-- No item of a row with separators is longer than the row. -/
private theorem length_le_separated {γ : Type} (print : γ → List Char) {x y : γ} {ys : List γ}
    (h : x ∈ y :: ys) :
    (print x).length ≤ (print y ++ ys.flatMap (fun y => ',' :: ' ' :: print y)).length := by
  rw [List.length_append]
  rcases List.mem_cons.mp h with rfl | h
  · exact Nat.le_add_right _ _
  -- a later item stands in the row with its separator
  · have hmem := List.mem_map_of_mem (f := fun y => ',' :: ' ' :: print y) h
    have hsublist := (List.sublist_flatten_of_mem hmem).length_le
    rw [← List.flatMap_def] at hsublist
    simp only [List.length_cons] at hsublist
    omega

/-! Each part of a model has a shorter text than the model. -/

/-- An optional layer makes the text longer. -/
theorem length_text_lt_nullable (m : Model) :
    m.text.toList.length < (nullable m).text.toList.length := by
  rw [toList_text_nullable]
  simp only [List.length_append, List.length_cons]
  omega

theorem length_text_lt_array (m : Model) : m.text.toList.length < (array m).text.toList.length := by
  rw [toList_text_array]
  simp only [List.length_append, List.length_cons]
  omega

/-- An object has a longer text than each of its entries. -/
theorem length_text_lt_object {entries : List (String × Model)} {entry : String × Model}
    (h : entry ∈ entries) : entry.2.text.toList.length < (object entries).text.toList.length := by
  rw [toList_text_object]
  cases entries with
  | nil => cases h
  | cons first rest =>
    rw [toList_entriesText_cons]
    have hentry := length_le_separated entryChars h
    simp only [entryChars, List.length_append, List.length_cons] at hentry ⊢
    omega

/-- A function has a longer text than each of its parameters. -/
theorem length_text_lt_parameter {parameters : List Model} {m : Model} (h : m ∈ parameters)
    (result : Model) :
    m.text.toList.length < (function parameters result).text.toList.length := by
  rw [toList_text_function]
  cases parameters with
  | nil => cases h
  | cons first rest =>
    rw [toList_listText_cons]
    have hparameter := length_le_separated (fun m => m.text.toList) h
    simp only [List.length_append, List.length_cons] at hparameter ⊢
    omega

theorem length_text_lt_result (parameters : List Model) (result : Model) :
    result.text.toList.length < (function parameters result).text.toList.length := by
  rw [toList_text_function]
  simp only [List.length_append, List.length_cons]
  omega

/-! Gaps in front of what is written. -/

/-- The text of a model begins with a letter, so no gap is lost in front of it. -/
theorem dropWhile_isGap_text (m : Model) (rest : List Char) :
    (m.text.toList ++ rest).dropWhile Scan.isGap = m.text.toList ++ rest := by
  cases m with
  | simple kind => cases kind <;> rfl
  | nullable inner => rw [toList_text_nullable]; rfl
  | array element => rw [toList_text_array]; rfl
  | object entries => rw [toList_text_object]; rfl
  | function parameters result => rw [toList_text_function]; rfl

/-- An entry begins with a quote. -/
theorem dropWhile_isGap_entryChars (entry : String × Model) (rest : List Char) :
    (entryChars entry ++ rest).dropWhile Scan.isGap = entryChars entry ++ rest := by
  rw [entryChars, Text.quoted, String.toList_ofList]
  rfl

/-- Entries begin with a quote, or are not there. -/
theorem dropWhile_isGap_entriesText (entries : List (String × Model)) {rest : List Char}
    (h : rest.dropWhile Scan.isGap = rest) :
    ((entriesText entries).toList ++ rest).dropWhile Scan.isGap =
      (entriesText entries).toList ++ rest := by
  cases entries with
  | nil => exact h
  | cons entry entries =>
    rw [toList_entriesText_cons, List.append_assoc, dropWhile_isGap_entryChars]

/-- Models begin with a letter, or are not there. -/
theorem dropWhile_isGap_listText (ms : List Model) {rest : List Char}
    (h : rest.dropWhile Scan.isGap = rest) :
    ((listText ms).toList ++ rest).dropWhile Scan.isGap = (listText ms).toList ++ rest := by
  cases ms with
  | nil => exact h
  | cons m ms => rw [toList_listText_cons, List.append_assoc, dropWhile_isGap_text]

end Model

namespace Verbose

open Scan

variable {type : Scan Rule Descriptor} {P : Descriptor → Prop} {text written rest : List Char}

/-! ### Alternatives that refuse -/

/-- Words are refused where none of them stands. -/
theorem refuses_words {kinds : List SimpleModel}
    (h : ∀ kind ∈ kinds, kind.name.toList.isPrefixOf? text = none) :
    ∀ choice ∈ kinds.map scanWord, choice.Refuses text := by
  intro choice hchoice
  obtain ⟨kind, hkind, rfl⟩ := List.mem_map.mp hchoice
  refine (refuses_lexeme ?_).rule
  rw [Grammar.readWord, h kind hkind]
  rfl

theorem refuses_scanSimple (h : ∀ kind : SimpleModel, kind.name.toList.isPrefixOf? text = none) :
    scanSimple.Refuses text :=
  (Refuses.bind (refuses_firstOf (refuses_words fun kind _ => h kind))).rule

theorem refuses_scanWrapped {word : String} (h : word.toList.isPrefixOf? text = none) :
    (scanWrapped word type).Refuses text :=
  (refuses_exactly h).bind

theorem refuses_scanObject (h : "object".toList.isPrefixOf? text = none) :
    (scanObject type).Refuses text :=
  (refuses_exactly h).bind.rule

theorem refuses_scanFunction (h : "function".toList.isPrefixOf? text = none) :
    (scanFunction type).Refuses text :=
  (refuses_exactly h).bind.rule

/-- A text is no descriptor if it begins with no word of the notation. -/
theorem refuses_scanNested (h : ∀ kind : SimpleModel, kind.name.toList.isPrefixOf? text = none)
    (hwords : ∀ word ∈ ["optional", "array", "object", "function"],
      word.toList.isPrefixOf? text = none) (depth : Nat) : (scanNested depth).Refuses text := by
  simp only [List.forall_mem_cons] at hwords
  obtain ⟨hoptional, harray, hobject, hfunction, -⟩ := hwords
  cases depth with
  | zero => exact refuses_refuse
  | succ depth =>
    exact (refuses_scanSimple h).orElse <| (refuses_scanWrapped hoptional).bind.rule.orElse <|
      (refuses_scanWrapped harray).bind.rule.orElse <| (refuses_scanObject hobject).orElse <|
        (refuses_scanFunction hfunction).orElse refuses_refuse

/-! ### Alternatives that read -/

/-- A word is read where it ends. -/
theorem reads_scanWord (kind : SimpleModel) (hrest : Grammar.endsWord rest = true) :
    (scanWord kind).Reads (fun found => found = kind) (kind.name.toList ++ rest) rest := by
  have hread : Grammar.readWord kind.name.toList (kind.name.toList ++ rest) = some rest := by
    rw [Grammar.readWord, isPrefixOf?_append, Option.filter_some, if_pos hrest]
  refine Reads.rule (reads_lexeme (a := kind) ?_ rfl)
  rw [hread]
  rfl

/-- A word is read if the words before it refuse it. -/
theorem reads_words (before : List SimpleModel) {after : List SimpleModel} {kind : SimpleModel}
    (hbefore : ∀ other ∈ before, other.name.toList.isPrefixOf? (kind.name.toList ++ rest) = none)
    (hrest : Grammar.endsWord rest = true) :
    (firstOf ((before ++ kind :: after).map scanWord)).Reads (fun found => found = kind)
      (kind.name.toList ++ rest) rest := by
  rw [List.map_append, List.map_cons]
  exact reads_firstOf (refuses_words hbefore) (reads_scanWord kind hrest)

/-- The name of a kind is read as the model of the kind. -/
theorem reads_scanSimple (kind : SimpleModel) (hrest : Grammar.endsWord rest = true) :
    scanSimple.Reads (Descriptor.Denotes (.simple kind)) (kind.name.toList ++ rest) rest := by
  refine Reads.rule (Reads.bind (P := fun found => found = kind) ?_ fun found hfound =>
    reads_pure (hfound ▸ Descriptor.denotes_simple kind))
  -- the words before the right one begin with other letters
  cases kind with
  | null => exact reads_words [] (by simp) hrest
  | number => exact reads_words [.null] (by simp [SimpleModel.name, List.isPrefixOf?]) hrest
  | string =>
    exact reads_words [.null, .number] (by simp [SimpleModel.name, List.isPrefixOf?]) hrest
  | boolean =>
    exact reads_words [.null, .number, .string]
      (by simp [SimpleModel.name, List.isPrefixOf?]) hrest

/-- What stands in parentheses behind a word is read with them. -/
theorem reads_scanWrapped (word : String)
    (hclear : (written ++ ')' :: rest).dropWhile isGap = written ++ ')' :: rest)
    (h : type.Reads P (written ++ ')' :: rest) (')' :: rest)) :
    (scanWrapped word type).Reads P (word.toList ++ '(' :: (written ++ ')' :: rest)) rest := by
  -- the word, the parentheses and what is in them, with gaps in between that are empty
  refine (reads_exactly _).bind fun _ _ => ?_
  refine (reads_gap rfl).bind fun _ _ => ?_
  refine (reads_exactly ['(']).bind fun _ _ => ?_
  refine (reads_gap hclear).bind fun _ _ => ?_
  refine h.bind fun d hd => ?_
  refine (reads_gap rfl).bind fun _ _ => ?_
  exact (reads_exactly [')']).bind fun _ _ => reads_pure hd

/-- What may stand behind an item of a row: the next separator, or the end of the row. -/
def EndsItem (text : List Char) : Prop := ∃ rest, text = ',' :: rest ∨ text = ')' :: rest

theorem EndsItem.dropWhile_isGap (h : EndsItem text) : text.dropWhile isGap = text := by
  obtain ⟨rest, rfl | rfl⟩ := h <;> rfl

theorem EndsItem.endsWord (h : EndsItem text) : Grammar.endsWord text = true := by
  obtain ⟨rest, rfl | rfl⟩ := h <;> rfl

/-- The entries of an object are read up to the parenthesis behind them. -/
theorem reads_entries {entries : List (String × Model)}
    (h : ∀ entry ∈ entries, ∀ r, Grammar.endsWord r = true →
      type.Reads (Descriptor.Denotes entry.2) (entry.2.text.toList ++ r) r) :
    (commaSeparated (Scan.rule .entry
      (DescriptorKey.scanEntry (DescriptorKey.scan Rule.quotedKey Rule.bareKey) type))).Reads
      (List.Forall₂ Descriptor.EntryDenotes entries)
      ((Model.entriesText entries).toList ++ ')' :: rest) (')' :: rest) := by
  cases entries with
  | nil =>
    exact reads_commaSeparated_nil
      (DescriptorKey.refuses_scanEntry (DescriptorKey.refuses_scan rfl rfl)).rule
  | cons entry entries =>
    rw [Model.toList_entriesText_cons, List.append_assoc]
    -- each entry ends before a comma or before the closing bracket
    refine reads_commaSeparated (S := EndsItem) (fun r => ⟨r, Or.inl rfl⟩) ⟨rest, Or.inr rfl⟩
      (fun r hr => hr.dropWhile_isGap) rfl
      (fun entry _ r => Model.dropWhile_isGap_entryChars entry r) fun entry hentry r hr => ?_
    exact (DescriptorKey.reads_entry (Model.dropWhile_isGap_text entry.2 r)
      (h entry hentry r hr.endsWord)).rule

/-- The parameters of a function are read up to the parenthesis behind them. -/
theorem reads_parameters {ms : List Model} (hend : type.Refuses (')' :: rest))
    (h : ∀ m ∈ ms, ∀ r, Grammar.endsWord r = true →
      type.Reads (Descriptor.Denotes m) (m.text.toList ++ r) r) :
    (commaSeparated type).Reads (List.Forall₂ Descriptor.Denotes ms)
      ((Model.listText ms).toList ++ ')' :: rest) (')' :: rest) := by
  cases ms with
  -- each parameter ends before a comma or before the closing bracket
  | nil => exact reads_commaSeparated_nil hend
  | cons m ms =>
    rw [Model.toList_listText_cons, List.append_assoc]
    exact reads_commaSeparated (S := EndsItem) (fun r => ⟨r, Or.inl rfl⟩) ⟨rest, Or.inr rfl⟩
      (fun r hr => hr.dropWhile_isGap) rfl (fun m _ r => m.dropWhile_isGap_text r)
      fun m hm r hr => h m hm r hr.endsWord

/-- An object is read with its entries, if their keys differ. -/
theorem reads_scanObject {entries : List (String × Model)}
    (h : ∀ entry ∈ entries, ∀ r, Grammar.endsWord r = true →
      type.Reads (Descriptor.Denotes entry.2) (entry.2.text.toList ++ r) r)
    (hkeys : (entries.map Prod.fst).Nodup) :
    (scanObject type).Reads (Descriptor.Denotes (.object entries))
      ("object".toList ++ '(' :: ((Model.entriesText entries).toList ++ ')' :: rest)) rest := by
  refine Reads.rule ((reads_exactly _).bind fun _ _ => ?_)
  refine (reads_gap rfl).bind fun _ _ => ?_
  refine (reads_exactly ['(']).bind fun _ _ => ?_
  refine (reads_gap (Model.dropWhile_isGap_entriesText entries rfl)).bind fun _ _ => ?_
  refine (reads_entries h).bind fun written hwritten => ?_
  refine (reads_gap rfl).bind fun _ _ => ?_
  exact (reads_exactly [')']).bind fun _ _ => reads_pure (Descriptor.denotes_object hwritten hkeys)

/-- A function is read with its parameters and its result. -/
theorem reads_scanFunction {parameters : List Model} {result : Model}
    (hend : ∀ r, type.Refuses (')' :: r))
    (hresult : type.Reads (Descriptor.Denotes result) (result.text.toList ++ rest) rest)
    (h : ∀ m ∈ parameters, ∀ r, Grammar.endsWord r = true →
      type.Reads (Descriptor.Denotes m) (m.text.toList ++ r) r) :
    (scanFunction type).Reads (Descriptor.Denotes (.function parameters result))
      ("function".toList ++ '(' :: ((Model.listText parameters).toList ++
        ')' :: ' ' :: (result.text.toList ++ rest))) rest := by
  refine Reads.rule ((reads_exactly _).bind fun _ _ => ?_)
  refine (reads_gap rfl).bind fun _ _ => ?_
  refine (reads_exactly ['(']).bind fun _ _ => ?_
  refine (reads_gap (Model.dropWhile_isGap_listText parameters rfl)).bind fun _ _ => ?_
  refine (reads_parameters (hend _) h).bind fun ds hds => ?_
  refine (reads_gap rfl).bind fun _ _ => ?_
  refine (reads_exactly [')']).bind fun _ _ => ?_
  refine (reads_gap_space (result.dropWhile_isGap_text rest)).bind fun _ _ => ?_
  exact hresult.bind fun d hd => reads_pure (Descriptor.denotes_function hds hd)

/-! ### Descriptors of each kind

The text of a model of one kind is read by the alternative for that kind, given how the texts of its
parts are read. The alternatives before it begin with other words. -/

/-- A simple model is the first alternative. -/
theorem reads_scanType_simple (kind : SimpleModel) (hrest : Grammar.endsWord rest = true) :
    (scanType type).Reads (Descriptor.Denotes (.simple kind))
      ((Model.simple kind).text.toList ++ rest) rest :=
  (reads_scanSimple kind hrest).orElse_left

/-- An optional model is read once no simple one stands there. -/
theorem reads_scanType_nullable {inner : Model}
    (h : type.Reads (Descriptor.Denotes inner) (inner.text.toList ++ ')' :: rest) (')' :: rest)) :
    (scanType type).Reads (Descriptor.Denotes (.nullable inner))
      ((Model.nullable inner).text.toList ++ rest) rest := by
  rw [Model.toList_text_nullable, List.append_assoc, List.cons_append, List.append_assoc]
  refine (refuses_scanSimple (by rintro (_ | _ | _ | _) <;> rfl)).orElse_reads ?_
  have hread := reads_scanWrapped "optional" (inner.dropWhile_isGap_text _) h
  exact (hread.map fun _ => Descriptor.Denotes.nullable).rule.orElse_left

/-- An array is read once neither stands there. -/
theorem reads_scanType_array {element : Model}
    (h : type.Reads (Descriptor.Denotes element) (element.text.toList ++ ')' :: rest)
      (')' :: rest)) :
    (scanType type).Reads (Descriptor.Denotes (.array element))
      ((Model.array element).text.toList ++ rest) rest := by
  rw [Model.toList_text_array, List.append_assoc, List.cons_append, List.append_assoc]
  refine (refuses_scanSimple (by rintro (_ | _ | _ | _) <;> rfl)).orElse_reads ?_
  refine (refuses_scanWrapped rfl).bind.rule.orElse_reads ?_
  have hread := reads_scanWrapped "array" (element.dropWhile_isGap_text _) h
  exact (hread.map fun _ => Descriptor.Denotes.array).rule.orElse_left

/-- An object is read behind the two words that wrap one model. -/
theorem reads_scanType_object {entries : List (String × Model)}
    (h : ∀ entry ∈ entries, ∀ r, Grammar.endsWord r = true →
      type.Reads (Descriptor.Denotes entry.2) (entry.2.text.toList ++ r) r)
    (hkeys : (entries.map Prod.fst).Nodup) :
    (scanType type).Reads (Descriptor.Denotes (.object entries))
      ((Model.object entries).text.toList ++ rest) rest := by
  rw [Model.toList_text_object, List.append_assoc, List.cons_append, List.append_assoc]
  refine (refuses_scanSimple (by rintro (_ | _ | _ | _) <;> rfl)).orElse_reads ?_
  refine (refuses_scanWrapped rfl).bind.rule.orElse_reads ?_
  refine (refuses_scanWrapped rfl).bind.rule.orElse_reads ?_
  exact (reads_scanObject h hkeys).orElse_left

/-- A function is read as the last alternative. -/
theorem reads_scanType_function {parameters : List Model} {result : Model}
    (hend : ∀ r, type.Refuses (')' :: r))
    (hresult : type.Reads (Descriptor.Denotes result) (result.text.toList ++ rest) rest)
    (h : ∀ m ∈ parameters, ∀ r, Grammar.endsWord r = true →
      type.Reads (Descriptor.Denotes m) (m.text.toList ++ r) r) :
    (scanType type).Reads (Descriptor.Denotes (.function parameters result))
      ((Model.function parameters result).text.toList ++ rest) rest := by
  rw [Model.toList_text_function]
  simp only [List.append_assoc, List.cons_append]
  -- the alternatives before this one all begin with another word
  refine (refuses_scanSimple (by rintro (_ | _ | _ | _) <;> rfl)).orElse_reads ?_
  refine (refuses_scanWrapped rfl).bind.rule.orElse_reads ?_
  refine (refuses_scanWrapped rfl).bind.rule.orElse_reads ?_
  refine (refuses_scanObject rfl).orElse_reads ?_
  exact (reads_scanFunction hend hresult h).orElse_left

/-! ### The round trip -/

/-- **The text of a model is read as a descriptor that denotes it**, and what stands behind it is
left, if the word it may end in ends there. -/
theorem reads_scanNested {m : Model} (hm : m.DistinctKeys) {depth : Nat}
    (hdepth : m.text.toList.length < depth) {rest : List Char}
    (hrest : Grammar.endsWord rest = true) :
    (scanNested depth).Reads (Descriptor.Denotes m) (m.text.toList ++ rest) rest := by
  -- by induction on the model: its parts have shorter texts, and are read one level further down
  induction hm generalizing depth rest with
  | simple kind =>
    obtain ⟨levels, rfl⟩ := Nat.exists_eq_add_one.mpr (Nat.zero_lt_of_lt hdepth)
    exact reads_scanType_simple kind hrest
  | @nullable inner _ ih =>
    obtain ⟨levels, rfl⟩ := Nat.exists_eq_add_one.mpr (Nat.zero_lt_of_lt hdepth)
    have hshorter := inner.length_text_lt_nullable
    exact reads_scanType_nullable (ih (by omega) rfl)
  | @array element _ ih =>
    obtain ⟨levels, rfl⟩ := Nat.exists_eq_add_one.mpr (Nat.zero_lt_of_lt hdepth)
    have hshorter := element.length_text_lt_array
    exact reads_scanType_array (ih (by omega) rfl)
  | @object entries hkeys _ ih =>
    obtain ⟨levels, rfl⟩ := Nat.exists_eq_add_one.mpr (Nat.zero_lt_of_lt hdepth)
    refine reads_scanType_object (fun entry hentry r hr => ?_) hkeys
    have hshorter := Model.length_text_lt_object hentry
    exact ih entry hentry (by omega) hr
  | @function parameters result _ _ ihparameters ihresult =>
    obtain ⟨levels, rfl⟩ := Nat.exists_eq_add_one.mpr (Nat.zero_lt_of_lt hdepth)
    -- no descriptor begins with the parenthesis behind the last parameter
    have hend (r : List Char) : (scanNested levels).Refuses (')' :: r) :=
      refuses_scanNested (by rintro (_ | _ | _ | _) <;> rfl) (by simp [List.isPrefixOf?]) levels
    have hshorter := Model.length_text_lt_result parameters result
    refine reads_scanType_function hend (ihresult (by omega) hrest) fun m hm r hr => ?_
    have hshorter := Model.length_text_lt_parameter hm result
    exact ihparameters m hm (by omega) hr

/-- A text that ends behind the text of a model is read as a whole. -/
theorem reads_scanWhole {m : Model} (hm : m.DistinctKeys) :
    (scanWhole m.text.toList).Reads (Descriptor.Denotes m) m.text.toList [] := by
  -- the reader may go down one level more than the text has characters
  have htype := @reads_scanNested m hm _ (Nat.lt_succ_self _) [] rfl
  have hclear := m.dropWhile_isGap_text []
  rw [List.append_nil] at htype hclear
  refine Reads.rule ((reads_gap hclear).bind fun _ _ => ?_)
  refine htype.bind fun d hd => ?_
  refine (reads_gap rfl).bind fun _ _ => ?_
  exact reads_finish.bind fun _ _ => reads_pure hd

/-- **The round trip.** The text of a model with distinct keys in every object denotes the model. -/
theorem parse_text {m : Model} (hm : m.DistinctKeys) : parse m.text = .ok m := by
  obtain ⟨d, hrun, hd⟩ := (reads_scanWhole hm).exists_run
  unfold parse
  rw [hrun]
  exact hd .verbose m.text

/-- Keys that are empty, that look like the notation itself and that have to be escaped. -/
theorem parse_text_escaped_keys :
    let m : Model := .object [("", .nullable .number), ("\"\\ null): ", .array .string),
      ("\x00\t\u200d", .function [.object [("", .boolean)], .null] (.object []))]
    m.DistinctKeys ∧ parse m.text = .ok m := by
  intro m
  have hparameters : ∀ p ∈ [Model.object [("", .boolean)], .null], p.DistinctKeys := by
    intro p hp
    simp only [List.mem_cons, List.not_mem_nil, or_false] at hp
    rcases hp with rfl | rfl
    · exact .object (by decide) (by simpa using .simple .boolean)
    · exact .simple .null
  -- layer by layer, and no layer declares a key twice
  have hm : m.DistinctKeys := by
    refine .object (by decide) fun entry hentry => ?_
    simp only [List.mem_cons, List.not_mem_nil, or_false] at hentry
    rcases hentry with rfl | rfl | rfl
    · exact .nullable (.simple .number)
    · exact .array (.simple .string)
    · exact .function hparameters (.object .nil (by simp))
  exact ⟨hm, parse_text hm⟩

end Verbose

end CheckedExpr
