import CheckedExpr.Descriptor.Dialect
import CheckedExpr.Proofs.InferenceRules
import CheckedExpr.Proofs.TreeInduction
import CheckedExpr.Proofs.VerboseRoundTrip

/-!
# Keys stay unique

In a model that is read from a descriptor no object declares a key twice, in whichever notation it
is written: keys are decoded before they are compared, so two spellings of one key are one key.
Such models are the only ones that merging and inference make of such models, and so the text of a
model that is inferred can be read back.

* `Descriptor.distinctKeys_of_toModel`: the keys that have been met grow along the entries of an
  object, and no entry may have one of them.
* `Model.distinctKeys_iff_of_le`: models that are ordered have the same objects, up to optional
  layers, so where models meet, none of them has a key twice or all of them have.
* `Expr.distinctKeys_of_infer`: inference takes what the scope holds apart, adds layers to it and
  merges it.
* `distinctKeys_of_parse_of_merge_of_infer`: all of this, and what it gives for texts.
-/

namespace CheckedExpr

/-! ### Descriptors -/

namespace Descriptor

variable {dialect : Dialect} {source : String}

/-- The keys that are taken differ from one another and from those before them. -/
theorem nodup_of_toEntries {keys : List String}
    {written : List (Span × DescriptorKey × Descriptor)} {entries : List (String × Model)}
    (h : toEntries dialect source keys written = .ok entries) :
    (entries.map Prod.fst).Nodup ∧ ∀ key ∈ entries.map Prod.fst, key ∉ keys := by
  induction written generalizing keys entries with
  | nil =>
    obtain rfl : [] = entries := by simpa [toEntries] using h
    simp
  | cons first rest ih =>
    obtain ⟨name, m, more, -, -, hnew, hmore, rfl⟩ := toEntries_cons_eq_ok_iff.mp h
    -- the key of the first entry is one of those before the others
    obtain ⟨hnodup, hfresh⟩ := ih hmore
    have hname : name ∉ more.map Prod.fst := fun hmem => hfresh name hmem List.mem_cons_self
    refine ⟨List.nodup_cons.mpr ⟨hname, hnodup⟩, List.forall_mem_cons.mpr ⟨hnew, ?_⟩⟩
    exact fun key hkey hold => hfresh key hkey (List.mem_cons_of_mem _ hold)

/-- Each entry was made of the descriptor at its place. -/
theorem forall₂_of_toEntries {keys : List String}
    {written : List (Span × DescriptorKey × Descriptor)} {entries : List (String × Model)}
    (h : toEntries dialect source keys written = .ok entries) :
    List.Forall₂ (fun w entry => w.2.2.toModel dialect source = .ok entry.2) written entries := by
  induction written generalizing keys entries with
  | nil =>
    obtain rfl : [] = entries := by simpa [toEntries] using h
    exact .nil
  | cons first rest ih =>
    obtain ⟨name, m, more, -, hm, -, hmore, rfl⟩ := toEntries_cons_eq_ok_iff.mp h
    exact .cons hm (ih hmore)

/-- So was each of several models. -/
theorem forall₂_of_toModels {ds : List Descriptor} {ms : List Model}
    (h : toModels dialect source ds = .ok ms) :
    List.Forall₂ (fun d m => d.toModel dialect source = .ok m) ds ms := by
  induction ds generalizing ms with
  | nil =>
    obtain rfl : [] = ms := by simpa [toModels] using h
    exact .nil
  | cons d ds ih =>
    rw [toModels] at h
    obtain ⟨m, hm, h⟩ := Except.bind_eq_ok_iff.mp h
    obtain ⟨more, hmore, h⟩ := Except.bind_eq_ok_iff.mp h
    obtain rfl : m :: more = ms := Except.ok.inj h
    exact .cons hm (ih hmore)

/-- **What a descriptor denotes has distinct keys**, in either notation and at every depth. -/
theorem distinctKeys_of_toModel {d : Descriptor} {m : Model}
    (h : d.toModel dialect source = .ok m) : m.DistinctKeys := by
  induction d using Descriptor.tree_induction generalizing m with
  | simple kind =>
    rw [toModel] at h
    obtain rfl := Except.ok.inj h
    exact .simple kind
  | nullable inner ih =>
    rw [toModel] at h
    obtain ⟨inner, hinner, h⟩ := Except.bind_eq_ok_iff.mp h
    obtain rfl := Except.ok.inj h
    exact .nullable (ih hinner)
  | array element ih =>
    rw [toModel] at h
    obtain ⟨element, helement, h⟩ := Except.bind_eq_ok_iff.mp h
    obtain rfl := Except.ok.inj h
    exact .array (ih helement)
  | object written ih =>
    rw [toModel] at h
    obtain ⟨entries, hentries, h⟩ := Except.bind_eq_ok_iff.mp h
    obtain rfl := Except.ok.inj h
    -- the keys differ since none was met before, and what is below is by induction
    refine .object (nodup_of_toEntries hentries).1 ?_
    exact forall_of_forall₂ (forall₂_of_toEntries hentries) fun w hw entry hm => ih w hw hm
  | function parameters result ihparameters ihresult =>
    rw [toModel] at h
    obtain ⟨ms, hms, h⟩ := Except.bind_eq_ok_iff.mp h
    obtain ⟨m', hm', h⟩ := Except.bind_eq_ok_iff.mp h
    obtain rfl := Except.ok.inj h
    refine .function ?_ (ihresult hm')
    exact forall_of_forall₂ (forall₂_of_toModels hms) fun d hd m hm => ihparameters d hd hm

end Descriptor

/-- **What is parsed has distinct keys**, in either notation. -/
theorem Dialect.distinctKeys_of_parse {dialect : Dialect} {source : String} {m : Model}
    (h : dialect.parse source = .ok m) : m.DistinctKeys := by
  -- both notations make their models from descriptors, and this is where keys are compared
  cases dialect with
  | verbose =>
    change Verbose.parse source = .ok m at h
    unfold Verbose.parse at h
    split at h
    next descriptor _ => exact Descriptor.distinctKeys_of_toModel h
    next => cases h
  | compact =>
    change Compact.parse source = .ok m at h
    unfold Compact.parse at h
    split at h
    next descriptor _ => exact Descriptor.distinctKeys_of_toModel h
    next => cases h

/-! ### Merging -/

namespace Model

@[simp] theorem distinctKeys_nullable_iff {m : Model} :
    (nullable m).DistinctKeys ↔ m.DistinctKeys :=
  ⟨fun h => by cases h with | nullable h => exact h, .nullable⟩

@[simp] theorem distinctKeys_array_iff {m : Model} : (array m).DistinctKeys ↔ m.DistinctKeys :=
  ⟨fun h => by cases h with | array h => exact h, .array⟩

@[simp] theorem distinctKeys_stripNullable_iff {m : Model} :
    m.stripNullable.DistinctKeys ↔ m.DistinctKeys := by
  cases m with
  | nullable inner => exact distinctKeys_nullable_iff.symm
  | simple | array | object | function => exact Iff.rfl

/-- Of two models that are ordered, both have distinct keys or neither has. -/
theorem distinctKeys_iff_of_le {a b : Model} (h : a ≤ b) : a.DistinctKeys ↔ b.DistinctKeys := by
  -- by induction on the layers of the greater one; below them stands one model on both sides
  induction b using spine_induction generalizing a with
  | simple kind => rw [accepts_simple_iff.mp h]
  | nullable b ih =>
    rw [distinctKeys_nullable_iff, ← ih (le_nullable_iff.mp h), distinctKeys_stripNullable_iff]
  | array b ih =>
    obtain ⟨a, rfl, ha⟩ := le_array_iff.mp h
    rw [distinctKeys_array_iff, distinctKeys_array_iff, ih ha]
  | object entries => rw [accepts_object_iff.mp h]
  | function parameters result => rw [accepts_function_iff.mp h]

/-- Where models meet, one of them shows it of the model that they meet in. -/
theorem distinctKeys_of_isLUB {a m : Model} {s : Set Model} (h : IsLUB s m) (ha : a ∈ s)
    (hdistinct : a.DistinctKeys) : m.DistinctKeys :=
  (distinctKeys_iff_of_le (h.1 ha)).mp hdistinct

/-- What an object declares under a key is a part of it. -/
theorem distinctKeys_of_lookup {entries : List (String × Model)} {key : String} {m : Model}
    (h : (object entries).DistinctKeys) (hm : entries.lookup key = some m) : m.DistinctKeys := by
  obtain ⟨before, after, rfl, -⟩ := List.lookup_eq_some_iff.mp hm
  cases h with
  | object _ hentries => exact hentries (key, m) (by simp)

/-- The result of a function is a part of it. -/
theorem distinctKeys_of_function {parameters : List Model} {result : Model}
    (h : (function parameters result).DistinctKeys) : result.DistinctKeys := by
  cases h with
  | function _ hresult => exact hresult

end Model

/-! ### Inference -/

/-- Whether all models that a scope holds have distinct keys. -/
structure Scope.DistinctKeys (scope : Scope Model) : Prop where
  lookup : ∀ name m, scope.lookup name = some m → m.DistinctKeys
  this : scope.this.DistinctKeys

namespace Inference

open Model

/-- What a sign makes has no keys. -/
theorem distinctKeys_of_unary {op : UnaryOp} {m T : Model} (h : unary op m = .ok T) :
    T.DistinctKeys := by
  rw [unary_eq_ok_iff] at h
  cases op
  all_goals
    obtain ⟨-, rfl⟩ := h
    exact .simple _

/-- What an operator makes is a simple model, or the one in which its operands meet. -/
theorem distinctKeys_of_binary {op : BinaryOp} {m n T : Model} (h : binary op m n = .ok T)
    (hn : n.DistinctKeys) : T.DistinctKeys := by
  rcases op.group_cases with rfl | rfl | rfl | hop | hop | hop
  · exact distinctKeys_of_isLUB (binary_nullish_iff.mp h) (by simp) hn
  -- all other operators make a simple model
  · obtain ⟨-, -, -, -, -, rfl⟩ := binary_isIn_iff.mp h
    exact .simple _
  · obtain ⟨-, rfl | rfl⟩ := binary_add_iff.mp h
    · exact .simple _
    · exact .simple _
  · obtain ⟨-, -, -, rfl⟩ := (binary_equality_iff hop).mp h
    exact .simple _
  · obtain ⟨-, -, -, rfl⟩ := (binary_comparison_iff hop).mp h
    exact .simple _
  · obtain ⟨-, rfl⟩ := (binary_arithmetic_iff hop).mp h
    exact .simple _

end Inference

namespace Expr

open Inference Model

/-- **Inference keeps keys distinct.** Where the scope has no key twice in an object, no model that
is inferred has. -/
theorem distinctKeys_of_infer {scope : Scope Model} (hscope : scope.DistinctKeys) {e : Expr}
    {allowance : Allowance} {T : Model} (h : e.infer scope allowance = .ok T) :
    T.DistinctKeys := by
  induction e using Expr.tree_induction generalizing allowance T with
  | literal value =>
    obtain ⟨-, -, rfl⟩ := infer_literal_iff.mp h
    cases value with
    | null | boolean | number | string => exact .simple _
  | identifier name =>
    obtain ⟨-, -, hname⟩ := infer_identifier_iff.mp h
    exact hscope.lookup name T hname
  | this =>
    obtain ⟨-, -, rfl⟩ := infer_this_iff.mp h
    exact hscope.this
  | array elements ih =>
    -- any of the elements shows it of the model in which they meet
    obtain ⟨_, -, ms, m, hms, hne, hm, rfl⟩ := infer_array_iff.mp h
    obtain ⟨m', hm'⟩ := List.exists_mem_of_ne_nil ms hne
    have hall : ∀ m ∈ ms, m.DistinctKeys := forall_of_forall₂ hms fun e he m => ih e he
    rw [distinctKeys_array_iff]
    exact distinctKeys_of_isLUB hm hm' (hall m' hm')
  | unary op argument before _ =>
    obtain ⟨_, -, -, m, -, hT⟩ := infer_unary_iff.mp h
    exact distinctKeys_of_unary hT
  | binary op left right _ ihright =>
    obtain ⟨_, -, m, -, n, hn, hT⟩ := infer_binary_iff.mp h
    exact distinctKeys_of_binary hT (ihright hn)
  | logical op left right =>
    obtain ⟨-, -, -, -, rfl⟩ := infer_logical_iff.mp h
    exact .simple _
  | conditional test consequent alternate _ ihconsequent _ =>
    obtain ⟨_, -, -, m, hm, n, -, hT⟩ := infer_conditional_iff.mp h
    exact distinctKeys_of_isLUB hT (by simp) (ihconsequent hm)
  | sequence body ih =>
    obtain ⟨_, -, ms, hms, rfl⟩ := infer_sequence_iff.mp h
    have hall : ∀ m ∈ ms, m.DistinctKeys := forall_of_forall₂ hms fun e he m => ih e he
    -- a sequence is what its last expression is
    rw [List.getLastD_eq_getLast?]
    cases hlast : ms.getLast? with
    | none => exact .simple _
    | some m => exact hall m (List.mem_of_getLast? hlast)
  | member computed object property ihobject _ =>
    cases computed with
    | true =>
      obtain ⟨_, -, element, hobject, -, rfl⟩ := infer_index_iff.mp h
      simpa using ihobject hobject
    | false =>
      obtain ⟨_, -, key, entries, -, hobject, hkey⟩ := infer_field_iff.mp h
      exact distinctKeys_of_lookup (ihobject hobject) hkey
  | call callee arguments ihcallee _ =>
    obtain ⟨_, -, parameters, ms, hcallee, -, -⟩ := infer_call_iff.mp h
    exact distinctKeys_of_function (ihcallee hcallee)

end Expr

/-! ### Texts, merges and expressions -/

/-- **Keys are unique and stay so.** A model that is read in either notation has no key twice in an
object. Neither has a model into which such models are merged, nor one that is inferred in a scope
of such models; so what is inferred can be written down and read back. -/
theorem distinctKeys_of_parse_of_merge_of_infer :
    (∀ (dialect : Dialect) (source : String) (m : Model), dialect.parse source = .ok m →
      m.DistinctKeys) ∧
    (∀ (expected : Option Model) (actual m : Model), (∀ a ∈ expected, a.DistinctKeys) →
      actual.DistinctKeys → Model.mergeInto expected actual = .ok m → m.DistinctKeys) ∧
    ∀ (scope : Scope Model) (allowance : Allowance) (e : Expr) (T : Model), scope.DistinctKeys →
      e.infer scope allowance = .ok T → T.DistinctKeys ∧ Verbose.parse T.text = .ok T := by
  refine ⟨?parsing, ?merging, ?inferring⟩
  case parsing =>
    intro dialect source m h
    exact Dialect.distinctKeys_of_parse h
  case merging =>
    intro expected actual m _ hactual hm
    cases expected with
    | none =>
      obtain rfl := Except.ok.inj hm
      exact hactual
    | some a =>
      -- the model into which it was merged accepts it, so both have the same objects
      have hle : actual ≤ m := Model.le_of_merge_right hm
      exact (Model.distinctKeys_iff_of_le hle).mp hactual
  case inferring =>
    intro scope allowance e T hscope hT
    have hdistinct : T.DistinctKeys := Expr.distinctKeys_of_infer hscope hT
    -- the text of such a model is read as a descriptor, and the descriptor denotes the model
    obtain ⟨d, hrun, hd⟩ := (Verbose.reads_scanWhole hdistinct).exists_run
    refine ⟨hdistinct, ?_⟩
    unfold Verbose.parse
    rw [hrun]
    exact hd .verbose T.text

/-- Two spellings of one key in an object are refused. Where the keys differ, a model is read that
merges with one from the other notation, and elements that meet in it have a text. -/
theorem distinctKeys_of_parse_of_merge_of_infer_spelled :
    let compact := "\x7ba: n, \"\\x62\": s?\x7d"
    let verbose := "optional(object(\"a\": number, b: optional(string)))"
    let entry : Model := .object [("a", .number), ("b", .nullable .string)]
    let scope : Scope Model :=
      ⟨fun name => if name = "x" then some entry else none, .nullable entry⟩
    let T : Model := .array (.nullable entry)
    Compact.parse "\x7ba: n, \"\\x61\": s\x7d" =
      .error ⟨"\x7ba: n, \"\\x61\": s\x7d", .duplicateKey "a", ⟨7, 16⟩⟩ ∧
    Compact.parse compact = .ok entry ∧ Verbose.parse verbose = .ok (.nullable entry) ∧
    Model.mergeInto (some entry) (.nullable entry) = .ok (.nullable entry) ∧
    (Expr.array [.identifier "x", .this]).infer scope (.ofLimit 4) = .ok T ∧
    scope.DistinctKeys ∧ (Model.nullable entry).DistinctKeys ∧ T.DistinctKeys ∧
      Verbose.parse T.text = .ok T := by
  intro compact verbose entry scope T
  obtain ⟨hparse, hmerge, hinfer⟩ := distinctKeys_of_parse_of_merge_of_infer
  have hcompact : Compact.parse compact = .ok entry := by decide +kernel
  have hverbose : Verbose.parse verbose = .ok (.nullable entry) := by decide +kernel
  have hmerged : Model.mergeInto (some entry) (.nullable entry) = .ok (.nullable entry) := by
    decide +kernel
  have hT : (Expr.array [.identifier "x", .this]).infer scope (.ofLimit 4) = .ok T := by
    cbv
  have hentry : entry.DistinctKeys := hparse .compact compact entry hcompact
  -- the scope has the one model that was read, and the wrapped one for the binding
  have hscope : scope.DistinctKeys := by
    refine ⟨fun name m hm => ?_, hparse .verbose verbose _ hverbose⟩
    change (if name = "x" then some entry else none) = some m at hm
    split at hm
    next => cases hm; exact hentry
    next => cases hm
  have hjoin : (Model.nullable entry).DistinctKeys := by
    refine hmerge (some entry) (.nullable entry) _ ?_ hscope.this hmerged
    intro a ha
    rwa [← Option.mem_some.mp ha]
  refine ⟨by decide +kernel, hcompact, hverbose, hmerged, hT, hscope, hjoin, ?_⟩
  exact hinfer scope (.ofLimit 4) _ T hscope hT

end CheckedExpr
