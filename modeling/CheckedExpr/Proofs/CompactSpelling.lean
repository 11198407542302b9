import CheckedExpr.Descriptor.Compact
import CheckedExpr.Proofs.TokenRows
import CheckedExpr.Proofs.TreeInduction
import CheckedExpr.Text.Quoted

/-!
# How models are spelled in the compact notation

A model is spelled by tokens, between which there may be any gaps: a letter or a word for a simple
kind, a mark behind what is optional or an element, braces around entries with their keys in quotes,
and the letter `f` before the parameters and the result of a function. Any part may stand in
parentheses besides.

* `Compact.Spells`: the tokens that spell a model.
* `Compact.spells_tokens`: every model is spelled by some, without a parenthesis too many.
-/

namespace CheckedExpr.Compact

/-- The tokens of a mark. -/
def Mark.tokens : Mark → List String
  | optional => ["?"]
  | array => ["[", "]"]

/-- Whether some tokens spell a model. Items in a row are listed with the tokens that spell them. -/
inductive Spells : Model → List String → Prop
  | simple (kind : SimpleModel) : Spells (.simple kind) [wordOf kind]
  | nullable {inner : Model} {tokens : List String} (h : Spells inner tokens) :
      Spells (.nullable inner) (tokens ++ ["?"])
  | array {element : Model} {tokens : List String} (h : Spells element tokens) :
      Spells (.array element) (tokens ++ ["[", "]"])
  | object {rows : List ((String × Model) × List String)}
      (h : ∀ row ∈ rows, Spells row.1.2 row.2) :
      Spells (.object (rows.map Prod.fst))
        ("\x7b" :: ([","].intercalate (rows.map fun row => Text.quoted row.1.1 :: ":" :: row.2) ++
          ["\x7d"]))
  | function {rows : List (Model × List String)} {result : Model} {tokens : List String}
      (h : ∀ row ∈ rows, Spells row.1 row.2) (hresult : Spells result tokens) :
      Spells (.function (rows.map Prod.fst) result)
        ("f" :: "(" :: ([","].intercalate (rows.map Prod.snd) ++ "->" :: (tokens ++ [")"])))
  | group {m : Model} {tokens : List String} (h : Spells m tokens) :
      Spells m ("(" :: (tokens ++ [")"]))

/-! ### A spelling of every model -/

mutual

/-- The tokens that spell a model, without parentheses around its parts. -/
def tokens : Model → List String
  | .simple kind => [wordOf kind]
  | .nullable inner => tokens inner ++ ["?"]
  | .array element => tokens element ++ ["[", "]"]
  | .object entries => "\x7b" :: ([","].intercalate (entryTokens entries) ++ ["\x7d"])
  | .function parameters result =>
    "f" :: "(" :: ([","].intercalate (listTokens parameters) ++ "->" :: (tokens result ++ [")"]))

/-- The tokens that spell some entries, one after the other. -/
def entryTokens : List (String × Model) → List (List String)
  | [] => []
  | (key, m) :: entries => (Text.quoted key :: ":" :: tokens m) :: entryTokens entries

/-- The tokens that spell some models, one after the other. -/
def listTokens : List Model → List (List String)
  | [] => []
  | m :: ms => tokens m :: listTokens ms

end

/-- The entries are spelled one by one, each behind its key. -/
theorem entryTokens_eq_map (entries : List (String × Model)) :
    entryTokens entries =
      entries.map fun entry => Text.quoted entry.1 :: ":" :: tokens entry.2 := by
  induction entries with
  | nil => rfl
  | cons entry entries ih => rw [entryTokens, ih, List.map_cons]

theorem listTokens_eq_map (ms : List Model) : listTokens ms = ms.map tokens := by
  induction ms with
  | nil => rfl
  | cons m ms ih => rw [listTokens, ih, List.map_cons]

/-- **Every model has a spelling.** -/
theorem spells_tokens (m : Model) : Spells m (tokens m) := by
  induction m using Model.tree_induction with
  | simple kind => exact .simple kind
  | nullable inner ih => exact .nullable ih
  | array element ih => exact .array ih
  | object entries ih =>
    -- each entry is listed with the tokens of its model
    have hspells := @Spells.object (entries.map fun entry => (entry, tokens entry.2))
      (List.forall_mem_map.mpr ih)
    rw [tokens, entryTokens_eq_map]
    simpa [Function.comp_def] using hspells
  | function parameters result ih ihresult =>
    -- so is each parameter
    have hspells := @Spells.function (parameters.map fun m => (m, tokens m)) _ _
      (List.forall_mem_map.mpr ih) ihresult
    rw [tokens, listTokens_eq_map]
    simpa [Function.comp_def] using hspells

end CheckedExpr.Compact
