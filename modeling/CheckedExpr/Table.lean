/-!
# Tables

Finite tables from texts to values, kept as lists of pairs in the order of their keys, each key
once. Keys are ordered by their characters. What a table holds is seen through `List.lookup`.

* `get?_insert`, `get?_erase`: what inserting and erasing do to the view.
-/

namespace CheckedExpr

/-- A table from texts to values. -/
abbrev Table (α : Type) := List (String × α)

namespace Table

variable {α : Type}

/-- What a key is bound to. -/
def get? (table : Table α) (key : String) : Option α := List.lookup key table

/-- The table with a key bound to a value, in place of what it was bound to before. -/
def insert (key : String) (a : α) : Table α → Table α
  | [] => [(key, a)]
  | (other, b) :: rest =>
    -- the keys ascend, so the place of a key is before the first larger one
    if key < other then (key, a) :: (other, b) :: rest
    else if key = other then (key, a) :: rest
    else (other, b) :: insert key a rest

/-- The table without a key. -/
def erase (key : String) : Table α → Table α
  | [] => []
  | (other, b) :: rest => if other = key then erase key rest else (other, b) :: erase key rest

/-- The table of some pairs. Of several pairs with the same key the last one counts. -/
def ofPairs (pairs : List (String × α)) : Table α :=
  pairs.foldl (fun table (key, a) => insert key a table) []

/-- The keys in order. -/
def keys (table : Table α) : List String := table.map (·.1)

@[simp] theorem get?_nil (key : String) : Table.get? ([] : Table α) key = none := rfl

/-- Of several pairs with a key the first one counts. -/
theorem get?_cons (key other : String) (a : α) (rest : Table α) :
    Table.get? ((key, a) :: rest) other = if other = key then some a else rest.get? other := by
  by_cases h : other = key
  · simp [get?, h]
  · have hbeq : (other == key) = false := beq_false_of_ne h
    simp [get?, List.lookup_cons, h, hbeq]

/-- **A key is bound to what was inserted**, and no other key is touched. -/
theorem get?_insert (key other : String) (a : α) (table : Table α) :
    (insert key a table).get? other = if other = key then some a else table.get? other := by
  induction table with
  | nil => simp [insert, get?_cons]
  | cons entry rest ih =>
    -- the key comes before the head, is the head, or is inserted behind it
    obtain ⟨head, b⟩ := entry
    simp only [insert]
    split
    next => rw [get?_cons]
    next =>
      split
      next hsame =>
        subst hsame
        simp only [get?_cons]
        split <;> rfl
      next hdiffers =>
        simp only [get?_cons, ih]
        by_cases h : other = head
        · subst h
          simp [Ne.symm hdiffers]
        · simp [h]

/-- **A key that was erased is not bound**, and no other key is touched. -/
theorem get?_erase (key other : String) (table : Table α) :
    (erase key table).get? other = if other = key then none else table.get? other := by
  induction table with
  | nil => simp [erase]
  | cons entry rest ih =>
    obtain ⟨head, b⟩ := entry
    simp only [erase]
    split
    -- the head goes, and so does every later pair with the key
    next hsame =>
      subst hsame
      rw [ih, get?_cons]
      split <;> rfl
    next hdiffers =>
      by_cases h : other = head
      · subst h
        simp [get?_cons, hdiffers]
      · simp [get?_cons, h, ih]

end Table

end CheckedExpr
