import CheckedExpr.Proofs.TreeInduction
import CheckedExpr.Table
import Mathlib.Data.List.Perm.Subperm
import Mathlib.Data.String.Basic

/-!
# Tables stay in order

A table holds each key once, since its keys ascend. Inserting and erasing keep them so, and a key is
among them exactly if it is bound to something. So a table is a map: what it holds can be told by
looking keys up, and two tables can be compared that way.

* `Ascends.get?_eq_some_iff`: a key is bound to what stands beside it.
* `related_iff_of_ascends`: row by row and key by key, tables are related alike.
-/

namespace CheckedExpr.Table

variable {α : Type} {table : Table α}

/-- Whether the keys of a table ascend. -/
def Ascends (table : Table α) : Prop := table.keys.Pairwise (· < ·)

theorem ascends_nil : Ascends ([] : Table α) := .nil

/-- A key is there if it is bound to something. -/
theorem mem_keys_iff {key : String} : key ∈ table.keys ↔ (table.get? key).isSome = true := by
  induction table with
  | nil => simp [keys]
  | cons entry rest ih =>
    obtain ⟨other, a⟩ := entry
    rw [get?_cons, keys, List.map_cons, List.mem_cons]
    by_cases hkey : key = other
    · simp [hkey]
    · rw [if_neg hkey, ← ih]
      simp [hkey, keys]

/-- Inserting adds one key. -/
theorem mem_keys_insert {key other : String} {a : α} :
    other ∈ (insert key a table).keys ↔ other = key ∨ other ∈ table.keys := by
  rw [mem_keys_iff, get?_insert, mem_keys_iff]
  by_cases hother : other = key <;> simp [hother]

/-- Erasing adds none. -/
theorem mem_keys_of_mem_keys_erase {key other : String} (h : other ∈ (erase key table).keys) :
    other ∈ table.keys := by
  rw [mem_keys_iff, get?_erase] at h
  split at h
  · cases h
  · exact mem_keys_iff.mpr h

/-- A key is put in front of the first one that is greater. -/
theorem Ascends.insert (h : table.Ascends) (key : String) (a : α) :
    (Table.insert key a table).Ascends := by
  induction table with
  | nil => exact List.pairwise_singleton _ _
  | cons entry rest ih =>
    obtain ⟨head, b⟩ := entry
    obtain ⟨hhead, hrest⟩ := List.pairwise_cons.mp h
    unfold Table.insert
    split
    case isTrue hlt =>
      -- what is behind the head is behind the new key all the more
      refine List.pairwise_cons.mpr ⟨fun other hother => ?_, h⟩
      rcases List.mem_cons.mp hother with rfl | hother
      · exact hlt
      · exact hlt.trans (hhead other hother)
    case isFalse hnot =>
      split
      case isTrue heq =>
        subst heq
        exact List.pairwise_cons.mpr ⟨hhead, hrest⟩
      case isFalse hne =>
        refine List.pairwise_cons.mpr ⟨fun other hother => ?_, ih hrest⟩
        rcases mem_keys_insert.mp hother with rfl | hother
        · exact lt_of_le_of_ne (not_lt.mp hnot) (Ne.symm hne)
        · exact hhead other hother

/-- Erasing keeps the order. -/
theorem Ascends.erase (h : table.Ascends) (key : String) : (Table.erase key table).Ascends := by
  induction table with
  | nil => exact ascends_nil
  | cons entry rest ih =>
    obtain ⟨head, b⟩ := entry
    obtain ⟨hhead, hrest⟩ := List.pairwise_cons.mp h
    unfold Table.erase
    split
    case isTrue => exact ih hrest
    case isFalse =>
      -- no new keys come in behind the head
      refine List.pairwise_cons.mpr ⟨fun other hother => ?_, ih hrest⟩
      exact hhead other (mem_keys_of_mem_keys_erase hother)

/-- Inserting many entries keeps the order. -/
theorem Ascends.insertAll (h : table.Ascends) (pairs : List (String × α)) :
    (pairs.foldl (fun table (key, a) => Table.insert key a table) table).Ascends := by
  induction pairs generalizing table with
  | nil => exact h
  | cons pair pairs ih =>
    rw [List.foldl_cons]
    exact ih (h.insert _ _)

/-- Every table that is made of pairs is in order. -/
theorem ascends_ofPairs (pairs : List (String × α)) : (ofPairs pairs).Ascends :=
  ascends_nil.insertAll pairs

theorem mem_keys_of_mem {key : String} {a : α} (h : (key, a) ∈ table) : key ∈ table.keys :=
  List.mem_map_of_mem h

/-- A key is bound to what stands beside it, since it does not stand in two places. -/
theorem Ascends.get?_eq_some_iff (h : table.Ascends) {key : String} {a : α} :
    table.get? key = some a ↔ (key, a) ∈ table := by
  induction table with
  | nil => simp
  | cons entry rest ih =>
    obtain ⟨head, b⟩ := entry
    obtain ⟨hhead, hrest⟩ := List.pairwise_cons.mp h
    rw [get?_cons, List.mem_cons, Prod.mk.injEq]
    by_cases hkey : key = head
    · -- the key of the head does not come again behind it
      have habsent : (key, a) ∉ rest := by
        intro hmem
        have hlt : head < key := hhead key (mem_keys_of_mem hmem)
        exact hlt.ne' hkey
      rw [if_pos hkey, Option.some.injEq, or_iff_left habsent, and_iff_right hkey, eq_comm]
    · rw [if_neg hkey, ih hrest]
      simp [hkey]

/-! ### Tables in pairs -/

variable {β : Type} {R : α → β → Prop} {table' : Table β}

/-- Whether two tables have the same keys in the same places, with related values beside them. -/
def Related (R : α → β → Prop) (table : Table α) (table' : Table β) : Prop :=
  List.Forall₂ (fun entry entry' => entry.1 = entry'.1 ∧ R entry.2 entry'.2) table table'

/-- Turned round, with the relation turned round. -/
theorem Related.flip (h : Related R table table') :
    Related (fun b a => R a b) table' table := by
  have hpairs := h.imp (S := fun a b => b.1 = a.1 ∧ R a.2 b.2) fun _ _ hab => ⟨hab.1.symm, hab.2⟩
  exact hpairs.flip

/-- Two relations in a row, over the table in the middle. -/
theorem Related.comp {γ : Type} {S : β → γ → Prop} {table'' : Table γ}
    (h : Related R table table') (h' : Related S table' table'') :
    Related (Relation.Comp R S) table table'' := by
  refine (forall₂_comp h h').imp ?_
  rintro a c ⟨b, ⟨hkey, hab⟩, hkey', hbc⟩
  exact ⟨hkey.trans hkey', b.2, hab, hbc⟩

/-- Under a key there are related values, or there is nothing in either table. -/
theorem Related.get? (h : Related R table table') (key : String) :
    Option.Rel R (table.get? key) (table'.get? key) := by
  induction h with
  | nil => exact .none
  | @cons entry entry' rest rest' hentry _ ih =>
    obtain ⟨head, a⟩ := entry
    obtain ⟨head', b⟩ := entry'
    -- related entries have one key, so both lookups stop at the same place
    obtain ⟨rfl, hab⟩ := hentry
    rw [get?_cons, get?_cons]
    split
    · exact .some hab
    · exact ih

/-- As many keys that are all found in the other table are the keys of the other table, since there
is only one order for them. -/
theorem Ascends.keys_eq (h : table.Ascends) (h' : table'.Ascends)
    (hlength : table.length = table'.length) (hkeys : ∀ key ∈ table.keys, key ∈ table'.keys) :
    table.keys = table'.keys := by
  have hnodup : table.keys.Nodup := List.Pairwise.imp ne_of_lt h
  have hperm : table.keys.Perm table'.keys := by
    refine (List.subperm_of_subset hnodup hkeys).perm_of_length_le ?_
    rw [keys, keys, List.length_map, List.length_map, hlength]
  refine hperm.eq_of_pairwise ?_ h h'
  intro key key' _ _ hlt hgt
  exact absurd hgt hlt.asymm

/-- **Tables are compared as maps:** it is enough to look up every key of the one table in the
other one, if both have the same number of keys. -/
theorem related_iff_of_ascends (h : table.Ascends) (h' : table'.Ascends) :
    Related R table table' ↔ table.length = table'.length ∧
      ∀ key a, table.get? key = some a → ∃ b, table'.get? key = some b ∧ R a b := by
  constructor
  · intro hrelated
    refine ⟨hrelated.length_eq, ?_⟩
    intro key a ha
    have hrel := hrelated.get? key
    rw [ha] at hrel
    generalize hb : table'.get? key = bound at hrel
    cases hrel with
    | some hab => exact ⟨_, rfl, hab⟩
  · rintro ⟨hlength, hfound⟩
    have hkeys : table.keys = table'.keys := by
      refine h.keys_eq h' hlength ?_
      intro key hkey
      rw [mem_keys_iff, Option.isSome_iff_exists] at hkey ⊢
      obtain ⟨a, ha⟩ := hkey
      obtain ⟨b, hb, -⟩ := hfound key a ha
      exact ⟨b, hb⟩
    -- the keys stand in the same places, so what stands beside a key is what the key is bound to
    refine List.forall₂_iff_get.mpr ⟨hlength, ?_⟩
    intro i hi hi'
    rw [List.get_eq_getElem, List.get_eq_getElem]
    have hkey : table[i].1 = table'[i].1 := by
      have hplace : table.keys[i]? = table'.keys[i]? := by rw [hkeys]
      simpa [keys, hi, hi'] using hplace
    have ha : table.get? table[i].1 = some table[i].2 :=
      h.get?_eq_some_iff.mpr (List.getElem_mem hi)
    have hb : table'.get? table[i].1 = some table'[i].2 := by
      rw [hkey]
      exact h'.get?_eq_some_iff.mpr (List.getElem_mem hi')
    obtain ⟨b, hbound, hab⟩ := hfound _ _ ha
    rw [hb, Option.some.injEq] at hbound
    exact ⟨hkey, hbound ▸ hab⟩

end CheckedExpr.Table
