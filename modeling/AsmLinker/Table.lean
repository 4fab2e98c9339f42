/-!
# Ordered tables

A table maps names to values and keeps its names in the order in which they were first inserted.
Inserting under a name that is present replaces the value and keeps the place.
-/

namespace AsmLinker

/-- A finite map from names to values, in order of first insertion. -/
structure Table (α : Type) where
  /-- The names with their values, in order. -/
  entries : List (String × α)
  /-- No name occurs twice. -/
  nodup : (entries.map Prod.fst).Nodup
deriving DecidableEq

namespace Table

variable {α : Type}

/-- The table without names. -/
def empty : Table α :=
  ⟨[], List.nodup_nil⟩

/-- The names, in order. -/
def keys (t : Table α) : List String :=
  t.entries.map Prod.fst

/-- The values, in the order of their names. -/
def values (t : Table α) : List α :=
  t.entries.map Prod.snd

/-- How many names the table has. -/
def size (t : Table α) : Nat :=
  t.entries.length

/-- The value of a name. -/
def get? (t : Table α) (key : String) : Option α :=
  t.entries.lookup key

/-- Whether the table has a name. -/
def contains (t : Table α) (key : String) : Bool :=
  t.keys.contains key

/-- The entries with the value of `key` replaced. -/
def replace (key : String) (value : α) (entries : List (String × α)) : List (String × α) :=
  entries.map fun entry => if entry.1 = key then (key, value) else entry

theorem map_fst_replace (key : String) (value : α) (entries : List (String × α)) :
    (replace key value entries).map Prod.fst = entries.map Prod.fst := by
  unfold replace
  rw [List.map_map]
  refine List.map_congr_left fun entry _ => ?_
  by_cases h : entry.1 = key <;> simp [h]

/-- Puts a value under a name: in the name's place if it is present, otherwise at the end. -/
def insert (t : Table α) (key : String) (value : α) : Table α :=
  if h : key ∈ t.keys then
    ⟨replace key value t.entries, by rw [map_fst_replace]; exact t.nodup⟩
  else
    ⟨t.entries ++ [(key, value)], by
      rw [List.map_append, List.nodup_append]
      refine ⟨t.nodup, by simp, ?_⟩
      intro a ha b hb
      have : b = key := by simpa using hb
      subst this
      intro eq
      exact h (eq ▸ ha)⟩

/-- Inserts a list of entries from left to right. -/
def insertAll (t : Table α) (entries : List (String × α)) : Table α :=
  entries.foldl (fun t entry => t.insert entry.1 entry.2) t

/-- The table of a list of entries: a repeated name keeps its first place and takes its last
value. -/
def ofList (entries : List (String × α)) : Table α :=
  empty.insertAll entries

@[simp] theorem contains_eq_true {t : Table α} {key : String} :
    t.contains key = true ↔ key ∈ t.keys := by
  simp [contains]

/-- A new name goes to the end. -/
theorem entries_insert_of_not_mem {t : Table α} {key : String} (value : α) (h : key ∉ t.keys) :
    (t.insert key value).entries = t.entries ++ [(key, value)] := by
  simp [insert, h]

/-- The names after an insertion. -/
theorem keys_insert (t : Table α) (key : String) (value : α) :
    (t.insert key value).keys = if key ∈ t.keys then t.keys else t.keys ++ [key] := by
  by_cases h : key ∈ t.keys
  · rw [if_pos h, insert, dif_pos h]
    exact map_fst_replace key value t.entries
  · rw [if_neg h, insert, dif_neg h]
    simp [keys]

end Table

end AsmLinker
