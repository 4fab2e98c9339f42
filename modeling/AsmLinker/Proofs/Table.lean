import Mathlib
import AsmLinker.Table

/-!
# Facts about ordered tables

Looking a name up finds the entry that the table holds under it, since no name occurs twice.
Inserting entries with new names only appends them, so that a table that grows by new names keeps
every entry in its place. Merging and assembling only ever insert new names, and their lemmas rest
on `entries_insertAll_of_fresh`.
-/

namespace AsmLinker.Table

variable {α : Type}

/-- The names that occur in both tables are none. -/
def Disjoint {β : Type} (t : Table α) (u : Table β) : Prop :=
  ∀ key ∈ u.keys, key ∉ t.keys

theorem mem_keys_iff {t : Table α} {key : String} :
    key ∈ t.keys ↔ ∃ value, (key, value) ∈ t.entries := by
  simp [keys]

theorem mem_keys_of_mem {t : Table α} {key : String} {value : α}
    (h : (key, value) ∈ t.entries) : key ∈ t.keys :=
  mem_keys_iff.mpr ⟨value, h⟩

@[simp] theorem keys_empty : (empty : Table α).keys = [] := rfl

@[simp] theorem entries_empty : (empty : Table α).entries = [] := rfl

/-- A name has at most one value. -/
theorem value_unique {t : Table α} {key : String} {v w : α}
    (hv : (key, v) ∈ t.entries) (hw : (key, w) ∈ t.entries) : v = w := by
  have hinj := List.inj_on_of_nodup_map t.nodup hv hw rfl
  exact congrArg Prod.snd hinj

/-- Looking a name up finds the entry of that name. -/
theorem get?_eq_some_iff {t : Table α} {key : String} {value : α} :
    t.get? key = some value ↔ (key, value) ∈ t.entries := by
  constructor
  · intro h
    obtain ⟨before, after, hentries, -⟩ := List.lookup_eq_some_iff.mp h
    simp [hentries]
  · intro h
    cases hfound : t.get? key with
    | none =>
      have := List.lookup_eq_none_iff.mp hfound (key, value) h
      simp at this
    | some found =>
      obtain ⟨before, after, hentries, -⟩ := List.lookup_eq_some_iff.mp hfound
      have hmem : (key, found) ∈ t.entries := by simp [hentries]
      rw [value_unique hmem h]

/-- A table that goes on where another one ends finds what that one finds. -/
theorem get?_of_prefix {t u : Table α} (h : t.entries <+: u.entries) {key : String} {value : α}
    (hfound : t.get? key = some value) : u.get? key = some value :=
  get?_eq_some_iff.mpr (h.subset (get?_eq_some_iff.mp hfound))

/-- Looking a name up finds nothing exactly when the table does not have it. -/
theorem get?_eq_none_iff {t : Table α} {key : String} : t.get? key = none ↔ key ∉ t.keys := by
  rw [Option.eq_none_iff_forall_not_mem, mem_keys_iff]
  simp only [Option.mem_def, get?_eq_some_iff, not_exists]

theorem mem_values {t : Table α} {value : α} :
    value ∈ t.values ↔ ∃ key, t.get? key = some value := by
  simp [values, get?_eq_some_iff]

/-- The order of the entries does not matter to what is found. -/
theorem get?_eq_of_perm {t u : Table α} (h : t.entries.Perm u.entries) (key : String) :
    t.get? key = u.get? key := by
  apply Option.ext
  intro value
  rw [get?_eq_some_iff, get?_eq_some_iff, h.mem_iff]

/-- A table that holds the entries of one table and then those of another, with their values
changed, finds what either of them finds. -/
theorem get?_eq_some_iff_of_entries_append {β : Type} {t w : Table α} {u : Table β} {f : β → α}
    (h : w.entries = t.entries ++ u.entries.map fun entry => (entry.1, f entry.2))
    {key : String} {value : α} :
    w.get? key = some value ↔
      t.get? key = some value ∨ ∃ old, u.get? key = some old ∧ f old = value := by
  simp only [get?_eq_some_iff, h, List.mem_append, List.mem_map, Prod.mk.injEq]
  refine or_congr_right ⟨?_, ?_⟩
  · rintro ⟨⟨_, old⟩, hmem, rfl, rfl⟩
    exact ⟨old, hmem, rfl⟩
  · rintro ⟨old, hmem, rfl⟩
    exact ⟨(key, old), hmem, rfl, rfl⟩

/-- A new name is found under its value, and every other name as before. -/
theorem get?_insert_of_not_mem {t : Table α} {key : String} (value : α) (h : key ∉ t.keys)
    (other : String) :
    (t.insert key value).get? other = if other = key then some value else t.get? other := by
  ext found
  rw [get?_eq_some_iff, entries_insert_of_not_mem value h, List.mem_append, List.mem_singleton]
  by_cases hsame : other = key
  · subst hsame
    have hold : (other, found) ∉ t.entries := fun hmem => h (mem_keys_of_mem hmem)
    simp [hold, eq_comm]
  · simp [hsame, get?_eq_some_iff]

theorem eq_of_entries {t u : Table α} (h : t.entries = u.entries) : t = u := by
  obtain ⟨entries, nodup⟩ := t
  obtain rfl : entries = u.entries := h
  rfl

/-- Entries with new names, no name twice, are appended. -/
theorem entries_insertAll_of_fresh {t : Table α} {entries : List (String × α)}
    (hnodup : (entries.map Prod.fst).Nodup) (hfresh : ∀ entry ∈ entries, entry.1 ∉ t.keys) :
    (t.insertAll entries).entries = t.entries ++ entries := by
  induction entries generalizing t with
  | nil => simp [insertAll]
  | cons entry rest ih =>
    rw [List.map_cons, List.nodup_cons] at hnodup
    have hnew : entry.1 ∉ t.keys := hfresh entry (by simp)
    have hinsert := entries_insert_of_not_mem entry.2 hnew
    have hrest : ∀ e ∈ rest, e.1 ∉ (t.insert entry.1 entry.2).keys := by
      intro e he
      rw [keys_insert, if_neg hnew, List.mem_append, List.mem_singleton]
      rintro (hold | hsame)
      · exact hfresh e (by simp [he]) hold
      · exact hnodup.1 (List.mem_map.mpr ⟨e, he, hsame⟩)
    have hstep : (t.insertAll (entry :: rest)) = (t.insert entry.1 entry.2).insertAll rest := rfl
    rw [hstep, ih hnodup.2 hrest, hinsert]
    simp

end AsmLinker.Table
