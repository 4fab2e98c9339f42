import Mathlib
import AsmLinker.Files

/-!
# Facts about file trees

The location at which a file can be made is the one that its path leads to
(`FileTree.locate_of_creatable`). Nothing on the way to it changes when something is put there, so
that the path then leads to what was put (`FileTree.find_put`).
-/

namespace AsmLinker.FileTree

variable {t : FileTree} {path : String} {location other names : List String}

/-- Looking another location up does not meet the entries that are taken away. -/
theorem lookup_filter_of_ne (entries : List (List String × FileNode)) (h : other ≠ location) :
    (entries.filter fun entry => entry.1 ≠ location).lookup other = entries.lookup other := by
  induction entries with
  | nil => rfl
  | cons entry rest ih =>
    obtain ⟨key, node⟩ := entry
    by_cases hkey : key = location
    · have hother : (other == key) = false := by simpa [hkey] using h
      rw [List.filter_cons_of_neg (by simpa using hkey), ih, List.lookup_cons, hother]
    · rw [List.filter_cons_of_pos (by simpa using hkey), List.lookup_cons, List.lookup_cons, ih]

/-- What was put at a location stands there. -/
theorem node?_put_self (t : FileTree) (location : List String) (node : FileNode) :
    (t.put location node).node? location = some node := by
  have hold : (t.entries.filter fun entry => entry.1 ≠ location).lookup location = none := by
    rw [List.lookup_eq_none_iff]
    intro entry hmem
    have hne : entry.1 ≠ location := by simpa using (List.mem_filter.mp hmem).2
    exact bne_iff_ne.mpr hne.symm
  have hlookup : (t.put location node).entries.lookup location = some node := by
    rw [put, List.lookup_append, hold]
    simp
  rw [node?, hlookup]

/-- A location without an entry is a directory if it is always one, or if an entry lies below it. -/
theorem node?_eq_directory_iff (h : t.entries.lookup other = none) :
    t.node? other = some .directory ↔
      isRoot other = true ∨ ∃ entry ∈ t.entries, other <+: entry.1 := by
  rw [node?, h]
  simp [List.any_eq_true, or_iff_not_imp_left]

/-- A directory stays where it is when something is put elsewhere. -/
theorem node?_put_of_directory (node : FileNode) (h : t.node? other = some .directory)
    (hne : other ≠ location) : (t.put location node).node? other = some .directory := by
  have hlookup : (t.put location node).entries.lookup other = t.entries.lookup other := by
    have hnew : (other == location) = false := by simpa using hne
    rw [put, List.lookup_append, lookup_filter_of_ne _ hne]
    simp [List.lookup_cons, hnew]
  cases hentry : t.entries.lookup other with
  | some found =>
    rw [node?, hentry] at h
    rw [node?, hlookup, hentry]
    exact h
  | none =>
    rw [node?_eq_directory_iff hentry] at h
    rw [node?_eq_directory_iff (hlookup.trans hentry)]
    refine h.imp_right ?_
    rintro ⟨entry, hmem, hprefix⟩
    -- an entry that is replaced lies below the same directories as the new one
    by_cases hsame : entry.1 = location
    · exact ⟨(location, node), by simp [put], hsame ▸ hprefix⟩
    · exact ⟨entry, by simp [put, hmem, hsame], hprefix⟩

theorem expectDirectory_ok_iff :
    t.expectDirectory other = .ok () ↔ t.node? other = some .directory := by
  rw [expectDirectory]
  split
  next h => simp [h]
  next h => simp [h]
  next h => simp [h]

/-- A location that can be entered is a directory, and what is reached from it is a step away. -/
theorem enter_ok {name : String} {reached : List String} (h : t.enter other name = .ok reached) :
    t.node? other = some .directory ∧ ∀ t' : FileTree, t'.node? other = some .directory →
      t'.enter other name = .ok reached := by
  rw [enter] at h
  split at h
  · cases h
  next hdirectory =>
    refine ⟨expectDirectory_ok_iff.mp hdirectory, ?_⟩
    intro t' hnode
    rw [enter, expectDirectory_ok_iff.mpr hnode]
    exact h

/-- A way through a tree goes on. -/
theorem walk_append {reached : List String} (h : t.walk other names = .ok reached)
    (more : List String) : t.walk other (names ++ more) = t.walk reached more := by
  induction names generalizing other with
  | nil =>
    cases h
    rfl
  | cons name rest ih =>
    rw [walk] at h
    rw [List.cons_append, walk]
    split at h
    · cases h
    · exact ih h

/-- A way through a tree stays open when something is put where no directory was. -/
theorem walk_put {reached : List String} (node : FileNode)
    (hlocation : t.node? location ≠ some .directory) (h : t.walk other names = .ok reached) :
    (t.put location node).walk other names = .ok reached := by
  induction names generalizing other with
  | nil => exact h
  | cons name rest ih =>
    rw [walk] at h ⊢
    split at h
    · cases h
    next next hnext =>
      obtain ⟨hdirectory, henter⟩ := enter_ok hnext
      have hne : other ≠ location := by
        rintro rfl
        exact hlocation hdirectory
      rw [henter _ (node?_put_of_directory node hdirectory hne)]
      exact ih h

/-- A path whose last component is not empty has no component left out behind it. -/
theorem eq_append_of_dropWhile {front : List String} {last : String}
    (h : names.reverse.dropWhile (· == "") = last :: front) (hlast : names.getLast? ≠ some "") :
    names = front.reverse ++ [last] := by
  rw [List.getLast?_eq_head?_reverse] at hlast
  rw [← List.reverse_reverse names]
  generalize names.reverse = reversed at h hlast ⊢
  cases reversed with
  | nil => cases h
  | cons name rest =>
    have hne : (name == "") = false := beq_eq_false_iff_ne.mpr fun hempty => hlast (hempty ▸ rfl)
    rw [List.dropWhile_cons, hne, if_neg Bool.false_ne_true] at h
    rw [h, List.reverse_cons]

/-- A file can be made only at the location that its path leads to, where no directory stands. -/
theorem locate_of_creatable (h : t.creatable path = .ok location) :
    t.locate path = .ok location ∧ t.node? location ≠ some .directory := by
  rw [creatable] at h
  rw [locate]
  split at h
  · cases h
  generalize start path = beginning at h ⊢
  obtain ⟨origin, names⟩ := beginning
  dsimp only at h ⊢
  split at h
  · cases h
  rename_i last front hnames
  split at h
  · cases h
  rename_i directory hwalk
  split at h
  · cases h
  split at h
  · cases h
  rename_i hlast
  split at h
  · cases h
  rename_i reached henter
  split at h
  · cases h
  rename_i hfree
  cases h
  refine ⟨?_, hfree⟩
  rw [eq_append_of_dropWhile hnames fun hempty => hlast (.inl hempty), walk_append hwalk, walk,
    henter]
  rfl

/-- A file that was made is what its path leads to. -/
theorem find_put (node : FileNode) (h : t.creatable path = .ok location) :
    (t.put location node).find path = .ok node := by
  obtain ⟨hlocate, hfree⟩ := locate_of_creatable h
  have hput : (t.put location node).locate path = .ok location := by
    rw [locate] at hlocate ⊢
    split at hlocate
    · cases hlocate
    · exact walk_put node hfree hlocate
  rw [find, hput]
  dsimp only
  rw [node?_put_self]

end AsmLinker.FileTree
