import Mathlib
import AsmLinker.Program.Basic
import AsmLinker.Proofs.Unit.Contents

/-!
# Merging units

A unit that shares no label with a program is merged into it: its labels, data and instructions are
appended, moved by the sizes that the sections had before, and each section grows by its size in the
unit (`Merged`). A unit that shares a label is refused, and the program stays as it was. So the
contents of a program are themselves those of a well-formed unit, and everything that was merged
keeps its place while further units arrive.
-/

namespace AsmLinker

namespace Declaration

/-- Data that is moved by the size of its section fills a range that is moved by as much. -/
theorem Tiles.place (sizes : PerSection Nat) {home : Section} {start stop : Nat}
    {ds : List Declaration} (h : Tiles start ds stop) (hhome : ∀ d ∈ ds, d.home = home) :
    Tiles (sizes.get home + start) (ds.map (Program.placeData sizes)) (sizes.get home + stop) := by
  induction ds generalizing start with
  | nil =>
    obtain rfl : start = stop := h
    rfl
  | cons d rest ih =>
    obtain ⟨hoffset, hrest⟩ := h
    have hd : d.home = home := hhome d (by simp)
    refine ⟨?_, ?_⟩
    · change d.offset + sizes.get d.home = _
      rw [hoffset, hd, Nat.add_comm]
    · have hstop : (Program.placeData sizes d).stop = sizes.get home + d.stop := by
        change d.offset + sizes.get d.home + d.length = sizes.get home + (d.offset + d.length)
        rw [hd]
        omega
      rw [hstop]
      exact ih hrest fun e he => hhome e (by simp [he])

/-- Data is as long in one place as in another. -/
theorem total_place (sizes : PerSection Nat) (ds : List Declaration) :
    total (ds.map (Program.placeData sizes)) = total ds := by
  induction ds with
  | nil => rfl
  | cons d rest ih => rw [List.map_cons, total_cons, total_cons, ih]; rfl

/-- The farthest end of data that fills a range is the end of the range. -/
theorem Tiles.foldl_max {start stop : Nat} {ds : List Declaration} (h : Tiles start ds stop) :
    ds.foldl (fun size d => max size d.stop) start = stop := by
  induction ds generalizing start with
  | nil => exact h
  | cons d rest ih =>
    obtain ⟨hoffset, hrest⟩ := h
    have hle : start ≤ d.stop := hoffset ▸ Nat.le_add_right _ _
    rw [List.foldl_cons, max_eq_right hle]
    exact ih hrest

end Declaration

namespace Program

variable {p q : Program} {u : SourceUnit}

/-- The contents of a program, as those of one unit. -/
def contents (p : Program) : SourceUnit :=
  { instructions := p.instructions, labels := p.labels, data := p.data }

/-- The contents of a program are those of a well-formed unit, and its sections have their sizes. -/
structure WellFormed (p : Program) : Prop where
  /-- The contents are in order. -/
  contents : p.contents.WellFormed
  /-- The recorded sizes are those of the contents. -/
  sizes : p.sizes = p.contents.sizes

/-- What a program is when a unit has been merged into it. -/
structure Merged (p : Program) (u : SourceUnit) (q : Program) : Prop where
  /-- The labels are appended, at their positions in the program. -/
  labels : q.labels.entries =
    p.labels.entries ++ u.labels.entries.map fun entry => (entry.1, placeLabel p.sizes entry.2)
  /-- The data is appended, at its positions in the program. -/
  data : q.data.entries =
    p.data.entries ++ u.data.entries.map fun entry => (entry.1, placeData p.sizes entry.2)
  /-- The instructions are appended. -/
  instructions : q.instructions = p.instructions ++ u.instructions
  /-- Each section grows by its size in the unit. -/
  sizes : ∀ home, q.sizes.get home = p.sizes.get home + u.sizes.get home
  /-- The modules against which the program was resolved are remembered. -/
  dependencies : q.dependencies = p.dependencies
  /-- The layout is undone. -/
  layout : q.layout = none

/-! ## Growing -/

/-- A section grows to the farthest end of the data in it. -/
theorem get_grow (sizes : PerSection Nat) (ds : List Declaration) (home : Section) :
    (grow sizes ds).get home =
      (ds.filter (·.home = home)).foldl (fun size d => max size d.stop) (sizes.get home) := by
  induction ds generalizing sizes with
  | nil => rfl
  | cons d rest ih =>
    have hstep : grow sizes (d :: rest) =
        grow (sizes.set d.home (max (sizes.get d.home) d.stop)) rest := rfl
    rw [hstep, ih]
    by_cases hhome : d.home = home
    · subst hhome
      simp
    · -- a declaration of another section does not matter
      rw [PerSection.get_set_of_ne _ _ (Ne.symm hhome)]
      simp [hhome]

/-- The data of a unit in a section, at its positions in a program. -/
theorem filter_placed (sizes : PerSection Nat) (data : Table Declaration) (home : Section) :
    ((data.entries.map fun entry => (entry.1, placeData sizes entry.2)).map Prod.snd).filter
        (·.home = home) =
      (data.declarationsIn home).map (placeData sizes) := by
  unfold Table.declarationsIn Table.values
  rw [List.map_map, List.filter_map, List.filter_map, List.map_map]
  rfl

/-- Merging the data of a unit makes each section grow by what the unit has declared in it. -/
theorem get_grow_placed (sizes : PerSection Nat) (hu : u.WellFormed) (home : Section) :
    (grow sizes ((u.data.entries.map fun entry => (entry.1, placeData sizes entry.2)).map
        Prod.snd)).get home =
      sizes.get home + if home = .text then 0 else u.sizes.get home := by
  rw [get_grow, filter_placed]
  by_cases htext : home = .text
  · have hnone : u.data.declarationsIn home = [] := by
      rw [List.eq_nil_iff_forall_not_mem]
      intro d hd
      obtain ⟨⟨name, hname⟩, hhome⟩ := Table.mem_declarationsIn.mp hd
      exact hu.data_home name d hname (hhome.trans htext)
    rw [hnone, if_pos htext]
    rfl
  · have hplaced := (hu.data_filled home htext).place sizes
      fun d hd => (Table.mem_declarationsIn.mp hd).2
    rw [if_neg htext]
    exact hplaced.foldl_max

/-! ## Merging one unit -/

/-- No label is looked up in vain exactly when the tables share no name. -/
theorem find?_eq_none_iff_disjoint {α β : Type} {t : Table α} {labels : Table β} :
    labels.entries.find? (fun entry => t.contains entry.1) = none ↔ t.Disjoint labels := by
  rw [List.find?_eq_none]
  simp only [Table.contains_eq_true, Table.Disjoint, Table.mem_keys_iff (t := labels)]
  constructor
  · rintro h key ⟨value, hmem⟩
    exact h (key, value) hmem
  · rintro h ⟨key, value⟩ hmem
    exact h key ⟨value, hmem⟩

/-- Tables of labels that share no name belong to contents that share no data. -/
theorem disjoint_data (hp : p.contents.WellFormed) (hu : u.WellFormed)
    (h : p.labels.Disjoint u.labels) : p.data.Disjoint u.data := by
  intro key hkey hshared
  obtain ⟨d, hd⟩ := Table.mem_keys_iff.mp hkey
  obtain ⟨e, he⟩ := Table.mem_keys_iff.mp hshared
  obtain ⟨label, hlabel, -⟩ := hu.data_label key d (Table.get?_eq_some_iff.mpr hd)
  obtain ⟨label', hlabel', -⟩ := hp.data_label key e (Table.get?_eq_some_iff.mpr he)
  exact h key (Table.mem_keys_of_mem (Table.get?_eq_some_iff.mp hlabel))
    (Table.mem_keys_of_mem (Table.get?_eq_some_iff.mp hlabel'))

/-- Values under the names of one table can be inserted behind those of a table that shares no
name with it. -/
theorem entries_insertAll_of_disjoint {α β : Type} {t : Table α} {new : Table β} (f : β → α)
    (h : t.Disjoint new) :
    (t.insertAll (new.entries.map fun entry => (entry.1, f entry.2))).entries =
      t.entries ++ new.entries.map fun entry => (entry.1, f entry.2) := by
  apply Table.entries_insertAll_of_fresh
  · simpa [Function.comp_def] using new.nodup
  · intro entry hentry
    obtain ⟨source, hsource, rfl⟩ := List.mem_map.mp hentry
    exact h source.1 (Table.mem_keys_of_mem hsource)

/-- A unit that shares a label is refused with the first label that is shared, and the program stays
as it was. -/
theorem merge_of_shared {name : String} {label : Label}
    (h : u.labels.entries.find? (fun entry => p.labels.contains entry.1) = some (name, label)) :
    p.merge u = (.error (.duplicateLabel (some label.line) name), p) := by
  simp [merge, mergeLabels, h]

/-- A unit that shares no label is merged. -/
theorem merge_of_disjoint (hp : p.contents.WellFormed) (hu : u.WellFormed)
    (h : p.labels.Disjoint u.labels) : ∃ q, p.merge u = (.ok (), q) ∧ Merged p u q := by
  have hlabels := find?_eq_none_iff_disjoint.mpr h
  have hdata := find?_eq_none_iff_disjoint.mpr (disjoint_data hp hu h)
  refine ⟨_, by simp only [merge, mergeLabels, hlabels, mergeData, hdata]; rfl, ?_⟩
  refine ⟨?_, ?_, rfl, ?_, rfl, rfl⟩
  · exact entries_insertAll_of_disjoint (placeLabel p.sizes) h
  · exact entries_insertAll_of_disjoint (placeData p.sizes) (disjoint_data hp hu h)
  · intro home
    have hgrow := get_grow_placed p.sizes hu home
    cases home with
    | data => exact hgrow
    | string => exact hgrow
    | text =>
      -- no data lies there; it grows by the records
      rw [if_pos rfl, Nat.add_zero] at hgrow
      change (grow p.sizes _).get .text + u.instructions.length * Record.size = _
      rw [hgrow, Nat.mul_comm]
      rfl

/-- A unit is merged exactly when it shares no label, and then the program is known. -/
theorem disjoint_and_merged_of_merge (hp : p.contents.WellFormed) (hu : u.WellFormed)
    (h : p.merge u = (.ok (), q)) : p.labels.Disjoint u.labels ∧ Merged p u q := by
  cases hfind : u.labels.entries.find? (fun entry => p.labels.contains entry.1) with
  | some entry =>
    obtain ⟨name, label⟩ := entry
    rw [merge_of_shared hfind] at h
    cases h
  | none =>
    have hdisjoint := find?_eq_none_iff_disjoint.mp hfind
    obtain ⟨q', hmerge, hmerged⟩ := merge_of_disjoint hp hu hdisjoint
    rw [hmerge] at h
    cases h
    exact ⟨hdisjoint, hmerged⟩

namespace Merged

/-- The labels of a program with a unit are those of the program and those of the unit, moved. -/
theorem get?_labels (h : Merged p u q) {name : String} {label : Label} :
    q.labels.get? name = some label ↔ p.labels.get? name = some label ∨
      ∃ old, u.labels.get? name = some old ∧ placeLabel p.sizes old = label :=
  Table.get?_eq_some_iff_of_entries_append h.labels

/-- The data of a program with a unit is that of the program and that of the unit, moved. -/
theorem get?_data (h : Merged p u q) {name : String} {d : Declaration} :
    q.data.get? name = some d ↔ p.data.get? name = some d ∨
      ∃ old, u.data.get? name = some old ∧ placeData p.sizes old = d :=
  Table.get?_eq_some_iff_of_entries_append h.data

theorem declarationsIn (h : Merged p u q) (home : Section) :
    q.data.declarationsIn home =
      p.data.declarationsIn home ++ (u.data.declarationsIn home).map (placeData p.sizes) := by
  rw [← filter_placed]
  unfold Table.declarationsIn Table.values
  rw [h.data, List.map_append, List.filter_append]

/-- The contents of a section have grown by those of the unit. -/
theorem contents_sizes (h : Merged p u q) (home : Section) :
    q.contents.sizes.get home = p.contents.sizes.get home + u.sizes.get home := by
  cases home with
  | text =>
    change Record.size * q.instructions.length =
      Record.size * p.instructions.length + Record.size * u.instructions.length
    rw [h.instructions, List.length_append, Nat.mul_add]
  | data =>
    change Declaration.total (q.data.declarationsIn .data) =
      Declaration.total (p.data.declarationsIn .data) +
        Declaration.total (u.data.declarationsIn .data)
    rw [h.declarationsIn, Declaration.total_append, Declaration.total_place]
  | string =>
    change Declaration.total (q.data.declarationsIn .string) =
      Declaration.total (p.data.declarationsIn .string) +
        Declaration.total (u.data.declarationsIn .string)
    rw [h.declarationsIn, Declaration.total_append, Declaration.total_place]

/-- A well-formed program stays so when a well-formed unit is merged into it. -/
theorem wellFormed (h : Merged p u q) (hp : p.WellFormed) (hu : u.WellFormed) :
    q.WellFormed := by
  have hsizes : q.sizes = q.contents.sizes := by
    apply PerSection.ext_get
    intro home
    rw [h.sizes, h.contents_sizes, hp.sizes]
  refine ⟨⟨?_, ?_, ?_, ?_, ?_⟩, hsizes⟩
  · -- the new data begins where the old data ends, at the size of the section
    intro home hne
    have hold := hp.contents.data_filled home hne
    have hstop := hold.stop_eq
    rw [Nat.zero_add] at hstop
    have hnew := (hu.data_filled home hne).place p.sizes
      fun d hd => (Table.mem_declarationsIn.mp hd).2
    change Declaration.Tiles 0 (q.data.declarationsIn home) _
    rw [h.declarationsIn, h.contents_sizes, Declaration.tiles_append_iff, Nat.zero_add]
    change Declaration.Tiles 0 (p.data.declarationsIn home)
      (Declaration.total (p.contents.data.declarationsIn home)) ∧
      Declaration.Tiles (Declaration.total (p.contents.data.declarationsIn home)) _ _
    rw [← hstop]
    rw [Nat.add_zero, hp.sizes] at hnew
    rw [hp.sizes]
    exact ⟨hold, hnew⟩
  · intro name d hd
    rcases h.get?_data.mp hd with hd | ⟨old, hold, rfl⟩
    · exact hp.contents.data_home name d hd
    · exact hu.data_home name old hold
  · intro name d hd
    rcases h.get?_data.mp hd with hd | ⟨old, hold, rfl⟩
    · obtain ⟨label, hlabel, hplace⟩ := hp.contents.data_label name d hd
      exact ⟨label, h.get?_labels.mpr (.inl hlabel), hplace⟩
    · obtain ⟨label, hlabel, hhome, hoffset⟩ := hu.data_label name old hold
      refine ⟨_, h.get?_labels.mpr (.inr ⟨label, hlabel, rfl⟩), hhome, ?_⟩
      change label.offset + p.sizes.get label.home = old.offset + p.sizes.get old.home
      rw [hhome, hoffset]
  · intro name label hlabel
    rw [h.contents_sizes, ← hp.sizes]
    rcases h.get?_labels.mp hlabel with hlabel | ⟨old, hold, rfl⟩
    · have hle := hp.contents.label_le name label hlabel
      rw [← hp.sizes] at hle
      exact hle.trans (Nat.le_add_right _ _)
    · have hle := hu.label_le name old hold
      change old.offset + p.sizes.get old.home ≤ p.sizes.get old.home + u.sizes.get old.home
      omega
  · intro ins hmem
    change ins ∈ q.instructions at hmem
    rw [h.instructions, List.mem_append] at hmem
    rcases hmem with hmem | hmem
    · exact hp.contents.arity ins hmem
    · exact hu.arity ins hmem

/-- Merging keeps what a program holds in its place. -/
theorem extends_contents (h : Merged p u q) : p.contents.Extends q.contents where
  labels := ⟨_, h.labels.symm⟩
  data := ⟨_, h.data.symm⟩
  instructions := ⟨_, h.instructions.symm⟩

end Merged

/-! ## Merging several units -/

/-- Merges units in order, up to the first that is refused. -/
def mergeAll (p : Program) : List SourceUnit → Except Error Unit × Program
  | [] => (.ok (), p)
  | u :: rest =>
    match p.merge u with
    | (.error e, p) => (.error e, p)
    | (.ok (), p) => p.mergeAll rest

theorem wellFormed_empty : ({} : Program).WellFormed where
  contents :=
    { data_filled := fun home _ => by cases home <;> rfl
      data_home := by simp [contents, Table.get?]
      data_label := by simp [contents, Table.get?]
      label_le := by simp [contents, Table.get?]
      arity := by simp [contents] }
  sizes := rfl

theorem mergeAll_cons_ok {rest : List SourceUnit} (h : p.mergeAll (u :: rest) = (.ok (), q)) :
    ∃ p', p.merge u = (.ok (), p') ∧ p'.mergeAll rest = (.ok (), q) := by
  rw [mergeAll] at h
  split at h
  · cases h
  next p' hmerge => exact ⟨p', hmerge, h⟩

/-- Units that are all merged can be merged in two parts. -/
theorem mergeAll_append {first second : List SourceUnit}
    (h : p.mergeAll (first ++ second) = (.ok (), q)) :
    ∃ p', p.mergeAll first = (.ok (), p') ∧ p'.mergeAll second = (.ok (), q) := by
  induction first generalizing p with
  | nil => exact ⟨p, rfl, h⟩
  | cons u rest ih =>
    obtain ⟨p', hmerge, hrest⟩ := mergeAll_cons_ok h
    obtain ⟨p'', hfirst, hsecond⟩ := ih hrest
    exact ⟨p'', by rw [mergeAll, hmerge]; exact hfirst, hsecond⟩

/-- What a program is when well-formed units have been merged into it. -/
structure MergedAll (p : Program) (units : List SourceUnit) (q : Program) : Prop where
  /-- The program stays well formed. -/
  wellFormed : q.WellFormed
  /-- What it held keeps its place. -/
  extends_contents : p.contents.Extends q.contents
  /-- The instructions are appended. -/
  instructions : q.instructions = p.instructions ++ units.flatMap SourceUnit.instructions
  /-- The names are those of the program and of the units. -/
  mem_labels : ∀ name, name ∈ q.labels.keys ↔
    name ∈ p.labels.keys ∨ ∃ u ∈ units, name ∈ u.labels.keys

theorem Merged.mem_labels (h : Merged p u q) (name : String) :
    name ∈ q.labels.keys ↔ name ∈ p.labels.keys ∨ name ∈ u.labels.keys := by
  rw [Table.keys, h.labels, List.map_append, List.map_map, List.mem_append]
  rfl

theorem mergedAll_of_mergeAll {units : List SourceUnit} (hp : p.WellFormed)
    (hunits : ∀ u ∈ units, u.WellFormed) (h : p.mergeAll units = (.ok (), q)) :
    MergedAll p units q := by
  induction units generalizing p with
  | nil =>
    cases h
    exact ⟨hp, .refl _, by simp, by simp⟩
  | cons u rest ih =>
    obtain ⟨p', hmerge, hrest⟩ := mergeAll_cons_ok h
    have hu : u.WellFormed := hunits u (by simp)
    obtain ⟨-, hmerged⟩ := disjoint_and_merged_of_merge hp.contents hu hmerge
    have hall := ih (hmerged.wellFormed hp hu) (fun v hv => hunits v (by simp [hv])) hrest
    refine ⟨hall.wellFormed, hmerged.extends_contents.trans hall.extends_contents, ?_, ?_⟩
    · rw [hall.instructions, hmerged.instructions, List.flatMap_cons, List.append_assoc]
    · intro name
      rw [hall.mem_labels, hmerged.mem_labels]
      simp [or_assoc]

/-- A unit among others that are merged into an empty program is placed behind the instructions of
those before it, and everything of it stays where it was placed. -/
theorem exists_base_of_mergeAll {before after : List SourceUnit}
    (hunits : ∀ v ∈ before ++ u :: after, v.WellFormed)
    (h : ({} : Program).mergeAll (before ++ u :: after) = (.ok (), q)) :
    ∃ sizes : PerSection Nat,
      sizes.text = Record.size * (before.flatMap SourceUnit.instructions).length ∧
      (∀ name label, u.labels.get? name = some label →
        q.labels.get? name = some (placeLabel sizes label)) ∧
      ∀ name d, u.data.get? name = some d → q.data.get? name = some (placeData sizes d) := by
  obtain ⟨base, hbefore, hrest⟩ := mergeAll_append h
  obtain ⟨next, hmerge, hafter⟩ := mergeAll_cons_ok hrest
  have hu : u.WellFormed := hunits u (by simp)
  have hbase := mergedAll_of_mergeAll wellFormed_empty (fun v hv => hunits v (by simp [hv])) hbefore
  obtain ⟨-, hmerged⟩ := disjoint_and_merged_of_merge hbase.wellFormed.contents hu hmerge
  have hall := mergedAll_of_mergeAll (hmerged.wellFormed hbase.wellFormed hu)
    (fun v hv => hunits v (by simp [hv])) hafter
  refine ⟨base.sizes, ?_, ?_, ?_⟩
  · rw [hbase.wellFormed.sizes]
    change Record.size * base.instructions.length = _
    rw [hbase.instructions]
    rfl
  · intro name label hlabel
    exact Table.get?_of_prefix hall.extends_contents.labels
      (hmerged.get?_labels.mpr (.inr ⟨label, hlabel, rfl⟩))
  · intro name d hd
    exact Table.get?_of_prefix hall.extends_contents.data
      (hmerged.get?_data.mpr (.inr ⟨d, hd, rfl⟩))

end Program

end AsmLinker
