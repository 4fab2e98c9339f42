import Mathlib
import AsmLinker.Proofs.Program.Permutation

/-!
# Modules in memory and in files

A provider stands for a catalogue, which has for each name the exports of a module or the reason why
there are none. A directory reads the listing of a module when it is loaded and answers only for
modules that were loaded; the memory answers for every module that it holds. Linking never asks for
the symbols of a module that it has not loaded, so that only the catalogue matters
(`Program.search_of_serves`, `Program.exported_of_serves`).

Two providers whose catalogues agree on the modules that are searched therefore resolve every
program in the same way (`Program.resolve_agrees`).
-/

namespace AsmLinker

/-! ## Listings -/

/-- A listing that cannot be read is never reported as a missing module. -/
theorem Exports.isNotFound_of_addLines {path : String} {number : Nat} {exports : Exports}
    {lines : List (List Char)} {e : Error} (h : addLines path number exports lines = .error e) :
    Program.isNotFound e = false := by
  fun_induction addLines path number exports lines with
  | case1 => cases h
  | case2 number exports line rest _ hblank ih => exact ih h
  | case3 | case4 | case5 =>
    cases h
    rfl
  | case6 number exports line rest _ hblank entry hentry value hvalue hnew ih => exact ih h

namespace ModuleDirectory

variable {d : ModuleDirectory} {module : String} {exports : Exports}

/-- The module has a listing, which is a text and gives these exports. -/
def Listed (d : ModuleDirectory) (module : String) (exports : Exports) : Prop :=
  ∃ bytes text, d.files.find (modulePath d.directory module) = .ok (.file bytes) ∧
    String.fromUTF8? ⟨bytes.toArray⟩ = some text ∧
    Exports.parse (modulePath d.directory module) text = .ok exports

/-- No file stands where the listing of the module would be. -/
def Missing (d : ModuleDirectory) (module : String) : Prop :=
  ∀ bytes, d.files.find (modulePath d.directory module) ≠ .ok (.file bytes)

theorem readExports_of_missing (h : d.Missing module) :
    d.readExports module = .error (.moduleNotFound module d.directory) := by
  have hnone : d.isPresent module = false := by
    rw [isPresent, FileTree.isFile]
    split
    next bytes hfind => exact absurd hfind (h bytes)
    · rfl
  rw [readExports, hnone]
  rfl

/-- A listing that is there is read as a text and then entry by entry. -/
theorem readExports_of_file {bytes : List UInt8}
    (h : d.files.find (modulePath d.directory module) = .ok (.file bytes)) :
    d.readExports module =
      match String.fromUTF8? ⟨bytes.toArray⟩ with
      | none => .error (.file .read (modulePath d.directory module) FileFault.notUtf8.message)
      | some text => Exports.parse (modulePath d.directory module) text := by
  have hpresent : d.isPresent module = true := by rw [isPresent, FileTree.isFile, h]
  rw [readExports, if_pos hpresent]
  cases htext : String.fromUTF8? ⟨bytes.toArray⟩ with
  | none => simp only [FileTree.readText, h, htext]
  | some text => simp only [FileTree.readText, h, htext]

/-- The exports of a module can be read exactly if it has a listing with these exports. -/
theorem readExports_ok_iff : d.readExports module = .ok exports ↔ d.Listed module exports := by
  constructor
  · intro h
    by_cases hmissing : d.Missing module
    · rw [readExports_of_missing hmissing] at h
      cases h
    · simp only [Missing, not_forall, not_not] at hmissing
      obtain ⟨bytes, hfind⟩ := hmissing
      rw [readExports_of_file hfind] at h
      split at h
      · cases h
      next text htext => exact ⟨bytes, text, hfind, htext, h⟩
  · rintro ⟨bytes, text, hfind, htext, hparse⟩
    rw [readExports_of_file hfind, htext]
    exact hparse

/-- A module is reported as missing exactly if no file stands where its listing would be. -/
theorem isNotFound_readExports_iff {e : Error} (h : d.readExports module = .error e) :
    Program.isNotFound e = true ↔ d.Missing module := by
  constructor
  · intro hnotFound bytes hfind
    rw [readExports_of_file hfind] at h
    split at h
    · cases h
      cases hnotFound
    · rw [Exports.isNotFound_of_addLines h] at hnotFound
      cases hnotFound
  · intro hmissing
    rw [readExports_of_missing hmissing] at h
    cases h
    rfl

end ModuleDirectory

/-! ## Catalogues -/

/-- A provider stands for a catalogue as long as it `holds` the modules that were loaded: loading
another one comes to what the catalogue has for it, and the symbols of one that was loaded are its
exports. -/
structure Serves {σ : Type} [SymbolProvider σ] (catalogue : String → Except Error Exports)
    (holds : List String → σ → Prop) : Prop where
  /-- A module of the catalogue can be loaded. -/
  load_ok : ∀ {loaded provider module exports}, holds loaded provider → module ∉ loaded →
    catalogue module = .ok exports →
      (SymbolProvider.load provider module).outcome = .ok () ∧
        holds (loaded ++ [module]) (SymbolProvider.load provider module).provider
  /-- Any other one is refused as the catalogue says. -/
  load_error : ∀ {loaded provider module e}, holds loaded provider → module ∉ loaded →
    catalogue module = .error e →
      (SymbolProvider.load provider module).outcome = .error e ∧
        holds loaded (SymbolProvider.load provider module).provider
  /-- A module that was loaded has the symbols that it exports. -/
  symbol : ∀ {loaded provider module exports}, holds loaded provider → module ∈ loaded →
    catalogue module = .ok exports →
      ∀ name, SymbolProvider.symbol? provider module name = exports.get? name

/-- The modules that the memory holds. -/
def MemoryModules.catalogue (m : MemoryModules) (module : String) : Except Error Exports :=
  match m.modules.get? module with
  | some exports => .ok exports
  | none => .error (.moduleNotFound module "<memory>")

namespace MemoryModules

variable {m : MemoryModules} {module : String}

theorem catalogue_eq_ok_iff {exports : Exports} :
    m.catalogue module = .ok exports ↔ m.modules.get? module = some exports := by
  rw [catalogue]
  cases m.modules.get? module <;> simp

theorem catalogue_eq_error_iff {e : Error} : m.catalogue module = .error e ↔
    m.modules.get? module = none ∧ e = .moduleNotFound module "<memory>" := by
  rw [catalogue]
  cases m.modules.get? module <;> simp [eq_comm]

/-- The memory does not change when its modules are loaded. -/
theorem serves (m : MemoryModules) :
    Serves m.catalogue fun _ (provider : MemoryModules) => provider = m where
  load_ok := by
    rintro loaded m module exports rfl - hexports
    have hmem : module ∈ m.modules.keys :=
      Table.mem_keys_of_mem (Table.get?_eq_some_iff.mp (catalogue_eq_ok_iff.mp hexports))
    have hload : SymbolProvider.load m module = { outcome := .ok (), provider := m } :=
      if_pos (Table.contains_eq_true.mpr hmem)
    rw [hload]
    exact ⟨rfl, rfl⟩
  load_error := by
    rintro loaded m module e rfl - he
    obtain ⟨hnone, rfl⟩ := catalogue_eq_error_iff.mp he
    have hload : SymbolProvider.load m module =
        { outcome := .error (.moduleNotFound module "<memory>"), provider := m } :=
      if_neg (mt Table.contains_eq_true.mp (Table.get?_eq_none_iff.mp hnone))
    rw [hload]
    exact ⟨rfl, rfl⟩
  symbol := by
    rintro loaded m module exports rfl - hexports name
    show (m.modules.get? module).bind (·.get? name) = exports.get? name
    rw [catalogue_eq_ok_iff.mp hexports, Option.bind_some]

end MemoryModules

namespace ModuleDirectory

/-- The directory when these modules have been loaded, and no others. -/
structure Holds (d : ModuleDirectory) (loaded : List String) (provider : ModuleDirectory) :
    Prop where
  /-- It is the same directory. -/
  directory : provider.directory = d.directory
  /-- The files are as they were. -/
  files : provider.files = d.files
  /-- It knows the modules that were loaded. -/
  keys : ∀ module, module ∈ provider.loaded.keys ↔ module ∈ loaded
  /-- Each of them is known by the exports that were read. -/
  exports : ∀ module ∈ loaded, ∀ exports, d.readExports module = .ok exports →
    provider.loaded.get? module = some exports

variable {d provider : ModuleDirectory} {loaded : List String}

theorem holds_fresh (h : d.loaded = .empty) : d.Holds [] d :=
  ⟨rfl, rfl, by simp [h], by simp⟩

/-- What is read does not depend on what was loaded before. -/
theorem Holds.readExports_eq (h : d.Holds loaded provider) (module : String) :
    provider.readExports module = d.readExports module := by
  obtain ⟨directory, files, _⟩ := provider
  obtain rfl : directory = d.directory := h.directory
  obtain rfl : files = d.files := h.files
  rfl

/-- The exports of a module that is new are read and remembered. -/
theorem load_of_ok {module : String} {exports : Exports} (hnew : module ∉ d.loaded.keys)
    (h : d.readExports module = .ok exports) :
    (d.load module).outcome = .ok () ∧
      (d.load module).provider = { d with loaded := d.loaded.insert module exports } := by
  rw [load, if_neg (mt Table.contains_eq_true.mp hnew), h]
  exact ⟨rfl, rfl⟩

/-- A module whose exports cannot be read is refused, and nothing is remembered. -/
theorem load_of_error {module : String} {e : Error} (hnew : module ∉ d.loaded.keys)
    (h : d.readExports module = .error e) :
    (d.load module).outcome = .error e ∧ (d.load module).provider = d := by
  rw [load, if_neg (mt Table.contains_eq_true.mp hnew), h]
  exact ⟨rfl, rfl⟩

/-- A directory stands for what can be read in it. -/
theorem serves (d : ModuleDirectory) : Serves d.readExports d.Holds where
  load_ok := by
    intro loaded provider module exports h hnew hexports
    have hkeys : module ∉ provider.loaded.keys := mt (h.keys module).mp hnew
    obtain ⟨houtcome, hprovider⟩ :=
      load_of_ok hkeys ((h.readExports_eq module).trans hexports)
    refine ⟨houtcome, ?_⟩
    show d.Holds (loaded ++ [module]) (provider.load module).provider
    rw [hprovider]
    -- one more name is known, and the modules before it keep their exports
    refine ⟨h.directory, h.files, ?_, ?_⟩
    · intro other
      rw [Table.keys_insert, if_neg hkeys, List.mem_append, List.mem_append, h.keys]
    · intro other hother found hfound
      rw [Table.get?_insert_of_not_mem exports hkeys]
      split
      next hsame =>
        rw [hsame, hexports] at hfound
        cases hfound
        rfl
      next hne =>
        have hold : other ∈ loaded := by simpa [hne] using hother
        exact h.exports other hold found hfound
  load_error := by
    intro loaded provider module e h hnew he
    obtain ⟨houtcome, hprovider⟩ :=
      load_of_error (mt (h.keys module).mp hnew) ((h.readExports_eq module).trans he)
    refine ⟨houtcome, ?_⟩
    show d.Holds loaded (provider.load module).provider
    rw [hprovider]
    exact h
  symbol := by
    intro loaded provider module exports h hloaded hexports name
    show (provider.loaded.get? module).bind (·.get? name) = exports.get? name
    rw [h.exports module hloaded exports hexports, Option.bind_some]

end ModuleDirectory

namespace Program

variable {σ τ : Type} [SymbolProvider σ] [SymbolProvider τ] {p : Program} {modules : List String}
  {provider : σ} {provider' : τ} {catalogue catalogue' : String → Except Error Exports}
  {holds : List String → σ → Prop} {optional : String → Bool} {names names' loaded : List String}

/-! ## Loading from a catalogue -/

/-- Chooses among the modules of a catalogue those that are searched, behind those that are there
already: each name once, in order, and without an optional one that is missing. -/
def select (catalogue : String → Except Error Exports) (optional : String → Bool) :
    List String → List String → Except Error (List String)
  | [], loaded => .ok loaded
  | name :: rest, loaded =>
    if name ∈ loaded then select catalogue optional rest loaded
    else
      match catalogue name with
      | .ok _ => select catalogue optional rest (loaded ++ [name])
      | .error e =>
        if isNotFound e && optional name then select catalogue optional rest loaded else .error e

/-- Whether a module may be missing: the standard module, if nobody asked for it. -/
def mayBeMissing (modules : List String) (name : String) : Bool :=
  decide (standardModule ∉ modules) && name == standardModule

theorem mem_searchList {name : String} :
    name ∈ searchList modules ↔ name ∈ modules ∨ name = standardModule := by
  rw [searchList]
  split
  next hnamed =>
    refine ⟨.inl, ?_⟩
    rintro (hmem | rfl)
    · exact hmem
    · exact hnamed
  · rw [List.mem_append, List.mem_singleton]

/-- A module that is searched must be there exactly if somebody asked for it. -/
theorem mayBeMissing_eq_false_iff {name : String} (h : name ∈ searchList modules) :
    mayBeMissing modules name = false ↔ name ∈ modules := by
  rw [mayBeMissing, Bool.and_eq_false_iff, decide_eq_false_iff_not, not_not, beq_eq_false_iff_ne]
  constructor
  · rintro (hnamed | hother)
    · obtain hmem | rfl := mem_searchList.mp h
      · exact hmem
      · exact hnamed
    · exact (mem_searchList.mp h).resolve_right hother
  · intro hmem
    by_cases hstandard : name = standardModule
    · exact .inl (hstandard ▸ hmem)
    · exact .inr hstandard

/-- Loading modules comes to what is chosen from the catalogue. -/
theorem loadAll_of_serves (hserves : Serves catalogue holds) (hholds : holds loaded provider)
    (optional : String → Bool) (names : List String) (log : List LogRecord) :
    match select catalogue optional names loaded with
    | .error e => (loadAll optional names loaded provider log).1.outcome = .error e
    | .ok chosen =>
      (loadAll optional names loaded provider log).1.outcome = .ok () ∧
        (loadAll optional names loaded provider log).2 = chosen ∧
        holds chosen (loadAll optional names loaded provider log).1.provider := by
  induction names generalizing loaded provider log with
  | nil => exact ⟨rfl, rfl, hholds⟩
  | cons name rest ih =>
    rw [select, loadAll]
    by_cases hloaded : name ∈ loaded
    · rw [if_pos hloaded, if_pos hloaded]
      exact ih hholds log
    rw [if_neg hloaded, if_neg hloaded]
    -- a new name is asked of the provider, which answers as the catalogue has it
    cases hentry : catalogue name with
    | ok exports =>
      obtain ⟨houtcome, hnext⟩ := hserves.load_ok hholds hloaded hentry
      simp only [houtcome]
      exact ih hnext _
    | error e =>
      obtain ⟨houtcome, hnext⟩ := hserves.load_error hholds hloaded hentry
      simp only [houtcome]
      by_cases hskip : (isNotFound e && optional name) = true
      · rw [if_pos hskip, if_pos hskip]
        exact ih hnext _
      · rw [if_neg hskip, if_neg hskip]

/-- The modules that are searched for a program, by a catalogue. -/
def chosen (catalogue : String → Except Error Exports) (modules : List String) :
    Except Error (List String) :=
  select catalogue (mayBeMissing modules) (searchList modules) []

/-- A module that cannot be loaded is what the search comes to. -/
theorem search_of_chosen_error (hserves : Serves catalogue holds) (hholds : holds [] provider)
    {e : Error} (h : chosen catalogue modules = .error e) :
    (search modules provider).1.outcome = .error e := by
  have hload := loadAll_of_serves hserves hholds (mayBeMissing modules) (searchList modules) []
  rw [chosen] at h
  rw [h] at hload
  exact hload

/-- The modules that are chosen are loaded. -/
theorem search_of_chosen_ok (hserves : Serves catalogue holds) (hholds : holds [] provider)
    (h : chosen catalogue modules = .ok names) :
    (search modules provider).1.outcome = .ok () ∧ (search modules provider).2 = names ∧
      holds names (search modules provider).1.provider := by
  have hload := loadAll_of_serves hserves hholds (mayBeMissing modules) (searchList modules) []
  rw [chosen] at h
  rw [h] at hload
  exact hload

/-- A module of the catalogue, or an optional one that is missing. -/
def Available (catalogue : String → Except Error Exports) (optional : String → Bool)
    (name : String) : Prop :=
  (∃ exports, catalogue name = .ok exports) ∨
    ∃ e, catalogue name = .error e ∧ isNotFound e = true ∧ optional name = true

/-- Modules can be chosen exactly if each that is not there already is available. -/
theorem select_ok_iff : (∃ chosen, select catalogue optional names loaded = .ok chosen) ↔
    ∀ name ∈ names, name ∈ loaded ∨ Available catalogue optional name := by
  induction names generalizing loaded with
  | nil => simp [select]
  | cons name rest ih =>
    rw [List.forall_mem_cons, select]
    by_cases hloaded : name ∈ loaded
    · simp [hloaded, ih]
    rw [if_neg hloaded]
    cases hentry : catalogue name with
    | ok exports =>
      have havailable : Available catalogue optional name := .inl ⟨exports, hentry⟩
      simp only [ih, havailable, or_true, true_and]
      refine forall₂_congr fun other _ => ?_
      -- the module that was chosen is there for the rest, and it is available
      by_cases hsame : other = name
      · simp [hsame, havailable]
      · simp [hsame]
    | error e =>
      by_cases hskip : (isNotFound e && optional name) = true
      · have havailable : Available catalogue optional name :=
          .inr ⟨e, hentry, Bool.and_eq_true_iff.mp hskip⟩
        simp only [if_pos hskip, ih, havailable, or_true, true_and]
      · have hnot : ¬ Available catalogue optional name := by
          rintro (⟨exports, hexports⟩ | ⟨e', he', hboth⟩)
          · rw [hentry] at hexports
            cases hexports
          · rw [hentry] at he'
            cases he'
            exact hskip (Bool.and_eq_true_iff.mpr hboth)
        simp only [if_neg hskip]
        simp [hloaded, hnot]

/-- What is chosen are the modules that were there already, and those of the catalogue that have one
of the names. -/
theorem mem_of_select (h : select catalogue optional names loaded = .ok names')
    (module : String) : module ∈ names' ↔
      module ∈ loaded ∨ module ∈ names ∧ ∃ exports, catalogue module = .ok exports := by
  induction names generalizing loaded with
  | nil =>
    cases h
    simp
  | cons name rest ih =>
    rw [select] at h
    split at h
    next hloaded =>
      rw [ih h, List.mem_cons]
      refine ⟨Or.imp_right (And.imp_left .inr), ?_⟩
      rintro (hold | ⟨rfl | hrest, hexports⟩)
      · exact .inl hold
      · exact .inl hloaded
      · exact .inr ⟨hrest, hexports⟩
    next hnew =>
      split at h
      next exports hentry =>
        rw [ih h, List.mem_append, List.mem_singleton, List.mem_cons, or_assoc]
        refine or_congr_right ⟨?_, ?_⟩
        · rintro (rfl | ⟨hrest, hexports⟩)
          · exact ⟨.inl rfl, exports, hentry⟩
          · exact ⟨.inr hrest, hexports⟩
        · rintro ⟨rfl | hrest, hexports⟩
          · exact .inl rfl
          · exact .inr ⟨hrest, hexports⟩
      next e hentry =>
        split at h
        · rw [ih h, List.mem_cons]
          refine or_congr_right ⟨And.imp_left .inr, ?_⟩
          rintro ⟨rfl | hrest, hexports⟩
          · -- a module that is missing has no exports
            obtain ⟨exports, hexports⟩ := hexports
            rw [hentry] at hexports
            cases hexports
          · exact ⟨hrest, hexports⟩
        · cases h

/-- The modules of a directory can be loaded exactly if each of the given ones has a listing, and
the standard module, if it is not one of them, has a listing or no file at all. -/
theorem chosen_ok_iff {d : ModuleDirectory} :
    (∃ names, chosen d.readExports modules = .ok names) ↔
      (∀ module ∈ modules, ∃ exports, d.Listed module exports) ∧
        (standardModule ∉ modules →
          d.Missing standardModule ∨ ∃ exports, d.Listed standardModule exports) := by
  rw [chosen, select_ok_iff]
  constructor
  · intro h
    refine ⟨?_, ?_⟩
    · intro module hmem
      have hsearched := mem_searchList.mpr (.inl hmem)
      obtain hnone | ⟨exports, hexports⟩ | ⟨e, -, -, hoptional⟩ := h module hsearched
      · cases hnone
      · exact ⟨exports, ModuleDirectory.readExports_ok_iff.mp hexports⟩
      · rw [(mayBeMissing_eq_false_iff hsearched).mpr hmem] at hoptional
        cases hoptional
    · intro _
      obtain hnone | ⟨exports, hexports⟩ | ⟨e, he, hnotFound, -⟩ :=
        h standardModule (mem_searchList.mpr (.inr rfl))
      · cases hnone
      · exact .inr ⟨exports, ModuleDirectory.readExports_ok_iff.mp hexports⟩
      · exact .inl ((ModuleDirectory.isNotFound_readExports_iff he).mp hnotFound)
  · rintro ⟨hgiven, hstandard⟩ module hsearched
    right
    by_cases hmem : module ∈ modules
    · obtain ⟨exports, hlisted⟩ := hgiven module hmem
      exact .inl ⟨exports, ModuleDirectory.readExports_ok_iff.mpr hlisted⟩
    · -- the only module that is searched though nobody asked for it
      obtain rfl : module = standardModule := (mem_searchList.mp hsearched).resolve_left hmem
      obtain hmissing | ⟨exports, hlisted⟩ := hstandard hmem
      · refine .inr ⟨_, ModuleDirectory.readExports_of_missing hmissing, rfl, ?_⟩
        exact Bool.eq_true_of_not_eq_false (mt (mayBeMissing_eq_false_iff hsearched).mp hmem)
      · exact .inl ⟨exports, ModuleDirectory.readExports_ok_iff.mpr hlisted⟩

/-- The value that a module of a catalogue gives to a name. -/
def valueIn (catalogue : String → Except Error Exports) (name module : String) : Option UInt64 :=
  match catalogue module with
  | .ok exports => exports.get? name
  | .error _ => none

theorem findSome?_congr {f g : String → Option UInt64}
    (h : ∀ module ∈ names, f module = g module) : names.findSome? f = names.findSome? g := by
  induction names with
  | nil => rfl
  | cons name rest ih =>
    obtain ⟨hfirst, hrest⟩ := List.forall_mem_cons.mp h
    rw [List.findSome?_cons, List.findSome?_cons, hfirst, ih hrest]

/-- A name that the program does not define has the value that the first of the chosen modules gives
to it. -/
theorem exported_of_serves (hserves : Serves catalogue holds) (hholds : holds [] provider)
    (h : chosen catalogue modules = .ok names) (name : String) :
    exported modules provider name = names.findSome? (valueIn catalogue name) := by
  obtain ⟨-, hloaded, hserving⟩ := search_of_chosen_ok hserves hholds h
  rw [exported, hloaded]
  apply findSome?_congr
  intro module hmem
  obtain hnone | ⟨-, exports, hexports⟩ := (mem_of_select h module).mp hmem
  · cases hnone
  · rw [valueIn, hexports]
    exact hserves.symbol hserving hmem hexports name

/-! ## Loading from a directory -/

variable {d : ModuleDirectory}

/-- The search in a fresh directory goes well exactly if each of the given modules has a listing,
and the standard module, if it is not one of them, has a listing or no file at all. -/
theorem search_directory_ok_iff (hfresh : d.loaded = .empty) :
    (search modules d).1.outcome = .ok () ↔
      (∀ module ∈ modules, ∃ exports, d.Listed module exports) ∧
        (standardModule ∉ modules →
          d.Missing standardModule ∨ ∃ exports, d.Listed standardModule exports) := by
  rw [← chosen_ok_iff]
  cases hchosen : chosen d.readExports modules with
  | error e =>
    have hfailed := search_of_chosen_error d.serves (ModuleDirectory.holds_fresh hfresh) hchosen
    simp [hfailed]
  | ok names =>
    have hok := search_of_chosen_ok d.serves (ModuleDirectory.holds_fresh hfresh) hchosen
    simp [hok.1]

/-- When the modules of a fresh directory have been loaded, the names with a value are those that
stand in the listing of a module that is searched. -/
theorem exists_exported_iff (hfresh : d.loaded = .empty)
    (hload : (search modules d).1.outcome = .ok ()) (name : String) :
    (∃ value, exported modules d name = some value) ↔
      ∃ module ∈ searchList modules, ∃ exports, d.Listed module exports ∧ name ∈ exports.keys := by
  obtain ⟨names, hchosen⟩ := chosen_ok_iff.mpr ((search_directory_ok_iff hfresh).mp hload)
  rw [exported_of_serves d.serves (ModuleDirectory.holds_fresh hfresh) hchosen,
    ← Option.isSome_iff_exists, List.findSome?_isSome_iff]
  constructor
  · rintro ⟨module, hmem, hvalue⟩
    obtain hnone | ⟨hsearched, exports, hexports⟩ := (mem_of_select hchosen module).mp hmem
    · cases hnone
    · refine ⟨module, hsearched, exports, ModuleDirectory.readExports_ok_iff.mp hexports, ?_⟩
      rw [valueIn, hexports] at hvalue
      obtain ⟨value, hvalue⟩ := Option.isSome_iff_exists.mp hvalue
      exact Table.mem_keys_of_mem (Table.get?_eq_some_iff.mp hvalue)
  · rintro ⟨module, hsearched, exports, hlisted, hname⟩
    have hexports := ModuleDirectory.readExports_ok_iff.mpr hlisted
    obtain ⟨value, hvalue⟩ := Table.mem_keys_iff.mp hname
    refine ⟨module, (mem_of_select hchosen module).mpr (.inr ⟨hsearched, exports, hexports⟩), ?_⟩
    rw [valueIn, hexports]
    exact Option.isSome_iff_exists.mpr ⟨value, Table.get?_eq_some_iff.mpr hvalue⟩

/-! ## Two providers -/

/-- Two catalogues have modules of a name that give the same values, or they both do not have it. -/
inductive SameEntry (module : String) : Except Error Exports → Except Error Exports → Prop
  | listed {exports exports' : Exports} (hsame : ∀ name, exports.get? name = exports'.get? name) :
      SameEntry module (.ok exports) (.ok exports')
  | missing (place place' : String) :
      SameEntry module (.error (.moduleNotFound module place))
        (.error (.moduleNotFound module place'))

theorem SameEntry.valueIn_eq {module : String}
    (h : SameEntry module (catalogue module) (catalogue' module)) (name : String) :
    valueIn catalogue name module = valueIn catalogue' name module := by
  rw [valueIn, valueIn]
  generalize catalogue module = entry at h
  generalize catalogue' module = entry' at h
  cases h with
  | listed hsame => exact hsame name
  | missing => rfl

/-- Two choices among names come to the same: they choose the same modules, or report the same one,
which is not optional and which both catalogues do not have. -/
inductive SameChoice (catalogue catalogue' : String → Except Error Exports)
    (optional : String → Bool) (names : List String) :
    Except Error (List String) → Except Error (List String) → Prop
  | chosen (modules : List String) :
      SameChoice catalogue catalogue' optional names (.ok modules) (.ok modules)
  | missing {module place place' : String} (hmem : module ∈ names)
      (hoptional : optional module = false)
      (hentry : catalogue module = .error (.moduleNotFound module place))
      (hentry' : catalogue' module = .error (.moduleNotFound module place')) :
      SameChoice catalogue catalogue' optional names (.error (.moduleNotFound module place))
        (.error (.moduleNotFound module place'))

theorem SameChoice.cons {choice choice' : Except Error (List String)} (name : String)
    (h : SameChoice catalogue catalogue' optional names choice choice') :
    SameChoice catalogue catalogue' optional (name :: names) choice choice' := by
  cases h with
  | chosen modules => exact .chosen modules
  | missing hmem hoptional hentry hentry' =>
    exact .missing (List.mem_cons_of_mem name hmem) hoptional hentry hentry'

/-- Choices from catalogues that agree on the names come to the same. -/
theorem select_agrees (h : ∀ name ∈ names, SameEntry name (catalogue name) (catalogue' name)) :
    SameChoice catalogue catalogue' optional names (select catalogue optional names loaded)
      (select catalogue' optional names loaded) := by
  induction names generalizing loaded with
  | nil => exact .chosen loaded
  | cons name rest ih =>
    obtain ⟨hfirst, hrest⟩ := List.forall_mem_cons.mp h
    rw [select, select]
    by_cases hloaded : name ∈ loaded
    · simp only [if_pos hloaded]
      exact (ih hrest).cons name
    simp only [if_neg hloaded]
    generalize hentry : catalogue name = entry at hfirst
    generalize hentry' : catalogue' name = entry' at hfirst
    cases hfirst with
    | listed => exact (ih hrest).cons name
    | missing place place' =>
      cases hoptional : optional name with
      | true => exact (ih hrest).cons name
      | false => exact .missing List.mem_cons_self hoptional hentry hentry'

/-- What resolving comes to when the modules have been loaded. -/
theorem resolve_of_search_ok (h : (search modules provider).1.outcome = .ok ()) :
    ((p.resolve modules provider).outcome, (p.resolve modules provider).program) =
      match Instruction.bindAll (p.finds modules provider) p.instructions with
      | (.error e, instructions) => (.error e, { p with instructions })
      | (.ok (), instructions) =>
        (.ok (), { p with
          instructions
          dependencies := (search modules provider).2
          layout := some (.ofSizes p.sizes) }) := by
  have hresolves := resolve_resolves p modules provider
  generalize (p.resolve modules provider).outcome = outcome at hresolves ⊢
  generalize (p.resolve modules provider).program = q at hresolves ⊢
  cases hresolves with
  | unloaded hload =>
    rw [h] at hload
    cases hload
  | unbound _ hbind | bound _ hbind => rw [hbind]

/-- A program is resolved in the same way by providers that have loaded the same modules with the
same values. -/
theorem resolve_congr (h : (search modules provider).1.outcome = .ok ())
    (h' : (search modules provider').1.outcome = .ok ())
    (hloaded : (search modules provider).2 = (search modules provider').2)
    (hexported : ∀ name, exported modules provider name = exported modules provider' name) :
    (p.resolve modules provider).outcome = (p.resolve modules provider').outcome ∧
      (p.resolve modules provider).program = (p.resolve modules provider').program := by
  have hfinds : p.finds modules provider = p.finds modules provider' := by
    funext name
    rw [finds, finds, hexported]
  have hboth := resolve_of_search_ok (p := p) h
  rw [hfinds, hloaded, ← resolve_of_search_ok h'] at hboth
  exact Prod.mk.inj hboth

/-- A module that cannot be loaded leaves the program as it was. -/
theorem program_of_search_error {e : Error} (h : (search modules provider).1.outcome = .error e) :
    (p.resolve modules provider).program = p := by
  have hresolves := resolve_resolves p modules provider
  generalize (p.resolve modules provider).outcome = outcome at hresolves
  generalize (p.resolve modules provider).program = q at hresolves ⊢
  cases hresolves with
  | unloaded => rfl
  | unbound hload | bound hload =>
    rw [h] at hload
    cases hload

/-- When the modules have been loaded, only a reference can fail. -/
theorem unresolved_of_resolve {e : Error} (h : (search modules provider).1.outcome = .ok ())
    (herror : (p.resolve modules provider).outcome = .error e) :
    ∃ line name text, e = .unresolved line name text := by
  have hresolves := resolve_resolves p modules provider
  rw [herror] at hresolves
  generalize (p.resolve modules provider).program = q at hresolves
  cases hresolves with
  | unloaded hload =>
    rw [h] at hload
    cases hload
  | unbound _ hbind =>
    obtain ⟨_, _, _, _, _, _, -, -, -, -, -, herror', -⟩ := Instruction.bindAll_error hbind
    exact ⟨_, _, _, herror'⟩

end Program

/-- How a module is known to a directory and to the memory: by exports with the same values, or in
neither of them. -/
inductive ModuleDirectory.AgreesWith (d : ModuleDirectory) (m : MemoryModules)
    (module : String) : Prop
  | listed {exports held : Exports} (hlisted : d.Listed module exports)
      (hheld : m.modules.get? module = some held)
      (hsame : ∀ name, exports.get? name = held.get? name)
  | missing (hmissing : d.Missing module) (habsent : m.modules.get? module = none)

theorem ModuleDirectory.AgreesWith.sameEntry {d : ModuleDirectory} {m : MemoryModules}
    {module : String} (h : d.AgreesWith m module) :
    Program.SameEntry module (d.readExports module) (m.catalogue module) := by
  cases h with
  | listed hlisted hheld hsame =>
    rw [readExports_ok_iff.mpr hlisted, MemoryModules.catalogue_eq_ok_iff.mpr hheld]
    exact .listed hsame
  | missing hmissing habsent =>
    rw [readExports_of_missing hmissing, MemoryModules.catalogue_eq_error_iff.mpr ⟨habsent, rfl⟩]
    exact .missing _ _

namespace Program

/-- A fresh directory and the memory that know the given modules and the standard module in the same
way resolve every program in the same way.
* If each of the given modules has a listing, both bind every reference or both stop at the same
  one.
* Otherwise both report the same one of them as missing.
* Whatever the outcome, the program is the same afterwards: its instructions with what was bound
  before an error, its layout and its dependencies. -/
theorem resolve_agrees (p : Program) (modules : List String) {d : ModuleDirectory}
    {m : MemoryModules} (hfresh : d.loaded = .empty)
    (hknown : ∀ module, module ∈ modules ∨ module = standardModule → d.AgreesWith m module) :
    let r := p.resolve modules d
    let r' := p.resolve modules m
    r.program = r'.program ∧
    ((∀ module ∈ modules, ∃ exports, d.Listed module exports) ∧
        (r.outcome = .ok () ∧ r'.outcome = .ok () ∨
          ∃ line name text, r.outcome = .error (.unresolved line name text) ∧
            r'.outcome = .error (.unresolved line name text)) ∨
      ∃ module ∈ modules, d.Missing module ∧
        r.outcome = .error (.moduleNotFound module d.directory) ∧
        r'.outcome = .error (.moduleNotFound module "<memory>")) := by
  intro r r'
  have hsame : ∀ module ∈ searchList modules,
      SameEntry module (d.readExports module) (m.catalogue module) := by
    intro module hmem
    exact (hknown module (mem_searchList.mp hmem)).sameEntry
  have hholds := ModuleDirectory.holds_fresh hfresh
  -- what the two searches come to depends on the catalogues alone
  have hchoice : SameChoice d.readExports m.catalogue (mayBeMissing modules) (searchList modules)
      (chosen d.readExports modules) (chosen m.catalogue modules) := select_agrees hsame
  generalize hchosen : chosen d.readExports modules = choice at hchoice
  generalize hchosen' : chosen m.catalogue modules = choice' at hchoice
  cases hchoice with
  | chosen names =>
    obtain ⟨hload, hloaded, -⟩ := search_of_chosen_ok d.serves hholds hchosen
    obtain ⟨hload', hloaded', -⟩ := search_of_chosen_ok m.serves rfl hchosen'
    -- what was chosen are searched modules, in which both find the same
    have hexported : ∀ name, exported modules d name = exported modules m name := by
      intro name
      rw [exported_of_serves d.serves hholds hchosen, exported_of_serves m.serves rfl hchosen']
      apply findSome?_congr
      intro module hmem
      obtain hnone | ⟨hsearched, -⟩ := (mem_of_select hchosen module).mp hmem
      · cases hnone
      · exact (hsame module hsearched).valueIn_eq name
    obtain ⟨houtcome, hprogram⟩ :=
      resolve_congr (p := p) hload hload' (hloaded.trans hloaded'.symm) hexported
    refine ⟨hprogram, .inl ⟨(chosen_ok_iff.mp ⟨names, hchosen⟩).1, ?_⟩⟩
    rcases hr : r.outcome with e | ⟨⟩
    · obtain ⟨line, name, text, rfl⟩ := unresolved_of_resolve hload hr
      exact .inr ⟨line, name, text, rfl, houtcome.symm.trans hr⟩
    · exact .inl ⟨rfl, houtcome.symm.trans hr⟩
  | @missing module place place' hmem hoptional hentry hentry' =>
    have hload := search_of_chosen_error d.serves hholds hchosen
    have hload' := search_of_chosen_error m.serves rfl hchosen'
    have hmissing := (ModuleDirectory.isNotFound_readExports_iff hentry).mp rfl
    have hplace : Error.moduleNotFound module d.directory = .moduleNotFound module place :=
      Except.error.inj ((ModuleDirectory.readExports_of_missing hmissing).symm.trans hentry)
    refine ⟨(program_of_search_error hload).trans (program_of_search_error hload').symm,
      .inr ⟨module, (mayBeMissing_eq_false_iff hmem).mp hoptional, hmissing, ?_, ?_⟩⟩
    · rw [hplace]
      exact resolve_of_search_error hload
    · rw [← (MemoryModules.catalogue_eq_error_iff.mp hentry').2]
      exact resolve_of_search_error hload'

/-- Two listings, and a directory where that of the standard module would be. In both providers the
call of `print` is bound to the value in the first of the modules that export it, and `exit` is
found in none of them. -/
theorem resolve_agrees_of_two_listings :
    let file (text : String) : FileNode := .file text.toUTF8.data.toList
    let d : ModuleDirectory :=
      { directory := "lib"
        files := FileTree.empty.addAll
          [("lib/io.sym", file "print = 0x10 # first\r\n\tread=17\n"),
            ("lib/net.sym", file "print = 1\nsend = 2"), ("lib/std.sym", .directory)] }
    let m : MemoryModules :=
      { modules := .ofList
          [("net", .ofList [("print", 1), ("send", 2)]),
            ("io", .ofList [("read", 17), ("print", 16)])] }
    let p := ({} : Program).mergeInstructions
      [{ op := .call, operands := [.label "print"], line := 1 },
        { op := .call, operands := [.label "exit"], line := 2 }]
    let r := p.resolve ["io", "net", "io"] d
    let r' := p.resolve ["io", "net", "io"] m
    r.outcome = .error (.unresolved 2 "exit" "call exit") ∧
      r'.outcome = .error (.unresolved 2 "exit" "call exit") ∧
      r.program.instructions.map Instruction.operands = [[.address 16], [.label "exit"]] ∧
      r.program = r'.program := by
  intro file d m p r r'
  have hio : d.AgreesWith m "io" :=
    .listed (ModuleDirectory.readExports_ok_iff.mp (by decide +kernel :
        d.readExports "io" = .ok (.ofList [("print", 16), ("read", 17)])))
      (by decide +kernel : m.modules.get? "io" = some (.ofList [("read", 17), ("print", 16)]))
      (Table.get?_eq_of_perm (by decide))
  have hnet : d.AgreesWith m "net" :=
    .listed (ModuleDirectory.readExports_ok_iff.mp (by decide +kernel :
        d.readExports "net" = .ok (.ofList [("print", 1), ("send", 2)])))
      (by decide +kernel) fun _ => rfl
  have hstandard : d.AgreesWith m standardModule :=
    .missing ((ModuleDirectory.isNotFound_readExports_iff (by decide +kernel :
        d.readExports standardModule = .error (.moduleNotFound "std" "lib"))).mp rfl)
      (by decide +kernel)
  have hgiven : ∀ module ∈ ["io", "net", "io"], d.AgreesWith m module := by
    simp only [List.forall_mem_cons]
    exact ⟨hio, hnet, hio, by simp⟩
  have hknown : ∀ module, module ∈ ["io", "net", "io"] ∨ module = standardModule →
      d.AgreesWith m module := by
    rintro module (hmem | rfl)
    · exact hgiven module hmem
    · exact hstandard
  have houtcome : r.outcome = .error (.unresolved 2 "exit" "call exit") := by decide +kernel
  obtain ⟨hprogram, ⟨-, ⟨hok, -⟩ | ⟨line, name, text, hr, hr'⟩⟩ | ⟨module, -, -, hr, -⟩⟩ :=
    resolve_agrees p ["io", "net", "io"] rfl hknown
  · exact absurd (houtcome.symm.trans hok) (by simp)
  · refine ⟨houtcome, ?_, by decide +kernel, hprogram⟩
    exact hr'.trans (hr.symm.trans houtcome)
  · exact absurd (houtcome.symm.trans hr) (by simp)

end Program

end AsmLinker
