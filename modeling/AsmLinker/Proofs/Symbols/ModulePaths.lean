import Mathlib
import AsmLinker.Proofs.Files
import AsmLinker.Symbols.Provider

/-!
# Which modules share a listing

The listing of a module stands in the search directory under the name of the module with its
extension replaced. So two modules have the same path exactly if their names have the same stem
(`ModuleDirectory.modulePath_eq_iff_stem`): `gfx`, `gfx.` and `gfx.v2` share one listing, while
`.gfx` is a name of its own. Names without a period never lead to the same file.
-/

namespace AsmLinker

namespace Path

/-- The name is that of a file in a directory: it is not empty, has no slash, and is neither the
directory itself nor the one above. -/
structure IsFileName (name : List Char) : Prop where
  /-- It is not empty. -/
  nonempty : name ≠ []
  /-- It has no slash. -/
  slash : '/' ∉ name
  /-- It is not the directory itself. -/
  self : name ≠ ['.']
  /-- It is not the directory above. -/
  parent : name ≠ ['.', '.']

instance : DecidablePred IsFileName := fun name =>
  decidable_of_iff (name ≠ [] ∧ '/' ∉ name ∧ name ≠ ['.'] ∧ name ≠ ['.', '.'])
    ⟨fun ⟨nonempty, slash, self, parent⟩ => ⟨nonempty, slash, self, parent⟩,
      fun h => ⟨h.nonempty, h.slash, h.self, h.parent⟩⟩

/-- The stem of a name: what stands before its last period, unless that is its first character or
missing, and then the whole name. -/
inductive IsStem : List Char → List Char → Prop
  | cut {stem extension : List Char} (hstem : stem ≠ []) (hlast : '.' ∉ extension) :
      IsStem (stem ++ '.' :: extension) stem
  | hidden {rest : List Char} (hlast : '.' ∉ rest) : IsStem ('.' :: rest) ('.' :: rest)
  | bare {name : List Char} (hnone : '.' ∉ name) : IsStem name name

/-! ## Stems -/

variable {name : List Char}

theorem stem_of_not_mem (h : '.' ∉ name) : stem name = name := by
  have hdrop : name.reverse.dropWhile (· ≠ '.') = [] := by
    rw [List.dropWhile_eq_nil_iff]
    intro c hc
    simpa using fun heq : c = '.' => h (heq ▸ List.mem_reverse.mp hc)
  rw [stem, hdrop]
  rfl

theorem stem_append {front extension : List Char} (h : '.' ∉ extension) :
    stem (front ++ '.' :: extension) =
      if front = [] then '.' :: extension else front := by
  have hskip : ∀ c ∈ extension.reverse, decide (c ≠ '.') = true := by
    intro c hc
    simpa using fun heq : c = '.' => h (heq ▸ List.mem_reverse.mp hc)
  have hdrop : (front ++ '.' :: extension).reverse.dropWhile (· ≠ '.') = '.' :: front.reverse := by
    rw [List.reverse_append, List.reverse_cons, List.append_assoc,
      List.dropWhile_append_of_pos hskip]
    simp
  rw [stem, hdrop, List.reverse_cons, List.reverse_reverse, List.dropLast_concat]
  cases front <;> rfl

theorem isStem_stem (name : List Char) : IsStem name (stem name) := by
  by_cases h : '.' ∈ name
  · obtain ⟨after, before, hsplit, hlast⟩ := List.eq_append_cons_of_mem (List.mem_reverse.mpr h)
    obtain rfl : name = before.reverse ++ '.' :: after.reverse := by
      rw [← List.reverse_reverse name, hsplit]
      simp
    have hlast' : '.' ∉ after.reverse := fun hmem => hlast (List.mem_reverse.mp hmem)
    rw [stem_append hlast']
    split
    next hempty =>
      rw [hempty]
      exact .hidden hlast'
    next hempty => exact .cut hempty hlast'
  · rw [stem_of_not_mem h]
    exact .bare h

/-- A name has one stem, and it is found. -/
theorem isStem_iff {found : List Char} : IsStem name found ↔ stem name = found := by
  constructor
  · intro h
    cases h with
    | cut hstem hlast => rw [stem_append hlast, if_neg hstem]
    | @hidden rest hlast => exact @stem_append [] rest hlast
    | bare hnone => exact stem_of_not_mem hnone
  · rintro rfl
    exact isStem_stem name

/-! ## The path of a file in a directory -/

/-- What stands before a file name in a path to a directory. -/
def lead (directory : String) : List Char :=
  if directory = "" ∨ directory.toList.getLast? = some '/' then directory.toList
  else directory.toList ++ ['/']

/-- It is empty, or it ends in a slash. -/
theorem lead_cases (directory : String) :
    lead directory = [] ∨ ∃ before, lead directory = before ++ ['/'] := by
  unfold lead
  split
  next h =>
    rcases h with rfl | hlast
    · exact .inl rfl
    · exact .inr ⟨_, (List.dropLast_append_getLast? '/' hlast).symm⟩
  · exact .inr ⟨_, rfl⟩

theorem toList_join (directory : String) {file : String} (h : '/' ∉ file.toList) :
    (join directory file).toList = lead directory ++ file.toList := by
  have hhead : file.toList.head? ≠ some '/' := fun hslash => h (List.mem_of_head? hslash)
  unfold join lead
  rw [if_neg hhead]
  split <;> simp

/-- No trailing component is dropped behind a file name. -/
theorem dropTrailing_of_isFileName (h : IsFileName name) (rest : List Char) :
    dropTrailing (name.reverse ++ rest) = name.reverse ++ rest := by
  have hslash : '/' ∉ name.reverse := fun hmem => h.slash (List.mem_reverse.mp hmem)
  have hself : name.reverse ≠ ['.'] := fun heq => h.self (List.reverse_inj.mp heq)
  have hnonempty : name.reverse ≠ [] := fun heq => h.nonempty (List.reverse_eq_nil_iff.mp heq)
  generalize name.reverse = backwards at hslash hself hnonempty ⊢
  unfold dropTrailing
  split
  next before heq =>
    obtain ⟨c, tail, rfl⟩ := List.exists_cons_of_ne_nil hnonempty
    obtain rfl := (List.cons.inj heq).1
    simp at hslash
  next before heq =>
    -- a period before a slash would be all of the name
    obtain ⟨c, tail, rfl⟩ := List.exists_cons_of_ne_nil hnonempty
    obtain ⟨rfl, htail⟩ := List.cons.inj heq
    cases tail with
    | nil => exact absurd rfl hself
    | cons d tail =>
      obtain rfl := (List.cons.inj htail).1
      simp at hslash
  · rfl

theorem splitFileName_eq (directory : String) {file : String} (h : IsFileName file.toList) :
    splitFileName (join directory file) = some (lead directory, file.toList) := by
  have hname : ∀ c ∈ file.toList.reverse, decide (c ≠ '/') = true := by
    intro c hc
    simpa using fun heq : c = '/' => h.slash (heq ▸ List.mem_reverse.mp hc)
  have hlead : (lead directory).reverse.takeWhile (· ≠ '/') = [] ∧
      (lead directory).reverse.dropWhile (· ≠ '/') = (lead directory).reverse := by
    rcases lead_cases directory with hlead | ⟨before, hlead⟩ <;> simp [hlead]
  unfold splitFileName
  rw [toList_join directory h.slash, List.reverse_append, dropTrailing_of_isFileName h]
  dsimp only
  rw [List.takeWhile_append_of_pos hname, List.dropWhile_append_of_pos hname, hlead.1, hlead.2,
    List.append_nil, List.reverse_reverse, List.reverse_reverse,
    if_neg (by simp [h.nonempty, h.self, h.parent])]

/-- The name of the listing for a stem. The stem `.` would leave a period before the extension of a
name that is none, and leads to the directory above. -/
def listing (stem : List Char) : List Char :=
  if stem = ['.'] then ['.', '.'] else stem ++ ".sym".toList

theorem listing_injective : Function.Injective listing := by
  intro stem stem' h
  unfold listing at h
  split at h <;> split at h
  next hdot hdot' => rw [hdot, hdot']
  next =>
    have hlength := congrArg List.length h
    simp at hlength
  next =>
    have hlength := congrArg List.length h
    simp at hlength
  next => exact List.append_cancel_right h

/-- The listing for a stem is a file of the directory, with the one exception. -/
theorem isFileName_listing {stem : List Char} (hslash : '/' ∉ stem) (hdot : stem ≠ ['.']) :
    IsFileName (listing stem) := by
  have hlength : 4 ≤ (stem ++ ".sym".toList).length := by simp
  rw [listing, if_neg hdot]
  refine ⟨?_, by simpa using hslash, ?_, ?_⟩ <;>
    exact fun heq => absurd (heq ▸ hlength) (by decide)

end Path

namespace ModuleDirectory

variable {name name' : String}

theorem toList_modulePath (directory : String) (h : Path.IsFileName name.toList) :
    (modulePath directory name).toList =
      Path.lead directory ++ Path.listing (Path.stem name.toList) := by
  unfold modulePath Path.withExtension Path.listing
  rw [Path.splitFileName_eq directory h, Path.toList_join directory h.slash]
  by_cases hdot : Path.stem name.toList = ['.'] <;> simp [hdot]

theorem modulePath_eq_iff (directory : String) (h : Path.IsFileName name.toList)
    (h' : Path.IsFileName name'.toList) :
    modulePath directory name = modulePath directory name' ↔
      Path.stem name.toList = Path.stem name'.toList := by
  rw [← String.toList_inj, toList_modulePath directory h, toList_modulePath directory h',
    List.append_cancel_left_eq, Path.listing_injective.eq_iff]

end ModuleDirectory

/-! ## Where a path leads -/

namespace FileTree

theorem splitSlashes_ne_nil (cs : List Char) : splitSlashes cs ≠ [] := by
  fun_cases splitSlashes cs <;> simp

theorem splitSlashes_of_not_mem {cs : List Char} (h : '/' ∉ cs) : splitSlashes cs = [cs] := by
  induction cs with
  | nil => rfl
  | cons c rest ih =>
    obtain ⟨hc, hrest⟩ := not_or.mp (List.mem_cons.not.mp h)
    rw [splitSlashes, ih hrest]
    exact if_neg (Ne.symm hc)

/-- A slash cuts a path in two. -/
theorem splitSlashes_append (before after : List Char) :
    splitSlashes (before ++ '/' :: after) = splitSlashes before ++ splitSlashes after := by
  induction before with
  | nil =>
    obtain ⟨part, parts, hparts⟩ := List.exists_cons_of_ne_nil (splitSlashes_ne_nil after)
    simp [splitSlashes, hparts]
  | cons c rest ih =>
    obtain ⟨part, parts, hparts⟩ := List.exists_cons_of_ne_nil (splitSlashes_ne_nil rest)
    rw [List.cons_append, splitSlashes, splitSlashes, ih, hparts]
    simp only [List.cons_append]
    split <;> rfl

/-- A path that begins with a slash starts at the root. -/
theorem start_of_root {path : String} {names : List String} (h : components path = "" :: names) :
    start path = (["/"], names) := by
  simp only [start, h]

/-- A path that does not begin with a slash starts at the working directory. -/
theorem start_of_ne {path name : String} {names : List String}
    (h : components path = name :: names) (hne : name ≠ "") :
    start path = ([], name :: names) := by
  rw [start, h]
  split
  next heq => exact absurd (List.cons.inj heq).1 hne
  · rfl

/-- The files of a directory are looked for from the same place. -/
theorem exists_start (directory : String) : ∃ origin names, ∀ (path : String) (file : List Char),
    file ≠ [] → '/' ∉ file → path.toList = Path.lead directory ++ file →
      start path = (origin, names ++ [String.ofList file]) := by
  rcases Path.lead_cases directory with hlead | ⟨before, hlead⟩
  · refine ⟨[], [], ?_⟩
    intro path file hfile hslash hpath
    have hcomponents : components path = [String.ofList file] := by
      rw [components, hpath, hlead, List.nil_append, splitSlashes_of_not_mem hslash]
      rfl
    exact start_of_ne hcomponents fun hempty => hfile (String.ofList_eq_empty_iff.mp hempty)
  · obtain ⟨first, parts, hparts⟩ := List.exists_cons_of_ne_nil (splitSlashes_ne_nil before)
    have hcomponents : ∀ (path : String) (file : List Char), '/' ∉ file →
        path.toList = Path.lead directory ++ file → components path =
          String.ofList first :: (parts.map String.ofList ++ [String.ofList file]) := by
      intro path file hslash hpath
      rw [components, hpath, hlead, List.append_assoc, List.singleton_append, splitSlashes_append,
        hparts, splitSlashes_of_not_mem hslash]
      simp
    by_cases hroot : String.ofList first = ""
    · refine ⟨["/"], parts.map String.ofList, ?_⟩
      intro path file _ hslash hpath
      exact start_of_root (hroot ▸ hcomponents path file hslash hpath)
    · refine ⟨[], String.ofList first :: parts.map String.ofList, ?_⟩
      intro path file _ hslash hpath
      exact start_of_ne (hcomponents path file hslash hpath) hroot

/-- A way through a tree to a file passes the directory of the file. -/
theorem step_of_walk {t : FileTree} {names origin location : List String} {file : String}
    (h : t.walk origin (names ++ [file]) = .ok location) :
    ∃ directory, t.walk origin names = .ok directory ∧ location = step directory file := by
  induction names generalizing origin with
  | nil =>
    refine ⟨origin, rfl, ?_⟩
    rw [List.nil_append, walk, enter] at h
    split at h
    · cases h
    next reached hreached =>
      cases h
      split at hreached
      · cases hreached
      · split at hreached <;> cases hreached
        rfl
  | cons name rest ih =>
    rw [List.cons_append, walk] at h
    rw [walk]
    split at h
    · cases h
    · exact ih h

/-- Files of a directory under different names do not stand at the same location. -/
theorem eq_of_locate {t : FileTree} {location : List String} {directory path path' : String}
    {file file' : List Char} (hfile : Path.IsFileName file) (hfile' : Path.IsFileName file')
    (hpath : path.toList = Path.lead directory ++ file)
    (hpath' : path'.toList = Path.lead directory ++ file')
    (h : t.locate path = .ok location) (h' : t.locate path' = .ok location) : file = file' := by
  obtain ⟨origin, names, hstart⟩ := exists_start directory
  have hwalk : ∀ {path : String} {file : List Char}, Path.IsFileName file →
      path.toList = Path.lead directory ++ file → t.locate path = .ok location →
      ∃ reached, t.walk origin names = .ok reached ∧
        location = reached ++ [String.ofList file] := by
    intro path file hfile hpath hlocate
    rw [locate] at hlocate
    split at hlocate
    · cases hlocate
    rw [hstart path file hfile.nonempty hfile.slash hpath] at hlocate
    obtain ⟨reached, hreached, hstep⟩ := step_of_walk hlocate
    refine ⟨reached, hreached, hstep.trans ?_⟩
    have hne : ∀ cs : List Char, file ≠ cs → String.ofList file ≠ String.ofList cs :=
      fun cs hcs heq => hcs (String.ofList_injective heq)
    rw [step, if_neg (not_or.mpr ⟨hne [] hfile.nonempty, hne ['.'] hfile.self⟩),
      if_neg (hne ['.', '.'] hfile.parent)]
  obtain ⟨reached, hreached, hlocation⟩ := hwalk hfile hpath h
  obtain ⟨reached', hreached', hlocation'⟩ := hwalk hfile' hpath' h'
  obtain rfl : reached = reached' := Except.ok.inj (hreached.symm.trans hreached')
  have hlast := List.append_cancel_left (hlocation.symm.trans hlocation')
  exact String.ofList_injective (List.singleton_inj.mp hlast)

end FileTree

/-! ## Shared listings -/

namespace ModuleDirectory

variable {name name' : String}

/-- For every search directory, two names that are neither empty nor `.` nor `..` and have no slash
lead to the same listing exactly if they have the same stem. So names without a period have
different listings, and in no file tree do these stand at the same location. -/
theorem modulePath_eq_iff_stem (directory : String) (h : Path.IsFileName name.toList)
    (h' : Path.IsFileName name'.toList) :
    (∃! stem, Path.IsStem name.toList stem) ∧
      (modulePath directory name = modulePath directory name' ↔
        ∃ stem, Path.IsStem name.toList stem ∧ Path.IsStem name'.toList stem) ∧
      ('.' ∉ name.toList → '.' ∉ name'.toList → name ≠ name' →
        modulePath directory name ≠ modulePath directory name' ∧
        ∀ (t : FileTree) (location : List String),
          t.locate (modulePath directory name) = .ok location →
            t.locate (modulePath directory name') ≠ .ok location) := by
  simp only [Path.isStem_iff]
  refine ⟨⟨_, rfl, fun _ hstem => hstem.symm⟩, ?_, ?_⟩
  · rw [modulePath_eq_iff directory h h']
    exact ⟨fun hsame => ⟨_, hsame, rfl⟩, fun ⟨_, hstem, hstem'⟩ => hstem.trans hstem'.symm⟩
  · intro hdot hdot' hne
    have hnames : name.toList ≠ name'.toList := fun heq => hne (String.toList_inj.mp heq)
    have hstem := Path.stem_of_not_mem hdot
    have hstem' := Path.stem_of_not_mem hdot'
    constructor
    · rw [Ne, modulePath_eq_iff directory h h', hstem, hstem']
      exact hnames
    · intro t location hlocate hlocate'
      -- both are files of the directory, so that one location means one name
      have hfile := Path.isFileName_listing h.slash fun heq =>
        hdot (heq ▸ List.mem_singleton_self _)
      have hfile' := Path.isFileName_listing h'.slash fun heq =>
        hdot' (heq ▸ List.mem_singleton_self _)
      have hpath := toList_modulePath directory h
      have hpath' := toList_modulePath directory h'
      rw [hstem] at hpath
      rw [hstem'] at hpath'
      exact hnames (Path.listing_injective
        (FileTree.eq_of_locate hfile hfile' hpath hpath' hlocate hlocate'))

/-- Two names of one stem, a name and its hidden form, and two names whose stem is a period. -/
theorem modulePath_eq_iff_stem_of_periods :
    modulePath "lib" "gfx.v1." = modulePath "lib" "gfx.v1.old" ∧
      modulePath "lib/" "gfx" ≠ modulePath "lib/" ".gfx" ∧
      modulePath "" "..a" = modulePath "" "..b" := by
  refine ⟨?_, ?_, ?_⟩
  · exact (modulePath_eq_iff_stem "lib" (by decide) (by decide)).2.1.mpr
      ⟨"gfx.v1".toList, Path.isStem_iff.mpr (by decide), Path.isStem_iff.mpr (by decide)⟩
  · intro hsame
    obtain ⟨stem, hstem, hstem'⟩ :=
      (modulePath_eq_iff_stem "lib/" (by decide) (by decide)).2.1.mp hsame
    rw [Path.isStem_iff] at hstem hstem'
    exact absurd (hstem.trans hstem'.symm) (by decide)
  · exact (modulePath_eq_iff_stem "" (by decide) (by decide)).2.1.mpr
      ⟨['.'], Path.isStem_iff.mpr (by decide), Path.isStem_iff.mpr (by decide)⟩

end ModuleDirectory

end AsmLinker
