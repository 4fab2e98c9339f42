import Mathlib
import AsmLinker.Command.Run
import AsmLinker.Proofs.Files
import AsmLinker.Proofs.Image.Room
import AsmLinker.Proofs.Symbols.Providers

/-!
# The contract of the program

A run that is asked for an output and has an input goes through stages, each of which can fail: the
inputs are assembled and merged one after the other, the modules are loaded and the references are
bound, and then the output is created and written. `Command.Links` says when the stages before the
output go well, and `Command.Writable` when the output does, both in terms of the files, the units
and the listings and not of the order in which they are looked at.

The exit code is 0 exactly if both hold (`Command.run_contract`). The file then holds the image of
the linked units, from which they can be read back, and a run that fails before the output can be
created leaves all files alone.
-/

namespace AsmLinker

/-! ## The path in diagnostics -/

namespace Assembly

variable {a a' : Assembly} {context : Context} {token : Token} {result : Except Error Context}
  {answers : List (Except Error Token)}

/-- What is done with a token does not depend on whether diagnostics show the path. -/
theorem Takes.withShowPath (h : Takes a context token result a') (shows : Bool) :
    Takes { a with showPath := shows } context token result { a' with showPath := shows } := by
  have hframed := h.framed shows a'.input a'.warnings
  have hsame : ({ a with showPath := shows, input := a'.input, warnings := a'.warnings } :
      Assembly) = { a with showPath := shows } := by
    rw [h.input_eq, h.warnings_eq]
  rw [hsame] at hframed
  exact hframed

/-- A run that goes well goes well in the same way whether diagnostics show the path or not. -/
theorem run_withShowPath (shows : Bool) (h : a.run context answers = (.ok (), a')) :
    ({ a with showPath := shows } : Assembly).run context answers =
      (.ok (), { a' with showPath := shows }) := by
  fun_induction run a context answers with
  | case1 => cases h
  | case2 a context b next c hfeed =>
    have htakes := takes_feed b context (.endOfFile b.input.endLine)
    rw [hfeed] at htakes
    have hfeed' : (({ a with showPath := shows } : Assembly).withRest []).feed context
        (.endOfFile a.input.endLine) = (.ok next, { c with showPath := shows }) :=
      (htakes.withShowPath shows).feed_eq
    cases h
    rw [run_nil, hfeed']
  | case3 => cases h
  | case4 a context e rest hfatal ih =>
    rw [run, if_neg hfatal]
    exact ih h
  | case5 => cases h
  | case6 a context token rest next b hfeed ih =>
    have htakes := takes_feed a context token
    rw [hfeed] at htakes
    rw [run, (htakes.withShowPath shows).feed_eq]
    exact ih h

end Assembly

/-! ## The inputs -/

/-- The input can be opened, and the source in it is assembled into the unit without an error. -/
def FileTree.Assembles (files : FileTree) (input : String) (u : SourceUnit) : Prop :=
  ∃ source a, files.source input = .ok source ∧
    (Assembly.ofSource input source).assemble = (.ok (), a) ∧ a.unit = u

theorem FileTree.Assembles.assembled {files : FileTree} {input : String} {u : SourceUnit}
    (h : files.Assembles input u) : u.Assembled := by
  obtain ⟨source, a, -, hassemble, rfl⟩ := h
  refine ⟨input, source, 1, ?_⟩
  show ((Assembly.ofSource input source).assemble.2).unit = a.unit
  rw [hassemble]

namespace Command

variable {env : Environment} {o : Options} {files : FileTree} {p q : Program}
  {input output : String} {inputs libraries : List String} {units : List SourceUnit}
  {location : List String}

/-- An input is added exactly if its source is assembled and its unit is merged. -/
theorem addInput_eq_some_iff : (addInput files o p input).2 = some q ↔
    ∃ u, files.Assembles input u ∧ p.merge u = (.ok (), q) := by
  constructor
  · intro h
    unfold addInput at h
    split at h
    · cases h
    next source hsource =>
      dsimp only at h
      split at h
      · cases h
      next houtcome =>
        -- with the path shown, the source is assembled in the same way
        have hassemble := Assembly.run_withShowPath true (Prod.ext houtcome rfl)
        split at h
        · cases h
        next q' hmerge =>
          cases h
          exact ⟨_, ⟨source, _, hsource, hassemble, rfl⟩, hmerge⟩
  · rintro ⟨u, ⟨source, a, hsource, hassemble, rfl⟩, hmerge⟩
    have hbefore : ({ Assembly.ofSource input source with showPath := !o.hidePath } :
        Assembly).assemble = (.ok (), { a with showPath := !o.hidePath }) :=
      Assembly.run_withShowPath (!o.hidePath) hassemble
    unfold addInput
    rw [hsource]
    dsimp only
    rw [hbefore]
    dsimp only
    rw [hmerge]

/-- Inputs are added one after the other. -/
theorem addInputs_cons (files : FileTree) (o : Options) (p : Program) (input : String)
    (rest : List String) :
    (addInputs files o p (input :: rest)).2 =
      (addInput files o p input).2.bind fun p => (addInputs files o p rest).2 := by
  rw [addInputs]
  rcases addInput files o p input with ⟨log, _ | p'⟩ <;> rfl

/-- Inputs are added exactly if their sources are assembled and their units are merged in order. -/
theorem addInputs_eq_some_iff : (addInputs files o p inputs).2 = some q ↔
    ∃ units, List.Forall₂ files.Assembles inputs units ∧ p.mergeAll units = (.ok (), q) := by
  induction inputs generalizing p with
  | nil => simp [addInputs, Program.mergeAll]
  | cons input rest ih =>
    rw [addInputs_cons, Option.bind_eq_some_iff]
    constructor
    · rintro ⟨p', hadd, hrest⟩
      obtain ⟨u, hassembles, hmerge⟩ := addInput_eq_some_iff.mp hadd
      obtain ⟨units, hunits, hall⟩ := ih.mp hrest
      exact ⟨u :: units, .cons hassembles hunits, by rw [Program.mergeAll, hmerge]; exact hall⟩
    · rintro ⟨_, hunits, hmerge⟩
      obtain ⟨u, units, hassembles, hrest, rfl⟩ := List.forall₂_cons_left_iff.mp hunits
      obtain ⟨p', hfirst, hall⟩ := Program.mergeAll_cons_ok hmerge
      exact ⟨p', addInput_eq_some_iff.mpr ⟨u, hassembles, hfirst⟩, ih.mpr ⟨units, hrest, hall⟩⟩

/-! ## The stages before the output -/

/-- The modules of the search directory, before any of them has been loaded. -/
def modules (env : Environment) : ModuleDirectory :=
  { directory := env.moduleDirectory, files := env.files }

/-- The inputs are assembled into these units, which can be linked against the libraries. -/
structure Links (env : Environment) (inputs libraries : List String) (units : List SourceUnit) :
    Prop where
  /-- Every input can be opened and is assembled without an error. -/
  assembled : List.Forall₂ env.files.Assembles inputs units
  /-- No label is defined in two units. -/
  disjoint : units.Pairwise fun u v => u.labels.Disjoint v.labels
  /-- Every library that is asked for has a listing. -/
  listed : ∀ module ∈ libraries, ∃ exports, (modules env).Listed module exports
  /-- The standard module has a listing, or no file at all if nobody asked for it. -/
  standard : standardModule ∉ libraries → (modules env).Missing standardModule ∨
    ∃ exports, (modules env).Listed standardModule exports
  /-- Every reference is defined by a unit or stands in a listing that is searched. -/
  defined : ∀ u ∈ units, ∀ ins ∈ u.instructions, ∀ name, .label name ∈ ins.operands →
    (∃ v ∈ units, name ∈ v.labels.keys) ∨ ∃ module ∈ Program.searchList libraries,
      ∃ exports, (modules env).Listed module exports ∧ name ∈ exports.keys

/-- The program that units come to when they are merged and resolved. -/
def linkedProgram (env : Environment) (libraries : List String) (units : List SourceUnit) :
    Program :=
  ((({} : Program).mergeAll units).2.resolve libraries (modules env)).program

/-- The program that a run comes to before the output, unless something fails. -/
def linked? (env : Environment) (o : Options) : Option Program :=
  match (addInputs env.files o {} o.inputs).2 with
  | none => none
  | some p =>
    match (p.resolve o.libraries (modules env)).outcome with
    | .ok () => some (p.resolve o.libraries (modules env)).program
    | .error _ => none

/-- A build comes to what the output comes to if all goes well before it, and otherwise fails and
leaves the files as they are. -/
theorem build_eq (env : Environment) (o : Options) (output : String) :
    ((build env o output).exitCode, (build env o output).files) =
      match linked? env o with
      | none => (1, env.files)
      | some p =>
        match writeImage env.files env.disk p output with
        | (.error _, files, _) => (1, files)
        | (.ok (), files, _) => (0, files) := by
  unfold build linked? modules
  rcases addInputs env.files o {} o.inputs with ⟨log, _ | p⟩
  · rfl
  dsimp only
  generalize p.resolve o.libraries (_ : ModuleDirectory) = r
  obtain ⟨e | ⟨⟩, program, provider, log'⟩ := r
  · rfl
  · dsimp only
    rcases writeImage env.files env.disk program output with ⟨e | ⟨⟩, files, more⟩ <;> rfl

/-- The sizes of the sections of all units together. -/
def totalSizes (units : List SourceUnit) : PerSection Nat :=
  { data := (units.map fun u => u.sizes.data).sum
    text := (units.map fun u => u.sizes.text).sum
    string := (units.map fun u => u.sizes.string).sum }

theorem get_totalSizes (units : List SourceUnit) (home : Section) :
    (totalSizes units).get home = (units.map fun u => u.sizes.get home).sum := by
  cases home <;> rfl

/-- Inputs that are assembled have well-formed units. -/
theorem wellFormed_of_assembles (h : List.Forall₂ files.Assembles inputs units) :
    ∀ u ∈ units, u.WellFormed := by
  induction h with
  | nil => simp
  | cons hassembles _ ih =>
    exact List.forall_mem_cons.mpr ⟨hassembles.assembled.wellFormed, ih⟩

/-- The units of inputs can be linked exactly if they are merged and the program is resolved. -/
theorem links_iff : Links env inputs libraries units ↔
    List.Forall₂ env.files.Assembles inputs units ∧ (({} : Program).mergeAll units).1 = .ok () ∧
      ((({} : Program).mergeAll units).2.resolve libraries (modules env)).outcome = .ok () := by
  constructor
  · rintro ⟨hassembled, hdisjoint, hlisted, hstandard, hdefined⟩
    have hwell := wellFormed_of_assembles hassembled
    have hmerged := (Program.mergeAll_ok_iff hwell).mpr hdisjoint
    have hload : (Program.search libraries (modules env)).1.outcome = .ok () :=
      (Program.search_directory_ok_iff rfl).mpr ⟨hlisted, hstandard⟩
    refine ⟨hassembled, hmerged, ?_⟩
    rw [Program.resolve_merged_ok_iff hwell (Prod.ext hmerged rfl)]
    refine ⟨hload, ?_⟩
    intro u hu ins hins name hlabel
    rw [Program.exists_exported_iff rfl hload]
    exact hdefined u hu ins hins name hlabel
  · rintro ⟨hassembled, hmerged, hresolved⟩
    have hwell := wellFormed_of_assembles hassembled
    rw [Program.resolve_merged_ok_iff hwell (Prod.ext hmerged rfl)] at hresolved
    obtain ⟨hload, hexported⟩ := hresolved
    obtain ⟨hlisted, hstandard⟩ := (Program.search_directory_ok_iff rfl).mp hload
    refine ⟨hassembled, (Program.mergeAll_ok_iff hwell).mp hmerged, hlisted, hstandard, ?_⟩
    intro u hu ins hins name hlabel
    rw [← Program.exists_exported_iff rfl hload]
    exact hexported u hu ins hins name hlabel

/-- A run comes to a program exactly if the units of its inputs can be linked into it. -/
theorem linked?_eq_some_iff : linked? env o = some p ↔
    ∃ units, Links env o.inputs o.libraries units ∧ p = linkedProgram env o.libraries units := by
  simp only [links_iff]
  constructor
  · intro h
    rw [linked?] at h
    split at h
    · cases h
    next q hadd =>
      obtain ⟨units, hassembled, hmerge⟩ := addInputs_eq_some_iff.mp hadd
      split at h
      next hresolved =>
        cases h
        refine ⟨units, ⟨hassembled, by rw [hmerge], by rw [hmerge]; exact hresolved⟩, ?_⟩
        rw [linkedProgram, hmerge]
      · cases h
  · rintro ⟨units, ⟨hassembled, hmerged, hresolved⟩, rfl⟩
    have hadd : (addInputs env.files o {} o.inputs).2 = some (({} : Program).mergeAll units).2 :=
      addInputs_eq_some_iff.mpr ⟨units, hassembled, Prod.ext hmerged rfl⟩
    rw [linked?, hadd]
    dsimp only
    rw [hresolved]
    rfl

/-- The linked program can be written, and its sections have the sizes of the units together. -/
theorem Links.finished (h : Links env inputs libraries units) :
    (linkedProgram env libraries units).Finished ∧
      (linkedProgram env libraries units).sizes = totalSizes units := by
  obtain ⟨hassembled, hmerged, hresolved⟩ := links_iff.mp h
  have hwell := wellFormed_of_assembles hassembled
  have hall : ({} : Program).mergeAll units = (.ok (), (({} : Program).mergeAll units).2) :=
    Prod.ext hmerged rfl
  have hq := (Program.mergedAll_of_mergeAll Program.wellFormed_empty hwell hall).wellFormed
  refine ⟨Program.finished_resolve hq hresolved, ?_⟩
  -- resolving keeps the sizes, and merging adds them up from nothing
  rw [linkedProgram, Program.program_of_resolve hresolved]
  apply PerSection.ext_get
  intro home
  rw [get_totalSizes, Program.get_sizes_of_mergeAll Program.wellFormed_empty hwell hall home]
  cases home <;> exact Nat.zero_add _

/-! ## The output -/

/-- The output can be created at the location, and the image of the units can be written to it. -/
structure Writable (env : Environment) (output : String) (units : List SourceUnit)
    (location : List String) : Prop where
  /-- A file of that path can be created. -/
  creatable : env.files.creatable output = .ok location
  /-- The starts and the sizes of the sections fit their fields of 32 bits. -/
  fits : (totalSizes units).data + (totalSizes units).text ≤ Image.limit ∧
    (totalSizes units).string ≤ Image.limit
  /-- The disk takes the whole image. -/
  takes : env.disk.Takes (Program.imageSize (totalSizes units))

/-- Nothing is touched if the output cannot be created. -/
theorem writeImage_of_not_creatable {disk : BoundedDevice}
    (h : ∀ location, files.creatable output ≠ .ok location) :
    (writeImage files disk p output).1 ≠ .ok () ∧ (writeImage files disk p output).2.1 = files := by
  unfold writeImage
  split
  next fault hfault => exact ⟨by simp, rfl⟩
  next location hlocation => exact absurd hlocation (h location)

/-- Only the output is touched if it can be created. -/
theorem exists_files_of_writeImage (disk : BoundedDevice) (p : Program)
    (h : files.creatable output = .ok location) :
    ∃ bytes, (writeImage files disk p output).2.1 = files.put location (.file bytes) := by
  unfold writeImage
  rw [h]
  dsimp only
  split <;> exact ⟨_, rfl⟩

/-- A program is written exactly if the output takes its header and its sections. -/
theorem writeImage_ok_iff {disk : BoundedDevice} (h : files.creatable output = .ok location)
    (hp : p.Finished) : (writeImage files disk p output).1 = .ok () ↔
      (∀ home, Image.Fits (.ofSizes p.sizes) home) ∧ disk.Takes (Program.imageSize p.sizes) := by
  have hwritten := hp.written_iff (w := { device := disk, name := output }) rfl
  rw [writeImage, h, ← hwritten]
  dsimp only
  split
  next heq => simp [heq]
  next heq => simp [heq]

/-- The output then holds the image. -/
theorem hasImage_of_writeImage {disk : BoundedDevice} (h : files.creatable output = .ok location)
    (hp : p.Finished) (hok : (writeImage files disk p output).1 = .ok ()) :
    ∃ image, p.HasImage image ∧
      (writeImage files disk p output).2.1 = files.put location (.file image) := by
  unfold writeImage at hok ⊢
  rw [h] at hok ⊢
  dsimp only at hok ⊢
  split at hok
  · cases hok
  next w hheader =>
    exact ⟨_, hp.hasImage rfl hheader (Prod.ext hok (Prod.ext rfl rfl)), rfl⟩

/-- The linked program is written exactly if the output is writable. -/
theorem Links.writeImage_ok_iff (h : Links env inputs libraries units)
    (hlocation : env.files.creatable output = .ok location) :
    (writeImage env.files env.disk (linkedProgram env libraries units) output).1 = .ok () ↔
      Writable env output units location := by
  obtain ⟨hfinished, hsizes⟩ := h.finished
  rw [Command.writeImage_ok_iff hlocation hfinished, hsizes, Image.fits_ofSizes_iff]
  constructor
  · rintro ⟨hfits, htakes⟩
    exact ⟨hlocation, hfits, htakes⟩
  · rintro ⟨-, hfits, htakes⟩
    exact ⟨hfits, htakes⟩

/-! ## Whole runs -/

/-- A build in which something fails before the output leaves the files as they are. -/
theorem build_of_not_linked (output : String) (h : linked? env o = none) :
    (build env o output).exitCode = 1 ∧ (build env o output).files = env.files := by
  have hbuild := build_eq env o output
  rw [h] at hbuild
  exact Prod.mk.inj hbuild

/-- A build in which nothing fails before the output comes to what the output comes to. -/
theorem build_of_linked (output : String) (h : linked? env o = some p) :
    (build env o output).files = (writeImage env.files env.disk p output).2.1 ∧
      ((writeImage env.files env.disk p output).1 = .ok () ∧ (build env o output).exitCode = 0 ∨
        (writeImage env.files env.disk p output).1 ≠ .ok () ∧
          (build env o output).exitCode = 1) := by
  have hbuild := build_eq env o output
  rw [h] at hbuild
  dsimp only at hbuild
  rcases hwrite : writeImage env.files env.disk p output with ⟨e | ⟨⟩, files, log⟩
  · rw [hwrite] at hbuild
    obtain ⟨hcode, hfiles⟩ := Prod.mk.inj hbuild
    exact ⟨hfiles, .inr ⟨by simp, hcode⟩⟩
  · rw [hwrite] at hbuild
    obtain ⟨hcode, hfiles⟩ := Prod.mk.inj hbuild
    exact ⟨hfiles, .inl ⟨rfl, hcode⟩⟩

/-- A build goes well exactly if the units of its inputs can be linked and the output is
writable. -/
theorem build_ok_iff : (build env o output).exitCode = 0 ↔ ∃ units location,
    Links env o.inputs o.libraries units ∧ Writable env output units location := by
  constructor
  · intro hzero
    cases hlinked : linked? env o with
    | none =>
      rw [(build_of_not_linked output hlinked).1] at hzero
      cases hzero
    | some p =>
      -- what was linked has been written, so that the output is writable
      obtain ⟨units, hlinks, rfl⟩ := linked?_eq_some_iff.mp hlinked
      obtain ⟨-, ⟨hok, -⟩ | ⟨-, hone⟩⟩ := build_of_linked output hlinked
      · by_cases hcreatable : ∃ location, env.files.creatable output = .ok location
        · obtain ⟨location, hlocation⟩ := hcreatable
          exact ⟨units, location, hlinks, (hlinks.writeImage_ok_iff hlocation).mp hok⟩
        · exact absurd hok (writeImage_of_not_creatable (not_exists.mp hcreatable)).1
      · rw [hone] at hzero
        cases hzero
  · rintro ⟨units, location, hlinks, hwritable⟩
    have hlinked : linked? env o = some (linkedProgram env o.libraries units) :=
      linked?_eq_some_iff.mpr ⟨units, hlinks, rfl⟩
    have hok := (hlinks.writeImage_ok_iff hwritable.creatable).mpr hwritable
    obtain ⟨-, ⟨-, hzero⟩ | ⟨hnot, -⟩⟩ := build_of_linked output hlinked
    · exact hzero
    · exact absurd hok hnot

/-- A build that fails leaves the files as they are, or has changed the output alone. -/
theorem build_of_ne_zero (h : (build env o output).exitCode ≠ 0) :
    (build env o output).exitCode = 1 ∧ ((build env o output).files = env.files ∨
      ∃ location bytes, env.files.creatable output = .ok location ∧
        (build env o output).files = env.files.put location (.file bytes)) := by
  cases hlinked : linked? env o with
  | none =>
    obtain ⟨hone, hfiles⟩ := build_of_not_linked output hlinked
    exact ⟨hone, .inl hfiles⟩
  | some p =>
    obtain ⟨hfiles, ⟨-, hzero⟩ | ⟨-, hone⟩⟩ := build_of_linked output hlinked
    · exact absurd hzero h
    · refine ⟨hone, ?_⟩
      rw [hfiles]
      by_cases hcreatable : ∃ location, env.files.creatable output = .ok location
      · obtain ⟨location, hlocation⟩ := hcreatable
        obtain ⟨bytes, hbytes⟩ := exists_files_of_writeImage env.disk p hlocation
        exact .inr ⟨location, bytes, hlocation, hbytes⟩
      · exact .inl (writeImage_of_not_creatable (not_exists.mp hcreatable)).2

/-- A build that fails before the output can be created leaves the files as they are. -/
theorem build_before_output (h : (¬ ∃ units, Links env o.inputs o.libraries units) ∨
    ∀ location, env.files.creatable output ≠ .ok location) :
    (build env o output).exitCode = 1 ∧ (build env o output).files = env.files := by
  cases hlinked : linked? env o with
  | none => exact build_of_not_linked output hlinked
  | some p =>
    obtain ⟨units, hlinks, -⟩ := linked?_eq_some_iff.mp hlinked
    obtain ⟨hnot, hsame⟩ := writeImage_of_not_creatable (p := p)
      (h.resolve_left (not_not.mpr ⟨units, hlinks⟩))
    obtain ⟨hfiles, ⟨hok, -⟩ | ⟨-, hone⟩⟩ := build_of_linked output hlinked
    · exact absurd hok hnot
    · exact ⟨hone, hfiles.trans hsame⟩

/-- A build that goes well leaves the image of the linked units in the output. -/
theorem hasImage_of_build (hlinks : Links env o.inputs o.libraries units)
    (hwritable : Writable env output units location) :
    ∃ image, (linkedProgram env o.libraries units).HasImage image ∧
      (build env o output).files = env.files.put location (.file image) ∧
      (build env o output).files.find output = .ok (.file image) := by
  have hlinked : linked? env o = some (linkedProgram env o.libraries units) :=
    linked?_eq_some_iff.mpr ⟨units, hlinks, rfl⟩
  obtain ⟨hfiles, -⟩ := build_of_linked output hlinked
  obtain ⟨image, himage, hput⟩ := hasImage_of_writeImage hwritable.creatable hlinks.finished.1
    ((hlinks.writeImage_ok_iff hwritable.creatable).mpr hwritable)
  refine ⟨image, himage, hfiles.trans hput, ?_⟩
  rw [hfiles, hput]
  exact FileTree.find_put _ hwritable.creatable

/-- What is printed is all that the other options change. -/
theorem build_congr {o' : Options} (hinputs : o'.inputs = o.inputs)
    (hlibraries : o'.libraries = o.libraries) (output : String) :
    (build env o' output).exitCode = (build env o output).exitCode ∧
      (build env o' output).files = (build env o output).files := by
  have hlinked : linked? env o' = linked? env o := by
    ext p
    rw [linked?_eq_some_iff, linked?_eq_some_iff, hinputs, hlibraries]
  have hbuild := build_eq env o' output
  rw [hlinked, ← build_eq env o output] at hbuild
  exact Prod.mk.inj hbuild

/-- A run with an output and an input is a build. -/
theorem run_eq_build {args : List String} (env : Environment)
    (hparse : CommandLine.parse args = .run o) (hrun : o.printModulePath = false)
    (houtput : o.output = some output) (hinputs : o.inputs ≠ []) :
    (run env args).exitCode = (build env o output).exitCode ∧
      (run env args).files = (build env o output).files := by
  rw [run, hparse]
  dsimp only [execute]
  rw [hrun, houtput, if_neg Bool.false_ne_true]
  dsimp only
  rw [if_neg hinputs]
  exact ⟨rfl, rfl⟩

/-- The contract of a run with an output and at least one input.
* The exit code is 0 exactly if every input can be opened and is assembled, no label is defined in
  two units, the libraries have listings and the standard module has one or no file, every reference
  has a definition, the numbers of the image fit their fields, and the output can be created and
  written.
* Otherwise it is 1, and nothing but the output can have changed.
* Nothing at all has changed if the failure comes before the output is created.
* When all goes well, the output is a file that holds the image of the linked units, and reading it
  gives back their layout, their entry, their data and strings and their instructions.
* Options other than the inputs, the libraries and the output change neither the exit code nor the
  files. -/
theorem run_contract {args : List String} (env : Environment)
    (hparse : CommandLine.parse args = .run o) (hrun : o.printModulePath = false)
    (houtput : o.output = some output) (hinputs : o.inputs ≠ []) :
    let result := run env args
    (result.exitCode = 0 ↔ ∃ units location,
      Links env o.inputs o.libraries units ∧ Writable env output units location) ∧
    (result.exitCode ≠ 0 → result.exitCode = 1 ∧
      (result.files = env.files ∨ ∃ location bytes, env.files.creatable output = .ok location ∧
        result.files = env.files.put location (.file bytes))) ∧
    ((¬ ∃ units, Links env o.inputs o.libraries units) ∨
        (∀ location, env.files.creatable output ≠ .ok location) →
      result.exitCode = 1 ∧ result.files = env.files) ∧
    (∀ units location, Links env o.inputs o.libraries units →
      Writable env output units location →
      let linked := linkedProgram env o.libraries units
      ∃ image, linked.HasImage image ∧
        result.files = env.files.put location (.file image) ∧
        result.files.find output = .ok (.file image) ∧
        ∃ text,
          Image.View.read image = .ofLayout (.ofSizes linked.sizes) linked.entry?
            { data := linked.payload .data, text, string := linked.payload .string } ∧
          List.Forall₂ Record.Holds (Record.readAll linked.instructions.length text)
            linked.instructions) ∧
    ∀ args' o', CommandLine.parse args' = .run o' → o'.printModulePath = false →
      o'.output = o.output → o'.inputs = o.inputs → o'.libraries = o.libraries →
      (run env args').exitCode = result.exitCode ∧ (run env args').files = result.files := by
  intro result
  obtain ⟨hcode, hfiles⟩ : result.exitCode = (build env o output).exitCode ∧
      result.files = (build env o output).files :=
    run_eq_build env hparse hrun houtput hinputs
  rw [hcode, hfiles]
  refine ⟨build_ok_iff, ?_, ?_, ?_, ?_⟩
  · exact build_of_ne_zero
  · exact build_before_output
  · intro units location hlinks hwritable linked
    obtain ⟨image, himage, hput, hfind⟩ := hasImage_of_build hlinks hwritable
    exact ⟨image, himage, hput, hfind, hlinks.finished.1.read_of_hasImage himage⟩
  · intro args' o' hparse' hrun' houtput' hinputs' hlibraries'
    obtain ⟨hcode', hfiles'⟩ := run_eq_build env hparse' hrun' (houtput'.trans houtput)
      (hinputs' ▸ hinputs)
    rw [hcode', hfiles']
    exact build_congr hinputs' hlibraries' output

/-- Two sources and a listing of the standard module are linked, and a file that stood in the place
of the output is replaced. Other options come to the same. With an input that is not there the run
fails and that file stays as it was. -/
theorem run_contract_of_two_inputs :
    let file (text : String) : FileNode := .file text.toUTF8.data.toList
    let env : Environment :=
      { moduleDirectory := "lib"
        files := FileTree.empty.addAll
          [("main.asm", file "main: call f\ncall print\nret"),
            ("f.asm", file ".data\nmsg: .ascii \"hi\"\n.text\nf: ret"),
            ("lib/std.sym", file "print = 0x10"), ("out", file "old")] }
    let args := ["-d", "-o", "out", "main.asm", "f.asm"]
    let args' := ["main.asm", "-vsvoout", "f.asm"]
    let incomplete := ["-o", "out", "main.asm", "g.asm"]
    (∃ units location image, Links env ["main.asm", "f.asm"] [] units ∧
      Writable env "out" units location ∧ (linkedProgram env [] units).HasImage image ∧
      (run env args).files.find "out" = .ok (.file image)) ∧
    (run env args').exitCode = 0 ∧ (run env args').files = (run env args).files ∧
    (run env incomplete).exitCode = 1 ∧ (run env incomplete).files = env.files := by
  intro file env args args' incomplete
  have hparse : CommandLine.parse args =
      .run { hidePath := true, output := some "out", inputs := ["main.asm", "f.asm"] } := by
    decide +kernel
  have hparse' : CommandLine.parse args' =
      .run { list := true, verbosity := 2, output := some "out",
             inputs := ["main.asm", "f.asm"] } := by
    decide +kernel
  have hincomplete : CommandLine.parse incomplete =
      .run { output := some "out", inputs := ["main.asm", "g.asm"] } := by
    decide +kernel
  have hzero : (run env args).exitCode = 0 := by decide +kernel
  obtain ⟨hiff, -, -, himage, hother⟩ := run_contract env hparse rfl rfl (by simp)
  obtain ⟨units, location, hlinks, hwritable⟩ := hiff.mp hzero
  obtain ⟨image, hhas, -, hfind, -⟩ := himage units location hlinks hwritable
  obtain ⟨hcode', hfiles'⟩ := hother args' _ hparse' rfl rfl rfl rfl
  -- the second of the inputs cannot be opened
  have hclosed : env.files.source "g.asm" = .error .notFound := by decide +kernel
  have hunlinked : ¬ ∃ units, Links env ["main.asm", "g.asm"] [] units := by
    rintro ⟨units, hlinks⟩
    obtain ⟨_, _, -, hrest, -⟩ := List.forall₂_cons_left_iff.mp hlinks.assembled
    obtain ⟨_, _, ⟨source, _, hsource, -⟩, -, -⟩ := List.forall₂_cons_left_iff.mp hrest
    rw [hclosed] at hsource
    cases hsource
  obtain ⟨-, -, hbefore, -, -⟩ := run_contract env hincomplete rfl rfl (by simp)
  obtain ⟨hone, hsame⟩ := hbefore (.inl hunlinked)
  exact ⟨⟨units, location, image, hlinks, hwritable, hhas, hfind⟩, hcode'.trans hzero, hfiles',
    hone, hsame⟩

end Command

end AsmLinker
