import Mathlib
import AsmLinker.Proofs.Program.Resolve

/-!
# Programs that are merged and resolved in any order

A call of `resolve` binds some label operands and changes nothing else of a program's contents,
whether it goes well or not: the program settles (`Program.resolve_settles`). So a program that was
reached by merging units and resolving it, in any order and with any outcomes, is well formed
(`Program.Reachable.wellFormed`).

The data of a well-formed program and of a unit lies under labels of theirs. Merging a unit is
therefore all or nothing (`Program.merge_all_or_nothing`): once its labels have been accepted its
data cannot be refused, and a unit whose labels are refused leaves no trace.
-/

namespace AsmLinker

/-! ## Settling -/

/-- An operand is kept, or it was a label and has become an address that was given for its name. -/
inductive Operand.Settles (given : String → UInt64 → Prop) : Operand → Operand → Prop
  | kept (operand : Operand) : Settles given operand operand
  | bound {name : String} {value : UInt64} (hgiven : given name value) :
      Settles given (.label name) (.address value)

/-- The operands of an instruction settle, and the rest of it is kept. -/
structure Instruction.Settles (given : String → UInt64 → Prop) (ins ins' : Instruction) :
    Prop where
  /-- Only the operands may differ. -/
  rest : ins' = { ins with operands := ins'.operands }
  /-- Each operand settles. -/
  operands : List.Forall₂ (Operand.Settles given) ins.operands ins'.operands

/-- The instructions of a program settle, and its labels, its data and its sizes are kept. -/
structure Program.Settles (given : String → UInt64 → Prop) (p q : Program) : Prop where
  /-- The labels are kept. -/
  labels : q.labels = p.labels
  /-- The data is kept. -/
  data : q.data = p.data
  /-- The sizes are kept. -/
  sizes : q.sizes = p.sizes
  /-- Each instruction settles. -/
  instructions : List.Forall₂ (Instruction.Settles given) p.instructions q.instructions

variable {given : String → UInt64 → Prop}

theorem Operand.settles_refl (operands : List Operand) :
    List.Forall₂ (Operand.Settles given) operands operands :=
  List.forall₂_same.mpr fun operand _ => .kept operand

theorem Instruction.settles_refl (instructions : List Instruction) :
    List.Forall₂ (Instruction.Settles given) instructions instructions :=
  List.forall₂_same.mpr fun ins _ => ⟨rfl, Operand.settles_refl ins.operands⟩

theorem Program.Settles.refl (p : Program) : p.Settles given p :=
  ⟨rfl, rfl, rfl, Instruction.settles_refl p.instructions⟩

/-- Binding operands settles them to what is found, also where it stops at a missing name. -/
theorem Operand.bindAll_settles (find : String → Option UInt64) (operands : List Operand) :
    List.Forall₂ (Operand.Settles fun name value => find name = some value) operands
      (Operand.bindAll find operands).2 := by
  fun_induction Operand.bindAll find operands with
  | case1 => exact .nil
  | case2 name rest hmissing => exact Operand.settles_refl _
  | case3 name rest value hfound missing rest' hrest ih =>
    rw [hrest] at ih
    exact .cons (.bound hfound) ih
  | case4 operand rest hlabel missing rest' hrest ih =>
    rw [hrest] at ih
    exact .cons (.kept operand) ih

/-- Binding instructions settles them to what is found, also where it stops at a missing name. -/
theorem Instruction.bindAll_settles (find : String → Option UInt64)
    (instructions : List Instruction) :
    List.Forall₂ (Instruction.Settles fun name value => find name = some value) instructions
      (Instruction.bindAll find instructions).2 := by
  induction instructions with
  | nil => exact .nil
  | cons ins rest ih =>
    have hins : Instruction.Settles (fun name value => find name = some value) ins
        { ins with operands := (Operand.bindAll find ins.operands).2 } :=
      ⟨rfl, Operand.bindAll_settles find ins.operands⟩
    rw [Instruction.bindAll]
    dsimp only
    split
    · -- the instructions behind the missing name are not reached
      exact .cons hins (Instruction.settles_refl rest)
    · exact .cons hins ih

namespace Program

variable {σ : Type} [SymbolProvider σ] {p q : Program} {u : SourceUnit}

/-! ## Any call of `resolve` -/

/-- Loads the modules that are searched for a program. -/
def search (modules : List String) (provider : σ) : Loading σ × List String :=
  loadAll (fun name => decide (standardModule ∉ modules) && name == standardModule)
    (searchList modules) [] provider []

/-- The value of a name in the first module that was loaded and exports it. -/
def exported (modules : List String) (provider : σ) (name : String) : Option UInt64 :=
  (search modules provider).2.findSome? fun module =>
    SymbolProvider.symbol? (search modules provider).1.provider module name

/-- The address of a name under the present labels and sizes: that of the program's own label, or
the value that a searched module exports. -/
def finds (p : Program) (modules : List String) (provider : σ) (name : String) : Option UInt64 :=
  match p.labels.get? name with
  | some label => some ((Layout.ofSizes p.sizes).address label)
  | none => exported modules provider name

/-- What a call of `resolve` can do to a program. -/
inductive Resolves (p : Program) (modules : List String) (provider : σ) :
    Except Error Unit → Program → Prop
  /-- A module cannot be loaded, and the program is not touched. -/
  | unloaded {e : Error} (hload : (search modules provider).1.outcome = .error e) :
      Resolves p modules provider (.error e) p
  /-- A name is missing; what was bound before it stays bound. -/
  | unbound {e : Error} {instructions : List Instruction}
      (hload : (search modules provider).1.outcome = .ok ())
      (hbind : Instruction.bindAll (p.finds modules provider) p.instructions =
        (.error e, instructions)) :
      Resolves p modules provider (.error e) { p with instructions }
  /-- Every name is found. -/
  | bound {instructions : List Instruction}
      (hload : (search modules provider).1.outcome = .ok ())
      (hbind : Instruction.bindAll (p.finds modules provider) p.instructions =
        (.ok (), instructions)) :
      Resolves p modules provider (.ok ())
        { p with
          instructions
          dependencies := (search modules provider).2
          layout := some (.ofSizes p.sizes) }

theorem resolve_resolves (p : Program) (modules : List String) (provider : σ) :
    Resolves p modules provider (p.resolve modules provider).outcome
      (p.resolve modules provider).program := by
  rcases hsearch : search modules provider with ⟨loading, loaded⟩
  have hload : loadAll (fun name => decide (standardModule ∉ modules) && name == standardModule)
      (searchList modules) [] provider [] = (loading, loaded) := hsearch
  have hfinds : p.address? (.ofSizes p.sizes) loading.provider loaded =
      p.finds modules provider := by
    funext name
    rw [finds, exported, hsearch]
    rfl
  unfold resolve
  dsimp only
  rw [hload]
  dsimp only
  rcases houtcome : loading.outcome with e | ⟨⟩
  · exact .unloaded (by rw [hsearch, houtcome])
  · have hok : (search modules provider).1.outcome = .ok () := by rw [hsearch, houtcome]
    dsimp only
    rw [hfinds]
    rcases hbind : Instruction.bindAll (p.finds modules provider) p.instructions with
      ⟨e | ⟨⟩, instructions⟩
    · exact .unbound hok hbind
    · have hbound := Resolves.bound hok hbind
      rw [hsearch] at hbound
      exact hbound

/-- A call of `resolve` settles the program to the addresses that it finds, whatever its outcome. -/
theorem resolve_settles (p : Program) (modules : List String) (provider : σ) :
    p.Settles (fun name value => p.finds modules provider name = some value)
      (p.resolve modules provider).program := by
  have hbinds := Instruction.bindAll_settles (p.finds modules provider) p.instructions
  have hresolves := resolve_resolves p modules provider
  generalize (p.resolve modules provider).outcome = outcome at hresolves
  generalize (p.resolve modules provider).program = q at hresolves ⊢
  cases hresolves with
  | unloaded => exact .refl p
  | unbound _ hbind | bound _ hbind =>
    rw [hbind] at hbinds
    exact ⟨rfl, rfl, rfl, hbinds⟩

/-! ## Reachable programs -/

/-- Instructions that have settled have the opcodes and the numbers of operands that they had. -/
theorem Settles.arity (h : p.Settles given q) (hp : ∀ ins ∈ p.instructions,
    ins.operands.length = ins.op.slots.length) :
    ∀ ins ∈ q.instructions, ins.operands.length = ins.op.slots.length := by
  intro ins hmem
  obtain ⟨i, hi, rfl⟩ := List.getElem_of_mem hmem
  obtain ⟨hlength, hget⟩ := List.forall₂_iff_get.mp h.instructions
  obtain ⟨hrest, hoperands⟩ := hget i (hlength ▸ hi) hi
  have hop : (q.instructions.get ⟨i, hi⟩).op = (p.instructions.get ⟨i, hlength ▸ hi⟩).op := by
    rw [hrest]
  change (q.instructions.get ⟨i, hi⟩).operands.length = (q.instructions.get ⟨i, hi⟩).op.slots.length
  rw [hop, ← hoperands.length_eq]
  exact hp _ (List.get_mem _ _)

/-- A program stays well formed when it settles. -/
theorem Settles.wellFormed (h : p.Settles given q) (hp : p.WellFormed) : q.WellFormed := by
  have hcontents : q.contents = { p.contents with instructions := q.instructions } := by
    rw [contents, contents, h.labels, h.data]
  -- the text section has as many records as before, and the others are not touched
  have hsizes : q.contents.sizes = p.contents.sizes := by
    rw [hcontents, SourceUnit.sizes, SourceUnit.sizes]
    change PerSection.mk _ (Record.size * q.instructions.length) _ =
      PerSection.mk _ (Record.size * p.instructions.length) _
    rw [h.instructions.length_eq]
  have harity := h.arity hp.contents.arity
  refine ⟨⟨?_, ?_, ?_, ?_, harity⟩, by rw [h.sizes, hsizes, hp.sizes]⟩
  · rw [hsizes, hcontents]
    exact hp.contents.data_filled
  · rw [hcontents]
    exact hp.contents.data_home
  · rw [hcontents]
    exact hp.contents.data_label
  · rw [hsizes, hcontents]
    exact hp.contents.label_le

/-- A program that was reached from the empty one by merging assembled units and by resolving it
against any modules of any provider, in any order and whatever each call came to. -/
inductive Reachable : Program → Prop
  | empty : Reachable {}
  | merge {p : Program} {u : SourceUnit} (h : Reachable p) (hu : u.Assembled) :
      Reachable (p.merge u).2
  | resolve {p : Program} {σ : Type} [SymbolProvider σ] (h : Reachable p) (modules : List String)
      (provider : σ) : Reachable (p.resolve modules provider).program

/-- A well-formed unit is merged, or it is refused and the program stays as it was. -/
theorem merge_eq_or_merged (hp : p.WellFormed) (hu : u.WellFormed) :
    (p.merge u).2 = p ∨ Merged p u (p.merge u).2 := by
  cases hfind : u.labels.entries.find? (fun entry => p.labels.contains entry.1) with
  | some entry =>
    obtain ⟨name, label⟩ := entry
    left
    rw [merge_of_shared hfind]
  | none =>
    obtain ⟨q, hmerge, hmerged⟩ :=
      merge_of_disjoint hp.contents hu (find?_eq_none_iff_disjoint.mp hfind)
    right
    rw [hmerge]
    exact hmerged

theorem WellFormed.merge (hp : p.WellFormed) (hu : u.WellFormed) : (p.merge u).2.WellFormed := by
  rcases merge_eq_or_merged hp hu with hsame | hmerged
  · rw [hsame]
    exact hp
  · exact hmerged.wellFormed hp hu

theorem Reachable.wellFormed (h : p.Reachable) : p.WellFormed := by
  induction h with
  | empty => exact wellFormed_empty
  | merge _ hu ih => exact ih.merge hu.wellFormed
  | resolve _ modules provider ih => exact (resolve_settles _ modules provider).wellFormed ih

/-! ## Merging is all or nothing -/

/-- A unit that was merged went through all three parts. -/
theorem parts_of_merge (h : p.merge u = (.ok (), q)) :
    ∃ p₁ p₂, p.mergeLabels u.labels = .ok p₁ ∧ p₁.mergeData u.data = .ok p₂ ∧
      q = p₂.mergeInstructions u.instructions := by
  unfold merge at h
  split at h
  · cases h
  next p₁ hlabels =>
    split at h
    · cases h
    next p₂ hdata =>
      cases h
      exact ⟨p₁, p₂, hlabels, hdata, rfl⟩

/-- Labels that share a name with the program are refused with the first such name. -/
theorem mergeLabels_of_shared {labels : Table Label} {name : String} {label : Label}
    (h : labels.entries.find? (fun entry => p.labels.contains entry.1) = some (name, label)) :
    p.mergeLabels labels = .error (.duplicateLabel (some label.line) name) := by
  rw [mergeLabels, h]

/-- Of tables that share a name, the second one has a first name that they share. -/
theorem exists_first_shared {labels : Table Label} (h : ¬ p.labels.Disjoint labels) :
    ∃ before name label after, labels.entries = before ++ (name, label) :: after ∧
      name ∈ p.labels.keys ∧ (∀ entry ∈ before, entry.1 ∉ p.labels.keys) ∧
      labels.entries.find? (fun entry => p.labels.contains entry.1) = some (name, label) := by
  cases hfind : labels.entries.find? (fun entry => p.labels.contains entry.1) with
  | none => exact absurd (find?_eq_none_iff_disjoint.mp hfind) h
  | some entry =>
    obtain ⟨name, label⟩ := entry
    obtain ⟨hshared, before, after, hentries, hbefore⟩ := List.find?_eq_some_iff_append.mp hfind
    refine ⟨before, name, label, after, hentries, Table.contains_eq_true.mp hshared, ?_, rfl⟩
    intro other hother hmem
    have hnot := hbefore other hother
    rw [Table.contains_eq_true.mpr hmem] at hnot
    cases hnot

/-- Merging an assembled unit into a reachable program is all or nothing.
* If they share no label, its labels, its data and its instructions are all merged.
* Otherwise its labels are refused, with the first of them, in order of definition, that the program
  has and with its line in the unit, and the program is exactly as it was.
* So its data is never refused once its labels have been merged. -/
theorem merge_all_or_nothing (hp : p.Reachable) (hu : u.Assembled) :
    (p.labels.Disjoint u.labels → ∃ p₁ p₂, p.mergeLabels u.labels = .ok p₁ ∧
      p₁.mergeData u.data = .ok p₂ ∧
      p.merge u = (.ok (), p₂.mergeInstructions u.instructions) ∧
      Merged p u (p₂.mergeInstructions u.instructions)) ∧
    (¬ p.labels.Disjoint u.labels → ∃ before name label after,
      u.labels.entries = before ++ (name, label) :: after ∧ name ∈ p.labels.keys ∧
      (∀ entry ∈ before, entry.1 ∉ p.labels.keys) ∧
      p.mergeLabels u.labels = .error (.duplicateLabel (some label.line) name) ∧
      p.merge u = (.error (.duplicateLabel (some label.line) name), p)) ∧
    ∀ p₁, p.mergeLabels u.labels = .ok p₁ → ∃ p₂, p₁.mergeData u.data = .ok p₂ := by
  have hall : p.labels.Disjoint u.labels → ∃ p₁ p₂, p.mergeLabels u.labels = .ok p₁ ∧
      p₁.mergeData u.data = .ok p₂ ∧
      p.merge u = (.ok (), p₂.mergeInstructions u.instructions) ∧
      Merged p u (p₂.mergeInstructions u.instructions) := by
    intro hdisjoint
    obtain ⟨q, hmerge, hmerged⟩ :=
      merge_of_disjoint hp.wellFormed.contents hu.wellFormed hdisjoint
    obtain ⟨p₁, p₂, hlabels, hdata, rfl⟩ := parts_of_merge hmerge
    exact ⟨p₁, p₂, hlabels, hdata, hmerge, hmerged⟩
  refine ⟨hall, ?_, ?_⟩
  · intro hshared
    obtain ⟨before, name, label, after, hentries, hname, hbefore, hfind⟩ :=
      exists_first_shared hshared
    exact ⟨before, name, label, after, hentries, hname, hbefore, mergeLabels_of_shared hfind,
      merge_of_shared hfind⟩
  · intro p₁ hlabels
    -- labels that are accepted share no name with the program
    by_cases hdisjoint : p.labels.Disjoint u.labels
    · obtain ⟨p₁', p₂, hlabels', hdata, -⟩ := hall hdisjoint
      obtain rfl : p₁ = p₁' := Except.ok.inj (hlabels.symm.trans hlabels')
      exact ⟨p₂, hdata⟩
    · obtain ⟨_, name, label, _, -, -, -, hfind⟩ := exists_first_shared hdisjoint
      rw [mergeLabels_of_shared hfind] at hlabels
      cases hlabels

/-- A program that could not be resolved takes a unit with new labels. It refuses one whose assembly
stopped at an error when only the second of its labels is there already. -/
theorem merge_all_or_nothing_of_unresolved :
    let unit (text : String) : SourceUnit :=
      ((Assembly.ofSource "unit" (.ofBytes text.toUTF8.data.toList)).calls 1).unit
    let merged := (({} : Program).merge (unit ".data\nmsg: .ascii \"hi\"\n.text\nf: call g")).2
    let resolved := merged.resolve [] ({} : MemoryModules)
    let fresh := unit "g: ret\n.string\nend: .asciz \"\""
    let clash := unit "g: ret\nf: ret\nret x0"
    resolved.outcome = .error (.unresolved 4 "g" "call g") ∧
      (∃ q, resolved.program.merge fresh = (.ok (), q) ∧ Merged resolved.program fresh q) ∧
      ∃ name line, resolved.program.merge clash =
        (.error (.duplicateLabel (some line) name), resolved.program) := by
  intro unit merged resolved fresh clash
  have houtcome : resolved.outcome = .error (.unresolved 4 "g" "call g") := by decide +kernel
  have hdisjoint : ∀ name ∈ fresh.labels.keys, name ∉ resolved.program.labels.keys := by
    decide +kernel
  have hshared : ¬ ∀ name ∈ clash.labels.keys, name ∉ resolved.program.labels.keys := by
    decide +kernel
  have hreachable : resolved.program.Reachable :=
    .resolve (.merge .empty ⟨_, _, _, rfl⟩) [] ({} : MemoryModules)
  have hfresh := merge_all_or_nothing hreachable (u := fresh) ⟨_, _, _, rfl⟩
  have hclash := merge_all_or_nothing hreachable (u := clash) ⟨_, _, _, rfl⟩
  obtain ⟨_, _, -, -, hmerge, hmerged⟩ := hfresh.1 hdisjoint
  obtain ⟨_, name, label, _, -, -, -, -, hrefused⟩ := hclash.2.1 hshared
  exact ⟨houtcome, ⟨_, hmerge, hmerged⟩, name, label.line, hrefused⟩

end Program

end AsmLinker
