import Mathlib
import AsmLinker.Program.Resolve
import AsmLinker.Proofs.Program.Merge

/-!
# What resolving does

A program that was resolved has the instructions it had, each label operand replaced by the address
that was found for its name, and nothing else of its contents has changed (`resolve_ok`). A name
that no label has is found in the first of the searched modules that exports it
(`exists_first_export`). Where a name is not found, binding stops at its label, with everything
before it bound and everything behind it untouched (`Instruction.bindAll_error`).
-/

namespace AsmLinker

/-! ## Binding operands -/

/-- An operand with its address, if it is a label and one is found. -/
def Operand.bound (find : String → Option UInt64) : Operand → Operand
  | .label name =>
    match find name with
    | some value => .address value
    | none => .label name
  | operand => operand

/-- An instruction with its operands bound. -/
def Instruction.bound (find : String → Option UInt64) (ins : Instruction) : Instruction :=
  { ins with operands := ins.operands.map (Operand.bound find) }

variable {find : String → Option UInt64}

/-- An operand that is no label is bound to itself. -/
theorem Operand.bound_of_ne_label {operand : Operand} (h : ∀ name, operand = .label name → False) :
    operand.bound find = operand := by
  cases operand with
  | label name => exact (h name rfl).elim
  | register | literal | address => rfl

/-- If no name is missing, every operand has been bound. -/
theorem Operand.bindAll_of_none {operands : List Operand}
    (h : (Operand.bindAll find operands).1 = none) :
    (Operand.bindAll find operands).2 = operands.map (Operand.bound find) ∧
      ∀ name, .label name ∈ operands → ∃ value, find name = some value := by
  fun_induction Operand.bindAll find operands with
  | case1 => simp
  | case2 => cases h
  | case3 name rest value hfind missing rest' hrest ih =>
    obtain ⟨hbound, hfound⟩ := ih (by simpa [hrest] using h)
    rw [hrest] at hbound
    dsimp only at hbound
    refine ⟨by simp [Operand.bound, hfind, hbound], ?_⟩
    intro other hmem
    rcases List.mem_cons.mp hmem with hsame | hmem
    · cases hsame
      exact ⟨value, hfind⟩
    · exact hfound other hmem
  | case4 operand rest hlabel missing rest' hrest ih =>
    obtain ⟨hbound, hfound⟩ := ih (by simpa [hrest] using h)
    rw [hrest] at hbound
    dsimp only at hbound
    refine ⟨by simp [Operand.bound_of_ne_label hlabel, hbound], ?_⟩
    intro other hmem
    rcases List.mem_cons.mp hmem with hsame | hmem
    · exact absurd hsame.symm (hlabel other)
    · exact hfound other hmem

/-- If a name is missing, the operands before its label have been bound, and the label and what
stands behind it are as they were. -/
theorem Operand.bindAll_of_some {operands : List Operand} {name : String}
    (h : (Operand.bindAll find operands).1 = some name) :
    ∃ left right, operands = left ++ .label name :: right ∧ find name = none ∧
      (∀ other, .label other ∈ left → ∃ value, find other = some value) ∧
      (Operand.bindAll find operands).2 =
        left.map (Operand.bound find) ++ .label name :: right := by
  fun_induction Operand.bindAll find operands with
  | case1 => cases h
  | case2 other rest hmissing =>
    cases h
    exact ⟨[], rest, rfl, hmissing, by simp, rfl⟩
  | case3 other rest value hfind missing rest' hrest ih =>
    -- this label is found, so that the missing one stands behind it
    rw [hrest] at ih
    obtain ⟨left, right, rfl, hnone, hfound, hbound⟩ := ih h
    refine ⟨.label other :: left, right, rfl, hnone, ?_, ?_⟩
    · intro another hmem
      rcases List.mem_cons.mp hmem with hsame | hmem
      · cases hsame
        exact ⟨value, hfind⟩
      · exact hfound another hmem
    · simp only [Operand.bound, hfind, List.map_cons, List.cons_append, List.cons.injEq, true_and]
      exact hbound
  | case4 operand rest hlabel missing rest' hrest ih =>
    rw [hrest] at ih
    obtain ⟨left, right, rfl, hnone, hfound, hbound⟩ := ih h
    refine ⟨operand :: left, right, rfl, hnone, ?_, ?_⟩
    · intro another hmem
      rcases List.mem_cons.mp hmem with hsame | hmem
      · exact (hlabel another hsame.symm).elim
      · exact hfound another hmem
    · rw [List.map_cons, Operand.bound_of_ne_label hlabel, List.cons_append, List.cons.injEq]
      exact ⟨rfl, hbound⟩

/-- If binding instructions goes well, every label operand has been found and bound. -/
theorem Instruction.bindAll_ok {instructions bound : List Instruction}
    (h : Instruction.bindAll find instructions = (.ok (), bound)) :
    bound = instructions.map (Instruction.bound find) ∧
      ∀ ins ∈ instructions, ∀ name, .label name ∈ ins.operands →
        ∃ value, find name = some value := by
  induction instructions generalizing bound with
  | nil =>
    cases h
    simp
  | cons ins rest ih =>
    rw [Instruction.bindAll] at h
    dsimp only at h
    split at h
    · cases h
    next hnone =>
      obtain ⟨hbound, hfound⟩ := Operand.bindAll_of_none hnone
      rcases hrest : Instruction.bindAll find rest with ⟨outcome, rest'⟩
      rw [hrest] at h
      obtain ⟨rfl, rfl⟩ : outcome = .ok () ∧ _ = bound := by simpa using h
      obtain ⟨hmap, hall⟩ := ih hrest
      refine ⟨by rw [hmap, hbound]; rfl, ?_⟩
      intro other hmem
      rcases List.mem_cons.mp hmem with rfl | hmem
      · exact hfound
      · exact hall other hmem

/-- If binding instructions fails, it stops at the first label that is not found: what stands before
that label has been bound, and what stands behind it is as it was. The error shows the instruction
as it is then. -/
theorem Instruction.bindAll_error {instructions bound : List Instruction} {e : Error}
    (h : Instruction.bindAll find instructions = (.error e, bound)) :
    ∃ earlier ins later left name right,
      instructions = earlier ++ ins :: later ∧ ins.operands = left ++ .label name :: right ∧
      find name = none ∧
      (∀ other ∈ earlier, ∀ name, .label name ∈ other.operands → ∃ value, find name = some value) ∧
      (∀ other, .label other ∈ left → ∃ value, find other = some value) ∧
      let stopped : Instruction :=
        { ins with operands := left.map (Operand.bound find) ++ .label name :: right }
      e = .unresolved ins.line name stopped.text ∧
      bound = earlier.map (Instruction.bound find) ++ stopped :: later := by
  induction instructions generalizing bound with
  | nil => cases h
  | cons ins rest ih =>
    rw [Instruction.bindAll] at h
    dsimp only at h
    split at h
    next name hmissing =>
      obtain ⟨left, right, hoperands, hnone, hfound, hbound⟩ := Operand.bindAll_of_some hmissing
      rw [hbound] at h
      cases h
      exact ⟨[], ins, rest, left, name, right, rfl, hoperands, hnone, by simp, hfound, rfl, rfl⟩
    next hnone =>
      obtain ⟨hbound, hall⟩ := Operand.bindAll_of_none hnone
      rcases hrest : Instruction.bindAll find rest with ⟨outcome, rest'⟩
      rw [hrest] at h
      obtain ⟨rfl, rfl⟩ : outcome = .error e ∧ _ = bound := by simpa using h
      obtain ⟨earlier, other, later, left, name, right, rfl, hoperands, hmissing, hearlier, hleft,
        herror, rfl⟩ := ih hrest
      refine ⟨ins :: earlier, other, later, left, name, right, rfl, hoperands, hmissing,
        List.forall_mem_cons.mpr ⟨hall, hearlier⟩, hleft, herror, ?_⟩
      rw [hbound]
      rfl
namespace Program

variable {σ : Type} [SymbolProvider σ] {p : Program} {modules : List String} {provider : σ}

/-! ## Loading modules -/

/-- Modules that were loaded stay loaded, in front of further ones. -/
theorem prefix_loadAll (optional : String → Bool) (search loaded : List String) (provider : σ)
    (log : List LogRecord) : loaded <+: (loadAll optional search loaded provider log).2 := by
  fun_induction loadAll optional search loaded provider log with
  | case1 => exact List.prefix_rfl
  | case2 _ _ _ _ _ _ ih => exact ih
  | case3 _ _ _ _ _ _ _ _ _ ih => exact (List.prefix_append _ _).trans ih
  | case4 _ _ _ _ _ _ _ _ _ _ _ _ ih => exact ih
  | case5 => exact List.prefix_rfl

/-- What is found in modules that were loaded is found in those that were loaded before, or in a
searched one such that no module before it gives it, those apart that nobody asked for. -/
theorem exists_first_of_loadAll {α : Type} {optional : String → Bool} {search loaded : List String}
    {log : List LogRecord} (f : String → Option α) {value : α}
    (hok : (loadAll optional search loaded provider log).1.outcome = .ok ())
    (h : (loadAll optional search loaded provider log).2.findSome? f = some value) :
    loaded.findSome? f = some value ∨
      loaded.findSome? f = none ∧ ∃ before name after, search = before ++ name :: after ∧
        name ∈ (loadAll optional search loaded provider log).2 ∧ f name = some value ∧
        ∀ other ∈ before, optional other = false → f other = none := by
  fun_induction loadAll optional search loaded provider log with
  | case1 => exact .inl h
  | case2 name rest loaded provider log hmem ih =>
    rcases ih hok h with hold | ⟨hnone, before, found, after, rfl, hin, hfound, hfirst⟩
    · exact .inl hold
    · -- a module that is named twice was searched the first time
      have hname : f name = none := List.findSome?_eq_none_iff.mp hnone name hmem
      refine .inr ⟨hnone, name :: before, found, after, rfl, hin, hfound, ?_⟩
      simpa [hname] using hfirst
  | case3 name rest loaded provider log hmem loading log' houtcome ih =>
    have hlast := prefix_loadAll optional rest (loaded ++ [name]) loading.provider log'
    rcases ih hok h with hold | ⟨hnone, before, found, after, rfl, hin, hfound, hfirst⟩
    · rw [List.findSome?_append, Option.or_eq_some_iff] at hold
      rcases hold with hold | ⟨hnone, hname⟩
      · exact .inl hold
      · refine .inr ⟨hnone, [], name, rest, rfl, hlast.subset (by simp), by simpa using hname, ?_⟩
        simp
    · rw [List.findSome?_append, Option.or_eq_none_iff] at hnone
      have hname : f name = none := by simpa using hnone.2
      refine .inr ⟨hnone.1, name :: before, found, after, rfl, hin, hfound, ?_⟩
      simpa [hname] using hfirst
  | case4 name rest loaded provider log hmem loading log' e houtcome hskip warning ih =>
    rcases ih hok h with hold | ⟨hnone, before, found, after, rfl, hin, hfound, hfirst⟩
    · exact .inl hold
    · -- the module was skipped, and only one that nobody asked for is
      have hoptional : optional name = true := (Bool.and_eq_true_iff.mp hskip).2
      refine .inr ⟨hnone, name :: before, found, after, rfl, hin, hfound, ?_⟩
      simpa [hoptional] using hfirst
  | case5 => cases hok

/-! ## Resolving -/

/-- The address that resolving finds for a name. -/
def lookup (p : Program) (modules : List String) (provider : σ) : String → Option UInt64 :=
  let r := p.resolve modules provider
  p.address? (.ofSizes p.sizes) r.provider r.program.dependencies

/-- What a program is when it has been resolved: every label operand is bound, the layout is that of
its sections, and everything else is as it was. -/
theorem resolve_ok (h : (p.resolve modules provider).outcome = .ok ()) :
    let r := p.resolve modules provider
    r.program =
        { p with
          instructions := p.instructions.map (Instruction.bound (p.lookup modules provider))
          dependencies := r.program.dependencies
          layout := some (.ofSizes p.sizes) } ∧
      (∀ ins ∈ p.instructions, ∀ name, .label name ∈ ins.operands →
        ∃ value, p.lookup modules provider name = some value) ∧
      ∃ loading, loadAll (fun name => decide (standardModule ∉ modules) && name == standardModule)
          (searchList modules) [] provider [] = (loading, r.program.dependencies) ∧
        loading.outcome = .ok () ∧ loading.provider = r.provider := by
  unfold lookup
  unfold resolve at h ⊢
  dsimp only at h ⊢
  rcases hload : loadAll (fun name => decide (standardModule ∉ modules) && name == standardModule)
    (searchList modules) [] provider [] with ⟨loading, loaded⟩
  rw [hload] at h
  dsimp only at h ⊢
  rcases hloading : loading.outcome with e | ⟨⟩
  · rw [hloading] at h
    cases h
  · rw [hloading] at h
    dsimp only at h ⊢
    rcases hbind : Instruction.bindAll (p.address? (.ofSizes p.sizes) loading.provider loaded)
      p.instructions with ⟨e | ⟨⟩, bound⟩
    · rw [hbind] at h
      cases h
    · obtain ⟨rfl, hfound⟩ := Instruction.bindAll_ok hbind
      exact ⟨rfl, hfound, loading, rfl, hloading, rfl⟩

/-- A name without a label is found in the first of the searched modules that exports it, and that
module was loaded. -/
theorem exists_first_export (h : (p.resolve modules provider).outcome = .ok ()) {name : String}
    {value : UInt64}
    (hfound : (p.resolve modules provider).program.dependencies.findSome?
      (fun module => SymbolProvider.symbol? (p.resolve modules provider).provider module name) =
        some value) :
    ∃ before module after, searchList modules = before ++ module :: after ∧
      module ∈ (p.resolve modules provider).program.dependencies ∧
      SymbolProvider.symbol? (p.resolve modules provider).provider module name = some value ∧
      ∀ other ∈ before,
        SymbolProvider.symbol? (p.resolve modules provider).provider other name = none := by
  obtain ⟨-, -, loading, hload, hok, -⟩ := resolve_ok h
  have hfirst := exists_first_of_loadAll
    (fun module => SymbolProvider.symbol? (p.resolve modules provider).provider module name)
    (by rw [hload]; exact hok) (by rw [hload]; exact hfound)
  rw [hload] at hfirst
  rcases hfirst with hnil | ⟨-, before, module, after, hsearch, hin, hvalue, hnone⟩
  · cases hnil
  · refine ⟨before, module, after, hsearch, hin, hvalue, ?_⟩
    intro other hother
    apply hnone other hother
    -- only the appended standard module is optional, and it is the last one
    by_cases hasked : standardModule ∈ modules
    · simp [hasked]
    · rw [searchList, if_neg hasked] at hsearch
      have hinitial : before <+: modules := by
        have hshort : before.length ≤ modules.length := by
          have hlength := congrArg List.length hsearch
          simp only [List.length_append, List.length_cons, List.length_nil] at hlength
          omega
        exact List.prefix_of_prefix_length_le ⟨_, hsearch.symm⟩ (List.prefix_append _ _) hshort
      have hne : other ≠ standardModule := by
        rintro rfl
        exact hasked (hinitial.subset hother)
      simp [hne]

end Program

end AsmLinker
