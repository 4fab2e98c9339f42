import Mathlib
import AsmLinker.Proofs.Program.Resolved
import AsmLinker.Proofs.Program.Search

/-!
# What a call of `resolve` comes to

A name is known if the program has a label of that name or one of the searched modules exports it,
and then it has an address (`Program.Located`): the label goes before the modules, and of the
modules the first one counts. A call goes well exactly if the searched modules can be loaded and the
name of every label operand is known, and it then binds each of these operands to the address of its
name (`Program.resolve_binds`).

A call that fails touches nothing but operands. It stops at the first module that is refused, before
any operand is bound, or at the first label operand whose name is not known, with the operands
before it bound (`Program.failed_resolve_leaves`).
-/

namespace AsmLinker

/-! ## Operands with their addresses -/

/-- An operand that is no label is kept, and a label becomes an address of its name. -/
inductive Operand.BindsTo (located : String → UInt64 → Prop) : Operand → Operand → Prop
  | kept {operand : Operand} (h : ∀ name, operand ≠ .label name) : BindsTo located operand operand
  | label {name : String} {value : UInt64} (h : located name value) :
      BindsTo located (.label name) (.address value)

/-- The operands of an instruction are bound, and the rest of it is kept. -/
structure Instruction.BindsTo (located : String → UInt64 → Prop) (ins ins' : Instruction) :
    Prop where
  /-- The opcode is kept. -/
  op : ins'.op = ins.op
  /-- The flags are kept. -/
  flags : ins'.flags = ins.flags
  /-- The label is kept. -/
  label : ins'.label = ins.label
  /-- The line is kept. -/
  line : ins'.line = ins.line
  /-- Each operand is bound in its place. -/
  operands : List.Forall₂ (Operand.BindsTo located) ins.operands ins'.operands

variable {find : String → Option UInt64} {located : String → UInt64 → Prop}

/-- Operands whose names are all found bind to what is found. -/
theorem Operand.bindsTo_bound {operands : List Operand}
    (hlocated : ∀ name value, find name = some value → located name value)
    (hfound : ∀ name, .label name ∈ operands → ∃ value, find name = some value) :
    List.Forall₂ (Operand.BindsTo located) operands (operands.map (Operand.bound find)) := by
  rw [List.forall₂_map_right_iff, List.forall₂_same]
  intro operand hmem
  cases operand with
  | label name =>
    obtain ⟨value, hvalue⟩ := hfound name hmem
    rw [Operand.bound, hvalue]
    exact .label (hlocated name value hvalue)
  | register | literal | address => exact .kept (by simp)

/-- Instructions whose names are all found bind to what is found. -/
theorem Instruction.bindsTo_bound {instructions : List Instruction}
    (hlocated : ∀ name value, find name = some value → located name value)
    (hfound : ∀ ins ∈ instructions, ∀ name, .label name ∈ ins.operands →
      ∃ value, find name = some value) :
    List.Forall₂ (Instruction.BindsTo located) instructions
      (instructions.map (Instruction.bound find)) := by
  rw [List.forall₂_map_right_iff, List.forall₂_same]
  intro ins hins
  exact ⟨rfl, rfl, rfl, rfl, Operand.bindsTo_bound hlocated (hfound ins hins)⟩

namespace Program

variable {σ : Type} [SymbolProvider σ] {p : Program} {modules : List String} {provider : σ}
  {name : String} {value : UInt64} {e : Error}

/-! ## Names and their addresses -/

/-- The address of every label fits into a word. -/
def Addressable (p : Program) : Prop :=
  ∀ name label, p.labels.get? name = some label →
    (Layout.ofSizes p.sizes).starts.get label.home + label.offset < 2 ^ 64

theorem addressable_of_entries (h : ∀ entry ∈ p.labels.entries,
    (Layout.ofSizes p.sizes).starts.get entry.2.home + entry.2.offset < 2 ^ 64) : p.Addressable :=
  fun name label hlabel => h (name, label) (Table.get?_eq_some_iff.mp hlabel)

/-- The value that a module gives to a name when all modules of the search order have been asked
for. -/
def moduleSymbol? (modules : List String) (provider : σ) (module name : String) : Option UInt64 :=
  SymbolProvider.symbol? (asked provider (searchOrder modules)) module name

/-- The program has a label of that name, or a module that is searched exports it. -/
def Known (p : Program) (modules : List String) (provider : σ) (name : String) : Prop :=
  name ∈ p.labels.keys ∨
    ∃ module ∈ searched modules provider,
      ∃ value, moduleSymbol? modules provider module name = some value

/-- The address of a name. -/
inductive Located (p : Program) (modules : List String) (provider : σ) (name : String)
    (value : UInt64) : Prop
  /-- The program's own label lies in its section, which lies behind the sections before it. -/
  | own {label : Label} (hlabel : p.labels.get? name = some label)
      (hvalue : value.toNat = (Layout.ofSizes p.sizes).starts.get label.home + label.offset) :
      Located p modules provider name value
  /-- The program has no such label, and this is the first searched module that exports the name. -/
  | exported {before after : List String} {module : String} (hlabel : p.labels.get? name = none)
      (hsearched : searched modules provider = before ++ module :: after)
      (hbefore : ∀ other ∈ before, moduleSymbol? modules provider other name = none)
      (hvalue : moduleSymbol? modules provider module name = some value) :
      Located p modules provider name value

/-- When the modules have been loaded, a name is looked up in those that are searched. -/
theorem exported_of_ok (h : (search modules provider).1.outcome = .ok ()) (name : String) :
    exported modules provider name =
      (searched modules provider).findSome? (moduleSymbol? modules provider · name) := by
  obtain ⟨hprovider, hmodules⟩ := search_of_ok h
  rw [exported, hprovider, hmodules]
  rfl

/-- What is found for a name is its address. -/
theorem located_of_finds (hp : p.Addressable) (h : (search modules provider).1.outcome = .ok ())
    (hfinds : p.finds modules provider name = some value) :
    p.Located modules provider name value := by
  rw [finds] at hfinds
  -- the program's own label goes first, and its address does not wrap
  cases hlabel : p.labels.get? name with
  | some label =>
    rw [hlabel] at hfinds
    obtain rfl := Option.some.inj hfinds
    refine .own hlabel ?_
    rw [Layout.address, UInt64.toNat_ofNat_of_lt' (hp name label hlabel)]
  | none =>
    rw [hlabel] at hfinds
    dsimp only at hfinds
    rw [exported_of_ok h, List.findSome?_eq_some_iff] at hfinds
    obtain ⟨before, module, after, hsearched, hvalue, hbefore⟩ := hfinds
    exact .exported hlabel hsearched hbefore hvalue

/-- A name is found exactly if it is known. -/
theorem exists_finds_iff_known (h : (search modules provider).1.outcome = .ok ()) :
    (∃ value, p.finds modules provider name = some value) ↔ p.Known modules provider name := by
  rw [exists_finds_iff, Known, exported_of_ok h]
  simp only [← Option.isSome_iff_exists, List.findSome?_isSome_iff]

/-! ## Calls that go well -/

/-- What a call of `resolve` that goes well does to a program whose labels have addresses, and when
it goes well.
* It goes well exactly if each of the searched modules can be loaded and the name of each label
  operand is known.
* It remembers the searched modules, binds each label operand to the address of its name, and leaves
  the labels, the data, the sizes and the rest of each instruction as they were. -/
theorem resolve_binds (hp : p.Addressable) (modules : List String) (provider : σ) :
    ((p.resolve modules provider).outcome = .ok () ↔
      AllLoad provider (searched modules provider) ∧
      ∀ ins ∈ p.instructions, ∀ name, .label name ∈ ins.operands →
        p.Known modules provider name) ∧
    ((p.resolve modules provider).outcome = .ok () →
      let q := (p.resolve modules provider).program
      q.dependencies = searched modules provider ∧
      q.labels = p.labels ∧ q.data = p.data ∧ q.sizes = p.sizes ∧
      List.Forall₂ (Instruction.BindsTo (p.Located modules provider)) p.instructions
        q.instructions) := by
  constructor
  · rw [resolve_ok_iff, search_ok_iff]
    refine and_congr_right fun hall => ?_
    simp only [exists_finds_iff_known (search_ok_iff.mpr hall)]
  · intro hok
    obtain ⟨hload, hfound⟩ := resolve_ok_iff.mp hok
    rw [program_of_resolve hok]
    refine ⟨(search_of_ok hload).2, rfl, rfl, rfl, ?_⟩
    exact Instruction.bindsTo_bound (fun _ _ => located_of_finds hp hload) hfound

/-- A module is named twice and the standard module is missing. One name is exported by both
modules, and another one is exported and also a label of the program; an address stays as it is. -/
theorem resolve_binds_of_repeated_module :
    let ins : Instruction :=
      { op := .mov, line := 3, operands := [.label "g", .address 7, .label "f"] }
    let p : Program :=
      { labels := .ofList [("f", { name := "f", home := .text, offset := 16, line := 1 })]
        instructions := [ins], sizes := { data := 8, text := 32, string := 0 } }
    let library := ((({} : MemoryModules).add "a" "g" 0x10).add "b" "g" 0x20).add "b" "f" 0x30
    let r := p.resolve ["b", "a", "b"] library
    p.Addressable ∧ r.outcome = .ok () ∧ r.program.dependencies = ["b", "a"] ∧
      r.program.instructions =
        [{ ins with operands := [.address 0x20, .address 7, .address 24] }] ∧
      r.program.labels = p.labels := by
  intro ins p library r
  have hp : p.Addressable := addressable_of_entries (by decide)
  have hok : r.outcome = .ok () := by decide +kernel
  obtain ⟨hdependencies, hlabels, -⟩ := (resolve_binds hp ["b", "a", "b"] library).2 hok
  have hsearched : searched ["b", "a", "b"] library = ["b", "a"] := by decide +kernel
  exact ⟨hp, hok, hdependencies.trans hsearched, by decide +kernel, hlabels⟩

/-! ## Calls that fail -/

/-- What a call of `resolve` that fails leaves of a program, which was reached by any calls and
whose labels have addresses: labels, data, sizes, layout and dependencies are as they were.
* Either a module was refused, the error is that of the first such module in the search order, and
  the instructions are as they were.
* Or no module was refused, and the error names the first label operand whose name is not known and
  shows its instruction as it is now. The operands before that one are bound, the others are as they
  were, and the program is not resolved. -/
theorem failed_resolve_leaves (h : p.PartReachable) (hp : p.Addressable)
    (herror : (p.resolve modules provider).outcome = .error e) :
    let q := (p.resolve modules provider).program
    let located := p.Located modules provider
    q.labels = p.labels ∧ q.data = p.data ∧ q.sizes = p.sizes ∧ q.layout = p.layout ∧
    q.dependencies = p.dependencies ∧
    ((∃ before name after, searchOrder modules = before ++ name :: after ∧
        NoneRefused modules provider before ∧ Refused modules provider before name e ∧
        q.instructions = p.instructions) ∨
      (NoneRefused modules provider (searchOrder modules) ∧
        ∃ earlier ins later left name right, p.instructions = earlier ++ ins :: later ∧
          ins.operands = left ++ .label name :: right ∧ ¬ p.Known modules provider name ∧
          ∃ earlier' left', List.Forall₂ (Instruction.BindsTo located) earlier earlier' ∧
            List.Forall₂ (Operand.BindsTo located) left left' ∧
            let stopped : Instruction := { ins with operands := left' ++ .label name :: right }
            e = .unresolved ins.line name stopped.text ∧
            q.instructions = earlier' ++ stopped :: later ∧ q.isResolved = false)) := by
  intro q located
  have hresolves := resolve_resolves p modules provider
  have hcurrent := h.current
  rw [herror] at hresolves
  change Resolves p modules provider (.error e) q at hresolves
  generalize q = q at hresolves ⊢
  cases hresolves with
  | unloaded hload =>
    -- no operand has been looked at when loading fails
    obtain ⟨before, name, after, horder, hnone, hrefused⟩ := search_of_error hload
    exact ⟨rfl, rfl, rfl, rfl, rfl, .inl ⟨before, name, after, horder, hnone, hrefused, rfl⟩⟩
  | unbound hload hbind =>
    obtain ⟨earlier, ins, later, left, name, right, hins, hoperands, hmissing, hearlier, hleft,
      herror, hbound⟩ := Instruction.bindAll_error hbind
    have hlocated : ∀ name value, p.finds modules provider name = some value →
        located name value := fun _ _ => located_of_finds hp hload
    have hunknown : ¬ p.Known modules provider name := by
      rw [← exists_finds_iff_known hload, hmissing]
      simp
    -- a program with a layout has no label operand at which binding could stop
    have hlayout : p.layout = none := by
      rw [Option.eq_none_iff_forall_ne_some]
      intro layout hlayout
      exact (hcurrent layout hlayout).2 ins (by simp [hins]) name (by simp [hoperands])
    refine ⟨rfl, rfl, rfl, rfl, rfl, .inr ⟨noneRefused_searchOrder (search_ok_iff.mp hload),
      earlier, ins, later, left, name, right, hins, hoperands, hunknown, _, _,
      Instruction.bindsTo_bound hlocated hearlier, Operand.bindsTo_bound hlocated hleft,
      herror, hbound, ?_⟩⟩
    rw [isResolved, hlayout]
    rfl

/-- The second instruction refers to a name that nobody has, between two that are found. The label
before it is bound in the program and shown as an address, and the one behind it is kept. -/
theorem failed_resolve_leaves_bound_operands :
    let labels : Table Label :=
      .ofList [("f", { name := "f", home := .text, offset := 16, line := 1 })]
    let first : Instruction := { op := .call, line := 1, operands := [.label "g"] }
    let second : Instruction :=
      { op := .mov, line := 2, operands := [.label "f", .label "h", .label "g"] }
    let p := (({} : Program).taking (({} : Program).mergeLabels labels)).mergeInstructions
      [first, second]
    let library := ({} : MemoryModules).add "std" "g" 0x20
    let r := p.resolve [] library
    p.PartReachable ∧ p.Addressable ∧
      r.outcome = .error (.unresolved 2 "h" "mov 0x10, h, g") ∧
      r.program.instructions =
        [{ first with operands := [.address 0x20] },
          { second with operands := [.address 16, .label "h", .label "g"] }] ∧
      r.program.labels = p.labels ∧ r.program.layout = p.layout ∧
      r.program.dependencies = p.dependencies := by
  intro labels first second p library r
  have hreachable : p.PartReachable := .instructions (.labels .empty labels) _
  have hp : p.Addressable := addressable_of_entries (by decide)
  have herror : r.outcome = .error (.unresolved 2 "h" "mov 0x10, h, g") := by decide +kernel
  obtain ⟨hlabels, -, -, hlayout, hdependencies, -⟩ := failed_resolve_leaves hreachable hp herror
  exact ⟨hreachable, hp, herror, by decide +kernel, hlabels, hlayout, hdependencies⟩

end Program

end AsmLinker
