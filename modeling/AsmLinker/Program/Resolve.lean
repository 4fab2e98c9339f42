import AsmLinker.Program.Basic
import AsmLinker.Symbols.Provider

/-!
# Resolving references

To resolve a program, the library modules are loaded in search order, the sections are laid out, and
every label operand is bound in place to an address: that of the program's own label, or else the
value of the first loaded module that exports the name. An operand that was bound stays so, also
when a later one cannot be.
-/

namespace AsmLinker

/-- The module that is searched last, also when nobody asks for it. -/
def standardModule : String := "std"

/-- What came of resolving a program. -/
structure Resolution (σ : Type) where
  /-- Whether every reference was resolved. -/
  outcome : Except Error Unit
  /-- The program afterwards. -/
  program : Program
  /-- The provider afterwards. -/
  provider : σ
  /-- What was reported. -/
  log : List LogRecord

/-- Binds label operands from left to right, up to the first that cannot be found, which is
answered. -/
def Operand.bindAll (find : String → Option UInt64) :
    List Operand → Option String × List Operand
  | [] => (none, [])
  | .label name :: rest =>
    match find name with
    | none => (some name, .label name :: rest)
    | some value =>
      let (missing, rest) := bindAll find rest
      (missing, .address value :: rest)
  | operand :: rest =>
    let (missing, rest) := bindAll find rest
    (missing, operand :: rest)

/-- Binds the label operands of instructions, up to the first that cannot be found. -/
def Instruction.bindAll (find : String → Option UInt64) :
    List Instruction → Except Error Unit × List Instruction
  | [] => (.ok (), [])
  | ins :: rest =>
    let (missing, operands) := Operand.bindAll find ins.operands
    let ins := { ins with operands }
    match missing with
    | some name => (.error (.unresolved ins.line name ins.text), ins :: rest)
    | none =>
      let (outcome, rest) := bindAll find rest
      (outcome, ins :: rest)

namespace Program

variable {σ : Type} [SymbolProvider σ]

/-- The modules that are searched: the given ones, and the standard module behind them if it is not
among them. -/
def searchList (modules : List String) : List String :=
  if standardModule ∈ modules then modules else modules ++ [standardModule]

/-- Whether an error is that of a module without a listing. -/
def isNotFound : Error → Bool
  | .moduleNotFound _ _ => true
  | _ => false

/-- Loads modules in order, each once, behind those that are loaded already. A module that nobody
asked for may be missing. -/
def loadAll (optional : String → Bool) :
    List String → List String → σ → List LogRecord → Loading σ × List String
  | [], loaded, provider, log => ({ outcome := .ok (), provider, log }, loaded)
  | name :: rest, loaded, provider, log =>
    if name ∈ loaded then loadAll optional rest loaded provider log
    else
      let loading := SymbolProvider.load provider name
      let log := log ++ loading.log
      match loading.outcome with
      | .ok () => loadAll optional rest (loaded ++ [name]) loading.provider log
      | .error e =>
        if isNotFound e && optional name then
          let warning := { level := .warn, reporter := .linking,
                           message := s!"module `{name}` was not found; linking without it" }
          loadAll optional rest loaded loading.provider (log ++ [warning])
        else ({ outcome := .error e, provider := loading.provider, log }, loaded)

/-- The address of a name: that of the program's own label, or the value of the first of the given
modules that exports it. -/
def address? (p : Program) (layout : Layout) (provider : σ) (modules : List String)
    (name : String) : Option UInt64 :=
  match p.labels.get? name with
  | some label => some (layout.address label)
  | none => modules.findSome? fun module => SymbolProvider.symbol? provider module name

/-- The report on a resolved program. -/
def resolvedMessage (p : Program) : String :=
  let instructions := p.instructions.length
  let data := p.sizes.data
  let text := p.sizes.text
  let string := p.sizes.string
  s!"resolved {instructions} instruction(s); data {data} byte(s), text {text} byte(s), string {string} byte(s)"

/-- Resolves a program against library modules. -/
def resolve (p : Program) (modules : List String) (provider : σ) : Resolution σ :=
  let implicit := standardModule ∉ modules
  let optional := fun name => implicit && name == standardModule
  let (loading, loaded) := loadAll optional (searchList modules) [] provider []
  let provider := loading.provider
  match loading.outcome with
  | .error e => { outcome := .error e, program := p, provider, log := loading.log }
  | .ok () =>
    let layout := Layout.ofSizes p.sizes
    match Instruction.bindAll (p.address? layout provider loaded) p.instructions with
    | (.error e, instructions) =>
      { outcome := .error e, program := { p with instructions }, provider, log := loading.log }
    | (.ok (), instructions) =>
      let report := { level := .info, reporter := .linking, message := p.resolvedMessage }
      { outcome := .ok ()
        program := { p with instructions, dependencies := loaded, layout := some layout }
        provider
        log := loading.log ++ [report] }

end Program

end AsmLinker
