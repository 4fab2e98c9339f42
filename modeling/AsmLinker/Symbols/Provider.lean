import AsmLinker.Files
import AsmLinker.Log
import AsmLinker.Symbols.Exports
import AsmLinker.Text.Path

/-!
# Symbol providers

The linker asks a provider for the symbols of library modules: first it has a module loaded, then it
looks names up in it. Modules can be held in memory, or be listed in the files of a search directory.
-/

namespace AsmLinker

/-- What came of loading a module. -/
structure Loading (σ : Type) where
  /-- Whether the module can be used. -/
  outcome : Except Error Unit
  /-- The provider afterwards. -/
  provider : σ
  /-- What was reported. -/
  log : List LogRecord := []

/-- Something that knows the symbols of library modules. -/
class SymbolProvider (σ : Type) where
  /-- Makes a module available. -/
  load : σ → String → Loading σ
  /-- The value that a module gives to a name, if it is available and exports it. -/
  symbol? : σ → String → String → Option UInt64

/-- Modules held in memory. -/
structure MemoryModules where
  /-- The exports of each module. -/
  modules : Table Exports := .empty

namespace MemoryModules

/-- Adds a symbol to a module, which is made if it is new. -/
def add (m : MemoryModules) (module name : String) (value : UInt64) : MemoryModules :=
  let exports := (m.modules.get? module).getD .empty
  { m with modules := m.modules.insert module (exports.insert name value) }

instance : SymbolProvider MemoryModules where
  load m module :=
    if m.modules.contains module then { outcome := .ok (), provider := m }
    else { outcome := .error (.moduleNotFound module "<memory>"), provider := m }
  symbol? m module name := (m.modules.get? module).bind (·.get? name)

end MemoryModules

/-- Modules listed in a search directory. -/
structure ModuleDirectory where
  /-- The path of the search directory. -/
  directory : String
  /-- The files as they are now. -/
  files : FileTree
  /-- The exports of the modules that have been loaded. -/
  loaded : Table Exports := .empty

namespace ModuleDirectory

/-- The path of a module's listing. -/
def modulePath (directory module : String) : String :=
  Path.withExtension (Path.join directory module) "sym"

/-- Whether a module has a listing. -/
def isPresent (d : ModuleDirectory) (module : String) : Bool :=
  d.files.isFile (modulePath d.directory module)

/-- Reads the listing of a module. -/
def readExports (d : ModuleDirectory) (module : String) : Except Error Exports :=
  let path := modulePath d.directory module
  if d.isPresent module then
    match d.files.readText path with
    | .error fault => .error (.file .read path fault.message)
    | .ok text => Exports.parse path text
  else .error (.moduleNotFound module d.directory)

/-- Loads a module, unless it has been loaded before. -/
def load (d : ModuleDirectory) (module : String) : Loading ModuleDirectory :=
  if d.loaded.contains module then { outcome := .ok (), provider := d }
  else
    match d.readExports module with
    | .error e => { outcome := .error e, provider := d }
    | .ok exports =>
      let count := exports.size
      let path := modulePath d.directory module
      { outcome := .ok ()
        provider := { d with loaded := d.loaded.insert module exports }
        log := [{ level := .debug, reporter := .symbols,
                  message := s!"loaded {count} symbol(s) from `{path}`" }] }

instance : SymbolProvider ModuleDirectory where
  load := load
  symbol? d module name := (d.loaded.get? module).bind (·.get? name)

end ModuleDirectory

end AsmLinker
