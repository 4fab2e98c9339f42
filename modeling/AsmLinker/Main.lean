import AsmLinker.Command.Run
import Std.Time

/-!
# The command line

Takes what the program may look at from the file system, runs it, prints what it prints and writes
what it writes.
-/

namespace AsmLinker.Shell

/-- The paths on the way to a path, cut at each of its slashes, and the path itself. -/
def pathsTo (path : String) : List String :=
  let names := FileTree.components path
  (List.range names.length).map fun n => "/".intercalate (names.take (n + 1))

/-- The paths at which a run may look: the sources, the listings of the modules, and the output. -/
def pathsOf (moduleDirectory : String) (o : Options) : List String :=
  let listings := (Program.searchList o.libraries).map (ModuleDirectory.modulePath moduleDirectory)
  (o.inputs ++ listings ++ o.output.toList).flatMap pathsTo

/-- What stands at a path of the file system. -/
def probe (path : String) : IO (Option FileNode) := do
  try
    let real ← IO.FS.realPath path
    if ← real.isDir then return some .directory
    let bytes ← IO.FS.readBinFile real
    return some (.file bytes.data.toList)
  catch _ => return none

/-- What stands at paths of the file system. -/
def snapshot (paths : List String) : IO FileTree := do
  let mut tree := FileTree.empty
  for path in paths.filter (· ≠ "") do
    match ← probe path with
    | some node => tree := tree.add path node
    | none => pure ()
  return tree

/-- The directory with the listings of library modules: that of the environment, or the one beside
the executable. -/
def locateModules : IO String := do
  match ← IO.getEnv "TVASM_MODULE_PATH" with
  | some path => return path
  | none =>
    let base := (← IO.appPath).parent.getD "."
    return Path.join base.toString "modules"

/-- Prints something; a record comes with the time. -/
def print : Printed → IO Unit
  | .text text => IO.print text
  | .record record => do
    let now ← Std.Time.PlainDateTime.now
    IO.println (now.format "[uuuu-MM-dd][HH:mm:ss]" ++ record.line)

/-- Runs the program in the file system and answers its exit code. -/
def runCommand (args : List String) : IO UInt32 := do
  let moduleDirectory ← locateModules
  let options := match CommandLine.parse args with
    | .run options => options
    | _ => {}
  let files ← snapshot (pathsOf moduleDirectory options)
  let outcome := Command.run { moduleDirectory, files } args
  outcome.printed.forM print
  if outcome.files ≠ files then
    if let some output := options.output then
      if let .ok (.file contents) := outcome.files.find output then
        IO.FS.writeBinFile output ⟨contents.toArray⟩
  return UInt32.ofNat outcome.exitCode

end AsmLinker.Shell

/-- The program. -/
def main (args : List String) : IO UInt32 :=
  AsmLinker.Shell.runCommand args
