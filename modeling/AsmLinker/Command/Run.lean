import AsmLinker.Command.Options
import AsmLinker.Image.Writer
import AsmLinker.Program.Listing
import AsmLinker.Program.Resolve
import AsmLinker.Text.Quoted
import AsmLinker.Unit.Assembly

/-!
# Running the program

The whole program as a function of its arguments, the module search path and the files: it answers
an exit code, what is printed, and the files afterwards. The output file is touched only once every
reference has been resolved.
-/

namespace AsmLinker

/-- Something printed: a log record, or text. -/
inductive Printed where
  | record (record : LogRecord)
  | text (text : String)
deriving DecidableEq

/-- The text of something printed; a record is a line of its own. -/
def Printed.render : Printed → String
  | .record r => r.line ++ "\n"
  | .text s => s

/-- What a run comes to. -/
structure Outcome where
  /-- The exit code: 0 if all went well, 1 otherwise. -/
  exitCode : Nat
  /-- What is printed, in order. -/
  printed : List Printed
  /-- The files afterwards. -/
  files : FileTree

/-- What the program is run in. -/
structure Environment where
  /-- The path of the directory with the listings of library modules. -/
  moduleDirectory : String
  /-- The files. -/
  files : FileTree
  /-- What takes the bytes of the output file; a disk that is full takes only some of them. -/
  disk : BoundedDevice := {}

namespace Command

/-- What `--version` prints. -/
def versionText : String := "tvasm 0.1.0\n"

/-- The lines that `--help` prints. -/
def helpLines : List String :=
  ["tvasm 0.1.0",
   "Nicolas 'Montessquio' Suarez <nsuarez@kernelstack.net>",
   "An assembler and linker producing TV virtual machine modules.",
   "",
   "USAGE:",
   "    tvasm [FLAGS] [OPTIONS] [--] [INPUT]...",
   "",
   "FLAGS:",
   "    -d               omit the full source path when reporting errors",
   "    -h, --help       Prints help information",
   "    -m               print the module search path and exit",
   "    -s, --show       prints the resolved instructions alongside their encoding to STDOUT",
   "    -V, --version    Prints version information",
   "    -v               Sets the level of verbosity",
   "",
   "OPTIONS:",
   "    -l <library>...        link against a module; modules are searched in the order given",
   "    -o <output>            write the module to this file (required)",
   "",
   "ARGS:",
   "    <INPUT>...    Sets the input files to assemble"]

/-- What `--help` prints. -/
def helpText : String :=
  String.join (helpLines.map (· ++ "\n"))

/-- The least important level that is reported. -/
def threshold (verbosity : Nat) : Level :=
  match verbosity with
  | 0 => .warn
  | 1 => .info
  | _ => .debug

/-- The records that are important enough. -/
def shown (verbosity : Nat) (log : List LogRecord) : List Printed :=
  (log.filter fun r => r.level.rank ≤ (threshold verbosity).rank).map .record

/-- An error that the program itself reports. -/
def complaint (message : String) : LogRecord :=
  { level := .error, reporter := .command, message }

/-- The first report of every run: what was asked for. -/
def argumentsRecord (o : Options) : LogRecord :=
  let verbosity := (threshold o.verbosity).name
  let output := o.output.getD "None"
  let inputs := Text.quoteList o.inputs
  let libraries := Text.quoteList o.libraries
  { level := .debug, reporter := .command,
    message := s!"Arguments:\n\tVerbosity: {verbosity}\n\tOutfile: {output}\n\tInfiles: {inputs}\n\tModules: {libraries}" }

/-- Assembles a source and merges it into a program. Answers the reports, and the program if all
went well. -/
def addInput (files : FileTree) (o : Options) (p : Program) (input : String) :
    List LogRecord × Option Program :=
  match files.source input with
  | .error fault =>
    let e := Error.file .openRead input fault.message
    ([complaint s!"fatal: {e.message}"], none)
  | .ok source =>
    let before := { Assembly.ofSource input source with showPath := !o.hidePath }
    let (outcome, after) := before.assemble
    let log := Assembly.log before after outcome
    match outcome with
    | .error _ => (log ++ [complaint s!"Stopped assembly of `{input}` due to errors."], none)
    | .ok () =>
      match p.merge after.unit with
      | (.error e, _) =>
        (log ++ [complaint (e.diagnostic (if o.hidePath then none else some input))], none)
      | (.ok (), p) =>
        (log ++ [{ level := .info, reporter := .command, message := s!"merged `{input}`" }], some p)

/-- Assembles sources in order and merges them, up to the first failure. -/
def addInputs (files : FileTree) (o : Options) :
    Program → List String → List LogRecord × Option Program
  | p, [] => ([], some p)
  | p, input :: rest =>
    match addInput files o p input with
    | (log, none) => (log, none)
    | (log, some p) =>
      let (more, result) := addInputs files o p rest
      (log ++ more, result)

/-- Writes the image of a resolved program to a file. -/
def writeImage (files : FileTree) (disk : BoundedDevice) (p : Program) (output : String) :
    Except Error Unit × FileTree × List LogRecord :=
  match files.creatable output with
  | .error fault => (.error (.file .create output fault.message), files, [])
  | .ok location =>
    let writer : Writer BoundedDevice := { device := disk, name := output }
    match writer.writeHeader p with
    | (.error e, w) => (.error e, files.put location (.file w.output), [])
    | (.ok (), w) =>
      let (outcome, w, log) := w.writeSections p
      (outcome, files.put location (.file w.output), log)

/-- Assembles the inputs, links them and writes the image. -/
def build (env : Environment) (o : Options) (output : String) : Outcome :=
  let shown := shown o.verbosity
  match addInputs env.files o {} o.inputs with
  | (log, none) => { exitCode := 1, printed := shown log, files := env.files }
  | (log, some p) =>
    let provider : ModuleDirectory := { directory := env.moduleDirectory, files := env.files }
    let resolution := p.resolve o.libraries provider
    let log := log ++ resolution.log
    match resolution.outcome with
    | .error e =>
      { exitCode := 1
        printed := shown (log ++ [complaint (e.diagnostic none)])
        files := env.files }
    | .ok () =>
      let p := resolution.program
      let listing := if o.list then [.text (p.listing ++ "\n")] else []
      match writeImage env.files env.disk p output with
      | (.error e, files, more) =>
        { exitCode := 1
          printed := shown log ++ listing ++ shown (more ++ [complaint s!"fatal: {e.message}"])
          files }
      | (.ok (), files, more) =>
        { exitCode := 0, printed := shown log ++ listing ++ shown more, files }

/-- Refuses a command line on which something is missing. -/
def usageError (env : Environment) (message : String) : Outcome :=
  { exitCode := 1, printed := [.text (helpText), .record (complaint message)], files := env.files }

/-- Does what the options ask for. -/
def execute (env : Environment) (o : Options) : Outcome :=
  let first := shown o.verbosity [argumentsRecord o]
  let outcome :=
    if o.printModulePath then
      { exitCode := 0, printed := [.text (env.moduleDirectory ++ "\n")], files := env.files }
    else
      match o.output with
      | none => usageError env "missing output file"
      | some output =>
        if o.inputs = [] then usageError env "missing input file" else build env o output
  { outcome with printed := first ++ outcome.printed }

/-- Runs the program. -/
def run (env : Environment) (args : List String) : Outcome :=
  match CommandLine.parse args with
  | .help => { exitCode := 0, printed := [.text helpText], files := env.files }
  | .version => { exitCode := 0, printed := [.text versionText], files := env.files }
  | .refused => { exitCode := 1, printed := [], files := env.files }
  | .run options => execute env options

end Command

end AsmLinker
