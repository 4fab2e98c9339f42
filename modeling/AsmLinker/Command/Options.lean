/-!
# Command lines

The arguments of the program: flags, options with a value, and inputs. Short flags can be joined, a
value can stand in the same argument as its option or be the next one, and behind `--` everything is
an input. Help and version are answered as soon as they are met, an unknown option is refused as soon
as it is met, and how often something was given is judged at the end.
-/

namespace AsmLinker

/-- What is asked of the program. -/
structure Options where
  /-- Whether the resolved instructions are listed. -/
  list : Bool := false
  /-- Whether diagnostics leave out the path of the source. -/
  hidePath : Bool := false
  /-- Whether only the module search path is printed. -/
  printModulePath : Bool := false
  /-- How much is reported: nothing more, information, or everything. -/
  verbosity : Nat := 0
  /-- The file for the image. -/
  output : Option String := none
  /-- The library modules to link against, in order. -/
  libraries : List String := []
  /-- The sources, in order. -/
  inputs : List String := []
deriving DecidableEq

/-- What a command line comes to. -/
inductive CommandLine where
  | run (options : Options)
  | help
  | version
  | refused
deriving DecidableEq

namespace CommandLine

/-- The options that take a value. -/
inductive ValueOption where
  | output
  | library
deriving DecidableEq

/-- The arguments read so far. -/
structure Tally where
  /-- How often a listing was asked for. -/
  list : Nat := 0
  /-- How often the path was to be left out. -/
  hidePath : Nat := 0
  /-- How often the module search path was asked for. -/
  printModulePath : Nat := 0
  /-- How often more reports were asked for. -/
  verbosity : Nat := 0
  /-- How often the output option was given. -/
  outputUses : Nat := 0
  /-- The values of the output option. -/
  outputs : List String := []
  /-- How often the library option was given. -/
  libraryUses : Nat := 0
  /-- The values of the library option. -/
  libraries : List String := []
  /-- The inputs. -/
  inputs : List String := []
  /-- The option whose value the next argument may be. -/
  awaiting : Option ValueOption := none
  /-- Whether everything that follows is an input. -/
  onlyInputs : Bool := false

/-- What reading an argument comes to: more arguments, or the end. -/
inductive Progress where
  | more (tally : Tally)
  | done (result : CommandLine)

namespace Tally

/-- Notes an option that takes a value. -/
def use (t : Tally) : ValueOption → Tally
  | .output => { t with outputUses := t.outputUses + 1 }
  | .library => { t with libraryUses := t.libraryUses + 1 }

/-- Notes the value of an option. -/
def addValue (t : Tally) (value : String) : ValueOption → Tally
  | .output => { t with outputs := t.outputs ++ [value] }
  | .library => { t with libraries := t.libraries ++ [value] }

/-- Reads an option that takes a value, with the rest of its argument: the value stands there, with
any `=` before it dropped, or it is awaited. -/
def option (t : Tally) (option : ValueOption) (rest : List Char) : Tally :=
  let t := t.use option
  if rest = [] then { t with awaiting := some option }
  else { t.addValue (String.ofList (rest.dropWhile (· = '='))) option with awaiting := none }

/-- Reads joined short flags. An option that takes a value takes the rest of the argument. -/
def shorts (t : Tally) : List Char → Progress
  | [] => .more { t with awaiting := none }
  | 'o' :: rest => .more (t.option .output rest)
  | 'l' :: rest => .more (t.option .library rest)
  | 's' :: rest => shorts { t with list := t.list + 1 } rest
  | 'd' :: rest => shorts { t with hidePath := t.hidePath + 1 } rest
  | 'm' :: rest => shorts { t with printModulePath := t.printModulePath + 1 } rest
  | 'v' :: rest => shorts { t with verbosity := t.verbosity + 1 } rest
  | 'h' :: _ => .done .help
  | 'V' :: _ => .done .version
  | _ => .done .refused

/-- Reads a long flag; a value behind `=` has no meaning. -/
def long (t : Tally) (name : List Char) : Progress :=
  match String.ofList (name.takeWhile (· ≠ '=')) with
  | "show" => .more { t with list := t.list + 1, awaiting := none }
  | "help" => .done .help
  | "version" => .done .version
  | _ => .done .refused

/-- Reads an argument. -/
def argument (t : Tally) (arg : String) : Progress :=
  if t.onlyInputs then .more { t with inputs := t.inputs ++ [arg] }
  else
    match arg.toList with
    | ['-', '-'] => .more { t with onlyInputs := true }
    | '-' :: '-' :: rest => t.long (rest.dropWhile (· = '-'))
    | '-' :: c :: rest => t.shorts (c :: rest)
    | _ =>
      match t.awaiting with
      | some option => .more { t.addValue arg option with awaiting := none }
      | none => .more { t with inputs := t.inputs ++ [arg] }

/-- Judges how often everything was given: at most once, any number of reports, libraries and inputs
excepted, and an option that takes a value needs one. -/
def judge (t : Tally) : CommandLine :=
  if t.list > 1 ∨ t.hidePath > 1 ∨ t.printModulePath > 1 ∨ t.outputUses > 1 then .refused
  else if t.outputUses > 0 ∧ t.outputs = [] then .refused
  else if t.libraryUses > 0 ∧ t.libraries = [] then .refused
  else
    .run {
      list := t.list > 0
      hidePath := t.hidePath > 0
      printModulePath := t.printModulePath > 0
      verbosity := t.verbosity
      output := t.outputs.head?
      libraries := t.libraries
      inputs := t.inputs }

/-- Reads arguments to the end. -/
def arguments (t : Tally) : List String → CommandLine
  | [] => t.judge
  | arg :: rest =>
    match t.argument arg with
    | .done result => result
    | .more t => arguments t rest

end Tally

/-- Reads the arguments of the program. -/
def parse (args : List String) : CommandLine :=
  Tally.arguments {} args

end CommandLine

end AsmLinker
