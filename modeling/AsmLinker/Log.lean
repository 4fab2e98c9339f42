/-!
# Log records

What the program reports while it works: a level, the part of the program that reports, and a
message.
-/

namespace AsmLinker

/-- How important a record is, the most important level first. -/
inductive Level where
  | error
  | warn
  | info
  | debug
deriving DecidableEq

namespace Level

/-- The level as records name it. -/
def name : Level → String
  | .error => "ERROR"
  | .warn => "WARN"
  | .info => "INFO"
  | .debug => "DEBUG"

/-- The place of the level in the order of importance. -/
def rank : Level → Nat
  | .error => 0
  | .warn => 1
  | .info => 2
  | .debug => 3

end Level

/-- The parts of the program that report. -/
inductive Reporter where
  | command
  | assembly
  | linking
  | symbols
  | writing
deriving DecidableEq

/-- The name of a reporting part in a record's line. -/
def Reporter.target : Reporter → String
  | .command => "tvasm"
  | .assembly => "tvasm::assembler::parser"
  | .linking => "tvasm::linker::module"
  | .symbols => "tvasm::linker::symbols"
  | .writing => "tvasm::linker::writer"

/-- A report. -/
structure LogRecord where
  /-- How important it is. -/
  level : Level
  /-- Who reports. -/
  reporter : Reporter
  /-- What is reported. -/
  message : String
deriving DecidableEq

/-- The record as a line of the log, without time and line end. -/
def LogRecord.line (r : LogRecord) : String :=
  s!"[{r.reporter.target}][{r.level.name}] {r.message}"

end AsmLinker
