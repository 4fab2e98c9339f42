import AsmLinker.Machine.Section
import AsmLinker.Text.Escape
import AsmLinker.Token.Automaton
import AsmLinker.Token.Basic

/-!
# Errors

Everything that can go wrong between a source and an image, as causes. The wording of each message
is given once, here.
-/

namespace AsmLinker

/-- What is wrong with a source. -/
inductive SourceFault where
  | numberTooLarge (digits : String)
  | sectionNameMissing
  /-- The automaton finished a lexeme in a state that reads none. -/
  | completedIn (state : State)
  | unterminatedString
  | unknownEscape (c : Char)
  | badHexEscape
  | escapeOutsideAscii (value : Nat)
  | stringNotUtf8
  | statementExpected (found : TokenKind) (text : String)
  | unknownSection (name : String)
  | directiveWithoutLabel (name : String)
  | directiveWithoutString (name : String) (found : TokenKind)
  | unexpectedIdentifier (name : String)
  | declarationWithoutString (name : String) (found : TokenKind)
  | dataInText
  | opcodeOutsideText (op : Opcode)
  | commaAfterOpcode (op : Opcode)
  | commaMissing (index : Nat) (op : Opcode)
  | trailingComma
  | statementNotEnded (found : TokenKind) (text : String)
  /-- A fault in other words. -/
  | other (message : String)
deriving DecidableEq

/-- The wording of a fault in a source. -/
def SourceFault.message : SourceFault → String
  | .numberTooLarge digits => s!"numeric literal `{digits}` does not fit in 64 bits"
  | .sectionNameMissing => "expected a section name after `.`"
  | .completedIn state => s!"scanner completed a token in state {state.name}"
  | .unterminatedString => "unterminated string literal"
  | .unknownEscape c => s!"unknown escape sequence `\\{c}`"
  | .badHexEscape => "invalid `\\xHH` escape sequence"
  | .escapeOutsideAscii value =>
    s!"escape `\\x{Numeral.hexUpper 2 value}` is outside the ASCII range"
  | .stringNotUtf8 => "string literal is not valid UTF-8"
  | .statementExpected found text =>
    s!"found {found.describe} `{text}` where a statement should begin"
  | .unknownSection name => s!"unknown section `.{name}`"
  | .directiveWithoutLabel name => s!"`.{name}` must follow a label"
  | .directiveWithoutString name found =>
    s!"`.{name}` expects a string literal, found {found.describe}"
  | .unexpectedIdentifier name => s!"unexpected identifier `{name}`"
  | .declarationWithoutString name found =>
    s!"expected a string literal after `{name}`, found {found.describe}"
  | .dataInText => "string data is only allowed in `.data` or `.string`"
  | .opcodeOutsideText op => s!"`{op.mnemonic}` outside of the `.text` section"
  | .commaAfterOpcode op => s!"unexpected `,` after `{op.mnemonic}`"
  | .commaMissing index op => s!"expected `,` after argument {index} of `{op.mnemonic}`"
  | .trailingComma => "unexpected trailing `,`"
  | .statementNotEnded found text => s!"found {found.describe} `{text}` at the end of a statement"
  | .other message => message

/-- What is wrong with an image or an export listing. -/
inductive FormatFault where
  | headerAlreadyWritten
  | headerMissing
  | sectionsAlreadyWritten
  | programUnresolved
  | fieldTooLarge (field : String) (value : Nat)
  | payloadSize (home : Section) (actual stated : Nat)
  | malformedExport (path : String) (line : Nat)
  | exportTooLarge (path : String) (line : Nat)
  | exportedTwice (path : String) (line : Nat)
  /-- A fault in other words. -/
  | other (message : String)
deriving DecidableEq

/-- The wording of a fault in a format. -/
def FormatFault.message : FormatFault → String
  | .headerAlreadyWritten => "the header has already been written"
  | .headerMissing => "the header must be written before the sections"
  | .sectionsAlreadyWritten => "the sections have already been written"
  | .programUnresolved => "the module must be resolved before it is written"
  | .fieldTooLarge field value =>
    s!"{field} of {value} does not fit the 32-bit field of the module format"
  | .payloadSize home actual stated =>
    s!"{home.directive} payload is {actual} byte(s), the section table says {stated}"
  | .malformedExport path line => s!"{path}:{line}: malformed export"
  | .exportTooLarge path line => s!"{path}:{line}: export value does not fit in 64 bits"
  | .exportedTwice path line => s!"{path}:{line}: symbol exported twice"
  | .other message => message

/-- What is done to a file. -/
inductive FileAction where
  | openRead
  | read
  | write
  | create
deriving DecidableEq

/-- The action as messages name it. -/
def FileAction.verb : FileAction → String
  | .openRead => "open"
  | .read => "read"
  | .write => "write"
  | .create => "create"

/-- The errors of scanning, assembling, linking and writing. -/
inductive Error where
  /-- A character that no lexeme can hold. -/
  | lexical (line : Nat) (c : Char)
  /-- A source that is not well formed. -/
  | source (line : Nat) (fault : SourceFault)
  /-- An operand that does not fit its slot, or for which there is no slot. -/
  | argument (line : Nat) (op : Opcode) (index : Nat) (expected : Option Slot) (found : TokenKind)
  /-- A name defined twice. -/
  | duplicateLabel (line : Option Nat) (name : String)
  /-- A name that is defined nowhere; the instruction is given as text. -/
  | unresolved (line : Nat) (symbol : String) (instruction : String)
  /-- A file that could not be used. -/
  | file (act : FileAction) (path : String) (cause : String)
  /-- A library module without a listing. -/
  | moduleNotFound (name : String) (directory : String)
  /-- An image or a listing that is not well formed. -/
  | format (fault : FormatFault)
deriving DecidableEq

namespace Error

/-- The wording of an error. -/
def message : Error → String
  | .lexical _ c => s!"unknown character `{Text.escapeChar c}`"
  | .source _ fault => fault.message
  | .argument _ op index expected found =>
    let expectation := match expected with
      | some slot => "expects " ++ slot.describe
      | none => "is one too many"
    s!"argument {index} of `{op.mnemonic}` {expectation}, found {found.describe}"
  | .duplicateLabel _ name => s!"duplicate label `{name}`"
  | .unresolved _ symbol instruction =>
    s!"unresolved symbol `{symbol}` referenced by `{instruction}`"
  | .file act path cause => s!"unable to {act.verb} `{path}`: {cause}"
  | .moduleNotFound name directory => s!"module `{name}` was not found in `{directory}`"
  | .format fault => fault.message

/-- The line of the source to which an error points. -/
def line? : Error → Option Nat
  | .lexical line _ => some line
  | .source line _ => some line
  | .argument line _ _ _ _ => some line
  | .duplicateLabel line _ => line
  | .unresolved line _ _ => some line
  | .file _ _ _ => none
  | .moduleNotFound _ _ => none
  | .format _ => none

/-- Whether the error ends the work on its source: only an unknown character does not. -/
def isFatal : Error → Bool
  | .lexical _ _ => false
  | _ => true

/-- The error as it is reported, with the path of its source if that is to be shown: the place, how
grave it is, and the message. -/
def diagnostic (e : Error) (path : Option String) : String :=
  let place := match path, e.line? with
    | some path, some line => s!"{path}:{line}: "
    | some path, none => s!"{path}: "
    | none, some line => s!"{line}: "
    | none, none => ""
  let severity := if e.isFatal then "error" else "warning"
  s!"{place}{severity}: {e.message}"

end Error

end AsmLinker
