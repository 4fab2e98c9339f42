import AsmLinker.Log
import AsmLinker.Token.Stream
import AsmLinker.Unit.Basic

/-!
# Assembling a source

An assembly takes the tokens of one source, one at a time, and builds a source unit. Between two
tokens it is in a context: before a statement, or inside one. What a statement has recorded before
an error stays recorded, and assembling can be resumed behind the error, before a new statement.
-/

namespace AsmLinker

/-- How far a statement has been read. -/
inductive Context where
  /-- Before a statement. -/
  | statement
  /-- Behind `.ascii` or `.asciz`, which declares the label before it: a literal must follow, on
  this line or a later one. -/
  | directive (word : String) (encoding : Encoding) (label : String)
  /-- Behind the name of a declaration: a literal must follow. -/
  | declaration (name : String) (line : Nat)
  /-- Inside an instruction, with the slots that are still open and whether a comma followed the
  last operand. -/
  | operands (ins : Instruction) (slots : List Slot) (comma : Bool)
  /-- Behind a declaration: the line must end. -/
  | closing
deriving DecidableEq

/-- The state of the work on one source. -/
structure Assembly where
  /-- The path of the source. -/
  path : String
  /-- Whether diagnostics show the path. -/
  showPath : Bool := true
  /-- What is left of the source. -/
  input : TokenStream
  /-- The section to which statements belong. -/
  active : Section := .text
  /-- How far each section has been filled. -/
  offsets : PerSection Nat := .const 0
  /-- The label that the last statement defined, which a directive may declare. -/
  pending : Option String := none
  /-- What has been assembled. -/
  unit : SourceUnit := {}
  /-- The unknown characters that were skipped, in order. -/
  warnings : List Error := []

/-- The operand that a lexeme is in a slot, if it fits. -/
def Operand.ofLexeme? : Slot → Lexeme → Option Operand
  | .register, .register index => some (.register index)
  | .registerOrLiteral, .register index => some (.register index)
  | .literal, .digits _ value => some (.literal value)
  | .address, .digits _ value => some (.literal value)
  | .registerOrLiteral, .digits _ value => some (.literal value)
  | .literal, .identifier name => some (.label name)
  | .address, .identifier name => some (.label name)
  | .registerOrLiteral, .identifier name => some (.label name)
  | _, _ => none

/-- The flags that an operand adds to its instruction, by its position and its slot. -/
def Operand.flags (operand : Operand) (index : Nat) (slot : Slot) : UInt8 :=
  let position :=
    match index, operand.isRegister with
    | 0, true => Flag.destRegister
    | 0, false => Flag.destLiteral
    | 1, true => Flag.srcRegister
    | 1, false => Flag.srcLiteral
    | _, _ => 0
  if slot = .address ∨ operand.isLabel then position ||| Flag.address else position

/-- Adds an operand to an instruction. -/
def Instruction.addOperand (ins : Instruction) (slot : Slot) (operand : Operand) : Instruction :=
  { ins with
    flags := ins.flags ||| operand.flags ins.operands.length slot
    operands := ins.operands ++ [operand]
    label := match operand with
      | .label name => some name
      | _ => ins.label }

namespace Assembly

/-- The work on a source that has not begun. -/
def ofSource (path : String) (source : Source) : Assembly :=
  { path, input := .ofScanner { source, origin := path, lineEnds := true } }

/-- An error on a line of the source. -/
def refuse (a : Assembly) (line : Nat) (fault : SourceFault) : Except Error Context × Assembly :=
  (.error (.source line fault), a)

/-- Binds a name to the current position of the active section, unless it is bound already. -/
def define (a : Assembly) (name : String) (line : Nat) : Except Error Assembly :=
  if a.unit.labels.contains name then .error (.duplicateLabel (some line) name)
  else
    let label := { name, home := a.active, offset := a.offsets.get a.active, line }
    .ok { a with unit := { a.unit with labels := a.unit.labels.insert name label } }

/-- Records data under a name at the current position of the active section. -/
def record (a : Assembly) (name : String) (encoding : Encoding) (text : String) : Assembly :=
  let declaration : Declaration :=
    { name, home := a.active, encoding, offset := a.offsets.get a.active,
      bytes := text.toUTF8.data.toList }
  { a with
    offsets := a.offsets.set a.active declaration.stop
    unit := { a.unit with data := a.unit.data.insert name declaration } }

/-- Declares a literal, which may not stand in the text section and must end its statement. -/
def declare (a : Assembly) (name : String) (encoding : Encoding) (text : String) (token : Token) :
    Except Error Context × Assembly :=
  if a.active = .text then a.refuse token.line .dataInText
  else
    let a := a.record name encoding text
    if token.comma then a.refuse token.line .trailingComma else (.ok .closing, a)

/-- A word behind a period: a section becomes active, or a literal for the label before it is
announced. -/
def directive (a : Assembly) (name : String) (line : Nat) : Except Error Context × Assembly :=
  match Section.ofName? name with
  | some home => (.ok .statement, { a with active := home, pending := none })
  | none =>
    let encoding? : Option Encoding :=
      match name with
      | "ascii" => some .raw
      | "asciz" => some .zeroTerminated
      | _ => none
    match encoding? with
    | none => a.refuse line (.unknownSection name)
    | some encoding =>
      match a.pending with
      | none => a.refuse line (.directiveWithoutLabel name)
      | some label => (.ok (.directive name encoding label), { a with pending := none })

/-- A label is bound to the current position. -/
def label (a : Assembly) (name : String) (line : Nat) : Except Error Context × Assembly :=
  match a.define name line with
  | .error e => (.error e, a)
  | .ok a => (.ok .statement, { a with pending := some name })

/-- A mnemonic begins an instruction. -/
def operation (a : Assembly) (op : Opcode) (token : Token) : Except Error Context × Assembly :=
  if a.active ≠ .text then a.refuse token.line (.opcodeOutsideText op)
  else if token.comma then a.refuse token.line (.commaAfterOpcode op)
  else (.ok (.operands { op, line := token.line } op.slots false), { a with pending := none })

/-- Any other word begins a declaration, which may not stand in the text section. -/
def declaration (a : Assembly) (name : String) (line : Nat) : Except Error Context × Assembly :=
  let a := { a with pending := none }
  if a.active = .text then a.refuse line (.unexpectedIdentifier name)
  else (.ok (.declaration name line), a)

/-- A token before a statement. -/
def begin (a : Assembly) (token : Token) : Except Error Context × Assembly :=
  match token.lexeme with
  | .endOfFile | .endOfLine => (.ok .statement, a)
  | .directive name => a.directive name token.line
  | .label name => a.label name token.line
  | .opcode op => a.operation op token
  | .identifier name => a.declaration name token.line
  | .register _ | .digits _ _ | .ascii _ =>
    a.refuse token.line (.statementExpected token.kind token.text)

/-- A token where an operand is due. -/
def operand (a : Assembly) (ins : Instruction) (slot : Slot) (slots : List Slot) (token : Token) :
    Except Error Context × Assembly :=
  match Operand.ofLexeme? slot token.lexeme with
  | none =>
    (.error (.argument token.line ins.op ins.operands.length (some slot) token.kind), a)
  | some operand =>
    if slots ≠ [] ∧ token.comma = false then
      a.refuse token.line (.commaMissing ins.operands.length ins.op)
    else (.ok (.operands (ins.addOperand slot operand) slots token.comma), a)

/-- A token behind the last operand: the line must end, and no comma may have gone before. -/
def endOperation (a : Assembly) (ins : Instruction) (comma : Bool) (token : Token) :
    Except Error Context × Assembly :=
  if token.endsLine && !comma then
    (.ok .statement, { a with
      offsets := a.offsets.set .text (a.offsets.text + Record.size)
      unit := { a.unit with instructions := a.unit.instructions ++ [ins] } })
  else
    (.error (.argument token.line ins.op ins.op.slots.length none token.kind), a)

/-- Takes a token in a context. The answer is the next context or an error; the assembly holds what
has been recorded in either case. -/
def feed (a : Assembly) (context : Context) (token : Token) : Except Error Context × Assembly :=
  match context with
  | .statement => a.begin token
  | .directive word encoding label =>
    match token.lexeme with
    | .endOfLine => (.ok context, a)
    | .ascii text => a.declare label encoding text token
    | _ => a.refuse token.line (.directiveWithoutString word token.kind)
  | .declaration name line =>
    match token.lexeme with
    | .ascii text =>
      match a.define name line with
      | .error e => (.error e, a)
      | .ok a => a.declare name .zeroTerminated text token
    | _ => a.refuse token.line (.declarationWithoutString name token.kind)
  | .operands ins [] comma => a.endOperation ins comma token
  | .operands ins (slot :: slots) _ => a.operand ins slot slots token
  | .closing =>
    if token.endsLine then (.ok .statement, a)
    else a.refuse token.line (.statementNotEnded token.kind token.text)

/-- Takes answers of the scanner until the source ends or an error is met that is not an unknown
character. What was not taken stays as input. -/
def run (a : Assembly) (context : Context) : List (Except Error Token) → Except Error Unit × Assembly
  | [] =>
    let a := { a with input := { a.input with answers := [] } }
    match a.feed context (.endOfFile a.input.endLine) with
    | (.error e, a) => (.error e, a)
    | (.ok _, a) => (.ok (), a)
  | .error e :: rest =>
    if e.isFatal then (.error e, { a with input := { a.input with answers := rest } })
    else run { a with warnings := a.warnings ++ [e] } context rest
  | .ok token :: rest =>
    match a.feed context token with
    | (.error e, a) => (.error e, { a with input := { a.input with answers := rest } })
    | (.ok context, a) => run a context rest

/-- An error of the source as it is reported. -/
def report (a : Assembly) (e : Error) : String :=
  e.diagnostic (if a.showPath then some a.path else none)

/-- Assembles what is left of the source. -/
def assemble (a : Assembly) : Except Error Unit × Assembly :=
  a.run .statement a.input.answers

/-- What is reported about a call of `assemble`: the unknown characters that it skipped, and then
the error that ended it or the size of the unit. -/
def log (before after : Assembly) (outcome : Except Error Unit) : List LogRecord :=
  let warnings := (after.warnings.drop before.warnings.length).map fun e =>
    { level := .warn, reporter := .assembly, message := after.report e }
  let last : LogRecord :=
    match outcome with
    | .error e => { level := .error, reporter := .assembly, message := after.report e }
    | .ok () =>
      let instructions := after.unit.instructions.length
      let labels := after.unit.labels.size
      let data := after.unit.data.size
      { level := .debug, reporter := .assembly,
        message := s!"{after.path}: {instructions} instruction(s), {labels} label(s), {data} data declaration(s)" }
  warnings ++ [last]

end Assembly

end AsmLinker
