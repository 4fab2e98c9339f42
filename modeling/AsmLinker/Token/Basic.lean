import AsmLinker.Machine.Opcode

/-!
# Tokens

A token is a lexeme, the line it stands on, and whether a comma follows it.
-/

namespace AsmLinker

/-- The kinds of token, as diagnostics tell them apart. -/
inductive TokenKind where
  | opcode
  | register
  | identifier
  | digit
  | label
  | directive
  | ascii
  | endOfLine
  | endOfFile
deriving DecidableEq

/-- The kind as diagnostics name it. -/
def TokenKind.describe : TokenKind → String
  | .opcode => "an opcode"
  | .register => "a register"
  | .identifier => "an identifier"
  | .digit => "a digit"
  | .label => "a label"
  | .directive => "a section"
  | .ascii => "a string literal"
  | .endOfLine => "the end of the line"
  | .endOfFile => "the end of the file"

/-- What a token spells. -/
inductive Lexeme where
  /-- A word that is a mnemonic. -/
  | opcode (op : Opcode)
  /-- An `x` with one decimal digit behind it. -/
  | register (index : UInt8)
  /-- Any other word. -/
  | identifier (name : String)
  /-- A run of decimal digits with its value. -/
  | digits (text : String) (value : UInt64)
  /-- A word with a colon directly behind it. -/
  | label (name : String)
  /-- A word with a period directly before it. -/
  | directive (name : String)
  /-- A string literal, with its escapes decoded. -/
  | ascii (text : String)
  | endOfLine
  | endOfFile
deriving DecidableEq

namespace Lexeme

/-- The kind of a lexeme. -/
def kind : Lexeme → TokenKind
  | .opcode _ => .opcode
  | .register _ => .register
  | .identifier _ => .identifier
  | .digits _ _ => .digit
  | .label _ => .label
  | .directive _ => .directive
  | .ascii _ => .ascii
  | .endOfLine => .endOfLine
  | .endOfFile => .endOfFile

/-- The text of a lexeme, without the colon of a label, the period of a directive and the quotes of
a literal. -/
def text : Lexeme → String
  | .opcode op => op.mnemonic
  | .register index => "x" ++ toString index.toNat
  | .identifier name => name
  | .digits text _ => text
  | .label name => name
  | .directive name => name
  | .ascii text => text
  | .endOfLine => ""
  | .endOfFile => ""

/-- The lexeme of a word that is no register: an opcode or an identifier. -/
def ofName (word : String) : Lexeme :=
  match Opcode.ofMnemonic? word with
  | some op => .opcode op
  | none => .identifier word

/-- The lexeme that a word spells: a register is exactly `x` and one decimal digit, then the
mnemonics are consulted, and every other word is an identifier. -/
def ofWord (word : String) : Lexeme :=
  match word.toList with
  | ['x', d] => if d.isDigit then .register (UInt8.ofNat (d.toNat - '0'.toNat)) else ofName word
  | _ => ofName word

end Lexeme

/-- A lexeme in its place. -/
structure Token where
  /-- What the token spells. -/
  lexeme : Lexeme
  /-- Whether a comma follows. -/
  comma : Bool := false
  /-- The line on which the token stands. -/
  line : Nat
deriving DecidableEq

namespace Token

/-- The kind of a token. -/
def kind (t : Token) : TokenKind :=
  t.lexeme.kind

/-- The text of a token. -/
def text (t : Token) : String :=
  t.lexeme.text

/-- The token behind the last line. -/
def endOfFile (line : Nat) : Token :=
  { lexeme := .endOfFile, line }

/-- Whether the token ends a line, be it the last one. -/
def endsLine (t : Token) : Bool :=
  match t.lexeme with
  | .endOfLine | .endOfFile => true
  | _ => false

end Token

end AsmLinker
