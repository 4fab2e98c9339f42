/-!
# The scanning automaton

Every byte of a source belongs to a character class, and what the scanner does with it is decided by
the state it is in and that class alone. This module is that table.
-/

namespace AsmLinker

/-- The classes into which the automaton sorts bytes. -/
inductive CharClass where
  | null
  | lowerAlpha
  | upperAlpha
  | digit
  | whitespace
  | newLine
  | comma
  | period
  | colon
  | singleQuote
  | doubleQuote
  | leftParen
  | rightParen
  | leftBracket
  | rightBracket
  | hash
deriving DecidableEq

/-- The class of a byte. The underscore counts as a lower-case letter, and a byte without a role in
the language is in the class `null`. -/
def CharClass.of (b : UInt8) : CharClass :=
  let c := Char.ofUInt8 b
  if ('a' ≤ c ∧ c ≤ 'z') ∨ c = '_' then .lowerAlpha
  else if 'A' ≤ c ∧ c ≤ 'Z' then .upperAlpha
  else if '0' ≤ c ∧ c ≤ '9' then .digit
  else if c = ' ' ∨ c = '\t' then .whitespace
  else if c = '\n' ∨ c = '\r' then .newLine
  else if c = ',' then .comma
  else if c = '.' then .period
  else if c = ':' then .colon
  else if c = '\'' then .singleQuote
  else if c = '"' then .doubleQuote
  else if c = '(' then .leftParen
  else if c = ')' then .rightParen
  else if c = '[' then .leftBracket
  else if c = ']' then .rightBracket
  else if c = '#' then .hash
  else .null

/-- The states of the automaton. -/
inductive State where
  /-- Between two lexemes. -/
  | initial
  /-- Inside a word. -/
  | readIdentifier
  /-- Inside a run of decimal digits. -/
  | readDigit
  /-- At the end of the input. -/
  | exit
  /-- Behind a character that no lexeme can hold, until the next separator. -/
  | error
  /-- Behind a finished token, which is held back until it is known whether a comma follows. -/
  | hold
  /-- Inside a word behind a period. -/
  | readSection
deriving DecidableEq

/-- The state as an internal error names it. -/
def State.name : State → String
  | .initial => "Initial"
  | .readIdentifier => "ReadIdentifier"
  | .readDigit => "ReadDigit"
  | .exit => "Exit"
  | .error => "Error"
  | .hold => "Continue"
  | .readSection => "ReadSection"

/-- What the scanner does with a byte. -/
inductive Action where
  /-- Adds the byte to the lexeme. -/
  | accumulate
  /-- Starts a word with the byte. -/
  | beginIdentifier
  /-- Starts a run of digits with the byte. -/
  | beginDigit
  /-- Starts a word behind a period. -/
  | beginSection
  /-- Finishes the lexeme and holds the token back. -/
  | complete
  /-- Finishes the lexeme, which a comma follows. -/
  | completeComma
  /-- Finishes the lexeme and leaves the byte for later. -/
  | completeBefore
  /-- Finishes the word as a label and holds the token back. -/
  | label
  /-- Gives out the held token and leaves the byte for later. -/
  | release
  /-- Gives out the held token, which a comma follows. -/
  | releaseComma
  /-- Drops the byte. -/
  | skip
  /-- Ends the line. -/
  | endOfLine
  /-- Drops everything up to the end of the line. -/
  | comment
  /-- Reads a string literal and holds the token back. -/
  | ascii
  /-- Goes back between two lexemes and leaves the byte for later. -/
  | recover
  /-- Reports a character that no lexeme can hold. -/
  | unknown
deriving DecidableEq

/-- The table of the automaton. -/
def action : State → CharClass → Action
  | .initial, .lowerAlpha | .initial, .upperAlpha => .beginIdentifier
  | .initial, .digit => .beginDigit
  | .initial, .whitespace | .initial, .comma => .skip
  | .initial, .newLine => .endOfLine
  | .initial, .period => .beginSection
  | .initial, .doubleQuote => .ascii
  | .initial, .hash => .comment
  | .initial, _ => .unknown
  | .readIdentifier, .lowerAlpha | .readIdentifier, .upperAlpha | .readIdentifier, .digit =>
    .accumulate
  | .readIdentifier, .whitespace => .complete
  | .readIdentifier, .comma => .completeComma
  | .readIdentifier, .newLine | .readIdentifier, .hash => .completeBefore
  | .readIdentifier, .colon => .label
  | .readIdentifier, _ => .unknown
  | .readDigit, .digit => .accumulate
  | .readDigit, .whitespace => .complete
  | .readDigit, .comma => .completeComma
  | .readDigit, .newLine | .readDigit, .hash => .completeBefore
  | .readDigit, _ => .unknown
  | .readSection, .lowerAlpha | .readSection, .upperAlpha | .readSection, .digit => .accumulate
  | .readSection, .whitespace => .complete
  | .readSection, .comma => .completeComma
  | .readSection, .newLine | .readSection, .hash => .completeBefore
  | .readSection, _ => .unknown
  | .hold, .whitespace => .skip
  | .hold, .comma => .releaseComma
  | .hold, _ => .release
  | .error, .whitespace | .error, .comma | .error, .newLine | .error, .hash
  | .error, .doubleQuote => .recover
  | .error, _ => .skip
  | .exit, _ => .skip

end AsmLinker
