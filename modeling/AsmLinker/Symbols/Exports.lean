import AsmLinker.Error
import AsmLinker.Table
import AsmLinker.Text.Blank

/-!
# Export listings

A listing names the symbols of a library module with their values, one on a line: a name, `=`, and a
number in decimal or, behind `0x`, in hexadecimal. White space may stand around each of them, a `#`
begins a comment, and lines without an entry are skipped.
-/

namespace AsmLinker

/-- The symbols of a library module with their values. -/
abbrev Exports := Table UInt64

namespace Exports

/-- The lines of a text. A line feed ends a line, together with one carriage return before it. -/
def lines : List Char → List (List Char)
  | [] => [[]]
  | '\r' :: '\n' :: rest => [] :: lines rest
  | '\n' :: rest => [] :: lines rest
  | c :: rest =>
    match lines rest with
    | [] => [[c]]
    | line :: more => (c :: line) :: more

/-- A line up to its comment. -/
def uncomment (line : List Char) : List Char :=
  line.takeWhile (· ≠ '#')

/-- Whether a character can begin a name. -/
def isNameStart (c : Char) : Bool :=
  c.isAlpha || c == '_'

/-- Whether a character can stand in a name. -/
def isNameRest (c : Char) : Bool :=
  c.isAlphanum || c == '_'

/-- Drops white space. -/
def skipBlank (cs : List Char) : List Char :=
  cs.dropWhile Text.isBlank

/-- An entry of a listing: a name and a number, given by its base and its digits. -/
structure Entry where
  /-- The name. -/
  name : String
  /-- Ten or sixteen. -/
  base : Nat
  /-- The digits of the number. -/
  digits : List Char
deriving DecidableEq

/-- Reads a nonempty run of digits in which every character is good, with only white space behind
it. -/
def number? (base : Nat) (good : Char → Bool) (cs : List Char) : Option (Nat × List Char) :=
  let digits := cs.takeWhile good
  if digits ≠ [] ∧ skipBlank (cs.dropWhile good) = [] then some (base, digits) else none

/-- Reads the number of an entry. -/
def value? : List Char → Option (Nat × List Char)
  | '0' :: 'x' :: rest => number? 16 (fun c => (Numeral.digit? c).isSome) rest
  | '0' :: 'X' :: rest => number? 16 (fun c => (Numeral.digit? c).isSome) rest
  | cs => number? 10 Char.isDigit cs

/-- Reads an entry from a line without comment. -/
def entry? (line : List Char) : Option Entry :=
  match skipBlank line with
  | [] => none
  | c :: cs =>
    if isNameStart c then
      let name := c :: cs.takeWhile isNameRest
      match skipBlank (cs.dropWhile isNameRest) with
      | '=' :: rest =>
        (value? (skipBlank rest)).map fun (base, digits) =>
          { name := String.ofList name, base, digits }
      | _ => none
    else none

/-- Reads lines, of which the first has the given number, and adds their entries. -/
def addLines (path : String) : Nat → Exports → List (List Char) → Except Error Exports
  | _, exports, [] => .ok exports
  | number, exports, line :: rest =>
    let line := uncomment line
    if line.all Text.isBlank then addLines path (number + 1) exports rest
    else
      match entry? line with
      | none => .error (.format (.malformedExport path number))
      | some entry =>
        match Numeral.word? entry.base entry.digits with
        | none => .error (.format (.exportTooLarge path number))
        | some value =>
          if exports.contains entry.name then .error (.format (.exportedTwice path number))
          else addLines path (number + 1) (exports.insert entry.name value) rest

/-- Reads a listing; the path of its file is for messages. -/
def parse (path : String) (text : String) : Except Error Exports :=
  addLines path 1 .empty (lines text.toList)

end Exports

end AsmLinker
