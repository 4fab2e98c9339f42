import AsmLinker.Token.Scanner

/-!
# Token streams

The answers of a scanner, request after request, up to the end of the file. Every other answer
consumes input, so their number is at most the length of what is pending.
-/

namespace AsmLinker

/-- An answer of the scanner, and the scanner after it. -/
structure Reading where
  /-- A token or an error. -/
  answer : Except Error Token
  /-- The scanner after the answer. -/
  scanner : Scanner

/-- Whether the answer is the end of the file. -/
def Reading.isEnd (r : Reading) : Bool :=
  match r.answer with
  | .ok token => token.kind == .endOfFile
  | .error _ => false

namespace Scanner

/-- One request. -/
def read (s : Scanner) : Reading :=
  { answer := s.scan.1, scanner := s.scan.2 }

/-- At most `n` requests, until the end of the file is answered. -/
def readUpTo : Nat → Scanner → List Reading
  | 0, _ => []
  | n + 1, s =>
    let reading := s.read
    if reading.isEnd then [reading] else reading :: readUpTo n reading.scanner

/-- All answers up to and with the end of the file. -/
def readings (s : Scanner) : List Reading :=
  s.readUpTo (s.source.pending.length + 1)

/-- `n` further requests. -/
def requests : Nat → Scanner → List Reading
  | 0, _ => []
  | n + 1, s => s.read :: requests n s.read.scanner

end Scanner

/-- The tokens and errors of a source in order, and the line on which the source ends. -/
structure TokenStream where
  /-- What is still to be taken, without the end of the file. -/
  answers : List (Except Error Token)
  /-- The line of the end of the file. -/
  endLine : Nat

namespace TokenStream

/-- The stream of readings up to the end of the file, which is the last of them. -/
def ofReadings (line : Nat) : List Reading → TokenStream
  | [] => { answers := [], endLine := line }
  | reading :: rest =>
    if reading.isEnd then { answers := [], endLine := reading.scanner.line }
    else
      let stream := ofReadings reading.scanner.line rest
      { stream with answers := reading.answer :: stream.answers }

/-- The stream of all answers of a scanner. -/
def ofScanner (s : Scanner) : TokenStream :=
  ofReadings s.line s.readings

end TokenStream

end AsmLinker
