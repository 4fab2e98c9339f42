import AsmLinker.Error
import AsmLinker.Token.Source

/-!
# String literals

What follows the opening quote of a string literal: raw bytes and escapes up to the closing quote.
Reading stops at the first byte that does not fit, and that byte is consumed.
-/

namespace AsmLinker

/-- Why a literal could not be read. -/
inductive LiteralFault where
  /-- The source is not well formed. -/
  | malformed (fault : SourceFault)
  /-- A read failed. -/
  | unreadable (cause : String)
deriving DecidableEq

namespace Literal

/-- The byte that an escape of one letter stands for. -/
def escaped? (b : UInt8) : Option UInt8 :=
  match Char.ofUInt8 b with
  | 'n' => some 0x0A
  | 't' => some 0x09
  | 'r' => some 0x0D
  | '0' => some 0x00
  | 'a' => some 0x07
  | 'b' => some 0x08
  | 'f' => some 0x0C
  | 'v' => some 0x0B
  | '\\' => some 0x5C
  | '"' => some 0x22
  | '\'' => some 0x27
  | _ => none

/-- Whether a byte ends a line, which no literal may cross. -/
def isLineEnd (b : UInt8) : Bool :=
  b == 0x0A || b == 0x0D

/-- Reads one hexadecimal digit. -/
def hexDigit : List Signal → Except LiteralFault Nat × List Signal
  | [] => (.error (.malformed .badHexEscape), [])
  | .fault cause :: rest => (.error (.unreadable cause), rest)
  | .byte b :: rest =>
    match Numeral.digit? (Char.ofUInt8 b) with
    | some d => (.ok d, rest)
    | none => (.error (.malformed .badHexEscape), rest)

/-- Reads the two digits of a hexadecimal escape, which must stand for an ASCII character. -/
def hexEscape (input : List Signal) : Except LiteralFault UInt8 × List Signal :=
  match hexDigit input with
  | (.error fault, rest) => (.error fault, rest)
  | (.ok high, rest) =>
    match hexDigit rest with
    | (.error fault, rest) => (.error fault, rest)
    | (.ok low, rest) =>
      let value := high * 16 + low
      if value > 0x7F then (.error (.malformed (.escapeOutsideAscii value)), rest)
      else (.ok (UInt8.ofNat value), rest)

/-- Reads what follows a backslash. -/
def escape : List Signal → Except LiteralFault UInt8 × List Signal
  | [] => (.error (.malformed .unterminatedString), [])
  | .fault cause :: rest => (.error (.unreadable cause), rest)
  | .byte b :: rest =>
    if Char.ofUInt8 b = 'x' then hexEscape rest
    else if isLineEnd b then (.error (.malformed .unterminatedString), rest)
    else
      match escaped? b with
      | some decoded => (.ok decoded, rest)
      | none => (.error (.malformed (.unknownEscape (Char.ofUInt8 b))), rest)

theorem length_hexDigit_le (input : List Signal) : (hexDigit input).2.length ≤ input.length := by
  unfold hexDigit
  split
  · simp
  · simp
  · split <;> simp

theorem length_hexEscape_le (input : List Signal) : (hexEscape input).2.length ≤ input.length := by
  unfold hexEscape
  have first := length_hexDigit_le input
  split
  · rename_i fault rest h
    simpa [h] using first
  · rename_i high rest h
    have second := length_hexDigit_le rest
    simp only [h] at first
    split
    · rename_i fault rest' h'
      simp only [h'] at second
      simp only
      omega
    · rename_i low rest' h'
      simp only [h'] at second
      dsimp only
      split <;> simp only <;> omega

theorem length_escape_le (input : List Signal) : (escape input).2.length ≤ input.length := by
  unfold escape
  split
  · simp
  · simp
  · rename_i b rest
    split
    · have := length_hexEscape_le rest
      simp only [List.length_cons]
      omega
    · split
      · simp
      · split <;> simp

/-- A decoded byte in front of what was decoded behind it. -/
def prepend (b : UInt8) :
    Except LiteralFault (List UInt8) × List Signal → Except LiteralFault (List UInt8) × List Signal
  | (.ok bytes, rest) => (.ok (b :: bytes), rest)
  | (.error fault, rest) => (.error fault, rest)

/-- Reads a literal behind its opening quote, up to and with its closing quote, and decodes it. -/
def body (input : List Signal) : Except LiteralFault (List UInt8) × List Signal :=
  match input with
  | [] => (.error (.malformed .unterminatedString), [])
  | .fault cause :: rest => (.error (.unreadable cause), rest)
  | .byte b :: rest =>
    if Char.ofUInt8 b = '"' then (.ok [], rest)
    else if isLineEnd b then (.error (.malformed .unterminatedString), rest)
    else if Char.ofUInt8 b = '\\' then
      match _h : escape rest with
      | (.error fault, rest') => (.error fault, rest')
      | (.ok decoded, rest') => prepend decoded (body rest')
    else prepend b (body rest)
termination_by input.length
decreasing_by
  · have := length_escape_le rest
    simp only [_h] at this
    simp only [List.length_cons]
    omega
  · simp

theorem prepend_snd (b : UInt8) (result : Except LiteralFault (List UInt8) × List Signal) :
    (prepend b result).2 = result.2 := by
  obtain ⟨outcome, rest⟩ := result
  cases outcome <;> rfl

theorem length_body_le (input : List Signal) : (body input).2.length ≤ input.length := by
  fun_induction body input with
  | case1 => simp
  | case2 => simp
  | case3 => simp
  | case4 => simp
  | case5 b rest _ _ _ fault rest' h =>
    have := length_escape_le rest
    simp only [h] at this
    simp only [List.length_cons]
    omega
  | case6 b rest _ _ _ decoded rest' h ih =>
    have := length_escape_le rest
    simp only [h] at this
    simp only [prepend_snd, List.length_cons]
    omega
  | case7 b rest _ _ _ ih =>
    simp only [prepend_snd, List.length_cons]
    omega

/-- Reads the text of a literal behind its opening quote. The decoded bytes must be UTF-8. -/
def read (input : List Signal) : Except LiteralFault String × List Signal :=
  match body input with
  | (.error fault, rest) => (.error fault, rest)
  | (.ok bytes, rest) =>
    match String.fromUTF8? ⟨bytes.toArray⟩ with
    | some text => (.ok text, rest)
    | none => (.error (.malformed .stringNotUtf8), rest)

theorem length_read_le (input : List Signal) : (read input).2.length ≤ input.length := by
  unfold read
  have := length_body_le input
  split
  · rename_i fault rest h
    simpa [h] using this
  · rename_i bytes rest h
    simp only [h] at this
    split <;> simpa using this

end Literal

end AsmLinker
