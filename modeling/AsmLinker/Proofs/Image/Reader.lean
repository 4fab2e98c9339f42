import Mathlib
import AsmLinker.Image.Writer

/-!
# Reading images

A reader for the image format, independent of the writer: it takes the fields of the header and of
the section table one after the other, least significant byte first, then the bytes of the sections
by the sizes in the table, and the records of the text section one after the other.

What was written as a number at some width is read back if it fits the width
(`Image.number_toBytes`), and what was written as a record is read back in any case
(`Record.read_toBytes`).
-/

namespace AsmLinker

namespace LittleEndian

/-- Reading the bytes of a number gives the number back, as far as it fits. -/
theorem ofBytes_toBytes (width n : Nat) : ofBytes (toBytes width n) = n % 256 ^ width := by
  induction width generalizing n with
  | zero => simp [toBytes, ofBytes, Nat.mod_one]
  | succ width ih =>
    have hbyte : (UInt8.ofNat (n % 256)).toNat = n % 256 :=
      UInt8.toNat_ofNat_of_lt' (Nat.mod_lt n (by decide))
    calc ofBytes (toBytes (width + 1) n)
        = (UInt8.ofNat (n % 256)).toNat + 256 * ofBytes (toBytes width (n / 256)) := rfl
      _ = n % 256 + 256 * (n / 256 % 256 ^ width) := by rw [hbyte, ih]
      _ = n % (256 * 256 ^ width) := by rw [Nat.mod_mul]
      _ = n % 256 ^ (width + 1) := by rw [Nat.pow_succ']

end LittleEndian

namespace Image

/-- Reads a number of `width` bytes. -/
def number (width : Nat) (bytes : List UInt8) : Nat × List UInt8 :=
  (LittleEndian.ofBytes (bytes.take width), bytes.drop width)

/-- The entry of a section in the section table, as it is read. -/
structure TableEntry where
  /-- The code of the section. -/
  code : Nat
  /-- Always 0. -/
  flags : Nat
  /-- The address at which the program is entered, for the text section. -/
  entry : Nat
  /-- Always 0. -/
  reserved : Nat
  /-- The size of the section. -/
  size : Nat
  /-- The address at which the section starts. -/
  start : Nat
  /-- Always 0. -/
  padding : Nat
deriving DecidableEq

/-- Reads an entry of the section table. -/
def TableEntry.read (bytes : List UInt8) : TableEntry × List UInt8 :=
  let (code, bytes) := number 2 bytes
  let (flags, bytes) := number 2 bytes
  let (entry, bytes) := number 8 bytes
  let (reserved, bytes) := number 4 bytes
  let (size, bytes) := number 4 bytes
  let (start, bytes) := number 4 bytes
  let (padding, bytes) := number 8 bytes
  ({ code, flags, entry, reserved, size, start, padding }, bytes)

/-- An image as it is read. -/
structure View where
  /-- The code of the format. -/
  code : Nat
  /-- 1 if the program has an entry. -/
  flags : Nat
  /-- The place of the text section in the table. -/
  textIndex : Nat
  /-- The size of the data. -/
  dataSize : Nat
  /-- The size of the strings. -/
  stringSize : Nat
  /-- The section table. -/
  table : PerSection TableEntry
  /-- The bytes of the sections. -/
  payload : PerSection (List UInt8)
  /-- What is left behind the sections. -/
  rest : List UInt8
deriving DecidableEq

/-- Reads an image. -/
def View.read (bytes : List UInt8) : View :=
  let (code, bytes) := number 2 bytes
  let (flags, bytes) := number 1 bytes
  let (textIndex, bytes) := number 1 bytes
  let (dataSize, bytes) := number 4 bytes
  let (stringSize, bytes) := number 8 bytes
  let (data, bytes) := TableEntry.read bytes
  let (text, bytes) := TableEntry.read bytes
  let (string, bytes) := TableEntry.read bytes
  { code, flags, textIndex, dataSize, stringSize
    table := { data, text, string }
    payload :=
      { data := bytes.take data.size
        text := (bytes.drop data.size).take text.size
        string := (bytes.drop (data.size + text.size)).take string.size }
    rest := bytes.drop (data.size + text.size + string.size) }

/-- A number that fits its field is read back. -/
theorem number_toBytes {width n : Nat} (h : n < 256 ^ width) (rest : List UInt8) :
    number width (LittleEndian.toBytes width n ++ rest) = (n, rest) := by
  have hlength := LittleEndian.length_toBytes width n
  unfold number
  rw [List.take_left' hlength, List.drop_left' hlength, LittleEndian.ofBytes_toBytes,
    Nat.mod_eq_of_lt h]

/-- A byte is read as a number. -/
theorem number_one (b : UInt8) (rest : List UInt8) : number 1 (b :: rest) = (b.toNat, rest) := by
  simp [number, LittleEndian.ofBytes]

end Image

namespace Record

/-- Reads a record. -/
def read (bytes : List UInt8) : Record × List UInt8 :=
  let (code, bytes) := Image.number 1 bytes
  let (flags, bytes) := Image.number 1 bytes
  let (count, bytes) := Image.number 1 bytes
  let (_, bytes) := Image.number 5 bytes
  let (first, bytes) := Image.number 8 bytes
  let (second, bytes) := Image.number 8 bytes
  let (third, bytes) := Image.number 8 bytes
  ({ code := UInt8.ofNat code
     flags := UInt8.ofNat flags
     count := UInt8.ofNat count
     words := [UInt64.ofNat first, UInt64.ofNat second, UInt64.ofNat third]
     words_length := rfl }, bytes)

/-- Reads so many records. -/
def readAll : Nat → List UInt8 → List Record
  | 0, _ => []
  | n + 1, bytes => (read bytes).1 :: readAll n (read bytes).2

/-- A word is read back. -/
theorem number_word (w : UInt64) (rest : List UInt8) :
    Image.number 8 (Word.bytes w ++ rest) = (w.toNat, rest) := by
  apply Image.number_toBytes
  have hlt := w.toNat_lt
  norm_num at hlt ⊢
  exact hlt

/-- The bytes of a record: 8 in front, and 8 for each of its words. -/
theorem exists_words (r : Record) : ∃ first second third, r.words = [first, second, third] ∧
    r.toBytes = ([r.code, r.flags, r.count] ++ LittleEndian.toBytes 5 0) ++
      (Word.bytes first ++ (Word.bytes second ++ Word.bytes third)) := by
  obtain ⟨first, second, third, hwords⟩ := List.length_eq_three.mp r.words_length
  refine ⟨first, second, third, hwords, ?_⟩
  rw [toBytes, hwords]
  simp [LittleEndian.toBytes]

/-- A record is read back. -/
theorem read_toBytes (r : Record) (rest : List UInt8) : read (r.toBytes ++ rest) = (r, rest) := by
  obtain ⟨first, second, third, hwords, hbytes⟩ := r.exists_words
  obtain ⟨code, flags, count, words, length⟩ := r
  obtain rfl : words = [first, second, third] := hwords
  have hzeros : 0 < 256 ^ 5 := by norm_num
  rw [hbytes]
  simp only [read, List.append_assoc, List.cons_append, List.nil_append, Image.number_one,
    number_word, Image.number_toBytes hzeros, UInt8.ofNat_toNat, UInt64.ofNat_toNat]

/-- Records are read back. -/
theorem readAll_flatMap (records : List Record) (rest : List UInt8) :
    readAll records.length (records.flatMap toBytes ++ rest) = records := by
  induction records with
  | nil => rfl
  | cons r records ih =>
    rw [List.flatMap_cons, List.append_assoc, List.length_cons, readAll, read_toBytes, ih]

theorem length_flatMap_toBytes (records : List Record) :
    (records.flatMap toBytes).length = size * records.length := by
  induction records with
  | nil => rfl
  | cons r records ih =>
    rw [List.flatMap_cons, List.length_append, ih, length_toBytes, List.length_cons, Nat.mul_succ,
      Nat.add_comm]

/-- The record holds what an instruction says: the code of its operation, its flags, the number of
its operands, and their words, with zeros for those that are missing. -/
structure Holds (r : Record) (ins : Instruction) : Prop where
  /-- The code is that of the operation. -/
  code : r.code = ins.op.code
  /-- The flags are those of the instruction. -/
  flags : r.flags = ins.flags
  /-- All operands are counted. -/
  count : r.count.toNat = ins.operands.length
  /-- Every operand has its word. -/
  words : r.words.map some =
    ins.operands.map Operand.word? ++ List.replicate (3 - ins.operands.length) (some 0)

end Record

end AsmLinker
