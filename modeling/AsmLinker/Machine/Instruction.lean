import AsmLinker.Error
import AsmLinker.Machine.Word

/-!
# Instructions

An instruction as the assembler builds it, and the fixed record of 32 bytes that the machine
executes. A label operand has no word until the linker has bound it to an address.
-/

namespace AsmLinker

/-- An operand of an instruction. -/
inductive Operand where
  | register (index : UInt8)
  | literal (value : UInt64)
  /-- A reference that waits for the linker. -/
  | label (name : String)
  /-- A reference that the linker has bound. -/
  | address (value : UInt64)
deriving DecidableEq

namespace Operand

/-- The word that stands for the operand in a record. -/
def word? : Operand → Option UInt64
  | .register index => some index.toUInt64
  | .literal value => some value
  | .label _ => none
  | .address value => some value

/-- Whether the operand is a reference that waits for the linker. -/
def isLabel : Operand → Bool
  | .label _ => true
  | _ => false

/-- Whether the operand is a register. -/
def isRegister : Operand → Bool
  | .register _ => true
  | _ => false

/-- The operand as a source spells it; an address is written in hexadecimal. -/
def text : Operand → String
  | .register index => "x" ++ toString index.toNat
  | .literal value => toString value.toNat
  | .label name => name
  | .address value => "0x" ++ Numeral.hexUpper 1 value.toNat

end Operand

namespace Flag

/-- The first operand is a register. -/
def destRegister : UInt8 := 1

/-- The first operand is not a register. -/
def destLiteral : UInt8 := 2

/-- The second operand is a register. -/
def srcRegister : UInt8 := 4

/-- The second operand is not a register. -/
def srcLiteral : UInt8 := 8

/-- An operand is an address. -/
def address : UInt8 := 16

end Flag

/-- An instruction with its place in the source. -/
structure Instruction where
  /-- The operation. -/
  op : Opcode
  /-- What kinds of operand it has. -/
  flags : UInt8 := 0
  /-- The operands, in order. -/
  operands : List Operand := []
  /-- The name that the instruction refers to, for listings. -/
  label : Option String := none
  /-- The line on which it stands. -/
  line : Nat
deriving DecidableEq

/-- The record that the machine executes. -/
structure Record where
  /-- The code of the operation. -/
  code : UInt8
  /-- What kinds of operand it has. -/
  flags : UInt8
  /-- The number of operands. -/
  count : UInt8
  /-- The operand words. -/
  words : List UInt64
  /-- There are always three of them. -/
  words_length : words.length = 3
deriving DecidableEq

namespace Record

/-- The size of a record in bytes. -/
def size : Nat := 32

/-- The bytes of a record: code, flags and count, five zeros, and the operand words, least
significant byte first. -/
def toBytes (r : Record) : List UInt8 :=
  [r.code, r.flags, r.count] ++ List.replicate 5 0 ++ r.words.flatMap Word.bytes

/-- Every record has the same size. -/
@[simp] theorem length_toBytes (r : Record) : r.toBytes.length = size := by
  obtain ⟨code, flags, count, words, length⟩ := r
  match words, length with
  | [a, b, c], _ => simp [toBytes, Word.bytes, size]

end Record

namespace Instruction

/-- The instruction as a source spells it. -/
def text (ins : Instruction) : String :=
  match ins.operands with
  | [] => ins.op.mnemonic
  | operands => ins.op.mnemonic ++ " " ++ ", ".intercalate (operands.map Operand.text)

/-- Whether no operand waits for the linker. -/
def isResolved (ins : Instruction) : Bool :=
  !ins.operands.any Operand.isLabel

/-- The words of the first `n` operands, with zeros for those that are missing, or the first label
among them. -/
def words? : (n : Nat) → List Operand → Except Operand { ws : List UInt64 // ws.length = n }
  | 0, _ => .ok ⟨[], rfl⟩
  | n + 1, [] => .ok ⟨List.replicate (n + 1) 0, by simp⟩
  | n + 1, operand :: rest =>
    match operand.word? with
    | none => .error operand
    | some w =>
      match words? n rest with
      | .error operand => .error operand
      | .ok ⟨ws, length⟩ => .ok ⟨w :: ws, by simp [length]⟩

/-- The record of an instruction. Only the first three operands have a word in it, and the operands
are counted modulo 256. -/
def lower (ins : Instruction) : Except Error Record :=
  match words? 3 ins.operands with
  | .error operand => .error (.unresolved ins.line operand.text ins.text)
  | .ok ⟨words, length⟩ =>
    .ok {
      code := ins.op.code
      flags := ins.flags
      count := UInt8.ofNat ins.operands.length
      words
      words_length := length }

end Instruction

end AsmLinker
