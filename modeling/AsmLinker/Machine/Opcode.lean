/-!
# Opcodes

The instruction set: each opcode has a mnemonic, a code for the machine and one slot per operand,
which says what may stand there.
-/

namespace AsmLinker

/-- What an operand position of an instruction accepts. -/
inductive Slot where
  | register
  | literal
  | address
  | registerOrLiteral
deriving DecidableEq

/-- The slot as diagnostics name it. -/
def Slot.describe : Slot → String
  | .register => "a register"
  | .literal => "a literal"
  | .address => "an address"
  | .registerOrLiteral => "a register or literal"

/-- The operations of the machine. -/
inductive Opcode where
  | ret | mov | call | inc | dec | cmp
  | jmp | jeq | jne | jlt | jgt | jle | jge
  | add | sub | mul | div | shr | shl
  | prg | prgi
deriving DecidableEq

namespace Opcode

/-- Every opcode, in the order of the codes. -/
def all : List Opcode :=
  [.ret, .mov, .call, .inc, .dec, .cmp, .jmp, .jeq, .jne, .jlt, .jgt, .jle, .jge,
   .add, .sub, .mul, .div, .shr, .shl, .prg, .prgi]

/-- The word that stands for the opcode in a source. -/
def mnemonic : Opcode → String
  | .ret => "ret"
  | .mov => "mov"
  | .call => "call"
  | .inc => "inc"
  | .dec => "dec"
  | .cmp => "cmp"
  | .jmp => "jmp"
  | .jeq => "jeq"
  | .jne => "jne"
  | .jlt => "jlt"
  | .jgt => "jgt"
  | .jle => "jle"
  | .jge => "jge"
  | .add => "add"
  | .sub => "sub"
  | .mul => "mul"
  | .div => "div"
  | .shr => "shr"
  | .shl => "shl"
  | .prg => "prg"
  | .prgi => "prgi"

/-- The code of the opcode in a machine record. -/
def code : Opcode → UInt8
  | .ret => 1
  | .mov => 2
  | .call => 3
  | .inc => 4
  | .dec => 5
  | .cmp => 6
  | .jmp => 7
  | .jeq => 8
  | .jne => 9
  | .jlt => 10
  | .jgt => 11
  | .jle => 12
  | .jge => 13
  | .add => 14
  | .sub => 15
  | .mul => 16
  | .div => 17
  | .shr => 18
  | .shl => 19
  | .prg => 20
  | .prgi => 21

/-- The operand slots of the opcode, in order. -/
def slots : Opcode → List Slot
  | .ret | .prgi => []
  | .inc | .dec | .prg => [.register]
  | .call | .jmp | .jeq | .jne | .jlt | .jgt | .jle | .jge => [.address]
  | .mov | .cmp | .add | .sub | .mul | .div | .shr | .shl => [.register, .registerOrLiteral]

/-- The opcode that a word spells, letter for letter. -/
def ofMnemonic? (word : String) : Option Opcode :=
  all.find? (·.mnemonic == word)

@[simp] theorem ofMnemonic?_mnemonic (op : Opcode) : ofMnemonic? op.mnemonic = some op := by
  cases op <;> decide

/-- A word spells at most the opcode whose mnemonic it is. -/
theorem ofMnemonic?_eq_some_iff {word : String} {op : Opcode} :
    ofMnemonic? word = some op ↔ op.mnemonic = word := by
  constructor
  · intro h
    simpa using List.find?_some h
  · rintro rfl
    exact ofMnemonic?_mnemonic op

end Opcode

end AsmLinker
