import AsmLinker.Machine.Instruction
import AsmLinker.Table

/-!
# Source units

What one source is assembled to: its instructions, the labels it defines and the data it declares.
-/

namespace AsmLinker

/-- A name for a position in a section. -/
structure Label where
  /-- The name. -/
  name : String
  /-- The section of the position. -/
  home : Section
  /-- The distance from the start of the section. -/
  offset : Nat
  /-- The line of the definition. -/
  line : Nat
deriving DecidableEq

/-- How the bytes of a declaration are stored. -/
inductive Encoding where
  | raw
  | zeroTerminated
deriving DecidableEq

/-- Constant data with a name. -/
structure Declaration where
  /-- The name. -/
  name : String
  /-- The section that holds the data. -/
  home : Section
  /-- How the bytes are stored. -/
  encoding : Encoding
  /-- The distance from the start of the section. -/
  offset : Nat
  /-- The bytes, without a terminator. -/
  bytes : List UInt8
deriving DecidableEq

namespace Declaration

/-- The bytes as they are stored. -/
def payload (d : Declaration) : List UInt8 :=
  match d.encoding with
  | .raw => d.bytes
  | .zeroTerminated => d.bytes ++ [0]

/-- The number of bytes as they are stored. -/
def length (d : Declaration) : Nat :=
  match d.encoding with
  | .raw => d.bytes.length
  | .zeroTerminated => d.bytes.length + 1

/-- The first position behind the data. -/
def stop (d : Declaration) : Nat :=
  d.offset + d.length

@[simp] theorem length_payload (d : Declaration) : d.payload.length = d.length := by
  unfold payload length
  split <;> simp

end Declaration

/-- One assembled source. -/
structure SourceUnit where
  /-- The code, in order. -/
  instructions : List Instruction := []
  /-- The labels by name, in order of definition. -/
  labels : Table Label := .empty
  /-- The data by name, in order of declaration. -/
  data : Table Declaration := .empty
deriving DecidableEq

end AsmLinker
