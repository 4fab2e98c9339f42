import AsmLinker.Program.Basic

/-!
# Listings

The instructions of a resolved program next to their encoding, in columns.
-/

namespace AsmLinker

namespace Columns

/-- The larger of two widths, column by column. -/
def mergeWidths : List Nat → List Nat → List Nat
  | [], ws => ws
  | ws, [] => ws
  | v :: vs, w :: ws => max v w :: mergeWidths vs ws

/-- The width of each column: that of its widest cell. -/
def widths : List (List String) → List Nat
  | [] => []
  | row :: rows => mergeWidths (row.map String.length) (widths rows)

/-- A row of cells, each but the last padded to one more than the width of its column. -/
def renderRow : List Nat → List String → String
  | _, [] => ""
  | _, [last] => last
  | [], cell :: cells => cell ++ " " ++ renderRow [] cells
  | width :: widths, cell :: cells =>
    cell ++ String.ofList (List.replicate (width - cell.length + 1) ' ') ++ renderRow widths cells

/-- Rows of cells in columns, each row on a line of its own. -/
def render (rows : List (List String)) : String :=
  String.join (rows.map fun row => renderRow (widths rows) row ++ "\n")

end Columns

namespace Program

/-- The encoding of an instruction in hexadecimal: code, flags, count and one word for each operand,
or the reason why there is none. -/
def encodingText (ins : Instruction) : String :=
  match ins.lower with
  | .error e => e.message
  | .ok record =>
    let bytes := [record.code, record.flags, record.count].map fun b => Numeral.hexUpper 2 b.toNat
    let words := (record.words.take record.count.toNat).map fun w => Numeral.hexUpper 16 w.toNat
    " ".intercalate (bytes ++ words)

/-- The rows of a listing: address, instruction, the name it refers to, an arrow, and the
encoding. -/
def listingRows : Nat → List Instruction → List (List String)
  | _, [] => []
  | address, ins :: rest =>
    let label := match ins.label with
      | some name => "<" ++ name ++ ">"
      | none => ""
    ["0x" ++ Numeral.hexUpper 8 address ++ ":", ins.text, label, "=>", encodingText ins] ::
      listingRows (address + Record.size) rest

/-- The listing of a program, from the start of its text section. -/
def listing (p : Program) : String :=
  let start := match p.layout with
    | some layout => layout.starts.text
    | none => 0
  Columns.render (listingRows start p.instructions)

end Program

end AsmLinker
