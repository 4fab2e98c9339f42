import AsmLinker.Unit.Basic

/-!
# Programs

A program collects source units. The labels of a unit are merged first, then its data, then its
instructions: the positions of labels and data are shifted by the sizes that the sections had before
the unit. Merging anything undoes the layout.
-/

namespace AsmLinker

/-- Where the sections of a program lie. -/
structure Layout where
  /-- The address at which each section starts. -/
  starts : PerSection Nat
  /-- The size of each section. -/
  sizes : PerSection Nat
deriving DecidableEq

namespace Layout

/-- The layout of sections of the given sizes: one behind the other, from address 0. -/
def ofSizes (sizes : PerSection Nat) : Layout :=
  { starts := { data := 0, text := sizes.data, string := sizes.data + sizes.text }, sizes }

/-- The address of a position in a section. -/
def address (layout : Layout) (label : Label) : UInt64 :=
  UInt64.ofNat (layout.starts.get label.home + label.offset)

end Layout

/-- Merged units. -/
structure Program where
  /-- The labels of all units. -/
  labels : Table Label := .empty
  /-- The data of all units. -/
  data : Table Declaration := .empty
  /-- The instructions of all units. -/
  instructions : List Instruction := []
  /-- The size of each section. -/
  sizes : PerSection Nat := .const 0
  /-- The library modules against which the program was resolved, in search order. -/
  dependencies : List String := []
  /-- Where the sections lie, once the program is resolved. -/
  layout : Option Layout := none
deriving DecidableEq

namespace Program

/-- The label at which a program is entered. -/
def entryLabel : String := "main"

/-- Whether every reference has been bound to an address. -/
def isResolved (p : Program) : Bool :=
  p.layout.isSome

/-- The address at which a resolved program is entered: that of its entry label, if it has one in
its text section. -/
def entry? (p : Program) : Option UInt64 :=
  match p.layout, p.labels.get? entryLabel with
  | some layout, some label => if label.home = .text then some (layout.address label) else none
  | _, _ => none

/-- A label of a unit at its position in the program. -/
def placeLabel (sizes : PerSection Nat) (label : Label) : Label :=
  { label with offset := label.offset + sizes.get label.home }

/-- A declaration of a unit at its position in the program. -/
def placeData (sizes : PerSection Nat) (d : Declaration) : Declaration :=
  { d with offset := d.offset + sizes.get d.home }

/-- Merges labels, none of which may be in the program already. -/
def mergeLabels (p : Program) (labels : Table Label) : Except Error Program :=
  match labels.entries.find? (fun entry => p.labels.contains entry.1) with
  | some (name, label) => .error (.duplicateLabel (some label.line) name)
  | none =>
    let placed := labels.entries.map fun (name, label) => (name, placeLabel p.sizes label)
    .ok { p with labels := p.labels.insertAll placed, layout := none }

/-- The sizes of sections after data has been put into them. -/
def grow (sizes : PerSection Nat) (data : List Declaration) : PerSection Nat :=
  data.foldl (fun sizes d => sizes.set d.home (max (sizes.get d.home) d.stop)) sizes

/-- Merges data, none of which may be in the program already. -/
def mergeData (p : Program) (data : Table Declaration) : Except Error Program :=
  match data.entries.find? (fun entry => p.data.contains entry.1) with
  | some (name, _) => .error (.duplicateLabel none name)
  | none =>
    let placed := data.entries.map fun (name, d) => (name, placeData p.sizes d)
    .ok { p with
      data := p.data.insertAll placed
      sizes := grow p.sizes (placed.map Prod.snd)
      layout := none }

/-- Merges instructions. -/
def mergeInstructions (p : Program) (instructions : List Instruction) : Program :=
  { p with
    instructions := p.instructions ++ instructions
    sizes := p.sizes.set .text (p.sizes.text + instructions.length * Record.size)
    layout := none }

/-- Merges a unit: its labels, then its data, and its instructions only if both went well. -/
def merge (p : Program) (unit : SourceUnit) : Except Error Unit × Program :=
  match p.mergeLabels unit.labels with
  | .error e => (.error e, p)
  | .ok p =>
    match p.mergeData unit.data with
    | .error e => (.error e, p)
    | .ok p => (.ok (), p.mergeInstructions unit.instructions)

/-- The bytes up to a position, with zeros behind them if there are fewer. -/
def fill (position : Nat) (bytes : List UInt8) : List UInt8 :=
  bytes.take position ++ List.replicate (position - bytes.length) 0

/-- The data of a section, in the order of the positions. -/
def dataOf (p : Program) (home : Section) : List Declaration :=
  (p.data.values.filter (·.home = home)).mergeSort (fun a b => a.offset ≤ b.offset)

/-- The bytes of the data in a section: each declaration at its position. -/
def payload (p : Program) (home : Section) : List UInt8 :=
  (p.dataOf home).foldl (fun bytes d => fill d.offset bytes ++ d.payload) []

end Program

end AsmLinker
