import AsmLinker.Log
import AsmLinker.Program.Basic

/-!
# Writing images

The image of a resolved program is a header of 16 bytes, a table of 32 bytes for each section, and
the bytes of the sections, all numbers with the least significant byte first:

* header: `TV`, one byte that is 1 if the program has an entry, one byte with the place of the text
  section in the table, four bytes with the size of the data and eight with that of the strings;
* table entry: two bytes with the section's code, two zeros, eight bytes with the entry address (of
  the text section), four zeros, four bytes with the size, four with the start, eight zeros.

The header with the table is written as one block and each section as one. An output may fail in the
middle of a block; what it took stays written.
-/

namespace AsmLinker

/-- What an output does with a block of `n` bytes: it takes the block, or only a part of it. -/
inductive Reaction (n : Nat) where
  | whole
  | stopped (taken : Fin n) (cause : String)

/-- Something that takes blocks of bytes. -/
class OutputDevice (δ : Type) where
  /-- Offers a block. -/
  write : δ → (block : List UInt8) → Reaction block.length × δ
  /-- Asks that nothing be held back; answers the cause of a failure. -/
  flush : δ → Option String × δ

/-- An output with room for so many bytes, or without limit, that fails beyond. -/
structure BoundedDevice where
  /-- How many more bytes it takes. -/
  room : Option Nat := none
  /-- The cause that it gives when the room is used up. -/
  writeFault : String := ""
  /-- The cause with which flushing fails. -/
  flushFault : Option String := none

instance : OutputDevice BoundedDevice where
  write d block :=
    match d.room with
    | none => (.whole, d)
    | some room =>
      if fits : room < block.length then
        (.stopped ⟨room, fits⟩ d.writeFault, { d with room := some 0 })
      else (.whole, { d with room := some (room - block.length) })
  flush d := (d.flushFault, d)

/-- How far an image has been written. -/
inductive Stage where
  | empty
  | header
  | done
deriving DecidableEq

/-- An image in the course of being written. -/
structure Writer (δ : Type) where
  /-- Where the bytes go. -/
  device : δ
  /-- The name of the output, for messages. -/
  name : String := "<output>"
  /-- How far the image has been written. -/
  stage : Stage := .empty
  /-- The length of the blocks that were taken whole. -/
  written : Nat := 0
  /-- All bytes that the output took. -/
  output : List UInt8 := []

namespace Image

/-- The size of the header. -/
def headerSize : Nat := 16

/-- The size of an entry of the section table. -/
def entrySize : Nat := 32

/-- A number in a field of 32 bits. -/
def field32 (field : String) (value : Nat) : Except Error (List UInt8) :=
  if value > 0xFFFFFFFF then .error (.format (.fieldTooLarge field value))
  else .ok (LittleEndian.toBytes 4 value)

/-- The entry of a section in the section table. -/
def tableEntry (layout : Layout) (entry : Option UInt64) (home : Section) :
    Except Error (List UInt8) :=
  let entry := if home = .text then (entry.getD 0).toNat else 0
  match field32 home.name (layout.sizes.get home) with
  | .error e => .error e
  | .ok size =>
    match field32 home.name (layout.starts.get home) with
    | .error e => .error e
    | .ok start =>
      .ok (LittleEndian.toBytes 2 home.code ++ LittleEndian.toBytes 2 0 ++
        LittleEndian.toBytes 8 entry ++ LittleEndian.toBytes 4 0 ++ size ++ start ++
        LittleEndian.toBytes 8 0)

/-- The entries of sections in the section table. -/
def table (layout : Layout) (entry : Option UInt64) : List Section → Except Error (List UInt8)
  | [] => .ok []
  | home :: rest =>
    match tableEntry layout entry home with
    | .error e => .error e
    | .ok bytes =>
      match table layout entry rest with
      | .error e => .error e
      | .ok more => .ok (bytes ++ more)

/-- The header and the section table. -/
def header (layout : Layout) (entry : Option UInt64) : Except Error (List UInt8) :=
  match field32 "data size" layout.sizes.data with
  | .error e => .error e
  | .ok dataSize =>
    match table layout entry Section.all with
    | .error e => .error e
    | .ok entries =>
      .ok ("TV".toUTF8.data.toList ++
        [if entry.isSome then 1 else 0, UInt8.ofNat Section.text.index] ++
        dataSize ++ LittleEndian.toBytes 8 layout.sizes.string ++ entries)

/-- The records of instructions, one behind the other. -/
def records : List Instruction → Except Error (List UInt8)
  | [] => .ok []
  | ins :: rest =>
    match ins.lower with
    | .error e => .error e
    | .ok record =>
      match records rest with
      | .error e => .error e
      | .ok more => .ok (record.toBytes ++ more)

/-- The bytes of a section, which must have the size that the layout gives it. -/
def sectionBytes (p : Program) (layout : Layout) (home : Section) : Except Error (List UInt8) :=
  let payload := if home = .text then records p.instructions else .ok (p.payload home)
  match payload with
  | .error e => .error e
  | .ok bytes =>
    if bytes.length = layout.sizes.get home then .ok bytes
    else .error (.format (.payloadSize home bytes.length (layout.sizes.get home)))

end Image

namespace Writer

variable {δ : Type} [OutputDevice δ]

/-- Writes a block. -/
def emit (w : Writer δ) (block : List UInt8) : Except Error Unit × Writer δ :=
  match OutputDevice.write w.device block with
  | (.whole, device) =>
    (.ok (), { w with
      device
      output := w.output ++ block
      written := w.written + block.length })
  | (.stopped taken cause, device) =>
    (.error (.file .write w.name cause), { w with
      device
      output := w.output ++ block.take taken })

/-- Writes the header and the section table of a resolved program, once. -/
def writeHeader (w : Writer δ) (p : Program) : Except Error Unit × Writer δ :=
  if w.stage ≠ .empty then (.error (.format .headerAlreadyWritten), w)
  else
    match p.layout with
    | none => (.error (.format .programUnresolved), w)
    | some layout =>
      match Image.header layout p.entry? with
      | .error e => (.error e, w)
      | .ok block =>
        match w.emit block with
        | (.error e, w) => (.error e, w)
        | (.ok (), w) => (.ok (), { w with stage := .header })

/-- Writes sections one after the other, up to the first failure. -/
def emitSections (w : Writer δ) (p : Program) (layout : Layout) :
    List Section → Except Error Unit × Writer δ
  | [] => (.ok (), w)
  | home :: rest =>
    match Image.sectionBytes p layout home with
    | .error e => (.error e, w)
    | .ok block =>
      match w.emit block with
      | (.error e, w) => (.error e, w)
      | (.ok (), w) => emitSections w p layout rest

/-- Writes the sections of a resolved program behind the header, once. -/
def writeSections (w : Writer δ) (p : Program) :
    Except Error Unit × Writer δ × List LogRecord :=
  match w.stage with
  | .empty => (.error (.format .headerMissing), w, [])
  | .done => (.error (.format .sectionsAlreadyWritten), w, [])
  | .header =>
    match p.layout with
    | none => (.error (.format .programUnresolved), w, [])
    | some layout =>
      match w.emitSections p layout Section.all with
      | (.error e, w) => (.error e, w, [])
      | (.ok (), w) =>
        match OutputDevice.flush w.device with
        | (some cause, device) => (.error (.file .write w.name cause), { w with device }, [])
        | (none, device) =>
          let bytes := w.written
          let name := w.name
          (.ok (), { w with device, stage := .done },
            [{ level := .info, reporter := .writing,
               message := s!"wrote {bytes} byte(s) to `{name}`" }])

end Writer

end AsmLinker
