import Mathlib
import AsmLinker.Proofs.Image.Writing

/-!
# Outputs with limited room

An output with room for so many bytes takes a block exactly if the block is no longer than what is
left of the room. Hence it takes the image of a program that can be written exactly if there is room
for the header with its table and for all sections, and it can be flushed
(`Program.Finished.written_iff`).
-/

namespace AsmLinker

namespace BoundedDevice

variable {d : BoundedDevice} {n : Nat} {block : List UInt8}

/-- There is room for so many bytes. -/
def HasRoom (d : BoundedDevice) (n : Nat) : Prop :=
  ∀ room, d.room = some room → n ≤ room

/-- The output when it has taken so many bytes. -/
def filled (d : BoundedDevice) (n : Nat) : BoundedDevice :=
  { d with room := d.room.map (· - n) }

/-- So many bytes are taken, and nothing of them is held back. -/
def Takes (d : BoundedDevice) (n : Nat) : Prop :=
  d.HasRoom n ∧ d.flushFault = none

theorem hasRoom_add_iff {m : Nat} : d.HasRoom (m + n) ↔ d.HasRoom m ∧ (d.filled m).HasRoom n := by
  unfold HasRoom filled
  cases d.room with
  | none => simp
  | some room =>
    simp only [Option.map_some, Option.some.injEq, forall_eq']
    omega

theorem write_of_hasRoom (h : d.HasRoom block.length) :
    OutputDevice.write d block = (.whole, d.filled block.length) := by
  simp only [OutputDevice.write, filled]
  cases hroom : d.room with
  | none =>
    obtain ⟨_, _, _⟩ := d
    cases hroom
    rfl
  | some room =>
    have hle := h room hroom
    simp [Nat.not_lt.mpr hle]

theorem write_of_not_hasRoom (h : ¬ d.HasRoom block.length) :
    ∃ taken cause d', OutputDevice.write d block = (.stopped taken cause, d') := by
  simp only [HasRoom, not_forall, Nat.not_le] at h
  obtain ⟨room, hroom, hlt⟩ := h
  simp only [OutputDevice.write, hroom, dif_pos hlt]
  exact ⟨_, _, _, rfl⟩

end BoundedDevice

namespace Writer

variable {w w' : Writer BoundedDevice} {p : Program} {layout : Layout} {block : List UInt8}
  {bytes : Section → List UInt8}

/-- A block is written exactly if there is room for it. -/
theorem emit_ok_iff : (w.emit block).1 = .ok () ↔ w.device.HasRoom block.length := by
  constructor
  · intro h
    by_contra hnot
    obtain ⟨taken, cause, d', hwrite⟩ := BoundedDevice.write_of_not_hasRoom hnot
    rw [emit, hwrite] at h
    cases h
  · intro h
    rw [emit, BoundedDevice.write_of_hasRoom h]

theorem device_of_emit (h : w.emit block = (.ok (), w')) :
    w'.device = w.device.filled block.length := by
  have hroom := emit_ok_iff.mp (congrArg Prod.fst h)
  rw [emit, BoundedDevice.write_of_hasRoom hroom] at h
  cases h
  rfl

/-- Sections are written exactly if there is room for all of them. -/
theorem emitSections_ok_iff {homes : List Section}
    (hbytes : ∀ home ∈ homes, Image.sectionBytes p layout home = .ok (bytes home)) :
    (w.emitSections p layout homes).1 = .ok () ↔
      w.device.HasRoom (homes.flatMap bytes).length := by
  induction homes generalizing w with
  | nil => simp [emitSections, BoundedDevice.HasRoom]
  | cons home rest ih =>
    obtain ⟨hfirst, hrest⟩ := List.forall_mem_cons.mp hbytes
    rw [emitSections, hfirst, List.flatMap_cons, List.length_append, BoundedDevice.hasRoom_add_iff,
      ← emit_ok_iff]
    dsimp only
    rcases hemit : w.emit (bytes home) with ⟨e | ⟨⟩, next⟩
    · simp
    · rw [← device_of_emit hemit, ← ih hrest]
      simp

theorem device_of_emitSections {homes : List Section}
    (h : w.emitSections p layout homes = (.ok (), w')) :
    w'.device.flushFault = w.device.flushFault := by
  induction homes generalizing w with
  | nil =>
    cases h
    rfl
  | cons home rest ih =>
    rw [emitSections] at h
    split at h
    · cases h
    next block hbytes =>
      split at h
      · cases h
      next next hemit =>
        rw [ih h, device_of_emit hemit]
        rfl

/-- The header is written exactly if all numbers fit their fields and there is room for it. -/
theorem writeHeader_ok_iff (hstage : w.stage = .empty) (hlayout : p.layout = some layout) :
    (w.writeHeader p).1 = .ok () ↔ (∀ home, Image.Fits layout home) ∧
      w.device.HasRoom (Image.headerSize + 3 * Image.entrySize) := by
  rw [writeHeader, if_neg (not_not.mpr hstage), hlayout]
  dsimp only
  rcases hheader : Image.header layout p.entry? with e | block
  · have hnot : ¬ ∀ home, Image.Fits layout home := by
      intro hfits
      obtain ⟨block, hblock, -⟩ := Image.header_ok p.entry? hfits
      rw [hheader] at hblock
      cases hblock
    simp [hnot]
  · have hfits := Image.fits_of_header hheader
    rw [← Image.length_of_header hheader, ← emit_ok_iff]
    dsimp only
    split
    next heq => simp [heq]
    next heq => simp [heq, hfits]

theorem device_of_writeHeader (hlayout : p.layout = some layout)
    (h : w.writeHeader p = (.ok (), w')) :
    w'.device = w.device.filled (Image.headerSize + 3 * Image.entrySize) := by
  rw [writeHeader, hlayout] at h
  split at h
  · cases h
  dsimp only at h
  split at h
  · cases h
  next block hheader =>
    split at h
    · cases h
    next next hemit =>
      have hdevice := device_of_emit hemit
      rw [Image.length_of_header hheader] at hdevice
      cases h
      exact hdevice

/-- The sections are written exactly if there is room for them and the output can be flushed. -/
theorem writeSections_ok_iff (hstage : w.stage = .header) (hlayout : p.layout = some layout)
    (hbytes : ∀ home, Image.sectionBytes p layout home = .ok (bytes home)) :
    (w.writeSections p).1 = .ok () ↔ w.device.Takes (Section.all.flatMap bytes).length := by
  have hroom : (w.emitSections p layout Section.all).1 = .ok () ↔
      w.device.HasRoom (Section.all.flatMap bytes).length :=
    emitSections_ok_iff fun home _ => hbytes home
  rw [writeSections, hstage, hlayout, BoundedDevice.Takes, ← hroom]
  dsimp only
  rcases hemit : w.emitSections p layout Section.all with ⟨e | ⟨⟩, next⟩
  · simp
  · rw [← device_of_emitSections hemit]
    dsimp only [OutputDevice.flush]
    cases next.device.flushFault <;> simp

end Writer

namespace Program

variable {p : Program}

/-- The number of bytes of an image with sections of these sizes. -/
def imageSize (sizes : PerSection Nat) : Nat :=
  Image.headerSize + 3 * Image.entrySize + (sizes.data + sizes.text + sizes.string)

/-- An output of limited room takes the image of a program exactly if all numbers fit their fields,
there is room for the image, and the output can be flushed. -/
theorem Finished.written_iff (h : p.Finished) {w : Writer BoundedDevice}
    (hstage : w.stage = .empty) :
    (w.writeHeader p).1 = .ok () ∧ ((w.writeHeader p).2.writeSections p).1 = .ok () ↔
      (∀ home, Image.Fits (.ofSizes p.sizes) home) ∧ w.device.Takes (imageSize p.sizes) := by
  obtain ⟨records, hrecords, hall⟩ := h.records_ok
  have hbytes := h.sectionBytes_eq hrecords hall.length_eq
  have hlength : (Section.all.flatMap (p.sectionContents records).get).length =
      p.sizes.data + p.sizes.text + p.sizes.string := by
    have hdata := h.length_sectionContents hall.length_eq .data
    have htext := h.length_sectionContents hall.length_eq .text
    have hstring := h.length_sectionContents hall.length_eq .string
    simp only [Section.all, List.flatMap_cons, List.flatMap_nil, List.length_append, hdata, htext,
      hstring, List.length_nil, Nat.add_zero, ← Nat.add_assoc]
    rfl
  rw [imageSize, BoundedDevice.Takes, BoundedDevice.hasRoom_add_iff, and_assoc, ← and_assoc,
    ← Writer.writeHeader_ok_iff hstage h.layout]
  refine and_congr_right fun hok => ?_
  -- the header has taken its part of the room, and the sections follow
  have hheader : w.writeHeader p = (.ok (), (w.writeHeader p).2) := Prod.ext hok rfl
  obtain ⟨-, -, -, hnext⟩ := Writer.writeHeader_ok h.layout hheader
  rw [Writer.writeSections_ok_iff hnext h.layout hbytes, hlength, BoundedDevice.Takes,
    Writer.device_of_writeHeader h.layout hheader]
  rfl

end Program

end AsmLinker
