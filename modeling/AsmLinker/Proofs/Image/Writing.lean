import Mathlib
import AsmLinker.Proofs.Image.Reader
import AsmLinker.Proofs.Program.Payload
import AsmLinker.Proofs.Program.Resolve

/-!
# What is written

The header of an image can be written exactly when the sizes and starts of the sections fit their
fields of 32 bits, and then it is read back (`Image.header_ok`). The sections of a program that was
resolved can always be written (`Program.Finished.sectionBytes_eq`): every instruction has a record
that holds what it says, and every section has the recorded size. An output that never fails takes
all of it.

`Program.HasImage` says which bytes these are. A reader that knows nothing but the format gets from
them what the program was: its layout, its entry and its sections
(`Program.Finished.read_of_hasImage`).
-/

namespace AsmLinker

/-! ## Records -/

/-- Operands that all have a word, and for which there is room, have words. -/
theorem Instruction.words?_ok {operands : List Operand} {n : Nat} (hlength : operands.length ≤ n)
    (hwords : ∀ operand ∈ operands, operand.word?.isSome) :
    ∃ ws, Instruction.words? n operands = .ok ws ∧
      ws.val.map some =
        operands.map Operand.word? ++ List.replicate (n - operands.length) (some 0) := by
  induction operands generalizing n with
  | nil =>
    cases n with
    | zero => exact ⟨_, rfl, rfl⟩
    | succ n => exact ⟨_, rfl, by simp⟩
  | cons operand rest ih =>
    obtain ⟨n, rfl⟩ : ∃ m, n = m + 1 := ⟨n - 1, by simp at hlength; omega⟩
    obtain ⟨w, hw⟩ := Option.isSome_iff_exists.mp (hwords operand (by simp))
    obtain ⟨ws, hws, hmap⟩ := ih (by simpa using hlength) fun other hother =>
      hwords other (by simp [hother])
    refine ⟨⟨w :: ws.val, by simp [ws.property]⟩, ?_, ?_⟩
    · rw [Instruction.words?, hw, hws]
    · simp [hmap, hw]

/-- An instruction of up to three operands that all have a word has a record. -/
theorem Instruction.lower_ok {ins : Instruction} (hlength : ins.operands.length ≤ 3)
    (hwords : ∀ operand ∈ ins.operands, operand.word?.isSome) :
    ∃ r, ins.lower = .ok r ∧ r.Holds ins := by
  obtain ⟨⟨words, length⟩, hws, hmap⟩ := Instruction.words?_ok hlength hwords
  refine ⟨⟨ins.op.code, ins.flags, UInt8.ofNat ins.operands.length, words, length⟩, ?_, ?_⟩
  · rw [Instruction.lower, hws]
  · refine ⟨rfl, rfl, ?_, hmap⟩
    exact UInt8.toNat_ofNat_of_lt' (hlength.trans_lt (by decide))

/-- Instructions that all have a record are written as their records. -/
theorem Image.records_ok {instructions : List Instruction}
    (h : ∀ ins ∈ instructions, ∃ r, ins.lower = .ok r ∧ r.Holds ins) :
    ∃ rs, Image.records instructions = .ok (rs.flatMap Record.toBytes) ∧
      List.Forall₂ (fun r ins => ins.lower = .ok r ∧ r.Holds ins) rs instructions := by
  induction instructions with
  | nil => exact ⟨[], rfl, .nil⟩
  | cons ins rest ih =>
    obtain ⟨r, hlower, hholds⟩ := h ins (by simp)
    obtain ⟨rs, hrecords, hall⟩ := ih fun other hother => h other (by simp [hother])
    refine ⟨r :: rs, ?_, .cons ⟨hlower, hholds⟩ hall⟩
    rw [Image.records, hlower, hrecords, List.flatMap_cons]

/-! ## The header -/

namespace Image

/-- The largest number in a field of 32 bits. -/
def limit : Nat := 2 ^ 32 - 1

theorem field32_of_le {field : String} {value : Nat} (h : value ≤ limit) :
    field32 field value = .ok (LittleEndian.toBytes 4 value) :=
  if_neg (Nat.not_lt.mpr h)

theorem field32_of_lt {field : String} {value : Nat} (h : limit < value) :
    field32 field value = .error (.format (.fieldTooLarge field value)) :=
  if_pos h

/-- The entry of a section in the section table, as it should be read. -/
def TableEntry.ofLayout (layout : Layout) (entry : Option UInt64) (home : Section) : TableEntry :=
  { code := home.code
    flags := 0
    entry := if home = .text then (entry.getD 0).toNat else 0
    reserved := 0
    size := layout.sizes.get home
    start := layout.starts.get home
    padding := 0 }

/-- An image with the given sections, as it should be read. -/
def View.ofLayout (layout : Layout) (entry : Option UInt64) (payload : PerSection (List UInt8)) :
    View :=
  { code := 0x5654
    flags := if entry.isSome then 1 else 0
    textIndex := Section.text.index
    dataSize := layout.sizes.data
    stringSize := layout.sizes.string
    table :=
      { data := .ofLayout layout entry .data
        text := .ofLayout layout entry .text
        string := .ofLayout layout entry .string }
    payload
    rest := [] }

/-- The size and the start of a section fit their fields. -/
def Fits (layout : Layout) (home : Section) : Prop :=
  layout.sizes.get home ≤ limit ∧ layout.starts.get home ≤ limit

variable {layout : Layout} {home : Section} (entry : Option UInt64)

/-- An entry whose numbers fit is written, and read back. -/
theorem tableEntry_ok (h : Fits layout home) :
    ∃ bytes, tableEntry layout entry home = .ok bytes ∧ bytes.length = entrySize ∧
      ∀ rest, TableEntry.read (bytes ++ rest) = (.ofLayout layout entry home, rest) := by
  obtain ⟨hsize, hstart⟩ := h
  refine ⟨_, by rw [tableEntry, field32_of_le hsize, field32_of_le hstart], ?_, ?_⟩
  · simp [entrySize]
  · intro rest
    have hcode : home.code < 256 ^ 2 := by cases home <;> decide
    have hentry : (if home = .text then (entry.getD 0).toNat else 0) < 256 ^ 8 := by
      split
      · exact (entry.getD 0).toNat_lt
      · decide
    have hsize' : layout.sizes.get home < 256 ^ 4 := Nat.lt_succ_of_le hsize
    have hstart' : layout.starts.get home < 256 ^ 4 := Nat.lt_succ_of_le hstart
    simp only [TableEntry.read, List.append_assoc, number_toBytes hcode, number_toBytes hentry,
      number_toBytes hsize', number_toBytes hstart',
      number_toBytes (show 0 < 256 ^ 2 by decide), number_toBytes (show 0 < 256 ^ 4 by decide),
      number_toBytes (show 0 < 256 ^ 8 by decide)]
    rfl

/-- An entry with a number that does not fit is refused. -/
theorem tableEntry_error (h : ¬ Fits layout home) :
    ∃ fault, tableEntry layout entry home = .error (.format fault) := by
  rcases le_or_gt (layout.sizes.get home) limit with hsize | hsize
  · rcases le_or_gt (layout.starts.get home) limit with hstart | hstart
    · exact absurd ⟨hsize, hstart⟩ h
    · exact ⟨_, by rw [tableEntry, field32_of_le hsize, field32_of_lt hstart]⟩
  · exact ⟨_, by rw [tableEntry, field32_of_lt hsize]⟩

/-- A table with an entry that does not fit is refused. -/
theorem table_error {homes : List Section} (h : ∃ home ∈ homes, ¬ Fits layout home) :
    ∃ fault, table layout entry homes = .error (.format fault) := by
  induction homes with
  | nil => simp at h
  | cons home rest ih =>
    by_cases hfits : Fits layout home
    · obtain ⟨bytes, hbytes, -⟩ := tableEntry_ok entry hfits
      obtain ⟨other, hother, hnot⟩ := h
      rcases List.mem_cons.mp hother with rfl | hother
      · exact absurd hfits hnot
      · obtain ⟨fault, hfault⟩ := ih ⟨other, hother, hnot⟩
        exact ⟨fault, by rw [table, hbytes, hfault]⟩
    · obtain ⟨fault, hfault⟩ := tableEntry_error entry hfits
      exact ⟨fault, by rw [table, hfault]⟩

/-- A header with any bytes behind it, as it should be read: the sections are cut off at the sizes
that the header states. -/
def View.behind (layout : Layout) (entry : Option UInt64) (bytes : List UInt8) : View :=
  { View.ofLayout layout entry
      { data := bytes.take layout.sizes.data
        text := (bytes.drop layout.sizes.data).take layout.sizes.text
        string :=
          (bytes.drop (layout.sizes.data + layout.sizes.text)).take layout.sizes.string } with
    rest := bytes.drop (layout.sizes.data + layout.sizes.text + layout.sizes.string) }

/-- The header of sections that fit is written, and read back whatever stands behind it. -/
theorem header_read (h : ∀ home, Fits layout home) :
    ∃ block, header layout entry = .ok block ∧ block.length = headerSize + 3 * entrySize ∧
      ∀ bytes, View.read (block ++ bytes) = .behind layout entry bytes := by
  obtain ⟨data, hdata, hdataLength, hreadData⟩ := tableEntry_ok entry (h .data)
  obtain ⟨text, htext, htextLength, hreadText⟩ := tableEntry_ok entry (h .text)
  obtain ⟨string, hstring, hstringLength, hreadString⟩ := tableEntry_ok entry (h .string)
  have htable : table layout entry Section.all = .ok (data ++ (text ++ (string ++ []))) := by
    simp only [Section.all, table, hdata, htext, hstring]
  have hcode : "TV".toUTF8.data.toList = LittleEndian.toBytes 2 0x5654 := by decide +kernel
  have hsize : layout.sizes.data ≤ limit := (h .data).1
  refine ⟨_, by rw [header, field32_of_le hsize, htable], ?_, ?_⟩
  · simp only [hcode, List.length_append, LittleEndian.length_toBytes, List.length_cons,
      List.length_nil, hdataLength, htextLength, hstringLength, headerSize]
    omega
  · intro bytes
    have hdataSize : layout.sizes.data < 256 ^ 4 := Nat.lt_succ_of_le hsize
    have hstringSize : layout.sizes.string < 256 ^ 8 :=
      (Nat.lt_succ_of_le (h .string).1).trans_le (by decide)
    simp only [View.read, hcode, List.append_assoc, List.cons_append, List.nil_append, number_one,
      number_toBytes (show 0x5654 < 256 ^ 2 by decide), number_toBytes hdataSize,
      number_toBytes hstringSize, hreadData, hreadText, hreadString]
    cases entry <;> rfl

/-- The header of sections that fit is written, and read back with the sections behind it. -/
theorem header_ok (h : ∀ home, Fits layout home) :
    ∃ block, header layout entry = .ok block ∧ block.length = headerSize + 3 * entrySize ∧
      ∀ payload : PerSection (List UInt8),
        (∀ home, (payload.get home).length = layout.sizes.get home) →
        View.read (block ++ (payload.data ++ (payload.text ++ payload.string))) =
          .ofLayout layout entry payload := by
  obtain ⟨block, hblock, hlength, hread⟩ := header_read entry h
  refine ⟨block, hblock, hlength, ?_⟩
  intro payload hsizes
  have hdata : payload.data.length = layout.sizes.data := hsizes .data
  have htext : payload.text.length = layout.sizes.text := hsizes .text
  have hstring : payload.string.length = layout.sizes.string := hsizes .string
  -- behind the table, each section is cut off at its size
  rw [hread, View.behind]
  simp only [← List.drop_drop, List.drop_left' hdata, List.take_left' hdata,
    List.drop_left' htext, List.take_left' htext, ← hstring, List.take_length, List.drop_length]
  rfl

/-- The header of sections that do not all fit is refused. -/
theorem header_error (h : ∃ home, ¬ Fits layout home) :
    ∃ fault, header layout entry = .error (.format fault) := by
  obtain ⟨home, hnot⟩ := h
  obtain ⟨fault, hfault⟩ := table_error entry
    (⟨home, by cases home <;> decide, hnot⟩ : ∃ home ∈ Section.all, ¬ Fits layout home)
  rcases le_or_gt layout.sizes.data limit with hsize | hsize
  · exact ⟨fault, by rw [header, field32_of_le hsize, hfault]⟩
  · exact ⟨_, by rw [header, field32_of_lt hsize]⟩

/-- Only sections that all fit have a header. -/
theorem fits_of_header {entry : Option UInt64} {block : List UInt8}
    (h : header layout entry = .ok block) : ∀ home, Fits layout home := by
  -- sections of which one does not fit have none
  by_contra hnot
  obtain ⟨fault, hfault⟩ := header_error entry (not_forall.mp hnot)
  rw [hfault] at h
  cases h

/-- Every header has the same size. -/
theorem length_of_header {entry : Option UInt64} {block : List UInt8}
    (h : header layout entry = .ok block) : block.length = headerSize + 3 * entrySize := by
  obtain ⟨block', hblock', hlength, -⟩ := header_ok entry (fits_of_header h)
  rw [hblock'] at h
  cases h
  exact hlength

/-- Sections that lie one behind the other fit exactly when the last one starts and ends in time. -/
theorem fits_ofSizes_iff (sizes : PerSection Nat) :
    (∀ home, Fits (.ofSizes sizes) home) ↔
      sizes.data + sizes.text ≤ limit ∧ sizes.string ≤ limit := by
  constructor
  · intro h
    exact ⟨(h .string).2, (h .string).1⟩
  · rintro ⟨hstart, hsize⟩ (_ | _ | _)
    · exact ⟨(Nat.le_add_right _ _).trans hstart, Nat.zero_le _⟩
    · exact ⟨(Nat.le_add_left _ _).trans hstart, (Nat.le_add_right _ _).trans hstart⟩
    · exact ⟨hsize, hstart⟩

end Image

/-! ## Outputs -/

namespace OutputDevice

variable {δ : Type} [OutputDevice δ] {device : δ}

/-- An output after blocks have been offered to it. -/
def after (device : δ) (blocks : List (List UInt8)) : δ :=
  blocks.foldl (fun device block => (write device block).2) device

/-- An output that takes every block whole and can always be flushed, whatever it has taken. -/
def NeverFails (device : δ) : Prop :=
  ∀ blocks, (∀ block, (write (after device blocks) block).1 = .whole) ∧
    (flush (after device blocks)).1 = none

theorem NeverFails.write (h : NeverFails device) (block : List UInt8) :
    NeverFails (OutputDevice.write device block).2 :=
  fun blocks => h (block :: blocks)

/-- An output without limit that can be flushed never fails. -/
theorem neverFails_of_unlimited {device : BoundedDevice} (hroom : device.room = none)
    (hflush : device.flushFault = none) : NeverFails device := by
  have hwrite : ∀ block, OutputDevice.write device block = (.whole, device) := by
    intro block
    simp only [OutputDevice.write, hroom]
  intro blocks
  have hafter : after device blocks = device := by
    induction blocks with
    | nil => rfl
    | cons block rest ih => rw [after, List.foldl_cons, hwrite]; exact ih
  rw [hafter]
  exact ⟨fun block => by rw [hwrite], hflush⟩

end OutputDevice

namespace Writer

variable {δ : Type} [OutputDevice δ] {w w' : Writer δ} {p : Program} {layout : Layout}

/-- A block that was written stands behind what was there. -/
theorem emit_ok {block : List UInt8} (h : w.emit block = (.ok (), w')) :
    w'.output = w.output ++ block := by
  rw [emit] at h
  split at h
  · cases h
    rfl
  · cases h

/-- An output that never fails takes a block. -/
theorem emit_of_neverFails (hw : OutputDevice.NeverFails w.device) (block : List UInt8) :
    ∃ w', w.emit block = (.ok (), w') ∧ OutputDevice.NeverFails w'.device := by
  have hwhole := (hw []).1 block
  have hnext := hw.write block
  rw [emit]
  split
  next device heq =>
    rw [heq] at hnext
    exact ⟨_, rfl, hnext⟩
  next taken cause device heq =>
    change (OutputDevice.write w.device block).1 = .whole at hwhole
    rw [heq] at hwhole
    cases hwhole

/-- Sections that were written stand one behind the other. -/
theorem emitSections_ok {bytes : Section → List UInt8} {homes : List Section}
    (hbytes : ∀ home ∈ homes, Image.sectionBytes p layout home = .ok (bytes home))
    (h : w.emitSections p layout homes = (.ok (), w')) :
    w'.output = w.output ++ homes.flatMap bytes := by
  induction homes generalizing w with
  | nil =>
    cases h
    simp
  | cons home rest ih =>
    rw [emitSections, hbytes home (by simp)] at h
    dsimp only at h
    rcases hemit : w.emit (bytes home) with ⟨e | ⟨⟩, next⟩
    · rw [hemit] at h
      cases h
    · rw [hemit] at h
      rw [ih (fun other hother => hbytes other (by simp [hother])) h, emit_ok hemit,
        List.flatMap_cons, List.append_assoc]

/-- An output that never fails takes sections that have bytes. -/
theorem emitSections_of_neverFails {bytes : Section → List UInt8} (homes : List Section)
    (hbytes : ∀ home ∈ homes, Image.sectionBytes p layout home = .ok (bytes home))
    (hw : OutputDevice.NeverFails w.device) :
    ∃ w', w.emitSections p layout homes = (.ok (), w') ∧ OutputDevice.NeverFails w'.device := by
  induction homes generalizing w with
  | nil => exact ⟨w, rfl, hw⟩
  | cons home rest ih =>
    obtain ⟨next, hemit, hnext⟩ := emit_of_neverFails hw (bytes home)
    obtain ⟨w', hrest, hw'⟩ := ih (fun other hother => hbytes other (by simp [hother])) hnext
    refine ⟨w', ?_, hw'⟩
    rw [emitSections, hbytes home (by simp)]
    dsimp only
    rw [hemit]
    exact hrest

/-- A header that was written stands in the output, and sections may follow. -/
theorem writeHeader_ok (hlayout : p.layout = some layout) (h : w.writeHeader p = (.ok (), w')) :
    ∃ block, Image.header layout p.entry? = .ok block ∧ w'.output = w.output ++ block ∧
      w'.stage = .header := by
  rw [writeHeader, hlayout] at h
  dsimp only at h
  split at h
  · cases h
  rcases hblock : Image.header layout p.entry? with e | block
  · rw [hblock] at h
    cases h
  · rw [hblock] at h
    dsimp only at h
    rcases hemit : w.emit block with ⟨e | ⟨⟩, next⟩
    · rw [hemit] at h
      cases h
    · rw [hemit] at h
      have houtput := emit_ok hemit
      cases h
      exact ⟨block, rfl, houtput, rfl⟩

/-- Sections that were written stand behind what was there. -/
theorem writeSections_ok {bytes : Section → List UInt8} {log : List LogRecord}
    (hlayout : p.layout = some layout)
    (hbytes : ∀ home, Image.sectionBytes p layout home = .ok (bytes home))
    (h : w.writeSections p = (.ok (), w', log)) :
    w'.output = w.output ++ Section.all.flatMap bytes := by
  rw [writeSections] at h
  split at h
  · cases h
  · cases h
  · rw [hlayout] at h
    dsimp only at h
    rcases hemit : w.emitSections p layout Section.all with ⟨e | ⟨⟩, next⟩
    · rw [hemit] at h
      cases h
    · rw [hemit] at h
      dsimp only at h
      rw [← emitSections_ok (fun home _ => hbytes home) hemit]
      split at h
      · cases h
      · cases h
        rfl

/-- An output that never fails takes the header of a program whose header exists. -/
theorem writeHeader_of_neverFails {block : List UInt8} (hstage : w.stage = .empty)
    (hlayout : p.layout = some layout) (hblock : Image.header layout p.entry? = .ok block)
    (hw : OutputDevice.NeverFails w.device) :
    ∃ w', w.writeHeader p = (.ok (), w') ∧ w'.stage = .header ∧
      OutputDevice.NeverFails w'.device := by
  obtain ⟨next, hemit, hnext⟩ := emit_of_neverFails hw block
  refine ⟨{ next with stage := .header }, ?_, rfl, hnext⟩
  rw [writeHeader, if_neg (not_not.mpr hstage), hlayout]
  dsimp only
  rw [hblock]
  dsimp only
  rw [hemit]

/-- Nothing is written of a program whose header does not exist. -/
theorem writeHeader_of_error {e : Error} (hstage : w.stage = .empty)
    (hlayout : p.layout = some layout) (hblock : Image.header layout p.entry? = .error e) :
    w.writeHeader p = (.error e, w) := by
  rw [writeHeader, if_neg (not_not.mpr hstage), hlayout]
  dsimp only
  rw [hblock]

/-- An output that never fails takes the sections of a program whose sections have bytes. -/
theorem writeSections_of_neverFails {bytes : Section → List UInt8} (hstage : w.stage = .header)
    (hlayout : p.layout = some layout)
    (hbytes : ∀ home, Image.sectionBytes p layout home = .ok (bytes home))
    (hw : OutputDevice.NeverFails w.device) :
    ∃ w' log, w.writeSections p = (.ok (), w', log) := by
  obtain ⟨next, hemit, hnext⟩ := emitSections_of_neverFails Section.all
    (fun home _ => hbytes home) hw
  have hflush := (hnext []).2
  rw [writeSections, hstage, hlayout]
  dsimp only
  rw [hemit]
  dsimp only
  split
  next cause device heq =>
    change (OutputDevice.flush next.device).1 = none at hflush
    rw [heq] at hflush
    cases hflush
  · exact ⟨_, _, rfl⟩

end Writer

/-! ## Programs that can be written -/

namespace Program

variable {p : Program}

/-- A program that can be written: it is well formed and laid out, and every operand has a word. -/
structure Finished (p : Program) : Prop where
  /-- The contents are in order, and the sections have their sizes. -/
  wellFormed : p.WellFormed
  /-- The sections lie one behind the other. -/
  layout : p.layout = some (.ofSizes p.sizes)
  /-- No operand waits for the linker. -/
  words : ∀ ins ∈ p.instructions, ∀ operand ∈ ins.operands, operand.word?.isSome

/-- A program that was resolved can be written. -/
theorem finished_resolve {σ : Type} [SymbolProvider σ] {modules : List String} {provider : σ}
    (hp : p.WellFormed) (h : (p.resolve modules provider).outcome = .ok ()) :
    (p.resolve modules provider).program.Finished := by
  obtain ⟨hprogram, hfound, -⟩ := resolve_ok h
  have hsizes : (p.resolve modules provider).program.contents.sizes = p.contents.sizes := by
    rw [hprogram]
    simp [contents, SourceUnit.sizes]
  refine ⟨⟨⟨?_, ?_, ?_, ?_, ?_⟩, ?_⟩, ?_, ?_⟩
  · rw [hsizes, hprogram]
    exact hp.contents.data_filled
  · rw [hprogram]
    exact hp.contents.data_home
  · rw [hprogram]
    exact hp.contents.data_label
  · rw [hsizes, hprogram]
    exact hp.contents.label_le
  · rw [hprogram]
    intro ins hmem
    obtain ⟨old, hold, rfl⟩ := List.mem_map.mp hmem
    exact (List.length_map ..).trans (hp.contents.arity old hold)
  · rw [hsizes, hprogram]
    exact hp.sizes
  · rw [hprogram]
  · rw [hprogram]
    intro ins hmem operand hoperand
    obtain ⟨old, hold, rfl⟩ := List.mem_map.mp hmem
    obtain ⟨source, hsource, rfl⟩ := List.mem_map.mp hoperand
    cases source with
    | label name =>
      -- the only operand without a word of its own
      obtain ⟨value, hvalue⟩ := hfound old hold name hsource
      simp only [Operand.bound, hvalue]
      rfl
    | register | literal | address => rfl

/-- The bytes of the sections, with these records in the text section. -/
def sectionContents (p : Program) (records : List Record) : PerSection (List UInt8) :=
  { data := p.payload .data
    text := records.flatMap Record.toBytes
    string := p.payload .string }

/-- The image of a program: the header with its table, and behind it the data, the records of the
instructions and the strings. -/
def HasImage (p : Program) (image : List UInt8) : Prop :=
  ∃ block records, Image.header (.ofSizes p.sizes) p.entry? = .ok block ∧
    List.Forall₂ (fun r ins => ins.lower = .ok r ∧ r.Holds ins) records p.instructions ∧
    image = block ++ (p.payload .data ++ (records.flatMap Record.toBytes ++ p.payload .string))

namespace Finished

/-- Every instruction has a record that holds what it says. -/
theorem records_ok (h : p.Finished) :
    ∃ records, Image.records p.instructions = .ok (records.flatMap Record.toBytes) ∧
      List.Forall₂ (fun r ins => ins.lower = .ok r ∧ r.Holds ins) records p.instructions := by
  apply Image.records_ok
  intro ins hins
  refine Instruction.lower_ok ?_ (h.words ins hins)
  rw [h.wellFormed.contents.arity ins hins]
  exact ins.op.length_slots_le

variable {records : List Record}

/-- Every section has the recorded size. -/
theorem length_sectionContents (h : p.Finished) (hlength : records.length = p.instructions.length)
    (home : Section) : ((p.sectionContents records).get home).length = p.sizes.get home := by
  cases home with
  | text =>
    rw [h.wellFormed.sizes]
    exact (Record.length_flatMap_toBytes records).trans (congrArg _ hlength)
  | data => exact h.wellFormed.length_payload (by decide)
  | string => exact h.wellFormed.length_payload (by decide)

/-- The bytes of every section exist. -/
theorem sectionBytes_eq (h : p.Finished)
    (hrecords : Image.records p.instructions = .ok (records.flatMap Record.toBytes))
    (hlength : records.length = p.instructions.length) (home : Section) :
    Image.sectionBytes p (.ofSizes p.sizes) home = .ok ((p.sectionContents records).get home) := by
  have hsize := h.length_sectionContents hlength home
  have hbytes : (if home = .text then Image.records p.instructions else .ok (p.payload home)) =
      .ok ((p.sectionContents records).get home) := by
    cases home with
    | text => exact hrecords
    | data | string => rfl
  rw [Image.sectionBytes, hbytes]
  exact if_pos hsize

/-- What an empty output holds when the header and the sections have been written is the image. -/
theorem hasImage {δ : Type} [OutputDevice δ] {fresh w w' : Writer δ} {log : List LogRecord}
    (h : p.Finished) (hfresh : fresh.output = []) (hheader : fresh.writeHeader p = (.ok (), w))
    (hsections : w.writeSections p = (.ok (), w', log)) : p.HasImage w'.output := by
  obtain ⟨records, hrecords, hall⟩ := h.records_ok
  obtain ⟨block, hblock, houtput, -⟩ := Writer.writeHeader_ok h.layout hheader
  refine ⟨block, records, hblock, hall, ?_⟩
  rw [Writer.writeSections_ok h.layout (h.sectionBytes_eq hrecords hall.length_eq) hsections,
    houtput, hfresh]
  simp [Section.all, PerSection.get, sectionContents]

theorem length_of_hasImage {image : List UInt8} (h : p.Finished) (himage : p.HasImage image) :
    image.length = 112 + (p.sizes.data + p.sizes.text + p.sizes.string) := by
  obtain ⟨block, records, hblock, hall, rfl⟩ := himage
  have hsizes := h.length_sectionContents hall.length_eq
  have hdata : (p.payload .data).length = p.sizes.data := hsizes .data
  have htext : (records.flatMap Record.toBytes).length = p.sizes.text := hsizes .text
  have hstring : (p.payload .string).length = p.sizes.string := hsizes .string
  rw [List.length_append, List.length_append, List.length_append, Image.length_of_header hblock,
    hdata, htext, hstring, ← Nat.add_assoc p.sizes.data]
  rfl

/-- Reading the image of a program gives back its layout, its entry, its data and its strings, and
for each instruction a record that holds it. -/
theorem read_of_hasImage {image : List UInt8} (h : p.Finished) (himage : p.HasImage image) :
    ∃ text,
      Image.View.read image = .ofLayout (.ofSizes p.sizes) p.entry?
        { data := p.payload .data, text, string := p.payload .string } ∧
      List.Forall₂ Record.Holds (Record.readAll p.instructions.length text) p.instructions := by
  obtain ⟨block, records, hblock, hall, rfl⟩ := himage
  obtain ⟨block', hblock', -, hread⟩ := Image.header_ok p.entry? (Image.fits_of_header hblock)
  obtain rfl : block = block' := Except.ok.inj (hblock.symm.trans hblock')
  have hsizes := h.length_sectionContents hall.length_eq
  refine ⟨records.flatMap Record.toBytes, hread (p.sectionContents records) hsizes, ?_⟩
  -- the text section is cut into records again
  have hrecords := Record.readAll_flatMap records []
  rw [List.append_nil, hall.length_eq] at hrecords
  rw [hrecords]
  exact hall.imp fun _ _ hr => hr.2

end Finished

end Program

end AsmLinker
