import Mathlib
import AsmLinker.Proofs.Image.Writing

/-!
# What an address in an image points to

Each section of an image stands at its start behind the header, each record of the text section at
its place in it, and each operand word at its place in the record. So the word of a label operand is
an address under which the image holds what the label stands for.
-/

namespace AsmLinker

/-! ## Places in bytes -/

/-- Bytes inside a part are found in the whole. -/
theorem take_drop_append {bytes : List UInt8} {offset length : Nat} (rest : List UInt8)
    (h : ((bytes.drop offset).take length).length = length) :
    ((bytes ++ rest).drop offset).take length = (bytes.drop offset).take length := by
  have hle : length ≤ (bytes.drop offset).length := by
    rw [List.length_take] at h
    exact h ▸ Nat.min_le_right _ _
  rw [List.drop_append, List.take_append_of_le_length hle]

namespace Record

/-- A record stands at its place. -/
theorem drop_flatMap {records : List Record} {i : Nat} {r : Record} (h : records[i]? = some r) :
    (records.flatMap toBytes).drop (size * i) =
      r.toBytes ++ (records.drop (i + 1)).flatMap toBytes := by
  obtain ⟨hlt, rfl⟩ := List.getElem?_eq_some_iff.mp h
  have hsplit : records = records.take i ++ records[i] :: records.drop (i + 1) := by
    rw [List.getElem_cons_drop, List.take_append_drop]
  have hlength : ((records.take i).flatMap toBytes).length = size * i := by
    rw [length_flatMap_toBytes, List.length_take, min_eq_left hlt.le]
  calc (records.flatMap toBytes).drop (size * i)
      = ((records.take i ++ records[i] :: records.drop (i + 1)).flatMap toBytes).drop
          (size * i) := by
        rw [← hsplit]
    _ = records[i].toBytes ++ (records.drop (i + 1)).flatMap toBytes := by
        rw [List.flatMap_append, List.flatMap_cons, List.drop_left' hlength]

/-- An operand word is found at its place in a record. -/
theorem number_word_at {r : Record} {j : Nat} {w : UInt64} (h : r.words[j]? = some w)
    (rest : List UInt8) : (Image.number 8 ((r.toBytes ++ rest).drop (8 + 8 * j))).1 = w.toNat := by
  obtain ⟨first, second, third, hwords, hbytes⟩ := r.exists_words
  have hword : ∀ v : UInt64, (Word.bytes v).length = 8 := fun v =>
    LittleEndian.length_toBytes 8 v.toNat
  rw [hwords] at h
  rw [hbytes, List.append_assoc, ← List.drop_drop, List.drop_left' (by simp), List.append_assoc,
    List.append_assoc]
  rcases j with _ | _ | _ | j
  · cases h
    rw [Nat.mul_zero, List.drop_zero, number_word]
  · cases h
    rw [List.drop_left' (hword first), number_word]
  · cases h
    rw [show 8 * 2 = 8 + 8 from rfl, ← List.drop_drop, List.drop_left' (hword first),
      List.drop_left' (hword second), number_word]
  · cases h

/-- The word of a bound operand stands among the words of a record that holds the instruction. -/
theorem Holds.words_get {r : Record} {ins : Instruction} {j : Nat} {operand : Operand} {w : UInt64}
    (h : r.Holds ins) (hoperand : ins.operands[j]? = some operand) (hw : operand.word? = some w) :
    r.words[j]? = some w := by
  have hj : j < (ins.operands.map Operand.word?).length := by
    rw [List.length_map]
    exact (List.getElem?_eq_some_iff.mp hoperand).1
  have hget : (r.words.map some)[j]? = some (some w) := by
    rw [h.words, List.getElem?_append_left hj, List.getElem?_map, hoperand, Option.map_some, hw]
  simpa using hget

end Record

/-! ## Places in an image -/

namespace Program

variable {p : Program} {records : List Record} {output : List UInt8}

/-- The output is an image of the program: its sections stand at their starts behind the header, and
these records in the text section. -/
structure Written (p : Program) (records : List Record) (output : List UInt8) : Prop where
  /-- The records are those of the instructions. -/
  lowered : List.Forall₂ (fun r ins => ins.lower = .ok r ∧ r.Holds ins) records p.instructions
  /-- The sections fit the format. -/
  fits : ∀ home, Image.Fits (.ofSizes p.sizes) home
  /-- Each section stands at its start. -/
  section_at : ∀ home, ∃ rest,
    output.drop (112 + (Layout.ofSizes p.sizes).starts.get home) =
      (p.sectionContents records).get home ++ rest

/-- What was written of a finished program is an image of it. -/
theorem Finished.written {δ : Type} [OutputDevice δ] {fresh w w' : Writer δ} {log : List LogRecord}
    (h : p.Finished) (hfresh : fresh.output = []) (hheader : fresh.writeHeader p = (.ok (), w))
    (hsections : w.writeSections p = (.ok (), w', log)) :
    ∃ records, p.Written records w'.output := by
  obtain ⟨block, records, hblock, hall, houtput⟩ := h.hasImage hfresh hheader hsections
  have hblockLength : block.length = 112 := Image.length_of_header hblock
  have hdata : (p.payload .data).length = p.sizes.data :=
    h.length_sectionContents hall.length_eq .data
  have htext : (records.flatMap Record.toBytes).length = p.sizes.text :=
    h.length_sectionContents hall.length_eq .text
  refine ⟨records, hall, Image.fits_of_header hblock, ?_⟩
  intro home
  rw [houtput, ← List.drop_drop, List.drop_left' hblockLength]
  cases home with
  | data => exact ⟨_, rfl⟩
  | text => exact ⟨p.payload .string, List.drop_left' hdata⟩
  | string =>
    refine ⟨[], ?_⟩
    change List.drop (p.sizes.data + p.sizes.text) _ = p.payload .string ++ []
    rw [← List.drop_drop, List.drop_left' hdata, List.drop_left' htext, List.append_nil]

namespace Written

/-- The record of an instruction stands at its place. -/
theorem record_at (h : p.Written records output) {i : Nat} {ins : Instruction}
    (hins : p.instructions[i]? = some ins) :
    ∃ r rest, ins.lower = .ok r ∧ r.Holds ins ∧
      output.drop (112 + (p.sizes.data + Record.size * i)) = r.toBytes ++ rest := by
  obtain ⟨rest, hrest⟩ := h.section_at .text
  have hi : i < records.length := by
    rw [h.lowered.length_eq]
    exact (List.getElem?_eq_some_iff.mp hins).1
  have hrecord : records[i]? = some records[i] := List.getElem?_eq_getElem hi
  obtain ⟨hlower, hholds⟩ : ins.lower = .ok records[i] ∧ records[i].Holds ins := by
    have hget := h.lowered.get hi (by rwa [← h.lowered.length_eq])
    obtain ⟨_, rfl⟩ := List.getElem?_eq_some_iff.mp hins
    exact hget
  refine ⟨records[i], (records.drop (i + 1)).flatMap Record.toBytes ++
    rest.drop (Record.size * i - (records.flatMap Record.toBytes).length), hlower, hholds, ?_⟩
  calc output.drop (112 + (p.sizes.data + Record.size * i))
      = (output.drop (112 + (Layout.ofSizes p.sizes).starts.get .text)).drop (Record.size * i) := by
        rw [← Nat.add_assoc, ← List.drop_drop]
        rfl
    _ = (records.flatMap Record.toBytes ++ rest).drop (Record.size * i) := by
        rw [hrest]
        rfl
    _ = _ := by
        rw [List.drop_append, Record.drop_flatMap hrecord, List.append_assoc]

/-- Bytes of a section stand at their place in the section. -/
theorem bytes_at (h : p.Written records output) (home : Section) {offset length : Nat}
    (hlength : ((((p.sectionContents records).get home).drop offset).take length).length =
      length) :
    (output.drop (112 + ((Layout.ofSizes p.sizes).starts.get home + offset))).take length =
      (((p.sectionContents records).get home).drop offset).take length := by
  obtain ⟨rest, hrest⟩ := h.section_at home
  rw [← Nat.add_assoc, ← List.drop_drop, hrest]
  exact take_drop_append rest hlength

/-- An address in a program that was written is not cut off. -/
theorem toNat_address (h : p.Written records output) (hp : p.WellFormed) {name : String}
    {label : Label} (hlabel : p.labels.get? name = some label) :
    ((Layout.ofSizes p.sizes).address label).toNat =
      (Layout.ofSizes p.sizes).starts.get label.home + label.offset := by
  have hle := hp.contents.label_le name label hlabel
  rw [← hp.sizes] at hle
  obtain ⟨hsize, hstart⟩ := h.fits label.home
  apply UInt64.toNat_ofNat_of_lt'
  change p.sizes.get label.home ≤ Image.limit at hsize
  rw [Image.limit] at hsize hstart
  change _ < 2 ^ 64
  omega

/-- The bytes of data stand at the address of its label. -/
theorem declaration_at (h : p.Written records output) (hp : p.WellFormed) {name : String}
    {d : Declaration} {label : Label} (hd : p.data.get? name = some d)
    (hlabel : p.labels.get? name = some label) :
    (output.drop (112 + ((Layout.ofSizes p.sizes).address label).toNat)).take d.length =
      d.payload := by
  obtain ⟨label', hlabel', hhome, hoffset⟩ := hp.contents.data_label name d hd
  obtain rfl : label = label' := Option.some.inj (hlabel.symm.trans hlabel')
  have hne := hp.contents.data_home name d hd
  have hcontents : (p.sectionContents records).get d.home = p.payload d.home := by
    rcases hsection : d.home with _ | _ | _
    · rfl
    · exact absurd hsection hne
    · rfl
  have hpayload := hp.payload_at hd
  rw [h.toNat_address hp hlabel, hhome, hoffset]
  rw [h.bytes_at d.home (by rw [hcontents, hpayload, d.length_payload]), hcontents, hpayload]

/-- The word of an operand stands at its place in the record of its instruction. -/
theorem word_at (h : p.Written records output) {i j : Nat} {ins : Instruction} {operand : Operand}
    {value : UInt64} (hins : p.instructions[i]? = some ins)
    (hoperand : ins.operands[j]? = some operand) (hvalue : operand.word? = some value) :
    (Image.number 8
      (output.drop (112 + (p.sizes.data + Record.size * i) + (8 + 8 * j)))).1 = value.toNat := by
  obtain ⟨r, rest, -, hholds, hrecord⟩ := h.record_at hins
  rw [← List.drop_drop, hrecord]
  exact Record.number_word_at (hholds.words_get hoperand hvalue) rest

end Written

end Program

/-! ## Addresses of references -/

namespace AssembledSource

/-- The number of instructions of sources. -/
def instructionCount (units : List AssembledSource) : Nat :=
  (units.map fun s => s.unit.instructions.length).sum

theorem length_instructions (units : List AssembledSource) :
    ((units.map unit).flatMap SourceUnit.instructions).length = instructionCount units := by
  rw [List.length_flatMap, List.map_map]
  rfl

end AssembledSource

/-- What stands in a part of a concatenation stands behind the parts before it. -/
theorem getElem?_flatMap_split {α β : Type} (f : α → List β) (before after : List α) {a : α}
    {i : Nat} {b : β} (h : (f a)[i]? = some b) :
    ((before ++ a :: after).flatMap f)[(before.flatMap f).length + i]? = some b := by
  have hi := (List.getElem?_eq_some_iff.mp h).1
  rw [List.flatMap_append, List.flatMap_cons,
    List.getElem?_append_right (Nat.le_add_right _ _), Nat.add_sub_cancel_left,
    List.getElem?_append_left hi, h]

namespace Program

variable {σ : Type} [SymbolProvider σ] {p : Program} {units before after : List AssembledSource}
  {s : AssembledSource} {modules : List String} {provider : σ}

/-- A program of sources, resolved. -/
structure Linked (units : List AssembledSource) (p : Program) (modules : List String)
    (provider : σ) : Prop where
  /-- The sources have been merged into an empty program. -/
  merged : ({} : Program).mergeAll (units.map AssembledSource.unit) = (.ok (), p)
  /-- The program can be resolved. -/
  resolved : (p.resolve modules provider).outcome = .ok ()

namespace Linked

omit [SymbolProvider σ] in
theorem wellFormed_units (units : List AssembledSource) :
    ∀ u ∈ units.map AssembledSource.unit, u.WellFormed := by
  intro u hu
  obtain ⟨source, -, rfl⟩ := List.mem_map.mp hu
  exact source.unit_assembled.wellFormed

theorem mergedAll (h : Linked units p modules provider) :
    MergedAll {} (units.map AssembledSource.unit) p :=
  mergedAll_of_mergeAll wellFormed_empty (wellFormed_units units) h.merged

/-- An instruction of a source stands behind those of the sources before it. -/
theorem instruction_at (h : Linked units p modules provider) (hunits : units = before ++ s :: after)
    {i : Nat} {ins : Instruction} (hins : s.unit.instructions[i]? = some ins) :
    p.instructions[AssembledSource.instructionCount before + i]? = some ins := by
  have hget := getElem?_flatMap_split SourceUnit.instructions (before.map AssembledSource.unit)
    (after.map AssembledSource.unit) hins
  rw [AssembledSource.length_instructions] at hget
  rw [h.mergedAll.instructions, hunits, List.map_append, List.map_cons]
  exact hget

/-- After resolving it stands there with its operands bound. -/
theorem bound_at (h : Linked units p modules provider) (hunits : units = before ++ s :: after)
    {i : Nat} {ins : Instruction} (hins : s.unit.instructions[i]? = some ins) :
    (p.resolve modules provider).program.instructions[
        AssembledSource.instructionCount before + i]? =
      some (ins.bound (p.lookup modules provider)) := by
  obtain ⟨hprogram, -⟩ := resolve_ok h.resolved
  rw [hprogram]
  change (p.instructions.map _)[_]? = _
  rw [List.getElem?_map, h.instruction_at hunits hins]
  rfl

/-- A label of a source has an address: that of its position behind the sources before it. -/
theorem lookup_of_label (h : Linked units p modules provider)
    (hunits : units = before ++ s :: after) {name : String} {label : Label}
    (hlabel : s.unit.labels.get? name = some label) :
    ∃ placed, p.labels.get? name = some placed ∧ placed.home = label.home ∧
      (label.home = .text →
        placed.offset = Record.size * AssembledSource.instructionCount before + label.offset) ∧
      p.lookup modules provider name = some ((Layout.ofSizes p.sizes).address placed) := by
  have hwell := wellFormed_units units
  have hmerged := h.merged
  rw [hunits, List.map_append, List.map_cons] at hwell hmerged
  obtain ⟨sizes, htext, hlabels, -⟩ := exists_base_of_mergeAll hwell hmerged
  rw [AssembledSource.length_instructions] at htext
  refine ⟨placeLabel sizes label, hlabels name label hlabel, rfl, ?_, ?_⟩
  · intro hhome
    change label.offset + sizes.get label.home = _
    rw [hhome, Nat.add_comm, ← htext]
    rfl
  · simp only [lookup, address?, hlabels name label hlabel]

/-- Data of a source is in the program, with the same bytes. -/
theorem data_of_declaration (h : Linked units p modules provider) (hs : s ∈ units) {name : String}
    {d : Declaration} (hd : s.unit.data.get? name = some d) :
    ∃ placed, p.data.get? name = some placed ∧ placed.length = d.length ∧
      placed.payload = d.payload := by
  obtain ⟨before, after, hunits⟩ := List.append_of_mem hs
  have hwell := wellFormed_units units
  have hmerged := h.merged
  rw [hunits, List.map_append, List.map_cons] at hwell hmerged
  obtain ⟨sizes, -, -, hdata⟩ := exists_base_of_mergeAll hwell hmerged
  exact ⟨placeData sizes d, hdata name d hd, rfl, rfl⟩

/-- A name that no source defines is not a label of the program. -/
theorem get?_eq_none (h : Linked units p modules provider) {name : String}
    (hname : ∀ other ∈ units, name ∉ other.unit.labels.keys) : p.labels.get? name = none := by
  rw [Table.get?_eq_none_iff, h.mergedAll.mem_labels]
  rintro (hmem | ⟨u, hu, hmem⟩)
  · simp [Table.keys_empty] at hmem
  · obtain ⟨other, hother, rfl⟩ := List.mem_map.mp hu
    exact hname other hother hmem

end Linked

/-- The word that an image holds for a label operand is an address `a` such that
* the bytes of the data that has the name stand at `a`;
* if the name is a text label, `a` is the start of the text section and one record for each
  instruction before the label, so that the record of the instruction behind the label stands there;
* if no source defines the name, `a` is the value in the first searched module that exports it. -/
theorem emitted_address {δ : Type} [OutputDevice δ] (device : δ) (file : String) {w w' : Writer δ}
    {log : List LogRecord}
    (hmerge : ({} : Program).mergeAll (units.map AssembledSource.unit) = (.ok (), p))
    (hresolve : (p.resolve modules provider).outcome = .ok ())
    (hheader : ({ device, name := file } : Writer δ).writeHeader
      (p.resolve modules provider).program = (.ok (), w))
    (hsections : w.writeSections (p.resolve modules provider).program = (.ok (), w', log))
    (hunits : units = before ++ s :: after) {i j : Nat} {ins : Instruction} {name : String}
    (hins : s.unit.instructions[i]? = some ins) (hoperand : ins.operands[j]? = some (.label name)) :
    let linked := p.resolve modules provider
    let layout := Layout.ofSizes p.sizes
    let count := AssembledSource.instructionCount
    linked.program.layout = some layout ∧
    ∃ a : UInt64,
      (Image.number 8 (w'.output.drop
        (112 + (layout.starts.text + 32 * (count before + i)) + (8 + 8 * j)))).1 = a.toNat ∧
      (∀ other ∈ units, ∀ d, other.unit.data.get? name = some d →
        (w'.output.drop (112 + a.toNat)).take d.length = d.payload) ∧
      (∀ earlier other later k, units = earlier ++ other :: later →
        TokenStream.DefinesAt other.answers name .text k →
        a.toNat = layout.starts.text + 32 * (count earlier + k) ∧
        ∀ next, other.unit.instructions[k]? = some next →
          ∃ r, (next.bound (p.lookup modules provider)).lower = .ok r ∧
            (w'.output.drop (112 + a.toNat)).take 32 = r.toBytes) ∧
      ((∀ other ∈ units, name ∉ other.unit.labels.keys) →
        ∃ earlier module later, searchList modules = earlier ++ module :: later ∧
          SymbolProvider.symbol? linked.provider module name = some a ∧
          ∀ other ∈ earlier, SymbolProvider.symbol? linked.provider other name = none) := by
  intro linked layout count
  have hlinked : Linked units p modules provider := ⟨hmerge, hresolve⟩
  have hfinished : linked.program.Finished := finished_resolve hlinked.mergedAll.wellFormed hresolve
  obtain ⟨records, hwritten⟩ := hfinished.written rfl hheader hsections
  obtain ⟨hprogram, hfound, -⟩ := resolve_ok hresolve
  have hsizes : (p.resolve modules provider).program.sizes = p.sizes := by rw [hprogram]
  have hlabels : (p.resolve modules provider).program.labels = p.labels := by rw [hprogram]
  have hdata : (p.resolve modules provider).program.data = p.data := by rw [hprogram]
  obtain ⟨a, ha⟩ : ∃ a, p.lookup modules provider name = some a :=
    hfound ins (List.mem_of_getElem? (hlinked.instruction_at hunits hins)) name
      (List.mem_of_getElem? hoperand)
  refine ⟨by rw [hfinished.layout, hsizes], a, ?_, ?_, ?_, ?_⟩
  · -- the operand is bound to `a`, and its word is read from its place in the record
    have hbound : (ins.bound (p.lookup modules provider)).operands[j]? = some (.address a) := by
      change (ins.operands.map _)[j]? = _
      rw [List.getElem?_map, hoperand, Option.map_some, Operand.bound, ha]
    have hword := hwritten.word_at (hlinked.bound_at hunits hins) hbound rfl
    rw [hsizes] at hword
    exact hword
  · -- data is found through the label that bears its name
    intro other hother d hd
    obtain ⟨placed, hplaced, hlength, hpayload⟩ := hlinked.data_of_declaration hother hd
    obtain ⟨label, hlabel, -⟩ :=
      hlinked.mergedAll.wellFormed.contents.data_label name placed hplaced
    change p.labels.get? name = some label at hlabel
    obtain rfl : layout.address label = a := by
      simpa only [lookup, address?, hlabel, Option.some.injEq] using ha
    have hbytes := hwritten.declaration_at hfinished.wellFormed (hdata ▸ hplaced) (hlabels ▸ hlabel)
    rw [hsizes, hlength, hpayload] at hbytes
    exact hbytes
  · -- the label lies behind the records of its source, and the source behind those before it
    intro earlier other later k hsplit hdefines
    obtain ⟨label, hlabel, hhome, hoffset⟩ := other.get?_of_definesAt hdefines
    obtain ⟨placed, hplaced, hplacedHome, hplacedOffset, hlookup⟩ :=
      hlinked.lookup_of_label hsplit hlabel
    obtain rfl : a = layout.address placed := Option.some.inj (ha.symm.trans hlookup)
    have haddress : (layout.address placed).toNat =
        layout.starts.text + 32 * (count earlier + k) := by
      have hnat := hwritten.toNat_address hfinished.wellFormed (hlabels ▸ hplaced)
      rw [hsizes, hplacedHome, hhome, hplacedOffset hhome, hoffset rfl, ← Nat.mul_add] at hnat
      exact hnat
    refine ⟨haddress, ?_⟩
    intro next hnext
    obtain ⟨r, rest, hlower, -, hrecord⟩ := hwritten.record_at (hlinked.bound_at hsplit hnext)
    refine ⟨r, hlower, ?_⟩
    rw [hsizes] at hrecord
    rw [haddress]
    change (w'.output.drop (112 + (p.sizes.data + Record.size * (count earlier + k)))).take 32 = _
    rw [hrecord]
    exact List.take_left' r.length_toBytes
  · -- without a label, looking the name up is searching the modules
    intro hundefined
    have hnone := hlinked.get?_eq_none hundefined
    have hexport : linked.program.dependencies.findSome?
        (fun module => SymbolProvider.symbol? linked.provider module name) = some a := by
      simpa only [lookup, address?, hnone] using ha
    obtain ⟨earlier, module, later, hsearch, -, hvalue, hfirst⟩ :=
      exists_first_export hresolve hexport
    exact ⟨earlier, module, later, hsearch, hvalue, hfirst⟩

/-- A call in the first of two sources, into the second: its word is the address of the second
record of the second source, behind 3 bytes of data and the four records of the first. -/
theorem emitted_address_of_call :
    let first := AssembledSource.ofText
      ".data\nmsg: .asciz \"hi\"\n.text\nmain: call f\njmp msg\ncall puts\nret" (by decide +kernel)
    let second := AssembledSource.ofText ".text\nret\nf: ret" (by decide +kernel)
    let library := ({} : MemoryModules).add "std" "puts" 4660
    let merged := ({} : Program).mergeAll [first.unit, second.unit]
    let linked := merged.2.resolve [] library
    let header := ({ device := {}, name := "image" } : Writer BoundedDevice).writeHeader
      linked.program
    let written := header.2.writeSections linked.program
    merged.1 = .ok () ∧ linked.outcome = .ok () ∧ header.1 = .ok () ∧ written.1 = .ok () ∧
      TokenStream.DefinesAt second.answers "f" .text 1 ∧
      (Image.number 8 (written.2.1.output.drop (112 + 3 + 8))).1 = 3 + 32 * (4 + 1) := by
  intro first second library merged linked header written
  have hmerged : merged.1 = .ok () := by decide +kernel
  have hlinked : linked.outcome = .ok () := by decide +kernel
  have hheader : header.1 = .ok () := by decide +kernel
  have hwritten : written.1 = .ok () := by decide +kernel
  have hdefines : TokenStream.DefinesAt second.answers "f" .text 1 := by
    refine ⟨second.answers.take 4, ⟨.label "f", false, 3⟩, second.answers.drop 5, ?_, rfl, ?_, ?_⟩
    · decide +kernel
    · decide +kernel
    · decide +kernel
  have hcall : first.unit.instructions[0]? =
      some { op := .call, flags := 18, operands := [.label "f"], label := "f", line := 4 } := by
    decide +kernel
  have hplace : 112 + (merged.2.sizes.data + 32 * (AssembledSource.instructionCount [] + 0)) +
      (8 + 8 * 0) = 112 + 3 + 8 := by
    decide +kernel
  have htarget : merged.2.sizes.data + 32 * (AssembledSource.instructionCount [first] + 1) =
      3 + 32 * (4 + 1) := by
    decide +kernel
  have hmerge : ({} : Program).mergeAll ([first, second].map AssembledSource.unit) =
      (.ok (), merged.2) := Prod.ext hmerged rfl
  have hblock : ({ device := {}, name := "image" } : Writer BoundedDevice).writeHeader
      linked.program = (.ok (), header.2) := Prod.ext hheader rfl
  have hsections : header.2.writeSections linked.program =
      (.ok (), written.2.1, written.2.2) := Prod.ext hwritten rfl
  have hunits : [first, second] = [] ++ first :: [second] := rfl
  obtain ⟨-, a, hword, -, hlabel, -⟩ := emitted_address ({} : BoundedDevice) "image" hmerge hlinked
    hblock hsections hunits hcall (j := 0) rfl
  have haddress := (hlabel [first] second [] 1 rfl hdefines).1
  refine ⟨hmerged, hlinked, hheader, hwritten, hdefines, ?_⟩
  rw [← hplace]
  exact hword.trans (haddress.trans htarget)

end Program

end AsmLinker
