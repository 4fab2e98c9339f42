import Mathlib
import AsmLinker.Proofs.Image.Writing

/-!
# Images are read back

A program of assembled units that was resolved is written if and only if its sections fit the
format, and reading the image gives back its layout, its entry, its data and its instructions.
-/

namespace AsmLinker.Program

variable {p : Program}

/-- The image of a program that was resolved, round trip. The header is written exactly when the
sections fit the fields of the format, and otherwise nothing is. The sections can then always be
written, and reading the image gives back the sizes and starts of the layout, the entry, the bytes
of the data in the order of its positions, and for each instruction a record that holds it. -/
theorem image_roundTrip {σ δ : Type} [SymbolProvider σ] [OutputDevice δ] {units : List SourceUnit}
    (modules : List String) (provider : σ) (device : δ) (name : String)
    (hunits : ∀ u ∈ units, u.Assembled) (hmerge : ({} : Program).mergeAll units = (.ok (), p))
    (hresolve : (p.resolve modules provider).outcome = .ok ())
    (hdevice : OutputDevice.NeverFails device) :
    let q := (p.resolve modules provider).program
    let fresh : Writer δ := { device, name }
    let fits := q.sizes.data + q.sizes.text ≤ 2 ^ 32 - 1 ∧ q.sizes.string ≤ 2 ^ 32 - 1
    ((fresh.writeHeader q).1 = .ok () ↔ fits) ∧
    (¬ fits → ∃ fault, fresh.writeHeader q = (.error (.format fault), fresh)) ∧
    ∀ w, fresh.writeHeader q = (.ok (), w) →
      ∃ w' log, w.writeSections q = (.ok (), w', log) ∧
        w'.output.length = 112 + (q.sizes.data + q.sizes.text + q.sizes.string) ∧
        q.layout = some (.ofSizes q.sizes) ∧
        ∃ text,
          Image.View.read w'.output = .ofLayout (.ofSizes q.sizes) q.entry?
            { data := (q.dataOf .data).flatMap Declaration.payload
              text
              string := (q.dataOf .string).flatMap Declaration.payload } ∧
          List.Forall₂ Record.Holds (Record.readAll q.instructions.length text)
            q.instructions := by
  intro q fresh fits
  have hmerged := mergedAll_of_mergeAll wellFormed_empty
    (fun u hu => (hunits u hu).wellFormed) hmerge
  have hq : q.Finished := finished_resolve hmerged.wellFormed hresolve
  have hfits : (∀ home, Image.Fits (.ofSizes q.sizes) home) ↔ fits := Image.fits_ofSizes_iff q.sizes
  have hrefused : ¬ fits → ∃ fault, fresh.writeHeader q = (.error (.format fault), fresh) := by
    intro hnot
    obtain ⟨fault, hfault⟩ := Image.header_error q.entry? (not_forall.mp (mt hfits.mp hnot))
    exact ⟨fault, Writer.writeHeader_of_error rfl hq.layout hfault⟩
  refine ⟨⟨?_, ?_⟩, hrefused, ?_⟩
  · intro hok
    by_contra hnot
    obtain ⟨fault, hfault⟩ := hrefused hnot
    rw [hfault] at hok
    cases hok
  · intro hfit
    obtain ⟨block, hblock, -⟩ := Image.header_ok q.entry? (hfits.mpr hfit)
    obtain ⟨w, hw, -⟩ := Writer.writeHeader_of_neverFails (w := fresh) rfl hq.layout hblock hdevice
    rw [hw]
  · -- a header that was written exists, so that the output behind it is known not to fail
    intro w hheader
    obtain ⟨block, hblock, -, hstage⟩ := Writer.writeHeader_ok hq.layout hheader
    obtain ⟨w₁, hw₁, -, hfine⟩ :=
      Writer.writeHeader_of_neverFails (w := fresh) rfl hq.layout hblock hdevice
    obtain rfl : w₁ = w := congrArg Prod.snd (hw₁.symm.trans hheader)
    obtain ⟨records, hrecords, hall⟩ := hq.records_ok
    obtain ⟨w', log, hsections⟩ := Writer.writeSections_of_neverFails hstage hq.layout
      (hq.sectionBytes_eq hrecords hall.length_eq) hfine
    have himage := hq.hasImage rfl hheader hsections
    obtain ⟨text, hview, hholds⟩ := hq.read_of_hasImage himage
    refine ⟨w', log, hsections, hq.length_of_hasImage himage, hq.layout, text, ?_, hholds⟩
    rw [hview, hq.wellFormed.payload_eq (by decide), hq.wellFormed.payload_eq (by decide)]

/-- Two units, of which the first calls into the second, are written as 112 bytes of header and
table, 3 of data, 4 records and 1 byte of strings. -/
theorem image_roundTrip_two_units :
    let unit (text : String) : SourceUnit :=
      ((Assembly.ofSource "unit" (.ofBytes text.toUTF8.data.toList)).calls 1).unit
    let units := [unit ".data\nmsg: .asciz \"hi\"\n.text\nmain: mov x0, 7\ncall f\nret",
      unit ".string\nend: .ascii \"!\"\n.text\nf: ret"]
    let merged := ({} : Program).mergeAll units
    let resolved := merged.2.resolve [] ({} : MemoryModules)
    let fresh : Writer BoundedDevice := { device := {}, name := "image" }
    merged.1 = .ok () ∧ resolved.outcome = .ok () ∧
      ∃ w w' log, fresh.writeHeader resolved.program = (.ok (), w) ∧
        w.writeSections resolved.program = (.ok (), w', log) ∧
        w'.output.length = 112 + (3 + 4 * 32 + 1) := by
  intro unit units merged resolved fresh
  have hmerged : merged.1 = .ok () := by decide +kernel
  have hresolved : resolved.outcome = .ok () := by decide +kernel
  have hsizes : resolved.program.sizes = ⟨3, 4 * 32, 1⟩ := by decide +kernel
  have hunits : ∀ u ∈ units, u.Assembled := by
    simp only [units, List.forall_mem_cons]
    exact ⟨⟨_, _, _, rfl⟩, ⟨_, _, _, rfl⟩, by simp⟩
  obtain ⟨hfits, -, hwritten⟩ := image_roundTrip [] ({} : MemoryModules) ({} : BoundedDevice)
    "image" hunits (Prod.ext hmerged rfl) hresolved (OutputDevice.neverFails_of_unlimited rfl rfl)
  have hheader : (fresh.writeHeader resolved.program).1 = .ok () :=
    hfits.mpr (by rw [hsizes]; decide)
  obtain ⟨w', log, hsections, hlength, -⟩ := hwritten _ (Prod.ext hheader rfl)
  refine ⟨hmerged, hresolved, _, w', log, Prod.ext hheader rfl, hsections, ?_⟩
  change w'.output.length = 112 + (resolved.program.sizes.data + resolved.program.sizes.text +
    resolved.program.sizes.string) at hlength
  rw [hlength, hsizes]

end AsmLinker.Program
