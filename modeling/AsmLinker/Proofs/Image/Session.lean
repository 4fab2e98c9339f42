import Mathlib
import AsmLinker.Proofs.Program.Resolved

/-!
# Writing in a session

A session is a sequence of calls on one program and one writer: units are merged, the program is
resolved, and the header and the sections are written, at any points and in any order. The header
holds the section table of the program as it was then. The sections are those of the program as it
is when they are written, and each is compared with the layout that the program has at that time,
not with the table that was written.

So a unit that is merged and resolved between the two calls goes unnoticed, and the table describes
the sections exactly if the sizes are still those for which it was written
(`Session.table_describes_iff`).
-/

namespace AsmLinker

/-! ## Tables and payloads -/

namespace Image

/-- The sections one behind the other, in the order of the image. -/
def joined (payload : PerSection (List UInt8)) : List UInt8 :=
  payload.data ++ (payload.text ++ payload.string)

/-- The section table states the lengths of these payloads, and the addresses at which they start
when they lie one behind the other. -/
def Describes (table : PerSection TableEntry) (payload : PerSection (List UInt8)) : Prop :=
  let lengths : PerSection Nat :=
    { data := payload.data.length, text := payload.text.length, string := payload.string.length }
  ∀ home, (table.get home).size = lengths.get home ∧
    (table.get home).start = (Layout.ofSizes lengths).starts.get home

/-- The section table for sections of these sizes. -/
def tableOf (sizes : PerSection Nat) (entry : Option UInt64) : PerSection TableEntry :=
  { data := .ofLayout (.ofSizes sizes) entry .data
    text := .ofLayout (.ofSizes sizes) entry .text
    string := .ofLayout (.ofSizes sizes) entry .string }

variable {sizes lengths : PerSection Nat} {entry : Option UInt64}
  {payload : PerSection (List UInt8)}

@[simp] theorem get_tableOf (sizes : PerSection Nat) (entry : Option UInt64) (home : Section) :
    (tableOf sizes entry).get home = .ofLayout (.ofSizes sizes) entry home := by
  cases home <;> rfl

/-- The table of a header is read back whatever stands behind it. -/
theorem table_of_header {block : List UInt8} (h : header (.ofSizes sizes) entry = .ok block)
    (bytes : List UInt8) : (View.read (block ++ bytes)).table = tableOf sizes entry := by
  obtain ⟨block', hblock', -, hread⟩ := header_read entry (fits_of_header h)
  obtain rfl : block = block' := Except.ok.inj (h.symm.trans hblock')
  rw [hread]
  rfl

/-- A table describes exactly the payloads that have the sizes for which it was made. -/
theorem describes_tableOf_iff :
    Describes (tableOf sizes entry) payload ↔
      ∀ home, (payload.get home).length = sizes.get home := by
  constructor
  · intro h home
    have hsize := (h home).1
    rw [get_tableOf] at hsize
    cases home <;> exact hsize.symm
  · intro h home
    have hlengths : PerSection.mk payload.data.length payload.text.length payload.string.length =
        sizes := by
      apply PerSection.ext_get
      intro other
      rw [← h other]
      cases other <;> rfl
    rw [get_tableOf, hlengths]
    exact ⟨rfl, rfl⟩

/-- Sections that have not shrunk since a table was made can be split into payloads that it
describes only if they have not grown either. -/
theorem exists_describes_iff (hle : ∀ home, sizes.get home ≤ lengths.get home)
    (hlengths : ∀ home, (payload.get home).length = lengths.get home) :
    (∃ parts, joined payload = joined parts ∧ Describes (tableOf sizes entry) parts) ↔
      sizes = lengths := by
  constructor
  · rintro ⟨parts, hsplit, hdescribes⟩
    have hparts := describes_tableOf_iff.mp hdescribes
    -- the sums agree, and no section is smaller than the table says
    have htotal := congrArg List.length hsplit
    simp only [joined, List.length_append] at htotal
    have hdata := hle .data
    have htext := hle .text
    have hstring := hle .string
    rw [← hparts, ← hlengths] at hdata htext hstring
    simp only [PerSection.get] at hdata htext hstring
    apply PerSection.ext_get
    intro home
    rw [← hparts, ← hlengths]
    cases home <;> simp only [PerSection.get] <;> omega
  · rintro rfl
    exact ⟨payload, rfl, describes_tableOf_iff.mpr hlengths⟩

end Image

/-! ## Calls -/

namespace Writer

variable {δ : Type} [OutputDevice δ] {w : Writer δ} {p : Program}

/-- The header is written once. -/
theorem writeHeader_of_ne_empty (hstage : w.stage ≠ .empty) :
    w.writeHeader p = (.error (.format .headerAlreadyWritten), w) :=
  if_pos hstage

/-- The sections are written once, and behind a header. -/
theorem writeSections_of_ne_header (hstage : w.stage ≠ .header) :
    ∃ e, w.writeSections p = (.error e, w, []) := by
  cases hcase : w.stage with
  | empty | done => exact ⟨_, by rw [writeSections, hcase]⟩
  | header => exact absurd hcase hstage

/-- What a first call that writes the header can do, if the output never fails: nothing has changed,
or the header of the present layout stands behind what was there. -/
theorem writeHeader_cases (hw : OutputDevice.NeverFails w.device) (hstage : w.stage = .empty) :
    (w.writeHeader p).2 = w ∨
      ∃ layout block w', p.layout = some layout ∧ Image.header layout p.entry? = .ok block ∧
        w.writeHeader p = (.ok (), w') ∧ w'.stage = .header ∧ w'.output = w.output ++ block ∧
        OutputDevice.NeverFails w'.device := by
  cases hlayout : p.layout with
  | none =>
    left
    simp [writeHeader, hstage, hlayout]
  | some layout =>
    -- a header that does not fit the format is refused before anything is written
    cases hblock : Image.header layout p.entry? with
    | error e =>
      left
      rw [writeHeader_of_error hstage hlayout hblock]
    | ok block =>
      obtain ⟨w', hheader, hstage', hdevice⟩ :=
        writeHeader_of_neverFails hstage hlayout hblock hw
      obtain ⟨block', hblock', houtput, -⟩ := writeHeader_ok hlayout hheader
      obtain rfl : block = block' := Except.ok.inj (hblock.symm.trans hblock')
      exact .inr ⟨layout, block, w', rfl, hblock, hheader, hstage', houtput, hdevice⟩

/-- Sections that were written belong to a program with a layout, and none can follow. -/
theorem stage_of_writeSections {w' : Writer δ} {log : List LogRecord}
    (h : w.writeSections p = (.ok (), w', log)) :
    w.stage = .header ∧ w'.stage = .done ∧ ∃ layout, p.layout = some layout := by
  unfold writeSections at h
  split at h
  · cases h
  · cases h
  next hstage =>
    split at h
    · cases h
    next layout hlayout =>
      refine ⟨hstage, ?_, layout, hlayout⟩
      split at h
      · cases h
      · split at h <;> cases h
        rfl

/-- What a call that writes the sections behind a header can do, if the output never fails and a
program with a layout can be written: nothing has changed, or all sections are written. -/
theorem writeSections_cases (hw : OutputDevice.NeverFails w.device) (hstage : w.stage = .header)
    (hp : ∀ layout, p.layout = some layout → p.Finished) :
    (w.writeSections p).2.1 = w ∨ (w.writeSections p).2.1.stage = .done := by
  cases hlayout : p.layout with
  | none =>
    left
    rw [writeSections, hstage, hlayout]
  | some layout =>
    -- a finished program has bytes of the right size for every section
    have hfinished := hp layout hlayout
    obtain ⟨records, hrecords, hall⟩ := hfinished.records_ok
    obtain ⟨w', log, hsections⟩ := writeSections_of_neverFails hstage hfinished.layout
      (hfinished.sectionBytes_eq hrecords hall.length_eq) hw
    right
    rw [hsections]
    exact (stage_of_writeSections hsections).2.1

end Writer

/-- A program and the image that is being written of it. -/
structure Session (δ : Type) where
  /-- The program. -/
  program : Program
  /-- The image in the course of being written. -/
  writer : Writer δ

namespace Session

variable {σ δ : Type} [SymbolProvider σ] [OutputDevice δ]

/-- A call in a session. -/
inductive Call (σ : Type) where
  /-- A unit is merged into the program. -/
  | merge (unit : SourceUnit)
  /-- The program is resolved with what a provider knows at the time. -/
  | resolve (modules : List String) (provider : σ)
  /-- The header and the section table are written. -/
  | writeHeader
  /-- The sections are written. -/
  | writeSections

/-- A session after a call, whatever this came to. -/
def call (s : Session δ) : Call σ → Session δ
  | .merge unit => { s with program := (s.program.merge unit).2 }
  | .resolve modules provider => { s with program := (s.program.resolve modules provider).program }
  | .writeHeader => { s with writer := (s.writer.writeHeader s.program).2 }
  | .writeSections => { s with writer := (s.writer.writeSections s.program).2.1 }

/-- A session with an empty program and a fresh writer. -/
def start (device : δ) (name : String) : Session δ :=
  { program := {}, writer := { device, name } }

/-- A session after calls. -/
def after (device : δ) (name : String) (calls : List (Call σ)) : Session δ :=
  calls.foldl call (start device name)

variable {device : δ} {name : String} {calls rest : List (Call σ)}

theorem after_concat (device : δ) (name : String) (calls : List (Call σ)) (c : Call σ) :
    after device name (calls ++ [c]) = (after device name calls).call c := by
  rw [after, List.foldl_append]
  rfl

/-- The program of a session is reached by merging and resolving. -/
theorem reachable_after (hunits : ∀ u, .merge u ∈ calls → u.Assembled) :
    (after device name calls).program.Reachable := by
  induction calls using List.reverseRecOn with
  | nil => exact .empty
  | append_singleton before c ih =>
    have hbefore := ih fun u hu => hunits u (List.mem_append_left _ hu)
    rw [after_concat]
    cases c with
    | merge unit => exact hbefore.merge (hunits unit (by simp))
    | resolve modules provider => exact hbefore.resolve modules provider
    | writeHeader | writeSections => exact hbefore

/-- A call other than a merge leaves the sizes of the sections as they are. -/
theorem sizes_call (s : Session δ) {c : Call σ} (hc : ∀ u, c ≠ .merge u) :
    (s.call c).program.sizes = s.program.sizes := by
  cases c with
  | merge unit => exact absurd rfl (hc unit)
  | resolve modules provider => exact (Program.resolve_settles _ modules provider).sizes
  | writeHeader | writeSections => rfl

/-- No call makes a section smaller. -/
theorem sizes_le_call {s : Session δ} {c : Call σ} (hs : s.program.Reachable)
    (hc : ∀ u, c = .merge u → u.Assembled) (home : Section) :
    s.program.sizes.get home ≤ (s.call c).program.sizes.get home := by
  cases c with
  | merge unit =>
    change _ ≤ (s.program.merge unit).2.sizes.get home
    rcases Program.merge_eq_or_merged hs.wellFormed (hc unit rfl).wellFormed with hsame | hmerged
    · rw [hsame]
    · rw [hmerged.sizes home]
      exact Nat.le_add_right _ _
  | resolve | writeHeader | writeSections => rw [sizes_call s (by simp)]

/-- Without a merge the sizes of the sections stay as they are. -/
theorem sizes_after_append (device : δ) (name : String) (calls : List (Call σ))
    (h : ∀ u, .merge u ∉ rest) :
    (after device name (calls ++ rest)).program.sizes =
      (after device name calls).program.sizes := by
  induction rest using List.reverseRecOn with
  | nil => rw [List.append_nil]
  | append_singleton before c ih =>
    have hbefore := ih fun u hu => h u (List.mem_append_left _ hu)
    rw [← List.append_assoc, after_concat, ← hbefore]
    apply sizes_call
    rintro u rfl
    exact h u (by simp)

/-- No section gets smaller in the course of a session. -/
theorem sizes_le_after_append (device : δ) (name : String)
    (hunits : ∀ u, .merge u ∈ calls ++ rest → u.Assembled) (home : Section) :
    (after device name calls).program.sizes.get home ≤
      (after device name (calls ++ rest)).program.sizes.get home := by
  induction rest using List.reverseRecOn with
  | nil => rw [List.append_nil]
  | append_singleton before c ih =>
    rw [← List.append_assoc] at hunits ⊢
    have hbefore : ∀ u, .merge u ∈ calls ++ before → u.Assembled := fun u hu =>
      hunits u (List.mem_append_left _ hu)
    rw [after_concat]
    refine (ih hbefore).trans (sizes_le_call (reachable_after hbefore) ?_ home)
    rintro u rfl
    exact hunits u (by simp)

/-! ## How far the image has come -/

/-- How far the image has come in a session on an output that never fails. -/
inductive Standing (device : δ) (name : String) (calls : List (Call σ)) (w : Writer δ) : Prop
  /-- Nothing was written. -/
  | empty (hstage : w.stage = .empty) (houtput : w.output = [])
      (hdevice : OutputDevice.NeverFails w.device)
  /-- One of the calls wrote the header of the program as it was then, and nothing else was
  written. -/
  | header (hstage : w.stage = .header) (hdevice : OutputDevice.NeverFails w.device)
      (before rest : List (Call σ)) (hcalls : calls = before ++ .writeHeader :: rest)
      (hok : ((after device name before).writer.writeHeader
        (after device name before).program).1 = .ok ())
      (hblock : Image.header (.ofSizes (after device name before).program.sizes)
        (after device name before).program.entry? = .ok w.output)
  /-- The sections were written. -/
  | done (hstage : w.stage = .done)

/-- A call that does not touch the writer leaves the image where it was. -/
theorem Standing.concat {w : Writer δ} (h : Standing device name calls w) (c : Call σ) :
    Standing device name (calls ++ [c]) w := by
  cases h with
  | empty hstage houtput hdevice => exact .empty hstage houtput hdevice
  | header hstage hdevice before rest hcalls hok hblock =>
    refine .header hstage hdevice before (rest ++ [c]) ?_ hok hblock
    rw [hcalls, List.append_assoc, List.cons_append]
  | done hstage => exact .done hstage

/-- The call that writes the header takes the image one step further, or leaves it where it was. -/
theorem Standing.writeHeader (h : Standing device name calls (after device name calls).writer)
    (hp : (after device name calls).program.Reachable) :
    Standing device name (calls ++ [.writeHeader])
      ((after device name calls).writer.writeHeader (after device name calls).program).2 := by
  by_cases hstage : (after device name calls).writer.stage = .empty
  · cases h with
    | empty _ houtput hdevice =>
      rcases Writer.writeHeader_cases (p := (after device name calls).program) hdevice hstage with
        hsame | ⟨layout, block, w', hlayout, hblock, hheader, hstage', houtput', hdevice'⟩
      · rw [hsame]
        exact .empty hstage houtput hdevice
      · -- the layout is that of the present sizes, as after any calls
        have hfinished := hp.finished hlayout
        obtain rfl : layout = _ := Option.some.inj (hlayout.symm.trans hfinished.layout)
        rw [houtput, List.nil_append] at houtput'
        rw [hheader]
        exact .header hstage' hdevice' calls [] rfl (by rw [hheader]) (houtput' ▸ hblock)
    | header hstage' => exact absurd (hstage.symm.trans hstage') (by decide)
    | done hstage' => exact absurd (hstage.symm.trans hstage') (by decide)
  · rw [Writer.writeHeader_of_ne_empty hstage]
    exact h.concat _

/-- The call that writes the sections completes the image, or leaves it where it was. -/
theorem Standing.writeSections (h : Standing device name calls (after device name calls).writer)
    (hp : (after device name calls).program.Reachable) :
    Standing device name (calls ++ [.writeSections])
      ((after device name calls).writer.writeSections (after device name calls).program).2.1 := by
  by_cases hstage : (after device name calls).writer.stage = .header
  · cases h with
    | empty hstage' => exact absurd (hstage.symm.trans hstage') (by decide)
    | header _ hdevice before rest hcalls hok hblock =>
      rcases Writer.writeSections_cases hdevice hstage fun layout hlayout => hp.finished hlayout
        with hsame | hdone
      · rw [hsame]
        exact (Standing.header hstage hdevice before rest hcalls hok hblock).concat _
      · exact .done hdone
    | done hstage' => exact absurd (hstage.symm.trans hstage') (by decide)
  · obtain ⟨e, hrefused⟩ :=
      Writer.writeSections_of_ne_header (p := (after device name calls).program) hstage
    rw [hrefused]
    exact h.concat _

/-- How far the image has come after any calls. -/
theorem standing_after (name : String) (hdevice : OutputDevice.NeverFails device)
    (hunits : ∀ u, .merge u ∈ calls → u.Assembled) :
    Standing device name calls (after device name calls).writer := by
  induction calls using List.reverseRecOn with
  | nil => exact .empty rfl rfl hdevice
  | append_singleton before c ih =>
    have hbefore : ∀ u, .merge u ∈ before → u.Assembled := fun u hu =>
      hunits u (List.mem_append_left _ hu)
    have hreachable : (after device name before).program.Reachable := reachable_after hbefore
    rw [after_concat]
    cases c with
    -- merging and resolving leave the writer alone
    | merge unit => exact (ih hbefore).concat _
    | resolve modules provider => exact (ih hbefore).concat _
    | writeHeader => exact (ih hbefore).writeHeader hreachable
    | writeSections => exact (ih hbefore).writeSections hreachable

/-! ## What the table says of the sections -/

/-- Whenever the sections are written in a session on an output that never fails, one of the calls
before wrote the header. Behind the 112 bytes of header and table stand the sections of the program
as it is now, and the table states the sizes that they had when the header was written. So the bytes
can be split as the table says exactly if no section has grown since then, as is the case if nothing
was merged. -/
theorem table_describes_iff (name : String) (hdevice : OutputDevice.NeverFails device)
    (hunits : ∀ u, .merge u ∈ calls → u.Assembled) {w : Writer δ} {log : List LogRecord}
    (hok : (after device name calls).writer.writeSections (after device name calls).program =
      (.ok (), w, log)) :
    let p := (after device name calls).program
    let bytes := w.output.drop 112
    let table := (Image.View.read w.output).table
    ∃ before rest records,
      let stated := (after device name before).program.sizes
      calls = before ++ .writeHeader :: rest ∧
      ((after device name before).writer.writeHeader (after device name before).program).1 =
        .ok () ∧
      List.Forall₂ Record.Holds records p.instructions ∧
      bytes = Image.joined (p.sectionContents records) ∧
      (∀ home, ((p.sectionContents records).get home).length = p.sizes.get home) ∧
      (∀ home, (table.get home).size = stated.get home ∧
        (table.get home).start = (Layout.ofSizes stated).starts.get home) ∧
      ((∃ parts, bytes = Image.joined parts ∧ Image.Describes table parts) ↔ stated = p.sizes) ∧
      ((∀ u, .merge u ∉ rest) → stated = p.sizes) := by
  intro p bytes table
  have hreachable : p.Reachable := reachable_after hunits
  obtain ⟨hstage, -, layout, hlayout⟩ := Writer.stage_of_writeSections hok
  cases standing_after name hdevice hunits with
  | empty hstage' => exact absurd (hstage.symm.trans hstage') (by decide)
  | done hstage' => exact absurd (hstage.symm.trans hstage') (by decide)
  | header _ _ before rest hcalls hheader hblock =>
    have hfinished : p.Finished := hreachable.finished hlayout
    obtain ⟨records, hrecords, hall⟩ := hfinished.records_ok
    have hlengths := hfinished.length_sectionContents hall.length_eq
    -- the output is the header of that time, with the sections of now behind it
    have houtput : w.output = (after device name calls).writer.output ++
        Image.joined (p.sectionContents records) := by
      rw [Writer.writeSections_ok hfinished.layout
        (hfinished.sectionBytes_eq hrecords hall.length_eq) hok]
      simp [Section.all, PerSection.get, Image.joined]
    have hbytes : bytes = Image.joined (p.sectionContents records) := by
      rw [show bytes = w.output.drop 112 from rfl, houtput]
      exact List.drop_left' (Image.length_of_header hblock)
    have htable : table = Image.tableOf (after device name before).program.sizes
        (after device name before).program.entry? := by
      rw [show table = (Image.View.read w.output).table from rfl, houtput]
      exact Image.table_of_header hblock _
    -- sections only grow, so that a split by other sizes would need another total
    have hgrown : ∀ home,
        (after device name before).program.sizes.get home ≤ p.sizes.get home := by
      intro home
      have hle := sizes_le_after_append device name (hcalls ▸ hunits) home
      rwa [← hcalls] at hle
    refine ⟨before, rest, records, hcalls, hheader, hall.imp fun _ _ h => h.2, hbytes, hlengths,
      ?_, ?_, ?_⟩
    · intro home
      rw [htable, Image.get_tableOf]
      exact ⟨rfl, rfl⟩
    · rw [hbytes, htable]
      exact Image.exists_describes_iff hgrown hlengths
    · intro hnone
      have hafter : ∀ u, Call.merge u ∉ .writeHeader :: rest := by
        intro u hu
        exact hnone u (by simpa using hu)
      rw [← sizes_after_append device name before hafter, ← hcalls]

/-- A header is written, and then a unit that defines a label again is refused: the table describes
the sections. -/
theorem table_describes_iff_of_refused_unit :
    let unit : SourceUnit :=
      ((Assembly.ofSource "unit" (.ofBytes "f: ret\n".toUTF8.data.toList)).calls 1).unit
    let calls : List (Call MemoryModules) :=
      [.merge unit, .resolve [] {}, .writeHeader, .merge unit]
    let s := after ({} : BoundedDevice) "image" calls
    let written := s.writer.writeSections s.program
    written.1 = .ok () ∧
      ∃ parts, written.2.1.output.drop 112 = Image.joined parts ∧
        Image.Describes (Image.View.read written.2.1.output).table parts := by
  intro unit calls s written
  have hok : written.1 = .ok () := by decide +kernel
  have hunits : ∀ u, Call.merge u ∈ calls → u.Assembled := by
    intro u hu
    obtain rfl : u = unit := by simpa [calls] using hu
    exact ⟨_, _, _, rfl⟩
  have hdevice : OutputDevice.NeverFails ({} : BoundedDevice) :=
    OutputDevice.neverFails_of_unlimited rfl rfl
  obtain ⟨before, rest, -, hcalls, -, -, -, -, -, hsplit, -⟩ :=
    table_describes_iff "image" hdevice hunits (Prod.ext hok rfl : written = (.ok (), _, _))
  -- only the third call writes a header
  have honly : before = [.merge unit, .resolve [] {}] ∧ rest = [.merge unit] := by
    simpa [calls, List.cons_eq_append_iff] using hcalls
  obtain ⟨rfl, -⟩ := honly
  exact ⟨hok, hsplit.mpr (by decide +kernel)⟩

/-- A unit is merged and resolved between the header and the sections. The sections are written all
the same, and their 64 bytes cannot be split as the table says, which states 32. -/
theorem table_differs_of_late_unit :
    let unit : SourceUnit :=
      ((Assembly.ofSource "unit" (.ofBytes "ret\n".toUTF8.data.toList)).calls 1).unit
    let calls : List (Call MemoryModules) :=
      [.merge unit, .resolve [] {}, .writeHeader, .merge unit, .resolve [] {}]
    let s := after ({} : BoundedDevice) "image" calls
    let written := s.writer.writeSections s.program
    written.1 = .ok () ∧
      ¬ ∃ parts, written.2.1.output.drop 112 = Image.joined parts ∧
        Image.Describes (Image.View.read written.2.1.output).table parts := by
  intro unit calls s written
  refine ⟨by decide +kernel, ?_⟩
  rintro ⟨parts, hsplit, hdescribes⟩
  have hlength : (written.2.1.output.drop 112).length = 64 := by decide +kernel
  have hdata : ((Image.View.read written.2.1.output).table.get .data).size = 0 := by decide +kernel
  have htext : ((Image.View.read written.2.1.output).table.get .text).size = 32 := by
    decide +kernel
  have hstring : ((Image.View.read written.2.1.output).table.get .string).size = 0 := by
    decide +kernel
  rw [(hdescribes _).1] at hdata htext hstring
  simp only [PerSection.get] at hdata htext hstring
  rw [hsplit, Image.joined, List.length_append, List.length_append, hdata, htext, hstring]
    at hlength
  exact absurd hlength (by decide)

end Session

end AsmLinker
