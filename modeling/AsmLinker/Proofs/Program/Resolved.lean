import Mathlib
import AsmLinker.Proofs.Image.Writing
import AsmLinker.Proofs.Program.Incremental

/-!
# Programs that are resolved

The layout is all that a writer looks at before it writes a program, so it must never stand beside a
reference that is not bound, or beside sizes that are no longer those of the sections. This holds
although the parts of a program can be merged in any order, with any contents, and although a call
of `resolve` may fail halfway: merging takes the layout away, and a call that fails leaves it only
to a program without references, in which nothing can be missing (`Program.PartReachable.current`).

So a resolved program can be lowered, whatever the numbers of operands of its instructions, and the
writer never reports a reference that is left (`Program.resolved_can_be_lowered`).
-/

namespace AsmLinker

/-! ## Lowering any number of operands -/

/-- Operands that all have a word have as many words as are asked for, with zeros behind them. -/
theorem Instruction.exists_words? {operands : List Operand} (n : Nat)
    (hwords : ∀ operand ∈ operands, operand.word?.isSome) :
    ∃ ws, Instruction.words? n operands = .ok ws := by
  induction operands generalizing n with
  | nil =>
    cases n with
    | zero => exact ⟨_, rfl⟩
    | succ n => exact ⟨_, rfl⟩
  | cons operand rest ih =>
    obtain ⟨hfirst, hrest⟩ := List.forall_mem_cons.mp hwords
    cases n with
    | zero => exact ⟨_, rfl⟩
    | succ n =>
      -- operands behind the last word that is asked for are not looked at
      obtain ⟨w, hw⟩ := Option.isSome_iff_exists.mp hfirst
      obtain ⟨ws, hws⟩ := ih n hrest
      refine ⟨⟨w :: ws.val, by simp [ws.property]⟩, ?_⟩
      rw [Instruction.words?, hw, hws]

/-- The only operand without a word is a label. -/
theorem Operand.isSome_word? {operand : Operand} (h : ∀ name, operand ≠ .label name) :
    operand.word?.isSome := by
  cases operand with
  | label name => exact absurd rfl (h name)
  | register | literal | address => rfl

/-- An instruction without a label, of any number of operands, has a record. -/
theorem Instruction.exists_lower {ins : Instruction} (h : ∀ name, .label name ∉ ins.operands) :
    ∃ record, ins.lower = .ok record := by
  have hwords : ∀ operand ∈ ins.operands, operand.word?.isSome := by
    intro operand hmem
    exact Operand.isSome_word? fun name hname => h name (hname ▸ hmem)
  obtain ⟨⟨words, length⟩, hws⟩ := Instruction.exists_words? 3 hwords
  exact ⟨_, by rw [Instruction.lower, hws]⟩

/-- Instructions that all have a record are written. -/
theorem Image.exists_records {instructions : List Instruction}
    (h : ∀ ins ∈ instructions, ∃ record, ins.lower = .ok record) :
    ∃ bytes, Image.records instructions = .ok bytes := by
  induction instructions with
  | nil => exact ⟨[], rfl⟩
  | cons ins rest ih =>
    obtain ⟨⟨record, hlower⟩, hrest⟩ := List.forall_mem_cons.mp h
    obtain ⟨bytes, hbytes⟩ := ih hrest
    exact ⟨record.toBytes ++ bytes, by rw [Image.records, hlower, hbytes]⟩

/-! ## What a writer can report -/

/-- A fault of the format, or a failure of the output. -/
inductive Error.OfWriting : Error → Prop
  | format (fault : FormatFault) : OfWriting (.format fault)
  | output (name cause : String) : OfWriting (.file .write name cause)

theorem Error.OfWriting.ne_unresolved {e : Error} (h : e.OfWriting) (line : Nat)
    (symbol text : String) : e ≠ .unresolved line symbol text := by
  cases h <;> simp

namespace Writer

variable {δ : Type} [OutputDevice δ] {w w' : Writer δ} {p : Program} {layout : Layout} {e : Error}

/-- A block is refused by the output alone. -/
theorem ofWriting_of_emit {block : List UInt8} (h : w.emit block = (.error e, w')) :
    e.OfWriting := by
  rw [emit] at h
  split at h
  · cases h
  · cases h
    exact .output _ _

/-- The header of a program is refused by the format or by the output. -/
theorem ofWriting_of_writeHeader (h : w.writeHeader p = (.error e, w')) : e.OfWriting := by
  unfold writeHeader at h
  split at h
  · cases h
    exact .format _
  split at h
  · cases h
    exact .format _
  next layout hlayout =>
    split at h
    next e' hheader =>
      cases h
      -- a header exists unless a section does not fit, and that is a fault of the format
      by_cases hfits : ∀ home, Image.Fits layout home
      · obtain ⟨block, hblock, -⟩ := Image.header_ok p.entry? hfits
        rw [hblock] at hheader
        cases hheader
      · obtain ⟨fault, hfault⟩ := Image.header_error p.entry? (not_forall.mp hfits)
        rw [hfault] at hheader
        cases hheader
        exact .format fault
    next block hblock =>
      rcases hemit : w.emit block with ⟨e' | ⟨⟩, next⟩
      · rw [hemit] at h
        cases h
        exact ofWriting_of_emit hemit
      · rw [hemit] at h
        cases h

/-- The bytes of a section are refused by the format, if every instruction has a record. -/
theorem ofWriting_of_sectionBytes {home : Section}
    (hlower : ∀ ins ∈ p.instructions, ∃ record, ins.lower = .ok record)
    (h : Image.sectionBytes p layout home = .error e) : e.OfWriting := by
  obtain ⟨bytes, hbytes⟩ := Image.exists_records hlower
  unfold Image.sectionBytes at h
  rw [hbytes] at h
  dsimp only at h
  split at h
  next e' hpayload => split at hpayload <;> cases hpayload
  next payload hpayload =>
    -- what is left is a payload that does not have the stated size
    split at h
    · cases h
    · cases h
      exact .format _

/-- Sections are refused by the format or by the output, if every instruction has a record. -/
theorem ofWriting_of_emitSections {homes : List Section}
    (hlower : ∀ ins ∈ p.instructions, ∃ record, ins.lower = .ok record)
    (h : w.emitSections p layout homes = (.error e, w')) : e.OfWriting := by
  induction homes generalizing w with
  | nil => cases h
  | cons home rest ih =>
    rw [emitSections] at h
    split at h
    next e' hbytes =>
      cases h
      exact ofWriting_of_sectionBytes hlower hbytes
    next block hblock =>
      rcases hemit : w.emit block with ⟨e' | ⟨⟩, next⟩
      · rw [hemit] at h
        cases h
        exact ofWriting_of_emit hemit
      · rw [hemit] at h
        exact ih h

/-- The sections of a program are refused by the format or by the output, if every instruction has a
record as soon as there is a layout. -/
theorem ofWriting_of_writeSections {log : List LogRecord}
    (hlower : p.layout.isSome → ∀ ins ∈ p.instructions, ∃ record, ins.lower = .ok record)
    (h : w.writeSections p = (.error e, w', log)) : e.OfWriting := by
  unfold writeSections at h
  split at h
  · cases h
    exact .format _
  · cases h
    exact .format _
  split at h
  · cases h
    exact .format _
  next layout hlayout =>
    rw [hlayout] at hlower
    rcases hemit : w.emitSections p layout Section.all with ⟨e' | ⟨⟩, next⟩
    · rw [hemit] at h
      cases h
      exact ofWriting_of_emitSections (hlower rfl) hemit
    · rw [hemit] at h
      dsimp only at h
      -- all sections were taken, and only flushing is left
      split at h
      · cases h
        exact .output _ _
      · cases h

end Writer

/-! ## Merging parts and resolving -/

namespace Program

variable {p q : Program} {σ : Type} [SymbolProvider σ]

/-- What a program is after a part of a unit was offered to it: a part that is refused leaves no
trace. -/
def taking (p : Program) : Except Error Program → Program
  | .ok q => q
  | .error _ => p

/-- A program that was reached from the empty one by merging parts of units, whatever is in them,
and by resolving it against any modules of any provider, in any order and whatever each call came
to. -/
inductive PartReachable : Program → Prop
  | empty : PartReachable {}
  | labels {p : Program} (h : PartReachable p) (labels : Table Label) :
      PartReachable (p.taking (p.mergeLabels labels))
  | data {p : Program} (h : PartReachable p) (data : Table Declaration) :
      PartReachable (p.taking (p.mergeData data))
  | instructions {p : Program} (h : PartReachable p) (instructions : List Instruction) :
      PartReachable (p.mergeInstructions instructions)
  | resolve {p : Program} {σ : Type} [SymbolProvider σ] (h : PartReachable p)
      (modules : List String) (provider : σ) : PartReachable (p.resolve modules provider).program

/-- The layout, if there is one, is that of the present sizes, and then no reference is left. -/
def Current (p : Program) : Prop :=
  ∀ layout, p.layout = some layout → layout = .ofSizes p.sizes ∧ p.Closed

/-- A program without a layout promises nothing. -/
theorem current_of_none (h : p.layout = none) : p.Current := by
  intro layout hlayout
  rw [h] at hlayout
  cases hlayout

theorem layout_mergeLabels {labels : Table Label} (h : p.mergeLabels labels = .ok q) :
    q.layout = none := by
  rw [mergeLabels] at h
  split at h
  · cases h
  · cases h
    rfl

theorem layout_mergeData {data : Table Declaration} (h : p.mergeData data = .ok q) :
    q.layout = none := by
  rw [mergeData] at h
  split at h
  · cases h
  · cases h
    rfl

/-- A part that is merged takes the layout away. -/
theorem Current.taking {result : Except Error Program} (h : p.Current)
    (hlayout : ∀ q, result = .ok q → q.layout = none) : (p.taking result).Current := by
  cases result with
  | error e => exact h
  | ok q => exact current_of_none (hlayout q rfl)

/-- Whatever a call of `resolve` comes to, the layout is current afterwards if it was before. -/
theorem Current.resolve (h : p.Current) (modules : List String) (provider : σ) :
    (p.resolve modules provider).program.Current := by
  have hresolves := resolve_resolves p modules provider
  have hclosed : (p.resolve modules provider).outcome = .ok () →
      (p.resolve modules provider).program.Closed := closed_of_resolve
  generalize (p.resolve modules provider).outcome = outcome at hresolves hclosed
  generalize (p.resolve modules provider).program = q at hresolves hclosed ⊢
  cases hresolves with
  | unloaded => exact h
  | unbound hload hbind =>
    -- a program that kept a layout had no reference, so that no name could be missing
    intro layout hlayout
    obtain ⟨-, hnone⟩ := h layout hlayout
    obtain ⟨ins, hins, name, hlabel, -⟩ := Instruction.exists_missing_of_bindAll hbind
    exact absurd hlabel (hnone ins hins name)
  | bound =>
    intro layout hlayout
    obtain rfl : _ = layout := Option.some.inj hlayout
    exact ⟨rfl, hclosed rfl⟩

/-- The layout of a program is current after any calls. -/
theorem PartReachable.current (h : p.PartReachable) : p.Current := by
  induction h with
  | empty => exact current_of_none rfl
  | labels _ labels ih => exact ih.taking fun _ => layout_mergeLabels
  | data _ data ih => exact ih.taking fun _ => layout_mergeData
  | instructions _ instructions ih => exact current_of_none rfl
  | resolve _ modules provider ih => exact ih.resolve modules provider

/-- A unit is merged part by part. -/
theorem PartReachable.merge (h : p.PartReachable) (u : SourceUnit) :
    (p.merge u).2.PartReachable := by
  have hlabels := h.labels u.labels
  unfold Program.merge
  split
  next e hrefused => exact h
  next p₁ hmerged =>
    rw [hmerged] at hlabels
    have hdata := PartReachable.data hlabels u.data
    split
    next e hrefused => exact hlabels
    next p₂ hmerged' =>
      change (p₁.taking (p₁.mergeData u.data)).PartReachable at hdata
      rw [hmerged'] at hdata
      exact .instructions hdata u.instructions

theorem Reachable.partReachable (h : p.Reachable) : p.PartReachable := by
  induction h with
  | empty => exact .empty
  | merge _ _ ih => exact ih.merge _
  | resolve _ modules provider ih => exact ih.resolve modules provider

/-- A program of assembled units can be written as soon as it has a layout. -/
theorem Reachable.finished {layout : Layout} (h : p.Reachable) (hlayout : p.layout = some layout) :
    p.Finished := by
  obtain ⟨rfl, hclosed⟩ := h.partReachable.current layout hlayout
  refine ⟨h.wellFormed, hlayout, ?_⟩
  intro ins hins operand hmem
  exact Operand.isSome_word? fun name hname => hclosed ins hins name (hname ▸ hmem)

/-- After any calls that merge parts or resolve, a program that is resolved has no label operand,
each of its instructions has a record, and the stored layout is that of the present sizes: the data
at address 0, the text behind it and the strings behind both. So a writer never reports a reference
that is left, whatever it is asked to write. -/
theorem resolved_can_be_lowered (h : p.PartReachable) :
    (p.isResolved = true →
      (∀ ins ∈ p.instructions,
        (∀ name, .label name ∉ ins.operands) ∧ ∃ record, ins.lower = .ok record) ∧
      p.layout = some
        { starts := { data := 0, text := p.sizes.data, string := p.sizes.data + p.sizes.text }
          sizes := p.sizes }) ∧
    ∀ {δ : Type} [OutputDevice δ] (w : Writer δ) (line : Nat) (symbol text : String),
      (w.writeHeader p).1 ≠ .error (.unresolved line symbol text) ∧
      (w.writeSections p).1 ≠ .error (.unresolved line symbol text) := by
  have hlower : p.layout.isSome → ∀ ins ∈ p.instructions, ∃ record, ins.lower = .ok record := by
    intro hsome ins hins
    obtain ⟨layout, hlayout⟩ := Option.isSome_iff_exists.mp hsome
    exact Instruction.exists_lower ((h.current layout hlayout).2 ins hins)
  refine ⟨?_, ?_⟩
  · intro hresolved
    obtain ⟨layout, hlayout⟩ := Option.isSome_iff_exists.mp hresolved
    obtain ⟨rfl, hclosed⟩ := h.current layout hlayout
    exact ⟨fun ins hins => ⟨hclosed ins hins, hlower hresolved ins hins⟩, hlayout⟩
  · intro δ _ w line symbol text
    constructor
    · intro hreport
      exact (Writer.ofWriting_of_writeHeader (Prod.ext hreport rfl)).ne_unresolved line symbol text
        rfl
    · intro hreport
      exact (Writer.ofWriting_of_writeSections hlower
        (Prod.ext hreport (Prod.ext rfl rfl))).ne_unresolved line symbol text rfl

/-- An instruction with five operands waits for a label in the last one. The first call of `resolve`
fails, the second one binds the label once it was merged, and a third one that does not find its
module leaves the program resolved. -/
theorem resolved_can_be_lowered_of_five_operands :
    let ins : Instruction :=
      { op := .mov, line := 1
        operands := [.register 0, .literal 1, .literal 2, .literal 3, .label "f"] }
    let labels : Table Label :=
      .ofList [("f", { name := "f", home := .text, offset := 0, line := 1 })]
    let failed := (({} : Program).mergeInstructions [ins]).resolve [] ({} : MemoryModules)
    let bound := (failed.program.taking (failed.program.mergeLabels labels)).resolve []
      ({} : MemoryModules)
    let last := bound.program.resolve ["gfx"] ({} : MemoryModules)
    failed.outcome = .error (.unresolved 1 "f" "mov x0, 1, 2, 3, f") ∧ bound.outcome = .ok () ∧
      last.outcome ≠ .ok () ∧ last.program.isResolved = true ∧
      ∀ ins ∈ last.program.instructions, ∃ record, ins.lower = .ok record := by
  intro ins labels failed bound last
  have hreachable : last.program.PartReachable :=
    .resolve (.resolve (.labels (.resolve (.instructions .empty [ins]) []
      ({} : MemoryModules)) labels) [] ({} : MemoryModules)) ["gfx"] ({} : MemoryModules)
  have hresolved : last.program.isResolved = true := by decide +kernel
  obtain ⟨hsound, -⟩ := resolved_can_be_lowered hreachable
  refine ⟨by decide +kernel, by decide +kernel, by decide +kernel, hresolved, ?_⟩
  intro other hother
  exact ((hsound hresolved).1 other hother).2

end Program

end AsmLinker
