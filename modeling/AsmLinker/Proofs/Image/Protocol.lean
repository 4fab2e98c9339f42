import Mathlib
import AsmLinker.Proofs.Image.Session

/-!
# The protocol of a writer

A writer is called any number of times, each time with any program, on an output that may stop in
the middle of every block and may fail whenever it is flushed. A call that goes well takes the image
one stage further, and there are two such calls at most: one for the header and then one for the
sections. A call that fails may still have emitted something, and a call can be made again.

`Call.Emits` says once which blocks a call can offer to the output and how much of each is taken.
From it follows what the output holds after any calls (`Writer.calls_protocol`): the blocks that
were taken whole, in order, with a proper part of a block for each offer that failed, while only
whole blocks are counted.
-/

namespace AsmLinker

/-! ## Emissions -/

/-- A block that was offered to an output, and how much of it was taken. -/
inductive Emission where
  /-- All of the block was taken. -/
  | whole (block : List UInt8)
  /-- The output failed when it had taken so many bytes, fewer than the block has. -/
  | part (block : List UInt8) (taken : Fin block.length)

namespace Emission

/-- The bytes that were taken. -/
def bytes : Emission → List UInt8
  | .whole block => block
  | .part block taken => block.take taken

/-- The number of bytes that count as written. -/
def counted : Emission → Nat
  | .whole block => block.length
  | .part _ _ => 0

end Emission

namespace Image

/-- What can be emitted of sections, one after the other, and the outcome. -/
inductive SectionsEmit (p : Program) (layout : Layout) :
    List Section → Except Error Unit → List Emission → Prop
  /-- No section is left. -/
  | done : SectionsEmit p layout [] (.ok ()) []
  /-- The section has no bytes that agree with the layout, and nothing is offered. -/
  | refused {home : Section} {rest : List Section} {e : Error}
      (hbytes : sectionBytes p layout home = .error e) :
      SectionsEmit p layout (home :: rest) (.error e) []
  /-- The output fails on the section. -/
  | stopped {home : Section} {rest : List Section} {block : List UInt8}
      (hbytes : sectionBytes p layout home = .ok block) (taken : Fin block.length)
      (name cause : String) :
      SectionsEmit p layout (home :: rest) (.error (.file .write name cause)) [.part block taken]
  /-- The output takes the section. -/
  | taken {home : Section} {rest : List Section} {block : List UInt8}
      {outcome : Except Error Unit} {emissions : List Emission}
      (hbytes : sectionBytes p layout home = .ok block)
      (hrest : SectionsEmit p layout rest outcome emissions) :
      SectionsEmit p layout (home :: rest) outcome (.whole block :: emissions)

end Image

namespace Writer

/-- A call on a writer, with the program that it is given. -/
inductive Call where
  /-- The header and the section table are to be written. -/
  | header (p : Program)
  /-- The sections are to be written. -/
  | sections (p : Program)

namespace Call

/-- The stage in which the call can go well. -/
def due : Call → Stage
  | .header _ => .empty
  | .sections _ => .header

/-- The stage that is reached when the call goes well. -/
def reaches : Call → Stage
  | .header _ => .header
  | .sections _ => .done

/-- What a call can emit, and its outcome. -/
inductive Emits : Call → Except Error Unit → List Emission → Prop
  /-- The call is refused before anything is offered to the output. -/
  | refused (c : Call) (fault : FormatFault) : Emits c (.error (.format fault)) []
  /-- The output takes the header and the table as one block. -/
  | header {p : Program} {layout : Layout} {block : List UInt8} (hlayout : p.layout = some layout)
      (hblock : Image.header layout p.entry? = .ok block) :
      Emits (.header p) (.ok ()) [.whole block]
  /-- The output fails on that block. -/
  | headerStopped {p : Program} {layout : Layout} {block : List UInt8}
      (hlayout : p.layout = some layout) (hblock : Image.header layout p.entry? = .ok block)
      (taken : Fin block.length) (name cause : String) :
      Emits (.header p) (.error (.file .write name cause)) [.part block taken]
  /-- All sections are taken and the output is flushed, or one of them is not taken. -/
  | sections {p : Program} {layout : Layout} {outcome : Except Error Unit}
      {emissions : List Emission} (hlayout : p.layout = some layout)
      (hemit : Image.SectionsEmit p layout Section.all outcome emissions) :
      Emits (.sections p) outcome emissions
  /-- All sections are taken and the output cannot be flushed. -/
  | unflushed {p : Program} {layout : Layout} {emissions : List Emission}
      (hlayout : p.layout = some layout)
      (hemit : Image.SectionsEmit p layout Section.all (.ok ()) emissions) (name cause : String) :
      Emits (.sections p) (.error (.file .write name cause)) emissions

end Call

/-- The output and the count have grown by emissions, and the stage is as it was. -/
structure Grows {δ : Type} (w : Writer δ) (emissions : List Emission) (w' : Writer δ) : Prop where
  /-- What was taken stands behind what was there. -/
  output : w'.output = w.output ++ emissions.flatMap Emission.bytes
  /-- Blocks that were taken whole are counted. -/
  written : w'.written = w.written + (emissions.map Emission.counted).sum
  /-- The stage is kept. -/
  stage : w'.stage = w.stage

theorem Grows.refl {δ : Type} (w : Writer δ) : w.Grows [] w :=
  ⟨by simp, by simp, rfl⟩

theorem Grows.cons {δ : Type} {w w' w'' : Writer δ} {emission : Emission}
    {emissions : List Emission} (h : w.Grows [emission] w') (h' : w'.Grows emissions w'') :
    w.Grows (emission :: emissions) w'' where
  output := by simp [h'.output, h.output]
  written := by simp [h'.written, h.written, Nat.add_assoc]
  stage := h'.stage.trans h.stage

variable {δ : Type} [OutputDevice δ] {w w' : Writer δ} {p : Program} {layout : Layout}

/-- What a call comes to, and the writer afterwards. -/
def call (w : Writer δ) : Call → Except Error Unit × Writer δ
  | .header p => w.writeHeader p
  | .sections p => ((w.writeSections p).1, (w.writeSections p).2.1)

/-! ## One call -/

/-- A block is taken whole, or a proper part of it and the output has failed. -/
theorem emit_cases (w : Writer δ) (block : List UInt8) :
    (∃ w', w.emit block = (.ok (), w') ∧ w.Grows [.whole block] w') ∨
      ∃ taken cause w', w.emit block = (.error (.file .write w.name cause), w') ∧
        w.Grows [.part block taken] w' := by
  unfold emit
  split
  next device hwrite =>
    exact .inl ⟨_, rfl, by simp [Emission.bytes], by simp [Emission.counted], rfl⟩
  next taken cause device hwrite =>
    exact .inr ⟨taken, cause, _, rfl, by simp [Emission.bytes], by simp [Emission.counted], rfl⟩

/-- What is emitted of sections that are written one after the other. -/
theorem emitSections_emits (w : Writer δ) (p : Program) (layout : Layout) (homes : List Section) :
    ∃ emissions, Image.SectionsEmit p layout homes (w.emitSections p layout homes).1 emissions ∧
      w.Grows emissions (w.emitSections p layout homes).2 := by
  induction homes generalizing w with
  | nil => exact ⟨[], .done, .refl w⟩
  | cons home rest ih =>
    rw [emitSections]
    cases hbytes : Image.sectionBytes p layout home with
    | error e => exact ⟨[], .refused hbytes, .refl w⟩
    | ok block =>
      dsimp only
      obtain ⟨w', hemit, hgrows⟩ | ⟨taken, cause, w', hemit, hgrows⟩ := w.emit_cases block
      · obtain ⟨emissions, hrest, hgrows'⟩ := ih w'
        rw [hemit]
        exact ⟨_, .taken hbytes hrest, hgrows.cons hgrows'⟩
      · rw [hemit]
        exact ⟨_, .stopped hbytes taken w.name cause, hgrows⟩

/-- What a call does: the output and the count grow by what such a call can emit, and a call that
goes well was due and takes the image one stage further. -/
inductive Performs (w : Writer δ) (c : Call) (emissions : List Emission) : Prop
  | failed {e : Error} {v : Writer δ} (hcall : w.call c = (.error e, v))
      (hemits : c.Emits (.error e) emissions) (hgrows : w.Grows emissions v)
  | wentWell {v : Writer δ} (hdue : w.stage = c.due)
      (hcall : w.call c = (.ok (), { v with stage := c.reaches }))
      (hemits : c.Emits (.ok ()) emissions) (hgrows : w.Grows emissions v)

/-- The header is refused if it is not due, if the program has no layout, or if a number does not
fit its field. -/
theorem writeHeader_refused
    (h : w.stage ≠ .empty ∨ p.layout = none ∨
      ∃ layout home, p.layout = some layout ∧ ¬ Image.Fits layout home) :
    ∃ fault, w.writeHeader p = (.error (.format fault), w) := by
  by_cases hstage : w.stage = .empty
  · obtain hne | hnone | ⟨layout, home, hlayout, hnot⟩ := h
    · exact absurd hstage hne
    · exact ⟨_, by rw [writeHeader, if_neg (not_not.mpr hstage), hnone]⟩
    · obtain ⟨fault, hfault⟩ := Image.header_error p.entry? ⟨home, hnot⟩
      exact ⟨fault, writeHeader_of_error hstage hlayout hfault⟩
  · exact ⟨_, writeHeader_of_ne_empty hstage⟩

/-- The sections are refused if they are not due, or if the program has no layout. -/
theorem writeSections_refused (h : w.stage ≠ .header ∨ p.layout = none) :
    ∃ fault, w.writeSections p = (.error (.format fault), w, []) := by
  unfold writeSections
  cases hstage : w.stage with
  | empty | done => exact ⟨_, rfl⟩
  | header =>
    obtain hne | hnone := h
    · exact absurd hstage hne
    · exact ⟨_, by rw [hnone]⟩

theorem exists_performs_header (w : Writer δ) (p : Program) :
    ∃ emissions, w.Performs (.header p) emissions := by
  by_cases hrefused : w.stage ≠ .empty ∨ p.layout = none ∨
      ∃ layout home, p.layout = some layout ∧ ¬ Image.Fits layout home
  · obtain ⟨fault, hfault⟩ := writeHeader_refused hrefused
    exact ⟨[], .failed hfault (.refused _ fault) (.refl w)⟩
  -- what is left is a header that exists, where it is due
  push Not at hrefused
  obtain ⟨hstage, hsome, hfits⟩ := hrefused
  obtain ⟨layout, hlayout⟩ := Option.ne_none_iff_exists'.mp hsome
  obtain ⟨block, hblock, -⟩ := Image.header_ok p.entry? fun home => hfits layout home hlayout
  obtain ⟨w', hemit, hgrows⟩ | ⟨taken, cause, w', hemit, hgrows⟩ := w.emit_cases block
  · refine ⟨_, .wentWell hstage (v := w') ?_ (.header hlayout hblock) hgrows⟩
    simp only [call, writeHeader, hstage, hlayout, hblock, hemit, ne_eq, not_true_eq_false,
      if_false, Call.reaches]
  · refine ⟨_, .failed (v := w') ?_ (.headerStopped hlayout hblock taken w.name cause) hgrows⟩
    simp only [call, writeHeader, hstage, hlayout, hblock, hemit, ne_eq, not_true_eq_false,
      if_false]

theorem exists_performs_sections (w : Writer δ) (p : Program) :
    ∃ emissions, w.Performs (.sections p) emissions := by
  by_cases hrefused : w.stage ≠ .header ∨ p.layout = none
  · obtain ⟨fault, hfault⟩ := writeSections_refused hrefused
    exact ⟨[], .failed (by rw [call, hfault]) (.refused _ fault) (.refl w)⟩
  push Not at hrefused
  obtain ⟨hstage, hsome⟩ := hrefused
  obtain ⟨layout, hlayout⟩ := Option.ne_none_iff_exists'.mp hsome
  obtain ⟨emissions, hemits, hgrows⟩ := w.emitSections_emits p layout Section.all
  rcases hemit : w.emitSections p layout Section.all with ⟨e | ⟨⟩, w'⟩
  · rw [hemit] at hemits hgrows
    refine ⟨emissions, .failed (v := w') ?_ (.sections hlayout hemits) hgrows⟩
    simp only [call, writeSections, hstage, hlayout, hemit]
  -- all sections were taken, and the output is flushed
  rw [hemit] at hemits hgrows
  rcases hflush : OutputDevice.flush w'.device with ⟨_ | cause, device⟩
  · refine ⟨emissions, .wentWell hstage (v := { w' with device }) ?_
      (.sections hlayout hemits) ⟨hgrows.output, hgrows.written, hgrows.stage⟩⟩
    simp only [call, writeSections, hstage, hlayout, hemit, hflush, Call.reaches]
  · refine ⟨emissions, .failed (v := { w' with device }) ?_
      (.unflushed hlayout hemits w'.name cause) ⟨hgrows.output, hgrows.written, hgrows.stage⟩⟩
    simp only [call, writeSections, hstage, hlayout, hemit, hflush]

theorem exists_performs (w : Writer δ) (c : Call) : ∃ emissions, w.Performs c emissions := by
  cases c with
  | header p => exact w.exists_performs_header p
  | sections p => exact w.exists_performs_sections p

namespace Performs

variable {c : Call} {emissions : List Emission}

theorem emits (h : w.Performs c emissions) : c.Emits (w.call c).1 emissions := by
  cases h with
  | failed hcall hemits | wentWell _ hcall hemits =>
    rw [hcall]
    exact hemits

theorem output (h : w.Performs c emissions) :
    (w.call c).2.output = w.output ++ emissions.flatMap Emission.bytes := by
  cases h with
  | failed hcall _ hgrows | wentWell _ hcall _ hgrows =>
    rw [hcall]
    exact hgrows.output

theorem written (h : w.Performs c emissions) :
    (w.call c).2.written = w.written + (emissions.map Emission.counted).sum := by
  cases h with
  | failed hcall _ hgrows | wentWell _ hcall _ hgrows =>
    rw [hcall]
    exact hgrows.written

end Performs

/-! ## Any calls -/

/-- The writer after calls, whatever they came to. -/
def after (w : Writer δ) (calls : List Call) : Writer δ :=
  calls.foldl (fun w c => (w.call c).2) w

/-- The calls with their outcomes. -/
def outcomes (w : Writer δ) : List Call → List (Call × Except Error Unit)
  | [] => []
  | c :: rest => (c, (w.call c).1) :: (w.call c).2.outcomes rest

/-- The stages that were reached by the calls that went well, in order. -/
def reached (results : List (Call × Except Error Unit)) : List Stage :=
  results.filterMap fun result =>
    match result.2 with
    | .ok () => some result.1.reaches
    | .error _ => none

/-- The stages behind a stage. -/
def ahead : Stage → List Stage
  | .empty => [.header, .done]
  | .header => [.done]
  | .done => []

theorem ahead_due (c : Call) : ahead c.due = c.reaches :: ahead c.reaches := by
  cases c <;> rfl

/-- Calls go through the stages that are ahead one after the other, and the stage is the last one
that was reached. -/
theorem reached_outcomes (w : Writer δ) (calls : List Call) :
    reached (w.outcomes calls) <+: ahead w.stage ∧
      (w.after calls).stage = (reached (w.outcomes calls)).getLastD w.stage := by
  induction calls generalizing w with
  | nil => exact ⟨List.nil_prefix, rfl⟩
  | cons c rest ih =>
    obtain ⟨hahead, hstage⟩ := ih (w.call c).2
    change _ ∧ ((w.call c).2.after rest).stage = _
    obtain ⟨emissions, hperforms⟩ := w.exists_performs c
    rw [outcomes]
    cases hperforms with
    | failed hcall _ hgrows =>
      rw [hcall] at hahead hstage ⊢
      rw [hgrows.stage] at hahead hstage
      exact ⟨hahead, hstage⟩
    | wentWell hdue hcall =>
      rw [hcall] at hahead hstage ⊢
      rw [hdue, ahead_due]
      refine ⟨List.cons_prefix_cons.mpr ⟨rfl, hahead⟩, hstage.trans ?_⟩
      exact (List.getLastD_cons ..).symm

/-- The emissions of calls, call by call, and what they come to at every moment. -/
theorem exists_history (w : Writer δ) (calls : List Call) :
    ∃ history : List (List Emission),
      List.Forall₂ (fun result emissions => result.1.Emits result.2 emissions)
        (w.outcomes calls) history ∧
      ∀ k,
        (w.after (calls.take k)).output =
          w.output ++ (history.take k).flatten.flatMap Emission.bytes ∧
        (w.after (calls.take k)).written =
          w.written + ((history.take k).flatten.map Emission.counted).sum := by
  induction calls generalizing w with
  | nil => exact ⟨[], .nil, fun k => by simp [after]⟩
  | cons c rest ih =>
    obtain ⟨emissions, hperforms⟩ := w.exists_performs c
    obtain ⟨history, hemits, hgrown⟩ := ih (w.call c).2
    refine ⟨emissions :: history, .cons hperforms.emits hemits, ?_⟩
    intro k
    cases k with
    | zero => simp [after]
    | succ k =>
      obtain ⟨houtput, hwritten⟩ := hgrown k
      change ((w.call c).2.after (rest.take k)).output = _ ∧
        ((w.call c).2.after (rest.take k)).written = _
      rw [houtput, hwritten, hperforms.output, hperforms.written]
      simp [Nat.add_assoc]

/-- A fresh writer after any calls, with any programs and on any output.
* The calls that went well are at most one that wrote the header and, behind it, at most one that
  wrote the sections.
* A further call for the header is refused for its format and changes nothing, if a call has gone
  well before, if its program has no layout, or if a number does not fit its field of 32 bits. The
  same holds of a call for the sections, unless the header and nothing else has been written, and if
  its program has no layout.
* At every moment the output holds what the calls so far have emitted, in order: the header with its
  table or single sections of the program of the call, each whole or, where the output failed, a
  proper part of it. The count is the length of the whole ones. -/
theorem calls_protocol (device : δ) (name : String) (calls : List Call) :
    let fresh : Writer δ := { device, name }
    let w := fresh.after calls
    let stages := reached (fresh.outcomes calls)
    (stages <+: [.header, .done] ∧ w.stage = stages.getLastD .empty) ∧
    (∀ p : Program,
      (stages ≠ [] ∨ p.layout = none ∨
        ∃ layout home, p.layout = some layout ∧ ¬ Image.Fits layout home) →
      ∃ fault, w.writeHeader p = (.error (.format fault), w)) ∧
    (∀ p : Program, (stages ≠ [.header] ∨ p.layout = none) →
      ∃ fault, w.writeSections p = (.error (.format fault), w, [])) ∧
    ∃ history : List (List Emission),
      List.Forall₂ (fun result emissions => result.1.Emits result.2 emissions)
        (fresh.outcomes calls) history ∧
      ∀ k,
        (fresh.after (calls.take k)).output =
          (history.take k).flatten.flatMap Emission.bytes ∧
        (fresh.after (calls.take k)).written =
          ((history.take k).flatten.map Emission.counted).sum := by
  intro fresh w stages
  obtain ⟨hahead, hstage⟩ : stages <+: [.header, .done] ∧ w.stage = stages.getLastD .empty :=
    fresh.reached_outcomes calls
  -- the stage tells which of the two calls have gone well
  have hcases : stages = [] ∨ stages = [.header] ∨ stages = [.header, .done] := by
    obtain h | ⟨t, h, ht⟩ := List.prefix_cons_iff.mp hahead
    · exact .inl h
    · obtain rfl | rfl : t = [] ∨ t = [.done] := by simpa [List.prefix_cons_iff] using ht
      · exact .inr (.inl h)
      · exact .inr (.inr h)
  have hempty : w.stage = .empty ↔ stages = [] := by
    obtain h | h | h := hcases <;> simp [hstage, h]
  have hheader : w.stage = .header ↔ stages = [.header] := by
    obtain h | h | h := hcases <;> simp [hstage, h]
  refine ⟨⟨hahead, hstage⟩, ?_, ?_, ?_⟩
  · exact fun p hp => writeHeader_refused (hp.imp_left (mt hempty.mp))
  · exact fun p hp => writeSections_refused (hp.imp_left (mt hheader.mp))
  · obtain ⟨history, hemits, hgrown⟩ := fresh.exists_history calls
    refine ⟨history, hemits, fun k => ?_⟩
    obtain ⟨houtput, hwritten⟩ := hgrown k
    exact ⟨houtput, by rw [hwritten]; exact Nat.zero_add _⟩

/-- An output that cannot be flushed and has room for 150 bytes. The sections are refused before the
header. Behind it they are taken and the flush fails, so that they can be written once more: only 6
bytes of the second text section are taken, and 112 and 32 bytes are counted. -/
theorem calls_protocol_of_failed_flush :
    let unresolved : Program := ({} : Program).mergeInstructions [{ op := .ret, line := 1 }]
    let p := (unresolved.resolve [] ({} : MemoryModules)).program
    let device : BoundedDevice :=
      { room := some 150, writeFault := "full", flushFault := some "full" }
    let calls : List Call := [.sections p, .header p, .sections p, .sections p]
    let fresh : Writer BoundedDevice := { device, name := "image" }
    reached (fresh.outcomes calls) = [.header] ∧ (fresh.after calls).output.length = 150 ∧
      (fresh.after calls).written = 144 ∧
      (∃ fault, (fresh.after calls).writeHeader p = (.error (.format fault), fresh.after calls)) ∧
      ∃ history : List (List Emission),
        history.length = 4 ∧
        (fresh.after calls).output = history.flatten.flatMap Emission.bytes ∧
        (fresh.after calls).written = (history.flatten.map Emission.counted).sum := by
  intro unresolved p device calls fresh
  have hreached : reached (fresh.outcomes calls) = [.header] := by decide +kernel
  obtain ⟨-, hheader, -, history, hemits, hgrown⟩ := calls_protocol device "image" calls
  have hlength : history.length = 4 := hemits.length_eq.symm
  have hall := hgrown 4
  rw [List.take_of_length_le hlength.le] at hall
  refine ⟨hreached, by decide +kernel, by decide +kernel, ?_, history, hlength, hall⟩
  exact hheader p (.inl (by rw [hreached]; decide))

end Writer

end AsmLinker
