import Mathlib
import AsmLinker.Proofs.Token.Lines
import AsmLinker.Proofs.Token.Reads
import AsmLinker.Proofs.Unit.UnknownCharacters

/-!
# Layout that makes no difference

How lines are ended makes no difference to what is assembled (`Assembly.assemble_line_endings`), and
neither do blanks and comments at their ends (`Assembly.assemble_trailing`).

An assembly knows its source only by the transcript of the scanner (`Assembly.assemble_congr`), and
the transcript can be read off a dissection. So both come down to changing the parts of a source
without changing what is answered to them (`Dissection.SameAnswers`). Where a source is refused
inside of a literal, the end of the line is to the literal like the end of the source
(`Literal.read_lineEnd`).
-/

namespace AsmLinker

open Rendering Dissection

namespace Assembly

/-! ## Sources with the same transcript -/

/-- Nothing behind an answer that is refused is taken. -/
theorem feedAll_untilRefused (a : Assembly) (context : Context)
    (answers : List (Except Error Token)) :
    a.feedAll context (TokenStream.untilRefused answers) = a.feedAll context answers := by
  fun_induction feedAll a context answers with
  | case1 => rfl
  | case2 a context e rest hfatal =>
    rw [TokenStream.untilRefused, TokenStream.refused, if_pos hfatal, feedAll, if_pos hfatal]
  | case3 a context e rest hfatal ih =>
    rw [TokenStream.untilRefused, TokenStream.refused, if_neg hfatal, feedAll, if_neg hfatal, ih]
  | case4 a context token rest e a' hfeed =>
    rw [TokenStream.untilRefused_cons rfl, feedAll, hfeed]
  | case5 a context token rest next a' hfeed ih =>
    rw [TokenStream.untilRefused_cons rfl, feedAll_ok_cons hfeed, ih]

/-- What is assembled can be read off the transcript of the source. -/
theorem exists_assemble_eq (path : String) (source : Source) :
    ∃ input, (ofSource path source).assemble =
      Prod.map (Except.map fun _ => ()) (withInput · input)
        ((ofSource path source).feedAll .statement
          (Scanner.transcript { source, origin := path, lineEnds := true })) := by
  obtain ⟨input, hrun⟩ := exists_run_eq (ofSource path source) .statement
    (ofSource path source).input.answers
  refine ⟨input, ?_⟩
  rw [Scanner.transcript, Scanner.map_answer_readings rfl, feedAll_untilRefused]
  exact hrun

/-- Sources with the same transcript are assembled in the same way. -/
theorem assemble_congr {path : String} {source source' : Source}
    (h : Scanner.transcript { source := source', origin := path, lineEnds := true } =
      Scanner.transcript { source, origin := path, lineEnds := true }) :
    ∃ input, (ofSource path source').assemble =
      Prod.map id (withInput · input) (ofSource path source).assemble := by
  obtain ⟨rest, hassemble⟩ := exists_assemble_eq path source
  obtain ⟨rest', hassemble'⟩ := exists_assemble_eq path source'
  refine ⟨rest', ?_⟩
  have hsame : ofSource path source' =
      (ofSource path source).withInput (ofSource path source').input := rfl
  rw [hassemble', hassemble, h, hsame, feedAll_withInput]
  rfl

end Assembly

namespace Dissection

/-! ## Parts that are answered alike -/

/-- The parts are the same, or both end a line, or both are comments. -/
inductive Part.Similar : Part → Part → Prop
  | refl (part : Part) : Similar part part
  | lineEnd (t t' : Terminator) : Similar (.lineEnd t) (.lineEnd t')
  | comment {body body' : List UInt8} (h : Unbroken body) (h' : Unbroken body') :
      Similar (.comment body h) (.comment body' h')

/-- The same is answered to the parts wherever they stand, if no comma follows them. -/
structure SameAnswers (parts parts' : List Part) : Prop where
  /-- A comma comes first in both or in neither. -/
  comma : commaFirst false parts' = commaFirst false parts
  /-- The answers are the same. -/
  answers : ∀ c, partAnswers c false parts' = partAnswers c false parts
  /-- The lines are counted in the same way. -/
  past : ∀ c : Cursor, c.pastAll parts' = c.pastAll parts

namespace SameAnswers

variable {parts parts' : List Part} {part part' : Part}

theorem refl (parts : List Part) : SameAnswers parts parts :=
  ⟨rfl, fun _ => rfl, fun _ => rfl⟩

theorem cons (hpart : part.Similar part') (h : SameAnswers parts parts') :
    SameAnswers (part :: parts) (part' :: parts') := by
  have hpast : ∀ c : Cursor, c.past part' = c.past part := by cases hpart <;> exact fun _ => rfl
  have hanswers : ∀ c comma, part'.answers c comma = part.answers c comma := by
    cases hpart <;> exact fun _ _ => rfl
  refine ⟨?_, fun c => ?_, fun c => ?_⟩
  · cases hpart with
    | lineEnd | comment => rfl
    | refl =>
      cases part with
      | blank => exact h.comma
      | comma | lineEnd | comment | item | unknown | malformed => rfl
  · rw [partAnswers, partAnswers, h.comma, h.answers, hpast, hanswers]
  · rw [Cursor.pastAll, Cursor.pastAll, List.foldl_cons, List.foldl_cons, hpast]
    exact h.past _

/-- A blank in front makes no difference. -/
theorem blank {b : UInt8} (hb : IsBlank b) (h : SameAnswers parts parts') :
    SameAnswers parts (.blank b hb :: parts') :=
  ⟨h.comma, h.answers, h.past⟩

/-- Nor does a comment, unless it stands before a comma. -/
theorem comment {body : List UInt8} (hbody : Unbroken body)
    (hcomma : commaFirst false parts = false) :
    SameAnswers parts (.comment body hbody :: parts) :=
  ⟨hcomma.symm, fun _ => rfl, fun _ => rfl⟩

end SameAnswers

/-! ## Other line ends -/

/-- The bytes with another terminator in place of each line feed. -/
def withTerminator (t : Terminator) (bytes : List UInt8) : List UInt8 :=
  bytes.flatMap fun b => if b = 0x0A then t.bytes else [b]

/-- The part with another terminator, if it ends a line. -/
def Part.withTerminator (t : Terminator) : Part → Part
  | .lineEnd _ => .lineEnd t
  | part => part

section

variable {t : Terminator} {bytes tail : List UInt8} {part : Part} {parts : List Part}

theorem withTerminator_append (t : Terminator) (first second : List UInt8) :
    withTerminator t (first ++ second) = withTerminator t first ++ withTerminator t second :=
  List.flatMap_append

theorem withTerminator_unbroken (h : Unbroken bytes) : withTerminator t bytes = bytes := by
  induction bytes with
  | nil => rfl
  | cons b rest ih =>
    obtain ⟨hb, hrest⟩ := List.forall_mem_cons.mp h
    have hfeed : ¬ b = 0x0A := fun hfeed => hb (.inl hfeed)
    rw [withTerminator, List.flatMap_cons, if_neg hfeed]
    exact congrArg (b :: ·) (ih hrest)

/-- What stops before some bytes also stops before them with other line ends. -/
theorem StopsAt.withTerminator {P : UInt8 → Prop} (hP : ∀ b, IsLineEnd b → P b)
    (h : StopsAt P bytes) : StopsAt P (withTerminator t bytes) := by
  cases bytes with
  | nil => exact stopsAt_nil P
  | cons b rest =>
    rw [Dissection.withTerminator, List.flatMap_cons]
    split
    · cases t with
      | lineFeed => exact stopsAt_cons.mpr (hP _ (.inl rfl))
      | carriageReturn | both => exact stopsAt_cons.mpr (hP _ (.inr rfl))
    · exact stopsAt_cons.mpr (stopsAt_cons.mp h)

theorem not_mem_withTerminator (bytes : List UInt8) :
    0x0A ∉ withTerminator .carriageReturn bytes := by
  intro hmem
  obtain ⟨b, -, hb⟩ := List.mem_flatMap.mp hmem
  split at hb
  · cases List.mem_singleton.mp hb
  · rename_i hfeed
    exact hfeed (List.mem_singleton.mp hb).symm

/-- Without carriage returns, line feeds are the only line ends. -/
theorem Part.bytes_withTerminator (h : 0x0D ∉ part.bytes) :
    (part.withTerminator t).bytes = Dissection.withTerminator t part.bytes := by
  cases part with
  | lineEnd t' =>
    cases t' with
    | lineFeed => exact (List.append_nil t.bytes).symm
    | carriageReturn | both => exact absurd List.mem_cons_self h
  | blank | comma | comment | item | unknown | malformed =>
    exact (withTerminator_unbroken (Part.unbroken rfl)).symm

theorem render_withTerminator (h : 0x0D ∉ render parts) :
    render (parts.map (Part.withTerminator t)) = withTerminator t (render parts) := by
  induction parts with
  | nil => rfl
  | cons part rest ih =>
    obtain ⟨hpart, hrest⟩ := not_or.mp (List.mem_append.not.mp h)
    rw [List.map_cons, render_cons, render_cons, withTerminator_append, ih hrest,
      Part.bytes_withTerminator hpart]

theorem Part.Ends.withTerminator (t : Terminator) (h : part.Ends bytes) :
    (part.withTerminator t).Ends (Dissection.withTerminator t bytes) := by
  cases part with
  | lineEnd =>
    cases t with
    | carriageReturn =>
      -- no line feed is left that could belong to it
      rintro b hb rfl
      exact not_mem_withTerminator bytes (List.mem_of_mem_head? hb)
    | lineFeed | both => trivial
  | item => exact h.imp_right (StopsAt.withTerminator fun _ hb => .inr (.inr (.inl hb)))
  | comment => exact StopsAt.withTerminator (fun _ hb => hb) h
  | malformed => exact StopsAt.withTerminator (fun _ hb => .inl (.inr (.inr (.inl hb)))) h
  | blank | comma | unknown => trivial

theorem Joined.withTerminator (t : Terminator) (hreturn : 0x0D ∉ render parts)
    (h : Joined parts tail) :
    Joined (parts.map (Part.withTerminator t)) (withTerminator t tail) := by
  induction parts with
  | nil => trivial
  | cons part rest ih =>
    obtain ⟨hends, hrest⟩ := h
    have hmore : 0x0D ∉ render rest := (not_or.mp (List.mem_append.not.mp hreturn)).2
    refine ⟨?_, ih hmore hrest⟩
    rw [render_withTerminator hmore, ← withTerminator_append]
    exact hends.withTerminator t

theorem SameAnswers.withTerminator (t : Terminator) (parts : List Part) :
    SameAnswers parts (parts.map (Part.withTerminator t)) := by
  induction parts with
  | nil => exact .refl []
  | cons part rest ih =>
    refine .cons ?_ ih
    cases part with
    | lineEnd => exact .lineEnd _ _
    | blank | comma | comment | item | unknown | malformed => exact .refl _

end

/-- A literal is read up to the end of its line at most. -/
theorem read_of_stopsAt (line : List UInt8) {after : List UInt8} (h : StopsAt IsLineEnd after) :
    (Literal.read ((line ++ after).map .byte)).1 = (Literal.read (line.map .byte)).1 := by
  cases after with
  | nil => rw [List.append_nil]
  | cons b rest =>
    rw [List.map_append]
    exact Literal.read_lineEnd _ _ (stopsAt_cons.mp h)

/-- What is refused is refused with other line ends behind it, too, and with the same answer. -/
theorem Ending.exists_withTerminator (t : Terminator) (ending : Ending) :
    ∃ ending' : Ending, ending'.bytes = withTerminator t ending.bytes ∧
      ∀ line, ending'.answer line = ending.answer line := by
  have hcut : ∀ b, IsLineEnd b → IsCut b := fun _ hb => .inr (.inr (.inl hb))
  cases ending with
  | file => exact ⟨.file, rfl, fun _ => rfl⟩
  | numeral digits hne hdigits hvalue after hafter =>
    refine ⟨.numeral digits hne hdigits hvalue _ (hafter.withTerminator (t := t) hcut), ?_,
      fun _ => rfl⟩
    have hunbroken : Unbroken digits := (Start.digits digits hne hdigits).unbroken
    rw [Ending.bytes, Ending.bytes, withTerminator_append, withTerminator_unbroken hunbroken]
  | period after hafter =>
    exact ⟨.period _ (hafter.withTerminator (t := t) hcut), rfl, fun _ => rfl⟩
  | literal body fault rest hread =>
    -- the literal is refused for what stands on its line
    obtain ⟨line, after, rfl, hline, hafter⟩ := exists_run (fun b => ¬ IsLineEnd b) body
    have hstops : StopsAt IsLineEnd after := fun b hb => not_not.mp (hafter b hb)
    have hread' : (Literal.read ((withTerminator t (line ++ after)).map .byte)).1 =
        .error (.malformed fault) := by
      rw [withTerminator_append, withTerminator_unbroken hline,
        read_of_stopsAt line (hstops.withTerminator fun _ hb => hb), ← read_of_stopsAt line hstops,
        hread]
    exact ⟨.literal _ fault _ (Prod.ext hread' rfl), rfl, fun _ => rfl⟩

/-- Every source without carriage returns is answered in the same way with other line ends. -/
theorem answers_withTerminator (t : Terminator) (d : Dissection) (h : 0x0D ∉ d.bytes) :
    ∃ d' : Dissection, d'.bytes = withTerminator t d.bytes ∧ ∀ c, d'.answers c = d.answers c := by
  obtain ⟨hparts, -⟩ := not_or.mp (List.mem_append.not.mp h)
  obtain ⟨ending, hbytes, hanswer⟩ := d.ending.exists_withTerminator t
  have hsame := SameAnswers.withTerminator t d.parts
  have hjoined := d.joined.withTerminator t hparts
  rw [← hbytes] at hjoined
  refine ⟨⟨_, ending, hjoined⟩, ?_, fun c => ?_⟩
  · rw [Dissection.bytes, Dissection.bytes, withTerminator_append, ← hbytes,
      render_withTerminator hparts]
  · rw [Dissection.answers, Dissection.answers, hsame.answers, hsame.past, hanswer]

/-! ## The ends of lines -/

/-- Blanks, and possibly a comment behind them. -/
inductive IsTrailing : List UInt8 → Prop
  | nil : IsTrailing []
  | comment {body : List UInt8} (h : Unbroken body) : IsTrailing (0x23 :: body)
  | blank {b : UInt8} {rest : List UInt8} (hb : IsBlank b) (h : IsTrailing rest) :
      IsTrailing (b :: rest)

section

variable {trailing before after : List UInt8} {part : Part} {parts first second : List Part}

theorem IsTrailing.unbroken (h : IsTrailing trailing) : Unbroken trailing := by
  induction h with
  | nil => exact List.forall_mem_nil _
  | comment hbody => exact List.forall_mem_cons.mpr ⟨by decide, hbody⟩
  | blank hb _ ih => exact List.forall_mem_cons.mpr ⟨not_isLineEnd_of_isBlank hb, ih⟩

theorem IsTrailing.stopsAt {P : UInt8 → Prop} (h : IsTrailing trailing)
    (hblank : ∀ b, IsBlank b → P b) (hhash : P 0x23) (hafter : StopsAt P after) :
    StopsAt P (trailing ++ after) := by
  cases h with
  | nil => exact hafter
  | comment => exact stopsAt_cons.mpr hhash
  | blank hb => exact stopsAt_cons.mpr (hblank _ hb)

/-- A part other than a comment ends before blanks and comments if it ends before the end of the
line. -/
theorem Part.Ends.behind (hpart : ∀ body h, part ≠ .comment body h) (h : IsTrailing trailing)
    (hends : part.Ends after) : part.Ends (trailing ++ after) := by
  have hcut : ∀ b, IsBlank b → IsCut b := fun _ hb => .inl hb
  have hhash : IsCut 0x23 := .inr (.inr (.inr rfl))
  cases part with
  | comment body hbody => exact absurd rfl (hpart body hbody)
  | item => exact hends.imp_right (h.stopsAt hcut hhash)
  | malformed => exact h.stopsAt (fun b hb => .inl (hcut b hb)) (.inl hhash) hends
  | lineEnd t =>
    cases t with
    | carriageReturn =>
      refine h.stopsAt (fun b hb hfeed => ?_) (by decide) hends
      exact not_isLineEnd_of_isBlank hb (.inl hfeed)
    | lineFeed | both => trivial
  | blank | comma | unknown => trivial

/-- No comma comes first at the end of a line. -/
theorem commaFirst_of_stopsAt (h : StopsAt IsLineEnd (render parts)) :
    commaFirst false parts = false := by
  cases parts with
  | nil => rfl
  | cons part rest =>
    cases part with
    | blank b hb => exact absurd (stopsAt_cons.mp h) (not_isLineEnd_of_isBlank hb)
    | comma => exact absurd (stopsAt_cons.mp h) (by decide)
    | lineEnd | comment | item | unknown | malformed => rfl

/-- Blanks and a comment can be put before the end of a line. -/
theorem IsTrailing.exists_parts (h : IsTrailing trailing) (hjoined : Joined parts [])
    (hstops : StopsAt IsLineEnd (render parts)) :
    ∃ parts', render parts' = trailing ++ render parts ∧ Joined parts' [] ∧
      SameAnswers parts parts' := by
  induction h with
  | nil => exact ⟨parts, rfl, hjoined, .refl parts⟩
  | comment hbody =>
    refine ⟨.comment _ hbody :: parts, rfl, ⟨?_, hjoined⟩,
      .comment hbody (commaFirst_of_stopsAt hstops)⟩
    rw [List.append_nil]
    exact hstops
  | blank hb _ ih =>
    obtain ⟨parts', hrender, hjoined', hsame⟩ := ih
    exact ⟨.blank _ hb :: parts', congrArg (_ :: ·) hrender, ⟨trivial, hjoined'⟩, hsame.blank hb⟩

/-- They can also be put behind parts that end there. A comment among them takes them in. -/
theorem IsTrailing.exists_between (h : IsTrailing trailing) (hjoined : Joined (first ++ second) [])
    (hstops : StopsAt IsLineEnd (render second)) :
    ∃ parts', render parts' = render first ++ trailing ++ render second ∧ Joined parts' [] ∧
      SameAnswers (first ++ second) parts' := by
  induction first with
  | nil => exact h.exists_parts hjoined hstops
  | cons part rest ih =>
    obtain ⟨hends, hrest⟩ := hjoined
    obtain ⟨parts', hrender, hjoined', hsame⟩ := ih hrest
    rw [List.append_eq, List.append_nil, render_append] at hends
    -- it is enough that the part itself ends before what follows it now
    have hkept (hends' : part.Ends (render rest ++ trailing ++ render second)) :
        ∃ parts', render parts' = render (part :: rest) ++ trailing ++ render second ∧
          Joined parts' [] ∧ SameAnswers (part :: rest ++ second) parts' := by
      refine ⟨part :: parts', ?_, ⟨?_, hjoined'⟩, .cons (.refl part) hsame⟩
      · simp [hrender]
      · rw [List.append_nil, hrender]
        exact hends'
    cases hbytes : render rest with
    | cons b more =>
      rw [hbytes] at hends hkept
      exact hkept (Part.Ends.imp hends fun _ hstop => stopsAt_cons.mpr (stopsAt_cons.mp hstop))
    | nil =>
      rw [hbytes] at hends hkept
      cases part with
      | blank | comma | lineEnd | item | unknown | malformed =>
        exact hkept (Part.Ends.behind nofun h hends)
      | comment body hbody =>
        -- what is put behind a comment belongs to it
        have hmore : Unbroken (body ++ trailing) :=
          List.forall_mem_append.mpr ⟨hbody, h.unbroken⟩
        refine ⟨.comment (body ++ trailing) hmore :: (rest ++ second), ?_, ⟨?_, hrest⟩,
          .cons (.comment hbody hmore) (.refl _)⟩
        · simp [hbytes, Part.bytes]
        · rw [List.append_nil, render_append, hbytes]
          exact hends

/-- Only a terminator of two bytes has a line end behind its first byte. -/
theorem Part.of_isLineEnd_inside {b : UInt8} {rest : List UInt8} (hne : before ≠ [])
    (hpart : part.bytes = before ++ b :: rest) (hb : IsLineEnd b) :
    before = [0x0D] ∧ b = 0x0A := by
  have hline : part.isLineEnd = true := by
    rw [← Bool.not_eq_false]
    intro hline
    refine Part.unbroken hline b ?_ hb
    rw [hpart]
    exact List.mem_append_right before List.mem_cons_self
  obtain ⟨first, more, rfl⟩ := List.exists_cons_of_ne_nil hne
  cases part with
  | lineEnd t =>
    cases t with
    | lineFeed | carriageReturn => simp [Part.bytes, Terminator.bytes] at hpart
    | both =>
      obtain ⟨rfl, hmore⟩ := List.cons_eq_cons.mp hpart
      obtain ⟨rfl, hsame⟩ | ⟨_, -, hsame⟩ := List.singleton_eq_append_iff.mp hmore
      exact ⟨rfl, (List.cons_eq_cons.mp hsame).1⟩
  | blank | comma | comment | item | unknown | malformed => cases hline

/-- Parts can be split before the end of a line, unless it is the second half of a terminator. -/
theorem exists_split (hrender : render parts = before ++ after) (hstops : StopsAt IsLineEnd after)
    (hpair : ¬ (before.getLast? = some 0x0D ∧ after.head? = some 0x0A)) :
    ∃ first second, parts = first ++ second ∧ render first = before ∧ render second = after := by
  induction parts generalizing before with
  | nil =>
    obtain ⟨rfl, rfl⟩ := List.append_eq_nil_iff.mp hrender.symm
    exact ⟨[], [], rfl, rfl, rfl⟩
  | cons part rest ih =>
    rcases List.append_eq_append_iff.mp hrender with ⟨more, rfl, hrest⟩ | ⟨half, hpart, rfl⟩
    · -- the part stands before the place
      obtain ⟨first, second, rfl, rfl, rfl⟩ := ih hrest fun ⟨hlast, hfeed⟩ =>
        hpair ⟨by rw [List.getLast?_append, hlast]; rfl, hfeed⟩
      exact ⟨part :: first, second, rfl, rfl, rfl⟩
    · cases before with
      | nil => exact ⟨[], part :: rest, rfl, rfl, by rw [render_cons, hpart]; rfl⟩
      | cons b before =>
        cases half with
        | nil => exact ⟨[part], rest, rfl, by simpa using hpart, rfl⟩
        | cons b' half =>
          have hsplit := Part.of_isLineEnd_inside (List.cons_ne_nil b before) hpart
            (stopsAt_cons.mp hstops)
          exact absurd ⟨by rw [hsplit.1]; rfl, by rw [hsplit.2]; rfl⟩ hpair

/-- Blanks and a comment at the end of a line of a source make no difference to what is answered. -/
theorem IsTrailing.exists_inserted (h : IsTrailing trailing) (hjoined : Joined parts [])
    (hrender : render parts = before ++ after) (hstops : StopsAt IsLineEnd after)
    (hpair : ¬ (before.getLast? = some 0x0D ∧ after.head? = some 0x0A)) :
    ∃ parts', render parts' = before ++ trailing ++ after ∧ Joined parts' [] ∧
      SameAnswers parts parts' := by
  obtain ⟨first, second, rfl, rfl, rfl⟩ := exists_split hrender hstops hpair
  exact h.exists_between hjoined hstops

end

end Dissection

namespace Assembly

/-- How lines end makes no difference. A source without carriage returns is assembled in the same
way if each of its line feeds is replaced by a carriage return, or by a carriage return and a line
feed: the outcome is the same, with the line and the fault of an error, the same is held in the end,
and the same is reported. -/
theorem assemble_line_endings (path : String) (t : Terminator) {bytes : List UInt8}
    (hreturn : 0x0D ∉ bytes) :
    let plain := ofSource path (.ofBytes bytes)
    let changed := ofSource path (.ofBytes (withTerminator t bytes))
    changed.assemble.1 = plain.assemble.1 ∧
      changed.assemble.2.unit = plain.assemble.2.unit ∧
      changed.assemble.2.warnings = plain.assemble.2.warnings ∧
      changed.log changed.assemble.2 changed.assemble.1 =
        plain.log plain.assemble.2 plain.assemble.1 := by
  intro plain changed
  obtain ⟨d, rfl⟩ := exists_dissection bytes
  obtain ⟨d', hbytes, hanswers⟩ := answers_withTerminator t d hreturn
  have htranscript := transcript_start path d'
  rw [hanswers, ← transcript_start path d, hbytes] at htranscript
  obtain ⟨input, hchanged⟩ := assemble_congr htranscript
  have hsame : changed.assemble = Prod.map id (withInput · input) plain.assemble := hchanged
  rw [hsame]
  exact ⟨rfl, rfl, rfl, rfl⟩

/-- A comment and an unknown character stand before line ends, and the third line ends inside of a
literal. -/
theorem assemble_line_endings_inside_literal :
    let plain := ofSource "unit" (.ofBytes (utf8 "ret # end\n$\nf: .ascii \"open\n"))
    let changed := ofSource "unit" (.ofBytes (utf8 "ret # end\r\n$\r\nf: .ascii \"open\r\n"))
    0x0D ∉ utf8 "ret # end\n$\nf: .ascii \"open\n" ∧
      plain.assemble.1 = .error (.source 3 .unterminatedString) ∧
      changed.assemble.1 = .error (.source 3 .unterminatedString) ∧
      changed.assemble.2.unit = plain.assemble.2.unit ∧
      changed.assemble.2.warnings = plain.assemble.2.warnings ∧
      plain.assemble.2.warnings = [.lexical 2 '$'] := by
  intro plain changed
  have hreturn : 0x0D ∉ utf8 "ret # end\n$\nf: .ascii \"open\n" := by decide +kernel
  have hplain : plain.assemble.1 = .error (.source 3 .unterminatedString) := by decide +kernel
  have hbytes : withTerminator .both (utf8 "ret # end\n$\nf: .ascii \"open\n") =
      utf8 "ret # end\r\n$\r\nf: .ascii \"open\r\n" := by decide +kernel
  obtain ⟨hresult, hunit, hwarnings, -⟩ := assemble_line_endings "unit" .both hreturn
  rw [hbytes] at hresult hunit hwarnings
  exact ⟨hreturn, hplain, hresult.trans hplain, hunit, hwarnings, by decide +kernel⟩

/-- Blanks and comments at the ends of lines make no difference. A source can be assembled, and
blanks, possibly with a comment behind them, are put before one of its line ends or at its very end.
It can be assembled then, too, into the same unit and with the same warnings. -/
theorem assemble_trailing {path : String} {before trailing after : List UInt8} {a : Assembly}
    (htrailing : IsTrailing trailing) (hstops : StopsAt IsLineEnd after)
    (hpair : ¬ (before.getLast? = some 0x0D ∧ after.head? = some 0x0A))
    (h : (ofSource path (.ofBytes (before ++ after))).assemble = (.ok (), a)) :
    ∃ a', (ofSource path (.ofBytes (before ++ trailing ++ after))).assemble = (.ok (), a') ∧
      a'.unit = a.unit ∧ a'.warnings = a.warnings := by
  obtain ⟨d, hd⟩ := exists_dissection (before ++ after)
  rw [← hd] at h
  have hending := ending_of_assemble h
  obtain ⟨parts, ending, hjoined⟩ := d
  obtain rfl : ending = .file := hending
  rw [Dissection.bytes, Ending.bytes, List.append_nil] at hd
  obtain ⟨parts', hrender, hjoined', hsame⟩ :=
    htrailing.exists_inserted hjoined hd hstops hpair
  let d' : Dissection := ⟨parts', .file, hjoined'⟩
  have htranscript := transcript_start path d'
  have hanswers : d'.answers .start = Dissection.answers ⟨parts, .file, hjoined⟩ .start := by
    rw [Dissection.answers, Dissection.answers, hsame.answers, hsame.past]
  have hbytes : d'.bytes = before ++ trailing ++ after := by
    rw [Dissection.bytes, Ending.bytes, List.append_nil, hrender]
  rw [hanswers, ← transcript_start path, hbytes] at htranscript
  obtain ⟨input, hchanged⟩ := assemble_congr htranscript
  rw [hchanged, h]
  exact ⟨a.withInput input, rfl, rfl, rfl⟩

/-- A number waits for its comma at the end of the line, and a comma in a comment is not for it. -/
theorem assemble_trailing_comma_in_comment :
    let before := utf8 "mov x0, 1"
    let after := utf8 "\r\nret"
    ∃ a a', (ofSource "unit" (.ofBytes (before ++ after))).assemble = (.ok (), a) ∧
      (ofSource "unit" (.ofBytes (before ++ [0x09, 0x20, 0x23, 0x2C, 0x22] ++ after))).assemble =
        (.ok (), a') ∧
      a'.unit = a.unit ∧ a'.warnings = a.warnings ∧ a.unit.instructions.length = 2 := by
  intro before after
  have htrailing : IsTrailing [0x09, 0x20, 0x23, 0x2C, 0x22] :=
    .blank (.inr rfl) (.blank (.inl rfl) (.comment (by simp [Unbroken, IsLineEnd])))
  have hassembled : (ofSource "unit" (.ofBytes (before ++ after))).assemble =
      (.ok (), (ofSource "unit" (.ofBytes (before ++ after))).assemble.2) :=
    Prod.ext (by decide +kernel) rfl
  obtain ⟨a', hchanged, hunit, hwarnings⟩ := assemble_trailing htrailing
    (stopsAt_cons.mpr (.inr rfl)) (by decide +kernel) hassembled
  exact ⟨_, a', hassembled, hchanged, hunit, hwarnings, by decide +kernel⟩

end Assembly

end AsmLinker
