import Mathlib
import AsmLinker.Proofs.Token.Transcript

/-!
# Scanning a dissected source

The transcript of a scanner between two lexemes is what a dissection of its source says
(`Dissection.transcript_eq_answers`). Every source has one, so that whatever can be seen in the
answers of a dissection holds of every scanner whose reads do not fail.

The proof goes over the parts from the last to the first. `Tells` says what the automaton answers
from a mode on; a part is put in front of what is told behind it. An item is told together with
what stands behind it, since its token waits for a comma.

Two things follow at once. A malformed lexeme costs one error and nothing else
(`Dissection.scan_malformed`), and whether the ends of lines are answered changes no other answer
(`Dissection.transcript_lineEnds`).
-/

namespace AsmLinker

open Rendering Scanner

namespace Dissection

/-- The scanner has counted its lines so far. -/
structure Cursor.Fits (c : Cursor) (s : Scanner) : Prop where
  /-- Both answer the ends of lines, or neither does. -/
  lineEnds : s.lineEnds = c.lineEnds
  /-- They are on the same line. -/
  line : s.line = c.line
  /-- They agree on whether a token stands on it. -/
  isOpen : s.lineHasTokens = c.isOpen

/-- From this mode on, with these bytes left, the answers are given. -/
def Tells (c : Cursor) (mode : Mode) (bytes : List UInt8)
    (answers : List (Except Error Token)) : Prop :=
  ∀ s, c.Fits s → s.source.pending = bytes.map .byte → transcriptBehind (s.resume mode) = answers

variable {c : Cursor} {mode mode' : Mode} {b : UInt8} {bytes after : List UInt8} {token : Token}
  {lexeme : Lexeme} {answers : List (Except Error Token)} {s : Scanner}

namespace Tells

/-- Between two requests it is the mode of the scanner that counts. -/
theorem transcript_eq (h : Tells c mode bytes answers) (hs : c.Fits s) (hmode : s.mode = mode)
    (hresting : mode.resting = true) (hpending : s.source.pending = bytes.map .byte) :
    s.transcript = answers := by
  rw [Scanner.transcript_eq (by rw [hmode]; exact hresting), scan, hmode]
  exact h s hs hpending

/-- Bytes that are passed over tell nothing. -/
theorem passes_iff {first : List UInt8} (hpasses : Passes c.line mode first mode') :
    Tells c mode (first ++ bytes) answers ↔ Tells c mode' bytes answers := by
  constructor
  · intro h s hs hpending
    have hbehind := h { s with source := ⟨none, (first ++ bytes).map .byte⟩ }
      ⟨hs.lineEnds, hs.line, hs.isOpen⟩ rfl
    rw [hpasses { s with source := ⟨none, (first ++ bytes).map .byte⟩ } bytes hs.line rfl]
      at hbehind
    rw [resume_of_pending mode' hpending]
    exact hbehind
  · intro h s hs hpending
    rw [hpasses s bytes hs.line hpending]
    exact h _ ⟨hs.lineEnds, hs.line, hs.isOpen⟩ rfl

/-- At the end of the bytes the end of the file is told. -/
theorem nil (c : Cursor) (hresting : mode.resting = true) :
    Tells c mode [] [.ok (.endOfFile c.line)] := by
  intro s hs hpending
  rw [resume_nil mode hpending, ← hs.line]
  cases mode with
  | initial | skipping | exhausted => rfl
  | identifier | digits | directive | held => cases hresting

theorem eq_of_nil (h : Tells c .initial [] answers) : answers = [.ok (.endOfFile c.line)] := by
  have hfits : c.Fits ⟨⟨none, []⟩, "", c.lineEnds, .initial, c.line, c.isOpen⟩ := ⟨rfl, rfl, rfl⟩
  rw [← h _ hfits rfl, nil c rfl _ hfits rfl]

/-- A byte with which a token is answered, and which may be left for later. -/
theorem emit (hends : token.endsLine = false)
    (hstep : ∀ s : Scanner, s.line = c.line → s.source = ⟨none, bytes.map .byte⟩ →
      ∃ source, s.step mode b = .emit token .initial { s with source } ∧
        source.pending = after.map .byte)
    (h : Tells { c with isOpen := true } .initial after answers) :
    Tells c mode (b :: bytes) (.ok token :: answers) := by
  intro s hs hpending
  obtain ⟨source, heq, hsource⟩ :=
    hstep { s with source := ⟨none, bytes.map .byte⟩ } hs.line rfl
  rw [resume_byte mode hpending, heq]
  dsimp only
  rw [transcriptBehind_ok (.inl hends)]
  have hopen : (answered { s with source } token .initial).lineHasTokens = true := by
    rw [lineHasTokens_answered .initial (.inl hends)]
    apply decide_eq_true
    intro hlexeme
    simp [Token.endsLine, hlexeme] at hends
  exact congrArg _ (h.transcript_eq ⟨hs.lineEnds, hs.line, hopen⟩ rfl rfl hsource)

/-- A byte that is unknown in this mode. -/
theorem unknown (hunknown : action mode.state (CharClass.of b) = .unknown)
    (h : Tells c (if mode = .initial then .initial else .skipping) bytes answers) :
    Tells c mode (b :: bytes) (.error (.lexical c.line (Char.ofUInt8 b)) :: answers) := by
  intro s hs hpending
  rw [resume_byte mode hpending, step, hunknown]
  dsimp only
  rw [transcriptBehind_unknown rfl, ← hs.line]
  -- only the mode changes
  exact congrArg _ (h.transcript_eq ⟨hs.lineEnds, hs.line, hs.isOpen⟩ rfl (resting_ite mode) rfl)

/-- A byte at which the lexeme before it is refused. -/
theorem refused {fault : SourceFault}
    (hstep : ∀ s : Scanner, s.source = ⟨none, bytes.map .byte⟩ →
      ∃ s', s.step mode b = .fail (s.fault fault) s') :
    Tells c mode (b :: bytes) [.error (.source c.line fault)] := by
  intro s hs hpending
  obtain ⟨s', heq⟩ := hstep { s with source := ⟨none, bytes.map .byte⟩ } rfl
  rw [resume_byte mode hpending, heq, ← hs.line]
  exact transcriptBehind_fatal rfl

end Tells

/-! ## What parts begin with -/

/-- The byte is no blank and no comma. -/
def IsOther (b : UInt8) : Prop :=
  CharClass.of b ≠ .whitespace ∧ CharClass.of b ≠ .comma

theorem isOther_of_isWordByte (h : IsWordByte b) : IsOther b := by
  rcases h with (h | h) | h <;> rw [IsOther, h] <;> decide

theorem Start.stopsAt (start : Start) (after : List UInt8) :
    StopsAt IsOther (start.bytes ++ after) := by
  cases start with
  | word name =>
    exact stopsAt_cons.mpr (isOther_of_isWordByte (name.isWordByte _ List.mem_cons_self))
  | digits bytes hne hbytes =>
    obtain ⟨b, rest, rfl⟩ := List.exists_cons_of_ne_nil hne
    exact stopsAt_cons.mpr
      (isOther_of_isWordByte (.inr (class_of_isDigit b (hbytes b List.mem_cons_self))))
  | directive bytes hbytes => exact stopsAt_cons.mpr ⟨by decide, by decide⟩

/-- Only a blank and a comma go on with what separates a token from its comma. -/
theorem Part.stopsAt {part : Part} (hblank : ∀ b h, part ≠ .blank b h) (hcomma : part ≠ .comma)
    (after : List UInt8) : StopsAt IsOther (part.bytes ++ after) := by
  cases part with
  | blank b h => exact absurd rfl (hblank b h)
  | comma => exact absurd rfl hcomma
  | lineEnd t => cases t <;> exact stopsAt_cons.mpr ⟨by decide, by decide⟩
  | comment body h => exact stopsAt_cons.mpr ⟨by decide, by decide⟩
  | item i => exact fun b hb => ⟨(i.begins after b hb).1, (i.begins after b hb).2.1⟩
  | unknown b h =>
    have hother : IsOther b := by
      constructor <;> intro hclass <;> rw [hclass] at h <;> cases h
    exact stopsAt_cons.mpr hother
  | malformed start b rest h hrest =>
    rw [Part.bytes, List.append_assoc]
    exact start.stopsAt _

theorem Ending.stopsAt (ending : Ending) : StopsAt IsOther ending.bytes := by
  cases ending with
  | file => exact stopsAt_nil _
  | numeral digits hne hdigits hvalue after hafter =>
    exact (Start.digits digits hne hdigits).stopsAt after
  | period after hafter => exact stopsAt_cons.mpr ⟨by decide, by decide⟩
  | literal body fault rest hread => exact stopsAt_cons.mpr ⟨by decide, by decide⟩

/-! ## Tokens -/

/-- The token of an item that has been read is answered before anything but a blank or a comma. -/
theorem tells_last (hready : Position.Ready lexeme c.line mode)
    (hends : ∀ comma, Token.endsLine { lexeme, comma, line := c.line } = false)
    (hother : StopsAt IsOther bytes)
    (hcut : mode = .held ⟨lexeme, false, c.line⟩ ∨ StopsAt IsCut bytes)
    (hrest : Tells { c with isOpen := true } .initial bytes answers) :
    Tells c mode bytes (.ok { lexeme, line := c.line } :: answers) := by
  cases bytes with
  | nil =>
    -- the source is exhausted, and then only the end of the file is left to answer
    rw [hrest.eq_of_nil]
    intro s hs hpending
    have hfinish : s.finish mode =
        (.ok ⟨lexeme, false, c.line⟩, { s with mode := .exhausted }) := by
      rw [← hs.line] at hready ⊢
      exact hready.finish_eq
    rw [resume_nil mode hpending, hfinish, transcriptBehind_ok (.inl (hends false))]
    exact congrArg _ ((Tells.nil c rfl).transcript_eq (s := { s with mode := .exhausted })
      ⟨hs.lineEnds, hs.line, hs.isOpen⟩ rfl rfl hpending)
  | cons b rest =>
    obtain ⟨hblank, hcomma⟩ := stopsAt_cons.mp hother
    refine .emit (hends false) (fun s hline hsource => ⟨s.source.unread b, ?_, ?_⟩) hrest
    · rcases hcut with rfl | hcut
      · exact Position.step_held s hblank hcomma
      · rw [← hline] at hready ⊢
        refine hready.step_before ?_
        obtain h | h | h := (isCut_iff b).mp (stopsAt_cons.mp hcut)
        · exact absurd h hblank
        · exact absurd h hcomma
        · exact h
    · rw [hsource]
      rfl

/-- The token of an item that has been read, with the comma that comes first behind it. -/
theorem tells_token {parts : List Part} {ending : Ending}
    (hready : Position.Ready lexeme c.line mode)
    (hends : ∀ comma, Token.endsLine { lexeme, comma, line := c.line } = false)
    (hcut : mode = .held ⟨lexeme, false, c.line⟩ ∨ StopsAt IsCut (render parts ++ ending.bytes))
    (hrest : Tells { c with isOpen := true } .initial (render parts ++ ending.bytes) answers) :
    Tells c mode (render parts ++ ending.bytes)
      (.ok { lexeme, comma := commaFirst false parts, line := c.line } :: answers) := by
  induction parts generalizing mode with
  | nil => exact tells_last hready hends ending.stopsAt hcut hrest
  | cons part rest ih =>
    rw [render_cons, List.append_assoc] at hcut hrest ⊢
    cases part with
    | blank b hb =>
      -- the blank is behind the token as well as between two lexemes
      have hskip := (Tells.passes_iff (.skip (.inl (class_of_isBlank hb)))).mp hrest
      exact (Tells.passes_iff (hready.passes_blank hb)).mpr (ih .held (.inl rfl) hskip)
    | comma =>
      have hskip := (Tells.passes_iff (.skip (.inr (by decide)))).mp hrest
      refine .emit (hends true) (fun s hline hsource => ⟨s.source, ?_, ?_⟩) hskip
      · rw [← hline] at hready ⊢
        exact hready.step_comma
      · rw [hsource]
        rfl
    | lineEnd | comment | item | unknown | malformed =>
      exact tells_last hready hends (Part.stopsAt (by simp) (by simp) _) hcut hrest

/-! ## Line ends, comments and malformed lexemes -/

/-- A line terminator is read whole, and what stands behind it is still pending. -/
theorem Terminator.exists_terminator {t : Terminator} (hends : (Part.lineEnd t).Ends after) :
    ∃ b more source, t.bytes = b :: more ∧ IsLineEnd b ∧
      terminator ⟨none, (more ++ after).map .byte⟩ b = (none, source) ∧
      source.pending = after.map .byte := by
  cases t with
  | lineFeed => exact ⟨0x0A, [], _, rfl, .inl rfl, rfl, rfl⟩
  | both => exact ⟨0x0D, [0x0A], _, rfl, .inr rfl, rfl, rfl⟩
  | carriageReturn =>
    obtain ⟨source, hterminator, hpending⟩ :=
      @Scanner.exists_terminator 0x0D after fun h => hends _ h.2 rfl
    exact ⟨0x0D, [], source, rfl, .inr rfl, hterminator, hpending⟩

/-- The end of a line is told if the line is open and its end is to be answered. -/
theorem tells_lineEnd {t : Terminator} (comma : Bool) (hends : (Part.lineEnd t).Ends after)
    (h : Tells (c.past (.lineEnd t)) .initial after answers) :
    Tells c .initial (t.bytes ++ after) ((Part.lineEnd t).answers c comma ++ answers) := by
  intro s hs hpending
  obtain ⟨b, more, source, hbytes, hb, hterminator, hsource⟩ :=
    Terminator.exists_terminator hends
  rw [hbytes] at hpending
  let t' : Scanner := { s with source := ⟨none, (more ++ after).map .byte⟩ }
  have hstep : t'.step .initial b = t'.endLine .initial b :=
    step_newLine ((class_eq_newLine_iff b).mpr hb)
  have hline : s.line + 1 = c.line + 1 := congrArg (· + 1) hs.line
  rw [resume_byte .initial hpending, List.append_eq, hstep, Part.answers, ← hs.lineEnds,
    ← hs.isOpen]
  -- the scanner decides by its own marks, which are those of the cursor
  cases hopen : s.lineEnds && s.lineHasTokens with
  | false =>
    rw [endLine_blank (s := t') hterminator hopen]
    exact h _ ⟨hs.lineEnds, hline, rfl⟩ hsource
  | true =>
    rw [endLine_open (s := t') hterminator hopen]
    dsimp only
    rw [transcriptBehind_ok (.inr rfl), if_pos rfl, ← hs.line]
    exact congrArg _ (h.transcript_eq ⟨hs.lineEnds, hline, rfl⟩ rfl rfl hsource)

/-- A comment is dropped up to the end of its line, or up to the end of the source. -/
theorem exists_dropComment {body : List UInt8} (hbody : Unbroken body)
    (hafter : StopsAt IsLineEnd after) :
    ∃ source, dropComment ((body ++ after).map .byte) = (none, source) ∧
      source.pending = after.map .byte := by
  cases after with
  | cons b rest =>
    rw [List.map_append]
    exact ⟨_, dropComment_unbroken hbody (stopsAt_cons.mp hafter) _, rfl⟩
  | nil =>
    refine ⟨⟨none, []⟩, ?_, rfl⟩
    rw [List.append_nil]
    induction body with
    | nil => rfl
    | cons b rest ih =>
      obtain ⟨hb, hrest⟩ := List.forall_mem_cons.mp hbody
      rw [List.map_cons, dropComment, if_neg (mt (class_eq_newLine_iff b).mp hb), ih hrest]

/-- Nothing is told for a comment. -/
theorem tells_comment {body : List UInt8} (hbody : Unbroken body)
    (hafter : StopsAt IsLineEnd after) (h : Tells c .initial after answers) :
    Tells c .initial (0x23 :: (body ++ after)) answers := by
  intro s hs hpending
  obtain ⟨source, hdrop, hsource⟩ := exists_dropComment hbody hafter
  have hstep : step { s with source := ⟨none, (body ++ after).map .byte⟩ } .initial 0x23 =
      .more .initial { s with source } := by
    rw [step, show CharClass.of 0x23 = .hash by decide]
    change comment _ _ = _
    rw [comment, Source.pending_mk_none, hdrop]
  rw [resume_byte .initial hpending, hstep]
  exact h { s with source } ⟨hs.lineEnds, hs.line, hs.isOpen⟩ hsource

/-- Behind an unknown character everything is dropped up to a boundary. -/
theorem tells_skipping {rest : List UInt8} (hrest : ∀ b ∈ rest, ¬ IsBoundary b)
    (hafter : StopsAt IsBoundary after) (h : Tells c .initial after answers) :
    Tells c .skipping (rest ++ after) answers := by
  induction rest with
  | nil =>
    rw [List.nil_append]
    cases after with
    | nil =>
      rw [h.eq_of_nil]
      exact .nil c rfl
    | cons b more =>
      -- the boundary itself is left for the mode between two lexemes
      have hact : action .error (CharClass.of b) = .recover := by
        rcases stopsAt_cons.mp hafter with hcut | rfl
        · rcases (isCut_iff b).mp hcut with hb | hb | hb | hb <;> rw [hb] <;> rfl
        · decide
      intro s hs hpending
      have hstep : step { s with source := ⟨none, more.map .byte⟩ } .skipping b =
          .more .initial { s with source := ⟨some b, more.map .byte⟩ } := by
        rw [step, Mode.state, hact]
        rfl
      rw [resume_byte .skipping hpending, hstep]
      exact h { s with source := ⟨some b, more.map .byte⟩ } ⟨hs.lineEnds, hs.line, hs.isOpen⟩ rfl
  | cons b more ih =>
    obtain ⟨hb, hmore⟩ := List.forall_mem_cons.mp hrest
    have hact : action .error (CharClass.of b) = .skip := by
      obtain ⟨hcut, hquote⟩ := not_or.mp hb
      rw [isCut_iff, not_or, not_or, not_or] at hcut
      obtain ⟨hblank, hcomma, hnewLine, hhash⟩ := hcut
      have hquote' : CharClass.of b ≠ .doubleQuote := fun hclass =>
        hquote ((byte_of_class b).2.2.2.2.2.2.1 hclass)
      cases hclass : CharClass.of b <;> first | rfl | contradiction
    have hpasses : Passes c.line .skipping [b] .skipping := by
      apply Passes.step
      intro s _
      rw [step, Mode.state, hact]
    exact (Tells.passes_iff hpasses).mpr (ih hmore)

/-! ## Where the source ends -/

/-- A lexeme that cannot be completed is refused where it ends. -/
theorem Start.tells_refused {start : Start} {fault : SourceFault}
    (hcomplete : start.mode.complete = .error fault) (hafter : StopsAt IsCut after) :
    Tells c start.mode after [.error (.source c.line fault)] := by
  cases after with
  | nil =>
    intro s hs hpending
    have hfinish : s.finish start.mode = (.error (s.fault fault), s) := by
      cases start with
      | word => cases hcomplete
      | digits | directive =>
        dsimp only [Start.mode] at hcomplete ⊢
        rw [finish, hcomplete]
    rw [resume_nil _ hpending, hfinish, ← hs.line]
    exact transcriptBehind_fatal rfl
  | cons b rest =>
    apply Tells.refused
    intro s _
    -- the lexeme would be completed here, in one way or another
    have hact : action start.mode.state (CharClass.of b) = .complete ∨
        action start.mode.state (CharClass.of b) = .completeComma ∨
        action start.mode.state (CharClass.of b) = .completeBefore := by
      rcases (isCut_iff b).mp (stopsAt_cons.mp hafter) with hb | hb | hb | hb <;> rw [hb] <;>
        cases start <;> simp [Start.mode, Mode.state, action]
    rcases hact with hact | hact | hact <;> rw [step, hact] <;> dsimp only <;> rw [hcomplete] <;>
      exact ⟨_, rfl⟩

theorem complete_numeral {digits : List UInt8} (hdigits : ∀ b ∈ digits, IsDigit b)
    (hvalue : 2 ^ 64 ≤ decimal digits) :
    Mode.complete (.digits (spelling digits)) = .error (.numberTooLarge (spelling digits)) := by
  have hnone : Numeral.word? 10 (spelling digits).toList = none := by
    rw [Option.eq_none_iff_forall_ne_some]
    intro word hword
    have hword' := Numeral.word?_eq_some_iff.mp hword
    rw [value_spelling hdigits] at hword'
    exact absurd (hword' ▸ word.toNat_lt) (not_lt.mpr hvalue)
  rw [Mode.complete, hnone]

/-- The last answer is told where the source ends. -/
theorem Ending.tells (ending : Ending) (c : Cursor) :
    Tells c .initial ending.bytes [ending.answer c.line] := by
  cases ending with
  | file => exact .nil c rfl
  | numeral digits hne hdigits hvalue after hafter =>
    exact (Tells.passes_iff (.start (.digits digits hne hdigits) c.line)).mpr
      (Start.tells_refused (complete_numeral hdigits hvalue) hafter)
  | period after hafter =>
    exact (Tells.passes_iff (.start (.directive [] (by simp)) c.line)).mpr
      (Start.tells_refused rfl hafter)
  | literal body fault rest hread =>
    apply Tells.refused
    intro s hsource
    rw [step_quote, Scanner.literal, hsource, Source.pending_mk_none, hread]
    exact ⟨_, rfl⟩

/-! ## The whole source -/

/-- The parts tell their answers one behind the other, and then the source ends. -/
theorem tells_parts {parts : List Part} {ending : Ending} (hjoined : Joined parts ending.bytes)
    (c : Cursor) : Tells c .initial (render parts ++ ending.bytes)
      (partAnswers c false parts ++ [ending.answer (c.pastAll parts).line]) := by
  induction parts generalizing c with
  | nil => exact ending.tells c
  | cons part rest ih =>
    obtain ⟨hends, hrest⟩ := hjoined
    have hbehind := ih hrest (c.past part)
    rw [render_cons, List.append_assoc, partAnswers, List.append_assoc]
    cases part with
    | blank b hb => exact (Tells.passes_iff (.skip (.inl (class_of_isBlank hb)))).mpr hbehind
    | comma => exact (Tells.passes_iff (.skip (.inr (by decide)))).mpr hbehind
    | lineEnd t => exact tells_lineEnd _ hends hbehind
    | comment body hbody => exact tells_comment hbody hends hbehind
    | item i =>
      -- behind the bytes of the item, only the comma of its token is still open
      obtain ⟨mode, hready, hpasses, hheld⟩ := Position.exists_ready i c.line
      exact (Tells.passes_iff hpasses).mpr (tells_token hready
        (fun comma => (readAs_lexeme i).endsLine_eq comma c.line) (hends.imp_left hheld) hbehind)
    | unknown b hunknown => exact .unknown hunknown hbehind
    | malformed start b more hunknown hmore =>
      -- unlike a character between two lexemes, this one makes the scanner skip what is behind it
      have hmode : start.mode ≠ .initial := by cases start <;> simp [Start.mode]
      rw [Part.bytes, List.append_assoc]
      refine (Tells.passes_iff (.start start c.line)).mpr (.unknown hunknown ?_)
      rw [if_neg hmode]
      exact tells_skipping hmore hends hbehind

/-- A scanner between two lexemes answers what a dissection of its source says. -/
theorem transcript_eq_answers (d : Dissection) (hs : c.Fits s) (hmode : s.mode = .initial)
    (hpending : s.source.pending = d.bytes.map .byte) : s.transcript = d.answers c :=
  (tells_parts d.joined c).transcript_eq hs hmode rfl hpending

/-! ## Recovery -/

/-- A malformed lexeme is lost and nothing else. Before a lexeme that has been begun, a character
that it cannot hold and the rest of it up to a boundary, the next request is answered by that
character on the present line. Behind that, a scanner is answered like any other one that stands
between two lexemes before the boundary, on the same line and with the same mark on it. -/
theorem scan_malformed {u : UInt8} {rest : List UInt8} (start : Start) (hmode : s.mode = .initial)
    (hpending : s.source.pending = (start.bytes ++ u :: (rest ++ after)).map .byte)
    (hunknown : action start.mode.state (CharClass.of u) = .unknown)
    (hrest : ∀ b ∈ rest, ¬ IsBoundary b) (hafter : StopsAt IsBoundary after) :
    s.scan.1 = .error (.lexical s.line (Char.ofUInt8 u)) ∧
      ∀ t : Scanner, t.mode = .initial → t.source.pending = after.map .byte →
        t.lineEnds = s.lineEnds → t.line = s.line → t.lineHasTokens = s.lineHasTokens →
        s.scan.2.transcript = t.transcript := by
  obtain ⟨d, rfl⟩ := exists_dissection after
  let c : Cursor := ⟨s.lineEnds, s.line, s.lineHasTokens⟩
  -- the malformed lexeme is one more part in front of what is left
  let whole : Dissection :=
    ⟨.malformed start u rest hunknown hrest :: d.parts, d.ending, hafter, d.joined⟩
  have hwhole : s.source.pending = whole.bytes.map .byte := by
    rw [hpending]
    simp [whole, Dissection.bytes, Part.bytes]
  have htranscript : transcriptBehind s.scan =
      .error (.lexical s.line (Char.ofUInt8 u)) :: d.answers c := by
    rw [← Scanner.transcript_eq (by rw [hmode]; rfl)]
    exact transcript_eq_answers whole (c := c) ⟨rfl, rfl, rfl⟩ hmode hwhole
  have hfirst : s.scan.1 = .error (.lexical s.line (Char.ofUInt8 u)) := by
    have hhead := head?_transcriptBehind s.scan
    rw [htranscript] at hhead
    exact (Option.some.inj hhead).symm
  refine ⟨hfirst, fun t ht htpending hlineEnds hline hopen => ?_⟩
  rw [transcript_eq_answers d (c := c) ⟨hlineEnds, hline, hopen⟩ ht htpending]
  rw [← Prod.eta s.scan, hfirst, transcriptBehind_unknown rfl] at htranscript
  exact (List.cons.inj htranscript).2

/-- A dollar sign in a word on a line that has tokens already. The colon behind it is lost with the
word, and the literal that follows directly is not. -/
theorem scan_malformed_before_literal :
    let s : Scanner :=
      { source := .ofBytes (utf8 "a1$b:\"q\" ,\n"), lineEnds := true, line := 4
        lineHasTokens := true }
    let t : Scanner :=
      { source := .ofBytes (utf8 "\"q\" ,\n"), lineEnds := true, line := 4
        lineHasTokens := true }
    s.scan.1 = .error (.lexical 4 '$') ∧ s.scan.2.transcript = t.transcript := by
  intro s t
  let name : Name :=
    { first := 0x61, rest := [0x31], first_start := by decide, rest_name := by decide +kernel }
  have hsource : s.source.pending =
      ((Start.word name).bytes ++ 0x24 :: ([0x62, 0x3A] ++ utf8 "\"q\" ,\n")).map .byte := by
    decide +kernel
  have hafter : StopsAt IsBoundary (utf8 "\"q\" ,\n") := by
    unfold StopsAt
    decide +kernel
  obtain ⟨hfirst, hbehind⟩ := scan_malformed (.word name) rfl hsource (by decide)
    (by decide +kernel) hafter
  exact ⟨hfirst, hbehind t rfl rfl rfl rfl rfl⟩

/-! ## The ends of lines -/

/-- Whether the answer is the end of a line. -/
def answersLineEnd : Except Error Token → Bool
  | .ok token => decide (token.lexeme = .endOfLine)
  | .error _ => false

theorem answersLineEnd_item (i : Item) (comma : Bool) (line : Nat) :
    answersLineEnd (.ok { lexeme := Dissection.lexeme i, comma, line }) = false := by
  apply decide_eq_false
  intro hlexeme
  have hends := (readAs_lexeme i).endsLine_eq comma line
  rw [show Dissection.lexeme i = .endOfLine from hlexeme] at hends
  cases hends

theorem answersLineEnd_ending (ending : Ending) (line : Nat) :
    answersLineEnd (ending.answer line) = false := by
  cases ending <;> rfl

/-- Whether a part ends a line. -/
def Part.isLineEnd : Part → Bool
  | .lineEnd _ => true
  | _ => false

/-- Lines are counted by their ends alone. -/
theorem line_pastAll (c : Cursor) (parts : List Part) :
    (c.pastAll parts).line = c.line + parts.countP Part.isLineEnd := by
  induction parts generalizing c with
  | nil => rfl
  | cons part rest ih =>
    rw [Cursor.pastAll, List.foldl_cons, ← Cursor.pastAll, ih, List.countP_cons]
    cases part with
    | lineEnd => simp [Cursor.past, Part.isLineEnd]; omega
    | blank | comma | comment | item | unknown | malformed => rfl

/-- The answers without the ends of lines do not depend on whether these are answered. -/
theorem filter_partAnswers (comma : Bool) (parts : List Part) (line : Nat) (isOpen : Bool) :
    (partAnswers ⟨true, line, isOpen⟩ comma parts).filter (fun answer => !answersLineEnd answer) =
      partAnswers ⟨false, line, isOpen⟩ comma parts := by
  induction parts generalizing line isOpen with
  | nil => rfl
  | cons part rest ih =>
    rw [partAnswers, partAnswers, List.filter_append]
    cases part with
    | blank | comma | comment | unknown | malformed => exact congrArg _ (ih line isOpen)
    | item i =>
      have hkept := answersLineEnd_item i (commaFirst comma rest) line
      rw [Part.answers, Part.answers, List.filter_cons_of_pos (by rw [hkept]; rfl)]
      exact congrArg _ (ih line true)
    | lineEnd t =>
      -- the end of the line is what the filter takes out
      have hnone : ((Part.lineEnd t).answers ⟨true, line, isOpen⟩ (commaFirst comma rest)).filter
          (fun answer => !answersLineEnd answer) = [] := by
        cases isOpen <;> rfl
      rw [hnone]
      exact ih (line + 1) false

/-- Whether a scanner answers the ends of lines makes no other difference: without them, its answers
up to the end of the file or the first refusal are those of a scanner that does not. -/
theorem transcript_lineEnds (bytes : List UInt8) (origin : String) :
    (Scanner.transcript { source := .ofBytes bytes, origin, lineEnds := true }).filter
        (fun answer => !answersLineEnd answer) =
      Scanner.transcript { source := .ofBytes bytes, origin, lineEnds := false } := by
  obtain ⟨d, rfl⟩ := exists_dissection bytes
  have hpending := Source.pending_ofBytes d.bytes
  rw [transcript_eq_answers d (c := ⟨true, 1, false⟩) ⟨rfl, rfl, rfl⟩ rfl hpending,
    transcript_eq_answers d (c := ⟨false, 1, false⟩) ⟨rfl, rfl, rfl⟩ rfl hpending,
    answers, answers, List.filter_append, filter_partAnswers, line_pastAll, line_pastAll,
    List.filter_cons_of_pos (by rw [answersLineEnd_ending]; rfl), List.filter_nil]

/-! ## Whole sources -/

/-- Where an assembly begins to count lines. -/
def Cursor.start : Cursor :=
  ⟨true, 1, false⟩

/-- What the scanner of an assembly answers to a source. -/
theorem transcript_start (path : String) (d : Dissection) :
    Scanner.transcript { source := .ofBytes d.bytes, origin := path, lineEnds := true } =
      d.answers .start :=
  transcript_eq_answers d ⟨rfl, rfl, rfl⟩ rfl (Source.pending_ofBytes _)

/-- What is taken from a source that is cut into parts to its end. -/
theorem ofScanner_start {parts : List Part} (path : String) (hjoined : Joined parts []) :
    TokenStream.ofScanner
        { source := .ofBytes (render parts), origin := path, lineEnds := true } =
      ⟨partAnswers .start false parts, 1 + parts.countP Part.isLineEnd⟩ := by
  have htranscript := transcript_start path ⟨parts, .file, hjoined⟩
  rw [Dissection.bytes, Ending.bytes, List.append_nil, Dissection.answers, Ending.answer,
    line_pastAll] at htranscript
  exact Scanner.ofScanner_of_transcript rfl htranscript (fine_partAnswers _ _ _)

end Dissection

end AsmLinker
