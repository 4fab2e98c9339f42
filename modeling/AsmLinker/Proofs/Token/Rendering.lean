import Mathlib
import AsmLinker.Proofs.Token.Dissection

/-!
# Scanning undoes rendering

A source that is put together from items is scanned into one token per item, in their order, and
then the end of the file (`Rendering.answers_of_rendering`).

Inside an item the automaton passes from mode to mode over the bytes, and nothing else changes
(`Scanner.Passes`). The proof follows it from position to position: a mode, a line and the bytes
that are left. A position leads to another one without an answer (`Position.Leads`), or one token is
answered on the way (`Position.Emits`). A token ends in four ways, which all lead to the place
between two items: a blank holds it back until something else comes, a comma is consumed with it,
the end of a line and a comment are left for later, and the source may end.
-/

namespace AsmLinker

open Rendering

namespace Scanner

variable {s : Scanner} {mode : Mode} {b : UInt8}

/-! ## Requests up to the end of the file -/

/-- All answers from the first one on, with the end of the file. -/
def replies (first : Except Error Token × Scanner) : List (Except Error Token) :=
  if (Reading.mk first.1 first.2).isEnd then [first.1]
  else first.1 :: first.2.readings.map Reading.answer

/-- The answers of a scanner are its first answer and those of the scanner behind it. -/
theorem answer_readings (hs : s.mode.resting = true) :
    s.readings.map Reading.answer = replies s.scan := by
  rw [readings_eq hs]
  exact apply_ite (List.map Reading.answer) _ _ _

/-! ## Bytes without an answer -/

/-- Only what is pending counts, not how it came to be so. -/
theorem resume_of_pending (mode : Mode) {bytes : List UInt8}
    (h : s.source.pending = bytes.map .byte) :
    s.resume mode = resume { s with source := ⟨none, bytes.map .byte⟩ } mode := by
  cases bytes with
  | nil =>
    have hsource : s.source = ⟨none, []⟩ := by
      rcases hback : s.source with ⟨_ | b, rest⟩
      · rw [hback] at h
        exact congrArg (Source.mk none) h
      · rw [hback] at h
        cases h
    rw [List.map_nil, ← hsource]
  | cons b rest => rw [resume_byte mode h, resume_byte mode rfl]

/-- On this line the automaton passes over the bytes from one mode to another, and nothing else
changes. -/
def Passes (line : Nat) (mode : Mode) (bytes : List UInt8) (mode' : Mode) : Prop :=
  ∀ (s : Scanner) (after : List UInt8), s.line = line →
    s.source.pending = (bytes ++ after).map .byte →
    s.resume mode = resume { s with source := ⟨none, after.map .byte⟩ } mode'

namespace Passes

variable {mode' mode'' : Mode} {line : Nat} {bytes first second : List UInt8}

theorem nil : Passes line mode [] mode :=
  fun _ _ _ hpending => resume_of_pending mode hpending

theorem trans (h : Passes line mode first mode') (h' : Passes line mode' second mode'') :
    Passes line mode (first ++ second) mode'' := by
  intro s after hline hpending
  rw [List.append_assoc] at hpending
  rw [h s _ hline hpending, h' { s with source := ⟨none, (second ++ after).map .byte⟩ } after hline
    rfl]

/-- A byte that only changes the mode. -/
theorem step (h : ∀ s : Scanner, s.line = line → s.step mode b = .more mode' s) :
    Passes line mode [b] mode' := by
  intro s after hline hpending
  have hstep := h { s with source := ⟨none, after.map .byte⟩ } hline
  rw [List.singleton_append] at hpending
  rw [resume_byte mode hpending, hstep]

/-- A byte that belongs to no item and ends no line. -/
theorem skip (hb : CharClass.of b = .whitespace ∨ CharClass.of b = .comma) :
    Passes line .initial [b] .initial := by
  apply step
  intro s _
  rcases hb with hb | hb <;> rw [Scanner.step, hb] <;> rfl

/-- Bytes that go on with the text of a mode. -/
theorem pushAll (read : String → Mode) (begun : List UInt8)
    (hread : ∀ text c, (read text).push c = read (text.push c))
    (hact : ∀ b ∈ bytes, ∀ text, action (read text).state (CharClass.of b) = .accumulate) :
    Passes line (read (spelling begun)) bytes (read (spelling (begun ++ bytes))) := by
  induction bytes generalizing begun with
  | nil =>
    rw [List.append_nil]
    exact nil
  | cons b rest ih =>
    obtain ⟨hb, hrest⟩ := List.forall_mem_cons.mp hact
    have hpush : Passes line (read (spelling begun)) [b] (read (spelling (begun ++ [b]))) := by
      apply step
      intro s _
      rw [Scanner.step, hb, spelling_concat, ← hread]
    have hmore := ih (begun ++ [b]) hrest
    rw [List.append_assoc] at hmore
    exact hpush.trans hmore

/-- A lexeme is begun with its first byte and goes on with the others. -/
theorem start (begun : Dissection.Start) (line : Nat) :
    Passes line .initial begun.bytes begun.mode := by
  have hname : ∀ b, IsNameByte b → ∀ text,
      action (Mode.identifier text).state (CharClass.of b) = .accumulate ∧
        action (Mode.directive text).state (CharClass.of b) = .accumulate := by
    intro b hb text
    rcases isWordByte_of_isNameByte b hb with (h | h) | h <;> rw [h] <;> exact ⟨rfl, rfl⟩
  cases begun with
  | word name =>
    have hfirst : Passes line .initial [name.first] (.identifier (spelling [name.first])) := by
      apply step
      intro s _
      rcases isLetter_of_isNameStart _ name.first_start with h | h <;> rw [Scanner.step, h] <;> rfl
    exact hfirst.trans (pushAll .identifier [name.first] (fun _ _ => rfl)
      fun b hb text => (hname b (name.rest_name b hb) text).1)
  | digits bytes hne hbytes =>
    obtain ⟨b, rest, rfl⟩ := List.exists_cons_of_ne_nil hne
    obtain ⟨hb, hrest⟩ := List.forall_mem_cons.mp hbytes
    have hfirst : Passes line .initial [b] (.digits (spelling [b])) := by
      apply step
      intro s _
      rw [Scanner.step, class_of_isDigit b hb]
      rfl
    refine hfirst.trans (pushAll .digits [b] (fun _ _ => rfl) ?_)
    intro c hc text
    rw [class_of_isDigit c (hrest c hc)]
    rfl
  | directive bytes hbytes =>
    have hperiod : Passes line .initial [0x2E] (.directive (spelling [])) := by
      apply step
      intro s _
      rw [Scanner.step, show CharClass.of 0x2E = .period by decide]
      rfl
    exact hperiod.trans (pushAll .directive [] (fun _ _ => rfl)
      fun b hb text => (hname b (hbytes b hb) text).2)

/-- A colon makes a label of a name, whatever it spells. -/
theorem label (name : Name) (line : Nat) :
    Passes line .initial (name.bytes ++ [0x3A]) (.held { lexeme := .label name.text, line }) := by
  refine (start (.word name) line).trans (step ?_)
  rintro s rfl
  rw [Scanner.step, show CharClass.of 0x3A = .colon by decide]
  rfl

/-- A literal is read to its closing quote. -/
theorem literal {pieces : List Piece} {text : String} (h : pieces.map Piece.value = utf8 text)
    (line : Nat) :
    Passes line .initial (0x22 :: (pieces.flatMap Piece.bytes ++ [0x22]))
      (.held { lexeme := .ascii text, line }) := by
  intro s after hline hpending
  have hquote : s.source.pending = .byte 0x22 ::
      ((pieces.flatMap Piece.bytes).map .byte ++ .byte 0x22 :: after.map .byte) := by
    rw [hpending]
    simp
  rw [resume_byte .initial hquote, step_quote, Scanner.literal, Source.pending_mk_none,
    Literal.read_pieces h]
  dsimp only
  rw [token, hline]

end Passes

/-! ## Ends of lines -/

/-- A line terminator that is not a carriage return before a line feed is one byte: what was looked
at behind it is still pending. -/
theorem exists_terminator {bytes : List UInt8} (h : ¬ (b = 0x0D ∧ bytes.head? = some 0x0A)) :
    ∃ source, terminator ⟨none, bytes.map .byte⟩ b = (none, source) ∧
      source.pending = bytes.map .byte := by
  by_cases hreturn : b = 0x0D
  · subst hreturn
    cases bytes with
    | nil => exact ⟨⟨none, []⟩, rfl, rfl⟩
    | cons c more =>
      have hc : c ≠ 0x0A := by simpa using h
      exact ⟨⟨some c, more.map .byte⟩, Prod.ext rfl (if_neg hc), rfl⟩
  · exact ⟨_, if_neg hreturn, rfl⟩

/-- A line end is passed over together with the rest of its terminator. -/
theorem resume_lineEnd {rest : List Signal} {source : Source} (hlineEnds : s.lineEnds = false)
    (hb : IsLineEnd b) (hpending : s.source.pending = .byte b :: rest)
    (hterminator : terminator ⟨none, rest⟩ b = (none, source)) :
    s.resume .initial =
      resume { s with source, line := s.line + 1, lineHasTokens := false } .initial := by
  have hstep : step { s with source := ⟨none, rest⟩ } .initial b =
      .more .initial { s with source, line := s.line + 1, lineHasTokens := false } := by
    rw [step_newLine ((class_eq_newLine_iff b).mpr hb),
      endLine_blank hterminator (by simp [hlineEnds])]
  rw [resume_byte .initial hpending, hstep]

/-- A comment ends before the end of its line. -/
theorem dropComment_unbroken {body : List UInt8} (hbody : Unbroken body) (hb : IsLineEnd b)
    (rest : List Signal) :
    dropComment (body.map .byte ++ .byte b :: rest) = (none, Source.unread { rest } b) := by
  induction body with
  | nil => exact if_pos ((class_eq_newLine_iff b).mpr hb)
  | cons c more ih =>
    obtain ⟨hc, hmore⟩ := List.forall_mem_cons.mp hbody
    rw [List.map_cons, List.cons_append, dropComment,
      if_neg (mt (class_eq_newLine_iff c).mp hc), ih hmore]

/-! ## Ends of lexemes -/

/-- A lexeme that can be completed is completed before everything that separates lexemes: it waits
behind a blank, it is answered with a comma, and the end of a line and a comment are left. -/
theorem actions_of_complete {lexeme : Lexeme} (h : mode.complete = .ok lexeme) :
    action mode.state .whitespace = .complete ∧ action mode.state .comma = .completeComma ∧
      action mode.state .newLine = .completeBefore ∧
      action mode.state .hash = .completeBefore := by
  cases mode with
  | identifier | digits | directive => exact ⟨rfl, rfl, rfl, rfl⟩
  | initial | held | skipping | exhausted => cases h

/-- A token that is held back is given out before anything but a blank or a comma. -/
theorem action_held {token : Token} {c : CharClass} (hblank : c ≠ .whitespace)
    (hcomma : c ≠ .comma) : action (Mode.held token).state c = .release := by
  cases c <;> first | rfl | contradiction

end Scanner

open Scanner

/-! ## Positions -/

/-- Where the automaton stands in a source of bytes. -/
structure Position where
  /-- The mode. -/
  mode : Mode
  /-- The line. -/
  line : Nat
  /-- The bytes that are left. -/
  bytes : List UInt8

namespace Position

/-- A scanner without line ends that is at this position. -/
structure Fits (c : Position) (s : Scanner) : Prop where
  /-- The ends of lines are not answered. -/
  lineEnds : s.lineEnds = false
  /-- The line is that of the position. -/
  line : s.line = c.line
  /-- The bytes that are left are pending. -/
  pending : s.source.pending = c.bytes.map .byte

/-- The automaton comes from one position to the other without an answer. -/
def Leads (c c' : Position) : Prop :=
  ∀ s, c.Fits s → ∃ s', c'.Fits s' ∧ s.resume c.mode = s'.resume c'.mode

/-- The automaton answers a token, and the next request starts from the other position. -/
def Emits (c : Position) (token : Token) (c' : Position) : Prop :=
  ∀ s, c.Fits s → ∃ s', c'.Fits s' ∧ s'.mode = c'.mode ∧ s.resume c.mode = (.ok token, s')

/-- From this position on the tokens are answered, and then the end of the file. -/
def Answers (c : Position) (tokens : List Token) (stop : Nat) : Prop :=
  ∀ s, c.Fits s → replies (s.resume c.mode) = tokens.map .ok ++ [.ok (.endOfFile stop)]

variable {c c' c'' : Position} {mode mode' : Mode} {line stop : Nat} {bytes after : List UInt8}
  {b : UInt8} {token : Token} {tokens : List Token} {lexeme : Lexeme}

theorem Leads.refl (c : Position) : c.Leads c :=
  fun s hs => ⟨s, hs, rfl⟩

theorem Leads.trans (h : c.Leads c') (h' : c'.Leads c'') : c.Leads c'' := by
  intro s hs
  obtain ⟨s', hs', hresume⟩ := h s hs
  obtain ⟨s'', hs'', hresume'⟩ := h' s' hs'
  exact ⟨s'', hs'', hresume.trans hresume'⟩

theorem Leads.answers (h : c.Leads c') (h' : c'.Answers tokens stop) : c.Answers tokens stop := by
  intro s hs
  obtain ⟨s', hs', hresume⟩ := h s hs
  rw [hresume]
  exact h' s' hs'

theorem Emits.answers (h : c.Emits token c') (hresting : c'.mode.resting = true)
    (hends : token.endsLine = false) (h' : c'.Answers tokens stop) :
    c.Answers (token :: tokens) stop := by
  intro s hs
  obtain ⟨s', hs', hmode, hresume⟩ := h s hs
  -- the token is not the end of the file, so there is a next request
  rw [hresume, replies, isEnd_eq_false (.inl hends), if_neg Bool.false_ne_true,
    answer_readings (by rw [hmode]; exact hresting), scan, hmode, h' s' hs']
  rfl

/-- Nothing is left. -/
theorem answers_nil (line : Nat) : Answers ⟨.initial, line, []⟩ [] line := by
  intro s hs
  rw [resume_nil _ hs.pending, finish, hs.line]
  rfl

/-- At the end it does not matter whether the source is known to be exhausted. -/
theorem leads_exhausted : Leads ⟨.exhausted, line, []⟩ ⟨.initial, line, []⟩ := by
  intro s hs
  refine ⟨s, ⟨hs.lineEnds, hs.line, hs.pending⟩, ?_⟩
  rw [resume_nil _ hs.pending, resume_nil _ hs.pending]
  rfl

/-- Bytes that are passed over. -/
theorem Leads.of_passes {first : List UInt8} (h : Passes line mode first mode') :
    Leads ⟨mode, line, first ++ bytes⟩ ⟨mode', line, bytes⟩ :=
  fun s hs => ⟨{ s with source := ⟨none, bytes.map .byte⟩ }, ⟨hs.lineEnds, hs.line, rfl⟩,
    h s bytes hs.line hs.pending⟩

/-- A byte that is consumed with the token before it. -/
theorem emits_of_step
    (h : ∀ s : Scanner, s.line = line → s.step mode b = .emit token .initial s) :
    Emits ⟨mode, line, b :: bytes⟩ token ⟨.initial, line, bytes⟩ := by
  intro s hs
  have hstep := h { s with source := ⟨none, bytes.map .byte⟩ } hs.line
  refine ⟨answered { s with source := ⟨none, bytes.map .byte⟩ } token .initial,
    ⟨hs.lineEnds, hs.line, rfl⟩, rfl, ?_⟩
  rw [resume_byte mode hs.pending, hstep]

/-- A byte that is left for later behind the token before it. -/
theorem emits_of_step_unread
    (h : ∀ s : Scanner, s.line = line → s.step mode b = .emit token .initial (s.unread b)) :
    Emits ⟨mode, line, b :: bytes⟩ token ⟨.initial, line, b :: bytes⟩ := by
  intro s hs
  have hstep := h { s with source := ⟨none, bytes.map .byte⟩ } hs.line
  refine ⟨(unread { s with source := ⟨none, bytes.map .byte⟩ } b).answered token .initial,
    ⟨hs.lineEnds, hs.line, rfl⟩, rfl, ?_⟩
  rw [resume_byte mode hs.pending, hstep]

/-! ## Separators between two items -/

/-- A comment is passed over up to its line end. -/
theorem leads_comment {body : List UInt8} (hbody : Unbroken body) (hb : IsLineEnd b) :
    Leads ⟨.initial, line, 0x23 :: (body ++ b :: bytes)⟩ ⟨.initial, line, b :: bytes⟩ := by
  intro s hs
  have hpending : s.source.pending =
      .byte 0x23 :: (body.map .byte ++ .byte b :: bytes.map .byte) := by
    rw [hs.pending]
    simp
  have hstep : step { s with source := ⟨none, body.map .byte ++ .byte b :: bytes.map .byte⟩ }
      .initial 0x23 = .more .initial { s with source := ⟨some b, bytes.map .byte⟩ } := by
    have hdrop := dropComment_unbroken hbody hb (bytes.map .byte)
    rw [step, show CharClass.of 0x23 = .hash by decide]
    change comment _ _ = _
    rw [comment, Source.pending_mk_none, hdrop]
    rfl
  refine ⟨{ s with source := ⟨some b, bytes.map .byte⟩ }, ⟨hs.lineEnds, hs.line, rfl⟩, ?_⟩
  rw [resume_byte .initial hpending, hstep]

/-- A line end takes the automaton to the next line, except for a carriage return before a line
feed, which leaves that to the line feed. -/
theorem leads_lineEnd (hb : IsLineEnd b) :
    Leads ⟨.initial, line, b :: bytes⟩
      ⟨.initial,
        line + if b = 0x0A ∨ b = 0x0D ∧ bytes.head? ≠ some 0x0A then 1 else 0, bytes⟩ := by
  intro s hs
  by_cases hpair : b = 0x0D ∧ bytes.head? = some 0x0A
  · -- the pair and its line feed alone end in the same place
    obtain ⟨rfl, hfeed⟩ := hpair
    obtain ⟨more, rfl⟩ : ∃ more, bytes = 0x0A :: more :=
      ⟨bytes.tail, List.eq_cons_of_mem_head? hfeed⟩
    let s' : Scanner := { s with source := ⟨none, .byte 0x0A :: more.map .byte⟩ }
    have hboth : terminator ⟨none, .byte 0x0A :: more.map .byte⟩ 0x0D =
        (none, ⟨none, more.map .byte⟩) := rfl
    have halone : terminator ⟨none, more.map .byte⟩ 0x0A = (none, ⟨none, more.map .byte⟩) := rfl
    have hresume := resume_lineEnd hs.lineEnds hb hs.pending hboth
    have hresume' := resume_lineEnd (s := s') hs.lineEnds (.inl rfl) rfl halone
    refine ⟨s', ⟨hs.lineEnds, ?_, rfl⟩, hresume.trans hresume'.symm⟩
    rw [if_neg (by simp)]
    exact hs.line
  · obtain ⟨source, hterminator, hpending⟩ := exists_terminator hpair
    refine ⟨{ s with source, line := s.line + 1, lineHasTokens := false },
      ⟨hs.lineEnds, ?_, hpending⟩, resume_lineEnd hs.lineEnds hb hs.pending hterminator⟩
    have hcounted : b = 0x0A ∨ b = 0x0D ∧ bytes.head? ≠ some 0x0A :=
      hb.imp_right fun hreturn => ⟨hreturn, fun hfeed => hpair ⟨hreturn, hfeed⟩⟩
    rw [if_pos hcounted]
    exact congrArg (· + 1) hs.line

/-- Separators are passed over, and the lines that they end are counted. -/
theorem leads_separators (gap : List Separator) (line : Nat) (hafter : after.head? ≠ some 0x0A) :
    Leads ⟨.initial, line, Separator.render gap ++ after⟩
      ⟨.initial, line + lineBreaks (Separator.render gap), after⟩ := by
  induction gap generalizing line with
  | nil => exact .refl _
  | cons separator rest ih =>
    -- a line end counts by what the other separators begin with, not by what stands behind them
    have hends : ∀ b, IsLineEnd b →
        Leads ⟨.initial, line, b :: (Separator.render rest ++ after)⟩
          ⟨.initial, line + lineBreaks (b :: Separator.render rest), after⟩ := by
      intro b hb
      refine (leads_lineEnd hb).trans ?_
      rw [lineBreaks, ← Nat.add_assoc]
      simp only [head?_append_ne_iff hafter]
      exact ih _
    cases separator with
    | blank b hb =>
      rw [Separator.render_blank, lineBreaks_cons (not_isLineEnd_of_isBlank hb)]
      exact (Leads.of_passes (.skip (.inl (class_of_isBlank hb)))).trans (ih line)
    | comma =>
      rw [Separator.render_comma, lineBreaks_cons (by decide)]
      exact (Leads.of_passes (.skip (.inr (by decide)))).trans (ih line)
    | lineEnd b hb =>
      rw [Separator.render_lineEnd]
      exact hends b hb
    | comment body hbody b hb =>
      -- the comment is dropped up to its line end, which is then read like any other
      have hbroken : Unbroken (0x23 :: body) := List.forall_mem_cons.mpr ⟨by decide, hbody⟩
      have hbreaks := lineBreaks_unbroken hbroken (b :: Separator.render rest)
      rw [Separator.render_comment, ← List.cons_append, hbreaks, List.append_assoc]
      exact (leads_comment hbody hb).trans (hends b hb)

/-! ## Items that have been read -/

/-- The automaton has read an item to its end: the lexeme can be completed, or its token is held
back. -/
inductive Ready (lexeme : Lexeme) (line : Nat) : Mode → Prop
  | complete {mode : Mode} (h : mode.complete = .ok lexeme) : Ready lexeme line mode
  | held : Ready lexeme line (.held { lexeme, line })

namespace Ready

/-- At the end of the source, the token is what is left to answer. -/
theorem finish_eq {s : Scanner} (h : Ready lexeme s.line mode) :
    s.finish mode = (.ok { lexeme, line := s.line }, { s with mode := .exhausted }) := by
  cases h with
  | held => rfl
  | complete hcomplete =>
    cases mode with
    | initial | held | skipping | exhausted => cases hcomplete
    | identifier | digits | directive =>
      unfold finish
      dsimp only
      rw [hcomplete]
      rfl

/-- The token is answered at the end. -/
theorem last (h : Ready lexeme line mode) :
    Emits ⟨mode, line, []⟩ { lexeme, line } ⟨.exhausted, line, []⟩ := by
  intro s hs
  refine ⟨{ s with mode := .exhausted }, ⟨hs.lineEnds, hs.line, hs.pending⟩, rfl, ?_⟩
  obtain rfl : s.line = line := hs.line
  rw [resume_nil mode hs.pending, h.finish_eq]

/-- The token is held back behind a blank. -/
theorem passes_blank (h : Ready lexeme line mode) (hb : IsBlank b) :
    Passes line mode [b] (.held { lexeme, line }) := by
  apply Passes.step
  rintro s rfl
  rw [step, class_of_isBlank hb]
  cases h with
  | complete hcomplete =>
    rw [(actions_of_complete hcomplete).1]
    dsimp only
    rw [hcomplete]
    rfl
  | held => rfl

/-- A comma is consumed with the token. -/
theorem step_comma {s : Scanner} (h : Ready lexeme s.line mode) :
    s.step mode 0x2C = .emit { lexeme, comma := true, line := s.line } .initial s := by
  rw [step, show CharClass.of 0x2C = .comma by decide]
  cases h with
  | complete hcomplete =>
    rw [(actions_of_complete hcomplete).2.1]
    dsimp only
    rw [hcomplete]
    rfl
  | held => rfl

/-- The end of a line and a comment are left for later. -/
theorem step_before {s : Scanner} (h : Ready lexeme s.line mode)
    (hb : CharClass.of b = .newLine ∨ CharClass.of b = .hash) :
    s.step mode b = .emit { lexeme, line := s.line } .initial (s.unread b) := by
  cases h with
  | complete hcomplete =>
    have hact : action mode.state (CharClass.of b) = .completeBefore := by
      obtain ⟨-, -, hnewLine, hhash⟩ := actions_of_complete hcomplete
      rcases hb with hb | hb <;> rw [hb] <;> assumption
    rw [step, hact]
    dsimp only
    rw [hcomplete]
    rfl
  | held => rcases hb with hb | hb <;> rw [step, hb] <;> rfl

theorem comma (h : Ready lexeme line mode) :
    Emits ⟨mode, line, 0x2C :: bytes⟩ { lexeme, comma := true, line } ⟨.initial, line, bytes⟩ := by
  apply emits_of_step
  rintro s rfl
  exact h.step_comma

theorem before (h : Ready lexeme line mode)
    (hb : CharClass.of b = .newLine ∨ CharClass.of b = .hash) :
    Emits ⟨mode, line, b :: bytes⟩ { lexeme, line } ⟨.initial, line, b :: bytes⟩ := by
  apply emits_of_step_unread
  rintro s rfl
  exact h.step_before hb

end Ready

/-- A token that is held back is answered before a byte that is no separator. -/
theorem step_held (s : Scanner) (hblank : CharClass.of b ≠ .whitespace)
    (hcomma : CharClass.of b ≠ .comma) :
    s.step (.held token) b = .emit token .initial (s.unread b) := by
  rw [step, action_held hblank hcomma]
  rfl

/-- Behind an item the token is answered with its comma, and the separators are passed over. Without
a separator the source must end, unless the token was held back already. -/
theorem answers_separators {gap : List Separator} (h : Ready lexeme line mode)
    (hends : ∀ comma, Token.endsLine { lexeme, comma, line } = false) (hafter : Begins after)
    (hgap : gap ≠ [] ∨ after = [] ∨ mode = .held { lexeme, line })
    (hrest : Answers ⟨.initial, line + lineBreaks (Separator.render gap), after⟩ tokens stop) :
    Answers ⟨mode, line, Separator.render gap ++ after⟩
      ({ lexeme, comma := Separator.commaFirst gap, line } :: tokens) stop := by
  -- wherever the token is answered, the separators that are left lead to what stands behind them
  have hleft : ∀ rest, lineBreaks (Separator.render rest) = lineBreaks (Separator.render gap) →
      Answers ⟨.initial, line, Separator.render rest ++ after⟩ tokens stop := by
    intro rest hsame
    apply (leads_separators rest line hafter.head?_ne).answers
    rw [hsame]
    exact hrest
  induction gap generalizing mode with
  | nil =>
    cases after with
    | nil => exact h.last.answers rfl (hends false) (leads_exhausted.answers hrest)
    | cons b more =>
      -- the next item follows directly, so that the token must have been held back
      obtain ⟨hblank, hcomma, -⟩ := hafter b rfl
      obtain rfl : mode = .held { lexeme, line } := by simpa using hgap
      exact (emits_of_step_unread fun s _ => step_held s hblank hcomma).answers rfl (hends false)
        hrest
  | cons separator rest ih =>
    cases separator with
    | blank b hb =>
      -- behind a blank the token is held back, and then no further separator is needed
      have hbreaks : lineBreaks (Separator.render (.blank b hb :: rest)) =
          lineBreaks (Separator.render rest) := lineBreaks_cons (not_isLineEnd_of_isBlank hb) _
      rw [hbreaks] at hrest hleft
      exact (Leads.of_passes (h.passes_blank hb)).answers (ih .held (.inr (.inr rfl)) hrest hleft)
    | comma =>
      -- the comma goes with the token, and the other separators are left
      have hbreaks : lineBreaks (Separator.render (.comma :: rest)) =
          lineBreaks (Separator.render rest) := lineBreaks_cons (by decide) _
      exact h.comma.answers rfl (hends true) (hleft rest hbreaks.symm)
    | lineEnd b hb =>
      exact (h.before (.inl ((class_eq_newLine_iff b).mpr hb))).answers rfl (hends false)
        (hleft _ rfl)
    | comment body hbody b hb =>
      have hcomment := hleft (.comment body hbody b hb :: rest) rfl
      rw [Separator.render_comment] at hcomment ⊢
      exact (h.before (.inr (by decide))).answers rfl (hends false) hcomment

/-! ## Reading an item -/

theorem complete_directive (hne : bytes ≠ []) :
    Mode.complete (.directive (spelling bytes)) = .ok (.directive (spelling bytes)) := by
  apply if_neg
  intro hempty
  have hnil := congrArg String.toList hempty
  rw [toList_spelling] at hnil
  exact hne (List.map_eq_nil_iff.mp hnil)

theorem complete_digits (hbytes : ∀ b ∈ bytes, IsDigit b) (hvalue : decimal bytes < 2 ^ 64) :
    Mode.complete (.digits (spelling bytes)) =
      .ok (.digits (spelling bytes) (UInt64.ofNat (decimal bytes))) := by
  have hword : Numeral.word? 10 (spelling bytes).toList =
      some (UInt64.ofNat (decimal bytes)) := by
    apply Numeral.word?_eq_some_iff.mpr
    rw [value_spelling hbytes, UInt64.toNat_ofNat_of_lt' hvalue]
  rw [Mode.complete, hword]

/-- Every item is read to its end as what it should be read as. If it is over then, its token is
held back already. -/
theorem exists_ready (item : Item) (line : Nat) :
    ∃ mode, Ready (Dissection.lexeme item) line mode ∧ Passes line .initial item.bytes mode ∧
      (Dissection.isClosed item = true → mode = .held ⟨Dissection.lexeme item, false, line⟩) := by
  cases item with
  | word name => exact ⟨.identifier name.text, .complete rfl, .start (.word name) line, nofun⟩
  | label name => exact ⟨_, .held, .label name line, fun _ => rfl⟩
  | directive bytes hne hbytes =>
    exact ⟨_, .complete (complete_directive hne), .start (.directive bytes hbytes) line, nofun⟩
  | digits bytes hne hbytes hvalue =>
    exact ⟨_, .complete (complete_digits hbytes hvalue), .start (.digits bytes hne hbytes) line,
      nofun⟩
  | literal pieces text htext => exact ⟨_, .held, .literal htext line, fun _ => rfl⟩

/-! ## All items -/

/-- Items are answered one after the other behind what stands before them. -/
theorem answers_render {items : List (Item × List Separator)}
    (hseparated : ∀ entry ∈ items.dropLast, entry.2 ≠ []) (before : List UInt8) :
    ∃ tokens, List.Forall₂ Place.Gives (placesBehind before items) tokens ∧
      Answers ⟨.initial, 1 + lineBreaks before, render items⟩ tokens
        (1 + lineBreaks (before ++ render items)) := by
  induction items generalizing before with
  | nil =>
    refine ⟨[], .nil, ?_⟩
    rw [render, List.flatMap_nil, List.append_nil]
    exact answers_nil _
  | cons entry rest ih =>
    obtain ⟨item, gap⟩ := entry
    -- only the last item may have nothing behind it
    obtain ⟨hgap, hrest⟩ : (gap ≠ [] ∨ render rest = []) ∧
        ∀ other ∈ rest.dropLast, other.2 ≠ [] := by
      cases rest with
      | nil => exact ⟨.inr rfl, by simp⟩
      | cons next more =>
        obtain ⟨hfirst, hothers⟩ := List.forall_mem_cons.mp hseparated
        exact ⟨.inl hfirst, hothers⟩
    -- the item itself ends no line
    have hbefore : 1 + lineBreaks (before ++ (item.bytes ++ Separator.render gap)) =
        1 + lineBreaks before + lineBreaks (Separator.render gap) := by
      rw [lineBreaks_append (item.begins _).head?_ne, lineBreaks_unbroken item.unbroken,
        Nat.add_assoc]
    have hrender : render ((item, gap) :: rest) =
        item.bytes ++ (Separator.render gap ++ render rest) := List.append_assoc ..
    obtain ⟨tokens, hgives, hanswers⟩ := ih hrest (before ++ (item.bytes ++ Separator.render gap))
    obtain ⟨mode, hready, hpasses, -⟩ := exists_ready item (1 + lineBreaks before)
    have hreadAs := Dissection.readAs_lexeme item
    refine ⟨⟨Dissection.lexeme item, Separator.commaFirst gap, 1 + lineBreaks before⟩ :: tokens,
      .cons ⟨hreadAs, hreadAs.text_eq, rfl, rfl⟩ hgives, ?_⟩
    rw [hbefore, List.append_assoc, List.append_assoc] at hanswers
    rw [hrender]
    apply (Leads.of_passes hpasses).answers
    exact answers_separators hready (fun comma => hreadAs.endsLine_eq comma _) (begins_render rest)
      (hgap.imp_right .inl) hanswers

end Position

/-- Scanning undoes rendering. A source of items with separators between them, scanned without line
ends, is answered by one token per item in their order, and then by the end of the file. Each token
has the text of its item and is read as the item demands, knows whether a comma comes first behind
the item, and stands on the line that the line ends before it make. -/
theorem Rendering.answers_of_rendering (r : Rendering) (origin : String) :
    let s : Scanner := { source := .ofBytes r.bytes, origin, lineEnds := false }
    ∃ tokens, List.Forall₂ Place.Gives r.places tokens ∧
      s.readings.map Reading.answer =
        tokens.map .ok ++ [.ok (.endOfFile (1 + lineBreaks r.bytes))] := by
  intro s
  obtain ⟨tokens, hgives, hanswers⟩ :=
    Position.answers_render r.separated (Separator.render r.lead)
  refine ⟨tokens, hgives, ?_⟩
  rw [answer_readings rfl]
  exact (Position.leads_separators r.lead 1 (begins_render r.items).head?_ne).answers hanswers s
    ⟨rfl, rfl, rfl⟩

/-- A label that spells a register, the register itself with a blank before its comma and a carriage
return before a line feed, digits with a zero in front and a comma in the comment behind them, which
does not count, and a literal with escapes. -/
theorem Rendering.answers_of_rendering_of_four_items :
    let name : Name :=
      { first := 0x78, rest := [0x31], first_start := by decide, rest_name := by decide +kernel }
    let r : Rendering :=
      { lead := [.blank 0x20 (by decide)]
        items :=
          [(.label name, [.blank 0x20 (by decide)]),
           (.word name, [.blank 0x20 (by decide), .comma, .lineEnd 0x0D (by decide),
             .lineEnd 0x0A (by decide)]),
           (.digits [0x30, 0x37] (by decide) (by decide +kernel) (by decide),
             [.comment [0x2C] (by decide +kernel) 0x0A (by decide)]),
           (.literal [.code 4 1 true, .escape 0x6E 0x0A (by decide)] "A\n" (by decide), [])]
        separated := by decide }
    let s : Scanner := { source := .ofBytes r.bytes, lineEnds := false }
    r.bytes = utf8 " x1: x1 ,\r\n07#,\n\"\\x41\\n\"" ∧
      r.places.map (fun place => (place.comma, place.line)) =
        [(false, 1), (true, 1), (false, 2), (false, 3)] ∧
      ∃ tokens, List.Forall₂ Place.Gives r.places tokens ∧
        s.readings.map Reading.answer = tokens.map .ok ++ [.ok (.endOfFile 3)] := by
  intro name r s
  have hbreaks : lineBreaks r.bytes = 2 := by decide +kernel
  obtain ⟨tokens, hgives, hanswers⟩ := answers_of_rendering r "<input>"
  rw [hbreaks] at hanswers
  exact ⟨by decide +kernel, by decide +kernel, tokens, hgives, hanswers⟩

end AsmLinker
