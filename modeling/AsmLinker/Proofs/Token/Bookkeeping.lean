import Mathlib
import AsmLinker.Proofs.Token.Reads
import AsmLinker.Proofs.Token.Registers

/-!
# The bookkeeping of the scanner

The scanner answers as its registers do (`Registers.requests_view`), so that what is known of these
is known of the scanner: between two requests it is in a state that reads no lexeme and holds no
token, it gives out a token wherever it means to, it pushes a byte back only where there is room for
it, all signals are delivered in order, and no token is completed in a state that reads none
(`Scanner.requests_bookkept`).

The registers stand for a mode only if they fit the state (`Registers.mode?`). Step by step they
come to the step of the scanner in that mode (`Registers.tracks_step`). What a procedure reads one
by one is what a reader takes of the pending signals at once (`Registers.Runs`).
-/

namespace AsmLinker

namespace Literal

/-- Takes the first signal. -/
def next : List Signal → Except LiteralFault (Option UInt8) × List Signal
  | [] => (.ok none, [])
  | .byte b :: rest => (.ok (some b), rest)
  | .fault cause :: rest => (.error (.unreadable cause), rest)

/-- The digit that a byte stands for. -/
def digit? : Option UInt8 → Except LiteralFault Nat
  | none => .error (.malformed .badHexEscape)
  | some b =>
    match Numeral.digit? (Char.ofUInt8 b) with
    | some d => .ok d
    | none => .error (.malformed .badHexEscape)

theorem hexDigit_eq : hexDigit = andThen next fun b rest => (digit? b, rest) := by
  funext input
  rcases input with _ | ⟨⟨b⟩ | cause, rest⟩
  · rfl
  · rw [hexDigit, andThen, next]
    dsimp only [digit?]
    cases Numeral.digit? (Char.ofUInt8 b) <;> rfl
  · rfl

/-- Reads the rest of an escape, behind the byte that follows the backslash. -/
def escapeWith : Option UInt8 → List Signal → Except LiteralFault UInt8 × List Signal
  | none, rest => (.error (.malformed .unterminatedString), rest)
  | some b, rest =>
    if Char.ofUInt8 b = 'x' then hexEscape rest
    else if isLineEnd b then (.error (.malformed .unterminatedString), rest)
    else
      match escaped? b with
      | some decoded => (.ok decoded, rest)
      | none => (.error (.malformed (.unknownEscape (Char.ofUInt8 b))), rest)

theorem escape_eq : escape = andThen next escapeWith := by
  funext input
  rcases input with _ | ⟨⟨b⟩ | cause, rest⟩ <;> rfl

/-- Reads the rest of a literal, behind the bytes of it that have been decoded. -/
def bodyBehind (bytes : List UInt8) :
    List Signal → Except LiteralFault (List UInt8) × List Signal :=
  andThen body fun decoded rest => (.ok (bytes ++ decoded), rest)

theorem andThen_prepend_body (bytes : List UInt8) (b : UInt8) (rest : List Signal) :
    andThen (fun rest => prepend b (body rest)) (fun decoded rest => (.ok (bytes ++ decoded), rest))
      rest = bodyBehind (bytes ++ [b]) rest := by
  rw [bodyBehind, andThen, andThen]
  rcases body rest with ⟨fault | decoded, last⟩
  · rfl
  · dsimp only [prepend]
    rw [List.append_assoc, List.singleton_append]

section Behind

variable {b : UInt8} {bytes : List UInt8} {rest : List Signal}

theorem bodyBehind_raw (hquote : ¬ Char.ofUInt8 b = '"') (hline : ¬ isLineEnd b = true)
    (hslash : ¬ Char.ofUInt8 b = '\\') :
    bodyBehind bytes (.byte b :: rest) = bodyBehind (bytes ++ [b]) rest := by
  rw [← andThen_prepend_body, bodyBehind, andThen, andThen, body, if_neg hquote, if_neg hline,
    if_neg hslash]

theorem bodyBehind_backslash (hquote : ¬ Char.ofUInt8 b = '"') (hline : ¬ isLineEnd b = true)
    (hslash : Char.ofUInt8 b = '\\') : bodyBehind bytes (.byte b :: rest) =
      andThen escape (fun decoded => bodyBehind (bytes ++ [decoded])) rest := by
  rw [bodyBehind, andThen, (body_backslash hquote hline hslash rest).1, andThen, andThen]
  rcases escape rest with ⟨fault | decoded, last⟩
  · rfl
  · exact andThen_prepend_body bytes decoded last

end Behind

end Literal

namespace Registers

variable {α β : Type} {r r₁ r₂ : Registers} {b : UInt8} {state : State} {mode : Mode}
  {signals rest : List Signal}

/-! ## Reading one by one -/

/-- What is wrong with a literal, on the current line. -/
def cause (r : Registers) : LiteralFault → Error
  | .malformed fault => r.fault fault
  | .unreadable cause => r.unreadable cause

/-- The procedure takes of the source what the reader takes, and comes to the same. Nothing else
changes but the log. -/
def Runs (p : Procedure α) (f : List Signal → Except LiteralFault α × List Signal) : Prop :=
  ∀ r rest, r.source = ⟨none, rest⟩ → ∃ log, p r =
    ((f rest).1.mapError r.cause, { r with source := ⟨none, (f rest).2⟩, log })

theorem runs_give (value : α) : Runs (give value) fun rest => (.ok value, rest) := by
  intro r rest hsource
  refine ⟨r.log, ?_⟩
  rw [← hsource]
  rfl

theorem runs_refuse (fault : SourceFault) :
    Runs (refuse (α := α) fault) fun rest => (.error (.malformed fault), rest) := by
  intro r rest hsource
  refine ⟨r.log, ?_⟩
  rw [← hsource]
  rfl

theorem Runs.andThen {p : Procedure α} {q : α → Procedure β}
    {f : List Signal → Except LiteralFault α × List Signal}
    {g : α → List Signal → Except LiteralFault β × List Signal} (hp : Runs p f)
    (hq : ∀ value, Runs (q value) (g value)) : Runs (andThen p q) (Literal.andThen f g) := by
  intro r rest hsource
  obtain ⟨log, hlog⟩ := hp r rest hsource
  rw [Registers.andThen, hlog, Literal.andThen]
  rcases f rest with ⟨fault | value, rest'⟩
  · exact ⟨log, rfl⟩
  · exact hq value { r with source := ⟨none, rest'⟩, log } rest' rfl

theorem pending_eq (hsource : r.source = ⟨none, rest⟩) : r.source.pending = rest := by
  rw [hsource, Source.pending_mk_none]

theorem rest_of_read (hsource : r.source = ⟨none, rest⟩) (h : r.read = (.ok (some b), r₁)) :
    ∃ rest', rest = .byte b :: rest' ∧
      r₁ = { r with source := ⟨none, rest'⟩, log := .read (some (.byte b)) :: r.log } := by
  obtain ⟨rest', hpending, hr₁⟩ := pending_of_read h
  exact ⟨rest', (pending_eq hsource).symm.trans hpending, hr₁⟩

theorem rest_of_read_error {fault : Error} (hsource : r.source = ⟨none, rest⟩)
    (h : r.read = (.error fault, r₁)) :
    ∃ cause rest', rest = .fault cause :: rest' ∧ fault = r.unreadable cause ∧
      r₁ = { r with source := ⟨none, rest'⟩, log := .read (some (.fault cause)) :: r.log } := by
  obtain ⟨cause, rest', hpending, hfault, hr₁⟩ := pending_of_read_error h
  exact ⟨cause, rest', (pending_eq hsource).symm.trans hpending, hfault, hr₁⟩

theorem rest_of_read_none (hsource : r.source = ⟨none, rest⟩) (h : r.read = (.ok none, r₁)) :
    rest = [] ∧ r₁ = { r with source := ⟨none, []⟩, log := .read none :: r.log } := by
  obtain ⟨hpending, rfl⟩ := pending_of_read_none h
  obtain rfl := (pending_eq hsource).symm.trans hpending
  rw [← hsource]
  exact ⟨rfl, rfl⟩

theorem runs_read : Runs read Literal.next := by
  intro r rest hsource
  have hpending := pending_eq hsource
  rcases rest with _ | ⟨⟨b⟩ | cause, rest⟩
  · rw [read_of_pending_nil hpending]
    refine ⟨.read none :: r.log, ?_⟩
    dsimp only [Literal.next]
    rw [← hsource]
    rfl
  · rw [read_of_pending hpending]
    exact ⟨_, rfl⟩
  · rw [read_of_pending hpending]
    exact ⟨_, rfl⟩

theorem runs_hexDigit : Runs hexDigit Literal.hexDigit := by
  rw [Literal.hexDigit_eq]
  refine runs_read.andThen fun value => ?_
  cases value with
  | none => exact runs_refuse _
  | some b =>
    dsimp only [Literal.digit?]
    cases Numeral.digit? (Char.ofUInt8 b) with
    | none => exact runs_refuse _
    | some d => exact runs_give d

theorem runs_hexEscape : Runs hexEscape Literal.hexEscape := by
  rw [Literal.hexEscape_eq]
  refine runs_hexDigit.andThen fun high => runs_hexDigit.andThen fun low => ?_
  dsimp only [Literal.hexByte?]
  split
  · exact runs_refuse _
  · exact runs_give _

theorem runs_escape : Runs escape Literal.escape := by
  rw [Literal.escape_eq]
  refine runs_read.andThen fun value => ?_
  cases value with
  | none => exact runs_refuse _
  | some b =>
    dsimp only
    unfold Literal.escapeWith
    dsimp only
    split
    · exact runs_hexEscape
    split
    · exact runs_refuse _
    cases Literal.escaped? b with
    | none => exact runs_refuse _
    | some decoded => exact runs_give decoded

/-- A literal is read behind the bytes of it that have been decoded. -/
theorem runs_literalBytes (bytes : List UInt8) :
    Runs (literalBytes bytes) (Literal.bodyBehind bytes) := by
  intro r rest hsource
  -- along the reads of the literal, with what is left of the source at each of them
  fun_induction literalBytes bytes r generalizing rest with
  | case1 bytes r fault r₁ hread =>
    obtain ⟨cause, rest', rfl, rfl, rfl⟩ := rest_of_read_error hsource hread
    rw [Literal.bodyBehind, Literal.andThen, Literal.body]
    exact ⟨_, rfl⟩
  | case2 bytes r r₁ hread =>
    obtain ⟨rfl, rfl⟩ := rest_of_read_none hsource hread
    rw [Literal.bodyBehind, Literal.andThen, Literal.body]
    exact ⟨_, rfl⟩
  | case3 bytes r b r₁ hread hquote =>
    obtain ⟨rest', rfl, rfl⟩ := rest_of_read hsource hread
    rw [Literal.bodyBehind, Literal.andThen, Literal.body, if_pos hquote]
    dsimp only
    rw [List.append_nil]
    exact ⟨_, rfl⟩
  | case4 bytes r b r₁ hread hquote hline =>
    obtain ⟨rest', rfl, rfl⟩ := rest_of_read hsource hread
    rw [Literal.bodyBehind, Literal.andThen, Literal.body, if_neg hquote, if_pos hline]
    exact ⟨_, rfl⟩
  | case5 bytes r b r₁ hread hquote hline hslash fault r₂ hescape =>
    obtain ⟨rest', rfl, hr₁⟩ := rest_of_read hsource hread
    obtain ⟨log, hlog⟩ := runs_escape r₁ rest' (by rw [hr₁])
    rw [hescape] at hlog
    rw [Literal.bodyBehind_backslash hquote hline hslash, Literal.andThen]
    generalize Literal.escape rest' = result at hlog
    rcases result with ⟨fault' | decoded, last⟩
    · cases hlog
      rw [hr₁]
      exact ⟨log, rfl⟩
    · cases hlog
  | case6 bytes r b r₁ hread hquote hline hslash decoded r₂ hescape ih =>
    obtain ⟨rest', rfl, hr₁⟩ := rest_of_read hsource hread
    obtain ⟨log, hlog⟩ := runs_escape r₁ rest' (by rw [hr₁])
    rw [hescape] at hlog
    rw [Literal.bodyBehind_backslash hquote hline hslash, Literal.andThen]
    generalize Literal.escape rest' = result at hlog
    rcases result with ⟨fault | decoded', last⟩
    · cases hlog
    · cases hlog
      obtain ⟨log', hlog'⟩ := ih last rfl
      rw [hlog', hr₁]
      exact ⟨log', rfl⟩
  | case7 bytes r b r₁ hread hquote hline hslash ih =>
    obtain ⟨rest', rfl, rfl⟩ := rest_of_read hsource hread
    rw [Literal.bodyBehind_raw hquote hline hslash]
    exact ih rest' rfl

/-- The token of a literal is made of its text. -/
theorem literal_eq (hsource : r.source = ⟨none, rest⟩) : ∃ log, literal r =
    (((Literal.read rest).1.map fun text => r.token (.ascii text)).mapError r.cause,
      { r with source := ⟨none, (Literal.read rest).2⟩, log }) := by
  obtain ⟨log, hlog⟩ := runs_literalBytes [] r rest hsource
  refine ⟨log, ?_⟩
  rw [literal, andThen, hlog, Literal.bodyBehind, Literal.read_eq, Literal.andThen, Literal.andThen]
  rcases Literal.body rest with ⟨fault | bytes, last⟩
  · rfl
  · dsimp only [Except.mapError, List.nil_append, Literal.text?]
    cases String.fromUTF8? ⟨bytes.toArray⟩ <;> rfl

/-- What a failed read comes to, if there was one. -/
def outcome (r : Registers) : Option String → Except Error Unit
  | some cause => .error (r.unreadable cause)
  | none => .ok ()

theorem terminator_eq (hsource : r.source = ⟨none, rest⟩) (b : UInt8) : ∃ log, terminator b r =
    (r.outcome (Scanner.terminator r.source b).1,
      { r with source := (Scanner.terminator r.source b).2, log }) := by
  have hpending := pending_eq hsource
  rw [terminator, Scanner.terminator]
  split
  · rcases rest with _ | ⟨⟨c⟩ | cause, rest⟩
    · rw [read_of_pending_nil hpending, Source.next_of_pending_nil hpending]
      exact ⟨_, rfl⟩
    · rw [read_of_pending hpending, Source.next_of_pending hpending]
      dsimp only [received]
      split <;> exact ⟨_, rfl⟩
    · rw [read_of_pending hpending, Source.next_of_pending hpending]
      exact ⟨_, rfl⟩
  · exact ⟨_, rfl⟩

theorem comment_eq (hsource : r.source = ⟨none, rest⟩) : ∃ log, comment r =
    (r.outcome (Scanner.dropComment rest).1,
      { r with source := (Scanner.dropComment rest).2, log }) := by
  fun_induction comment r generalizing rest with
  | case1 r fault r₁ hread =>
    obtain ⟨cause, rest', rfl, rfl, rfl⟩ := rest_of_read_error hsource hread
    rw [Scanner.dropComment]
    exact ⟨_, rfl⟩
  | case2 r r₁ hread =>
    obtain ⟨rfl, rfl⟩ := rest_of_read_none hsource hread
    rw [Scanner.dropComment]
    exact ⟨_, rfl⟩
  | case3 r b r₁ hread hline =>
    obtain ⟨rest', rfl, rfl⟩ := rest_of_read hsource hread
    rw [Scanner.dropComment, if_pos hline]
    exact ⟨_, rfl⟩
  | case4 r b r₁ hread hline ih =>
    obtain ⟨rest', rfl, rfl⟩ := rest_of_read hsource hread
    rw [Scanner.dropComment, if_neg hline]
    exact ih rfl

/-! ## The scanner of the registers -/

/-- The mode of a state, if the registers have what it asks for. -/
def mode? (r : Registers) : State → Option Mode
  | .initial => some .initial
  | .readIdentifier => some (.identifier r.lexeme)
  | .readDigit => some (.digits r.lexeme)
  | .readSection => some (.directive r.lexeme)
  | .hold => r.held.map .held
  | .error => some .skipping
  | .exit => some .exhausted

/-- The mode of a state between two requests. -/
def restingMode : State → Mode
  | .error => .skipping
  | .exit => .exhausted
  | .initial | .readIdentifier | .readDigit | .readSection | .hold => .initial

/-- The scanner between two requests, as the registers have it. -/
def view (r : Registers) : Scanner :=
  { source := r.source, origin := r.origin, lineEnds := r.lineEnds, mode := restingMode r.saved,
    line := r.line, lineHasTokens := r.lineHasTokens }

theorem mode?_congr (hlexeme : r₁.lexeme = r.lexeme) (hheld : r₁.held = r.held) (state : State) :
    r₁.mode? state = r.mode? state := by
  cases state <;> simp only [mode?, hlexeme, hheld]

theorem state_of_mode? (h : r.mode? state = some mode) : mode.state = state := by
  cases state with
  | hold =>
    obtain ⟨token, -, rfl⟩ := Option.map_eq_some_iff.mp h
    rfl
  | _ =>
    cases h
    rfl

theorem mode?_of_rests (h : Rests state) : r.mode? state = some (restingMode state) := by
  rcases h with rfl | rfl | rfl <;> rfl

theorem state_restingMode (h : Rests state) : (restingMode state).state = state := by
  rcases h with rfl | rfl | rfl <;> rfl

/-- The lexeme is completed as in its mode, and then none is being read. -/
theorem complete_eq (h : r.mode? state = some mode) : complete state r =
    ((mode.complete.map r.token).mapError r.fault, { r with lexeme := "" }) := by
  cases state with
  | hold =>
    obtain ⟨token, -, rfl⟩ := Option.map_eq_some_iff.mp h
    rfl
  | readDigit =>
    cases h
    dsimp only [complete, Mode.complete]
    cases Numeral.word? 10 r.lexeme.toList <;> rfl
  | readSection =>
    cases h
    dsimp only [complete, Mode.complete]
    split <;> rfl
  | readIdentifier | initial | error | exit =>
    cases h
    rfl

/-- What a step of the registers comes to is what the step of the scanner comes to. -/
inductive Tracks : Except Error (State × Option Token) × Registers → Step → Prop
  | more {next : State} {mode : Mode} {r : Registers} (hmode : r.mode? next = some mode) :
      Tracks (.ok (next, none), r) (.more mode r.view)
  | emit {token : Token} {r : Registers} :
      Tracks (.ok (.initial, some token), r) (.emit token .initial r.view)
  | fail {fault : Error} {r : Registers} : Tracks (.error fault, r) (.fail fault r.view)

theorem tracks_endLine (hsource : r.source = ⟨none, rest⟩) (b : UInt8) :
    Tracks (andThen (endLine b) (fun token => give (.initial, token)) r)
      (r.view.endLine .initial b) := by
  obtain ⟨log, hlog⟩ := terminator_eq hsource b
  rw [andThen, endLine, andThen, hlog, Scanner.endLine]
  have hview : r.view.source = r.source := rfl
  rw [hview]
  rcases Scanner.terminator r.source b with ⟨_ | cause, source⟩
  · dsimp only [outcome]
    have hends : (r.view.lineEnds && r.view.lineHasTokens) = (r.lineEnds && r.lineHasTokens) := rfl
    rw [hends]
    split
    · exact .emit
    · exact .more rfl
  · exact .fail

theorem tracks_comment (hsource : r.source = ⟨none, rest⟩) :
    Tracks (andThen comment (fun _ => give (.initial, none)) r) (r.view.comment .initial) := by
  obtain ⟨log, hlog⟩ := comment_eq hsource
  have hpending : r.view.source.pending = rest := pending_eq hsource
  rw [andThen, hlog, Scanner.comment, hpending]
  rcases Scanner.dropComment rest with ⟨_ | cause, source⟩
  · exact .more rfl
  · exact .fail

theorem tracks_literal (hsource : r.source = ⟨none, rest⟩) :
    Tracks (andThen literal hold r) r.view.literal := by
  obtain ⟨log, hlog⟩ := literal_eq hsource
  have hpending : r.view.source.pending = rest := pending_eq hsource
  rw [andThen, hlog, Scanner.literal, hpending]
  rcases Literal.read rest with ⟨(⟨fault⟩ | ⟨cause⟩) | text, last⟩
  · exact .fail
  · exact .fail
  · exact .more rfl

/-- The registers perform an action as the scanner does in the mode that they stand for. -/
theorem tracks_step (hsource : r.source = ⟨none, rest⟩) (hmode : r.mode? state = some mode)
    (b : UInt8) : Tracks (step state b r) (r.view.step mode b) := by
  have hstate := mem_performedIn state (CharClass.of b)
  -- a byte that is pushed back does not change what the registers stand for
  have hback : (r.unread b).mode? state = some mode := (mode?_congr rfl rfl state).trans hmode
  rw [Scanner.step, state_of_mode? hmode]
  unfold step
  generalize action state (CharClass.of b) = act at hstate ⊢
  cases act with
  | beginIdentifier | beginDigit | beginSection => exact .more rfl
  | accumulate =>
    simp only [performedIn, List.mem_cons, List.not_mem_nil, or_false] at hstate
    rcases hstate with rfl | rfl | rfl <;> cases hmode <;> exact .more rfl
  | complete =>
    dsimp only
    rw [andThen, complete_eq hmode]
    cases mode.complete with
    | error fault => exact .fail
    | ok lexeme => exact .more rfl
  | completeComma =>
    dsimp only
    rw [andThen, complete_eq hmode]
    cases mode.complete with
    | error fault => exact .fail
    | ok lexeme => exact .emit
  | completeBefore =>
    dsimp only
    rw [andThen, complete_eq hback]
    cases mode.complete with
    | error fault => exact .fail
    | ok lexeme => exact .emit
  | label =>
    obtain rfl := List.mem_singleton.mp hstate
    cases hmode
    exact .more rfl
  | release =>
    -- the registers fit the state, so that there is a token
    obtain rfl := List.mem_singleton.mp hstate
    obtain ⟨token, hheld, rfl⟩ := Option.map_eq_some_iff.mp hmode
    dsimp only
    rw [hheld]
    exact .emit
  | releaseComma =>
    obtain rfl := List.mem_singleton.mp hstate
    obtain ⟨token, hheld, rfl⟩ := Option.map_eq_some_iff.mp hmode
    dsimp only
    rw [hheld]
    exact .emit
  | skip => exact .more hmode
  | endOfLine =>
    obtain rfl := List.mem_singleton.mp hstate
    cases hmode
    exact tracks_endLine hsource b
  | comment =>
    obtain rfl := List.mem_singleton.mp hstate
    cases hmode
    exact tracks_comment hsource
  | ascii => exact tracks_literal hsource
  | recover => exact .more rfl
  | unknown => exact .fail

/-! ## Requests -/

/-- The reading that a reply stands for. -/
def reading (reply : Reply) : Reading :=
  { answer := reply.answer, scanner := reply.registers.view }

theorem view_failed (r : Registers) (fault : Error) (hmode : r₁.mode? state = some mode) :
    (r.failed fault state).view = r.view.failed fault mode := by
  have hinitial : state = .initial ↔ mode = .initial := by
    rw [← state_of_mode? hmode]
    cases mode <;> simp [Mode.state]
  rw [failed, Scanner.failed]
  split
  · rfl
  · by_cases h : state = .initial
    · rw [if_pos h, if_pos (hinitial.mp h)]
      rfl
    · rw [if_neg h, if_neg (mt hinitial.mpr h)]
      rfl

/-- At the end of the input the registers answer as the scanner does. -/
theorem view_finish (hmode : r.mode? state = some mode) : r.view.finish mode =
    match finish state r with
    | (.ok token, r') => (.ok token, { r' with saved := .exit }.view)
    | (.error fault, r') => (.error fault, r'.view) := by
  cases state with
  | hold =>
    obtain ⟨token, hheld, rfl⟩ := Option.map_eq_some_iff.mp hmode
    dsimp only [finish]
    rw [hheld]
    rfl
  | readIdentifier | readDigit | readSection =>
    rw [finish, complete_eq hmode]
    cases hmode
    dsimp only [Scanner.finish]
    generalize Mode.complete _ = result
    cases result <;> rfl
  | initial | error | exit =>
    cases hmode
    rfl

/-- When a byte is read, the registers and the scanner take the same step. -/
theorem tracks_of_read {e : Event} (hread : (r.record e).read = (.ok (some b), r₁))
    (hmode : r.mode? state = some mode) :
    r₁.mode? state = some mode ∧ Tracks (step state b r₁) (r₁.view.step mode b) ∧
      r.view.resume mode =
        match r₁.view.step mode b with
        | .more mode' s' => s'.resume mode'
        | .emit token mode' s' => (.ok token, s'.answered token mode')
        | .fail fault s' => (.error fault, s'.failed fault mode) := by
  obtain ⟨rest, hpending, hr₁⟩ := pending_of_read hread
  have hmode₁ : r₁.mode? state = some mode := by
    rw [hr₁]
    exact (mode?_congr rfl rfl state).trans hmode
  refine ⟨hmode₁, tracks_step (by rw [hr₁]) hmode₁ b, ?_⟩
  rw [hr₁]
  exact Scanner.resume_byte mode hpending

/-- From a state that the registers fit, they answer as the scanner does. -/
theorem view_resume (hmode : r.mode? state = some mode) :
    r.view.resume mode = ((resume state r).1, (resume state r).2.view) := by
  -- along the reads of the registers: a step leaves them in a state that they fit
  fun_induction resume state r generalizing mode with
  | case1 state r fault r₁ hread =>
    obtain ⟨cause, rest, hpending, rfl, rfl⟩ := pending_of_read_error hread
    exact Scanner.resume_fault (Source.next_of_pending hpending) mode
  | case2 state r r₁ hread =>
    obtain ⟨hpending, hr₁⟩ := pending_of_read_none hread
    have hview : r.view = r₁.view := by rw [hr₁]; rfl
    have hmode₁ : r₁.mode? state = some mode := by
      rw [hr₁]
      exact (mode?_congr rfl rfl state).trans hmode
    rw [Scanner.resume_nil mode hpending, hview, view_finish hmode₁, andThen]
    rcases finish state r₁ with ⟨fault | token, r₂⟩ <;> rfl
  | case3 state r b r₁ hread fault r₂ hstep =>
    obtain ⟨hmode₁, htracks, hresume⟩ := tracks_of_read hread hmode
    rw [hstep] at htracks
    generalize r₁.view.step mode b = stepped at htracks hresume
    cases htracks
    rw [hresume, view_failed r₂ fault hmode₁]
  | case4 state r b r₁ hread next r₂ hstep ih =>
    obtain ⟨-, htracks, hresume⟩ := tracks_of_read hread hmode
    rw [hstep] at htracks
    generalize r₁.view.step mode b = stepped at htracks hresume
    cases htracks with
    | more hnext =>
      rw [hresume]
      exact ih hnext
  | case5 state r b r₁ hread next token r₂ hstep =>
    obtain ⟨-, htracks, hresume⟩ := tracks_of_read hread hmode
    rw [hstep] at htracks
    generalize r₁.view.step mode b = stepped at htracks hresume
    cases htracks
    rw [hresume]
    rfl

/-- A request to the registers is one to the scanner. -/
theorem view_scan (hrests : Rests r.saved) : r.view.scan = (r.scan.1, r.scan.2.view) :=
  view_resume (mode?_of_rests hrests)

/-- The scanner answers every request as the registers do. -/
theorem requests_view (haccounted : Accounted signals r.source r.log) (hrests : Rests r.saved)
    (n : Nat) : r.view.requests n = (r.requests n).map reading := by
  induction n generalizing r with
  | zero => rfl
  | succ n ih =>
    have hsettled := settled_scan haccounted hrests
    have hread : r.view.read = reading ⟨r.scan.1, r.scan.2⟩ := by
      rw [Scanner.read, view_scan hrests]
      rfl
    rw [Scanner.requests, requests, List.map_cons, hread]
    exact congrArg _ (ih hsettled.accounted hsettled.rests)

end Registers

/-- The scanner keeps its books, whatever the source delivers and however often it is asked. Its
answers are those of the registers, request by request, and after each of them the books of the
registers are in order. -/
theorem Scanner.requests_bookkept (signals : List Signal) (origin : String) (lineEnds : Bool)
    (n : Nat) :
    let s : Scanner := { source := ⟨none, signals⟩, origin, lineEnds }
    let r : Registers := { source := ⟨none, signals⟩, origin, lineEnds }
    s.requests n = (r.requests n).map Registers.reading ∧
      (∀ reply ∈ r.requests n, Registers.Bookkept signals reply) ∧
      ∀ reading ∈ s.requests n,
        (reading.scanner.state = .initial ∨ reading.scanner.state = .error ∨
          reading.scanner.state = .exit) ∧
        ∀ line state, reading.answer ≠ .error (.source line (.completedIn state)) := by
  intro s r
  have haccounted : Registers.Accounted signals r.source r.log := Registers.accounted_nil r.source
  have hrests : Registers.Rests r.saved := .inl rfl
  have hrequests : s.requests n = (r.requests n).map Registers.reading :=
    Registers.requests_view haccounted hrests n
  have hbookkept : ∀ reply ∈ r.requests n, Registers.Bookkept signals reply :=
    fun reply => Registers.bookkept_of_mem_requests haccounted hrests
  refine ⟨hrequests, hbookkept, fun reading hreading => ?_⟩
  rw [hrequests] at hreading
  obtain ⟨reply, hreply, rfl⟩ := List.mem_map.mp hreading
  have hreply := hbookkept reply hreply
  refine ⟨?_, hreply.faultless⟩
  -- the saved state is one that a scanner between two requests can be in
  have hstate : (Registers.reading reply).scanner.state = reply.registers.saved :=
    Registers.state_restingMode hreply.saved
  rw [hstate]
  exact hreply.saved

end AsmLinker
