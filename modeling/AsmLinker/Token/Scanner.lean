import AsmLinker.Token.Literal

/-!
# The scanner

The scanner runs the automaton over a byte source and answers one token per request, the end of the
file once the input is exhausted, or an error. Scanning can go on after every error: an unknown
character loses the lexeme it stands in, and a grave error or a failed read leaves the saved mode as
it was before the request.

A request ends because each step of the automaton either consumes a byte for good or goes back from
an unknown character to the place between two lexemes (`step_more_lt`).
-/

namespace AsmLinker

/-- A state of the automaton together with what it has read so far. -/
inductive Mode where
  /-- Between two lexemes. -/
  | initial
  /-- Inside a word. -/
  | identifier (lexeme : String)
  /-- Inside a run of decimal digits. -/
  | digits (lexeme : String)
  /-- Inside a word behind a period. -/
  | directive (lexeme : String)
  /-- Behind a finished token. -/
  | held (token : Token)
  /-- Behind an unknown character. -/
  | skipping
  /-- At the end of the input. -/
  | exhausted
deriving DecidableEq

namespace Mode

/-- The state of a mode. -/
def state : Mode → State
  | .initial => .initial
  | .identifier _ => .readIdentifier
  | .digits _ => .readDigit
  | .directive _ => .readSection
  | .held _ => .hold
  | .skipping => .error
  | .exhausted => .exit

/-- The lexeme of a mode that reads one. -/
def lexeme : Mode → String
  | .identifier lexeme => lexeme
  | .digits lexeme => lexeme
  | .directive lexeme => lexeme
  | _ => ""

/-- Adds a character to the lexeme. -/
def push (c : Char) : Mode → Mode
  | .identifier lexeme => .identifier (lexeme.push c)
  | .digits lexeme => .digits (lexeme.push c)
  | .directive lexeme => .directive (lexeme.push c)
  | mode => mode

/-- Turns what has been read into a lexeme of its kind. -/
def complete : Mode → Except SourceFault Lexeme
  | .identifier lexeme => .ok (.ofWord lexeme)
  | .digits lexeme =>
    match Numeral.word? 10 lexeme.toList with
    | some value => .ok (.digits lexeme value)
    | none => .error (.numberTooLarge lexeme)
  | .directive lexeme =>
    if lexeme = "" then .error .sectionNameMissing else .ok (.directive lexeme)
  | mode => .error (.completedIn mode.state)

/-- The token that is held back. -/
def token? : Mode → Option Token
  | .held token => some token
  | _ => none

/-- One more for the mode behind an unknown character, from which the automaton can go back without
consuming a byte. -/
def weight : Mode → Nat
  | .skipping => 1
  | _ => 0

end Mode

/-- The scanner between two requests. -/
structure Scanner where
  /-- Where the bytes come from. -/
  source : Source
  /-- The name of the source, for failed reads. -/
  origin : String := "<input>"
  /-- Whether a token is answered for the end of each line that had tokens. -/
  lineEnds : Bool := false
  /-- The mode in which the next request resumes. -/
  mode : Mode := .initial
  /-- The current line, from 1. -/
  line : Nat := 1
  /-- Whether a token was answered on the current line. -/
  lineHasTokens : Bool := false
deriving DecidableEq

/-- What a step of the automaton comes to. -/
inductive Step where
  /-- More input is needed. -/
  | more (mode : Mode) (scanner : Scanner)
  /-- A token is complete. -/
  | emit (token : Token) (mode : Mode) (scanner : Scanner)
  /-- An error is met. -/
  | fail (error : Error) (scanner : Scanner)

namespace Scanner

/-- The state in which the next request resumes. -/
def state (s : Scanner) : State :=
  s.mode.state

/-- Pushes a byte back. -/
def unread (s : Scanner) (b : UInt8) : Scanner :=
  { s with source := s.source.unread b }

/-- A lexeme on the current line. -/
def token (s : Scanner) (lexeme : Lexeme) : Token :=
  { lexeme, line := s.line }

/-- A fault on the current line. -/
def fault (s : Scanner) (fault : SourceFault) : Error :=
  .source s.line fault

/-- A failed read of the source. -/
def unreadable (s : Scanner) (cause : String) : Error :=
  .file .read s.origin cause

/-- Reads the rest of a line terminator that begins with `b`: a line feed directly behind a carriage
return belongs to it. Answers the cause of a failed read. -/
def terminator (source : Source) (b : UInt8) : Option String × Source :=
  if b = 0x0D then
    match source.next with
    | (some (.fault cause), source) => (some cause, source)
    | (some (.byte c), source) => (none, if c = 0x0A then source else source.unread c)
    | (none, source) => (none, source)
  else
    (none, source)

/-- Ends the current line. -/
def endLine (s : Scanner) (mode : Mode) (b : UInt8) : Step :=
  match terminator s.source b with
  | (some cause, source) => .fail (s.unreadable cause) { s with source }
  | (none, source) =>
    let next := { s with source, line := s.line + 1, lineHasTokens := false }
    if s.lineEnds && s.lineHasTokens then .emit (s.token .endOfLine) mode next
    else .more mode next

/-- Drops what is pending up to the end of the line, which stays. Answers the cause of a failed
read. -/
def dropComment : List Signal → Option String × Source
  | [] => (none, { rest := [] })
  | .fault cause :: rest => (some cause, { rest })
  | .byte b :: rest =>
    if CharClass.of b = .newLine then (none, Source.unread { rest } b) else dropComment rest

/-- Reads a comment behind its hash. -/
def comment (s : Scanner) (mode : Mode) : Step :=
  match dropComment s.source.pending with
  | (some cause, source) => .fail (s.unreadable cause) { s with source }
  | (none, source) => .more mode { s with source }

/-- Reads a string literal behind its opening quote and holds its token back. -/
def literal (s : Scanner) : Step :=
  match Literal.read s.source.pending with
  | (.ok text, rest) => .more (.held (s.token (.ascii text))) { s with source := { rest } }
  | (.error (.malformed fault), rest) => .fail (s.fault fault) { s with source := { rest } }
  | (.error (.unreadable cause), rest) => .fail (s.unreadable cause) { s with source := { rest } }

/-- Performs the action for a byte that was read in a mode. -/
def step (s : Scanner) (mode : Mode) (b : UInt8) : Step :=
  match action mode.state (CharClass.of b) with
  | .accumulate => .more (mode.push (Char.ofUInt8 b)) s
  | .beginIdentifier => .more (.identifier (String.singleton (Char.ofUInt8 b))) s
  | .beginDigit => .more (.digits (String.singleton (Char.ofUInt8 b))) s
  | .beginSection => .more (.directive "") s
  | .complete =>
    match mode.complete with
    | .ok lexeme => .more (.held (s.token lexeme)) s
    | .error fault => .fail (s.fault fault) s
  | .completeComma =>
    match mode.complete with
    | .ok lexeme => .emit { s.token lexeme with comma := true } .initial s
    | .error fault => .fail (s.fault fault) s
  | .completeBefore =>
    match mode.complete with
    | .ok lexeme => .emit (s.token lexeme) .initial (s.unread b)
    | .error fault => .fail (s.fault fault) (s.unread b)
  | .label => .more (.held (s.token (.label mode.lexeme))) s
  | .release =>
    match mode.token? with
    | some token => .emit token .initial (s.unread b)
    | none => .more .initial (s.unread b)
  | .releaseComma =>
    match mode.token? with
    | some token => .emit { token with comma := true } .initial s
    | none => .more .initial s
  | .skip => .more mode s
  | .endOfLine => s.endLine mode b
  | .comment => s.comment mode
  | .ascii => s.literal
  | .recover => .more .initial (s.unread b)
  | .unknown => .fail (.lexical s.line (Char.ofUInt8 b)) s

/-- The input has run out: what has been read becomes a token, and otherwise the end of the file is
answered. -/
def finish (s : Scanner) (mode : Mode) : Except Error Token × Scanner :=
  let exhausted := { s with mode := .exhausted }
  match mode with
  | .held token => (.ok token, exhausted)
  | .identifier _ | .digits _ | .directive _ =>
    match mode.complete with
    | .ok lexeme => (.ok (s.token lexeme), exhausted)
    | .error fault => (.error (s.fault fault), s)
  | .initial | .skipping | .exhausted => (.ok (.endOfFile s.line), exhausted)

/-- The scanner after a token was answered. -/
def answered (s : Scanner) (token : Token) (mode : Mode) : Scanner :=
  { s with mode, lineHasTokens := s.lineHasTokens || token.kind != .endOfLine }

/-- The scanner after an error was met in a mode: an unknown character inside a lexeme makes the
next request skip the rest of it. -/
def failed (s : Scanner) (error : Error) (mode : Mode) : Scanner :=
  if error.isFatal then s
  else { s with mode := if mode = .initial then .initial else .skipping }

/-! ### Progress -/

theorem length_terminator_le (source : Source) (b : UInt8) :
    (terminator source b).2.pending.length ≤ source.pending.length := by
  unfold terminator
  split
  · cases h : source.pending with
    | nil => simp [Source.next_of_pending_nil h, h]
    | cons signal rest =>
      rw [Source.next_of_pending h]
      cases signal with
      | fault cause => simp
      | byte c =>
        dsimp only
        split
        · simp
        · rw [Source.pending_unread c rfl]
          simp
  · simp

theorem length_dropComment_le (input : List Signal) :
    (dropComment input).2.pending.length ≤ input.length := by
  induction input with
  | nil => simp [dropComment]
  | cons signal rest ih =>
    cases signal with
    | fault cause => simp [dropComment]
    | byte b =>
      rw [dropComment]
      split
      · simp [Source.unread]
      · simp only [List.length_cons]
        omega

/-- A token is released only where one is held. -/
theorem token?_of_release {mode : Mode} {c : CharClass} (h : action mode.state c = .release) :
    ∃ token, mode = .held token := by
  cases mode with
  | held token => exact ⟨token, rfl⟩
  | _ => cases c <;> simp [Mode.state, action] at h

/-- The automaton recovers only behind an unknown character. -/
theorem eq_skipping_of_recover {mode : Mode} {c : CharClass} (h : action mode.state c = .recover) :
    mode = .skipping := by
  cases mode with
  | skipping => rfl
  | _ => cases c <;> simp [Mode.state, action] at h

theorem weight_push (c : Char) (mode : Mode) : (mode.push c).weight = mode.weight := by
  cases mode <;> rfl

/-- A step that asks for more has consumed its byte, or has left the mode behind an unknown
character for good. -/
theorem step_more_lt {s s' : Scanner} {mode mode' : Mode} {b : UInt8}
    (clear : s.source.back = none) (h : s.step mode b = .more mode' s') :
    2 * s'.source.pending.length + mode'.weight <
      2 * (s.source.pending.length + 1) + mode.weight := by
  unfold step at h
  split at h
  case h_1 =>
    cases h
    rw [weight_push]
    omega
  case h_2 => cases h; simp only [Mode.weight]; omega
  case h_3 => cases h; simp only [Mode.weight]; omega
  case h_4 => cases h; simp only [Mode.weight]; omega
  case h_5 =>
    split at h <;> cases h
    simp only [Mode.weight]
    omega
  case h_6 => split at h <;> cases h
  case h_7 => split at h <;> cases h
  case h_8 => cases h; simp only [Mode.weight]; omega
  case h_9 act =>
    obtain ⟨token, rfl⟩ := token?_of_release act
    simp [Mode.token?] at h
  case h_10 =>
    split at h <;> cases h
    simp only [Mode.weight]
    omega
  case h_11 => cases h; omega
  case h_12 =>
    unfold endLine at h
    have shorter := length_terminator_le s.source b
    split at h
    · cases h
    · rename_i source same
      simp only [same] at shorter
      dsimp only at h
      split at h <;> cases h
      simp only
      omega
  case h_13 =>
    unfold comment at h
    have shorter := length_dropComment_le s.source.pending
    split at h <;> cases h
    rename_i source same
    simp only [same] at shorter
    simp only
    omega
  case h_14 =>
    unfold literal at h
    have shorter := Literal.length_read_le s.source.pending
    split at h <;> cases h
    rename_i text rest same
    simp only [same] at shorter
    simp only [Mode.weight, Source.pending_mk_none]
    omega
  case h_15 act =>
    have skipping := eq_skipping_of_recover act
    cases h
    subst skipping
    simp only [unread, Source.pending_unread b clear, List.length_cons, Mode.weight]
    omega
  case h_16 => cases h

/-- Runs the automaton from a mode until it answers. -/
def resume (s : Scanner) (mode : Mode) : Except Error Token × Scanner :=
  match _read : s.source.next with
  | (none, _) => s.finish mode
  | (some (.fault cause), source) => (.error (s.unreadable cause), { s with source })
  | (some (.byte b), source) =>
    match _stepped : step { s with source } mode b with
    | .more mode' s' => s'.resume mode'
    | .emit token mode' s' => (.ok token, s'.answered token mode')
    | .fail error s' => (.error error, s'.failed error mode)
termination_by 2 * s.source.pending.length + mode.weight
decreasing_by
  have clear : source.back = none := by
    have := s.source.back_next
    simpa [_read] using this
  have decreases := step_more_lt clear _stepped
  have length := s.source.length_pending_next
  simp only [_read] at length
  have pos : s.source.pending.length ≠ 0 := by
    intro zero
    have := Source.next_of_pending_nil (List.eq_nil_of_length_eq_zero zero)
    simp [_read] at this
  simp only at decreases
  omega

/-- Answers a request: the next token, the end of the file, or an error. -/
def scan (s : Scanner) : Except Error Token × Scanner :=
  s.resume s.mode

end Scanner

end AsmLinker
