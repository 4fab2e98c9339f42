import Mathlib
import AsmLinker.Token.Stream

/-!
# The registers of the scanner

The scanner once more, as a machine with a register for each thing that it keeps. A `Mode` holds a
token or a lexeme exactly where its state has one. Nothing ties the registers to each other: the
state may say that a token is held while the register for it is empty, what was read of a lexeme
stays behind when a read fails, and a byte that is pushed back replaces one that was pushed back
before. Signals are read one by one, also in comments and literals, and whatever happens is written
to a log.

That the registers are kept in order is then something to prove. Procedures that read keep the
accounts (`Orderly`), and so does every step of the automaton, of which `Stepped` says once and for
all what it can come to. The main statement is `Registers.bookkept_of_mem_requests`: after any
number of requests, whatever was read and whatever failed, the log is as it should be
(`Registers.Bookkept`).
-/

namespace AsmLinker

/-- Something that happens while requests are answered. -/
inductive Event where
  /-- The automaton is about to read in a state, and this token is held. -/
  | turn (state : State) (held : Option Token)
  /-- The source is read and delivers this; at its end it delivers nothing. -/
  | read (signal : Option Signal)
  /-- A byte is pushed back, and this byte was pushed back before. -/
  | unread (b : UInt8) (back : Option UInt8)
  /-- An action has been performed and yields this token. -/
  | acted (action : Action) (token : Option Token)
deriving DecidableEq

/-- The scanner by its registers. -/
structure Registers where
  /-- Where the bytes come from, with the byte that was pushed back. -/
  source : Source
  /-- The name of the source, for failed reads. -/
  origin : String := "<input>"
  /-- Whether a token is answered for the end of each line that had tokens. -/
  lineEnds : Bool := false
  /-- The state in which the next request resumes. -/
  saved : State := .initial
  /-- What was read of a lexeme. -/
  lexeme : String := ""
  /-- The token that is held back. -/
  held : Option Token := none
  /-- The current line, from 1. -/
  line : Nat := 1
  /-- Whether a token was answered on the current line. -/
  lineHasTokens : Bool := false
  /-- What has happened so far, the latest first. -/
  log : List Event := []

/-- An answer, and the registers after it. -/
structure Reply where
  /-- A token or an error. -/
  answer : Except Error Token
  /-- The registers after the answer. -/
  registers : Registers

namespace Registers

/-- Something to do with the registers, which comes to a value or to an error. -/
abbrev Procedure (α : Type) :=
  Registers → Except Error α × Registers

variable {α β : Type}

/-- A lexeme on the current line. -/
def token (r : Registers) (lexeme : Lexeme) : Token :=
  { lexeme, line := r.line }

/-- A fault on the current line. -/
def fault (r : Registers) (fault : SourceFault) : Error :=
  .source r.line fault

/-- A failed read of the source. -/
def unreadable (r : Registers) (cause : String) : Error :=
  .file .read r.origin cause

/-- Writes an event to the log. -/
def record (r : Registers) (e : Event) : Registers :=
  { r with log := e :: r.log }

/-! ## Procedures -/

/-- Comes to a value. -/
def give (value : α) : Procedure α :=
  fun r => (.ok value, r)

/-- Comes to a fault on the current line. -/
def refuse (fault : SourceFault) : Procedure α :=
  fun r => (.error (r.fault fault), r)

/-- One procedure and then another one, if the first comes to a value. -/
def andThen (p : Procedure α) (q : α → Procedure β) : Procedure β :=
  fun r =>
    match p r with
    | (.ok value, r') => q value r'
    | (.error e, r') => (.error e, r')

/-- What a signal comes to when it is read. -/
def received (r : Registers) : Signal → Except Error (Option UInt8)
  | .byte b => .ok (some b)
  | .fault cause => .error (r.unreadable cause)

/-- Reads the next byte; there is none at the end of the source. -/
def read : Procedure (Option UInt8) :=
  fun r =>
    match r.source.next with
    | (none, source) => (.ok none, { r with source, log := .read none :: r.log })
    | (some signal, source) =>
      (r.received signal, { r with source, log := .read (some signal) :: r.log })

/-- Pushes a byte back. -/
def unread (r : Registers) (b : UInt8) : Registers :=
  { r with source := r.source.unread b, log := .unread b r.source.back :: r.log }

theorem read_of_pending_nil {r : Registers} (h : r.source.pending = []) :
    r.read = (.ok none, r.record (.read none)) := by
  rw [read, Source.next_of_pending_nil h]
  rfl

theorem read_of_pending {r : Registers} {signal : Signal} {rest : List Signal}
    (h : r.source.pending = signal :: rest) :
    r.read = (r.received signal,
      { r with source := ⟨none, rest⟩, log := .read (some signal) :: r.log }) := by
  rw [read, Source.next_of_pending h]

/-- A byte that was read was pending in front of the rest. -/
theorem pending_of_read {r r' : Registers} {b : UInt8} (h : r.read = (.ok (some b), r')) :
    ∃ rest, r.source.pending = .byte b :: rest ∧
      r' = { r with source := ⟨none, rest⟩, log := .read (some (.byte b)) :: r.log } := by
  rcases hpending : r.source.pending with _ | ⟨⟨c⟩ | cause, rest⟩
  · rw [read_of_pending_nil hpending] at h
    cases h
  · rw [read_of_pending hpending] at h
    cases h
    exact ⟨rest, rfl, rfl⟩
  · rw [read_of_pending hpending] at h
    cases h

theorem pending_of_read_error {r r' : Registers} {fault : Error} (h : r.read = (.error fault, r')) :
    ∃ cause rest, r.source.pending = .fault cause :: rest ∧ fault = r.unreadable cause ∧
      r' = { r with source := ⟨none, rest⟩, log := .read (some (.fault cause)) :: r.log } := by
  rcases hpending : r.source.pending with _ | ⟨⟨c⟩ | cause, rest⟩
  · rw [read_of_pending_nil hpending] at h
    cases h
  · rw [read_of_pending hpending] at h
    cases h
  · rw [read_of_pending hpending] at h
    cases h
    exact ⟨cause, rest, rfl, rfl, rfl⟩

theorem pending_of_read_none {r r' : Registers} (h : r.read = (.ok none, r')) :
    r.source.pending = [] ∧ r' = r.record (.read none) := by
  rcases hpending : r.source.pending with _ | ⟨⟨c⟩ | cause, rest⟩
  · rw [read_of_pending_nil hpending] at h
    cases h
    exact ⟨rfl, rfl⟩
  · rw [read_of_pending hpending] at h
    cases h
  · rw [read_of_pending hpending] at h
    cases h

/-! ## Accounts -/

/-- What has been delivered and not pushed back, in the order of delivery. -/
def delivered : List Event → List Signal
  | [] => []
  | .read (some signal) :: earlier => delivered earlier ++ [signal]
  | .unread _ _ :: earlier => (delivered earlier).dropLast
  | _ :: earlier => delivered earlier

/-- What is demanded of an event behind the earlier ones, if these are the signals of the source:
behind a finished token a token is held, each read delivers the signal behind those that have been
delivered, a byte is pushed back only if it was just read and none is pushed back yet, and releasing
a token yields one. -/
def Proper (signals : List Signal) (earlier : List Event) : Event → Prop
  | .turn state held => state = .hold → held.isSome = true
  | .read signal => signal = signals[(delivered earlier).length]?
  | .unread b back => back = none ∧ earlier.head? = some (.read (some (.byte b)))
  | .acted action token => action = .release ∨ action = .releaseComma → token.isSome = true

/-- The accounts of the source are right. -/
structure Accounted (signals : List Signal) (source : Source) (log : List Event) : Prop where
  /-- Every signal has been delivered or is pending. -/
  balance : delivered log ++ source.pending = signals
  /-- Every event is as it should be. -/
  proper : ∀ e earlier, e :: earlier <:+ log → Proper signals earlier e

variable {signals : List Signal} {source source' : Source} {log : List Event} {e : Event}
  {r r₁ r₂ : Registers} {b : UInt8} {state : State}

/-- Before anything has happened, the signals of the source are the pending ones. -/
theorem accounted_nil (source : Source) : Accounted source.pending source [] :=
  ⟨rfl, fun _ _ h => by simp at h⟩

theorem Accounted.cons (h : Accounted signals source log) (hproper : Proper signals log e)
    (hbalance : delivered (e :: log) ++ source'.pending = delivered log ++ source.pending) :
    Accounted signals source' (e :: log) := by
  refine ⟨hbalance.trans h.balance, fun e' earlier hsuffix => ?_⟩
  rcases List.suffix_cons_iff.mp hsuffix with heq | hsuffix
  · cases heq
    exact hproper
  · exact h.proper e' earlier hsuffix

/-- A read delivers the first signal that is pending. -/
theorem Accounted.proper_read (h : Accounted signals source log) :
    Proper signals log (.read source.pending.head?) := by
  rw [Proper, ← h.balance, List.getElem?_append_right le_rfl, Nat.sub_self,
    List.head?_eq_getElem?]

/-- The accounts are kept from one point to a later one. -/
structure Keeps (r r' : Registers) : Prop where
  accounted : ∀ {signals}, Accounted signals r.source r.log → Accounted signals r'.source r'.log
  /-- Nothing is pending that was not so before. -/
  length_le : r'.source.pending.length ≤ r.source.pending.length
  /-- The saved state changes only with an answer. -/
  saved : r'.saved = r.saved

theorem Keeps.refl (r : Registers) : Keeps r r :=
  ⟨id, le_rfl, rfl⟩

theorem Keeps.trans (h : Keeps r r₁) (h₁ : Keeps r₁ r₂) : Keeps r r₂ :=
  ⟨fun haccounted => h₁.accounted (h.accounted haccounted), h₁.length_le.trans h.length_le,
    h₁.saved.trans h.saved⟩

/-- The other registers do not matter. -/
theorem Keeps.update (h : Keeps r r₁) (hsource : r₂.source = r₁.source) (hlog : r₂.log = r₁.log)
    (hsaved : r₂.saved = r₁.saved) : Keeps r r₂ := by
  refine h.trans ⟨fun haccounted => ?_, ?_, hsaved⟩
  · rw [hsource, hlog]
    exact haccounted
  · rw [hsource]

theorem keeps_read (r : Registers) : Keeps r r.read.2 := by
  rcases hpending : r.source.pending with _ | ⟨signal, rest⟩
  · rw [read_of_pending_nil hpending]
    refine ⟨fun h => h.cons ?_ rfl, le_rfl, rfl⟩
    have hproper := h.proper_read
    rwa [hpending] at hproper
  · rw [read_of_pending hpending]
    refine ⟨fun h => h.cons ?_ ?_, ?_, rfl⟩
    · have hproper := h.proper_read
      rwa [hpending] at hproper
    · simp [delivered, hpending]
    · simp [hpending]

/-- A byte that was just read may be pushed back, and then it is as if it had not been read. -/
theorem keeps_unread (h : r.read = (.ok (some b), r₁)) : Keeps r (r₁.unread b) := by
  have hkeeps := keeps_read r
  obtain ⟨rest, hpending, rfl⟩ := pending_of_read h
  rw [h] at hkeeps
  refine ⟨fun haccounted => (hkeeps.accounted haccounted).cons ⟨rfl, rfl⟩ ?_, ?_, rfl⟩
  · simp [delivered, unread, Source.unread]
  · simp [unread, Source.unread, hpending]

/-! ## Orderly procedures -/

/-- The accounts are kept up to a result, and it is not that a token was completed in a state that
reads none. -/
structure Sound (r : Registers) (result : Except Error α × Registers) : Prop where
  keeps : Keeps r result.2
  faultless : ∀ line state, result.1 ≠ .error (.source line (.completedIn state))

/-- The procedure has sound results only. -/
def Orderly (p : Procedure α) : Prop :=
  ∀ r, Sound r (p r)

theorem Sound.ok (h : Keeps r r₁) (value : α) : Sound r (.ok value, r₁) :=
  ⟨h, by simp⟩

theorem Sound.refuse {fault : SourceFault} (h : Keeps r r₁)
    (hfault : ∀ state, fault ≠ .completedIn state) : Sound r (refuse (α := α) fault r₁) := by
  refine ⟨h, fun line state heq => hfault state ?_⟩
  cases heq
  rfl

/-- An error is passed on. -/
theorem Sound.error {fault : Error} (h : Sound r ((.error fault : Except Error α), r₁)) :
    Sound r ((.error fault : Except Error β), r₁) := by
  refine ⟨h.keeps, fun line state heq => h.faultless line state ?_⟩
  cases heq
  rfl

theorem Sound.trans {result : Except Error α × Registers} (h : Keeps r r₁)
    (hresult : Sound r₁ result) : Sound r result :=
  ⟨h.trans hresult.keeps, hresult.faultless⟩

theorem Sound.andThen {p : Procedure α} {q : α → Procedure β} (hp : Sound r (p r₁))
    (hq : ∀ value, Orderly (q value)) : Sound r (andThen p q r₁) := by
  rw [Registers.andThen]
  generalize p r₁ = result at hp ⊢
  rcases result with ⟨fault | value, r'⟩
  · exact hp.error
  · exact .trans hp.keeps (hq value r')

theorem orderly_give (value : α) : Orderly (give value) :=
  fun r => .ok (.refl r) value

theorem orderly_refuse {fault : SourceFault} (h : ∀ state, fault ≠ .completedIn state) :
    Orderly (refuse (α := α) fault) :=
  fun r => .refuse (.refl r) h

theorem Orderly.andThen {p : Procedure α} {q : α → Procedure β} (hp : Orderly p)
    (hq : ∀ value, Orderly (q value)) : Orderly (andThen p q) :=
  fun r => (hp r).andThen hq

theorem orderly_read : Orderly read := by
  refine fun r => ⟨keeps_read r, fun line state h => ?_⟩
  obtain ⟨cause, rest, -, hfault, -⟩ := pending_of_read_error (Prod.ext h rfl)
  cases hfault

theorem keeps_of_read {value : Except Error (Option UInt8)} (h : r.read = (value, r₁)) :
    Keeps r r₁ := by
  have hkeeps := keeps_read r
  rwa [h] at hkeeps

theorem sound_of_read {fault : Error} (h : r.read = (.error fault, r₁)) :
    Sound r ((.error fault : Except Error α), r₁) := by
  have hsound := orderly_read r
  rw [h] at hsound
  exact hsound.error

theorem length_of_read (h : r.read = (.ok (some b), r₁)) :
    r.source.pending.length = r₁.source.pending.length + 1 := by
  obtain ⟨rest, hpending, rfl⟩ := pending_of_read h
  rw [hpending]
  rfl

/-! ## Literals -/

/-- Reads one hexadecimal digit. -/
def hexDigit : Procedure Nat :=
  andThen read fun
    | none => refuse .badHexEscape
    | some b =>
      match Numeral.digit? (Char.ofUInt8 b) with
      | some d => give d
      | none => refuse .badHexEscape

/-- Reads the two digits of a hexadecimal escape, which must stand for an ASCII character. -/
def hexEscape : Procedure UInt8 :=
  andThen hexDigit fun high =>
    andThen hexDigit fun low =>
      if high * 16 + low > 0x7F then refuse (.escapeOutsideAscii (high * 16 + low))
      else give (UInt8.ofNat (high * 16 + low))

/-- Reads what follows a backslash. -/
def escape : Procedure UInt8 :=
  andThen read fun
    | none => refuse .unterminatedString
    | some b =>
      if Char.ofUInt8 b = 'x' then hexEscape
      else if Literal.isLineEnd b then refuse .unterminatedString
      else
        match Literal.escaped? b with
        | some decoded => give decoded
        | none => refuse (.unknownEscape (Char.ofUInt8 b))

theorem orderly_hexDigit : Orderly hexDigit := by
  refine orderly_read.andThen fun
    | none => orderly_refuse (by simp)
    | some b => ?_
  dsimp only
  split
  · exact orderly_give _
  · exact orderly_refuse (by simp)

theorem orderly_hexEscape : Orderly hexEscape := by
  refine orderly_hexDigit.andThen fun high => orderly_hexDigit.andThen fun low => ?_
  split
  · exact orderly_refuse (by simp)
  · exact orderly_give _

theorem orderly_escape : Orderly escape := by
  refine orderly_read.andThen fun
    | none => orderly_refuse (by simp)
    | some b => ?_
  dsimp only
  split
  · exact orderly_hexEscape
  split
  · exact orderly_refuse (by simp)
  split
  · exact orderly_give _
  · exact orderly_refuse (by simp)

/-- Reads a literal up to and with its closing quote, behind the bytes that have been decoded. -/
def literalBytes (bytes : List UInt8) (r : Registers) : Except Error (List UInt8) × Registers :=
  match _read : r.read with
  | (.error fault, r₁) => (.error fault, r₁)
  | (.ok none, r₁) => refuse .unterminatedString r₁
  | (.ok (some b), r₁) =>
    if Char.ofUInt8 b = '"' then (.ok bytes, r₁)
    else if Literal.isLineEnd b then refuse .unterminatedString r₁
    else if Char.ofUInt8 b = '\\' then
      match _escape : escape r₁ with
      | (.error fault, r₂) => (.error fault, r₂)
      | (.ok decoded, r₂) => literalBytes (bytes ++ [decoded]) r₂
    else literalBytes (bytes ++ [b]) r₁
termination_by r.source.pending.length
decreasing_by
  · have hlength := (orderly_escape r₁).keeps.length_le
    rw [_escape] at hlength
    rw [length_of_read _read]
    exact Nat.lt_succ_of_le hlength
  · rw [length_of_read _read]
    exact Nat.lt_succ_self _

/-- Reads a string literal behind its opening quote. The decoded bytes must be UTF-8. -/
def literal : Procedure Token :=
  andThen (literalBytes []) fun bytes r =>
    match String.fromUTF8? ⟨bytes.toArray⟩ with
    | some text => (.ok (r.token (.ascii text)), r)
    | none => refuse .stringNotUtf8 r

theorem orderly_literalBytes (bytes : List UInt8) : Orderly (literalBytes bytes) := by
  intro r
  fun_induction literalBytes bytes r with
  | case1 bytes r fault r₁ hread => exact sound_of_read hread
  | case2 bytes r r₁ hread => exact .refuse (keeps_of_read hread) (by simp)
  | case3 bytes r b r₁ hread => exact .ok (keeps_of_read hread) bytes
  | case4 bytes r b r₁ hread => exact .refuse (keeps_of_read hread) (by simp)
  | case5 bytes r b r₁ hread _ _ _ fault r₂ hescape =>
    have hsound := orderly_escape r₁
    rw [hescape] at hsound
    exact .trans (keeps_of_read hread) hsound.error
  | case6 bytes r b r₁ hread _ _ _ decoded r₂ hescape ih =>
    have hsound := orderly_escape r₁
    rw [hescape] at hsound
    exact .trans ((keeps_of_read hread).trans hsound.keeps) ih
  | case7 bytes r b r₁ hread _ _ _ ih => exact .trans (keeps_of_read hread) ih

theorem orderly_literal : Orderly literal := by
  refine (orderly_literalBytes []).andThen fun bytes r => ?_
  split
  · exact .ok (.refl r) _
  · exact .refuse (.refl r) (by simp)

/-! ## Lines -/

/-- Reads the rest of a line terminator that begins with `b`: a line feed directly behind a carriage
return belongs to it. -/
def terminator (b : UInt8) (r : Registers) : Except Error Unit × Registers :=
  if b = 0x0D then
    match r.read with
    | (.error fault, r₁) => (.error fault, r₁)
    | (.ok none, r₁) => (.ok (), r₁)
    | (.ok (some c), r₁) => (.ok (), if c = 0x0A then r₁ else r₁.unread c)
  else
    (.ok (), r)

/-- Ends the current line, and yields a token if one is to be answered for that. -/
def endLine (b : UInt8) : Procedure (Option Token) :=
  andThen (terminator b) fun _ r =>
    (.ok (if r.lineEnds && r.lineHasTokens then some (r.token .endOfLine) else none),
      { r with line := r.line + 1, lineHasTokens := false })

/-- Drops everything up to the end of the line, which is pushed back. -/
def comment (r : Registers) : Except Error Unit × Registers :=
  match _read : r.read with
  | (.error fault, r₁) => (.error fault, r₁)
  | (.ok none, r₁) => (.ok (), r₁)
  | (.ok (some b), r₁) =>
    if CharClass.of b = .newLine then (.ok (), r₁.unread b) else comment r₁
termination_by r.source.pending.length
decreasing_by
  rw [length_of_read _read]
  exact Nat.lt_succ_self _

theorem orderly_terminator (b : UInt8) : Orderly (terminator b) := by
  intro r
  rw [terminator]
  split
  · split
    next hread => exact sound_of_read hread
    next hread => exact .ok (keeps_of_read hread) ()
    next c r₁ hread =>
      split
      · exact .ok (keeps_of_read hread) ()
      · exact .ok (keeps_unread hread) ()
  · exact .ok (.refl r) ()

theorem orderly_endLine (b : UInt8) : Orderly (endLine b) := by
  refine (orderly_terminator b).andThen fun _ r => .ok ?_ _
  exact (Keeps.refl r).update rfl rfl rfl

theorem orderly_comment : Orderly comment := by
  intro r
  fun_induction comment r with
  | case1 r fault r₁ hread => exact sound_of_read hread
  | case2 r r₁ hread => exact .ok (keeps_of_read hread) ()
  | case3 r b r₁ hread => exact .ok (keeps_unread hread) ()
  | case4 r b r₁ hread _ ih => exact .trans (keeps_of_read hread) ih

/-! ## Steps of the automaton -/

/-- Turns the lexeme into a token of the kind that the state reads. -/
def complete (state : State) (r : Registers) : Except Error Token × Registers :=
  let emptied := { r with lexeme := "" }
  match state with
  | .readIdentifier => (.ok (r.token (.ofWord r.lexeme)), emptied)
  | .readDigit =>
    match Numeral.word? 10 r.lexeme.toList with
    | some value => (.ok (r.token (.digits r.lexeme value)), emptied)
    | none => refuse (.numberTooLarge r.lexeme) emptied
  | .readSection =>
    if r.lexeme = "" then refuse .sectionNameMissing emptied
    else (.ok (r.token (.directive r.lexeme)), emptied)
  | .initial | .exit | .error | .hold => refuse (.completedIn state) emptied

/-- Holds a token back. -/
def hold (token : Token) : Procedure (State × Option Token) :=
  fun r => (.ok (.hold, none), { r with held := some token })

/-- Performs the action for a byte that was read in a state. Comes to the next state, and to a token
if one is complete. -/
def step (state : State) (b : UInt8) (r : Registers) :
    Except Error (State × Option Token) × Registers :=
  match action state (CharClass.of b) with
  | .accumulate => (.ok (state, none), { r with lexeme := r.lexeme.push (Char.ofUInt8 b) })
  | .beginIdentifier =>
    (.ok (.readIdentifier, none), { r with lexeme := String.singleton (Char.ofUInt8 b) })
  | .beginDigit =>
    (.ok (.readDigit, none), { r with lexeme := String.singleton (Char.ofUInt8 b) })
  | .beginSection => (.ok (.readSection, none), { r with lexeme := "" })
  | .complete => andThen (complete state) hold r
  | .completeComma =>
    andThen (complete state) (fun token => give (.initial, some { token with comma := true })) r
  | .completeBefore =>
    andThen (complete state) (fun token => give (.initial, some token)) (r.unread b)
  | .label => hold (r.token (.label r.lexeme)) { r with lexeme := "" }
  | .release => (.ok (.initial, r.held), { r.unread b with held := none })
  | .releaseComma =>
    (.ok (.initial, r.held.map fun token => { token with comma := true }), { r with held := none })
  | .skip => (.ok (state, none), r)
  | .endOfLine => andThen (endLine b) (fun token => give (state, token)) r
  | .comment => andThen comment (fun _ => give (state, none)) r
  | .ascii => andThen literal hold r
  | .recover => (.ok (.initial, none), r.unread b)
  | .unknown => (.error (.lexical r.line (Char.ofUInt8 b)), { r with lexeme := "" })

/-- The states in which an action is performed. -/
def performedIn : Action → List State
  | .beginIdentifier | .beginDigit | .beginSection | .endOfLine | .comment | .ascii => [.initial]
  | .accumulate | .complete | .completeComma | .completeBefore =>
    [.readIdentifier, .readDigit, .readSection]
  | .label => [.readIdentifier]
  | .release | .releaseComma => [.hold]
  | .recover => [.error]
  | .skip => [.initial, .hold, .error, .exit]
  | .unknown => [.initial, .readIdentifier, .readDigit, .readSection]

theorem mem_performedIn (state : State) (c : CharClass) :
    state ∈ performedIn (action state c) := by
  cases state <;> cases c <;> decide

/-- In the state behind a finished token, a token is held. -/
def Ready (r : Registers) (state : State) : Prop :=
  state = .hold → r.held.isSome = true

/-- Whether the action gives out the held token. -/
def Releases (act : Action) : Prop :=
  act = .release ∨ act = .releaseComma

/-- One more for the states from which the automaton can go on without consuming the byte. -/
def weight : State → Nat
  | .error | .hold => 1
  | .initial | .readIdentifier | .readDigit | .readSection | .exit => 0

/-- What a step can come to, with the registers before and behind the read of its byte. -/
inductive Stepped (before r : Registers) (state : State) (act : Action) :
    Except Error (State × Option Token) × Registers → Prop
  /-- The automaton goes on behind the byte. -/
  | more {next : State} {r' : Registers} (hkeeps : Keeps r r')
      (hready : Ready r state → Ready r' next ∧ ¬ Releases act) :
      Stepped before r state act (.ok (next, none), r')
  /-- The automaton goes on between two lexemes, before the byte. -/
  | back {r' : Registers} (hkeeps : Keeps before r') (hstate : weight state = 1)
      (hready : Ready r state → ¬ Releases act) :
      Stepped before r state act (.ok (.initial, none), r')
  /-- A token is complete. -/
  | emit {token : Token} {r' : Registers} (hkeeps : Keeps before r') :
      Stepped before r state act (.ok (.initial, some token), r')
  /-- An error is met. -/
  | fail {fault : Error} {r' : Registers}
      (hsound : Sound before ((.error fault : Except Error (State × Option Token)), r')) :
      Stepped before r state act (.error fault, r')

theorem sound_complete (h : Keeps r r₁) (hstate : state ∈ performedIn .complete) :
    Sound r (complete state r₁) := by
  have hemptied : Keeps r { r₁ with lexeme := "" } := h.update rfl rfl rfl
  simp only [performedIn, List.mem_cons, List.not_mem_nil, or_false] at hstate
  rcases hstate with rfl | rfl | rfl
  · exact .ok hemptied _
  · dsimp only [complete]
    split
    · exact .ok hemptied _
    · exact .refuse hemptied (by simp)
  · dsimp only [complete]
    split
    · exact .refuse hemptied (by simp)
    · exact .ok hemptied _

variable {next : State} {act : Action} {p : Procedure α} {q : α → Procedure (State × Option Token)}

/-- A step that does what an orderly procedure says, and then something with its value. -/
theorem Stepped.andThen (hp : Sound r (p r₁))
    (hq : ∀ value r', p r₁ = (.ok value, r') → Stepped r r₂ state act (q value r')) :
    Stepped r r₂ state act (andThen p q r₁) := by
  rw [Registers.andThen]
  generalize hresult : p r₁ = result at hp
  rcases result with ⟨fault | value, r'⟩
  · exact .fail hp.error
  · exact hq value r' hresult

/-- The automaton goes on behind the byte in a state that asks for no token. -/
theorem Stepped.go (hkeeps : Keeps r₁ r₂) (hnext : next ≠ .hold) (hact : ¬ Releases act) :
    Stepped r r₁ state act (.ok (next, none), r₂) :=
  .more hkeeps fun _ => ⟨fun h => absurd h hnext, hact⟩

/-- A token is held back. -/
theorem Stepped.hold (hkeeps : Keeps r₁ r₂) (token : Token) (hact : ¬ Releases act) :
    Stepped r r₁ state act (hold token r₂) :=
  .more (hkeeps.update rfl rfl rfl) fun _ => ⟨fun _ => rfl, hact⟩

theorem stepped_step (hread : r.read = (.ok (some b), r₁)) (state : State) :
    Stepped r r₁ state (action state (CharClass.of b)) (step state b r₁) := by
  -- `hkeeps` counts from before the read, `hself` from behind it
  have hkeeps := keeps_of_read hread
  have hself := Keeps.refl r₁
  have hstate := mem_performedIn state (CharClass.of b)
  unfold step
  generalize action state (CharClass.of b) = act at hstate ⊢
  cases act with
  | beginIdentifier | beginDigit | beginSection =>
    exact .go (hself.update rfl rfl rfl) (by simp) (by simp [Releases])
  | accumulate =>
    refine .go (hself.update rfl rfl rfl) ?_ (by simp [Releases])
    rintro rfl
    simp [performedIn] at hstate
  | complete =>
    have hsound := sound_complete hself hstate
    refine .andThen (.trans hkeeps hsound) fun token r' heq => .hold ?_ token (by simp [Releases])
    rw [heq] at hsound
    exact hsound.keeps
  | completeComma =>
    have hsound := sound_complete hkeeps hstate
    refine .andThen hsound fun token r' heq => .emit ?_
    rw [heq] at hsound
    exact hsound.keeps
  | completeBefore =>
    -- the byte is pushed back first, whether or not there is a token
    have hsound := sound_complete (keeps_unread hread) hstate
    refine .andThen hsound fun token r' heq => .emit ?_
    rw [heq] at hsound
    exact hsound.keeps
  | label =>
    refine .hold ?_ _ (by simp [Releases])
    exact hself.update rfl rfl rfl
  | release =>
    obtain rfl := List.mem_singleton.mp hstate
    have hback : Keeps r { r₁.unread b with held := none } :=
      (keeps_unread hread).update rfl rfl rfl
    dsimp only
    cases hheld : r₁.held with
    | some token => exact .emit hback
    -- without a token the automaton would go on, but that is not ready
    | none => exact .back hback rfl fun hready => by simpa [hheld] using hready rfl
  | releaseComma =>
    obtain rfl := List.mem_singleton.mp hstate
    have hkept : Keeps r₁ { r₁ with held := none } := hself.update rfl rfl rfl
    dsimp only
    cases hheld : r₁.held with
    | some token => exact .emit (hkeeps.trans hkept)
    | none => exact .more hkept fun hready => by simpa [hheld] using hready rfl
  | skip => exact .more hself fun hready => ⟨hready, by simp [Releases]⟩
  | endOfLine =>
    obtain rfl := List.mem_singleton.mp hstate
    have hsound := orderly_endLine b r₁
    refine .andThen (.trans hkeeps hsound) fun token r' heq => ?_
    rw [heq] at hsound
    cases token with
    | none => exact .go hsound.keeps (by simp) (by simp [Releases])
    | some token => exact .emit (hkeeps.trans hsound.keeps)
  | comment =>
    obtain rfl := List.mem_singleton.mp hstate
    have hsound := orderly_comment r₁
    refine .andThen (.trans hkeeps hsound) fun _ r' heq => .go ?_ (by simp) (by simp [Releases])
    rw [heq] at hsound
    exact hsound.keeps
  | ascii =>
    have hsound := orderly_literal r₁
    refine .andThen (.trans hkeeps hsound) fun token r' heq => .hold ?_ token (by simp [Releases])
    rw [heq] at hsound
    exact hsound.keeps
  | recover =>
    obtain rfl := List.mem_singleton.mp hstate
    exact .back (keeps_unread hread) rfl fun _ => by simp [Releases]
  | unknown => exact .fail ⟨hkeeps.update rfl rfl rfl, by simp⟩

/-! ## Requests -/

/-- The input has run out: what has been read becomes a token, and otherwise the end of the file is
answered. -/
def finish (state : State) (r : Registers) : Except Error Token × Registers :=
  match state with
  | .readIdentifier | .readDigit | .readSection => complete state r
  | .hold => (.ok (r.held.getD (.endOfFile r.line)), { r with held := none })
  | .initial | .error | .exit => (.ok (.endOfFile r.line), r)

/-- The registers after a token was answered. -/
def answered (r : Registers) (token : Token) (next : State) : Registers :=
  { r with saved := next, lineHasTokens := r.lineHasTokens || token.kind != .endOfLine }

/-- The registers after an error was met in a state. -/
def failed (r : Registers) (fault : Error) (state : State) : Registers :=
  if fault.isFatal then r
  else { r with saved := if state = .initial then .initial else .error }

/-- The event of an action that was performed in a state for a byte. -/
def acting (state : State) (b : UInt8) (token : Option Token) : Event :=
  .acted (action state (CharClass.of b)) token

/-- Runs the automaton from a state until it answers. -/
def resume (state : State) (r : Registers) : Except Error Token × Registers :=
  match _read : (r.record (.turn state r.held)).read with
  | (.error fault, r₁) => (.error fault, r₁)
  | (.ok none, r₁) =>
    andThen (finish state) (fun token r => (.ok token, { r with saved := .exit })) r₁
  | (.ok (some b), r₁) =>
    match _step : step state b r₁ with
    | (.error fault, r₂) => (.error fault, r₂.failed fault state)
    | (.ok (next, none), r₂) => resume next (r₂.record (acting state b none))
    | (.ok (next, some token), r₂) =>
      (.ok token, (r₂.record (acting state b (some token))).answered token next)
termination_by 2 * r.source.pending.length + weight state
decreasing_by
  have hlength := length_of_read _read
  have hstepped := stepped_step _read state
  rw [_step] at hstepped
  simp only [record] at hlength ⊢
  cases hstepped with
  | more hkeeps =>
    have hnext : weight next ≤ 1 := by cases next <;> decide
    have hle := hkeeps.length_le
    omega
  | back hkeeps hstate =>
    have hle := hkeeps.length_le
    have hnext : weight .initial = 0 := rfl
    simp only [record] at hle
    omega

/-- Answers a request: the next token, the end of the file, or an error. -/
def scan (r : Registers) : Except Error Token × Registers :=
  resume r.saved r

/-- The states in which the automaton is between two requests. -/
def Rests (state : State) : Prop :=
  state = .initial ∨ state = .error ∨ state = .exit

/-- What holds after each request. -/
structure Settled (signals : List Signal) (result : Except Error Token × Registers) : Prop where
  accounted : Accounted signals result.2.source result.2.log
  rests : Rests result.2.saved
  faultless : ∀ line state, result.1 ≠ .error (.source line (.completedIn state))

theorem Sound.settled {result : Except Error Token × Registers} (h : Sound r result)
    (haccounted : Accounted signals r.source r.log) (hrests : Rests r.saved) :
    Settled signals result :=
  ⟨h.keeps.accounted haccounted, h.keeps.saved ▸ hrests, h.faultless⟩

theorem sound_finish (h : Keeps r r₁) (state : State) : Sound r (finish state r₁) := by
  cases state with
  | readIdentifier | readDigit | readSection =>
    rw [finish]
    exact sound_complete h (by decide)
  | hold =>
    refine .ok ?_ _
    exact h.update rfl rfl rfl
  | initial | error | exit => exact .ok h _

theorem rests_failed (fault : Error) (state : State) (h : Rests r.saved) :
    Rests (r.failed fault state).saved := by
  rw [failed]
  split
  · exact h
  · dsimp only
    split
    · exact .inl rfl
    · exact .inr (.inl rfl)

theorem failed_source_log (r : Registers) (fault : Error) (state : State) :
    (r.failed fault state).source = r.source ∧ (r.failed fault state).log = r.log := by
  rw [failed]
  split <;> exact ⟨rfl, rfl⟩

theorem settled_resume (haccounted : Accounted signals r.source r.log) (hready : Ready r state)
    (hrests : Rests r.saved) : Settled signals (resume state r) := by
  -- each turn is entered with a token if it asks for one, and `Stepped` says the same of the next
  fun_induction resume state r with
  | case1 state r fault r₁ hread =>
    exact (sound_of_read hread).settled (haccounted.cons hready rfl) hrests
  | case2 state r r₁ hread =>
    have hsettled := (sound_finish (keeps_of_read hread) state).settled
      (haccounted.cons hready rfl) hrests
    rw [andThen]
    generalize finish state r₁ = result at hsettled
    rcases result with ⟨fault | token, r₂⟩
    · exact hsettled
    · exact ⟨hsettled.accounted, .inr (.inr rfl), by simp⟩
  | case3 state r b r₁ hread fault r₂ hstep =>
    have hstepped := stepped_step hread state
    rw [hstep] at hstepped
    rcases hstepped with - | - | - | hsound
    have hkept := hsound.keeps.accounted (haccounted.cons hready rfl)
    obtain ⟨hsource, hlog⟩ := failed_source_log r₂ fault state
    refine ⟨?_, rests_failed fault state (hsound.keeps.saved ▸ hrests), fun line state heq => ?_⟩
    · rw [hsource, hlog]
      exact hkept
    · cases heq
      exact hsound.faultless line state rfl
  | case4 state r b r₁ hread next r₂ hstep ih =>
    have hstepped := stepped_step hread state
    have hready₁ : Ready r₁ state := by
      obtain ⟨rest, -, rfl⟩ := pending_of_read hread
      exact hready
    have haccounted₁ : Accounted signals r.source (.turn state r.held :: r.log) :=
      haccounted.cons hready rfl
    rw [hstep] at hstepped
    cases hstepped with
    | more hkeeps hnext =>
      have hkept := (keeps_of_read hread).trans hkeeps
      obtain ⟨hready₂, hact⟩ := hnext hready₁
      exact ih ((hkept.accounted haccounted₁).cons (fun h => absurd h hact) rfl) hready₂
        (hkept.saved ▸ hrests)
    | back hkeeps _ hact =>
      exact ih ((hkeeps.accounted haccounted₁).cons (fun h => absurd h (hact hready₁)) rfl)
        (fun h => by cases h) (hkeeps.saved ▸ hrests)
  | case5 state r b r₁ hread next token r₂ hstep =>
    have hstepped := stepped_step hread state
    rw [hstep] at hstepped
    cases hstepped with
    | emit hkeeps =>
      exact ⟨(hkeeps.accounted (haccounted.cons hready rfl)).cons (fun _ => rfl) rfl, .inl rfl,
        by simp⟩

theorem settled_scan (haccounted : Accounted signals r.source r.log) (hrests : Rests r.saved) :
    Settled signals r.scan := by
  refine settled_resume haccounted (fun h => ?_) hrests
  rw [h] at hrests
  simp [Rests] at hrests

/-- Some requests one after the other. -/
def requests : Nat → Registers → List Reply
  | 0, _ => []
  | n + 1, r => { answer := r.scan.1, registers := r.scan.2 } :: requests n r.scan.2

/-- The books are in order after an answer, if these are the signals of the source. -/
structure Bookkept (signals : List Signal) (reply : Reply) : Prop where
  /-- The state that is saved reads no lexeme and asks for no token. -/
  saved : reply.registers.saved = .initial ∨ reply.registers.saved = .error ∨
    reply.registers.saved = .exit
  /-- Behind a finished token, a token is held whenever the automaton reads on. -/
  held : ∀ held, Event.turn .hold held ∈ reply.registers.log → held.isSome = true
  /-- Giving out the held token yields a token. -/
  released : ∀ action token, Event.acted action token ∈ reply.registers.log →
    action = .release ∨ action = .releaseComma → token.isSome = true
  /-- A byte is pushed back only if none is pushed back yet, and directly after it was read. -/
  unread : ∀ b back earlier, Event.unread b back :: earlier <:+ reply.registers.log →
    back = none ∧ earlier.head? = some (.read (some (.byte b)))
  /-- Each read delivers the signal next to those that were delivered and not pushed back, and
  nothing only if there is none. -/
  read : ∀ signal earlier, Event.read signal :: earlier <:+ reply.registers.log →
    signal = signals[(delivered earlier).length]?
  /-- No signal is lost: what was delivered and not pushed back, and then what is pending, are the
  signals. -/
  balance : delivered reply.registers.log ++ reply.registers.source.pending = signals
  /-- No token was completed in a state that reads none. -/
  faultless : ∀ line state, reply.answer ≠ .error (.source line (.completedIn state))

theorem Accounted.proper_of_mem (h : Accounted signals source log) (he : e ∈ log) :
    ∃ earlier, Proper signals earlier e := by
  obtain ⟨later, earlier, rfl⟩ := List.append_of_mem he
  exact ⟨earlier, h.proper e earlier (List.suffix_append _ _)⟩

theorem Settled.bookkept {reply : Reply}
    (h : Settled signals (reply.answer, reply.registers)) : Bookkept signals reply where
  saved := h.rests
  held held hmem := by
    obtain ⟨earlier, hproper⟩ := h.accounted.proper_of_mem hmem
    exact hproper rfl
  released action token hmem := by
    obtain ⟨earlier, hproper⟩ := h.accounted.proper_of_mem hmem
    exact hproper
  unread b back earlier := h.accounted.proper (.unread b back) earlier
  read signal earlier := h.accounted.proper (.read signal) earlier
  balance := h.accounted.balance
  faultless := h.faultless

/-- The books are in order after every request. -/
theorem bookkept_of_mem_requests (haccounted : Accounted signals r.source r.log)
    (hrests : Rests r.saved) {n : Nat} {reply : Reply} (hreply : reply ∈ r.requests n) :
    Bookkept signals reply := by
  induction n generalizing r with
  | zero => cases hreply
  | succ n ih =>
    have hsettled := settled_scan haccounted hrests
    rcases List.mem_cons.mp hreply with rfl | hreply
    · exact hsettled.bookkept
    · exact ih hsettled.accounted hsettled.rests hreply

/-- The log of one request on `a b`: the token is held behind the blank, and the byte that is read
behind it is pushed back. -/
example :
    let word : Token := { lexeme := .ofWord "a", line := 1 }
    (scan { source := .ofBytes [0x61, 0x20, 0x62] }).2.log =
      [.acted .release (some word), .unread 0x62 none, .read (some (.byte 0x62)),
        .turn .hold (some word), .acted .complete none, .read (some (.byte 0x20)),
        .turn .readIdentifier none, .acted .beginIdentifier none, .read (some (.byte 0x61)),
        .turn .initial none] := by
  decide +kernel

end Registers

end AsmLinker
