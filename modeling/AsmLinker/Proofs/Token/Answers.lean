import Mathlib
import AsmLinker.Token.Stream

/-!
# The answers of a scanner

Every request consumes a byte, except at the end of the file (`Scanner.length_scan_lt`), so that the
readings of a scanner are its first one and those of the scanner behind it (`Scanner.readings_eq`),
whatever bound was put on their number.

`Yields` says the same byte by byte, for a source in which nothing is refused but unknown
characters: how the automaton goes on with a byte, which tokens it answers on the way, and where it
ends. Proofs about whole sources are inductions over it.
-/

namespace AsmLinker

namespace Mode

/-- Whether no lexeme has been begun and no token is held back. -/
def resting : Mode → Bool
  | .initial | .skipping | .exhausted => true
  | .identifier _ | .digits _ | .directive _ | .held _ => false

/-- A token that is held back does not end a line. -/
def Ordinary : Mode → Prop
  | .held token => token.endsLine = false
  | _ => True

theorem Ordinary.push {mode : Mode} (h : mode.Ordinary) (c : Char) : (mode.push c).Ordinary := by
  cases mode <;> exact h

/-- A lexeme that was read does not end a line. -/
theorem endsLine_of_complete {mode : Mode} {lexeme : Lexeme} {comma : Bool} {line : Nat}
    (h : mode.complete = .ok lexeme) : Token.endsLine { lexeme, comma, line } = false := by
  have hname : ∀ word, Token.endsLine { lexeme := .ofName word, comma, line } = false := by
    intro word
    unfold Lexeme.ofName
    split <;> rfl
  cases mode with
  | identifier word =>
    cases h
    unfold Lexeme.ofWord
    split
    · split
      · rfl
      · exact hname word
    · exact hname word
  | digits text =>
    rw [complete] at h
    split at h <;> cases h
    rfl
  | directive word =>
    rw [complete] at h
    split at h <;> cases h
    rfl
  | _ => cases h

/-- A line ends only between two lexemes. -/
theorem eq_initial_of_endOfLine {mode : Mode} {c : CharClass}
    (h : action mode.state c = .endOfLine) : mode = .initial := by
  cases mode with
  | initial => rfl
  | _ => cases c <;> simp [state, action] at h

/-- A byte completes the lexeme before it only where one has been begun. -/
theorem resting_of_completeBefore {mode : Mode} {c : CharClass}
    (h : action mode.state c = .completeBefore) : mode.resting = false := by
  cases mode with
  | identifier | digits | directive | held => rfl
  | _ => cases c <;> simp [state, action] at h

end Mode

/-- Whether the answer is an error other than an unknown character. -/
def TokenStream.refused : Except Error Token → Bool
  | .ok _ => false
  | .error e => e.isFatal

/-- Nothing is refused in these answers but unknown characters. -/
def TokenStream.Fine (answers : List (Except Error Token)) : Prop :=
  ∀ answer ∈ answers, refused answer = false

namespace Scanner

variable {s s' : Scanner} {mode mode' : Mode} {b : UInt8} {token : Token} {e : Error}

/-! ## What a step keeps -/

/-- What a step can come to, as far as it can be told without the byte: how much is still pending,
and what has become of the line. A scanner that rested has consumed a byte when it answers. -/
inductive Follows (s : Scanner) (mode : Mode) : Step → Prop
  | more {mode' : Mode} {s' : Scanner} (hordinary : mode'.Ordinary)
      (hexhausted : mode' = .exhausted → mode = .exhausted) (hmode : s'.mode = s.mode)
      (hlineEnds : s'.lineEnds = s.lineEnds)
      (hline : s.lineEnds = true → s'.lineHasTokens = s.lineHasTokens)
      (hlength : s'.source.pending.length + mode.resting.toNat ≤
        s.source.pending.length + 1 + mode'.resting.toNat) : Follows s mode (.more mode' s')
  | emit {token : Token} {s' : Scanner} (hlineEnds : s'.lineEnds = s.lineEnds)
      (hends : token.endsLine = false ∨ token.lexeme = .endOfLine ∧ s'.lineHasTokens = false)
      (hlength : s'.source.pending.length + mode.resting.toNat ≤ s.source.pending.length + 1) :
      Follows s mode (.emit token .initial s')
  | fail {e : Error} {s' : Scanner} (hmode : s'.mode = s.mode)
      (hlineEnds : s'.lineEnds = s.lineEnds) (hline : s'.lineHasTokens = s.lineHasTokens)
      (hlength : s'.source.pending.length + mode.resting.toNat ≤ s.source.pending.length + 1) :
      Follows s mode (.fail e s')

theorem toNat_resting_le (mode : Mode) : mode.resting.toNat ≤ 1 :=
  Bool.toNat_le _

/-- A step that leaves the scanner as it is and goes on. -/
theorem Follows.stay (h : mode'.Ordinary) (hexhausted : mode' = .exhausted → mode = .exhausted) :
    Follows s mode (.more mode' s) :=
  .more h hexhausted rfl rfl (fun _ => rfl) (by have := toNat_resting_le mode; omega)

theorem length_unread (h : s.source.back = none) :
    (s.unread b).source.pending.length = s.source.pending.length + 1 := by
  rw [unread, Source.pending_unread b h, List.length_cons]

theorem follows_endLine : Follows s .initial (s.endLine .initial b) := by
  have hlength := length_terminator_le s.source b
  unfold endLine
  split
  next cause source heq =>
    rw [heq] at hlength
    exact .fail rfl rfl rfl (by dsimp only [Mode.resting]; exact Nat.add_le_add_right hlength 1)
  next source heq =>
    rw [heq] at hlength
    dsimp only
    split
    · exact .emit rfl (.inr ⟨rfl, rfl⟩) (Nat.add_le_add_right hlength 1)
    next hopen =>
      refine .more trivial id rfl rfl ?_ ((Nat.add_le_add_right hlength 1).trans ?_)
      case refine_2 => exact Nat.le_add_right _ _
      intro hlineEnds
      simpa [hlineEnds] using hopen

theorem follows_comment (h : mode.Ordinary) : Follows s mode (s.comment mode) := by
  have hlength := length_dropComment_le s.source.pending
  have hresting := toNat_resting_le mode
  unfold comment
  split
  next cause source heq =>
    rw [heq] at hlength
    exact .fail rfl rfl rfl (by dsimp only at hlength ⊢; omega)
  next source heq =>
    rw [heq] at hlength
    exact .more h id rfl rfl (fun _ => rfl) (by dsimp only at hlength ⊢; omega)

theorem follows_literal : Follows s mode s.literal := by
  have hlength := Literal.length_read_le s.source.pending
  have hresting := toNat_resting_le mode
  unfold literal
  split
  next text rest heq =>
    rw [heq] at hlength
    refine .more rfl (by simp) rfl rfl (fun _ => rfl) ?_
    dsimp only [Source.pending_mk_none] at hlength ⊢
    omega
  next fault rest heq =>
    rw [heq] at hlength
    exact .fail rfl rfl rfl (by dsimp only [Source.pending_mk_none] at hlength ⊢; omega)
  next cause rest heq =>
    rw [heq] at hlength
    exact .fail rfl rfl rfl (by dsimp only [Source.pending_mk_none] at hlength ⊢; omega)

/-- Every step follows. -/
theorem step_follows (hclear : s.source.back = none) (h : mode.Ordinary) (b : UInt8) :
    Follows s mode (s.step mode b) := by
  have hresting := toNat_resting_le mode
  have hkept : s.source.pending.length + mode.resting.toNat ≤ s.source.pending.length + 1 := by
    omega
  -- a byte that is left for later is made up for where a lexeme was open
  have hunread : mode.resting = false →
      (s.unread b).source.pending.length + mode.resting.toNat ≤ s.source.pending.length + 1 := by
    intro hopen
    rw [length_unread hclear, hopen]
    rfl
  unfold step
  split
  case h_1 => exact .stay (h.push _) (by cases mode <;> simp [Mode.push])
  case h_2 | h_3 | h_4 => exact .stay trivial (by simp)
  case h_8 => exact .stay rfl (by simp)
  case h_5 =>
    split
    next lexeme hcomplete => exact .stay (Mode.endsLine_of_complete hcomplete) (by simp)
    next => exact .fail rfl rfl rfl hkept
  case h_6 =>
    split
    next lexeme hcomplete => exact .emit rfl (.inl (Mode.endsLine_of_complete hcomplete)) hkept
    next => exact .fail rfl rfl rfl hkept
  case h_7 hact =>
    have hopen := Mode.resting_of_completeBefore hact
    split
    next lexeme hcomplete =>
      exact .emit rfl (.inl (Mode.endsLine_of_complete hcomplete)) (hunread hopen)
    next => exact .fail rfl rfl rfl (hunread hopen)
  case h_9 hact =>
    obtain ⟨token, rfl⟩ := token?_of_release hact
    exact .emit rfl (.inl h) (hunread rfl)
  case h_10 =>
    split
    next token htoken =>
      cases mode <;> cases htoken
      exact .emit rfl (.inl h) hkept
    next => exact .stay trivial (by simp)
  case h_11 => exact .stay h id
  case h_12 hact =>
    obtain rfl := Mode.eq_initial_of_endOfLine hact
    exact follows_endLine
  case h_13 => exact follows_comment h
  case h_14 => exact follows_literal
  case h_15 hact =>
    obtain rfl := eq_skipping_of_recover hact
    exact .more trivial (by simp) rfl rfl (fun _ => rfl) (by rw [length_unread hclear]; rfl)
  case h_16 => exact .fail rfl rfl rfl hkept

/-! ## Answering a request -/

theorem resume_nil (mode : Mode) (h : s.source.pending = []) : s.resume mode = s.finish mode := by
  rw [resume]
  split
  · rfl
  next heq => simp [Source.next_of_pending_nil h] at heq
  next heq => simp [Source.next_of_pending_nil h] at heq

theorem resume_byte (mode : Mode) {rest : List Signal} (h : s.source.pending = .byte b :: rest) :
    s.resume mode = match step { s with source := ⟨none, rest⟩ } mode b with
      | .more mode' s' => s'.resume mode'
      | .emit token mode' s' => (.ok token, s'.answered token mode')
      | .fail error s' => (.error error, s'.failed error mode) := by
  rw [resume]
  split
  next heq => simp [Source.next_of_pending h] at heq
  next heq => simp [Source.next_of_pending h] at heq
  next b' source heq =>
    rw [Source.next_of_pending h] at heq
    cases heq
    split <;> simp [*]

/-- What a read delivered was pending in front of the rest. -/
theorem pending_of_next {source source' : Source} {signal : Signal}
    (h : source.next = (some signal, source')) :
    ∃ rest, source.pending = signal :: rest ∧ source' = ⟨none, rest⟩ := by
  rcases hpending : source.pending with _ | ⟨first, rest⟩
  · rw [Source.next_of_pending_nil hpending] at h
    cases h
  · rw [Source.next_of_pending hpending] at h
    cases h
    exact ⟨rest, rfl, rfl⟩

theorem pending_of_next_none {source source' : Source} (h : source.next = (none, source')) :
    source.pending = [] := by
  rcases hpending : source.pending with _ | ⟨first, rest⟩
  · rfl
  · rw [Source.next_of_pending hpending] at h
    cases h

/-- A scanner that rests between two requests does so again behind an answer. -/
theorem resting_resume (h : mode.Ordinary) (hs : s.mode.resting = true) :
    (s.resume mode).2.mode.resting = true := by
  fun_induction resume s mode with
  | case1 s mode source hread =>
    cases mode with
    | held | initial | skipping | exhausted => rfl
    | _ =>
      unfold finish
      dsimp only
      split
      · rfl
      · exact hs
  | case2 s mode cause source hread => exact hs
  | case3 s mode b source hread mode' s' hstep ih =>
    obtain ⟨rest, -, rfl⟩ := pending_of_next hread
    have hfollows := step_follows (s := { s with source := ⟨none, rest⟩ }) rfl h b
    rw [hstep] at hfollows
    rcases hfollows with ⟨hordinary, -, hmode⟩
    exact ih hordinary (by rw [hmode]; exact hs)
  | case4 s mode b source hread token mode' s' hstep =>
    obtain ⟨rest, -, rfl⟩ := pending_of_next hread
    have hfollows := step_follows (s := { s with source := ⟨none, rest⟩ }) rfl h b
    rw [hstep] at hfollows
    cases hfollows
    rfl
  | case5 s mode b source hread e s' hstep =>
    obtain ⟨rest, -, rfl⟩ := pending_of_next hread
    have hfollows := step_follows (s := { s with source := ⟨none, rest⟩ }) rfl h b
    rw [hstep] at hfollows
    rcases hfollows with - | - | hmode
    unfold failed
    split
    · rw [hmode]
      exact hs
    · dsimp only
      split <;> rfl

/-- Every answer but the end of the file has consumed a byte, unless a lexeme had been begun. -/
theorem length_resume_le (h : mode.Ordinary)
    (hend : (Reading.mk (s.resume mode).1 (s.resume mode).2).isEnd = false) :
    (s.resume mode).2.source.pending.length + mode.resting.toNat ≤ s.source.pending.length := by
  fun_induction resume s mode with
  | case1 s mode source hread =>
    cases mode with
    | held => exact Nat.le_refl _
    | initial | skipping | exhausted => cases hend
    | _ =>
      unfold finish
      dsimp only
      split <;> exact Nat.le_refl _
  | case2 s mode cause source hread =>
    obtain ⟨rest, hpending, rfl⟩ := pending_of_next hread
    have hresting := toNat_resting_le mode
    rw [hpending, List.length_cons]
    exact Nat.add_le_add_left hresting _
  | case3 s mode b source hread mode' s' hstep ih =>
    obtain ⟨rest, hpending, rfl⟩ := pending_of_next hread
    have hfollows := step_follows (s := { s with source := ⟨none, rest⟩ }) rfl h b
    rw [hstep] at hfollows
    rcases hfollows with ⟨hordinary, -, -, -, -, hlength⟩
    have hrest := ih hordinary hend
    rw [hpending, List.length_cons]
    dsimp only [Source.pending_mk_none] at hlength
    omega
  | case4 s mode b source hread token mode' s' hstep =>
    obtain ⟨rest, hpending, rfl⟩ := pending_of_next hread
    have hfollows := step_follows (s := { s with source := ⟨none, rest⟩ }) rfl h b
    rw [hstep] at hfollows
    rcases hfollows with - | ⟨-, -, hlength⟩
    rw [hpending, List.length_cons]
    exact hlength
  | case5 s mode b source hread e s' hstep =>
    obtain ⟨rest, hpending, rfl⟩ := pending_of_next hread
    have hfollows := step_follows (s := { s with source := ⟨none, rest⟩ }) rfl h b
    rw [hstep] at hfollows
    rcases hfollows with - | - | ⟨-, -, -, hlength⟩
    have hsource : (s'.failed e mode).source = s'.source := by
      unfold failed
      split <;> rfl
    rw [hpending, List.length_cons, hsource]
    exact hlength

/-! ## All answers -/

theorem ordinary_of_resting (h : mode.resting = true) : mode.Ordinary := by
  cases mode with
  | held => cases h
  | _ => trivial

theorem resting_read (hs : s.mode.resting = true) : s.read.scanner.mode.resting = true :=
  resting_resume (ordinary_of_resting hs) hs

/-- A request to a scanner that rests consumes a byte, except at the end of the file. -/
theorem length_scan_lt (hs : s.mode.resting = true) (hend : s.read.isEnd = false) :
    s.read.scanner.source.pending.length < s.source.pending.length := by
  have hlength := length_resume_le (ordinary_of_resting hs) hend
  rw [hs] at hlength
  exact hlength

/-- No bound on the number of answers matters that is above the length of what is pending. -/
theorem readUpTo_eq {m n : Nat} (hs : s.mode.resting = true) (hm : s.source.pending.length < m)
    (hn : s.source.pending.length < n) : s.readUpTo m = s.readUpTo n := by
  induction m generalizing n s with
  | zero => cases hm
  | succ m ih =>
    -- both bounds allow for one request, behind which less is pending
    obtain ⟨n, rfl⟩ : ∃ k, n = k + 1 := ⟨n - 1, by omega⟩
    rw [readUpTo, readUpTo]
    split
    · rfl
    next hend =>
      have hlt := length_scan_lt hs (Bool.not_eq_true _ ▸ hend)
      exact congrArg (s.read :: ·) (ih (resting_read hs) (by omega) (by omega))

/-- The readings of a scanner are the first one and those of the scanner behind it. -/
theorem readings_eq (hs : s.mode.resting = true) : s.readings =
    if s.read.isEnd then [s.read] else s.read :: s.read.scanner.readings := by
  rw [readings, readUpTo]
  split
  · rfl
  next hend =>
    have hlt := length_scan_lt hs (Bool.not_eq_true _ ▸ hend)
    rw [readUpTo_eq (resting_read hs) hlt (Nat.lt_succ_self _)]
    rfl

/-- The stream of a scanner is its first answer and the stream of the scanner behind it. -/
theorem ofScanner_eq (hs : s.mode.resting = true) : TokenStream.ofScanner s =
    if s.read.isEnd then { answers := [], endLine := s.read.scanner.line }
    else { TokenStream.ofScanner s.read.scanner with
      answers := s.read.answer :: (TokenStream.ofScanner s.read.scanner).answers } := by
  rw [TokenStream.ofScanner, readings_eq hs]
  cases hend : s.read.isEnd with
  | true => rw [if_pos rfl, if_pos rfl, TokenStream.ofReadings, if_pos hend]
  | false =>
    rw [if_neg Bool.false_ne_true, if_neg Bool.false_ne_true, TokenStream.ofReadings, hend,
      if_neg Bool.false_ne_true]
    rfl

/-- The answers of a scanner up to the end of the file. -/
def answers (s : Scanner) : List (Except Error Token) :=
  (TokenStream.ofScanner s).answers

/-- The answers from the first one on. -/
def answersBehind (first : Except Error Token × Scanner) : List (Except Error Token) :=
  if (Reading.mk first.1 first.2).isEnd then [] else first.1 :: first.2.answers

/-- The answers of a scanner are its first answer and those of the scanner behind it. -/
theorem answers_eq (hs : s.mode.resting = true) : s.answers = answersBehind s.scan := by
  rw [answers, ofScanner_eq hs]
  exact apply_ite TokenStream.answers _ _ _

/-- From this mode on the automaton answers these tokens and unknown characters, up to the end of
the source, and refuses nothing else. -/
inductive Yields : Scanner → Mode → List (Except Error Token) → Prop
  /-- The source ends between two lexemes. -/
  | finish {s : Scanner} {mode : Mode} (hpending : s.source.pending = [])
      (hmode : mode.resting = true) : Yields s mode []
  /-- The source ends behind a lexeme. -/
  | last {s s' : Scanner} {mode : Mode} {token : Token} (hpending : s.source.pending = [])
      (hmode : mode.resting = false) (hfinish : s.finish mode = (.ok token, s')) :
      Yields s mode [.ok token]
  /-- A byte leads into another mode. -/
  | more {s s' : Scanner} {mode mode' : Mode} {b : UInt8} {rest : List Signal}
      {answers : List (Except Error Token)} (hpending : s.source.pending = .byte b :: rest)
      (hstep : step { s with source := ⟨none, rest⟩ } mode b = .more mode' s')
      (h : Yields s' mode' answers) : Yields s mode answers
  /-- A byte completes a token. -/
  | emit {s s' : Scanner} {mode : Mode} {b : UInt8} {rest : List Signal} {token : Token}
      {answers : List (Except Error Token)} (hpending : s.source.pending = .byte b :: rest)
      (hstep : step { s with source := ⟨none, rest⟩ } mode b = .emit token .initial s')
      (h : Yields (s'.answered token .initial) .initial answers) :
      Yields s mode (.ok token :: answers)
  /-- A byte is unknown. -/
  | unknown {s s' : Scanner} {mode : Mode} {b : UInt8} {rest : List Signal} {e : Error}
      {answers : List (Except Error Token)} (hpending : s.source.pending = .byte b :: rest)
      (hstep : step { s with source := ⟨none, rest⟩ } mode b = .fail e s')
      (hfatal : e.isFatal = false)
      (h : Yields (s'.failed e mode) (if mode = .initial then .initial else .skipping) answers) :
      Yields s mode (.error e :: answers)

/-- The token at the end of a source does not end a line. -/
theorem endsLine_of_finish (hmode : mode.resting = false) (h : mode.Ordinary)
    (hfinish : s.finish mode = (.ok token, s')) :
    token.endsLine = false ∧ s' = { s with mode := .exhausted } := by
  cases mode with
  | held =>
    cases hfinish
    exact ⟨h, rfl⟩
  | initial | skipping | exhausted => cases hmode
  | _ =>
    unfold finish at hfinish
    dsimp only at hfinish
    split at hfinish
    next lexeme hcomplete =>
      cases hfinish
      exact ⟨Mode.endsLine_of_complete hcomplete, rfl⟩
    next => cases hfinish

theorem isFatal_of_finish (h : s.finish mode = (.error e, s')) : e.isFatal = true := by
  cases mode with
  | held | initial | skipping | exhausted => cases h
  | _ =>
    unfold finish at h
    dsimp only at h
    split at h
    next => cases h
    next =>
      cases h
      rfl

/-- A token that does not end a line, or only a line, is not the end of the file. -/
theorem isEnd_eq_false (h : token.endsLine = false ∨ token.lexeme = .endOfLine) :
    (Reading.mk (.ok token) s).isEnd = false := by
  obtain ⟨lexeme, comma, line⟩ := token
  cases lexeme with
  | endOfFile => simp [Token.endsLine] at h
  | _ => rfl

theorem answersBehind_ok (h : token.endsLine = false ∨ token.lexeme = .endOfLine)
    (hs : s.mode.resting = true) :
    answersBehind (.ok token, s) = .ok token :: answersBehind s.scan := by
  rw [answersBehind, isEnd_eq_false h, if_neg Bool.false_ne_true, answers_eq hs]

theorem answersBehind_error (e : Error) (hs : s.mode.resting = true) :
    answersBehind (.error e, s) = .error e :: answersBehind s.scan := by
  rw [answersBehind, answers_eq hs]
  rfl

/-- The scanner behind an unknown character. -/
theorem mode_failed (mode : Mode) (h : e.isFatal = false) :
    (s.failed e mode).mode = if mode = .initial then .initial else .skipping := by
  rw [failed, h, if_neg Bool.false_ne_true]

theorem resting_ite (mode : Mode) :
    (if mode = .initial then Mode.initial else .skipping).resting = true := by
  split <;> rfl

/-- What is answered byte by byte is what is answered request by request. -/
theorem Yields.answersBehind_eq {answers : List (Except Error Token)} (h : Yields s mode answers)
    (hmode : mode.Ordinary) : answersBehind (s.resume mode) = answers := by
  induction h with
  | @finish s mode hpending hresting =>
    rw [resume_nil mode hpending]
    cases mode with
    | initial | skipping | exhausted => rfl
    | _ => cases hresting
  | @last s s' mode token hpending hresting hfinish =>
    -- one more request finds the source exhausted
    obtain ⟨hends, rfl⟩ := endsLine_of_finish hresting hmode hfinish
    have hscan := resume_nil (s := { s with mode := .exhausted }) .exhausted hpending
    rw [resume_nil mode hpending, hfinish, answersBehind_ok (.inl hends) rfl, scan, hscan]
    rfl
  | @more s s' mode mode' b rest answers hpending hstep h ih =>
    have hfollows := step_follows (s := { s with source := ⟨none, rest⟩ }) rfl hmode b
    rw [hstep] at hfollows
    rcases hfollows with ⟨hordinary⟩
    rw [resume_byte mode hpending, hstep]
    exact ih hordinary
  | @emit s s' mode b rest token answers hpending hstep h ih =>
    have hfollows := step_follows (s := { s with source := ⟨none, rest⟩ }) rfl hmode b
    rw [hstep] at hfollows
    rcases hfollows with - | ⟨-, hends⟩
    rw [resume_byte mode hpending, hstep]
    dsimp only
    rw [answersBehind_ok (hends.imp_right And.left) rfl]
    exact congrArg _ (ih trivial)
  | @unknown s s' mode b rest e answers hpending hstep hfatal h ih =>
    have hbehind := mode_failed (s := s') mode hfatal
    rw [resume_byte mode hpending, hstep]
    dsimp only
    rw [answersBehind_error e (hbehind ▸ resting_ite mode), scan, hbehind]
    exact congrArg _ (ih (ordinary_of_resting (resting_ite mode)))

/-- If nothing is refused but unknown characters, the answers are those byte by byte. -/
theorem yields_of_answersBehind {n : Nat} (hn : (answersBehind (s.resume mode)).length ≤ n)
    (hmode : mode.Ordinary) (hs : s.mode.resting = true)
    (hfine : TokenStream.Fine (answersBehind (s.resume mode))) :
    Yields s mode (answersBehind (s.resume mode)) := by
  -- along a request by its recursion, and from one request to the next by the number of answers
  induction n using Nat.strong_induction_on generalizing s mode with
  | _ n ihn =>
    fun_induction resume s mode with
    | case1 s mode source hread =>
      have hpending := pending_of_next_none hread
      rcases hresting : mode.resting with _ | _
      · rcases hfinish : s.finish mode with ⟨e | token, s'⟩
        · rw [hfinish] at hfine
          have he := hfine (.error e) (by simp [answersBehind, Reading.isEnd])
          rw [TokenStream.refused, isFatal_of_finish hfinish] at he
          cases he
        · have hyields : Yields s mode [.ok token] := .last hpending hresting hfinish
          rw [← hfinish, ← resume_nil mode hpending, hyields.answersBehind_eq hmode]
          exact hyields
      · have hyields : Yields s mode [] := .finish hpending hresting
        rw [← resume_nil mode hpending, hyields.answersBehind_eq hmode]
        exact hyields
    | case2 s mode cause source hread =>
      rw [answersBehind_error (s := { s with source }) _ hs] at hfine
      cases hfine _ List.mem_cons_self
    | case3 s mode b source hread mode' s' hstep ih =>
      obtain ⟨rest, hpending, rfl⟩ := pending_of_next hread
      have hfollows := step_follows (s := { s with source := ⟨none, rest⟩ }) rfl hmode b
      rw [hstep] at hfollows
      rcases hfollows with ⟨hordinary, -, hkept⟩
      exact .more hpending hstep (ih hn hordinary (by rw [hkept]; exact hs) hfine)
    | case4 s mode b source hread token mode' s' hstep =>
      obtain ⟨rest, hpending, rfl⟩ := pending_of_next hread
      have hfollows := step_follows (s := { s with source := ⟨none, rest⟩ }) rfl hmode b
      rw [hstep] at hfollows
      rcases hfollows with - | ⟨-, hends⟩
      rw [answersBehind_ok (s := s'.answered token .initial) (hends.imp_right And.left) rfl]
        at hn hfine ⊢
      exact .emit hpending hstep (ihn _ hn (Nat.le_refl _) trivial rfl
        fun answer hmem => hfine answer (List.mem_cons_of_mem _ hmem))
    | case5 s mode b source hread e s' hstep =>
      obtain ⟨rest, hpending, rfl⟩ := pending_of_next hread
      have hfatal : e.isFatal = false :=
        hfine (.error e) (by simp [answersBehind, Reading.isEnd])
      have hbehind := mode_failed (s := s') mode hfatal
      have hresting : (s'.failed e mode).mode.resting = true := hbehind ▸ resting_ite mode
      rw [answersBehind_error e hresting] at hn hfine ⊢
      rw [scan, hbehind] at hn hfine ⊢
      exact .unknown hpending hstep hfatal (ihn _ hn (Nat.le_refl _)
        (ordinary_of_resting (resting_ite mode)) hresting
        fun answer hmem => hfine answer (List.mem_cons_of_mem _ hmem))

theorem yields_answers (hs : s.mode.resting = true) (hfine : TokenStream.Fine s.answers) :
    Yields s s.mode s.answers := by
  rw [answers_eq hs] at hfine ⊢
  exact yields_of_answersBehind (Nat.le_refl _) (ordinary_of_resting hs) hs hfine

theorem Yields.answers_eq {answers : List (Except Error Token)} (h : Yields s s.mode answers)
    (hs : s.mode.resting = true) : s.answers = answers := by
  rw [Scanner.answers_eq hs]
  exact h.answersBehind_eq (ordinary_of_resting hs)

end Scanner

end AsmLinker
