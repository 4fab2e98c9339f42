import Mathlib
import AsmLinker.Proofs.Token.Answers

/-!
# The answers on sources that are put behind each other

A scanner that has come to the end of a source is, behind a line feed, where a scanner of the second
source begins: line numbers aside, the answers on the two sources with a line feed between them are
those on the first, the end of the line if it is open there, and those on the second
(`Scanner.answers_append`). This holds however the first source ends: in a lexeme, behind an unknown
character, in a comment, or with a carriage return to which the line feed then belongs.

The scanner that has more to read is compared with the other one byte by byte (`Scanner.Extends`).
-/

namespace AsmLinker

/-! ## Line numbers aside -/

/-- A token without its line. -/
def Token.unlined (token : Token) : Token :=
  { token with line := 0 }

/-- A mode without the line of the token it holds back. -/
def Mode.unlined : Mode → Mode
  | .held token => .held token.unlined
  | mode => mode

/-- An answer without its line. -/
def TokenStream.unlined : Except Error Token → Except Error Token
  | .ok token => .ok token.unlined
  | .error (.lexical _ c) => .error (.lexical 0 c)
  | .error e => .error e

/-- The end of a line, without its line. -/
def Token.lineEnd : Token :=
  { lexeme := .endOfLine, line := 0 }

/-- Whether tokens stand on the last line, behind these answers. -/
def TokenStream.lineOpen (isOpen : Bool) : List (Except Error Token) → Bool
  | [] => isOpen
  | .ok token :: rest => lineOpen (decide (token.lexeme ≠ .endOfLine)) rest
  | .error _ :: rest => lineOpen isOpen rest

theorem Token.unlined_eq_iff {t t' : Token} :
    t.unlined = t'.unlined ↔ t.lexeme = t'.lexeme ∧ t.comma = t'.comma := by
  simp [unlined]

/-- Modes that differ in a line only are the same or hold tokens that do. -/
theorem Mode.eq_or_held_of_unlined {mode mode' : Mode} (h : mode.unlined = mode'.unlined) :
    mode = mode' ∨ ∃ t t', mode = .held t ∧ mode' = .held t' ∧ t.unlined = t'.unlined := by
  cases mode with
  | held t =>
    cases mode' with
    | held t' => exact .inr ⟨t, t', rfl, rfl, Mode.held.inj h⟩
    | _ => cases h
  | _ =>
    cases mode' with
    | held t' => cases h
    | _ => exact .inl h

namespace TokenStream

theorem unlined_error_ne_ok (e : Error) (token : Token) :
    unlined (.error e) ≠ .ok token := by
  cases e <;> simp [unlined]

/-- Where an answer is a token, lines aside, there is that token. -/
theorem exists_cons_of_unlined {token : Token} {answers rest : List (Except Error Token)}
    (h : answers.map unlined = .ok token :: rest) :
    ∃ token' rest', answers = .ok token' :: rest' ∧ token'.unlined = token ∧
      rest'.map unlined = rest := by
  obtain ⟨answer, rest', rfl, hanswer, hrest⟩ := List.map_eq_cons_iff.mp h
  cases answer with
  | error e => exact absurd hanswer (unlined_error_ne_ok e token)
  | ok token' => exact ⟨token', rest', rfl, Except.ok.inj hanswer, hrest⟩

/-- Without their lines, answers are refused in the same way. -/
theorem refused_unlined (answer : Except Error Token) :
    refused (unlined answer) = refused answer := by
  cases answer with
  | ok => rfl
  | error e => cases e <;> rfl

theorem fine_map_unlined {answers : List (Except Error Token)} :
    Fine (answers.map unlined) ↔ Fine answers := by
  simp only [Fine, List.mem_map, forall_exists_index, and_imp, forall_apply_eq_imp_iff₂,
    refused_unlined]

theorem fine_append {first second : List (Except Error Token)} :
    Fine (first ++ second) ↔ Fine first ∧ Fine second := by
  simp [Fine, or_imp, forall_and]

end TokenStream

/-! ## Reading with more behind -/

/-- More to read: nothing, or something that begins with a line feed. -/
def Tail (tail : List Signal) : Prop :=
  tail = [] ∨ ∃ rest, tail = .byte 0x0A :: rest

namespace Literal

theorem hexDigit_append {input rest : List Signal} {d : Nat} (tail : List Signal)
    (h : hexDigit input = (.ok d, rest)) : hexDigit (input ++ tail) = (.ok d, rest ++ tail) := by
  unfold hexDigit at h
  split at h
  · cases h
  · cases h
  · rw [List.cons_append, hexDigit]
    split at h
    · cases h
      rfl
    · cases h

theorem hexEscape_append {input rest : List Signal} {b : UInt8} (tail : List Signal)
    (h : hexEscape input = (.ok b, rest)) : hexEscape (input ++ tail) = (.ok b, rest ++ tail) := by
  unfold hexEscape at h
  split at h
  · cases h
  next high middle hhigh =>
    split at h
    · cases h
    next low behind hlow =>
      unfold hexEscape
      rw [hexDigit_append tail hhigh]
      dsimp only at h ⊢
      rw [hexDigit_append tail hlow]
      dsimp only
      split at h
      · cases h
      next hascii =>
        cases h
        rw [if_neg hascii]

theorem escape_append {input rest : List Signal} {b : UInt8} (tail : List Signal)
    (h : escape input = (.ok b, rest)) : escape (input ++ tail) = (.ok b, rest ++ tail) := by
  unfold escape at h
  split at h
  · cases h
  · cases h
  · rw [List.cons_append, escape]
    split at h
    next hx =>
      rw [if_pos hx]
      exact hexEscape_append tail h
    next hx =>
      rw [if_neg hx]
      split at h
      · cases h
      next hline =>
        rw [if_neg hline]
        split at h
        · cases h
          rfl
        · cases h

theorem prepend_eq_ok {b : UInt8} {result : Except LiteralFault (List UInt8) × List Signal}
    {bytes : List UInt8} {rest : List Signal} (h : prepend b result = (.ok bytes, rest)) :
    ∃ more, bytes = b :: more ∧ result = (.ok more, rest) := by
  obtain ⟨e | more, rest'⟩ := result
  · cases h
  · cases h
    exact ⟨more, rfl, rfl⟩

/-- A literal that ends is read in the same way with more behind it. -/
theorem body_append {input rest : List Signal} {bytes : List UInt8} (tail : List Signal)
    (h : body input = (.ok bytes, rest)) : body (input ++ tail) = (.ok bytes, rest ++ tail) := by
  fun_induction body input generalizing bytes with
  | case1 => cases h
  | case2 => cases h
  | case3 b rest' hquote =>
    cases h
    rw [List.cons_append, body, if_pos hquote]
  | case4 => cases h
  | case5 => cases h
  | case6 b rest' hquote hline hslash decoded behind hescape ih =>
    obtain ⟨more, rfl, hmore⟩ := prepend_eq_ok h
    rw [List.cons_append, body, if_neg hquote, if_neg hline, if_pos hslash,
      escape_append tail hescape]
    dsimp only
    rw [ih hmore]
    rfl
  | case7 b rest' hquote hline hslash ih =>
    obtain ⟨more, rfl, hmore⟩ := prepend_eq_ok h
    rw [List.cons_append, body, if_neg hquote, if_neg hline, if_neg hslash, ih hmore]
    rfl

theorem read_append {input rest : List Signal} {text : String} (tail : List Signal)
    (h : read input = (.ok text, rest)) : read (input ++ tail) = (.ok text, rest ++ tail) := by
  unfold read at h ⊢
  rcases hbody : body input with ⟨e | bytes, behind⟩
  · rw [hbody] at h
    cases h
  · rw [hbody] at h
    rw [body_append tail hbody]
    dsimp only at h ⊢
    split at h
    · cases h
      rfl
    · cases h

end Literal

namespace Scanner

variable {s t s' : Scanner} {mode mode' : Mode} {b : UInt8} {tail : List Signal}

/-- A comment that ends with the source ends at the line feed behind it. -/
theorem dropComment_append {input : List Signal} (htail : Tail tail)
    (h : (dropComment input).1 = none) :
    (dropComment (input ++ tail)).1 = none ∧
      (dropComment (input ++ tail)).2.pending = (dropComment input).2.pending ++ tail := by
  induction input with
  | nil =>
    rcases htail with rfl | ⟨rest, rfl⟩
    · exact ⟨rfl, rfl⟩
    · exact ⟨rfl, rfl⟩
  | cons signal input ih =>
    -- the comment does not end in a failure, so that the signal is a byte
    cases signal with
    | fault cause => cases h
    | byte b =>
      rw [List.cons_append, dropComment]
      rw [dropComment] at h ⊢
      split
      · exact ⟨rfl, rfl⟩
      next hline =>
        rw [if_neg hline] at h
        exact ih h

/-- A line terminator is read in the same way with more behind it, unless it is a carriage return at
the end of the source. -/
theorem terminator_append {source source' : Source}
    (hpending : source'.pending = source.pending ++ tail)
    (hcr : b = 0x0D → source.pending = [] → tail = []) (h : (terminator source b).1 = none) :
    (terminator source' b).1 = none ∧
      (terminator source' b).2.pending = (terminator source b).2.pending ++ tail := by
  unfold terminator at h ⊢
  by_cases hb : b = 0x0D
  · rw [if_pos hb, if_pos hb]
    rw [if_pos hb] at h
    rcases hsource : source.pending with _ | ⟨first, rest⟩
    · obtain rfl := hcr hb hsource
      rw [hsource] at hpending
      rw [Source.next_of_pending_nil hsource, Source.next_of_pending_nil hpending]
      exact ⟨rfl, by simp only [hsource, hpending, List.append_nil]⟩
    · rw [hsource] at hpending
      rw [Source.next_of_pending hsource] at h ⊢
      rw [Source.next_of_pending hpending]
      cases first with
      | fault cause => cases h
      | byte c =>
        dsimp only
        split
        · exact ⟨rfl, rfl⟩
        · exact ⟨rfl, rfl⟩
  · rw [if_neg hb, if_neg hb]
    exact ⟨rfl, hpending⟩

/-- The second scanner has more to read than the first, and is otherwise in the same place, lines
aside. -/
structure Extends (tail : List Signal) (s t : Scanner) : Prop where
  /-- It has this to read behind what the first one has. -/
  pending : t.source.pending = s.source.pending ++ tail
  /-- It answers the ends of lines as the first one does. -/
  lineEnds : t.lineEnds = s.lineEnds
  /-- It has answered a token on its line if the first one has. -/
  lineHasTokens : t.lineHasTokens = s.lineHasTokens

/-- The steps of two scanners of which the second has more to read come to the same. -/
inductive StepExtends (tail : List Signal) : Step → Step → Prop
  | more {s t : Scanner} {mode mode' : Mode} (hmode : mode.unlined = mode'.unlined)
      (h : Extends tail s t) : StepExtends tail (.more mode s) (.more mode' t)
  | emit {s t : Scanner} {token token' : Token} (htoken : token.unlined = token'.unlined)
      (h : Extends tail s t) :
      StepExtends tail (.emit token .initial s) (.emit token' .initial t)
  | fail {s t : Scanner} {e e' : Error}
      (he : TokenStream.unlined (.error e) = TokenStream.unlined (.error e'))
      (hfatal : e'.isFatal = false) (h : Extends tail s t) :
      StepExtends tail (.fail e s) (.fail e' t)

theorem Extends.unread (h : Extends tail s t) (hs : s.source.back = none)
    (ht : t.source.back = none) (b : UInt8) : Extends tail (s.unread b) (t.unread b) where
  pending := by
    rw [Scanner.unread, Scanner.unread, Source.pending_unread b hs, Source.pending_unread b ht,
      h.pending, List.cons_append]
  lineEnds := h.lineEnds
  lineHasTokens := h.lineHasTokens

theorem endLine_extends (h : Extends tail s t)
    (hcr : b = 0x0D → s.source.pending = [] → tail = [])
    (hfine : ∀ e s', s.endLine .initial b = .fail e s' → e.isFatal = false) :
    StepExtends tail (s.endLine .initial b) (t.endLine .initial b) := by
  unfold endLine at hfine ⊢
  rcases hterminator : terminator s.source b with ⟨_ | cause, source⟩
  · obtain ⟨hnone, hpending⟩ := terminator_append h.pending hcr (by rw [hterminator])
    rcases hterminator' : terminator t.source b with ⟨cause, source'⟩
    rw [hterminator] at hpending
    rw [hterminator'] at hnone hpending
    obtain rfl : cause = none := hnone
    dsimp only
    rw [h.lineEnds, h.lineHasTokens]
    split
    · exact .emit rfl ⟨hpending, rfl, rfl⟩
    · exact .more rfl ⟨hpending, rfl, rfl⟩
  · rw [hterminator] at hfine
    cases hfine _ _ rfl

theorem comment_extends (h : Extends tail s t) (htail : Tail tail)
    (hmode : mode.unlined = mode'.unlined)
    (hfine : ∀ e s', s.comment mode = .fail e s' → e.isFatal = false) :
    StepExtends tail (s.comment mode) (t.comment mode') := by
  unfold comment at hfine ⊢
  rw [h.pending]
  rcases hdrop : dropComment s.source.pending with ⟨_ | cause, source⟩
  · obtain ⟨hnone, hpending⟩ := dropComment_append htail (congrArg Prod.fst hdrop)
    rcases hdrop' : dropComment (s.source.pending ++ tail) with ⟨cause, source'⟩
    rw [hdrop, hdrop'] at hpending
    rw [hdrop'] at hnone
    obtain rfl : cause = none := hnone
    exact .more hmode ⟨hpending, h.lineEnds, h.lineHasTokens⟩
  · rw [hdrop] at hfine
    cases hfine _ _ rfl

theorem literal_extends (h : Extends tail s t)
    (hfine : ∀ e s', s.literal = .fail e s' → e.isFatal = false) :
    StepExtends tail s.literal t.literal := by
  unfold literal at hfine ⊢
  rw [h.pending]
  rcases hread : Literal.read s.source.pending with ⟨fault | text, rest⟩
  · rw [hread] at hfine
    cases fault <;> cases hfine _ _ rfl
  · rw [Literal.read_append tail hread]
    exact .more rfl ⟨rfl, h.lineEnds, h.lineHasTokens⟩

/-- In one mode, two scanners of which the second has more to read do the same with a byte. -/
theorem step_extends_of_eq (h : Extends tail s t) (htail : Tail tail)
    (hs : s.source.back = none) (ht : t.source.back = none)
    (hcr : mode = .initial → b = 0x0D → s.source.pending = [] → tail = [])
    (hfine : ∀ e s', s.step mode b = .fail e s' → e.isFatal = false) :
    StepExtends tail (s.step mode b) (t.step mode b) := by
  unfold step at hfine ⊢
  rcases hact : action mode.state (CharClass.of b) with _ | _ | _ | _ | _ | _ | _ | _ | _ | _ |
    _ | _ | _ | _ | _ | _ <;> rw [hact] at hfine <;> dsimp only at hfine ⊢
  case accumulate | beginIdentifier | beginDigit | beginSection | skip => exact .more rfl h
  case complete =>
    rcases hcomplete : mode.complete with fault | lexeme
    · rw [hcomplete] at hfine
      cases hfine _ _ rfl
    · exact .more rfl h
  case completeComma =>
    rcases hcomplete : mode.complete with fault | lexeme
    · rw [hcomplete] at hfine
      cases hfine _ _ rfl
    · exact .emit rfl h
  case completeBefore =>
    rcases hcomplete : mode.complete with fault | lexeme
    · rw [hcomplete] at hfine
      cases hfine _ _ rfl
    · exact .emit rfl (h.unread hs ht b)
  case label => exact .more rfl h
  case release =>
    rcases mode.token? with _ | token
    · exact .more rfl (h.unread hs ht b)
    · exact .emit rfl (h.unread hs ht b)
  case releaseComma =>
    rcases mode.token? with _ | token
    · exact .more rfl h
    · exact .emit rfl h
  case endOfLine =>
    obtain rfl := Mode.eq_initial_of_endOfLine hact
    exact endLine_extends h (hcr rfl) hfine
  case comment => exact comment_extends h htail rfl hfine
  case ascii => exact literal_extends h hfine
  case recover => exact .more rfl (h.unread hs ht b)
  case unknown => exact .fail rfl rfl h

/-- Behind a finished token, two scanners of which the second has more to read do the same with a
byte. -/
theorem step_extends_of_held {token token' : Token} (h : Extends tail s t)
    (hs : s.source.back = none) (ht : t.source.back = none)
    (htoken : token.unlined = token'.unlined) :
    StepExtends tail (s.step (.held token) b) (t.step (.held token') b) := by
  have hcomma : ({ token with comma := true } : Token).unlined =
      ({ token' with comma := true } : Token).unlined :=
    Token.unlined_eq_iff.mpr ⟨(Token.unlined_eq_iff.mp htoken).1, rfl⟩
  unfold step
  rcases hclass : CharClass.of b
  all_goals simp only [Mode.state, action, Mode.token?]
  case whitespace => exact .more (congrArg Mode.held htoken) h
  case comma => exact .emit hcomma h
  all_goals exact .emit htoken (h.unread hs ht b)

/-- Two scanners of which the second has more to read do the same with a byte. -/
theorem step_extends (h : Extends tail s t) (htail : Tail tail) (hs : s.source.back = none)
    (ht : t.source.back = none) (hmode : mode.unlined = mode'.unlined)
    (hcr : mode = .initial → b = 0x0D → s.source.pending = [] → tail = [])
    (hfine : ∀ e s', s.step mode b = .fail e s' → e.isFatal = false) :
    StepExtends tail (s.step mode b) (t.step mode' b) := by
  rcases Mode.eq_or_held_of_unlined hmode with rfl | ⟨token, token', rfl, rfl, htoken⟩
  · exact step_extends_of_eq h htail hs ht hcr hfine
  · exact step_extends_of_held h hs ht htoken

/-! ## Whole sources -/

theorem resting_unlined (mode : Mode) : mode.unlined.resting = mode.resting := by
  cases mode <;> rfl

theorem resting_eq_of_unlined (h : mode.unlined = mode'.unlined) :
    mode.resting = mode'.resting := by
  rw [← resting_unlined mode, h, resting_unlined]

/-- The last token of a source does not depend on the scanner, lines aside. -/
theorem finish_of_unlined {token : Token} (hmode : mode.unlined = mode'.unlined)
    (hresting : mode.resting = false) (h : s.finish mode = (.ok token, s')) (t : Scanner) :
    ∃ token' t', t.finish mode' = (.ok token', t') ∧ token.unlined = token'.unlined := by
  rcases Mode.eq_or_held_of_unlined hmode with rfl | ⟨held, held', rfl, rfl, htoken⟩
  · -- what a mode other than `held` completes does not depend on the line at all
    cases mode with
    | held =>
      cases h
      exact ⟨_, _, rfl, rfl⟩
    | initial | skipping | exhausted => cases hresting
    | _ =>
      unfold finish at h ⊢
      dsimp only at h ⊢
      split at h
      · cases h
        exact ⟨_, _, rfl, rfl⟩
      · cases h
  · cases h
    exact ⟨_, _, rfl, htoken⟩

/-- What follows an unknown character does not depend on the line of a token that was held. -/
theorem recovery_of_unlined (h : mode.unlined = mode'.unlined) :
    (if mode = .initial then Mode.initial else .skipping) =
      if mode' = .initial then Mode.initial else .skipping := by
  rcases Mode.eq_or_held_of_unlined h with rfl | ⟨held, held', rfl, rfl, -⟩
  · rfl
  · rfl

theorem Extends.answered {token token' : Token} (h : Extends tail s t)
    (htoken : token.unlined = token'.unlined) :
    Extends tail (s.answered token .initial) (t.answered token' .initial) where
  pending := h.pending
  lineEnds := h.lineEnds
  lineHasTokens := by
    have hkind : token.kind = token'.kind :=
      congrArg Lexeme.kind (Token.unlined_eq_iff.mp htoken).1
    change (t.lineHasTokens || token'.kind != .endOfLine) =
      (s.lineHasTokens || token.kind != .endOfLine)
    rw [h.lineHasTokens, hkind]

theorem source_failed (s : Scanner) (e : Error) (mode : Mode) :
    (s.failed e mode).source = s.source ∧ (s.failed e mode).lineEnds = s.lineEnds ∧
      (s.failed e mode).lineHasTokens = s.lineHasTokens := by
  unfold failed
  split <;> exact ⟨rfl, rfl, rfl⟩

theorem Extends.failed (h : Extends tail s t) (e e' : Error) (mode mode' : Mode) :
    Extends tail (s.failed e mode) (t.failed e' mode') := by
  obtain ⟨hsource, hends, hline⟩ := source_failed s e mode
  obtain ⟨hsource', hends', hline'⟩ := source_failed t e' mode'
  refine ⟨?_, ?_, ?_⟩
  · rw [hsource, hsource', h.pending]
  · rw [hends, hends', h.lineEnds]
  · rw [hline, hline', h.lineHasTokens]

section Byte

variable {rest : List Signal} {token : Token} {e : Error}

/-- The next byte of two scanners of which the second has more to read. -/
theorem Extends.step (h : Extends tail s t) (htail : Tail tail)
    (hpending : s.source.pending = .byte b :: rest) (hmode : mode.unlined = mode'.unlined)
    (hcr : mode = .initial → b = 0x0D → rest = [] → tail = [])
    (hfine : ∀ e s', Scanner.step { s with source := ⟨none, rest⟩ } mode b = .fail e s' →
      e.isFatal = false) :
    t.source.pending = .byte b :: (rest ++ tail) ∧
      StepExtends tail (Scanner.step { s with source := ⟨none, rest⟩ } mode b)
        (Scanner.step { t with source := ⟨none, rest ++ tail⟩ } mode' b) := by
  refine ⟨by rw [h.pending, hpending, List.cons_append], ?_⟩
  exact step_extends ⟨rfl, h.lineEnds, h.lineHasTokens⟩ htail rfl rfl hmode hcr hfine

/-- A byte that leads the first scanner into another mode leads the second one there. -/
theorem Extends.more {mode₁ : Mode} (h : Extends tail s t) (htail : Tail tail)
    (hpending : s.source.pending = .byte b :: rest) (hmode : mode.unlined = mode'.unlined)
    (hcr : mode = .initial → b = 0x0D → rest = [] → tail = [])
    (hstep : Scanner.step { s with source := ⟨none, rest⟩ } mode b = .more mode₁ s') :
    ∃ mode₁' t', t.source.pending = .byte b :: (rest ++ tail) ∧
      Scanner.step { t with source := ⟨none, rest ++ tail⟩ } mode' b = .more mode₁' t' ∧
      mode₁.unlined = mode₁'.unlined ∧ Extends tail s' t' := by
  obtain ⟨hpending', hext⟩ := h.step htail hpending hmode hcr (by simp [hstep])
  rw [hstep] at hext
  generalize hstep' : Scanner.step { t with source := ⟨none, rest ++ tail⟩ } mode' b = r at hext
  rcases hext with ⟨hmode₁, hst'⟩
  exact ⟨_, _, hpending', rfl, hmode₁, hst'⟩

/-- A byte that completes a token for the first scanner completes it for the second one. -/
theorem Extends.emit (h : Extends tail s t) (htail : Tail tail)
    (hpending : s.source.pending = .byte b :: rest) (hmode : mode.unlined = mode'.unlined)
    (hcr : mode = .initial → b = 0x0D → rest = [] → tail = [])
    (hstep : Scanner.step { s with source := ⟨none, rest⟩ } mode b = .emit token .initial s') :
    ∃ token' t', t.source.pending = .byte b :: (rest ++ tail) ∧
      Scanner.step { t with source := ⟨none, rest ++ tail⟩ } mode' b = .emit token' .initial t' ∧
      token.unlined = token'.unlined ∧
      Extends tail (s'.answered token .initial) (t'.answered token' .initial) := by
  obtain ⟨hpending', hext⟩ := h.step htail hpending hmode hcr (by simp [hstep])
  rw [hstep] at hext
  generalize hstep' : Scanner.step { t with source := ⟨none, rest ++ tail⟩ } mode' b = r at hext
  rcases hext with - | ⟨htoken, hst'⟩
  exact ⟨_, _, hpending', rfl, htoken, hst'.answered htoken⟩

/-- A byte that is unknown to the first scanner is unknown to the second one. -/
theorem Extends.unknown (h : Extends tail s t) (htail : Tail tail)
    (hpending : s.source.pending = .byte b :: rest) (hmode : mode.unlined = mode'.unlined)
    (hcr : mode = .initial → b = 0x0D → rest = [] → tail = [])
    (hstep : Scanner.step { s with source := ⟨none, rest⟩ } mode b = .fail e s')
    (hfatal : e.isFatal = false) :
    ∃ e' t', t.source.pending = .byte b :: (rest ++ tail) ∧
      Scanner.step { t with source := ⟨none, rest ++ tail⟩ } mode' b = .fail e' t' ∧
      e'.isFatal = false ∧ TokenStream.unlined (.error e) = TokenStream.unlined (.error e') ∧
      Extends tail (s'.failed e mode) (t'.failed e' mode') := by
  have hfine : ∀ e s', Scanner.step { s with source := ⟨none, rest⟩ } mode b = .fail e s' →
      e.isFatal = false := by
    rw [hstep]
    rintro _ _ ⟨⟩
    exact hfatal
  obtain ⟨hpending', hext⟩ := h.step htail hpending hmode hcr hfine
  rw [hstep] at hext
  generalize hstep' : Scanner.step { t with source := ⟨none, rest ++ tail⟩ } mode' b = r at hext
  rcases hext with - | - | ⟨he, hfatal', hst'⟩
  exact ⟨_, _, hpending', rfl, hfatal', he, hst'.failed ..⟩

end Byte

/-- A scanner of the same source in another place of a larger one answers the same, lines aside. -/
theorem Yields.of_extends_nil {answers : List (Except Error Token)} (h : Yields s mode answers)
    (hst : Extends [] s t) (hmode : mode.unlined = mode'.unlined) :
    ∃ answers', Yields t mode' answers' ∧
      answers'.map TokenStream.unlined = answers.map TokenStream.unlined := by
  induction h generalizing t mode' with
  | @finish s mode hpending hresting =>
    refine ⟨[], .finish ?_ (resting_eq_of_unlined hmode ▸ hresting), rfl⟩
    rw [hst.pending, hpending, List.nil_append]
  | @last s s' mode token hpending hresting hfinish =>
    obtain ⟨token', t', hfinish', htoken⟩ := finish_of_unlined hmode hresting hfinish t
    refine ⟨[.ok token'], .last ?_ (resting_eq_of_unlined hmode ▸ hresting) hfinish', ?_⟩
    · rw [hst.pending, hpending, List.nil_append]
    · rw [List.map_cons, List.map_cons, TokenStream.unlined, TokenStream.unlined, htoken]
  | @more s s' mode mode₁ b rest answers hpending hstep h ih =>
    obtain ⟨mode₁', t', hpending', hstep', hmode₁, hst'⟩ :=
      hst.more (.inl rfl) hpending hmode (fun _ _ _ => rfl) hstep
    obtain ⟨answers', hyields, hsame⟩ := ih hst' hmode₁
    exact ⟨answers', .more hpending' hstep' hyields, hsame⟩
  | @emit s s' mode b rest token answers hpending hstep h ih =>
    obtain ⟨token', t', hpending', hstep', htoken, hst'⟩ :=
      hst.emit (.inl rfl) hpending hmode (fun _ _ _ => rfl) hstep
    obtain ⟨answers', hyields, hsame⟩ := ih hst' rfl
    refine ⟨_, .emit hpending' hstep' hyields, ?_⟩
    rw [List.map_cons, List.map_cons, TokenStream.unlined, TokenStream.unlined, htoken, hsame]
  | @unknown s s' mode b rest e answers hpending hstep hfatal h ih =>
    obtain ⟨e', t', hpending', hstep', hfatal', he, hst'⟩ :=
      hst.unknown (.inl rfl) hpending hmode (fun _ _ _ => rfl) hstep hfatal
    obtain ⟨answers', hyields, hsame⟩ :=
      ih hst' (congrArg Mode.unlined (recovery_of_unlined hmode))
    refine ⟨_, .unknown hpending' hstep' hfatal' hyields, ?_⟩
    rw [List.map_cons, List.map_cons, he, hsame]

theorem step_newLine (h : CharClass.of b = .newLine) :
    s.step .initial b = s.endLine .initial b := by
  rw [step, h]
  rfl

/-- A line with tokens is answered when it ends. -/
theorem endLine_open {source : Source} (hterminator : terminator s.source b = (none, source))
    (h : (s.lineEnds && s.lineHasTokens) = true) : s.endLine mode b =
      .emit (s.token .endOfLine) mode
        { s with source, line := s.line + 1, lineHasTokens := false } := by
  rw [endLine, hterminator]
  exact if_pos h

/-- A line without tokens ends unnoticed. -/
theorem endLine_blank {source : Source} (hterminator : terminator s.source b = (none, source))
    (h : (s.lineEnds && s.lineHasTokens) = false) : s.endLine mode b =
      .more mode { s with source, line := s.line + 1, lineHasTokens := false } := by
  rw [endLine, hterminator]
  exact if_neg (Bool.not_eq_true _ ▸ h)

/-- The scanner gives these answers and is then where a scanner of the rest begins. -/
def Reaches (t : Scanner) (mode : Mode) (answers : List (Except Error Token))
    (rest : List Signal) : Prop :=
  ∃ t' : Scanner, t'.source.pending = rest ∧ t'.lineEnds = true ∧ t'.lineHasTokens = false ∧
    ∀ more, Yields t' .initial more → Yields t mode (answers ++ more)

namespace Reaches

variable {answers : List (Except Error Token)} {rest after : List Signal} {token : Token}
  {e : Error}

theorem more (hpending : s.source.pending = .byte b :: rest)
    (hstep : Scanner.step { s with source := ⟨none, rest⟩ } mode b = .more mode' s')
    (h : Reaches s' mode' answers after) : Reaches s mode answers after := by
  obtain ⟨t, ht, hends, hline, hyields⟩ := h
  exact ⟨t, ht, hends, hline, fun more hmore => .more hpending hstep (hyields more hmore)⟩

theorem emit (hpending : s.source.pending = .byte b :: rest)
    (hstep : Scanner.step { s with source := ⟨none, rest⟩ } mode b = .emit token .initial s')
    (h : Reaches (s'.answered token .initial) .initial answers after) :
    Reaches s mode (.ok token :: answers) after := by
  obtain ⟨t, ht, hends, hline, hyields⟩ := h
  exact ⟨t, ht, hends, hline, fun more hmore => .emit hpending hstep (hyields more hmore)⟩

theorem unknown (hpending : s.source.pending = .byte b :: rest)
    (hstep : Scanner.step { s with source := ⟨none, rest⟩ } mode b = .fail e s')
    (hfatal : e.isFatal = false)
    (h : Reaches (s'.failed e mode) (if mode = .initial then .initial else .skipping) answers
      after) :
    Reaches s mode (.error e :: answers) after := by
  obtain ⟨t, ht, hends, hline, hyields⟩ := h
  exact ⟨t, ht, hends, hline,
    fun more hmore => .unknown hpending hstep hfatal (hyields more hmore)⟩

/-- A scanner that is there already. -/
theorem refl (hpending : t.source.pending = rest) (hends : t.lineEnds = true)
    (hline : t.lineHasTokens = false) : Reaches t .initial [] rest :=
  ⟨t, hpending, hends, hline, fun _ hmore => hmore⟩

/-- Behind a line terminator a new line begins. -/
theorem newLine (hpending : t.source.pending = .byte b :: rest) (hends : t.lineEnds = true)
    (hnewLine : CharClass.of b = .newLine)
    (hterminator : terminator ⟨none, rest⟩ b = (none, ⟨none, after⟩)) :
    ∃ answers, Reaches t .initial answers after ∧ answers.map TokenStream.unlined =
      if t.lineHasTokens then [.ok .lineEnd] else [] := by
  have hstep := step_newLine (s := { t with source := ⟨none, rest⟩ }) hnewLine
  -- the line is answered if a token stands on it; otherwise it ends unnoticed
  rcases hline : t.lineHasTokens with _ | _
  · rw [endLine_blank hterminator (by simp [hline])] at hstep
    exact ⟨[], more hpending hstep (refl rfl hends rfl), rfl⟩
  · rw [endLine_open hterminator (by simp [hline, hends])] at hstep
    exact ⟨[_], emit hpending hstep (refl rfl hends rfl), rfl⟩

/-- Behind a line feed a new line begins. -/
theorem lineFeed (hpending : t.source.pending = .byte 0x0A :: rest) (hends : t.lineEnds = true) :
    ∃ answers, Reaches t .initial answers rest ∧ answers.map TokenStream.unlined =
      if t.lineHasTokens then [.ok .lineEnd] else [] :=
  newLine hpending hends (by decide) rfl

/-- A carriage return and a line feed are one line terminator. -/
theorem carriageReturn (hpending : t.source.pending = .byte 0x0D :: .byte 0x0A :: rest)
    (hends : t.lineEnds = true) :
    ∃ answers, Reaches t .initial answers rest ∧ answers.map TokenStream.unlined =
      if t.lineHasTokens then [.ok .lineEnd] else [] :=
  newLine hpending hends (by decide) rfl

end Reaches

/-- A source has one sequence of answers. -/
theorem Yields.unique {first second : List (Except Error Token)} (h : Yields s mode first)
    (h' : Yields s mode second) (hmode : mode.Ordinary) : first = second :=
  (h.answersBehind_eq hmode).symm.trans (h'.answersBehind_eq hmode)

/-- The answers on a carriage return at the end of a source. -/
theorem Yields.of_carriageReturn {answers : List (Except Error Token)}
    (h : Yields s .initial answers) (hpending : s.source.pending = [.byte 0x0D])
    (hends : s.lineEnds = true) :
    (answers.map TokenStream.unlined = if s.lineHasTokens then [.ok .lineEnd] else []) ∧
      TokenStream.lineOpen s.lineHasTokens answers = false := by
  have hstep := step_newLine (s := { s with source := ⟨none, []⟩ })
    (show CharClass.of 0x0D = .newLine by decide)
  have hterminator : terminator ⟨none, []⟩ 0x0D = (none, ⟨none, []⟩) := rfl
  -- nothing follows, so that the derivation can only be the one of this byte
  rcases hline : s.lineHasTokens with _ | _
  · rw [endLine_blank hterminator (by simp [hline])] at hstep
    obtain rfl := h.unique (.more hpending hstep (.finish rfl rfl)) trivial
    exact ⟨rfl, rfl⟩
  · rw [endLine_open hterminator (by simp [hline, hends])] at hstep
    obtain rfl := h.unique (.emit hpending hstep (.finish rfl rfl)) trivial
    exact ⟨rfl, rfl⟩

/-- A line feed behind a lexeme at the end of a source completes it. -/
theorem step_lineFeed_of_finish {token : Token} (hmode : mode.unlined = mode'.unlined)
    (hresting : mode.resting = false) (h : s.finish mode = (.ok token, s')) (t : Scanner) :
    ∃ token', t.step mode' 0x0A = .emit token' .initial (t.unread 0x0A) ∧
      token'.unlined = token.unlined := by
  rcases Mode.eq_or_held_of_unlined hmode with rfl | ⟨held, held', rfl, rfl, htoken⟩
  · cases mode with
    | held token' =>
      cases h
      exact ⟨token, rfl, rfl⟩
    | initial | skipping | exhausted => cases hresting
    | _ =>
      unfold finish at h
      dsimp only at h
      split at h
      next lexeme hcomplete =>
        cases h
        refine ⟨t.token lexeme, ?_, rfl⟩
        have hnewLine : CharClass.of 0x0A = .newLine := by decide
        rw [step, hnewLine]
        simp only [Mode.state, action, hcomplete]
      · cases h
  · cases h
    exact ⟨held', rfl, htoken.symm⟩

/-- Behind a token the line is open unless the token ends it. -/
theorem lineHasTokens_answered {token : Token} (mode : Mode)
    (h : token.endsLine = false ∨ token.lexeme = .endOfLine ∧ s.lineHasTokens = false) :
    (s.answered token mode).lineHasTokens = decide (token.lexeme ≠ .endOfLine) := by
  change (s.lineHasTokens || token.lexeme.kind != .endOfLine) = _
  rcases h with hends | ⟨hlexeme, hline⟩
  · obtain ⟨lexeme, comma, line⟩ := token
    cases lexeme with
    | endOfLine | endOfFile => cases hends
    | _ => simp [Lexeme.kind]
  · rw [hline, hlexeme]
    rfl

/-- The scanner gives these answers, lines aside, and the end of the line if it is open then, and
is where a scanner of the rest begins. -/
def Breaks (t : Scanner) (mode : Mode) (isOpen : Bool) (answers : List (Except Error Token))
    (rest : List Signal) : Prop :=
  ∃ answers', Reaches t mode answers' rest ∧ answers'.map TokenStream.unlined =
    answers.map TokenStream.unlined ++
      if TokenStream.lineOpen isOpen answers then [.ok .lineEnd] else []

/-- At the end of a source, between two lexemes, a line feed ends the line. -/
theorem breaks_of_resting {rest : List Signal} (hpending : t.source.pending = .byte 0x0A :: rest)
    (hmode : mode.unlined = mode'.unlined) (hresting : mode.resting = true)
    (hexhausted : mode ≠ .exhausted) (hends : t.lineEnds = true) :
    Breaks t mode' t.lineHasTokens [] rest := by
  obtain rfl | ⟨held, -, rfl, -⟩ := Mode.eq_or_held_of_unlined hmode
  · cases mode with
    | initial => exact Reaches.lineFeed hpending hends
    | skipping =>
      -- what is skipped ends before the line feed, which is then read again
      obtain ⟨answers, hreaches, hmap⟩ := Reaches.lineFeed
        (t := unread { t with source := ⟨none, rest⟩ } 0x0A) rfl hends
      exact ⟨answers, hreaches.more hpending rfl, hmap⟩
    | exhausted => exact absurd rfl hexhausted
    | _ => cases hresting
  · cases hresting

/-- At the end of a source, behind a lexeme, a line feed completes the lexeme and ends the line. -/
theorem breaks_of_finish {rest : List Signal} {token : Token}
    (hpending : t.source.pending = .byte 0x0A :: rest) (hmode : mode.unlined = mode'.unlined)
    (hresting : mode.resting = false) (hordinary : mode.Ordinary)
    (hfinish : s.finish mode = (.ok token, s')) (hends : t.lineEnds = true) (isOpen : Bool) :
    Breaks t mode' isOpen [.ok token] rest := by
  obtain ⟨htoken, -⟩ := endsLine_of_finish hresting hordinary hfinish
  obtain ⟨token', hstep, hsame⟩ := step_lineFeed_of_finish hmode hresting hfinish
    { t with source := ⟨none, rest⟩ }
  obtain ⟨answers, hreaches, hmap⟩ := Reaches.lineFeed
    (t := (unread { t with source := ⟨none, rest⟩ } 0x0A).answered token' .initial) rfl hends
  have hlexeme := (Token.unlined_eq_iff.mp hsame).1
  have htoken' : token'.endsLine = false := by
    rw [Token.endsLine, hlexeme]
    exact htoken
  refine ⟨_, hreaches.emit hpending hstep, ?_⟩
  rw [List.map_cons, hmap, lineHasTokens_answered _ (.inl htoken'), hlexeme, TokenStream.unlined,
    hsame]
  rfl

/-- A carriage return at the end of a source and the line feed behind it end the line together. -/
theorem Yields.breaks_of_carriageReturn {answers : List (Except Error Token)} {rest : List Signal}
    (h : Yields s .initial answers) (hst : Extends (.byte 0x0A :: rest) s t)
    (hmode : Mode.initial.unlined = mode.unlined) (hpending : s.source.pending = [.byte 0x0D])
    (hends : s.lineEnds = true) : Breaks t mode s.lineHasTokens answers rest := by
  obtain rfl | ⟨_, _, hheld, -⟩ := Mode.eq_or_held_of_unlined hmode
  case inr => cases hheld
  obtain ⟨hanswers, hopen⟩ := h.of_carriageReturn hpending hends
  have hboth : t.source.pending = .byte 0x0D :: .byte 0x0A :: rest := by
    rw [hst.pending, hpending]
    rfl
  obtain ⟨answers', hreaches, hmap⟩ := Reaches.carriageReturn hboth (hst.lineEnds.trans hends)
  refine ⟨answers', hreaches, ?_⟩
  rw [hmap, hst.lineHasTokens, hanswers, hopen, if_neg Bool.false_ne_true, List.append_nil]

/-- A scanner that comes to the end of a source goes on behind a line feed as one that begins
there. -/
theorem Yields.breaks {answers : List (Except Error Token)} {rest : List Signal}
    (h : Yields s mode answers) (hst : Extends (.byte 0x0A :: rest) s t)
    (hmode : mode.unlined = mode'.unlined) (hordinary : mode.Ordinary)
    (hexhausted : mode ≠ .exhausted) (hends : s.lineEnds = true) :
    Breaks t mode' s.lineHasTokens answers rest := by
  induction h generalizing t mode' with
  | @finish s mode hpending hresting =>
    rw [← hst.lineHasTokens]
    exact breaks_of_resting (by rw [hst.pending, hpending, List.nil_append]) hmode hresting
      hexhausted (hst.lineEnds.trans hends)
  | @last s s' mode token hpending hresting hfinish =>
    exact breaks_of_finish (by rw [hst.pending, hpending, List.nil_append]) hmode hresting
      hordinary hfinish (hst.lineEnds.trans hends) _
  | @more s s' mode mode₁ b rest₁ answers hpending hstep h ih =>
    -- a carriage return that ends the first source is the one byte that what follows can change
    by_cases hcr : mode = .initial ∧ b = 0x0D ∧ rest₁ = []
    · obtain ⟨rfl, rfl, rfl⟩ := hcr
      exact (Yields.more hpending hstep h).breaks_of_carriageReturn hst hmode hpending hends
    obtain ⟨mode₁', t', hpending', hstep', hmode₁, hst'⟩ := hst.more (.inr ⟨rest, rfl⟩) hpending
      hmode (fun hm hb hr => absurd ⟨hm, hb, hr⟩ hcr) hstep
    have hfollows := step_follows (s := { s with source := ⟨none, rest₁⟩ }) rfl hordinary b
    rw [hstep] at hfollows
    rcases hfollows with ⟨hordinary₁, hexhausted₁, -, hends₁, hline, -⟩
    obtain ⟨answers', hreaches, hmap⟩ := ih hst' hmode₁ hordinary₁
      (mt hexhausted₁ hexhausted) (hends₁.trans hends)
    rw [hline hends] at hmap
    exact ⟨answers', hreaches.more hpending' hstep', hmap⟩
  | @emit s s' mode b rest₁ token answers hpending hstep h ih =>
    by_cases hcr : mode = .initial ∧ b = 0x0D ∧ rest₁ = []
    · obtain ⟨rfl, rfl, rfl⟩ := hcr
      exact (Yields.emit hpending hstep h).breaks_of_carriageReturn hst hmode hpending hends
    obtain ⟨token', t', hpending', hstep', htoken, hst'⟩ := hst.emit (.inr ⟨rest, rfl⟩) hpending
      hmode (fun hm hb hr => absurd ⟨hm, hb, hr⟩ hcr) hstep
    have hfollows := step_follows (s := { s with source := ⟨none, rest₁⟩ }) rfl hordinary b
    rw [hstep] at hfollows
    rcases hfollows with - | ⟨hends₁, htokenEnds, -⟩
    obtain ⟨answers', hreaches, hmap⟩ := ih hst' rfl trivial (by simp) (hends₁.trans hends)
    rw [lineHasTokens_answered _ htokenEnds] at hmap
    refine ⟨_, hreaches.emit hpending' hstep', ?_⟩
    rw [List.map_cons, hmap, List.map_cons, TokenStream.unlined, TokenStream.unlined, htoken]
    rfl
  | @unknown s s' mode b rest₁ e answers hpending hstep hfatal h ih =>
    by_cases hcr : mode = .initial ∧ b = 0x0D ∧ rest₁ = []
    · obtain ⟨rfl, rfl, rfl⟩ := hcr
      exact (Yields.unknown hpending hstep hfatal h).breaks_of_carriageReturn hst hmode hpending
        hends
    obtain ⟨e', t', hpending', hstep', hfatal', he, hst'⟩ := hst.unknown (.inr ⟨rest, rfl⟩)
      hpending hmode (fun hm hb hr => absurd ⟨hm, hb, hr⟩ hcr) hstep hfatal
    have hfollows := step_follows (s := { s with source := ⟨none, rest₁⟩ }) rfl hordinary b
    rw [hstep] at hfollows
    rcases hfollows with - | - | ⟨-, hends₁, hline, -⟩
    obtain ⟨-, hendsFailed, hlineFailed⟩ := source_failed s' e mode
    obtain ⟨answers', hreaches, hmap⟩ := ih hst'
      (congrArg Mode.unlined (recovery_of_unlined hmode))
      (ordinary_of_resting (resting_ite mode)) (by split <;> simp)
      (hendsFailed.trans (hends₁.trans hends))
    rw [hlineFailed, hline] at hmap
    refine ⟨_, hreaches.unknown hpending' hstep' hfatal', ?_⟩
    rw [List.map_cons, hmap, List.map_cons, he]
    rfl

/-! ## Fresh scanners -/

/-- A scanner at the beginning of a source, as a unit is assembled from. -/
def begin (origin : String) (signals : List Signal) : Scanner :=
  { source := { rest := signals }, origin, lineEnds := true }

/-- The answers on a source that is put behind another one, with a line feed between them. -/
theorem answers_append {first second : List Signal} (origin origin₁ origin₂ : String)
    (hfirst : TokenStream.Fine (begin origin₁ first).answers)
    (hsecond : TokenStream.Fine (begin origin₂ second).answers) :
    (begin origin (first ++ .byte 0x0A :: second)).answers.map TokenStream.unlined =
      (begin origin₁ first).answers.map TokenStream.unlined ++
        (if TokenStream.lineOpen false (begin origin₁ first).answers then [.ok .lineEnd] else []) ++
        (begin origin₂ second).answers.map TokenStream.unlined := by
  have hyields₁ := yields_answers (s := begin origin₁ first) rfl hfirst
  have hyields₂ := yields_answers (s := begin origin₂ second) rfl hsecond
  have hboth : Extends (.byte 0x0A :: second) (begin origin₁ first)
      (begin origin (first ++ .byte 0x0A :: second)) := ⟨rfl, rfl, rfl⟩
  have hmode : Mode.initial.unlined = Mode.initial.unlined := rfl
  obtain ⟨answers₁, ⟨t, hpending, hends, hline, hreaches⟩, hmap₁⟩ :=
    hyields₁.breaks hboth hmode trivial (by simp [begin]) rfl
  have hbehind : Extends [] (begin origin₂ second) t :=
    ⟨hpending.trans (List.append_nil _).symm, hends, hline⟩
  obtain ⟨answers₂, hyields, hmap₂⟩ := hyields₂.of_extends_nil hbehind hmode
  rw [(hreaches answers₂ hyields).answers_eq rfl, List.map_append, hmap₁, hmap₂]
  rfl

/-- A line that makes the text section active, with the end of the line before it. -/
def textLine : List UInt8 :=
  "\n.text\n".toUTF8.data.toList

/-- The signals of `.text`. -/
def textDirective : List Signal :=
  ".text".toUTF8.data.toList.map .byte

theorem map_textLine :
    textLine.map Signal.byte = .byte 0x0A :: (textDirective ++ [.byte 0x0A]) := by
  decide +kernel

theorem answers_textDirective : (begin "" textDirective).answers =
    [.ok { lexeme := .directive "text", line := 1 }] := by
  decide +kernel

/-- The answers on a source that is put behind another one, with a line between them that makes the
text section active. -/
theorem answers_append_textLine {first second : List Signal} (origin origin₁ origin₂ : String)
    (hfirst : TokenStream.Fine (begin origin₁ first).answers)
    (hsecond : TokenStream.Fine (begin origin₂ second).answers) :
    (begin origin (first ++ textLine.map .byte ++ second)).answers.map TokenStream.unlined =
      (begin origin₁ first).answers.map TokenStream.unlined ++
        (if TokenStream.lineOpen false (begin origin₁ first).answers then [.ok .lineEnd] else []) ++
        ([.ok { lexeme := .directive "text", line := 0 }, .ok .lineEnd] ++
          (begin origin₂ second).answers.map TokenStream.unlined) := by
  -- the line is a source of its own, put between the two
  have htext : TokenStream.Fine (begin "" textDirective).answers := by
    rw [answers_textDirective]
    simp [TokenStream.Fine, TokenStream.refused]
  have hbehind := answers_append "" "" origin₂ htext hsecond
  rw [answers_textDirective] at hbehind
  have hfine : TokenStream.Fine (begin "" (textDirective ++ .byte 0x0A :: second)).answers := by
    rw [← TokenStream.fine_map_unlined, hbehind, TokenStream.fine_append,
      TokenStream.fine_map_unlined]
    refine ⟨?_, hsecond⟩
    simp [TokenStream.Fine, TokenStream.refused, TokenStream.lineOpen, TokenStream.unlined]
  have hsplit : first ++ textLine.map .byte ++ second =
      first ++ .byte 0x0A :: (textDirective ++ .byte 0x0A :: second) := by
    simp [map_textLine]
  rw [hsplit, answers_append origin origin₁ "" hfirst hfine, hbehind]
  rfl

end Scanner

end AsmLinker
