import Mathlib
import AsmLinker.Proofs.Token.Items
import AsmLinker.Proofs.Unit.Progress

/-!
# How much of a source is read

The scanner reads its source one signal at a time and looks no further than it reads. So the reads
can be counted beside what is answered (`Scanner.reads`), and the count has a meaning that does not
depend on how it is made: the answer is the same whatever stands behind the signals that were read.
If there are fewer signals than that, a failure in their place is reported
(`Scanner.metered_resume`).

This is said of each reader in turn, from the digits of an escape (`Literal.metered_hexDigit`) to a
whole literal (`Literal.metered_read`), then of each action of the automaton
(`Scanner.metered_step`) and of requests. Readers are put together with `Literal.andThen`, which
keeps it (`Literal.metered_andThen`).

Two things follow. To a literal, the end of its line is like the end of the source
(`Literal.read_lineEnd`). And a source with a failure in it is answered like the source without it,
up to the request that comes to the failure (`Scanner.answers_failing`).
-/

namespace AsmLinker

namespace Literal

open Rendering

/-! ## Reads of literals -/

/-- How often the source is read for the digits of a hexadecimal escape. -/
def hexEscapeReads (input : List Signal) : Nat :=
  match hexDigit input with
  | (.ok _, _) => 2
  | (.error _, _) => 1

/-- How often the source is read for what follows a backslash. -/
def escapeReads : List Signal → Nat
  | .byte b :: rest => if Char.ofUInt8 b = 'x' then 1 + hexEscapeReads rest else 1
  | _ => 1

/-- How often the source is read for a literal behind its opening quote. -/
def bodyReads (input : List Signal) : Nat :=
  match input with
  | .byte b :: rest =>
    if Char.ofUInt8 b = '"' then 1
    else if isLineEnd b then 1
    else if Char.ofUInt8 b = '\\' then
      match _h : escape rest with
      | (.ok _, rest') => 1 + (escapeReads rest + bodyReads rest')
      | (.error _, _) => 1 + escapeReads rest
    else 1 + bodyReads rest
  | _ => 1
termination_by input.length
decreasing_by
  · have := length_escape_le rest
    simp only [_h] at this
    simp only [List.length_cons]
    omega
  · simp

variable {α β : Type} {f : List Signal → Except LiteralFault α × List Signal}
  {g : α → List Signal → Except LiteralFault β × List Signal} {reads : List Signal → Nat}
  {readsBehind : α → List Signal → Nat} {input taken : List Signal}

/-- These signals are read and no more, whatever stands behind them. -/
def Enough (f : List Signal → Except LiteralFault α × List Signal) (reads : List Signal → Nat)
    (taken : List Signal) (result : Except LiteralFault α) : Prop :=
  ∀ rest, f (taken ++ rest) = (result, rest) ∧ reads (taken ++ rest) = taken.length

/-- More than these signals is read. A failure that comes next is reported, and the end of a line
that comes next is like the end of the source. -/
structure Short (f : List Signal → Except LiteralFault α × List Signal)
    (reads : List Signal → Nat) (taken : List Signal) : Prop where
  fault : ∀ cause rest, f (taken ++ .fault cause :: rest) = (.error (.unreadable cause), rest)
  ended : ∃ fault, (f taken).1 = .error fault ∧
    ∀ b rest, IsLineEnd b → f (taken ++ .byte b :: rest) = (.error fault, rest)
  reads : taken.length < reads taken

/-- The reads are counted rightly before this input. -/
def Metered (f : List Signal → Except LiteralFault α × List Signal) (reads : List Signal → Nat)
    (input : List Signal) : Prop :=
  (∃ taken rest result, input = taken ++ rest ∧ Enough f reads taken result) ∨ Short f reads input

/-- One reader and then another one. -/
def andThen (f : List Signal → Except LiteralFault α × List Signal)
    (g : α → List Signal → Except LiteralFault β × List Signal) (input : List Signal) :
    Except LiteralFault β × List Signal :=
  match f input with
  | (.ok value, rest) => g value rest
  | (.error fault, rest) => (.error fault, rest)

/-- How often the source is read for one reader and then another one. -/
def readsThen (f : List Signal → Except LiteralFault α × List Signal) (reads : List Signal → Nat)
    (readsBehind : α → List Signal → Nat) (input : List Signal) : Nat :=
  match f input with
  | (.ok value, rest) => reads input + readsBehind value rest
  | (.error _, _) => reads input

theorem metered_pure (result : Except LiteralFault α) (input : List Signal) :
    Metered (fun rest => (result, rest)) (fun _ => 0) input :=
  .inl ⟨[], input, result, rfl, fun _ => ⟨rfl, rfl⟩⟩

theorem metered_andThen (hf : Metered f reads input)
    (hg : ∀ value rest, f input = (.ok value, rest) → Metered (g value) (readsBehind value) rest) :
    Metered (andThen f g) (readsThen f reads readsBehind) input := by
  rcases hf with ⟨taken, rest, result, rfl, henough⟩ | hshort
  · cases result with
    | error fault =>
      refine .inl ⟨taken, rest, .error fault, rfl, fun rest => ?_⟩
      rw [andThen, readsThen, (henough rest).1]
      exact ⟨rfl, (henough rest).2⟩
    | ok value =>
      -- behind what the first reader takes, the second one is on its own
      have hbehind : ∀ rest, andThen f g (taken ++ rest) = g value rest ∧
          readsThen f reads readsBehind (taken ++ rest) =
            taken.length + readsBehind value rest := by
        intro rest
        rw [andThen, readsThen, (henough rest).1]
        exact ⟨rfl, congrArg (· + _) (henough rest).2⟩
      rcases hg value rest (henough rest).1 with ⟨more, last, result, rfl, hmore⟩ | hshort
      · refine .inl ⟨taken ++ more, last, result, (List.append_assoc ..).symm, fun last => ?_⟩
        rw [List.append_assoc, (hbehind _).1, (hbehind _).2, (hmore last).1, (hmore last).2,
          List.length_append]
        exact ⟨rfl, rfl⟩
      · obtain ⟨fault, hended, hlineEnd⟩ := hshort.ended
        refine .inr ⟨fun cause last => ?_, ⟨fault, ?_, fun b last hb => ?_⟩, ?_⟩
        · rw [List.append_assoc, (hbehind _).1, hshort.fault]
        · rw [(hbehind _).1, hended]
        · rw [List.append_assoc, (hbehind _).1, hlineEnd b last hb]
        · rw [(hbehind _).2, List.length_append]
          exact Nat.add_lt_add_left hshort.reads _
  · obtain ⟨fault, hended, hlineEnd⟩ := hshort.ended
    -- the first reader comes to no value
    obtain ⟨rest, hinput⟩ : ∃ rest, f input = (.error fault, rest) := ⟨_, Prod.ext hended rfl⟩
    refine .inr ⟨fun cause last => ?_, ⟨fault, ?_, fun b last hb => ?_⟩, ?_⟩
    · rw [andThen, hshort.fault]
    · rw [andThen, hinput]
    · rw [andThen, hlineEnd b last hb]
    · rw [readsThen, hinput]
      exact hshort.reads

/-- A reader that reads a signal and goes on as another one. -/
theorem metered_cons {f' : List Signal → Except LiteralFault α × List Signal}
    {reads' : List Signal → Nat} {signal : Signal} (hf : Metered f reads input)
    (heq : ∀ rest, f' (signal :: rest) = f rest)
    (hreads : ∀ rest, reads' (signal :: rest) = 1 + reads rest) :
    Metered f' reads' (signal :: input) := by
  rcases hf with ⟨taken, rest, result, rfl, henough⟩ | hshort
  · refine .inl ⟨signal :: taken, rest, result, rfl, fun rest => ?_⟩
    rw [List.cons_append, heq, hreads, (henough rest).1, (henough rest).2, List.length_cons,
      Nat.add_comm]
    exact ⟨rfl, rfl⟩
  · obtain ⟨fault, hended, hlineEnd⟩ := hshort.ended
    refine .inr ⟨fun cause last => ?_, ⟨fault, ?_, fun b last hb => ?_⟩, ?_⟩
    · rw [List.cons_append, heq, hshort.fault]
    · rw [heq, hended]
    · rw [List.cons_append, heq, hlineEnd b last hb]
    · rw [hreads, List.length_cons, Nat.add_comm]
      exact Nat.add_lt_add_left hshort.reads 1

/-- A reader that is done with the first signal. -/
theorem metered_single {signal : Signal} (result : Except LiteralFault α)
    (heq : ∀ rest, f (signal :: rest) = (result, rest))
    (hreads : ∀ rest, reads (signal :: rest) = 1) (rest : List Signal) :
    Metered f reads (signal :: rest) :=
  .inl ⟨[signal], rest, result, rfl, fun rest => ⟨heq rest, hreads rest⟩⟩

theorem metered_hexDigit (input : List Signal) : Metered hexDigit (fun _ => 1) input := by
  cases input with
  | nil =>
    refine .inr ⟨fun _ _ => rfl, ⟨_, rfl, fun b rest hb => ?_⟩, Nat.zero_lt_one⟩
    rcases hb with rfl | rfl <;> rfl
  | cons signal rest =>
    cases signal with
    | fault cause => exact metered_single _ (fun _ => rfl) (fun _ => rfl) rest
    | byte b =>
      cases hdigit : Numeral.digit? (Char.ofUInt8 b) with
      | some d => exact metered_single _ (fun _ => by rw [hexDigit, hdigit]) (fun _ => rfl) rest
      | none => exact metered_single _ (fun _ => by rw [hexDigit, hdigit]) (fun _ => rfl) rest

/-- The byte of a hexadecimal escape with these digits. -/
def hexByte? (high low : Nat) : Except LiteralFault UInt8 :=
  if high * 16 + low > 0x7F then .error (.malformed (.escapeOutsideAscii (high * 16 + low)))
  else .ok (UInt8.ofNat (high * 16 + low))

theorem hexEscape_eq : hexEscape =
    andThen hexDigit fun high => andThen hexDigit fun low rest => (hexByte? high low, rest) := by
  funext input
  rw [hexEscape, andThen]
  rcases hexDigit input with ⟨fault | high, rest⟩
  · rfl
  · dsimp only
    rw [andThen]
    rcases hexDigit rest with ⟨fault | low, rest'⟩
    · rfl
    · dsimp only [hexByte?]
      split <;> rfl

theorem hexEscapeReads_eq : hexEscapeReads =
    readsThen hexDigit (fun _ => 1) fun _ => readsThen hexDigit (fun _ => 1) fun _ _ => 0 := by
  funext input
  rw [hexEscapeReads, readsThen]
  rcases hexDigit input with ⟨fault | high, rest⟩
  · rfl
  · dsimp only
    rw [readsThen]
    rcases hexDigit rest with ⟨fault | low, rest'⟩ <;> rfl

theorem metered_hexEscape (input : List Signal) : Metered hexEscape hexEscapeReads input := by
  rw [hexEscape_eq, hexEscapeReads_eq]
  exact metered_andThen (metered_hexDigit input) fun high rest _ =>
    metered_andThen (metered_hexDigit rest) fun low rest _ => metered_pure (hexByte? high low) rest

theorem metered_escape (input : List Signal) : Metered escape escapeReads input := by
  cases input with
  | nil =>
    refine .inr ⟨fun _ _ => rfl, ⟨_, rfl, fun b rest hb => ?_⟩, Nat.zero_lt_one⟩
    rcases hb with rfl | rfl <;> rfl
  | cons signal rest =>
    cases signal with
    | fault cause => exact metered_single _ (fun _ => rfl) (fun _ => rfl) rest
    | byte b =>
      by_cases hx : Char.ofUInt8 b = 'x'
      · exact metered_cons (metered_hexEscape rest) (fun _ => if_pos hx) fun _ => if_pos hx
      · -- any other character is the whole escape, or it is unknown
        refine metered_single (escape [.byte b]).1 (fun rest => ?_) (fun _ => if_neg hx) rest
        rw [escape, escape, if_neg hx, if_neg hx]
        split
        · rfl
        · split <;> rfl

theorem prepend_body_eq (b : UInt8) : (fun rest => prepend b (body rest)) =
    andThen body fun bytes rest => (.ok (b :: bytes), rest) := by
  funext rest
  rw [andThen]
  rcases body rest with ⟨fault | bytes, rest'⟩ <;> rfl

theorem readsThen_pure (f : List Signal → Except LiteralFault α × List Signal)
    (reads : List Signal → Nat) : readsThen f reads (fun _ _ => 0) = reads := by
  funext input
  rw [readsThen]
  split <;> rfl

theorem metered_prepend (b : UInt8) (h : Metered body bodyReads input) :
    Metered (fun rest => prepend b (body rest)) bodyReads input := by
  rw [prepend_body_eq, ← readsThen_pure body bodyReads]
  exact metered_andThen h fun bytes rest _ => metered_pure (.ok (b :: bytes)) rest

/-- A backslash is read together with the escape that it begins. -/
theorem body_backslash {b : UInt8} (hquote : ¬ Char.ofUInt8 b = '"') (hline : ¬ isLineEnd b = true)
    (hslash : Char.ofUInt8 b = '\\') (rest : List Signal) :
    body (.byte b :: rest) = andThen escape (fun decoded rest => prepend decoded (body rest)) rest ∧
      bodyReads (.byte b :: rest) =
        1 + readsThen escape escapeReads (fun _ => bodyReads) rest := by
  rw [body, bodyReads, if_neg hquote, if_neg hline, if_pos hslash, if_neg hquote, if_neg hline,
    if_pos hslash, andThen, readsThen]
  rcases escape rest with ⟨fault | decoded, rest'⟩ <;> exact ⟨rfl, rfl⟩

theorem metered_body (input : List Signal) : Metered body bodyReads input := by
  fun_induction body input with
  | case1 =>
    -- without a signal the literal is not over, and a line end in its place says the same
    refine .inr ⟨fun cause rest => ?_,
      ⟨.malformed .unterminatedString, ?_, fun b rest hb => ?_⟩, ?_⟩
    · rw [List.nil_append, body]
    · rw [body]
    · rcases hb with rfl | rfl <;> (rw [List.nil_append, body]; rfl)
    · simp [bodyReads]
  | case2 cause rest =>
    exact metered_single _ (fun _ => by rw [body]) (fun _ => by simp [bodyReads]) rest
  | case3 b rest hquote =>
    exact metered_single _ (fun _ => by rw [body, if_pos hquote])
      (fun _ => by rw [bodyReads, if_pos hquote]) rest
  | case4 b rest hquote hline =>
    exact metered_single _ (fun _ => by rw [body, if_neg hquote, if_pos hline])
      (fun _ => by rw [bodyReads, if_neg hquote, if_pos hline]) rest
  | case5 b rest hquote hline hslash fault rest' hescape =>
    refine metered_cons (metered_andThen (metered_escape rest) fun decoded last h => ?_)
      (fun rest => (body_backslash hquote hline hslash rest).1)
      fun rest => (body_backslash hquote hline hslash rest).2
    cases hescape.symm.trans h
  | case6 b rest hquote hline hslash decoded rest' hescape ih =>
    refine metered_cons (metered_andThen (metered_escape rest) fun decoded last h => ?_)
      (fun rest => (body_backslash hquote hline hslash rest).1)
      fun rest => (body_backslash hquote hline hslash rest).2
    -- the reader goes on behind the escape as the induction says
    cases hescape.symm.trans h
    exact metered_prepend decoded ih
  | case7 b rest hquote hline hslash ih =>
    refine metered_cons (metered_prepend b ih) (fun rest => ?_) fun rest => ?_
    · rw [body, if_neg hquote, if_neg hline, if_neg hslash]
    · rw [bodyReads, if_neg hquote, if_neg hline, if_neg hslash]

/-- The text of decoded bytes. -/
def text? (bytes : List UInt8) : Except LiteralFault String :=
  match String.fromUTF8? ⟨bytes.toArray⟩ with
  | some text => .ok text
  | none => .error (.malformed .stringNotUtf8)

theorem read_eq : read = andThen body fun bytes rest => (text? bytes, rest) := by
  funext input
  rw [read, andThen]
  rcases body input with ⟨fault | bytes, rest⟩
  · rfl
  · dsimp only [text?]
    cases String.fromUTF8? ⟨bytes.toArray⟩ <;> rfl

theorem metered_read (input : List Signal) : Metered read bodyReads input := by
  rw [read_eq, ← readsThen_pure body bodyReads]
  exact metered_andThen (metered_body input) fun bytes rest _ => metered_pure (text? bytes) rest

/-- To a literal the end of a line is like the end of the source. -/
theorem read_lineEnd (line rest : List Signal) {b : UInt8} (hb : IsLineEnd b) :
    (read (line ++ .byte b :: rest)).1 = (read line).1 := by
  rcases metered_read line with ⟨taken, more, result, rfl, henough⟩ | hshort
  · rw [List.append_assoc, (henough _).1, (henough _).1]
  · obtain ⟨fault, hended, hlineEnd⟩ := hshort.ended
    rw [hlineEnd b rest hb, hended]

end Literal

/-! ## Reads of the scanner -/

/-- The scanner with other signals in its source. -/
def Scanner.withRest (s : Scanner) (rest : List Signal) : Scanner :=
  { s with source := { s.source with rest } }

/-- The step with other signals in the source behind it. -/
def Step.withRest (rest : List Signal) : Step → Step
  | .more mode s => .more mode (s.withRest rest)
  | .emit token mode s => .emit token mode (s.withRest rest)
  | .fail e s => .fail e (s.withRest rest)

namespace Scanner

variable {s s' : Scanner} {mode mode' : Mode} {b : UInt8}

/-- How often the source is read for the rest of a comment. -/
def commentReads : List Signal → Nat
  | .byte b :: rest => if CharClass.of b = .newLine then 1 else 1 + commentReads rest
  | _ => 1

/-- How often the source is read for the action for a byte. -/
def stepReads (s : Scanner) (mode : Mode) (b : UInt8) : Nat :=
  match action mode.state (CharClass.of b) with
  | .endOfLine => if b = 0x0D then 1 else 0
  | .comment => commentReads s.source.rest
  | .ascii => Literal.bodyReads s.source.rest
  | _ => 0

/-- How often the source is read until the automaton answers. A byte that was pushed back is not
read again. -/
def resumeReads (s : Scanner) (mode : Mode) : Nat :=
  match _read : s.source.next with
  | (some (.byte b), source) =>
    (if s.source.back = none then 1 else 0) + stepReads { s with source } mode b +
      match _stepped : step { s with source } mode b with
      | .more mode' s' => s'.resumeReads mode'
      | _ => 0
  | _ => 1
termination_by 2 * s.source.pending.length + mode.weight
decreasing_by
  obtain ⟨rest, hpending, rfl⟩ := pending_of_next _read
  have hlt := step_more_lt rfl _stepped
  rw [hpending, List.length_cons]
  exact hlt

/-! ## What a step reads -/

/-- The step reads some signals and no more, whatever stands behind them, or else it reads more than
there are, and then it reports a failure that comes next. -/
def MeteredStep (s : Scanner) (mode : Mode) (b : UInt8) : Prop :=
  (∃ taken rest result, s.source.rest = taken ++ rest ∧
    ∀ rest, (s.withRest (taken ++ rest)).step mode b = Step.withRest rest result ∧
      (s.withRest (taken ++ rest)).stepReads mode b = taken.length) ∨
  (s.source.rest.length < s.stepReads mode b ∧ ∀ cause rest, ∃ s',
    (s.withRest (s.source.rest ++ .fault cause :: rest)).step mode b =
      .fail (s.unreadable cause) s')

theorem metered_dropComment (input : List Signal) :
    (∃ taken rest outcome back, input = taken ++ rest ∧
      ∀ rest, dropComment (taken ++ rest) = (outcome, ⟨back, rest⟩) ∧
        commentReads (taken ++ rest) = taken.length) ∨
    (input.length < commentReads input ∧
      ∀ cause rest, dropComment (input ++ .fault cause :: rest) = (some cause, ⟨none, rest⟩)) := by
  induction input with
  | nil => exact .inr ⟨Nat.zero_lt_one, fun _ _ => rfl⟩
  | cons signal input ih =>
    cases signal with
    | fault cause => exact .inl ⟨[.fault cause], input, _, _, rfl, fun _ => ⟨rfl, rfl⟩⟩
    | byte b =>
      by_cases hline : CharClass.of b = .newLine
      · exact .inl ⟨[.byte b], input, _, _, rfl, fun _ => ⟨if_pos hline, if_pos hline⟩⟩
      · have hdrop : ∀ rest, dropComment (.byte b :: rest) = dropComment rest :=
          fun _ => if_neg hline
        have hreads : ∀ rest, commentReads (.byte b :: rest) = 1 + commentReads rest :=
          fun _ => if_neg hline
        rcases ih with ⟨taken, rest, outcome, back, rfl, henough⟩ | ⟨hlt, hshort⟩
        · refine .inl ⟨.byte b :: taken, rest, outcome, back, rfl, fun rest => ?_⟩
          rw [List.cons_append, hdrop, hreads, (henough rest).1, (henough rest).2, List.length_cons,
            Nat.add_comm]
          exact ⟨rfl, rfl⟩
        · refine .inr ⟨?_, fun cause rest => ?_⟩
          · rw [hreads, List.length_cons, Nat.add_comm]
            exact Nat.add_lt_add_left hlt 1
          · rw [List.cons_append, hdrop, hshort]

theorem withRest_eq (hclear : s.source.back = none) (rest : List Signal) :
    s.withRest rest = { s with source := ⟨none, rest⟩ } := by
  rw [← hclear]
  rfl

theorem terminator_byte (c : UInt8) (rest : List Signal) :
    terminator ⟨none, .byte c :: rest⟩ 0x0D =
      (none, ⟨if c = 0x0A then none else some c, rest⟩) := by
  by_cases hc : c = 0x0A
  · subst hc
    rfl
  · rw [terminator, if_pos rfl, Source.next, if_neg hc]
    dsimp only
    rw [if_neg hc]
    rfl

/-- Behind a carriage return one signal is read, and behind a line feed none. -/
theorem metered_endLine (hclear : s.source.back = none)
    (hact : action mode.state (CharClass.of b) = .endOfLine) : MeteredStep s mode b := by
  have hstep : ∀ rest, (s.withRest rest).step mode b =
      endLine { s with source := ⟨none, rest⟩ } mode b :=
    fun rest => by rw [step, hact, withRest_eq hclear]
  have hreads : ∀ t : Scanner, t.stepReads mode b = if b = 0x0D then 1 else 0 :=
    fun t => by rw [stepReads, hact]
  by_cases hb : b = 0x0D
  · -- the signal behind it is read to see whether it is the line feed that belongs to it
    subst hb
    cases hinput : s.source.rest with
    | nil =>
      refine .inr ⟨?_, fun cause rest => ?_⟩
      · rw [hinput, hreads, if_pos rfl]
        exact Nat.zero_lt_one
      · rw [hinput, hstep]
        exact ⟨_, rfl⟩
    | cons signal rest =>
      refine .inl ⟨[signal], rest, (s.withRest [signal]).step mode 0x0D, hinput,
        fun rest => ⟨?_, hreads _⟩⟩
      rw [hstep, hstep]
      cases signal with
      | fault cause => rfl
      | byte c =>
        rw [endLine, endLine, List.singleton_append, terminator_byte, terminator_byte]
        dsimp only
        split <;> rfl
  · refine .inl ⟨[], s.source.rest, (s.withRest s.source.rest).step mode b, rfl,
      fun rest => ⟨?_, ?_⟩⟩
    · rw [hstep, hstep, endLine, endLine, terminator, terminator, if_neg hb, if_neg hb]
      dsimp only
      split <;> rfl
    · rw [hreads, if_neg hb]
      rfl

theorem metered_comment (hclear : s.source.back = none)
    (hact : action mode.state (CharClass.of b) = .comment) : MeteredStep s mode b := by
  have hstep : ∀ rest, (s.withRest rest).step mode b =
      comment { s with source := ⟨none, rest⟩ } mode :=
    fun rest => by rw [step, hact, withRest_eq hclear]
  have hreads : ∀ rest, (s.withRest rest).stepReads mode b = commentReads rest :=
    fun rest => by rw [stepReads, hact]; rfl
  rcases metered_dropComment s.source.rest with
    ⟨taken, rest, outcome, back, hinput, henough⟩ | ⟨hlt, hshort⟩
  · refine .inl ⟨taken, rest, (s.withRest taken).step mode b, hinput, fun rest => ⟨?_, ?_⟩⟩
    · have hdone := (henough []).1
      rw [List.append_nil] at hdone
      rw [hstep, hstep, comment, comment, Source.pending_mk_none, Source.pending_mk_none,
        (henough rest).1, hdone]
      cases outcome <;> rfl
    · rw [hreads, (henough rest).2]
  · refine .inr ⟨?_, fun cause rest => ?_⟩
    · rw [stepReads, hact]
      exact hlt
    · rw [hstep, comment, Source.pending_mk_none, hshort]
      exact ⟨_, rfl⟩

theorem metered_literal (hclear : s.source.back = none)
    (hact : action mode.state (CharClass.of b) = .ascii) : MeteredStep s mode b := by
  have hstep : ∀ rest, (s.withRest rest).step mode b =
      literal { s with source := ⟨none, rest⟩ } :=
    fun rest => by rw [step, hact, withRest_eq hclear]
  have hreads : ∀ rest, (s.withRest rest).stepReads mode b = Literal.bodyReads rest :=
    fun rest => by rw [stepReads, hact]; rfl
  rcases Literal.metered_read s.source.rest with ⟨taken, rest, result, hinput, henough⟩ | hshort
  · refine .inl ⟨taken, rest, (s.withRest taken).step mode b, hinput, fun rest => ⟨?_, ?_⟩⟩
    · have hdone := (henough []).1
      rw [List.append_nil] at hdone
      rw [hstep, hstep, literal, literal, Source.pending_mk_none, Source.pending_mk_none,
        (henough rest).1, hdone]
      rcases result with (fault | cause) | text <;> rfl
    · rw [hreads, (henough rest).2]
  · refine .inr ⟨?_, fun cause rest => ?_⟩
    · rw [stepReads, hact]
      exact hshort.reads
    · rw [hstep, literal, Source.pending_mk_none, hshort.fault]
      exact ⟨_, rfl⟩

theorem metered_step (hclear : s.source.back = none) (mode : Mode) (b : UInt8) :
    MeteredStep s mode b := by
  -- most actions do not read at all
  have hnone : (∀ rest, (s.withRest rest).step mode b = Step.withRest rest (s.step mode b) ∧
      (s.withRest rest).stepReads mode b = 0) → MeteredStep s mode b :=
    fun h => .inl ⟨[], s.source.rest, s.step mode b, rfl, h⟩
  cases hact : action mode.state (CharClass.of b) with
  | endOfLine => exact metered_endLine hclear hact
  | comment => exact metered_comment hclear hact
  | ascii => exact metered_literal hclear hact
  | complete | completeComma | completeBefore =>
    refine hnone fun rest => ⟨?_, by rw [stepReads, hact]⟩
    rw [step, step, hact]
    cases mode.complete <;> rfl
  | release | releaseComma =>
    refine hnone fun rest => ⟨?_, by rw [stepReads, hact]⟩
    rw [step, step, hact]
    cases mode.token? <;> rfl
  | accumulate | beginIdentifier | beginDigit | beginSection | label | skip | recover | unknown =>
    refine hnone fun rest => ⟨?_, by rw [stepReads, hact]⟩
    rw [step, step, hact]
    rfl

/-! ## What a request reads -/

/-- The automaton reads some signals until it answers and no more, whatever stands behind them, or
else it reads more than there are, and then it reports a failure that comes next. -/
def MeteredScan (s : Scanner) (mode : Mode) : Prop :=
  (∃ taken rest answer s', s.source.rest = taken ++ rest ∧
    ∀ rest, (s.withRest (taken ++ rest)).resume mode = (answer, withRest s' rest) ∧
      (s.withRest (taken ++ rest)).resumeReads mode = taken.length) ∨
  (s.source.rest.length < s.resumeReads mode ∧ ∀ cause rest,
    ((s.withRest (s.source.rest ++ .fault cause :: rest)).resume mode).1 =
      .error (s.unreadable cause))

/-- What comes next is a byte that was pushed back, or else it is read. -/
theorem exists_first {source : Source} {signal : Signal}
    (h : s.source.next = (some signal, source)) :
    source.back = none ∧ ∃ first, s.source.rest = first ++ source.rest ∧
      first.length = (if s.source.back = none then 1 else 0) ∧
      ∀ rest, (s.withRest (first ++ rest)).source.next = (some signal, ⟨none, rest⟩) := by
  obtain ⟨⟨back | c, input⟩, origin, lineEnds, saved, line, lineHasTokens⟩ := s
  · cases input with
    | nil => cases h
    | cons signal input =>
      cases h
      exact ⟨rfl, [signal], rfl, rfl, fun _ => rfl⟩
  · cases h
    exact ⟨rfl, [], rfl, rfl, fun _ => rfl⟩

theorem resumeReads_of_next {source : Source} (h : s.source.next = (some (.byte b), source))
    (mode : Mode) : s.resumeReads mode =
      (if s.source.back = none then 1 else 0) + stepReads { s with source } mode b +
        match step { s with source } mode b with
        | .more mode' s' => s'.resumeReads mode'
        | _ => 0 := by
  rw [resumeReads]
  split
  next b' source' heq =>
    cases h.symm.trans heq
    congr 1
    split <;> simp [*]
  next hother => exact absurd h (hother _ _)

theorem resume_of_next {source : Source} (h : s.source.next = (some (.byte b), source))
    (mode : Mode) : s.resume mode =
      match step { s with source } mode b with
      | .more mode' s' => s'.resume mode'
      | .emit token mode' s' => (.ok token, s'.answered token mode')
      | .fail e s' => (.error e, s'.failed e mode) := by
  obtain ⟨rest, hpending, rfl⟩ := pending_of_next h
  exact resume_byte mode hpending

theorem resume_fault {source : Source} {cause : String}
    (h : s.source.next = (some (.fault cause), source)) (mode : Mode) :
    s.resume mode = (.error (s.unreadable cause), { s with source }) := by
  rw [resume]
  split
  next heq => cases h.symm.trans heq
  next heq => cases h.symm.trans heq; rfl
  next heq => cases h.symm.trans heq

theorem withRest_self {rest : List Signal} (h : s.source.rest = rest) : s.withRest rest = s := by
  rw [← h]
  rfl

theorem failed_withRest (s : Scanner) (e : Error) (mode : Mode) (rest : List Signal) :
    (s.withRest rest).failed e mode = (s.failed e mode).withRest rest := by
  unfold failed
  split <;> rfl

theorem origin_step (s : Scanner) (mode : Mode) (b : UInt8) :
    (s.step mode b).scanner.origin = s.origin := by
  unfold step
  split
  case h_5 | h_6 | h_7 | h_9 | h_10 => split <;> rfl
  case h_12 =>
    unfold endLine
    split
    · rfl
    · dsimp only
      split <;> rfl
  case h_13 =>
    unfold comment
    split <;> rfl
  case h_14 =>
    unfold literal
    split <;> rfl
  all_goals rfl

/-- A request whose first step is metered is metered if it is so from there on. -/
theorem MeteredScan.of_step {source : Source} (hread : s.source.next = (some (.byte b), source))
    (hmore : ∀ mode' s', step { s with source } mode b = .more mode' s' → MeteredScan s' mode') :
    MeteredScan s mode := by
  obtain ⟨hclear, first, hfirst, hlength, hnext⟩ := exists_first hread
  generalize hs₁ : ({ s with source } : Scanner) = s₁ at hmore
  have hclear₁ : s₁.source.back = none := by rw [← hs₁]; exact hclear
  have hsource₁ : s₁.source.rest = source.rest := by rw [← hs₁]
  -- behind the first byte the step is made
  have hresume : ∀ rest, (s.withRest (first ++ rest)).resume mode =
      match (s₁.withRest rest).step mode b with
      | .more mode' s' => s'.resume mode'
      | .emit token mode' s' => (.ok token, s'.answered token mode')
      | .fail e s' => (.error e, s'.failed e mode) := by
    intro rest
    rw [resume_of_next (hnext rest), withRest_eq hclear₁, ← hs₁]
    rfl
  have hreads : ∀ rest, (s.withRest (first ++ rest)).resumeReads mode =
      first.length + (s₁.withRest rest).stepReads mode b +
        match (s₁.withRest rest).step mode b with
        | .more mode' s' => s'.resumeReads mode'
        | _ => 0 := by
    intro rest
    rw [resumeReads_of_next (hnext rest), withRest_eq hclear₁, ← hs₁, hlength]
    rfl
  rcases metered_step hclear₁ mode b with ⟨taken, rest, result, hinput, henough⟩ | ⟨hlt, hshort⟩
  · have hall : s.source.rest = first ++ (taken ++ rest) := by rw [hfirst, ← hsource₁, hinput]
    have hself := withRest_self hall
    cases result with
    | more mode' s' =>
      have hstep : s₁.step mode b = .more mode' (s'.withRest rest) := by
        rw [← withRest_self hinput]
        exact (henough rest).1
      have horigin : s'.origin = s.origin := by
        have h := origin_step s₁ mode b
        rw [hstep, ← hs₁] at h
        exact h
      rcases hmore mode' (s'.withRest rest) hstep with
        ⟨more, last, answer, s'', hlast, hmore⟩ | ⟨hlt, hshort⟩
      · -- what is read behind the step is added to what the step read
        refine .inl ⟨first ++ (taken ++ more), last, answer, s'', ?_, fun last => ?_⟩
        · rw [hall, show rest = more ++ last from hlast]
          simp
        · rw [List.append_assoc, List.append_assoc, hresume, hreads, (henough _).1, (henough _).2]
          refine ⟨(hmore last).1, ?_⟩
          rw [List.length_append, List.length_append, ← (hmore last).2, Nat.add_assoc]
          rfl
      · -- the failure is met behind the step
        refine .inr ⟨?_, fun cause last => ?_⟩
        · rw [← hself, hreads, (henough _).1, (henough _).2, hself, hall, List.length_append,
            List.length_append, Nat.add_assoc]
          exact Nat.add_lt_add_left (Nat.add_lt_add_left hlt _) _
        · rw [hall, List.append_assoc, List.append_assoc, hresume, (henough _).1, unreadable,
            ← horigin]
          exact hshort cause last
    | emit token mode' s' =>
      refine .inl ⟨first ++ taken, rest, .ok token, s'.answered token mode', ?_, fun rest => ?_⟩
      · rw [hall, List.append_assoc]
      · rw [List.append_assoc, hresume, hreads, (henough _).1, (henough _).2, List.length_append]
        exact ⟨rfl, rfl⟩
    | fail e s' =>
      refine .inl ⟨first ++ taken, rest, .error e, s'.failed e mode, ?_, fun rest => ?_⟩
      · rw [hall, List.append_assoc]
      · rw [List.append_assoc, hresume, hreads, (henough _).1, (henough _).2, List.length_append,
          ← failed_withRest]
        exact ⟨rfl, rfl⟩
  · -- the failure is met by the step itself
    have hself := withRest_self hfirst
    refine .inr ⟨?_, fun cause rest => ?_⟩
    · rw [← hself, hreads, hself, hfirst, List.length_append, ← hsource₁, withRest_self rfl]
      omega
    · obtain ⟨s', hfail⟩ := hshort cause rest
      rw [hfirst, List.append_assoc, hresume, ← hsource₁, hfail, ← hs₁]
      rfl

theorem source_of_pending_nil {source : Source} (h : source.pending = []) :
    source.back = none ∧ source.rest = [] := by
  rw [Source.pending] at h
  split at h
  · cases h
  next hback => exact ⟨hback, h⟩

theorem metered_resume (s : Scanner) (mode : Mode) : MeteredScan s mode := by
  fun_induction resume s mode with
  | case1 s mode source hread =>
    obtain ⟨hclear, hrest⟩ := source_of_pending_nil (pending_of_next_none hread)
    refine .inr ⟨?_, fun cause rest => ?_⟩
    · rw [hrest, resumeReads]
      split
      next heq => cases hread.symm.trans heq
      next => exact Nat.zero_lt_one
    · rw [hrest, withRest_eq hclear]
      exact congrArg Prod.fst (resume_fault rfl mode)
  | case2 s mode cause source hread =>
    obtain ⟨hclear, first, hfirst, hlength, hnext⟩ := exists_first hread
    -- only bytes are pushed back
    have hback : s.source.back = none := by
      cases hback : s.source.back with
      | none => rfl
      | some c => simp [Source.next, hback] at hread
    refine .inl ⟨first, source.rest, .error (s.unreadable cause), { s with source }, hfirst,
      fun rest => ⟨?_, ?_⟩⟩
    · rw [resume_fault (hnext rest), @withRest_eq { s with source } hclear]
      rfl
    · rw [hlength, if_pos hback, resumeReads]
      split
      next heq => cases (hnext rest).symm.trans heq
      next => rfl
  | case3 s mode b source hread mode' s' hstep ih =>
    refine .of_step hread fun mode'' s'' hstep' => ?_
    cases hstep.symm.trans hstep'
    exact ih
  | case4 s mode b source hread token mode' s' hstep =>
    refine .of_step hread fun mode'' s'' hstep' => ?_
    cases hstep.symm.trans hstep'
  | case5 s mode b source hread e s' hstep =>
    refine .of_step hread fun mode'' s'' hstep' => ?_
    cases hstep.symm.trans hstep'

/-- How often the source is read for a request. -/
def reads (s : Scanner) : Nat :=
  s.resumeReads s.mode

/-- How often the source is read for a number of requests. -/
def readsIn (s : Scanner) : Nat → Nat
  | 0 => 0
  | k + 1 => s.reads + s.read.scanner.readsIn k

variable {first second : List Signal}

/-- Before a failure that is not reached, a request is answered as ever, and the failure comes
closer by what was read. -/
theorem scan_of_reads_le (cause : String) (hinput : s.source.rest = first ++ second)
    (hreads : s.reads ≤ first.length) :
    ∃ first', s.scan.2.source.rest = first' ++ second ∧
      s.reads + first'.length = first.length ∧
      (s.withRest (first ++ .fault cause :: second)).scan =
        (s.scan.1, s.scan.2.withRest (first' ++ .fault cause :: second)) := by
  rcases metered_resume s s.mode with ⟨taken, rest, answer, s', hrest, henough⟩ | ⟨hlt, -⟩
  · have hself := withRest_self hrest
    have hscan : s.scan = (answer, withRest s' rest) := by
      rw [scan, ← hself]
      exact (henough rest).1
    have hlength : s.reads = taken.length := by
      rw [reads, ← hself]
      exact (henough rest).2
    -- the signals that are taken stand before the failure
    obtain ⟨first', rfl⟩ : taken <+: first := by
      refine List.prefix_of_prefix_length_le ⟨rest, hrest.symm⟩ ⟨second, hinput.symm⟩ ?_
      rwa [← hlength]
    have hleft : rest = first' ++ second := by
      rw [hrest, List.append_assoc] at hinput
      exact List.append_cancel_left hinput
    refine ⟨first', ?_, ?_, ?_⟩
    · rw [hscan, ← hleft]
      rfl
    · rw [hlength, List.length_append]
    · rw [hscan, List.append_assoc]
      exact (henough _).1
  · rw [hinput, List.length_append] at hlt
    rw [reads] at hreads
    omega

/-- A failure that is reached is reported. -/
theorem scan_of_lt_reads (cause : String) (hinput : s.source.rest = first ++ second)
    (hreads : first.length < s.reads) :
    (s.withRest (first ++ .fault cause :: second)).scan.1 = .error (s.unreadable cause) := by
  -- what stands before the failure is not enough
  rcases metered_resume (s.withRest first) s.mode with
    ⟨taken, rest, answer, s', hrest, henough⟩ | ⟨-, hshort⟩
  · have hlength : s.reads = taken.length := by
      rw [reads, ← withRest_self hinput, show first = taken ++ rest from hrest, List.append_assoc]
      exact (henough _).2
    rw [hlength, show first = taken ++ rest from hrest, List.length_append] at hreads
    omega
  · exact hshort cause second

/-- The end of the file is answered only when the end of the source has been read. -/
theorem lt_reads_of_isEnd (hs : s.mode.resting = true) (hend : s.read.isEnd = true) :
    s.source.rest.length < s.reads := by
  rcases metered_resume s s.mode with ⟨taken, rest, answer, s', hrest, henough⟩ | ⟨hlt, -⟩
  · -- otherwise it would be answered in the same way with more to read
    let t := s.withRest (taken ++ (rest ++ [.fault ""]))
    have hscan : t.scan = (answer, withRest s' (rest ++ [.fault ""])) := (henough _).1
    have hend' : t.read.isEnd = true := by
      have hanswer : s.read.answer = answer := by
        rw [read, scan, ← withRest_self hrest]
        exact congrArg Prod.fst (henough rest).1
      rw [Reading.isEnd, hanswer] at hend
      rw [Reading.isEnd, read, hscan]
      exact hend
    have hended := (ended_read (s := t) hs hend').1.pending
    rw [read, hscan] at hended
    exact absurd (source_of_pending_nil hended).2 (List.concat_ne_nil _ rest)
  · exact hlt

theorem origin_resume (s : Scanner) (mode : Mode) : (s.resume mode).2.origin = s.origin := by
  have hstep : ∀ (s : Scanner) (mode : Mode) (b : UInt8) source,
      (step { s with source } mode b).scanner.origin = s.origin :=
    fun s mode b source => origin_step { s with source } mode b
  fun_induction resume s mode with
  | case1 s mode source hread =>
    cases mode with
    | held | initial | skipping | exhausted => rfl
    | identifier | digits | directive =>
      unfold finish
      dsimp only
      split <;> rfl
  | case2 s mode cause source hread => rfl
  | case3 s mode b source hread mode' s' h ih =>
    have horigin := hstep s mode b source
    rw [h] at horigin
    exact ih.trans horigin
  | case4 s mode b source hread token mode' s' h =>
    have horigin := hstep s mode b source
    rw [h] at horigin
    exact horigin
  | case5 s mode b source hread e s' h =>
    have horigin := hstep s mode b source
    rw [h] at horigin
    unfold failed
    split <;> exact horigin

/-- The answers to a source with a failure are those before the request that reaches it, and then
the failure. -/
theorem answers_failing (cause : String) (hs : s.mode.resting = true)
    (hinput : s.source.rest = first ++ second) :
    ∃ k rest, (∀ j, j ≤ k ↔ s.readsIn j ≤ first.length) ∧ k ≤ s.answers.length ∧
      (s.withRest (first ++ .fault cause :: second)).answers =
        s.answers.take k ++ .error (s.unreadable cause) :: rest := by
  induction hn : s.source.pending.length using Nat.strong_induction_on generalizing s first with
  | h n ih =>
    rw [answers_eq (s := s.withRest (first ++ .fault cause :: second)) hs, answersBehind]
    rcases Nat.lt_or_ge first.length s.reads with hlt | hle
    · -- the first request reaches the failure
      have hscan := scan_of_lt_reads cause hinput hlt
      refine ⟨0, _, fun j => ?_, Nat.zero_le _, by rw [hscan]; rfl⟩
      cases j with
      | zero => exact iff_of_true le_rfl (Nat.zero_le _)
      | succ j =>
        rw [readsIn]
        omega
    · obtain ⟨first', hinput', hlength, hscan⟩ := scan_of_reads_le cause hinput hle
      -- the request does not come to the end of the file, for that lies behind the failure
      have hend : s.read.isEnd = false := by
        by_contra hend
        have hlt := lt_reads_of_isEnd hs (Bool.not_eq_false _ ▸ hend)
        rw [hinput, List.length_append] at hlt
        omega
      have hend' : ∀ s', (Reading.mk s.scan.1 s').isEnd = false := fun _ => hend
      have hunreadable : s.scan.2.unreadable cause = s.unreadable cause :=
        congrArg (Error.file .read · cause) (origin_resume s s.mode)
      obtain ⟨k, rest, hk, hle, hanswers⟩ :=
        ih _ (hn ▸ length_scan_lt hs hend) (resting_read hs) hinput' rfl
      rw [answers_eq hs, answersBehind, hscan, hend', hend', if_neg Bool.false_ne_true,
        if_neg Bool.false_ne_true]
      refine ⟨k + 1, rest, fun j => ?_, Nat.succ_le_succ hle, ?_⟩
      · cases j with
        | zero => exact iff_of_true (Nat.zero_le _) (Nat.zero_le _)
        | succ j =>
          rw [readsIn, Nat.add_le_add_iff_right, hk j]
          omega
      · rw [List.take_succ_cons, List.cons_append, ← hunreadable]
        exact congrArg (s.scan.1 :: ·) hanswers

end Scanner

end AsmLinker
