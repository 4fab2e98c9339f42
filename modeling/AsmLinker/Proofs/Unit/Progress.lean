import Mathlib
import AsmLinker.Proofs.Token.Concatenation
import AsmLinker.Proofs.Unit.Steps

/-!
# Scanning and assembling end

Bytes that were read can be pushed back, and a scanner goes on after every error, so that it is not
plain from its table that it ever comes to an end. It does: what is pending after a request is a
suffix of what was pending before it (`Scanner.suffix_read`), and a shorter one unless the end of
the file is answered. Once the end of the file has been answered the scanner does not change any
more (`Scanner.Ended.after_eq`).

An assembly takes the answers of the scanner up to the end of the file. A call that fails has taken
at least one of them, and after a call that went well further calls change nothing
(`Assembly.scanning_and_assembling_end`).
-/

namespace AsmLinker

/-! ## What is pending -/

namespace Literal

theorem suffix_hexDigit (input : List Signal) : (hexDigit input).2 <:+ input := by
  unfold hexDigit
  split
  · exact List.suffix_rfl
  · exact List.suffix_cons _ _
  · split <;> exact List.suffix_cons _ _

theorem suffix_hexEscape (input : List Signal) : (hexEscape input).2 <:+ input := by
  have hfirst := suffix_hexDigit input
  unfold hexEscape
  split
  next fault rest heq =>
    rw [heq] at hfirst
    exact hfirst
  next high rest heq =>
    rw [heq] at hfirst
    have hsecond := suffix_hexDigit rest
    split
    next fault rest' heq' =>
      rw [heq'] at hsecond
      exact hsecond.trans hfirst
    next low rest' heq' =>
      rw [heq'] at hsecond
      dsimp only
      split <;> exact hsecond.trans hfirst

theorem suffix_escape (input : List Signal) : (escape input).2 <:+ input := by
  unfold escape
  split
  · exact List.suffix_rfl
  · exact List.suffix_cons _ _
  next b rest =>
    split
    · exact (suffix_hexEscape rest).trans (List.suffix_cons _ _)
    · split
      · exact List.suffix_cons _ _
      · split <;> exact List.suffix_cons _ _

theorem suffix_body (input : List Signal) : (body input).2 <:+ input := by
  fun_induction body input with
  | case1 => exact List.suffix_rfl
  | case2 | case3 | case4 => exact List.suffix_cons _ _
  | case5 b rest _ _ _ fault rest' hescape =>
    have hsuffix := suffix_escape rest
    rw [hescape] at hsuffix
    exact hsuffix.trans (List.suffix_cons _ _)
  | case6 b rest _ _ _ decoded rest' hescape ih =>
    have hsuffix := suffix_escape rest
    rw [hescape] at hsuffix
    rw [prepend_snd]
    exact (ih.trans hsuffix).trans (List.suffix_cons _ _)
  | case7 b rest _ _ _ ih =>
    rw [prepend_snd]
    exact ih.trans (List.suffix_cons _ _)

theorem suffix_read (input : List Signal) : (read input).2 <:+ input := by
  have hsuffix := suffix_body input
  unfold read
  split
  next fault rest heq =>
    rw [heq] at hsuffix
    exact hsuffix
  next bytes rest heq =>
    rw [heq] at hsuffix
    split <;> exact hsuffix

end Literal

/-- The scanner after a step. -/
def Step.scanner : Step → Scanner
  | .more _ s => s
  | .emit _ _ s => s
  | .fail _ s => s

namespace Scanner

variable {s : Scanner} {mode : Mode} {b : UInt8}

theorem suffix_terminator (source : Source) (b : UInt8) :
    (terminator source b).2.pending <:+ source.pending := by
  unfold terminator
  split
  · cases hpending : source.pending with
    | nil =>
      rw [Source.next_of_pending_nil hpending]
      exact hpending ▸ List.suffix_rfl
    | cons signal rest =>
      rw [Source.next_of_pending hpending]
      cases signal with
      | fault cause => exact List.suffix_cons _ _
      | byte c =>
        dsimp only
        split
        · exact List.suffix_cons _ _
        · exact List.suffix_rfl
  · exact List.suffix_rfl

theorem suffix_dropComment (input : List Signal) : (dropComment input).2.pending <:+ input := by
  fun_induction dropComment input with
  | case1 => exact List.suffix_rfl
  | case2 => exact List.suffix_cons _ _
  | case3 => exact List.suffix_rfl
  | case4 b rest _ ih => exact ih.trans (List.suffix_cons _ _)

theorem suffix_endLine (s : Scanner) (mode : Mode) (b : UInt8) :
    (s.endLine mode b).scanner.source.pending <:+ s.source.pending := by
  have hsuffix := suffix_terminator s.source b
  unfold endLine
  split
  next cause source heq =>
    rw [heq] at hsuffix
    exact hsuffix
  next source heq =>
    rw [heq] at hsuffix
    dsimp only
    split <;> exact hsuffix

theorem suffix_comment (s : Scanner) (mode : Mode) :
    (s.comment mode).scanner.source.pending <:+ s.source.pending := by
  have hsuffix := suffix_dropComment s.source.pending
  unfold comment
  split
  next cause source heq =>
    rw [heq] at hsuffix
    exact hsuffix
  next source heq =>
    rw [heq] at hsuffix
    exact hsuffix

theorem suffix_literal (s : Scanner) : s.literal.scanner.source.pending <:+ s.source.pending := by
  have hsuffix := Literal.suffix_read s.source.pending
  unfold literal
  rcases hread : Literal.read s.source.pending with ⟨(fault | cause) | text, rest⟩ <;>
    rw [hread] at hsuffix <;> exact hsuffix

/-- Nothing is pending after a step but what was pending before it and the byte of the step. -/
theorem suffix_step (hclear : s.source.back = none) (mode : Mode) (b : UInt8) :
    (s.step mode b).scanner.source.pending <:+ .byte b :: s.source.pending := by
  have hkept : s.source.pending <:+ .byte b :: s.source.pending := List.suffix_cons _ _
  -- a byte that is left for later stands in front again
  have hunread : (s.unread b).source.pending <:+ .byte b :: s.source.pending := by
    rw [unread, Source.pending_unread b hclear]
  unfold step
  split
  case h_1 | h_2 | h_3 | h_4 | h_8 | h_11 | h_16 => exact hkept
  case h_5 | h_6 | h_10 => split <;> exact hkept
  case h_7 | h_9 => split <;> exact hunread
  case h_12 => exact (s.suffix_endLine mode b).trans hkept
  case h_13 => exact (s.suffix_comment mode).trans hkept
  case h_14 => exact s.suffix_literal.trans hkept
  case h_15 => exact hunread

/-- Nothing is pending after a step with the next byte but what was pending before it. -/
theorem suffix_of_next {source : Source} (hread : s.source.next = (some (.byte b), source))
    (mode : Mode) :
    (({ s with source } : Scanner).step mode b).scanner.source.pending <:+ s.source.pending := by
  obtain ⟨rest, hpending, rfl⟩ := pending_of_next hread
  rw [hpending]
  exact suffix_step rfl mode b

theorem suffix_resume (s : Scanner) (mode : Mode) :
    (s.resume mode).2.source.pending <:+ s.source.pending := by
  fun_induction resume s mode with
  | case1 s mode source hread =>
    -- at the end of the source nothing is read any more
    cases mode with
    | held | initial | skipping | exhausted => exact List.suffix_rfl
    | _ =>
      unfold finish
      dsimp only
      split <;> exact List.suffix_rfl
  | case2 s mode cause source hread =>
    obtain ⟨rest, hpending, rfl⟩ := pending_of_next hread
    rw [hpending]
    exact List.suffix_cons _ _
  | case3 s mode b source hread mode' s' hstep ih =>
    have hsuffix := suffix_of_next hread mode
    rw [hstep] at hsuffix
    exact ih.trans hsuffix
  | case4 s mode b source hread token mode' s' hstep =>
    have hsuffix := suffix_of_next hread mode
    rw [hstep] at hsuffix
    exact hsuffix
  | case5 s mode b source hread e s' hstep =>
    have hsuffix := suffix_of_next hread mode
    rw [hstep] at hsuffix
    rw [(source_failed s' e mode).1]
    exact hsuffix

/-- Nothing is pending after a request but what was pending before it. -/
theorem suffix_read (s : Scanner) : s.read.scanner.source.pending <:+ s.source.pending :=
  s.suffix_resume s.mode

/-- A request that does not answer the end of the file takes something of what is pending. -/
theorem exists_taken (hs : s.mode.resting = true) (hend : s.read.isEnd = false) :
    ∃ taken, taken ≠ [] ∧ s.source.pending = taken ++ s.read.scanner.source.pending := by
  obtain ⟨taken, htaken⟩ := s.suffix_read
  refine ⟨taken, ?_, htaken.symm⟩
  rintro rfl
  have hlt := length_scan_lt hs hend
  rw [← htaken] at hlt
  exact absurd hlt (lt_irrefl _)

/-! ## The end of the file -/

/-- The scanner has met the end of its source. -/
structure Ended (s : Scanner) : Prop where
  /-- The automaton is in its last state. -/
  mode : s.mode = .exhausted
  /-- Nothing is pending. -/
  pending : s.source.pending = []

/-- The end of the file is answered only where the source ends, on the line on which it ends. -/
theorem ended_resume (hmode : mode.Ordinary)
    (hend : (Reading.mk (s.resume mode).1 (s.resume mode).2).isEnd = true) :
    (s.resume mode).2.Ended ∧ (s.resume mode).1 = .ok (.endOfFile (s.resume mode).2.line) := by
  fun_induction resume s mode with
  | case1 s mode source hread =>
    have hpending := pending_of_next_none hread
    cases hresting : mode.resting with
    | true =>
      cases mode with
      | initial | skipping | exhausted => exact ⟨⟨rfl, hpending⟩, rfl⟩
      | _ => cases hresting
    | false =>
      -- a lexeme that was begun or a token that was held back is answered first
      rcases hfinish : s.finish mode with ⟨e | token, s'⟩
      · rw [hfinish] at hend
        cases hend
      · rw [hfinish, isEnd_eq_false (.inl (endsLine_of_finish hresting hmode hfinish).1)] at hend
        cases hend
  | case2 => cases hend
  | case3 s mode b source hread mode' s' hstep ih =>
    obtain ⟨rest, -, rfl⟩ := pending_of_next hread
    have hfollows := step_follows (s := { s with source := ⟨none, rest⟩ }) rfl hmode b
    rw [hstep] at hfollows
    rcases hfollows with ⟨hordinary⟩
    exact ih hordinary hend
  | case4 s mode b source hread token mode' s' hstep =>
    obtain ⟨rest, -, rfl⟩ := pending_of_next hread
    have hfollows := step_follows (s := { s with source := ⟨none, rest⟩ }) rfl hmode b
    rw [hstep] at hfollows
    rcases hfollows with - | ⟨-, hends⟩
    rw [isEnd_eq_false (hends.imp_right And.left)] at hend
    cases hend
  | case5 => cases hend

theorem ended_read (hs : s.mode.resting = true) (hend : s.read.isEnd = true) :
    s.read.scanner.Ended ∧ s.read.answer = .ok (.endOfFile s.read.scanner.line) :=
  ended_resume (ordinary_of_resting hs) hend

/-- Behind the end of the file every request answers it again and changes nothing. -/
theorem Ended.read_eq (h : s.Ended) :
    s.read = { answer := .ok (.endOfFile s.line), scanner := s } := by
  have hscan : s.scan = (.ok (.endOfFile s.line), { s with mode := .exhausted }) := by
    rw [scan, h.mode, resume_nil .exhausted h.pending]
    rfl
  rw [read, hscan, ← h.mode]

/-! ## Request after request -/

/-- The scanner after a number of requests, whatever they answered. -/
def after (s : Scanner) : Nat → Scanner
  | 0 => s
  | k + 1 => (s.after k).read.scanner

theorem after_read (s : Scanner) (k : Nat) : s.read.scanner.after k = s.after (k + 1) := by
  induction k with
  | zero => rfl
  | succ k ih => rw [after, ih]; rfl

theorem resting_after (hs : s.mode.resting = true) (k : Nat) : (s.after k).mode.resting = true := by
  induction k with
  | zero => exact hs
  | succ k ih => exact resting_read ih

theorem Ended.after_eq (h : s.Ended) (k : Nat) : s.after k = s := by
  induction k with
  | zero => rfl
  | succ k ih => rw [after, ih, h.read_eq]

theorem after_add (s : Scanner) (j k : Nat) : s.after (j + k) = (s.after j).after k := by
  induction k with
  | zero => rfl
  | succ k ih => rw [← Nat.add_assoc, after, ih, after]

/-- The end of the file is first answered by a request before which there were no more requests than
something was pending. -/
theorem exists_first_end (hs : s.mode.resting = true) :
    ∃ k ≤ s.source.pending.length, (s.after k).read.isEnd = true ∧
      ∀ i < k, (s.after i).read.isEnd = false := by
  induction hn : s.source.pending.length using Nat.strong_induction_on generalizing s with
  | _ n ih =>
    cases hend : s.read.isEnd with
    | true => exact ⟨0, Nat.zero_le _, hend, by simp⟩
    | false =>
      have hlt := length_scan_lt hs hend
      obtain ⟨k, hk, hlast, hbefore⟩ := ih _ (hn ▸ hlt) (resting_read hs) rfl
      refine ⟨k + 1, by omega, by rw [← after_read]; exact hlast, ?_⟩
      intro i hi
      cases i with
      | zero => exact hend
      | succ i =>
        rw [← after_read]
        exact hbefore i (by omega)

/-- From the first answer of the end of the file on, every request answers it on the same line and
leaves the automaton in its last state. -/
theorem read_of_end {j k : Nat} (hs : s.mode.resting = true)
    (hlast : (s.after k).read.isEnd = true) (hj : k ≤ j) :
    (s.after j).read.answer = .ok (.endOfFile (s.after (k + 1)).line) ∧
      (s.after (j + 1)).state = .exit ∧ (s.after (j + 1)).line = (s.after (k + 1)).line := by
  obtain ⟨hended, hanswer⟩ := ended_read (resting_after hs k) hlast
  have hafter : ∀ d, s.after (k + 1 + d) = s.after (k + 1) := by
    intro d
    rw [after_add]
    exact hended.after_eq d
  obtain ⟨d, rfl⟩ := Nat.exists_eq_add_of_le hj
  rw [Nat.add_right_comm, hafter]
  refine ⟨?_, congrArg Mode.state hended.mode, rfl⟩
  cases d with
  | zero => exact hanswer
  | succ d =>
    have hsucc : k + (d + 1) = k + 1 + d := by omega
    rw [hsucc, hafter]
    exact congrArg Reading.answer hended.read_eq

end Scanner

/-! ## The stream of an assembly -/

namespace TokenStream

variable {s : Scanner}

/-- The stream of a scanner holds the answers of its requests before the end of the file is
answered, and the line on which that is. -/
theorem ofScanner_of_end {k : Nat} (hs : s.mode.resting = true)
    (hlast : (s.after k).read.isEnd = true) (hbefore : ∀ i < k, (s.after i).read.isEnd = false) :
    ofScanner s =
      { answers := (List.range k).map fun i => (s.after i).read.answer
        endLine := (s.after (k + 1)).line } := by
  induction k generalizing s with
  | zero =>
    have hfirst : s.read.isEnd = true := hlast
    rw [Scanner.ofScanner_eq hs, if_pos hfirst]
    rfl
  | succ k ih =>
    have hfirst : s.read.isEnd = false := hbefore 0 (Nat.succ_pos k)
    have hrest := ih (Scanner.resting_read hs) (by rw [Scanner.after_read]; exact hlast)
      fun i hi => by rw [Scanner.after_read]; exact hbefore (i + 1) (by omega)
    rw [Scanner.ofScanner_eq hs, hfirst, if_neg Bool.false_ne_true, hrest, List.range_succ_eq_map]
    simp only [Scanner.after_read, List.map_cons, List.map_map]
    rfl

end TokenStream

namespace Assembly

variable {a a' : Assembly} {context : Context} {token : Token} {result : Except Error Context}

/-- Taking a token leaves the rest of the input alone. -/
theorem input_feed (a : Assembly) (context : Context) (token : Token) :
    (a.feed context token).2.input = a.input :=
  (takes_feed a context token).input_eq

/-- A run leaves a part of its answers, which is shorter if there are any, and none if it goes
well. -/
theorem exists_taken_run (a : Assembly) (context : Context) (answers : List (Except Error Token)) :
    ∃ taken, answers = taken ++ (a.run context answers).2.input.answers ∧
      (answers ≠ [] → taken ≠ []) ∧
      ((a.run context answers).1 = .ok () → (a.run context answers).2.input.answers = []) := by
  fun_induction run a context answers with
  | case1 a context b e c hfeed =>
    have hinput := input_feed b context (.endOfFile b.input.endLine)
    rw [hfeed] at hinput
    exact ⟨[], (congrArg TokenStream.answers hinput).symm, absurd rfl, by simp⟩
  | case2 a context b next c hfeed =>
    have hinput := input_feed b context (.endOfFile b.input.endLine)
    rw [hfeed] at hinput
    have hnone : c.input.answers = [] := congrArg TokenStream.answers hinput
    exact ⟨[], hnone.symm, absurd rfl, fun _ => hnone⟩
  | case3 a context e rest hfatal => exact ⟨[.error e], rfl, by simp, by simp⟩
  | case4 a context e rest hfatal ih =>
    obtain ⟨taken, hanswers, -, hok⟩ := ih
    exact ⟨.error e :: taken, congrArg _ hanswers, by simp, hok⟩
  | case5 a context token rest e b hfeed => exact ⟨[.ok token], rfl, by simp, by simp⟩
  | case6 a context token rest next b hfeed ih =>
    obtain ⟨taken, hanswers, -, hok⟩ := ih
    exact ⟨.ok token :: taken, congrArg _ hanswers, by simp, hok⟩

/-- An assembly without answers goes well and stays as it is. -/
theorem assemble_of_nil (h : a.input.answers = []) : a.assemble = (.ok (), a) := by
  have hrest : { a with input := { a.input with answers := [] } } = a := by rw [← h]
  rw [assemble, h, run]
  dsimp only
  rw [hrest]
  rfl

/-- An assembly has no more answers to take than there are bytes. -/
theorem length_answers_ofBytes (path : String) (bytes : List UInt8) :
    (ofSource path (.ofBytes bytes)).input.answers.length ≤ bytes.length := by
  let s : Scanner := { source := .ofBytes bytes, origin := path, lineEnds := true }
  obtain ⟨k, hk, hlast, hbefore⟩ := Scanner.exists_first_end (s := s) rfl
  have hinput : (ofSource path (.ofBytes bytes)).input = TokenStream.ofScanner s := rfl
  rw [hinput, TokenStream.ofScanner_of_end rfl hlast hbefore]
  simpa [s] using hk

/-- After a call that went well no answer is left. -/
theorem answers_of_assemble (h : a.assemble.1 = .ok ()) : a.assemble.2.input.answers = [] := by
  obtain ⟨-, -, -, hok⟩ := exists_taken_run a .statement a.input.answers
  exact hok h

/-- A call takes some of the answers that are left, and at least one if it fails. -/
theorem exists_taken_assemble (a : Assembly) :
    ∃ taken, a.input.answers = taken ++ a.assemble.2.input.answers ∧
      (a.assemble.1 ≠ .ok () → taken ≠ []) := by
  obtain ⟨taken, hanswers, hne, -⟩ := exists_taken_run a .statement a.input.answers
  refine ⟨taken, hanswers, ?_⟩
  intro hfailed
  apply hne
  -- a call that finds no answers goes well
  intro hnil
  rw [assemble_of_nil hnil] at hfailed
  exact hfailed rfl

/-- What every answer has at the start, every answer has that is left after some calls. -/
theorem forall_answers_calls {Q : Except Error Token → Prop}
    (h : ∀ answer ∈ a.input.answers, Q answer) (k : Nat) :
    ∀ answer ∈ (a.calls k).input.answers, Q answer := by
  induction k with
  | zero => exact h
  | succ k ih =>
    obtain ⟨taken, hanswers, -⟩ := exists_taken_assemble (a.calls k)
    intro answer hmem
    apply ih
    rw [hanswers]
    exact List.mem_append_right taken hmem

/-- An invariant over the tokens of a source that holds at the start holds after any number of
calls. -/
theorem InvariantOver.calls {Q : Token → Prop} {P : Context → Assembly → Prop}
    (hP : InvariantOver Q P) (hQ : ∀ token, .ok token ∈ a.input.answers → Q token)
    (h : P .statement a) (n : Nat) : P .statement (a.calls n) := by
  induction n with
  | zero => exact h
  | succ n ih =>
    have hleft := forall_answers_calls (Q := fun answer => ∀ token, answer = .ok token → Q token)
      (fun answer hmem token hok => hQ token (hok ▸ hmem)) n
    exact hP.run (fun token hmem => hleft _ hmem token rfl) ih

/-- No call leaves more answers than there were at the start. -/
theorem length_answers_calls_le (a : Assembly) (k : Nat) :
    (a.calls k).input.answers.length ≤ a.input.answers.length := by
  induction k with
  | zero => exact le_rfl
  | succ k ih =>
    obtain ⟨taken, hanswers, -⟩ := exists_taken_assemble (a.calls k)
    have hlength := congrArg List.length hanswers
    rw [List.length_append] at hlength
    show (a.calls k).assemble.2.input.answers.length ≤ _
    omega

/-- As many calls as failed one after the other, so many answers are gone. -/
theorem length_answers_add_le {k : Nat} (hfailed : ∀ i < k, (a.calls i).assemble.1 ≠ .ok ()) :
    (a.calls k).input.answers.length + k ≤ a.input.answers.length := by
  induction k with
  | zero => exact le_rfl
  | succ k ih =>
    have hbefore := ih fun i hi => hfailed i (Nat.lt_succ_of_lt hi)
    obtain ⟨taken, hanswers, hne⟩ := exists_taken_assemble (a.calls k)
    have hpos := List.length_pos_of_ne_nil (hne (hfailed k (Nat.lt_succ_self k)))
    have hlength := congrArg List.length hanswers
    rw [List.length_append] at hlength
    show (a.calls k).assemble.2.input.answers.length + (k + 1) ≤ _
    omega

/-- Before a call goes well, no more calls fail than there are answers. -/
theorem exists_call_ok (a : Assembly) :
    ∃ k ≤ a.input.answers.length, (a.calls k).assemble.1 = .ok () := by
  by_contra! hfailed
  have hle := length_answers_add_le (k := a.input.answers.length + 1)
    fun i hi => hfailed i (Nat.le_of_lt_succ hi)
  omega

/-- After a call that went well every further call goes well and changes nothing. -/
theorem calls_of_ok {k : Nat} (hok : (a.calls k).assemble.1 = .ok ()) {j : Nat} (hj : k ≤ j) :
    (a.calls j).assemble.1 = .ok () ∧ a.calls (j + 1) = a.calls (k + 1) := by
  have hnil : (a.calls (k + 1)).input.answers = [] := answers_of_assemble hok
  induction j, hj using Nat.le_induction with
  | base => exact ⟨hok, rfl⟩
  | succ j hj ih =>
    have hassemble := assemble_of_nil hnil
    rw [← ih.2] at hassemble
    exact ⟨congrArg Prod.fst hassemble, (congrArg Prod.snd hassemble).trans ih.2⟩

/-- Scanning and assembling `n` bytes, in which no read fails, make progress and end.
* A request to the scanner that does not answer the end of the file takes at least one byte off what
  is pending, a byte that was pushed back included, whatever was answered before.
* The end of the file is answered after at most `n` other answers. Every further request answers it
  again, on the same line and in the last state.
* The answers before it are all that an assembly of these bytes can take. Each of its calls takes at
  most `n` of them, and one that fails takes at least one, so that at most `n` calls fail before one
  goes well. After that every further call goes well and leaves the assembly as it is: its unit, its
  warnings and all the rest. -/
theorem scanning_and_assembling_end (path : String) (bytes : List UInt8) (lineEnds : Bool) :
    let s : Scanner := { source := .ofBytes bytes, origin := path, lineEnds }
    let a := ofSource path (.ofBytes bytes)
    (∀ k, (s.after k).read.isEnd = false → ∃ taken, taken ≠ [] ∧
      (s.after k).source.pending = taken ++ (s.after (k + 1)).source.pending) ∧
    (∃ k ≤ bytes.length,
      (∀ i < k, (s.after i).read.isEnd = false) ∧
      (∀ j ≥ k, (s.after j).read.answer = .ok (.endOfFile (s.after (k + 1)).line) ∧
        (s.after (j + 1)).state = .exit ∧ (s.after (j + 1)).line = (s.after (k + 1)).line) ∧
      (lineEnds = true → a.input =
        { answers := (List.range k).map fun i => (s.after i).read.answer
          endLine := (s.after (k + 1)).line })) ∧
    (∀ k, ∃ taken, (a.calls k).input.answers = taken ++ (a.calls (k + 1)).input.answers ∧
      taken.length ≤ bytes.length ∧ ((a.calls k).assemble.1 ≠ .ok () → taken ≠ [])) ∧
    (∃ k ≤ bytes.length, (a.calls k).assemble.1 = .ok ()) ∧
    ∀ k, (a.calls k).assemble.1 = .ok () → ∀ j ≥ k,
      (a.calls j).assemble.1 = .ok () ∧ a.calls (j + 1) = a.calls (k + 1) := by
  intro s a
  have hlength : a.input.answers.length ≤ bytes.length := length_answers_ofBytes path bytes
  refine ⟨?_, ?_, ?_, ?_, ?_⟩
  · intro k hend
    exact Scanner.exists_taken (Scanner.resting_after rfl k) hend
  · obtain ⟨k, hk, hlast, hbefore⟩ := Scanner.exists_first_end (s := s) rfl
    have hbytes : s.source.pending.length = bytes.length := by simp [s]
    refine ⟨k, hbytes ▸ hk, hbefore, ?_, ?_⟩
    · intro j hj
      exact Scanner.read_of_end rfl hlast hj
    · rintro rfl
      exact TokenStream.ofScanner_of_end rfl hlast hbefore
  · intro k
    obtain ⟨taken, hanswers, hne⟩ := exists_taken_assemble (a.calls k)
    have htaken : taken.length ≤ (a.calls k).input.answers.length := by
      rw [hanswers, List.length_append]
      exact Nat.le_add_right _ _
    exact ⟨taken, hanswers, (htaken.trans (length_answers_calls_le a k)).trans hlength, hne⟩
  · obtain ⟨k, hk, hok⟩ := exists_call_ok a
    exact ⟨k, hk.trans hlength, hok⟩
  · intro k hok j hj
    exact calls_of_ok hok hj

end Assembly

end AsmLinker
