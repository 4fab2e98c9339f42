import Mathlib
import AsmLinker.Proofs.Token.Rendering
import AsmLinker.Proofs.Unit.Progress

/-!
# Transcripts

The transcript of a scanner is what it answers request by request, up to and with the first error
that is not an unknown character, or else the end of the file. It is the first answer and then, if
work goes on behind it, the transcript of the scanner behind that (`Scanner.transcript_eq`).

A source in which nothing is refused has the transcript that the stream of its tokens says, with the
end of the file behind it (`Scanner.transcript_of_fine`, `Scanner.ofScanner_of_transcript`).
-/

namespace AsmLinker

namespace TokenStream

variable {answer : Except Error Token} {answers rest : List (Except Error Token)}

/-- The answers up to and with the first that is refused. -/
def untilRefused : List (Except Error Token) → List (Except Error Token)
  | [] => []
  | answer :: rest => if refused answer then [answer] else answer :: untilRefused rest

theorem untilRefused_cons (h : refused answer = false) :
    untilRefused (answer :: rest) = answer :: untilRefused rest := by
  rw [untilRefused, h, if_neg Bool.false_ne_true]

/-- Where nothing is refused, nothing is left out. -/
theorem untilRefused_of_fine (h : Fine answers) : untilRefused answers = answers := by
  induction answers with
  | nil => rfl
  | cons answer rest ih =>
    obtain ⟨hfirst, hrest⟩ := List.forall_mem_cons.mp h
    rw [untilRefused_cons hfirst, ih hrest]

/-- Something is left out only behind an answer that is refused. -/
theorem untilRefused_eq_self (h : Fine (untilRefused answers)) :
    untilRefused answers = answers := by
  induction answers with
  | nil => rfl
  | cons answer rest ih =>
    rw [untilRefused] at h ⊢
    split at h
    next hrefused =>
      rw [h answer List.mem_cons_self] at hrefused
      cases hrefused
    next hfirst => rw [if_neg hfirst, ih fun other hmem => h other (List.mem_cons_of_mem _ hmem)]

end TokenStream

namespace Scanner

open TokenStream

variable {s : Scanner} {token : Token} {e : Error} {answers : List (Except Error Token)} {n : Nat}

/-- What a scanner answers up to and with the first error that is not an unknown character, or else
the end of the file. -/
def transcript (s : Scanner) : List (Except Error Token) :=
  untilRefused (s.readings.map Reading.answer)

/-- The transcript from the first answer on. -/
def transcriptBehind (first : Except Error Token × Scanner) : List (Except Error Token) :=
  untilRefused (replies first)

/-- The transcript of a scanner is its first answer and what follows behind that. -/
theorem transcript_eq (hs : s.mode.resting = true) : s.transcript = transcriptBehind s.scan := by
  rw [transcript, answer_readings hs, transcriptBehind]

theorem transcriptBehind_ok (h : token.endsLine = false ∨ token.lexeme = .endOfLine) :
    transcriptBehind (.ok token, s) = .ok token :: s.transcript := by
  rw [transcriptBehind, replies, isEnd_eq_false h, if_neg Bool.false_ne_true]
  exact untilRefused_cons rfl

theorem transcriptBehind_unknown (h : e.isFatal = false) :
    transcriptBehind (.error e, s) = .error e :: s.transcript :=
  untilRefused_cons h

theorem transcriptBehind_fatal (h : e.isFatal = true) :
    transcriptBehind (.error e, s) = [.error e] :=
  if_pos h

/-- The transcript begins with the first answer. -/
theorem head?_transcriptBehind (first : Except Error Token × Scanner) :
    (transcriptBehind first).head? = some first.1 := by
  rw [transcriptBehind, replies]
  split <;> rw [untilRefused] <;> split <;> rfl

/-! ## Streams of tokens -/

/-- All answers are those of the stream, and then the end of the file. -/
theorem map_answer_readings (hs : s.mode.resting = true) : s.readings.map Reading.answer =
    (ofScanner s).answers ++ [.ok (.endOfFile (ofScanner s).endLine)] := by
  induction hn : s.source.pending.length using Nat.strong_induction_on generalizing s with
  | _ n ih =>
    rw [answer_readings hs, ofScanner_eq hs]
    change (if s.read.isEnd then [s.read.answer]
      else s.read.answer :: s.read.scanner.readings.map Reading.answer) = _
    cases hend : s.read.isEnd with
    | true => simp [(ended_read hs hend).2]
    | false =>
      have hlt := length_scan_lt hs hend
      simp [ih _ (hn ▸ hlt) (resting_read hs) rfl]

/-- If nothing is refused, the transcript is the stream with the end of the file behind it. -/
theorem transcript_of_fine (hs : s.mode.resting = true) (hfine : Fine s.answers) :
    s.transcript = s.answers ++ [.ok (.endOfFile (ofScanner s).endLine)] := by
  rw [transcript, map_answer_readings hs, untilRefused_of_fine]
  · rfl
  · exact fine_append.mpr ⟨hfine, by simp [Fine, refused]⟩

/-- The stream can be read off a transcript in which nothing is refused. -/
theorem ofScanner_of_transcript (hs : s.mode.resting = true)
    (h : s.transcript = answers ++ [.ok (.endOfFile n)]) (hfine : Fine answers) :
    ofScanner s = { answers, endLine := n } := by
  have hall : Fine s.transcript := by
    rw [h]
    exact fine_append.mpr ⟨hfine, by simp [Fine, refused]⟩
  have hsame := untilRefused_eq_self hall
  rw [← transcript, h, map_answer_readings hs] at hsame
  obtain ⟨hanswers, hlast⟩ := List.append_inj' hsame rfl
  obtain rfl : n = (ofScanner s).endLine := by simpa [Token.endOfFile] using hlast
  rw [hanswers]

end Scanner

end AsmLinker
