import Mathlib
import AsmLinker.Proofs.Token.Scanning

/-!
# Lines

Every token and every error carries the line on which its lexeme begins, which is one more than the
number of line terminators before it (`Dissection.transcript_lines`). The scanner counts lines as it
comes to their ends, and a dissection counts the parts that end them; both agree with the number of
terminators in the bytes because a line feed behind a carriage return is never a part of its own
(`Dissection.lineBreaks_render`).

What the ends of lines are answered for can be seen from the answers alone. `Counted` says what
holds of them wherever the counting stands: it holds at the start, and every part keeps it.
-/

namespace AsmLinker

open Rendering

namespace Dissection

variable {parts first second : List Part} {tail : List UInt8} {c : Cursor}
  {answers : List (Except Error Token)}

/-! ## Terminators -/

theorem StopsAt.of_append {P : UInt8 → Prop} {bytes : List UInt8} (h : StopsAt P (bytes ++ tail)) :
    StopsAt P bytes := by
  cases bytes with
  | nil => exact stopsAt_nil P
  | cons b rest => exact stopsAt_cons.mpr (stopsAt_cons.mp h)

/-- Where a part ends depends only on the first byte behind it. -/
theorem Part.Ends.imp {part : Part} {bytes bytes' : List UInt8} (h : part.Ends bytes)
    (himp : ∀ P, StopsAt P bytes → StopsAt P bytes') : part.Ends bytes' := by
  cases part with
  | item => exact h.imp_right (himp _)
  | comment | malformed => exact himp _ h
  | lineEnd t =>
    cases t with
    | carriageReturn => exact himp _ h
    | lineFeed | both => trivial
  | blank | comma | unknown => trivial

/-- What ends before bytes ends before each beginning of them. -/
theorem Part.Ends.of_append {part : Part} {bytes : List UInt8} (h : part.Ends (bytes ++ tail)) :
    part.Ends bytes :=
  h.imp fun _ => StopsAt.of_append

/-- Parts in front of others are joined as they stand. -/
theorem Joined.left (h : Joined (first ++ second) tail) : Joined first [] := by
  induction first with
  | nil => trivial
  | cons part rest ih =>
    obtain ⟨hends, hrest⟩ := h
    refine ⟨?_, ih hrest⟩
    rw [List.append_eq, render_append, List.append_assoc] at hends
    rw [List.append_nil]
    exact hends.of_append

theorem Start.unbroken (start : Start) : Unbroken start.bytes := by
  cases start with
  | word name => exact fun b hb => not_isLineEnd_of_isWordByte (name.isWordByte b hb)
  | digits bytes hne hbytes =>
    exact fun b hb => not_isLineEnd_of_isWordByte (.inr (class_of_isDigit b (hbytes b hb)))
  | directive bytes hbytes =>
    refine List.forall_mem_cons.mpr ⟨by decide, fun b hb => ?_⟩
    exact not_isLineEnd_of_isWordByte (isWordByte_of_isNameByte b (hbytes b hb))

/-- Only a line end holds one. -/
theorem Part.unbroken {part : Part} (h : part.isLineEnd = false) : Unbroken part.bytes := by
  cases part with
  | lineEnd => cases h
  | blank b hb => exact List.forall_mem_singleton.mpr (not_isLineEnd_of_isBlank hb)
  | comma => exact List.forall_mem_singleton.mpr (by decide)
  | comment body hbody => exact List.forall_mem_cons.mpr ⟨by decide, hbody⟩
  | item i => exact i.unbroken
  | unknown b hunknown =>
    refine List.forall_mem_singleton.mpr (not_isLineEnd fun hclass => ?_)
    rw [hclass] at hunknown
    cases hunknown
  | malformed start b rest hunknown hrest =>
    -- a line end would have completed the lexeme
    have hb : ¬ IsLineEnd b := by
      refine not_isLineEnd fun hclass => ?_
      rw [hclass] at hunknown
      cases start <;> cases hunknown
    refine List.forall_mem_append.mpr ⟨start.unbroken, List.forall_mem_cons.mpr ⟨hb, ?_⟩⟩
    exact fun b hb hline => hrest b hb (.inl (.inr (.inr (.inl hline))))

/-- The terminators of joined parts are the parts that end lines. -/
theorem lineBreaks_render (h : Joined parts []) :
    lineBreaks (render parts) = parts.countP Part.isLineEnd := by
  induction parts with
  | nil => rfl
  | cons part rest ih =>
    obtain ⟨hends, hrest⟩ := h
    rw [render_cons, List.countP_cons, ← ih hrest]
    cases part with
    | lineEnd t =>
      rw [Part.isLineEnd, if_pos rfl, Nat.add_comm]
      cases t with
      | lineFeed => rfl
      | both =>
        -- the carriage return leaves the counting to its line feed
        exact Nat.zero_add (1 + lineBreaks (render rest))
      | carriageReturn =>
        -- what follows is no line feed, so that the carriage return counts
        have hcounted : (render rest).head? ≠ some 0x0A := fun hfeed =>
          Part.Ends.of_append hends _ hfeed rfl
        exact congrArg (· + lineBreaks (render rest)) (if_pos (.inr ⟨rfl, hcounted⟩))
    | blank | comma | comment | item | unknown | malformed =>
      exact lineBreaks_unbroken (Part.unbroken rfl) _

/-! ## Lexemes in their places -/

/-- Whether something is answered to a part wherever it stands. -/
def Part.isLexeme : Part → Bool
  | .item _ | .unknown .. | .malformed .. => true
  | .blank .. | .comma | .lineEnd _ | .comment .. => false

/-- A lexeme in its place. -/
structure Spot where
  /-- The bytes before its first byte. -/
  before : List UInt8
  /-- The lexeme. -/
  part : Part

/-- The lexemes among parts in their places, behind what stands before the parts. -/
def spots (before : List UInt8) : List Part → List Spot
  | [] => []
  | part :: rest =>
    (if part.isLexeme then [⟨before, part⟩] else []) ++ spots (before ++ part.bytes) rest

/-- The answer is that to a lexeme in its place: a token that is read as it should be, or an unknown
character. It carries the line that the terminators before the lexeme make. -/
inductive Spot.Gives : Spot → Except Error Token → Prop
  | item {before : List UInt8} {i : Item} {token : Token} (hreadAs : i.ReadAs token.lexeme)
      (hline : token.line = 1 + lineBreaks before) : Gives ⟨before, .item i⟩ (.ok token)
  | unknown {before : List UInt8} {b : UInt8} {h : action .initial (CharClass.of b) = .unknown} :
      Gives ⟨before, .unknown b h⟩ (.error (.lexical (1 + lineBreaks before) (Char.ofUInt8 b)))
  | malformed {before : List UInt8} {start : Start} {b : UInt8} {rest : List UInt8}
      {h : action start.mode.state (CharClass.of b) = .unknown}
      {hrest : ∀ c ∈ rest, ¬ IsBoundary c} :
      Gives ⟨before, .malformed start b rest h hrest⟩
        (.error (.lexical (1 + lineBreaks before) (Char.ofUInt8 b)))

/-- Without the ends of lines there is one answer for each lexeme. -/
theorem forall₂_gives (comma isOpen : Bool) (hjoined : Joined (first ++ parts) tail) :
    List.Forall₂ Spot.Gives (spots (render first) parts)
      (partAnswers ⟨false, 1 + lineBreaks (render first), isOpen⟩ comma parts) := by
  induction parts generalizing first isOpen with
  | nil => exact .nil
  | cons part rest ih =>
    rw [List.append_cons] at hjoined
    -- the terminators before the next part, counted as parts
    have hline : 1 + lineBreaks (render (first ++ [part])) =
        1 + lineBreaks (render first) + if part.isLineEnd then 1 else 0 := by
      rw [lineBreaks_render hjoined.left, lineBreaks_render hjoined.left.left, List.countP_append,
        List.countP_singleton, Nat.add_assoc]
    have hbehind := fun isOpen => ih isOpen hjoined
    rw [hline, render_append, render_cons, render_nil, List.append_nil] at hbehind
    rw [spots, partAnswers]
    cases part with
    | blank | comma | comment => exact hbehind isOpen
    | lineEnd => exact hbehind false
    | item i => exact .cons (.item (readAs_lexeme i) rfl) (hbehind true)
    | unknown => exact .cons .unknown (hbehind isOpen)
    | malformed => exact .cons .malformed (hbehind isOpen)

/-! ## The ends of lines -/

/-- Whether the answer is the end of this line. -/
def endsLineAt (n : Nat) : Except Error Token → Bool
  | .ok token => decide (token.lexeme = .endOfLine ∧ token.line = n)
  | .error _ => false

/-- Whether the answer is a token on this line other than its end. -/
def standsOn (n : Nat) : Except Error Token → Bool
  | .ok token => decide (token.lexeme ≠ .endOfLine ∧ token.line = n)
  | .error _ => false

/-- Of two tokens, the second stands on the same line or a later one, and on a later one if the
first is the end of its line. -/
def InOrder (a b : Except Error Token) : Prop :=
  ∀ x y, a = .ok x → b = .ok y →
    x.line ≤ y.line ∧ (x.lexeme = .endOfLine → x.line < y.line)

/-- What holds of the answers up to where the counting of lines stands. -/
structure Counted (c : Cursor) (answers : List (Except Error Token)) : Prop where
  /-- No token stands on a later line, and only lines that are over have been ended. -/
  bound : ∀ token, Except.ok token ∈ answers → token.lexeme ≠ .endOfFile ∧ token.line ≤ c.line ∧
    (token.lexeme = .endOfLine → token.line < c.line)
  /-- The line is open if a token stands on it. -/
  isOpen : answers.any (standsOn c.line) = c.isOpen
  /-- Every line that is over and has tokens was ended once, and no other line was. -/
  ends : ∀ n, answers.countP (endsLineAt n) =
    if c.lineEnds = true ∧ n < c.line ∧ answers.any (standsOn n) = true then 1 else 0
  /-- The tokens come in the order of their lines. -/
  order : answers.Pairwise InOrder

namespace Counted

theorem start (lineEnds : Bool) : Counted ⟨lineEnds, 1, false⟩ [] where
  bound := by simp
  isOpen := rfl
  ends := by simp
  order := .nil

/-- An unknown character counts for nothing. -/
theorem error (h : Counted c answers) (e : Error) : Counted c (answers ++ [.error e]) where
  bound token hmem := h.bound token (by simpa using hmem)
  isOpen := by simpa [standsOn] using h.isOpen
  ends n := by simpa [standsOn, endsLineAt] using h.ends n
  order := by
    refine List.pairwise_append.mpr ⟨h.order, List.pairwise_singleton .., ?_⟩
    rintro a - b hb x y - hy
    rw [List.mem_singleton.mp hb] at hy
    cases hy

/-- Any answer that stands on the line or ends it comes behind the others. -/
theorem order_concat (h : Counted c answers) (token : Token) (hline : token.line = c.line) :
    List.Pairwise InOrder (answers ++ [.ok token]) := by
  refine List.pairwise_append.mpr ⟨h.order, List.pairwise_singleton .., ?_⟩
  rintro a ha b hb x y rfl rfl
  obtain rfl : y = token := by simpa using hb
  rw [hline]
  exact (h.bound x ha).2

/-- A token opens its line. -/
theorem token (h : Counted c answers) {token : Token} (hends : token.endsLine = false)
    (hline : token.line = c.line) :
    Counted { c with isOpen := true } (answers ++ [.ok token]) := by
  obtain ⟨hlast, hfile⟩ : token.lexeme ≠ .endOfLine ∧ token.lexeme ≠ .endOfFile := by
    constructor <;> intro hlexeme <;> simp [Token.endsLine, hlexeme] at hends
  refine ⟨?_, ?_, ?_, h.order_concat token hline⟩
  · intro other hmem
    rcases List.mem_append.mp hmem with hmem | hmem
    · exact h.bound other hmem
    · obtain rfl : other = token := by simpa using hmem
      exact ⟨hfile, hline.le, fun hlexeme => absurd hlexeme hlast⟩
  · simp [standsOn, hlast, hline]
  · intro n
    -- the token stands on a line that is not over
    have hcount := h.ends n
    by_cases hn : n = c.line
    · simpa [endsLineAt, hlast, hn] using hcount
    · have hother : ¬ token.line = n := by rw [hline]; exact fun hsame => hn hsame.symm
      simpa [endsLineAt, standsOn, hlast, hother] using hcount

/-- No token stands on the next line. -/
theorem any_next (h : Counted c answers) : answers.any (standsOn (c.line + 1)) = false := by
  rw [List.any_eq_false]
  rintro (e | token) hmem hstands
  · cases hstands
  · obtain ⟨-, hline⟩ := of_decide_eq_true hstands
    have hle := (h.bound token hmem).2.1
    omega

/-- What has been answered also lies before the end of the next line. -/
theorem bound_next (h : Counted c answers) {token : Token} (hmem : .ok token ∈ answers) :
    token.lexeme ≠ .endOfFile ∧ token.line ≤ c.line + 1 ∧
      (token.lexeme = .endOfLine → token.line < c.line + 1) := by
  obtain ⟨hfile, hle, -⟩ := h.bound token hmem
  exact ⟨hfile, Nat.le_succ_of_le hle, fun _ => Nat.lt_succ_of_le hle⟩

/-- A line that is not to be answered ends without an answer. -/
theorem silent (h : Counted c answers) (hsilent : (c.lineEnds && c.isOpen) = false) :
    Counted { c with line := c.line + 1, isOpen := false } answers := by
  refine ⟨fun _ => h.bound_next, h.any_next, fun n => ?_, h.order⟩
  rw [h.ends n]
  refine if_congr (and_congr_right fun hends => ?_) rfl rfl
  -- the line itself has no tokens
  constructor
  · exact fun ⟨hlt, hany⟩ => ⟨Nat.lt_succ_of_lt hlt, hany⟩
  · rintro ⟨hle, hany⟩
    refine ⟨lt_of_le_of_ne (Nat.le_of_lt_succ hle) ?_, hany⟩
    rintro rfl
    rw [h.isOpen] at hany
    rw [hends, hany] at hsilent
    cases hsilent

/-- An open line is ended by one answer. -/
theorem lineEnd (h : Counted c answers) (hopen : (c.lineEnds && c.isOpen) = true) :
    Counted { c with line := c.line + 1, isOpen := false }
      (answers ++ [.ok { lexeme := .endOfLine, line := c.line }]) := by
  obtain ⟨hlineEnds, hisOpen⟩ := Bool.and_eq_true_iff.mp hopen
  refine ⟨?_, ?_, ?_, h.order_concat ⟨.endOfLine, false, c.line⟩ rfl⟩
  · intro token hmem
    rcases List.mem_append.mp hmem with hmem | hmem
    · exact h.bound_next hmem
    · obtain rfl : token = { lexeme := .endOfLine, line := c.line } := by simpa using hmem
      exact ⟨by simp, Nat.le_succ _, fun _ => Nat.lt_succ_self _⟩
  · rw [List.any_append, h.any_next]
    rfl
  · intro n
    have hcount := h.ends n
    by_cases hn : n = c.line
    · -- the line has not been ended before, and it has tokens
      subst hn
      rw [if_neg (by simp)] at hcount
      simp [hcount, endsLineAt, hlineEnds, h.isOpen, hisOpen]
    · have hlt : n < c.line + 1 ↔ n < c.line := by omega
      simpa [endsLineAt, standsOn, hlt, show ¬ c.line = n from fun hsame => hn hsame.symm]
        using hcount

/-- Every part keeps the count. -/
theorem past (h : Counted c answers) (comma : Bool) (part : Part) :
    Counted (c.past part) (answers ++ part.answers c comma) := by
  cases part with
  | blank | comma | comment =>
    rw [Part.answers, List.append_nil]
    exact h
  | item i => exact h.token ((readAs_lexeme i).endsLine_eq comma c.line) rfl
  | unknown | malformed => exact h.error _
  | lineEnd t =>
    rw [Part.answers]
    cases hopen : c.lineEnds && c.isOpen with
    | true => exact h.lineEnd hopen
    | false =>
      rw [if_neg Bool.false_ne_true, List.append_nil]
      exact h.silent hopen

/-- So do all parts together. -/
theorem pastAll (h : Counted c answers) (comma : Bool) (parts : List Part) :
    Counted (c.pastAll parts) (answers ++ partAnswers c comma parts) := by
  induction parts generalizing c answers with
  | nil =>
    rw [partAnswers, List.append_nil]
    exact h
  | cons part rest ih =>
    rw [partAnswers, ← List.append_assoc]
    exact ih (h.past _ part)

end Counted

theorem lineEnds_pastAll (c : Cursor) (parts : List Part) :
    (c.pastAll parts).lineEnds = c.lineEnds := by
  induction parts generalizing c with
  | nil => rfl
  | cons part rest ih => cases part <;> exact ih _

theorem filter_partAnswers_self (comma : Bool) (parts : List Part) (line : Nat) (isOpen : Bool) :
    (partAnswers ⟨false, line, isOpen⟩ comma parts).filter (fun answer => !answersLineEnd answer) =
      partAnswers ⟨false, line, isOpen⟩ comma parts := by
  rw [← filter_partAnswers, List.filter_filter]
  simp

/-- The lines of a source, whether their ends are answered or not, up to the end of the file or the
first refusal.
* Apart from the ends of lines, the answers are those to the lexemes in their order. Each of them,
  and the last answer, carries one more than the number of terminators before the first byte of its
  lexeme. The end of the file carries one more than the number of all terminators.
* If the ends of lines are answered, a line has exactly one answer of this kind if it is terminated
  and a token stands on it, and otherwise none. If not, there are none at all.
* Tokens come in the order of their lines, and behind the end of a line only later lines follow. -/
theorem transcript_lines (bytes : List UInt8) (origin : String) (lineEnds : Bool) :
    let s : Scanner := { source := .ofBytes bytes, origin, lineEnds }
    ∃ (d : Dissection) (answers : List (Except Error Token)), d.bytes = bytes ∧
      s.transcript = answers ++ [d.ending.answer (1 + lineBreaks (render d.parts))] ∧
      List.Forall₂ Spot.Gives (spots [] d.parts)
        (answers.filter fun answer => !answersLineEnd answer) ∧
      (∀ n, .ok (.endOfFile n) ∈ s.transcript → n = 1 + lineBreaks bytes) ∧
      (∀ n, answers.countP (endsLineAt n) =
        if lineEnds = true ∧ n ≤ lineBreaks (render d.parts) ∧ answers.any (standsOn n) = true
        then 1 else 0) ∧
      answers.Pairwise InOrder := by
  intro s
  obtain ⟨d, rfl⟩ := exists_dissection bytes
  let c : Cursor := ⟨lineEnds, 1, false⟩
  have hjoined : Joined ([] ++ d.parts) d.ending.bytes := d.joined
  have hbreaks : lineBreaks (render d.parts) = d.parts.countP Part.isLineEnd :=
    lineBreaks_render (Joined.left (by rw [List.append_nil]; exact d.joined))
  have hline : (c.pastAll d.parts).line = 1 + lineBreaks (render d.parts) := by
    rw [line_pastAll, hbreaks]
  have htranscript : s.transcript =
      partAnswers c false d.parts ++ [d.ending.answer (1 + lineBreaks (render d.parts))] := by
    rw [← hline]
    exact transcript_eq_answers d ⟨rfl, rfl, rfl⟩ rfl (Source.pending_ofBytes _)
  have hcounted := (Counted.start lineEnds).pastAll false d.parts
  rw [List.nil_append] at hcounted
  refine ⟨d, partAnswers c false d.parts, rfl, htranscript, ?_, ?_, ?_, hcounted.order⟩
  · -- without the ends of lines it does not matter whether they are answered
    have hfilter : (partAnswers c false d.parts).filter (fun answer => !answersLineEnd answer) =
        partAnswers ⟨false, 1, false⟩ false d.parts := by
      cases lineEnds with
      | true => exact filter_partAnswers false d.parts 1 false
      | false => exact filter_partAnswers_self false d.parts 1 false
    rw [hfilter]
    exact forall₂_gives false false hjoined
  · intro n hmem
    rw [htranscript] at hmem
    rcases List.mem_append.mp hmem with hmem | hmem
    · exact absurd rfl (hcounted.bound _ hmem).1
    · -- the end of the file is answered only where everything has been cut into parts
      obtain ⟨parts, ending, joined⟩ := d
      cases ending with
      | file =>
        have hsame : n = 1 + lineBreaks (render parts) := by
          simpa [Ending.answer, Token.endOfFile] using hmem
        rw [hsame, Dissection.bytes, Ending.bytes, List.append_nil]
      | numeral | period | literal => simp [Ending.answer] at hmem
  · intro n
    have hends := hcounted.ends n
    rw [hline, Nat.add_comm 1] at hends
    have hlineEnds : (c.pastAll d.parts).lineEnds = lineEnds := lineEnds_pastAll c d.parts
    rw [hlineEnds] at hends
    simpa only [Nat.lt_succ_iff] using hends

end Dissection

end AsmLinker
