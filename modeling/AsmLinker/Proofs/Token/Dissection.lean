import Mathlib
import AsmLinker.Proofs.Token.Literals

/-!
# Dissections

Every source can be cut into parts, whatever its bytes are (`Dissection.exists_dissection`): items,
blanks, commas, line ends, comments, unknown characters and malformed lexemes stand one behind the
other, up to the end of the file or up to the first lexeme that is refused.

A dissection is said without the scanner, and so is what a scanner has to answer to it
(`Dissection.answers`). Two things are needed for that besides the parts themselves: whether a comma
comes first behind an item (`Dissection.commaFirst`), and how far the lines have been counted
(`Dissection.Cursor`).
-/

namespace AsmLinker

open Rendering

namespace Dissection

/-! ## Where lexemes end -/

/-- A blank, a comma, a line end or a hash: what ends a word, a directive or a numeral. -/
def IsCut (b : UInt8) : Prop :=
  IsBlank b ∨ b = 0x2C ∨ IsLineEnd b ∨ b = 0x23

/-- What ends a malformed lexeme: a quote does so, too. -/
def IsBoundary (b : UInt8) : Prop :=
  IsCut b ∨ b = 0x22

instance : DecidablePred IsCut := fun _ => inferInstanceAs (Decidable (_ ∨ _))

instance : DecidablePred IsBoundary := fun _ => inferInstanceAs (Decidable (_ ∨ _))

/-- Nothing is left, or a byte of this kind comes first. -/
def StopsAt (P : UInt8 → Prop) (after : List UInt8) : Prop :=
  ∀ b ∈ after.head?, P b

theorem stopsAt_nil (P : UInt8 → Prop) : StopsAt P [] := by
  rintro _ ⟨⟩

theorem stopsAt_cons {P : UInt8 → Prop} {b : UInt8} {rest : List UInt8} :
    StopsAt P (b :: rest) ↔ P b := by
  simp [StopsAt]

/-- What a byte is, by its class. -/
theorem byte_of_class : ∀ b, (IsLetter b → IsNameStart b) ∧ (IsWordByte b → IsNameByte b) ∧
    (CharClass.of b = .digit → IsDigit b) ∧ (CharClass.of b = .whitespace → IsBlank b) ∧
    (CharClass.of b = .comma → b = 0x2C) ∧ (CharClass.of b = .period → b = 0x2E) ∧
    (CharClass.of b = .doubleQuote → b = 0x22) ∧ (CharClass.of b = .hash → b = 0x23) ∧
    (CharClass.of b = .colon → b = 0x3A) := by
  unfold IsLetter IsWordByte IsLetter
  apply forall_byte
  decide +kernel

/-- The classes of the bytes that end a lexeme. -/
theorem isCut_iff (b : UInt8) : IsCut b ↔ CharClass.of b = .whitespace ∨ CharClass.of b = .comma ∨
    CharClass.of b = .newLine ∨ CharClass.of b = .hash := by
  obtain ⟨-, -, -, hblank, hcomma, -, -, hhash, -⟩ := byte_of_class b
  constructor
  · rintro (h | rfl | h | rfl)
    · exact .inl (class_of_isBlank h)
    · exact .inr (.inl (by decide))
    · exact .inr (.inr (.inl ((class_eq_newLine_iff b).mpr h)))
    · exact .inr (.inr (.inr (by decide)))
  · exact Or.imp hblank (Or.imp hcomma (Or.imp (class_eq_newLine_iff b).mp hhash))

/-- Bytes of one kind at the front, and what stops them. -/
theorem exists_run (P : UInt8 → Prop) [DecidablePred P] (bytes : List UInt8) :
    ∃ run after, bytes = run ++ after ∧ (∀ b ∈ run, P b) ∧ StopsAt (fun b => ¬ P b) after := by
  induction bytes with
  | nil => exact ⟨[], [], rfl, by simp, stopsAt_nil _⟩
  | cons b rest ih =>
    by_cases hb : P b
    · obtain ⟨run, after, rfl, hrun, hafter⟩ := ih
      exact ⟨b :: run, after, rfl, List.forall_mem_cons.mpr ⟨hb, hrun⟩, hafter⟩
    · exact ⟨[], b :: rest, rfl, by simp, stopsAt_cons.mpr hb⟩

/-! ## Parts -/

/-- A lexeme that has been begun: a word, digits, or a period with letters, digits and underscores
behind it, possibly none. -/
inductive Start where
  | word (name : Name)
  | digits (bytes : List UInt8) (hne : bytes ≠ []) (hbytes : ∀ b ∈ bytes, IsDigit b)
  | directive (bytes : List UInt8) (hbytes : ∀ b ∈ bytes, IsNameByte b)

/-- How the beginning of a lexeme is written. -/
def Start.bytes : Start → List UInt8
  | .word name => name.bytes
  | .digits bytes _ _ => bytes
  | .directive bytes _ => 0x2E :: bytes

/-- The bytes that go on with it. -/
def Start.GoesOn : Start → UInt8 → Prop
  | .word _ => IsNameByte
  | .digits .. => IsDigit
  | .directive .. => IsNameByte

/-- The mode of the automaton behind it. -/
def Start.mode : Start → Mode
  | .word name => .identifier name.text
  | .digits bytes _ _ => .digits (spelling bytes)
  | .directive bytes _ => .directive (spelling bytes)

/-- The ends of a line. -/
inductive Terminator where
  | lineFeed
  | carriageReturn
  /-- A carriage return and the line feed that belongs to it. -/
  | both

def Terminator.bytes : Terminator → List UInt8
  | .lineFeed => [0x0A]
  | .carriageReturn => [0x0D]
  | .both => [0x0D, 0x0A]

/-- What stands in a source. -/
inductive Part where
  | blank (b : UInt8) (h : IsBlank b)
  | comma
  | lineEnd (t : Terminator)
  /-- A hash and anything behind it on its line. -/
  | comment (body : List UInt8) (h : Unbroken body)
  | item (item : Item)
  /-- A character that begins no lexeme. -/
  | unknown (b : UInt8) (h : action .initial (CharClass.of b) = .unknown)
  /-- A lexeme with a character in it that it cannot hold, and the rest of it. -/
  | malformed (start : Start) (b : UInt8) (rest : List UInt8)
      (h : action start.mode.state (CharClass.of b) = .unknown)
      (hrest : ∀ c ∈ rest, ¬ IsBoundary c)

/-- How a part is written. -/
def Part.bytes : Part → List UInt8
  | .blank b _ => [b]
  | .comma => [0x2C]
  | .lineEnd t => t.bytes
  | .comment body _ => 0x23 :: body
  | .item i => i.bytes
  | .unknown b _ => [b]
  | .malformed start b rest _ _ => start.bytes ++ b :: rest

/-- Whether the last byte of an item shows that it is over. -/
def isClosed : Item → Bool
  | .label _ | .literal .. => true
  | .word _ | .directive .. | .digits .. => false

/-- The part ends before these bytes: they do not belong to it. -/
def Part.Ends : Part → List UInt8 → Prop
  | .item i, after => isClosed i = true ∨ StopsAt IsCut after
  | .comment .., after => StopsAt IsLineEnd after
  | .lineEnd .carriageReturn, after => StopsAt (· ≠ 0x0A) after
  | .malformed .., after => StopsAt IsBoundary after
  | _, _ => True

/-- How parts are written one behind the other. -/
def render (parts : List Part) : List UInt8 :=
  parts.flatMap Part.bytes

@[simp] theorem render_nil : render [] = [] := rfl

@[simp] theorem render_cons (part : Part) (rest : List Part) :
    render (part :: rest) = part.bytes ++ render rest := rfl

@[simp] theorem render_append (first second : List Part) :
    render (first ++ second) = render first ++ render second :=
  List.flatMap_append

/-- Every part ends before the next one, and the last one before the tail. -/
def Joined : List Part → List UInt8 → Prop
  | [], _ => True
  | part :: rest, tail => part.Ends (render rest ++ tail) ∧ Joined rest tail

/-- Where the dissection of a source ends. -/
inductive Ending where
  /-- At the end of the file. -/
  | file
  /-- At a numeral that does not fit into a word. -/
  | numeral (digits : List UInt8) (hne : digits ≠ []) (hdigits : ∀ b ∈ digits, IsDigit b)
      (hvalue : 2 ^ 64 ≤ decimal digits) (after : List UInt8) (hafter : StopsAt IsCut after)
  /-- At a period without a name. -/
  | period (after : List UInt8) (hafter : StopsAt IsCut after)
  /-- At the opening quote of a literal that cannot be read. -/
  | literal (body : List UInt8) (fault : SourceFault) (rest : List Signal)
      (hread : Literal.read (body.map .byte) = (.error (.malformed fault), rest))

/-- The bytes from the refused lexeme on. -/
def Ending.bytes : Ending → List UInt8
  | .file => []
  | .numeral digits _ _ _ after _ => digits ++ after
  | .period after _ => 0x2E :: after
  | .literal body _ _ _ => 0x22 :: body

/-- The last answer. -/
def Ending.answer (line : Nat) : Ending → Except Error Token
  | .file => .ok (.endOfFile line)
  | .numeral digits _ _ _ _ _ => .error (.source line (.numberTooLarge (spelling digits)))
  | .period _ _ => .error (.source line .sectionNameMissing)
  | .literal _ fault _ _ => .error (.source line fault)

end Dissection

open Dissection in
/-- How a source is laid out. -/
structure Dissection where
  /-- The parts up to where it ends. -/
  parts : List Part
  /-- Where it ends. -/
  ending : Ending
  /-- The parts are those that a reader from the front would find. -/
  joined : Joined parts ending.bytes

namespace Dissection

/-- The bytes of the source. -/
def bytes (d : Dissection) : List UInt8 :=
  render d.parts ++ d.ending.bytes

/-! ## What is to be answered -/

/-- How far the lines of a source have been counted. -/
structure Cursor where
  /-- Whether the ends of lines are answered. -/
  lineEnds : Bool
  /-- The line. -/
  line : Nat
  /-- Whether a token stands on it. -/
  isOpen : Bool

/-- The lines counted over a part. -/
def Cursor.past (c : Cursor) : Part → Cursor
  | .item _ => { c with isOpen := true }
  | .lineEnd _ => { c with line := c.line + 1, isOpen := false }
  | _ => c

/-- The lines counted over several parts. -/
def Cursor.pastAll (c : Cursor) (parts : List Part) : Cursor :=
  parts.foldl Cursor.past c

/-- What an item is read as. -/
def lexeme : Item → Lexeme
  | .word name => .ofWord name.text
  | .label name => .label name.text
  | .directive bytes _ _ => .directive (spelling bytes)
  | .digits bytes _ _ _ => .digits (spelling bytes) (UInt64.ofNat (decimal bytes))
  | .literal _ text _ => .ascii text

/-- Whether a comma comes first in the parts, blanks aside, or else behind them. -/
def commaFirst (comma : Bool) : List Part → Bool
  | [] => comma
  | .comma :: _ => true
  | .blank _ _ :: rest => commaFirst comma rest
  | _ => false

/-- What is answered to a part. -/
def Part.answers (c : Cursor) (comma : Bool) : Part → List (Except Error Token)
  | .item i => [.ok { lexeme := lexeme i, comma, line := c.line }]
  | .lineEnd _ =>
    if c.lineEnds && c.isOpen then [.ok { lexeme := .endOfLine, line := c.line }] else []
  | .unknown b _ => [.error (.lexical c.line (Char.ofUInt8 b))]
  | .malformed _ b _ _ _ => [.error (.lexical c.line (Char.ofUInt8 b))]
  | .blank .. | .comma | .comment .. => []

/-- What is answered to parts. The flag says whether a comma comes first behind them. -/
def partAnswers (c : Cursor) (comma : Bool) : List Part → List (Except Error Token)
  | [] => []
  | part :: rest =>
    part.answers c (commaFirst comma rest) ++ partAnswers (c.past part) comma rest

/-- What is answered to a source up to its end or the first refusal. -/
def answers (d : Dissection) (c : Cursor) : List (Except Error Token) :=
  partAnswers c false d.parts ++ [d.ending.answer (c.pastAll d.parts).line]

theorem readAs_lexeme (item : Item) : item.ReadAs (lexeme item) := by
  cases item with
  | word name => exact Item.readAs_ofWord name
  | label name => exact .label name
  | directive bytes hne hbytes => exact .directive bytes hne hbytes
  | digits bytes hne hbytes hvalue => exact .digits bytes hne hbytes hvalue
  | literal pieces text htext => exact .literal pieces text htext

/-! ## Parts one behind the other -/

theorem Joined.append {first second : List Part} {tail : List UInt8}
    (hfirst : Joined first (render second ++ tail)) (hsecond : Joined second tail) :
    Joined (first ++ second) tail := by
  induction first with
  | nil => exact hsecond
  | cons part rest ih =>
    obtain ⟨hends, hrest⟩ := hfirst
    refine ⟨?_, ih hrest⟩
    rw [List.append_eq, render_append, List.append_assoc]
    exact hends

theorem commaFirst_append (comma : Bool) (first second : List Part) :
    commaFirst comma (first ++ second) = commaFirst (commaFirst comma second) first := by
  induction first with
  | nil => rfl
  | cons part rest ih =>
    cases part with
    | blank => exact ih
    | comma | lineEnd | comment | item | unknown | malformed => rfl

/-- What is answered to parts depends on what stands behind them only by a comma. -/
theorem partAnswers_append (c : Cursor) (comma : Bool) (first second : List Part) :
    partAnswers c comma (first ++ second) =
      partAnswers c (commaFirst comma second) first ++
        partAnswers (c.pastAll first) comma second := by
  induction first generalizing c with
  | nil => rfl
  | cons part rest ih =>
    rw [List.cons_append, partAnswers, partAnswers, commaFirst_append, ih, List.append_assoc]
    rfl

/-- Nothing in the parts is refused. -/
theorem fine_partAnswers (c : Cursor) (comma : Bool) (parts : List Part) :
    TokenStream.Fine (partAnswers c comma parts) := by
  induction parts generalizing c with
  | nil => simp [partAnswers, TokenStream.Fine]
  | cons part rest ih =>
    refine TokenStream.fine_append.mpr ⟨?_, ih _⟩
    cases part with
    | blank | comma | comment => simp [Part.answers, TokenStream.Fine]
    | item | unknown | malformed =>
      exact List.forall_mem_singleton.mpr rfl
    | lineEnd =>
      rw [Part.answers]
      split
      · exact List.forall_mem_singleton.mpr rfl
      · simp [TokenStream.Fine]

/-! ## Every source has a dissection -/

variable {bytes after : List UInt8}

theorem Start.bytes_ne_nil (start : Start) : start.bytes ≠ [] := by
  cases start with
  | digits bytes hne hbytes => exact hne
  | word | directive => exact List.cons_ne_nil _ _

theorem Part.bytes_ne_nil (part : Part) : part.bytes ≠ [] := by
  cases part with
  | blank | comma | comment | unknown => exact List.cons_ne_nil _ _
  | lineEnd t => cases t <;> exact List.cons_ne_nil _ _
  | malformed start b rest h hrest => exact List.append_ne_nil_of_left_ne_nil start.bytes_ne_nil _
  | item item =>
    cases item with
    | digits bytes hne hbytes hvalue => exact hne
    | word | label | directive | literal => exact List.cons_ne_nil _ _

/-- A part in front of a source that is laid out. -/
theorem exists_cons (hshorter : ∀ more : List UInt8, more.length < bytes.length →
      ∃ d : Dissection, d.bytes = more)
    (part : Part) (after : List UInt8) (hbytes : bytes = part.bytes ++ after)
    (hends : part.Ends after) :
    ∃ d : Dissection, d.bytes = bytes := by
  have hlt : after.length < bytes.length := by
    have hpos := List.length_pos_of_ne_nil part.bytes_ne_nil
    rw [hbytes, List.length_append]
    omega
  obtain ⟨d, rfl⟩ := hshorter after hlt
  exact ⟨⟨part :: d.parts, d.ending, hends, d.joined⟩,
    (List.append_assoc ..).trans hbytes.symm⟩

/-- Behind as much of a lexeme as can be read, it ends, a colon makes a label of it, or an unknown
character stands there. -/
theorem Start.cases_after (start : Start)
    (hmax : StopsAt (fun b => ¬ start.GoesOn b) after) :
    StopsAt IsCut after ∨
      (∃ name rest, start = .word name ∧ after = 0x3A :: rest) ∨
      ∃ b rest, after = b :: rest ∧ action start.mode.state (CharClass.of b) = .unknown := by
  cases after with
  | nil => exact .inl (stopsAt_nil _)
  | cons b rest =>
    by_cases hcut : IsCut b
    · exact .inl (stopsAt_cons.mpr hcut)
    right
    rw [isCut_iff, not_or, not_or, not_or] at hcut
    obtain ⟨hblank, hcomma, hnewLine, hhash⟩ := hcut
    have hgo := stopsAt_cons.mp hmax
    obtain ⟨-, hword, hdigit, -, -, -, -, -, hcolon⟩ := byte_of_class b
    -- what is left in the row of the table for this lexeme
    cases hclass : CharClass.of b with
    | whitespace | comma | newLine | hash => contradiction
    | colon =>
      cases start with
      | word name => exact .inl ⟨name, rest, rfl, by rw [hcolon hclass]⟩
      | digits | directive => exact .inr ⟨b, rest, rfl, by rw [hclass]; rfl⟩
    | lowerAlpha | upperAlpha =>
      cases start with
      | digits => exact .inr ⟨b, rest, rfl, by rw [hclass]; rfl⟩
      | word | directive => exact absurd (hword (by simp [IsWordByte, IsLetter, hclass])) hgo
    | digit =>
      cases start with
      | digits => exact absurd (hdigit hclass) hgo
      | word | directive => exact absurd (hword (.inr hclass)) hgo
    | _ => exact .inr ⟨b, rest, rfl, by rw [hclass]; cases start <;> rfl⟩

/-- A source that begins with as much of a lexeme as can be read. -/
theorem Start.exists_dissection (hshorter : ∀ more : List UInt8, more.length < bytes.length →
      ∃ d : Dissection, d.bytes = more)
    (start : Start) (hbytes : bytes = start.bytes ++ after)
    (hmax : StopsAt (fun b => ¬ start.GoesOn b) after) :
    ∃ d : Dissection, d.bytes = bytes := by
  obtain hcut | ⟨name, rest, rfl, rfl⟩ | ⟨b, rest, rfl, hunknown⟩ := start.cases_after hmax
  · -- a lexeme that is over is an item, or else it is refused and the dissection ends with it
    cases start with
    | word name => exact exists_cons hshorter (.item (.word name)) after hbytes (.inr hcut)
    | digits digits hne hdigits =>
      rcases Nat.lt_or_ge (decimal digits) (2 ^ 64) with hvalue | hvalue
      · exact exists_cons hshorter (.item (.digits digits hne hdigits hvalue)) after hbytes
          (.inr hcut)
      · exact ⟨⟨[], .numeral digits hne hdigits hvalue after hcut, trivial⟩, hbytes.symm⟩
    | directive word hword =>
      by_cases hne : word = []
      · subst hne
        exact ⟨⟨[], .period after hcut, trivial⟩, hbytes.symm⟩
      · exact exists_cons hshorter (.item (.directive word hne hword)) after hbytes (.inr hcut)
  · refine exists_cons hshorter (.item (.label name)) rest ?_ (.inl rfl)
    rw [hbytes]
    exact (List.append_assoc name.bytes [0x3A] rest).symm
  · -- the rest of the malformed lexeme reaches up to the next boundary
    obtain ⟨more, last, rfl, hmore, hlast⟩ := exists_run (fun c => ¬ IsBoundary c) rest
    have hends : StopsAt IsBoundary last := fun c hc => not_not.mp (hlast c hc)
    refine exists_cons hshorter (.malformed start b more hunknown hmore) last ?_ hends
    rw [hbytes]
    exact (List.append_assoc start.bytes (b :: more) last).symm

/-- A source that begins with a quote. -/
theorem exists_dissection_quote (hshorter : ∀ more : List UInt8, more.length < bytes.length →
      ∃ d : Dissection, d.bytes = more) {body : List UInt8} (hbytes : bytes = 0x22 :: body) :
    ∃ d : Dissection, d.bytes = bytes := by
  -- where the literal is refused, the dissection ends
  have hrefused : ∀ fault rest,
      Literal.read (body.map .byte) = (.error (.malformed fault), rest) →
      ∃ d : Dissection, d.bytes = bytes := fun fault rest hread =>
    ⟨⟨[], .literal body fault rest hread, trivial⟩, hbytes.symm⟩
  obtain ⟨pieces, after, rfl⟩ | ⟨fault, rest, hbody⟩ := Literal.body_bytes body
  · by_cases hutf8 : IsUtf8 (pieces.map Piece.value)
    · obtain ⟨text, htext⟩ := hutf8
      refine exists_cons hshorter (.item (.literal pieces text htext.symm)) after ?_ (.inl rfl)
      simp [hbytes, Part.bytes, Item.bytes]
    · refine hrefused .stringNotUtf8 (after.map .byte) ?_
      rw [List.map_append, List.map_cons, Literal.read, Literal.body_pieces]
      dsimp only
      rw [fromUTF8?_eq_none hutf8]
  · exact hrefused fault rest (by rw [Literal.read, hbody])

/-- Every source has a dissection. -/
theorem exists_dissection (bytes : List UInt8) : ∃ d : Dissection, d.bytes = bytes := by
  induction hn : bytes.length using Nat.strong_induction_on generalizing bytes with
  | h n ih =>
    subst hn
    -- what stands first is cut off, and then the rest is shorter
    have hshorter : ∀ more : List UInt8, more.length < bytes.length →
        ∃ d : Dissection, d.bytes = more := fun more hlt => ih _ hlt more rfl
    cases bytes with
    | nil => exact ⟨⟨[], .file, trivial⟩, rfl⟩
    | cons b rest =>
      obtain ⟨hletter, hword, hdigit, hblank, hcomma, hperiod, hquote, hhash, -⟩ := byte_of_class b
      -- the class of the first byte decides what is begun
      cases hclass : CharClass.of b with
      | lowerAlpha | upperAlpha =>
        obtain ⟨run, after, rfl, hrun, hafter⟩ := exists_run IsNameByte rest
        have hb : IsNameStart b := hletter (by simp [IsLetter, hclass])
        exact (Start.word ⟨b, run, hb, hrun⟩).exists_dissection hshorter rfl hafter
      | digit =>
        obtain ⟨run, after, rfl, hrun, hafter⟩ := exists_run IsDigit rest
        have hall : ∀ c ∈ b :: run, IsDigit c := List.forall_mem_cons.mpr ⟨hdigit hclass, hrun⟩
        exact (Start.digits (b :: run) (by simp) hall).exists_dissection hshorter rfl hafter
      | period =>
        obtain ⟨run, after, rfl, hrun, hafter⟩ := exists_run IsNameByte rest
        rw [hperiod hclass] at hshorter ⊢
        exact (Start.directive run hrun).exists_dissection hshorter rfl hafter
      | whitespace => exact exists_cons hshorter (.blank b (hblank hclass)) rest rfl trivial
      | comma =>
        rw [hcomma hclass] at hshorter ⊢
        exact exists_cons hshorter .comma rest rfl trivial
      | hash =>
        rw [hhash hclass] at hshorter ⊢
        obtain ⟨body, after, rfl, hbody, hafter⟩ := exists_run (fun c => ¬ IsLineEnd c) rest
        exact exists_cons hshorter (.comment body hbody) after rfl
          fun c hc => not_not.mp (hafter c hc)
      | newLine =>
        rcases (class_eq_newLine_iff b).mp hclass with rfl | rfl
        · exact exists_cons hshorter (.lineEnd .lineFeed) rest rfl trivial
        · by_cases hfeed : rest.head? = some 0x0A
          · obtain ⟨more, rfl⟩ : ∃ more, rest = 0x0A :: more :=
              ⟨rest.tail, List.eq_cons_of_mem_head? hfeed⟩
            exact exists_cons hshorter (.lineEnd .both) more rfl trivial
          · refine exists_cons hshorter (.lineEnd .carriageReturn) rest rfl ?_
            rintro c hc rfl
            exact hfeed hc
      | doubleQuote =>
        rw [hquote hclass] at hshorter ⊢
        exact exists_dissection_quote hshorter rfl
      | _ =>
        have hunknown : action .initial (CharClass.of b) = .unknown := by rw [hclass]; rfl
        exact exists_cons hshorter (.unknown b hunknown) rest rfl trivial

end Dissection

end AsmLinker
