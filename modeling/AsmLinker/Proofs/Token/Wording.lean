import Mathlib
import AsmLinker.Proofs.Token.Scanning

/-!
# Lines of lexemes

How tokens can be written on a line: their lexemes stand one behind the other, with a blank or with
a comma and a blank between them (`Dissection.Spells`). Words, labels, directives, decimal numerals
and literals in any escaping are items of a source, and `Dissection.Lexes` says which lexeme an item
is read as.

Such lines are parts of a dissection (`Dissection.Spells.exists_parts`). So it is known already what
a scanner answers to a source that consists of them: the tokens of each line, and its end
(`Dissection.answers_lines`).
-/

namespace AsmLinker

open Rendering

/-! ## Numerals and literals -/

/-- The digits of a number are read as the number. -/
theorem Numeral.value_toDigits (n : Nat) : value 10 (Nat.toDigits 10 n) = n := by
  have hdigit : ∀ d : Fin 10, digit? (Nat.digitChar d) = some d.val := by decide
  induction n using Nat.strong_induction_on with
  | _ n ih =>
    -- the last digit is read last
    by_cases hlt : n < 10
    · have hd := hdigit ⟨n, hlt⟩
      rw [Nat.toDigits_of_lt_base hlt, ← List.nil_append [Nat.digitChar n], value_concat, hd]
      simp
    · have hmod : n % 10 < 10 := Nat.mod_lt _ (by omega)
      have hd := hdigit ⟨n % 10, hmod⟩
      rw [Nat.toDigits_of_base_le (by omega) (by omega), value_concat, ih (n / 10) (by omega), hd,
        Option.getD_some]
      exact Nat.div_add_mod' n 10

/-- A run of decimal digits as bytes. -/
theorem exists_spelling_of_digits {cs : List Char} (h : ∀ c ∈ cs, c.isDigit = true) :
    ∃ bytes, (∀ b ∈ bytes, IsDigit b) ∧ .ofList cs = spelling bytes := by
  have hsame : ∀ c ∈ cs, Char.ofUInt8 (UInt8.ofNat c.toNat) = c := by
    intro c hc
    obtain ⟨hge, hle⟩ : 48 ≤ c.toNat ∧ c.toNat ≤ 57 := Char.isDigit_iff_toNat.mp (h c hc)
    apply Char.toNat_inj.mp
    change (UInt8.ofNat c.toNat).toUInt32.toNat = c.toNat
    rw [UInt8.toNat_toUInt32, UInt8.toNat_ofNat_of_lt' (by change c.toNat < 256; omega)]
  refine ⟨cs.map fun c => UInt8.ofNat c.toNat, ?_, ?_⟩
  · intro b hb
    obtain ⟨c, hc, rfl⟩ := List.mem_map.mp hb
    rw [IsDigit, hsame c hc]
    exact h c hc
  · rw [spelling, List.map_map, String.ofList_inj]
    exact (List.map_id cs).symm.trans (List.map_congr_left fun c hc => (hsame c hc).symm)

/-- Whatever an escaping writes is made of pieces. -/
theorem Literal.Escaping.exists_pieces (e : Escaping) (bytes : List UInt8) :
    ∃ pieces : List Piece, pieces.flatMap Piece.bytes = bytes.flatMap e.spell ∧
      pieces.map Piece.value = bytes := by
  have hbody := body_flatMap e.spell id e.body_spell bytes []
  rw [List.map_id] at hbody
  have hsignals : (bytes.flatMap e.spell ++ [0x22]).map Signal.byte =
      (bytes.flatMap e.spell).map .byte ++ [.byte 0x22] := List.map_append
  rcases body_bytes (bytes.flatMap e.spell ++ [0x22]) with
    ⟨pieces, after, hcloses⟩ | ⟨fault, rest, hfault⟩
  · -- the pieces end at the same quote, since they are read as the same bytes
    have hpieces := body_pieces pieces (after.map .byte)
    rw [← List.map_cons, ← List.map_append, ← hcloses, hsignals, hbody] at hpieces
    obtain ⟨hbytes, hafter⟩ := Prod.mk.inj hpieces
    obtain rfl := List.map_eq_nil_iff.mp hafter.symm
    exact ⟨pieces, (List.append_cancel_right hcloses).symm, (Except.ok.inj hbytes).symm⟩
  · rw [hsignals, hbody] at hfault
    cases hfault

namespace Dissection

/-! ## Lexemes -/

/-- The bytes are an item that is read as this lexeme. -/
def Lexes (bytes : List UInt8) (read : Lexeme) : Prop :=
  ∃ item : Item, item.bytes = bytes ∧ lexeme item = read

theorem exists_name {word : String} (h : IsWord word) :
    ∃ name : Name, name.bytes = utf8 word ∧ name.text = word := by
  obtain ⟨first, rest, hfirst, hrest, rfl⟩ := h
  refine ⟨⟨first, rest, (byte_of_class first).1 hfirst, fun b hb => ?_⟩, ?_, rfl⟩
  · exact (byte_of_class b).2.1 (hrest b hb)
  · exact (utf8_spelling (isAscii_of_word hfirst hrest)).symm

theorem lexes_word {word : String} (h : IsWord word) : Lexes (utf8 word) (.ofWord word) := by
  obtain ⟨name, hbytes, rfl⟩ := exists_name h
  exact ⟨.word name, hbytes, rfl⟩

/-- A word with a colon behind it. -/
theorem lexes_label {word : String} (h : IsWord word) :
    Lexes (utf8 (word ++ ":")) (.label word) := by
  obtain ⟨name, hbytes, rfl⟩ := exists_name h
  refine ⟨.label name, ?_, rfl⟩
  rw [utf8_append, ← hbytes]
  rfl

/-- A word behind a period. -/
theorem lexes_directive {word : String} (h : IsWord word) :
    Lexes (utf8 ("." ++ word)) (.directive word) := by
  obtain ⟨name, hbytes, rfl⟩ := exists_name h
  have hname : ∀ b ∈ name.bytes, IsNameByte b := fun b hb =>
    (byte_of_class b).2.1 (name.isWordByte b hb)
  refine ⟨.directive name.bytes (List.cons_ne_nil _ _) hname, ?_, rfl⟩
  rw [utf8_append, ← hbytes]
  rfl

/-- A decimal numeral. -/
theorem lexes_numeral (value : UInt64) :
    Lexes (utf8 (toString value.toNat)) (.digits (toString value.toNat) value) := by
  have hdigits : ∀ c ∈ Nat.toDigits 10 value.toNat, c.isDigit = true := fun c hc =>
    Nat.isDigit_of_mem_toDigits (by omega) (by omega) hc
  obtain ⟨bytes, hbytes, htext⟩ := exists_spelling_of_digits hdigits
  have hspelling : toString value.toNat = spelling bytes := htext
  have hascii : ∀ b ∈ bytes, IsAscii b := fun b hb =>
    IsWordByte.isAscii (.inr (class_of_isDigit b (hbytes b hb)))
  have hdecimal : decimal bytes = value.toNat := by
    rw [← value_spelling hbytes, ← htext, String.toList_ofList, Numeral.value_toDigits]
  have hne : bytes ≠ [] := by
    rintro rfl
    exact absurd (String.ofList_inj.mp htext) Nat.toDigits_ne_nil
  refine ⟨.digits bytes hne hbytes (by rw [hdecimal]; exact value.toNat_lt), ?_, ?_⟩
  · rw [hspelling, utf8_spelling hascii]
    rfl
  · rw [lexeme, hdecimal, hspelling, UInt64.ofNat_toNat]

/-- A literal between its quotes, written with any escaping. -/
theorem lexes_literal (e : Literal.Escaping) (text : String) :
    Lexes (0x22 :: ((utf8 text).flatMap e.spell ++ [0x22])) (.ascii text) := by
  obtain ⟨pieces, hbytes, hvalue⟩ := e.exists_pieces (utf8 text)
  refine ⟨.literal pieces text hvalue, ?_, rfl⟩
  rw [Item.bytes, hbytes]

/-! ## Lines -/

/-- The bytes are a line without its end, on which the tokens are written. -/
inductive Spells : List UInt8 → List Token → Prop
  | last {bytes : List UInt8} {read : Lexeme} (h : Lexes bytes read) :
      Spells bytes [{ lexeme := read, line := 0 }]
  | blank {bytes after : List UInt8} {read : Lexeme} {tokens : List Token} (h : Lexes bytes read)
      (hafter : Spells after tokens) :
      Spells (bytes ++ 0x20 :: after) ({ lexeme := read, line := 0 } :: tokens)
  | comma {bytes after : List UInt8} {read : Lexeme} {tokens : List Token} (h : Lexes bytes read)
      (hafter : Spells after tokens) :
      Spells (bytes ++ 0x2C :: 0x20 :: after)
        ({ lexeme := read, comma := true, line := 0 } :: tokens)

/-- The parts lie on one line, and the tokens are what is answered to them, lines aside. -/
structure Fills (parts : List Part) (tokens : List Token) : Prop where
  /-- They end where the line does. -/
  joined : ∀ after, StopsAt IsCut after → Joined parts after
  /-- They do not begin with the comma of something else. -/
  commaFirst : commaFirst false parts = false
  answers : ∀ c, (partAnswers c false parts).map TokenStream.unlined =
    tokens.map fun token => .ok token.unlined
  /-- Behind them there is a token on the line. -/
  past : ∀ c : Cursor, c.pastAll parts = { c with isOpen := true }

theorem fills_item (item : Item) : Fills [.item item] [{ lexeme := lexeme item, line := 0 }] where
  joined _ hafter := ⟨.inr hafter, trivial⟩
  commaFirst := rfl
  answers _ := rfl
  past _ := rfl

theorem isBlank_space : IsBlank 0x20 := .inl rfl

variable {parts : List Part} {tokens : List Token}

theorem Fills.blank (h : Fills parts tokens) (item : Item) :
    Fills (.item item :: .blank 0x20 isBlank_space :: parts)
      ({ lexeme := lexeme item, line := 0 } :: tokens) where
  joined after hafter :=
    ⟨.inr (stopsAt_cons.mpr (.inl isBlank_space)), trivial, h.joined after hafter⟩
  commaFirst := rfl
  answers c := by
    rw [partAnswers, Dissection.commaFirst, h.commaFirst]
    exact congrArg _ (h.answers _)
  past _ := h.past _

theorem Fills.comma (h : Fills parts tokens) (item : Item) :
    Fills (.item item :: .comma :: .blank 0x20 isBlank_space :: parts)
      ({ lexeme := lexeme item, comma := true, line := 0 } :: tokens) where
  joined after hafter :=
    ⟨.inr (stopsAt_cons.mpr (.inr (.inl rfl))), trivial, trivial, h.joined after hafter⟩
  commaFirst := rfl
  answers _ := congrArg _ (h.answers _)
  past _ := h.past _

/-- A line is cut into parts. -/
theorem Spells.exists_parts {bytes : List UInt8} (h : Spells bytes tokens) :
    ∃ parts, render parts = bytes ∧ Fills parts tokens := by
  induction h with
  | last h =>
    obtain ⟨item, rfl, rfl⟩ := h
    exact ⟨_, List.append_nil _, fills_item item⟩
  | blank h _ ih =>
    obtain ⟨item, rfl, rfl⟩ := h
    obtain ⟨parts, rfl, hfills⟩ := ih
    exact ⟨_, rfl, hfills.blank item⟩
  | comma h _ ih =>
    obtain ⟨item, rfl, rfl⟩ := h
    obtain ⟨parts, rfl, hfills⟩ := ih
    exact ⟨_, rfl, hfills.comma item⟩

/-- Lines that are ended by line feeds are cut into parts, to which their tokens and their ends are
answered. -/
theorem exists_parts_of_lines {lines : List (List UInt8 × List Token)}
    (h : ∀ line ∈ lines, Spells line.1 line.2) :
    ∃ parts, render parts = (lines.flatMap fun line => line.1 ++ [0x0A]) ∧ Joined parts [] ∧
      ∀ n, (partAnswers ⟨true, n, false⟩ false parts).map TokenStream.unlined =
        (lines.flatMap fun line => line.2 ++ [Token.lineEnd]).map fun token =>
          .ok token.unlined := by
  induction lines with
  | nil => exact ⟨[], rfl, trivial, fun _ => rfl⟩
  | cons line rest ih =>
    obtain ⟨hline, hrest⟩ := List.forall_mem_cons.mp h
    obtain ⟨first, hfirst, hfills⟩ := hline.exists_parts
    obtain ⟨second, hsecond, hjoined, hanswers⟩ := ih hrest
    refine ⟨first ++ .lineEnd .lineFeed :: second, ?_, .append ?_ ⟨trivial, hjoined⟩, fun n => ?_⟩
    · simp [hfirst, hsecond, Part.bytes, Terminator.bytes]
    · exact hfills.joined _ (stopsAt_cons.mpr (.inr (.inr (.inl (.inl rfl)))))
    · -- the line has a token, so that its end is answered, and the next line has none yet
      have hend := hanswers (n + 1)
      rw [partAnswers_append, hfills.past, List.map_append, List.flatMap_cons, List.map_append,
        List.map_append, ← hend, List.append_assoc]
      exact congrArg (· ++ _) (hfills.answers _)

/-- The answers on lines that are ended by line feeds. -/
theorem answers_lines (path : String) {lines : List (List UInt8 × List Token)}
    (h : ∀ line ∈ lines, Spells line.1 line.2) :
    (TokenStream.ofScanner
        { source := .ofBytes (lines.flatMap fun line => line.1 ++ [0x0A]), origin := path,
          lineEnds := true }).answers.map TokenStream.unlined =
      (lines.flatMap fun line => line.2 ++ [Token.lineEnd]).map fun token =>
        .ok token.unlined := by
  obtain ⟨parts, hbytes, hjoined, hanswers⟩ := exists_parts_of_lines h
  rw [← hbytes, ofScanner_start path hjoined]
  exact hanswers 1

end Dissection

end AsmLinker
