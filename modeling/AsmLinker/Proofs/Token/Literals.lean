import Mathlib
import AsmLinker.Proofs.Token.Items

/-!
# String literals

A string literal is a sequence of pieces between two quotes (`Rendering.Piece`): bytes that stand
for themselves, letters behind a backslash, and codes of ASCII characters. A request to a scanner
that rests before a quote answers a token with the decoded bytes exactly if such a sequence follows
and is UTF-8. Everything else is refused on the line on which the literal begins
(`Scanner.scan_literal`).

Whether a literal is UTF-8 can be seen from the bytes between its quotes, before any escape is
decoded (`Rendering.isUtf8_pieces_iff`): what is written for an escape, and what it stands for, are
ASCII characters, and UTF-8 can be cut at each of these (`isUtf8_append_cons`).
-/

namespace AsmLinker

/-! ## UTF-8 and ASCII characters -/

/-- The bytes are the UTF-8 of a text. -/
def IsUtf8 (bytes : List UInt8) : Prop :=
  ∃ text, utf8 text = bytes

theorem isUtf8_iff {bytes : List UInt8} :
    IsUtf8 bytes ↔ ∃ cs : List Char, cs.flatMap String.utf8EncodeChar = bytes := by
  constructor
  · rintro ⟨text, rfl⟩
    exact ⟨text.toList, by rw [← utf8_ofList, String.ofList_toList]⟩
  · rintro ⟨cs, rfl⟩
    exact ⟨.ofList cs, utf8_ofList cs⟩

theorem IsUtf8.append {first second : List UInt8} (hfirst : IsUtf8 first)
    (hsecond : IsUtf8 second) : IsUtf8 (first ++ second) := by
  obtain ⟨s, rfl⟩ := hfirst
  obtain ⟨t, rfl⟩ := hsecond
  exact ⟨s ++ t, utf8_append s t⟩

theorem isUtf8_encodeChar (c : Char) : IsUtf8 (String.utf8EncodeChar c) :=
  isUtf8_iff.mpr ⟨[c], by simp⟩

/-- A character in whose UTF-8 an ASCII character occurs is that character. -/
theorem utf8EncodeChar_of_mem {c : Char} {b : UInt8} (h : b ∈ String.utf8EncodeChar c)
    (hb : IsAscii b) : String.utf8EncodeChar c = [b] := by
  have hlarge : ∀ n, 128 ≤ n → n < 256 → b ≠ UInt8.ofNat n := by
    rintro n hge hlt rfl
    rw [IsAscii, UInt8.toNat_ofNat_of_lt' hlt] at hb
    omega
  unfold String.utf8EncodeChar at h ⊢
  dsimp only at h ⊢
  split at h
  next hone =>
    rw [if_pos hone, List.mem_singleton.mp h]
  next =>
    -- in a sequence of several bytes each byte is at least 128
    exfalso
    split at h
    · simp only [List.mem_cons, List.not_mem_nil, or_false] at h
      rcases h with h | h <;> exact hlarge _ (by omega) (by omega) h
    · split at h
      · simp only [List.mem_cons, List.not_mem_nil, or_false] at h
        rcases h with h | h | h <;> exact hlarge _ (by omega) (by omega) h
      · simp only [List.mem_cons, List.not_mem_nil, or_false] at h
        rcases h with h | h | h | h <;> exact hlarge _ (by omega) (by omega) h

/-- UTF-8 can be cut at an ASCII character. -/
theorem isUtf8_append_cons {before after : List UInt8} {b : UInt8} (hb : IsAscii b) :
    IsUtf8 (before ++ b :: after) ↔ IsUtf8 before ∧ IsUtf8 after := by
  constructor
  · intro h
    obtain ⟨cs, hcs⟩ := isUtf8_iff.mp h
    clear h
    induction cs generalizing before with
    | nil => simp at hcs
    | cons c cs ih =>
      rw [List.flatMap_cons, List.append_eq_append_iff] at hcs
      -- the cut lies behind the first character, or at it
      obtain ⟨rest, rfl, hrest⟩ | ⟨inside, hinside, hrest⟩ := hcs
      · obtain ⟨hbefore, hafter⟩ := ih hrest
        exact ⟨(isUtf8_encodeChar c).append hbefore, hafter⟩
      · rcases inside with _ | ⟨d, inside⟩
        · obtain ⟨-, hafter⟩ := @ih [] hrest.symm
          rw [List.append_nil] at hinside
          exact ⟨hinside ▸ isUtf8_encodeChar c, hafter⟩
        · obtain ⟨rfl, rfl⟩ : b = d ∧ after = inside ++ cs.flatMap String.utf8EncodeChar :=
            List.cons.inj hrest
          have hone := utf8EncodeChar_of_mem (c := c) (b := b) (by simp [hinside]) hb
          rw [hone] at hinside
          obtain ⟨rfl, rfl⟩ : before = [] ∧ inside = [] := by
            simpa [List.singleton_eq_append_iff] using hinside
          exact ⟨isUtf8_iff.mpr ⟨[], rfl⟩, isUtf8_iff.mpr ⟨cs, rfl⟩⟩
  · rintro ⟨hbefore, hafter⟩
    have hone : IsUtf8 [b] := by
      rw [← utf8EncodeChar_ofUInt8 hb]
      exact isUtf8_encodeChar _
    exact hbefore.append (hone.append hafter)

/-- ASCII characters in front do not matter. -/
theorem isUtf8_ascii_append {word after : List UInt8} (hword : ∀ b ∈ word, IsAscii b) :
    IsUtf8 (word ++ after) ↔ IsUtf8 after := by
  induction word with
  | nil => rfl
  | cons b rest ih =>
    obtain ⟨hb, hrest⟩ := List.forall_mem_cons.mp hword
    have hcut := @isUtf8_append_cons [] (rest ++ after) b hb
    rw [List.nil_append, ih hrest] at hcut
    exact hcut.trans (and_iff_right (isUtf8_iff.mpr ⟨[], rfl⟩))

/-- Bytes that are not UTF-8 cannot be read as a text. -/
theorem fromUTF8?_eq_none {bytes : List UInt8} (h : ¬ IsUtf8 bytes) :
    String.fromUTF8? ⟨bytes.toArray⟩ = none := by
  apply dif_neg
  rintro ⟨cs, hcs⟩
  have hbytes : bytes = cs.utf8Encode.data.toList := by rw [← hcs]
  exact h (isUtf8_iff.mpr ⟨cs, by simp [hbytes, List.utf8Encode]⟩)

namespace Rendering

/-- Behind the opening quote of a literal, the bytes are pieces, the closing quote and whatever
follows it. -/
def Closes (pieces : List Piece) (after bytes : List UInt8) : Prop :=
  bytes = pieces.flatMap Piece.bytes ++ 0x22 :: after

/-! ## Decoding keeps UTF-8 -/

/-- A piece that does not stand for itself is written with ASCII characters, and for one. -/
theorem Piece.eq_plain_or_isAscii (piece : Piece) :
    (∃ b, piece.bytes = [b] ∧ piece.value = b) ∨
      (piece.bytes ≠ [] ∧ (∀ b ∈ piece.bytes, IsAscii b) ∧ IsAscii piece.value) := by
  cases piece with
  | plain b h => exact .inl ⟨b, rfl, rfl⟩
  | escape letter value h =>
    right
    have hall : escapeLetters.all (fun entry => entry.1.toNat < 128 ∧ entry.2.toNat < 128) =
        true := by
      decide
    obtain ⟨hletter, hvalue⟩ : letter.toNat < 128 ∧ value.toNat < 128 := by
      simpa using List.all_eq_true.mp hall _ h
    refine ⟨by simp [Piece.bytes], ?_, hvalue⟩
    simpa [Piece.bytes, IsAscii] using hletter
  | code high low upper =>
    right
    obtain ⟨-, hhigh, -⟩ := hexByte_spec upper (high.castLE (by decide))
    obtain ⟨-, hlow, -⟩ := hexByte_spec upper low
    refine ⟨by simp [Piece.bytes], ?_, ?_⟩
    · simpa [Piece.bytes, IsAscii] using ⟨hhigh, hlow⟩
    · have hlt : 16 * high.val + low.val < 128 := by omega
      rw [IsAscii, Piece.value, UInt8.toNat_ofNat_of_lt' (hlt.trans (by decide))]
      exact hlt

/-- The bytes between the quotes of a literal are UTF-8 exactly if the decoded bytes are. -/
theorem isUtf8_pieces_iff (pieces : List Piece) :
    IsUtf8 (pieces.flatMap Piece.bytes) ↔ IsUtf8 (pieces.map Piece.value) := by
  -- a byte that stands for itself may be part of a character that began before it
  have hbehind : ∀ before, IsUtf8 (before ++ pieces.flatMap Piece.bytes) ↔
      IsUtf8 (before ++ pieces.map Piece.value) := by
    induction pieces with
    | nil => intro before; rfl
    | cons piece rest ih =>
      intro before
      rw [List.flatMap_cons, List.map_cons]
      obtain ⟨b, hbytes, hvalue⟩ | ⟨hne, hbytes, hvalue⟩ := piece.eq_plain_or_isAscii
      · simpa [hbytes, hvalue] using ih (before ++ [b])
      · obtain ⟨first, more, hpiece⟩ := List.exists_cons_of_ne_nil hne
        rw [hpiece] at hbytes ⊢
        obtain ⟨hfirst, hmore⟩ := List.forall_mem_cons.mp hbytes
        rw [List.cons_append, isUtf8_append_cons hfirst, isUtf8_append_cons hvalue,
          isUtf8_ascii_append hmore]
        exact and_congr_right fun _ => ih []
  exact hbehind []

end Rendering

/-! ## What is not a literal is refused -/

namespace Literal

open Rendering

/-- A byte that is read as a hexadecimal digit is one, in either case. -/
theorem exists_hexByte {b : UInt8} {d : Nat} (h : Numeral.digit? (Char.ofUInt8 b) = some d) :
    ∃ digit : Fin 16, ∃ upper, d = digit.val ∧ b = hexByte upper digit := by
  have hall : ∀ b, (Numeral.digit? (Char.ofUInt8 b)).all
      (fun d => d < 16 ∧ (b = hexByte false d ∨ b = hexByte true d)) = true := by
    apply forall_byte
    decide +kernel
  have hb := hall b
  rw [h] at hb
  obtain ⟨hlt, hlower | hupper⟩ := of_decide_eq_true hb
  · exact ⟨⟨d, hlt⟩, false, rfl, hlower⟩
  · exact ⟨⟨d, hlt⟩, true, rfl, hupper⟩

/-- Bytes begin with the code of an ASCII character, or are refused as one. -/
theorem hexEscape_bytes (bytes : List UInt8) :
    (∃ high : Fin 8, ∃ low : Fin 16, ∃ upper after,
      bytes = hexByte upper high :: hexByte upper low :: after) ∨
    ∃ fault rest, hexEscape (bytes.map .byte) = (.error (.malformed fault), rest) := by
  -- the digits below 8 look the same in both cases
  have hcase : ∀ upper upper', ∀ high : Fin 8, hexByte upper high = hexByte upper' high := by
    decide
  match bytes with
  | [] => exact .inr ⟨_, _, rfl⟩
  | [b] =>
    right
    cases hb : Numeral.digit? (Char.ofUInt8 b) <;> simp [hexEscape, hexDigit, hb]
  | b :: c :: after =>
    cases hb : Numeral.digit? (Char.ofUInt8 b) with
    | none => right; simp [hexEscape, hexDigit, hb]
    | some high =>
      cases hc : Numeral.digit? (Char.ofUInt8 c) with
      | none => right; simp [hexEscape, hexDigit, hb, hc]
      | some low =>
        obtain ⟨high, upper, rfl, rfl⟩ := exists_hexByte hb
        obtain ⟨low, upper', rfl, rfl⟩ := exists_hexByte hc
        by_cases hascii : high.val * 16 + low.val > 0x7F
        · right
          simp [hexEscape, hexDigit, hb, hc, hascii]
        · left
          refine ⟨⟨high, by omega⟩, low, upper', after, ?_⟩
          rw [hcase upper' upper]

theorem eq_toUInt8 {b : UInt8} {c : Char} (h : Char.ofUInt8 b = c) : b = c.toUInt8 := by
  subst h
  simp [Char.ofUInt8, Char.toUInt8]

/-- Only the letters of the table are read as escapes. -/
theorem mem_escapeLetters {b value : UInt8} (h : escaped? b = some value) :
    (b, value) ∈ escapeLetters := by
  unfold escaped? at h
  -- one case for each letter of the table, and one for every other byte
  split at h <;> cases h
  all_goals
    rw [eq_toUInt8 ‹Char.ofUInt8 b = _›]
    simp [escapeLetters]

/-- What follows a backslash is an escape, or is refused as one. -/
theorem escape_bytes (bytes : List UInt8) :
    (∃ (piece : Piece) (after : List UInt8), 0x5C :: bytes = piece.bytes ++ after) ∨
      ∃ fault rest, escape (bytes.map .byte) = (.error (.malformed fault), rest) := by
  cases bytes with
  | nil => exact .inr ⟨_, _, rfl⟩
  | cons b bytes =>
    rw [List.map_cons, escape]
    by_cases hx : Char.ofUInt8 b = 'x'
    · rw [if_pos hx]
      obtain rfl : b = 0x78 := ofUInt8_injective hx
      refine (hexEscape_bytes bytes).imp_left ?_
      rintro ⟨high, low, upper, after, rfl⟩
      exact ⟨.code high low upper, after, rfl⟩
    rw [if_neg hx]
    cases hline : isLineEnd b with
    | true => exact .inr ⟨_, _, rfl⟩
    | false =>
      cases hescaped : escaped? b with
      | none => exact .inr ⟨_, _, rfl⟩
      | some value => exact .inl ⟨.escape b value (mem_escapeLetters hescaped), bytes, rfl⟩

/-- Bytes begin with the pieces of a literal and its closing quote, or are refused as a literal. -/
theorem body_bytes (bytes : List UInt8) : (∃ pieces after, Closes pieces after bytes) ∨
    ∃ fault rest, body (bytes.map .byte) = (.error (.malformed fault), rest) := by
  induction hn : bytes.length using Nat.strong_induction_on generalizing bytes with
  | h n ih =>
    -- behind a piece, what is left of the bytes decides
    have hpiece : ∀ (piece : Piece) after, bytes = piece.bytes ++ after →
        (∃ pieces after, Closes pieces after bytes) ∨
        ∃ fault rest, body (bytes.map .byte) = (.error (.malformed fault), rest) := by
      rintro piece after rfl
      have hlt : after.length < n := by
        have hpos : piece.bytes.length ≠ 0 := by cases piece <;> simp [Piece.bytes]
        rw [← hn, List.length_append]
        omega
      obtain ⟨pieces, last, rfl⟩ | ⟨fault, rest, hbody⟩ := ih _ hlt after rfl
      · exact .inl ⟨piece :: pieces, last, by simp [Closes]⟩
      · exact .inr ⟨fault, rest, by rw [List.map_append, body_piece, hbody]; rfl⟩
    cases bytes with
    | nil => exact .inr ⟨_, _, by rw [List.map_nil, body]⟩
    | cons b bytes =>
      by_cases hquote : b = 0x22
      · exact .inl ⟨[], bytes, by rw [hquote]; rfl⟩
      have hquote' : Char.ofUInt8 b ≠ '"' := fun h => hquote (ofUInt8_injective h)
      by_cases hline : IsLineEnd b
      · have hline' : isLineEnd b = true := by simpa [isLineEnd, IsLineEnd] using hline
        right
        rw [List.map_cons, body, if_neg hquote', hline', if_pos rfl]
        exact ⟨_, _, rfl⟩
      by_cases hbackslash : b = 0x5C
      · -- an escape that is refused refuses the literal
        subst hbackslash
        obtain ⟨piece, after, hafter⟩ | ⟨fault, rest, hescape⟩ := escape_bytes bytes
        · exact hpiece piece after hafter
        · right
          rw [List.map_cons, body, if_neg (by decide), if_neg (by decide), if_pos (by decide)]
          split
          next heq =>
            rw [hescape] at heq
            cases heq
            exact ⟨_, _, rfl⟩
          next heq =>
            rw [hescape] at heq
            cases heq
      · exact hpiece (.plain b ⟨hquote, hbackslash, hline⟩) bytes rfl

end Literal

namespace Scanner

open Rendering

variable {s : Scanner} {rest : List UInt8}

/-! ## Requests before a quote -/

/-- A token that is held back is answered, with or without a comma, unless a read fails. -/
theorem exists_resume_held (token : Token) (h : s.source.pending = rest.map .byte) :
    ∃ comma, (s.resume (.held token)).1 = .ok { token with comma } := by
  induction rest generalizing s with
  | nil =>
    rw [resume_nil (.held token) h]
    exact ⟨token.comma, rfl⟩
  | cons b rest ih =>
    rw [resume_byte (.held token) h, step]
    -- blanks are skipped, a comma is taken along, and anything else gives the token out
    cases hclass : CharClass.of b with
    | whitespace => exact ih rfl
    | comma => exact ⟨true, rfl⟩
    | _ => exact ⟨token.comma, rfl⟩

/-- The next request is refused for a fault on the present line, and the error is fatal. -/
def Refuses (s : Scanner) (fault : SourceFault) : Prop :=
  s.scan.1 = .error (.source s.line fault) ∧ (Error.source s.line fault).isFatal = true

/-- A literal that can be read is answered on the line on which it begins. -/
theorem scan_of_read {text : String} {after : List UInt8} (hmode : s.mode = .initial)
    (hpending : s.source.pending = (0x22 :: rest).map .byte)
    (hread : Literal.read (rest.map .byte) = (.ok text, after.map .byte)) :
    ∃ comma, s.scan.1 = .ok { lexeme := .ascii text, comma, line := s.line } := by
  rw [scan, hmode, resume_byte .initial hpending, step_quote, literal, Source.pending_mk_none,
    hread]
  exact exists_resume_held _ rfl

/-- A literal that cannot be read is refused on the line on which it begins. -/
theorem refuses_of_read {fault : SourceFault} {after : List Signal} (hmode : s.mode = .initial)
    (hpending : s.source.pending = (0x22 :: rest).map .byte)
    (hread : Literal.read (rest.map .byte) = (.error (.malformed fault), after)) :
    s.Refuses fault := by
  refine ⟨?_, rfl⟩
  rw [scan, hmode, resume_byte .initial hpending, step_quote, literal, Source.pending_mk_none,
    hread]
  rfl

/-- What a request answers to a scanner between two lexemes, if a quote comes next and no read
fails.
* If pieces and a closing quote follow and the bytes between the quotes are UTF-8, it is a token
  with the text of the decoded bytes, on the present line. If they are not UTF-8, it is an error
  that says so. Decoding makes no difference to this.
* Whatever else follows is refused.
* In particular, a literal can hold every text. It is enough to escape quotes, backslashes and line
  ends: every other byte, also one that would begin a comment, end a lexeme or make it a label,
  stands for itself. -/
theorem scan_literal (hmode : s.mode = .initial)
    (hpending : s.source.pending = (0x22 :: rest).map .byte) :
    (∀ pieces after, Closes pieces after rest →
      (IsUtf8 (pieces.flatMap Piece.bytes) ↔ IsUtf8 (pieces.map Piece.value)) ∧
      (IsUtf8 (pieces.flatMap Piece.bytes) → ∃ text comma, utf8 text = pieces.map Piece.value ∧
        s.scan.1 = .ok { lexeme := .ascii text, comma, line := s.line }) ∧
      (¬ IsUtf8 (pieces.flatMap Piece.bytes) → s.Refuses .stringNotUtf8 ∧
        SourceFault.stringNotUtf8.message = "string literal is not valid UTF-8")) ∧
    ((¬ ∃ pieces after, Closes pieces after rest) → ∃ fault, s.Refuses fault) ∧
    (∀ text after, rest = (utf8 text).flatMap Literal.Escaping.sparing.spell ++ 0x22 :: after →
      ∃ comma, s.scan.1 = .ok { lexeme := .ascii text, comma, line := s.line }) ∧
    ∀ b, b ≠ 0x22 ∧ b ≠ 0x5C ∧ ¬ IsLineEnd b → Literal.Escaping.sparing.spell b = [b] := by
  refine ⟨?_, ?_, ?_, ?_⟩
  · rintro pieces after rfl
    have hbytes : (pieces.flatMap Piece.bytes ++ 0x22 :: after).map Signal.byte =
        (pieces.flatMap Piece.bytes).map .byte ++ .byte 0x22 :: after.map .byte := by
      simp
    refine ⟨isUtf8_pieces_iff pieces, ?_, ?_⟩
    · -- the scanner checks the decoded bytes, not those that were written
      intro hutf8
      obtain ⟨text, htext⟩ := (isUtf8_pieces_iff pieces).mp hutf8
      have hread := Literal.read_pieces htext.symm (after.map .byte)
      obtain ⟨comma, hscan⟩ := scan_of_read hmode hpending (hbytes ▸ hread)
      exact ⟨text, comma, htext, hscan⟩
    · intro hutf8
      have hnone := fromUTF8?_eq_none (mt (isUtf8_pieces_iff pieces).mpr hutf8)
      have hread : Literal.read ((pieces.flatMap Piece.bytes).map .byte ++
          .byte 0x22 :: after.map .byte) =
          (.error (.malformed .stringNotUtf8), after.map .byte) := by
        rw [Literal.read, Literal.body_pieces]
        dsimp only
        rw [hnone]
      exact ⟨refuses_of_read hmode hpending (hbytes ▸ hread), rfl⟩
  · intro hopen
    obtain hpieces | ⟨fault, after, hbody⟩ := Literal.body_bytes rest
    · exact absurd hpieces hopen
    · have hread : Literal.read (rest.map .byte) = (.error (.malformed fault), after) := by
        rw [Literal.read, hbody]
      exact ⟨fault, refuses_of_read hmode hpending hread⟩
  · rintro text after rfl
    have hread := Literal.Escaping.sparing.read_flatMap text (after.map .byte)
    rw [← List.map_cons, ← List.map_append] at hread
    exact scan_of_read hmode hpending hread
  · rintro b ⟨hquote, hbackslash, hline⟩
    obtain ⟨hfeed, hreturn⟩ : b ≠ 0x0A ∧ b ≠ 0x0D := by simpa [IsLineEnd] using hline
    simp [Literal.Escaping.sparing, hquote, hbackslash, hfeed, hreturn]

/-- A character of two bytes, a hash, a comma and a colon that stand for themselves, and escapes of
both kinds. The first of the two bytes alone is refused. -/
theorem scan_literal_of_pieces :
    let whole : List Piece :=
      [.plain 0xC3 (by decide), .plain 0xA9 (by decide), .plain 0x23 (by decide),
       .plain 0x2C (by decide), .plain 0x3A (by decide), .escape 0x6E 0x0A (by decide),
       .escape 0x22 0x22 (by decide), .code 7 14 true]
    let half : List Piece := [.plain 0xC3 (by decide)]
    let scanner (pieces : List Piece) : Scanner :=
      { source := .ofBytes (0x22 :: (pieces.flatMap Piece.bytes ++ 0x22 :: [0x20, 0x2C]))
        line := 3 }
    whole.flatMap Piece.bytes = utf8 "é#,:\\n\\\"\\x7E" ∧
      (∃ comma, (scanner whole).scan.1 = .ok { lexeme := .ascii "é#,:\n\"~", comma, line := 3 }) ∧
      (scanner half).scan.1 = .error (.source 3 .stringNotUtf8) := by
  intro whole half scanner
  have hwhole : utf8 "é#,:\\n\\\"\\x7E" = whole.flatMap Piece.bytes := by decide +kernel
  have hhalf : ¬ IsUtf8 (half.flatMap Piece.bytes) := by
    rintro ⟨text, htext⟩
    have hread := fromUTF8?_utf8 text
    rw [htext] at hread
    have hnone : String.fromUTF8? ⟨(half.flatMap Piece.bytes).toArray⟩ = none := by decide +kernel
    rw [hnone] at hread
    cases hread
  obtain ⟨-, hok, -⟩ := (scan_literal (s := scanner whole) rfl rfl).1 whole [0x20, 0x2C] rfl
  obtain ⟨-, -, hbad⟩ := (scan_literal (s := scanner half) rfl rfl).1 half [0x20, 0x2C] rfl
  obtain ⟨text, comma, htext, hscan⟩ := hok ⟨_, hwhole⟩
  obtain ⟨⟨herror, -⟩, -⟩ := hbad hhalf
  have hvalue : utf8 "é#,:\n\"~" = whole.map Piece.value := by decide +kernel
  obtain rfl := utf8_injective (htext.trans hvalue.symm)
  exact ⟨hwhole.symm, ⟨comma, hscan⟩, herror⟩

end Scanner

end AsmLinker
