import Mathlib
import AsmLinker.Proofs.Token.Spelling

/-!
# Sources put together from items

What can be written in a source, said without the scanner: words, labels, directives, numerals and
literals are items, and blanks, commas, line ends and comments separate them. A `Rendering` is a
source that is put together from items with separators between them, and `Rendering.places` says for
each item on which line it stands and whether a comma follows it.

A literal may be written in any way: every byte that can stand for itself does so or is escaped, by
a letter or by its code (`Rendering.Piece`). It is read back as the bytes that its pieces stand for
(`Literal.read_pieces`).
-/

namespace AsmLinker

namespace Rendering

/-! ## Bytes -/

/-- A letter or an underscore. -/
def IsNameStart (b : UInt8) : Prop :=
  (Char.ofUInt8 b).isAlpha = true ∨ Char.ofUInt8 b = '_'

/-- A letter, a decimal digit or an underscore. -/
def IsNameByte (b : UInt8) : Prop :=
  (Char.ofUInt8 b).isAlphanum = true ∨ Char.ofUInt8 b = '_'

/-- A decimal digit. -/
def IsDigit (b : UInt8) : Prop :=
  (Char.ofUInt8 b).isDigit = true

/-- A space or a tabulator. -/
def IsBlank (b : UInt8) : Prop :=
  b = 0x20 ∨ b = 0x09

/-- A line feed or a carriage return. -/
def IsLineEnd (b : UInt8) : Prop :=
  b = 0x0A ∨ b = 0x0D

instance : DecidablePred IsNameStart := fun _ => inferInstanceAs (Decidable (_ ∨ _))

instance : DecidablePred IsNameByte := fun _ => inferInstanceAs (Decidable (_ ∨ _))

instance : DecidablePred IsDigit := fun _ => inferInstanceAs (Decidable (_ = _))

instance : DecidablePred IsBlank := fun _ => inferInstanceAs (Decidable (_ ∨ _))

instance : DecidablePred IsLineEnd := fun _ => inferInstanceAs (Decidable (_ ∨ _))

/-- What holds of the 256 bytes holds of every byte. -/
theorem forall_byte {P : UInt8 → Prop} (h : ∀ n : Fin 256, P (UInt8.ofNat n)) : ∀ b, P b := by
  intro b
  have hb := h ⟨b.toNat, b.toNat_lt⟩
  rwa [UInt8.ofNat_toNat] at hb

/-- The classes of the bytes of names and numbers, and of line ends. -/
theorem class_of_byte : ∀ b, (IsNameStart b → CharClass.of b = .lowerAlpha ∨
      CharClass.of b = .upperAlpha) ∧
    (IsNameByte b → (CharClass.of b = .lowerAlpha ∨ CharClass.of b = .upperAlpha) ∨
      CharClass.of b = .digit) ∧
    (IsDigit b → CharClass.of b = .digit) ∧ (CharClass.of b = .newLine ↔ IsLineEnd b) := by
  apply forall_byte
  decide +kernel

theorem isLetter_of_isNameStart (b : UInt8) (h : IsNameStart b) : IsLetter b :=
  (class_of_byte b).1 h

theorem isWordByte_of_isNameByte (b : UInt8) (h : IsNameByte b) : IsWordByte b :=
  (class_of_byte b).2.1 h

theorem class_of_isDigit (b : UInt8) (h : IsDigit b) : CharClass.of b = .digit :=
  (class_of_byte b).2.2.1 h

theorem class_of_isBlank {b : UInt8} (h : IsBlank b) : CharClass.of b = .whitespace := by
  rcases h with rfl | rfl <;> decide

theorem class_eq_newLine_iff (b : UInt8) : CharClass.of b = .newLine ↔ IsLineEnd b :=
  (class_of_byte b).2.2.2

/-! ## Items -/

/-- A letter or an underscore with letters, digits and underscores behind it. -/
structure Name where
  /-- The first byte. -/
  first : UInt8
  /-- The bytes behind it. -/
  rest : List UInt8
  /-- A name does not begin with a digit. -/
  first_start : IsNameStart first
  /-- Behind the first byte it may hold digits. -/
  rest_name : ∀ b ∈ rest, IsNameByte b

/-- The bytes of a name. -/
def Name.bytes (name : Name) : List UInt8 :=
  name.first :: name.rest

/-- The text of a name. -/
def Name.text (name : Name) : String :=
  spelling name.bytes

/-- The number that decimal digits spell, the most significant one first. -/
def decimal (bytes : List UInt8) : Nat :=
  Nat.ofDigits 10 (bytes.reverse.map fun b => b.toNat - 0x30)

/-- The letters of the escapes, and the bytes that they stand for. -/
def escapeLetters : List (UInt8 × UInt8) :=
  [('n'.toUInt8, 0x0A), ('t'.toUInt8, 0x09), ('r'.toUInt8, 0x0D), ('0'.toUInt8, 0x00),
   ('a'.toUInt8, 0x07), ('b'.toUInt8, 0x08), ('f'.toUInt8, 0x0C), ('v'.toUInt8, 0x0B),
   ('\\'.toUInt8, 0x5C), ('"'.toUInt8, 0x22), ('\''.toUInt8, 0x27)]

/-- A hexadecimal digit in either case. -/
def hexByte (upper : Bool) (digit : Nat) : UInt8 :=
  (if upper then (Nat.digitChar digit).toUpper else Nat.digitChar digit).toUInt8

/-- One byte of a literal as it is written. -/
inductive Piece where
  /-- A byte that stands for itself: no quote, no backslash and no line end. -/
  | plain (b : UInt8) (h : b ≠ 0x22 ∧ b ≠ 0x5C ∧ ¬ IsLineEnd b)
  /-- A backslash and a letter. -/
  | escape (letter value : UInt8) (h : (letter, value) ∈ escapeLetters)
  /-- A backslash, an `x` and the code of an ASCII character. -/
  | code (high : Fin 8) (low : Fin 16) (upper : Bool)

/-- How a piece is written. -/
def Piece.bytes : Piece → List UInt8
  | .plain b _ => [b]
  | .escape letter _ _ => [0x5C, letter]
  | .code high low upper => [0x5C, 0x78, hexByte upper high, hexByte upper low]

/-- The byte that a piece stands for. -/
def Piece.value : Piece → UInt8
  | .plain b _ => b
  | .escape _ value _ => value
  | .code high low _ => UInt8.ofNat (16 * high + low)

/-- What is written between separators. -/
inductive Item where
  /-- A name. -/
  | word (name : Name)
  /-- A name with a colon directly behind it. -/
  | label (name : Name)
  /-- A period with letters, digits and underscores directly behind it. -/
  | directive (bytes : List UInt8) (hne : bytes ≠ []) (hbytes : ∀ b ∈ bytes, IsNameByte b)
  /-- Decimal digits, possibly with zeros in front. -/
  | digits (bytes : List UInt8) (hne : bytes ≠ []) (hbytes : ∀ b ∈ bytes, IsDigit b)
      (hvalue : decimal bytes < 2 ^ 64)
  /-- A text in quotes, in any spelling of its bytes. -/
  | literal (pieces : List Piece) (text : String) (htext : pieces.map Piece.value = utf8 text)

namespace Item

/-- How an item is written. -/
def bytes : Item → List UInt8
  | .word name => name.bytes
  | .label name => name.bytes ++ [0x3A]
  | .directive bytes _ _ => 0x2E :: bytes
  | .digits bytes _ _ _ => bytes
  | .literal pieces _ _ => 0x22 :: (pieces.flatMap Piece.bytes ++ [0x22])

/-- The text of an item, without the colon of a label, the period of a directive and the quotes of a
literal. -/
def text : Item → String
  | .word name => name.text
  | .label name => name.text
  | .directive bytes _ _ => spelling bytes
  | .digits bytes _ _ _ => spelling bytes
  | .literal _ text _ => text

/-- What an item is to be read as. A word is a register if it is an `x` and one digit, otherwise an
opcode if it is a mnemonic, and otherwise an identifier. -/
inductive ReadAs : Item → Lexeme → Prop
  | register (name : Name) (digit : Fin 10) (h : name.text = "x" ++ toString digit.val) :
      ReadAs (.word name) (.register (UInt8.ofNat digit))
  | opcode (name : Name) (op : Opcode) (h : name.text = op.mnemonic)
      (hregister : ∀ digit : Fin 10, name.text ≠ "x" ++ toString digit.val) :
      ReadAs (.word name) (.opcode op)
  | identifier (name : Name) (hopcode : ∀ op : Opcode, name.text ≠ op.mnemonic)
      (hregister : ∀ digit : Fin 10, name.text ≠ "x" ++ toString digit.val) :
      ReadAs (.word name) (.identifier name.text)
  | label (name : Name) : ReadAs (.label name) (.label name.text)
  | directive (bytes : List UInt8) (hne : bytes ≠ []) (hbytes : ∀ b ∈ bytes, IsNameByte b) :
      ReadAs (.directive bytes hne hbytes) (.directive (spelling bytes))
  | digits (bytes : List UInt8) (hne : bytes ≠ []) (hbytes : ∀ b ∈ bytes, IsDigit b)
      (hvalue : decimal bytes < 2 ^ 64) :
      ReadAs (.digits bytes hne hbytes hvalue)
        (.digits (spelling bytes) (UInt64.ofNat (decimal bytes)))
  | literal (pieces : List Piece) (text : String) (htext : pieces.map Piece.value = utf8 text) :
      ReadAs (.literal pieces text htext) (.ascii text)

end Item

/-! ## Separators -/

/-- What stands between items. -/
inductive Separator where
  | blank (b : UInt8) (h : IsBlank b)
  | comma
  | lineEnd (b : UInt8) (h : IsLineEnd b)
  /-- A hash, anything else up to the end of the line, and that line end. -/
  | comment (body : List UInt8) (hbody : ∀ b ∈ body, ¬ IsLineEnd b) (b : UInt8) (h : IsLineEnd b)

namespace Separator

/-- How a separator is written. -/
def bytes : Separator → List UInt8
  | .blank b _ => [b]
  | .comma => [0x2C]
  | .lineEnd b _ => [b]
  | .comment body _ b _ => 0x23 :: (body ++ [b])

/-- How separators are written. -/
def render (gap : List Separator) : List UInt8 :=
  gap.flatMap bytes

@[simp] theorem render_blank (b : UInt8) (h : IsBlank b) (rest : List Separator) :
    render (.blank b h :: rest) = b :: render rest := rfl

@[simp] theorem render_comma (rest : List Separator) :
    render (.comma :: rest) = 0x2C :: render rest := rfl

@[simp] theorem render_lineEnd (b : UInt8) (h : IsLineEnd b) (rest : List Separator) :
    render (.lineEnd b h :: rest) = b :: render rest := rfl

@[simp] theorem render_comment (body : List UInt8) (hbody : ∀ b ∈ body, ¬ IsLineEnd b)
    (b : UInt8) (h : IsLineEnd b) (rest : List Separator) :
    render (.comment body hbody b h :: rest) = 0x23 :: (body ++ b :: render rest) := by
  simp [render, bytes]

/-- Whether a comma comes first among separators, blanks aside. -/
def commaFirst : List Separator → Bool
  | .comma :: _ => true
  | .blank _ _ :: rest => commaFirst rest
  | _ => false

end Separator

/-- The number of line ends. A line feed directly behind a carriage return ends the same line. -/
def lineBreaks : List UInt8 → Nat
  | [] => 0
  | b :: rest =>
    (if b = 0x0A ∨ b = 0x0D ∧ rest.head? ≠ some 0x0A then 1 else 0) + lineBreaks rest

/-- Items with what stands behind each of them. -/
def render (items : List (Item × List Separator)) : List UInt8 :=
  items.flatMap fun entry => entry.1.bytes ++ Separator.render entry.2

/-- An item in its place. -/
structure Place where
  /-- The item. -/
  item : Item
  /-- Whether a comma follows. -/
  comma : Bool
  /-- The line on which the item stands. -/
  line : Nat

/-- Items in their places behind what stands before them. -/
def placesBehind (before : List UInt8) : List (Item × List Separator) → List Place
  | [] => []
  | (item, gap) :: rest =>
    { item, comma := Separator.commaFirst gap, line := 1 + lineBreaks before } ::
      placesBehind (before ++ (item.bytes ++ Separator.render gap)) rest

end Rendering

open Rendering in
/-- A source that is put together from items. -/
structure Rendering where
  /-- What stands before the first item. -/
  lead : List Separator
  /-- The items, each with what stands behind it. -/
  items : List (Item × List Separator)
  /-- Two items are separated. -/
  separated : ∀ entry ∈ items.dropLast, entry.2 ≠ []

namespace Rendering

/-- The bytes of the source. -/
def bytes (r : Rendering) : List UInt8 :=
  Separator.render r.lead ++ render r.items

/-- The items in their places. -/
def places (r : Rendering) : List Place :=
  placesBehind (Separator.render r.lead) r.items

/-- The token is that of an item in its place. -/
structure Place.Gives (place : Place) (token : Token) : Prop where
  /-- It is read as the kind of item demands. -/
  lexeme : place.item.ReadAs token.lexeme
  /-- It has the text of the item. -/
  text : token.text = place.item.text
  /-- It knows whether a comma follows. -/
  comma : token.comma = place.comma
  /-- It knows its line. -/
  line : token.line = place.line

/-! ## Lines -/

/-- Bytes that hold no line end. -/
def Unbroken (bytes : List UInt8) : Prop :=
  ∀ b ∈ bytes, ¬ IsLineEnd b

/-- Whether a line feed comes first does not depend on what is appended, if that does not begin with
one. -/
theorem head?_append_ne_iff {more : List UInt8} (h : more.head? ≠ some 0x0A) (bytes : List UInt8) :
    (bytes ++ more).head? ≠ some 0x0A ↔ bytes.head? ≠ some 0x0A := by
  cases bytes <;> simp [h]

theorem lineBreaks_append {bytes more : List UInt8} (h : more.head? ≠ some 0x0A) :
    lineBreaks (bytes ++ more) = lineBreaks bytes + lineBreaks more := by
  induction bytes with
  | nil => rw [List.nil_append, lineBreaks, Nat.zero_add]
  | cons b rest ih =>
    rw [List.cons_append, lineBreaks, lineBreaks, ih]
    simp only [head?_append_ne_iff h, Nat.add_assoc]

/-- Bytes that hold no line end do not count. -/
theorem lineBreaks_unbroken {bytes : List UInt8} (h : Unbroken bytes) (more : List UInt8) :
    lineBreaks (bytes ++ more) = lineBreaks more := by
  induction bytes with
  | nil => rfl
  | cons b rest ih =>
    obtain ⟨hb, hrest⟩ := List.forall_mem_cons.mp h
    have hcounted : ¬ (b = 0x0A ∨ b = 0x0D ∧ (rest ++ more).head? ≠ some 0x0A) := by
      rintro (hfeed | ⟨hreturn, -⟩)
      · exact hb (.inl hfeed)
      · exact hb (.inr hreturn)
    rw [List.cons_append, lineBreaks, if_neg hcounted, Nat.zero_add, ih hrest]

theorem lineBreaks_cons {b : UInt8} (h : ¬ IsLineEnd b) (rest : List UInt8) :
    lineBreaks (b :: rest) = lineBreaks rest :=
  lineBreaks_unbroken (List.forall_mem_singleton.mpr h) rest

theorem not_isLineEnd {b : UInt8} (h : CharClass.of b ≠ .newLine) : ¬ IsLineEnd b :=
  fun hb => h ((class_eq_newLine_iff b).mpr hb)

theorem not_isLineEnd_of_isBlank {b : UInt8} (h : IsBlank b) : ¬ IsLineEnd b :=
  not_isLineEnd (by rw [class_of_isBlank h]; decide)

theorem not_isLineEnd_of_isWordByte {b : UInt8} (h : IsWordByte b) : ¬ IsLineEnd b := by
  apply not_isLineEnd
  rcases h with (h | h) | h <;> rw [h] <;> decide

theorem Name.isWordByte (name : Name) : ∀ b ∈ name.bytes, IsWordByte b := by
  intro b hb
  rcases List.mem_cons.mp hb with rfl | hb
  · exact .inl (isLetter_of_isNameStart _ name.first_start)
  · exact isWordByte_of_isNameByte b (name.rest_name b hb)

/-- A hexadecimal digit ends no line, is an ASCII character and is read as the digit that it is. -/
theorem hexByte_spec : ∀ upper, ∀ digit : Fin 16, ¬ IsLineEnd (hexByte upper digit) ∧
    IsAscii (hexByte upper digit) ∧
    Numeral.digit? (Char.ofUInt8 (hexByte upper digit)) = some digit.val := by
  unfold IsAscii
  decide

/-- The letters of the escapes are known as such. -/
theorem escaped_of_mem {letter value : UInt8} (h : (letter, value) ∈ escapeLetters) :
    Char.ofUInt8 letter ≠ 'x' ∧ ¬ IsLineEnd letter ∧ Literal.escaped? letter = some value := by
  have hall : escapeLetters.all (fun entry => Char.ofUInt8 entry.1 ≠ 'x' ∧
      ¬ IsLineEnd entry.1 ∧ Literal.escaped? entry.1 = some entry.2) = true := by
    decide +kernel
  exact of_decide_eq_true (List.all_eq_true.mp hall _ h)

theorem Piece.unbroken (piece : Piece) : Unbroken piece.bytes := by
  cases piece with
  | plain b h => simpa [Unbroken, Piece.bytes] using h.2.2
  | escape letter value h =>
    simpa [Unbroken, Piece.bytes] using ⟨by decide, (escaped_of_mem h).2.1⟩
  | code high low upper =>
    obtain ⟨hhigh, -⟩ := hexByte_spec upper (high.castLE (by decide))
    obtain ⟨hlow, -⟩ := hexByte_spec upper low
    simpa [Unbroken, Piece.bytes] using ⟨by decide, by decide, hhigh, hlow⟩

/-- No item goes over the end of a line. -/
theorem Item.unbroken (item : Item) : Unbroken item.bytes := by
  have hname : ∀ name : Name, Unbroken name.bytes := fun name b hb =>
    not_isLineEnd_of_isWordByte (name.isWordByte b hb)
  cases item with
  | word name => exact hname name
  | label name =>
    intro b hb
    rcases List.mem_append.mp hb with hb | hb
    · exact hname name b hb
    · rw [List.mem_singleton.mp hb]
      decide
  | directive bytes hne hbytes =>
    intro b hb
    rcases List.mem_cons.mp hb with rfl | hb
    · decide
    · exact not_isLineEnd_of_isWordByte (isWordByte_of_isNameByte b (hbytes b hb))
  | digits bytes hne hbytes hvalue =>
    intro b hb
    exact not_isLineEnd_of_isWordByte (.inr (class_of_isDigit b (hbytes b hb)))
  | literal pieces text htext =>
    intro b hb
    simp only [Item.bytes, List.mem_cons, List.mem_append, List.mem_flatMap, List.not_mem_nil,
      or_false] at hb
    rcases hb with rfl | ⟨piece, -, hb⟩ | rfl
    · decide
    · exact piece.unbroken b hb
    · decide

/-- What can stand behind separators: nothing, or a byte that is no separator. -/
def Begins (bytes : List UInt8) : Prop :=
  ∀ b ∈ bytes.head?, CharClass.of b ≠ .whitespace ∧ CharClass.of b ≠ .comma ∧ ¬ IsLineEnd b

theorem Begins.head?_ne {bytes : List UInt8} (h : Begins bytes) : bytes.head? ≠ some 0x0A := by
  intro hfeed
  exact (h _ hfeed).2.2 (.inl rfl)

/-- An item does not begin with a separator. -/
theorem Item.begins (item : Item) (after : List UInt8) : Begins (item.bytes ++ after) := by
  have hword : ∀ {b : UInt8}, IsWordByte b → CharClass.of b ≠ .whitespace ∧
      CharClass.of b ≠ .comma := by
    intro b hb
    rcases hb with (h | h) | h <;> rw [h] <;> decide
  have hunbroken := item.unbroken
  suffices h : ∃ b rest, item.bytes = b :: rest ∧ CharClass.of b ≠ .whitespace ∧
      CharClass.of b ≠ .comma by
    obtain ⟨b, rest, hbytes, hblank, hcomma⟩ := h
    rw [hbytes] at hunbroken ⊢
    rintro _ ⟨⟩
    exact ⟨hblank, hcomma, hunbroken b List.mem_cons_self⟩
  cases item with
  | word name => exact ⟨_, _, rfl, hword (name.isWordByte _ List.mem_cons_self)⟩
  | label name => exact ⟨_, _, rfl, hword (name.isWordByte _ List.mem_cons_self)⟩
  | directive bytes hne hbytes => exact ⟨_, _, rfl, by decide, by decide⟩
  | digits bytes hne hbytes hvalue =>
    obtain ⟨b, rest, rfl⟩ := List.exists_cons_of_ne_nil hne
    exact ⟨b, rest, rfl, hword (.inr (class_of_isDigit b (hbytes b List.mem_cons_self)))⟩
  | literal pieces text htext => exact ⟨_, _, rfl, by decide, by decide⟩

theorem begins_render (items : List (Item × List Separator)) : Begins (render items) := by
  cases items with
  | nil => rintro _ ⟨⟩
  | cons entry rest =>
    rw [render, List.flatMap_cons, List.append_assoc]
    exact entry.1.begins _

/-! ## What items are read as -/

theorem toList_spelling (bytes : List UInt8) :
    (spelling bytes).toList = bytes.map Char.ofUInt8 := by
  simp [spelling]

/-- An `x` and one digit are a register. -/
theorem eq_register_of_digit {text : String} {d : Char} (htext : text.toList = ['x', d])
    (hd : d.isDigit = true) : ∃ digit : Fin 10, text = "x" ++ toString digit.val := by
  obtain ⟨hge, hle⟩ : 48 ≤ d.toNat ∧ d.toNat ≤ 57 := Char.isDigit_iff_toNat.mp hd
  have hdigit : ∀ digit : Fin 10,
      ("x" ++ toString digit.val).toList = ['x', Nat.digitChar digit] := by
    decide +kernel
  have hchar : ∀ digit : Fin 10, (Nat.digitChar digit).toNat = 48 + digit.val := by decide
  refine ⟨⟨d.toNat - 48, by omega⟩, String.toList_injective ?_⟩
  rw [htext, hdigit, List.cons.injEq, List.cons.injEq]
  refine ⟨rfl, Char.toNat_inj.mp ?_, rfl⟩
  rw [hchar]
  exact (Nat.add_sub_cancel' hge).symm

/-- A word is looked up as it should be. -/
theorem Item.readAs_ofWord (name : Name) : ReadAs (.word name) (.ofWord name.text) := by
  by_cases hregister : ∃ digit : Fin 10, name.text = "x" ++ toString digit.val
  · obtain ⟨digit, htext⟩ := hregister
    rw [htext, Lexeme.ofWord_register]
    exact .register name digit htext
  · have hname : Lexeme.ofWord name.text = .ofName name.text := by
      unfold Lexeme.ofWord
      split
      next d htext => exact if_neg fun hd => hregister (eq_register_of_digit htext hd)
      · rfl
    rw [hname]
    unfold Lexeme.ofName
    split
    next op hop =>
      exact .opcode name op (Opcode.ofMnemonic?_eq_some_iff.mp hop).symm (not_exists.mp hregister)
    next hnone =>
      refine .identifier name ?_ (not_exists.mp hregister)
      intro op hop
      rw [Opcode.ofMnemonic?_eq_some_iff.mpr hop.symm] at hnone
      cases hnone

/-- Decimal digits are read as the number that they spell. -/
theorem value_spelling {bytes : List UInt8} (h : ∀ b ∈ bytes, IsDigit b) :
    Numeral.value 10 (spelling bytes).toList = decimal bytes := by
  have hdigit : ∀ b, IsDigit b → Numeral.digit? (Char.ofUInt8 b) = some (b.toNat - 0x30) := by
    apply forall_byte
    decide +kernel
  rw [toList_spelling]
  induction bytes using List.reverseRecOn with
  | nil => rfl
  | append_singleton rest b ih =>
    -- the last digit is the least significant one
    have hrest := ih fun c hc => h c (List.mem_append_left _ hc)
    rw [List.map_append, List.map_singleton, Numeral.value_concat, hrest, hdigit b (h b (by simp)),
      decimal, decimal, List.reverse_append, List.reverse_singleton, List.singleton_append,
      List.map_cons, Nat.ofDigits_cons, Option.getD_some, Nat.mul_comm, Nat.add_comm]

/-- What an item is read as has its text. -/
theorem Item.ReadAs.text_eq {item : Item} {lexeme : Lexeme} (h : item.ReadAs lexeme) :
    lexeme.text = item.text := by
  cases h with
  | register name digit h =>
    have hdigit : (UInt8.ofNat digit).toNat = digit :=
      UInt8.toNat_ofNat_of_lt' (digit.isLt.trans (by decide))
    rw [Lexeme.text, hdigit]
    exact h.symm
  | opcode name op h => exact h.symm
  | identifier | label | directive | digits | literal => rfl

/-- What an item is read as does not end a line. -/
theorem Item.ReadAs.endsLine_eq {item : Item} {lexeme : Lexeme} (h : item.ReadAs lexeme)
    (comma : Bool) (line : Nat) : Token.endsLine { lexeme, comma, line } = false := by
  cases h <;> rfl

end Rendering

/-! ## Literals -/

namespace Literal

open Rendering

theorem isLineEnd_eq_false {b : UInt8} (h : ¬ IsLineEnd b) : isLineEnd b = false := by
  simpa [isLineEnd, IsLineEnd] using h

/-- A piece is read as the byte that it stands for, whatever follows. -/
theorem body_piece (piece : Piece) (rest : List Signal) :
    body (piece.bytes.map .byte ++ rest) = prepend piece.value (body rest) := by
  cases piece with
  | plain b h => exact body_plain h.1 h.2.1 (isLineEnd_eq_false h.2.2) rest
  | escape letter value h =>
    obtain ⟨hx, hline, hescaped⟩ := escaped_of_mem h
    exact body_escaped hx (isLineEnd_eq_false hline) hescaped rest
  | code high low upper =>
    have hhigh : Numeral.digit? (Char.ofUInt8 (hexByte upper high)) = some high.val :=
      (hexByte_spec upper (high.castLE (by decide))).2.2
    obtain ⟨-, -, hlow⟩ := hexByte_spec upper low
    have hascii : ¬ high.val * 16 + low.val > 0x7F := by omega
    apply body_of_escape
    change escape (.byte 0x78 :: .byte (hexByte upper high) :: .byte (hexByte upper low) :: rest) =
      _
    rw [escape, if_pos (by decide), hexEscape, hexDigit, hhigh]
    dsimp only
    rw [hexDigit, hlow]
    dsimp only
    rw [if_neg hascii, Nat.mul_comm]
    rfl

theorem body_pieces (pieces : List Piece) (rest : List Signal) :
    body ((pieces.flatMap Piece.bytes).map .byte ++ .byte 0x22 :: rest) =
      (.ok (pieces.map Piece.value), rest) :=
  body_flatMap Piece.bytes Piece.value body_piece pieces rest

/-- A literal is read back from any spelling of its bytes. -/
theorem read_pieces {pieces : List Piece} {text : String}
    (h : pieces.map Piece.value = utf8 text) (rest : List Signal) :
    read ((pieces.flatMap Piece.bytes).map .byte ++ .byte 0x22 :: rest) = (.ok text, rest) :=
  read_flatMap Piece.bytes Piece.value body_piece h rest

end Literal

end AsmLinker
