import Mathlib
import AsmLinker.Proofs.Token.Concatenation

/-!
# How tokens are spelled

A word is a letter with letters and digits behind it. Every name that the scanner answers is a word,
and a word that it answers as an identifier is neither a register nor a mnemonic
(`Scanner.Yields.spelled`).

A literal is read back from any escaping of its bytes (`Literal.Escaping`), and more generally from
whatever is read back byte by byte (`Literal.read_flatMap`).
-/

namespace AsmLinker

/-! ## Bytes and characters -/

/-- The bytes of a text. -/
def utf8 (text : String) : List UInt8 :=
  text.toUTF8.data.toList

theorem utf8_append (s t : String) : utf8 (s ++ t) = utf8 s ++ utf8 t := by
  simp [utf8]

theorem utf8_ofList (cs : List Char) : utf8 (.ofList cs) = cs.flatMap String.utf8EncodeChar := by
  simp [utf8, List.utf8Encode]

/-- The bytes of a text are read as the text. -/
theorem fromUTF8?_utf8 (text : String) : String.fromUTF8? ⟨(utf8 text).toArray⟩ = some text :=
  dif_pos text.isValidUTF8

/-- The byte belongs to a character of its own. -/
def IsAscii (b : UInt8) : Prop :=
  b.toNat < 128

theorem utf8EncodeChar_ofUInt8 {b : UInt8} (h : IsAscii b) :
    String.utf8EncodeChar (Char.ofUInt8 b) = [b] := by
  have hval : (Char.ofUInt8 b).val.toNat = b.toNat := UInt8.toNat_toUInt32 b
  rw [String.utf8EncodeChar, hval, if_pos (Nat.le_of_lt_succ h), UInt8.ofNat_toNat]

/-- Every byte with a role in the language is a character of its own. -/
theorem isAscii_of_class {b : UInt8} (h : CharClass.of b ≠ .null) : IsAscii b := by
  have hall : ∀ n : Fin 256, CharClass.of (UInt8.ofNat n) ≠ .null → n.val < 128 := by
    decide +kernel
  have hb := hall ⟨b.toNat, b.toNat_lt⟩
  rw [UInt8.ofNat_toNat] at hb
  exact hb h

/-- The text of bytes that are characters of their own. -/
def spelling (bytes : List UInt8) : String :=
  .ofList (bytes.map Char.ofUInt8)

theorem utf8_spelling {bytes : List UInt8} (h : ∀ b ∈ bytes, IsAscii b) :
    utf8 (spelling bytes) = bytes := by
  rw [spelling, utf8_ofList]
  induction bytes with
  | nil => rfl
  | cons b rest ih =>
    obtain ⟨hb, hrest⟩ := List.forall_mem_cons.mp h
    rw [List.map_cons, List.flatMap_cons, utf8EncodeChar_ofUInt8 hb, ih hrest]
    rfl

theorem spelling_concat (bytes : List UInt8) (b : UInt8) :
    spelling (bytes ++ [b]) = (spelling bytes).push (Char.ofUInt8 b) := by
  apply String.toList_injective
  simp [spelling]

/-! ## Words -/

/-- The byte can begin a word. -/
def IsLetter (b : UInt8) : Prop :=
  CharClass.of b = .lowerAlpha ∨ CharClass.of b = .upperAlpha

/-- The byte can go on with a word. -/
def IsWordByte (b : UInt8) : Prop :=
  IsLetter b ∨ CharClass.of b = .digit

theorem IsWordByte.isAscii {b : UInt8} (h : IsWordByte b) : IsAscii b := by
  apply isAscii_of_class
  rcases h with (h | h) | h <;> rw [h] <;> decide

theorem isAscii_of_word {first : UInt8} {rest : List UInt8} (hfirst : IsLetter first)
    (hrest : ∀ b ∈ rest, IsWordByte b) : ∀ b ∈ first :: rest, IsAscii b :=
  List.forall_mem_cons.mpr ⟨IsWordByte.isAscii (.inl hfirst), fun b hb => (hrest b hb).isAscii⟩

/-- A letter with letters and digits behind it. -/
def IsWord (name : String) : Prop :=
  ∃ first rest, IsLetter first ∧ (∀ b ∈ rest, IsWordByte b) ∧ name = spelling (first :: rest)

theorem isWord_singleton {b : UInt8} (h : IsLetter b) :
    IsWord (.singleton (Char.ofUInt8 b)) := by
  refine ⟨b, [], h, by simp, ?_⟩
  apply String.toList_injective
  simp [spelling]

theorem IsWord.push {name : String} (h : IsWord name) {b : UInt8} (hb : IsWordByte b) :
    IsWord (name.push (Char.ofUInt8 b)) := by
  obtain ⟨first, rest, hfirst, hrest, rfl⟩ := h
  refine ⟨first, rest ++ [b], hfirst, ?_, (spelling_concat _ b).symm⟩
  intro other hmem
  rcases List.mem_append.mp hmem with hold | hnew
  · exact hrest other hold
  · rw [List.mem_singleton.mp hnew]
    exact hb

theorem utf8_injective {s t : String} (h : utf8 s = utf8 t) : s = t := by
  apply String.toByteArray_inj.mp
  apply ByteArray.ext
  exact Array.toList_inj.mp h

/-- Whether the bytes are a letter with letters and digits behind it. -/
def isWordBytes : List UInt8 → Bool
  | [] => false
  | b :: rest =>
    (CharClass.of b == .lowerAlpha || CharClass.of b == .upperAlpha) &&
      rest.all fun b => CharClass.of b == .lowerAlpha || CharClass.of b == .upperAlpha ||
        CharClass.of b == .digit

theorem isWord_of_isWordBytes {name : String} (h : isWordBytes (utf8 name) = true) :
    IsWord name := by
  rcases hbytes : utf8 name with _ | ⟨first, rest⟩
  · rw [hbytes] at h
    cases h
  · rw [hbytes] at h
    obtain ⟨hfirst, hrest⟩ : IsLetter first ∧ ∀ b ∈ rest, IsWordByte b := by
      simpa [isWordBytes, IsLetter, IsWordByte] using h
    refine ⟨first, rest, hfirst, hrest, utf8_injective ?_⟩
    rw [hbytes, utf8_spelling (isAscii_of_word hfirst hrest)]

/-! ## What the scanner answers is spelled -/

/-- The lexeme is one that a source can spell. -/
def Lexeme.Spelled : Lexeme → Prop
  | .label name => IsWord name
  | .identifier name => IsWord name ∧ ofWord name = .identifier name
  | .register index => index.toNat < 10
  | _ => True

/-- What a mode has read so far is spelled. -/
def Mode.Spelled : Mode → Prop
  | .identifier lexeme => IsWord lexeme
  | .held token => token.lexeme.Spelled
  | _ => True

/-- A word is one of the ten registers or is looked up. -/
theorem Lexeme.ofWord_eq (word : String) :
    (∃ index : UInt8, index.toNat < 10 ∧ ofWord word = .register index) ∨
      ofWord word = ofName word := by
  unfold ofWord
  split
  next d hword =>
    split
    next hdigit =>
      refine .inl ⟨_, ?_, rfl⟩
      have hle : d.toNat ≤ 57 := (Char.isDigit_iff_toNat.mp hdigit).2
      have hzero : '0'.toNat = 48 := rfl
      rw [UInt8.toNat_ofNat_of_lt']
      · omega
      · change d.toNat - '0'.toNat < 256
        omega
    · exact .inr rfl
  · exact .inr rfl

/-- An `x` and a decimal digit are a register. -/
theorem Lexeme.ofWord_register : ∀ digit : Fin 10,
    ofWord ("x" ++ toString digit.val) = .register (UInt8.ofNat digit) := by
  decide +kernel

theorem Lexeme.spelled_ofWord {word : String} (h : IsWord word) : (ofWord word).Spelled := by
  rcases ofWord_eq word with ⟨index, hindex, hregister⟩ | hname
  · rw [hregister]
    exact hindex
  · rw [hname]
    unfold ofName at hname ⊢
    split at hname
    next op hop => trivial
    next hnone => exact ⟨h, hname⟩

theorem Mode.spelled_of_complete {mode : Mode} {lexeme : Lexeme} (hmode : mode.Spelled)
    (h : mode.complete = .ok lexeme) : lexeme.Spelled := by
  cases mode with
  | identifier word =>
    cases h
    exact Lexeme.spelled_ofWord hmode
  | digits text =>
    rw [complete] at h
    split at h <;> cases h
    trivial
  | directive word =>
    rw [complete] at h
    split at h <;> cases h
    trivial
  | initial | held | skipping | exhausted => cases h

/-- What a step comes to is spelled. -/
def Step.Spelled : Step → Prop
  | .more mode _ => mode.Spelled
  | .emit token _ _ => token.lexeme.Spelled
  | .fail _ _ => True

namespace Scanner

variable {s s' t : Scanner} {mode mode' : Mode} {b : UInt8} {token : Token}

/-- A byte is added to a word only where it can go on with one. -/
theorem isWordByte_of_accumulate {word : String}
    (h : action (Mode.identifier word).state (CharClass.of b) = .accumulate) : IsWordByte b := by
  unfold IsWordByte IsLetter
  generalize CharClass.of b = c at h ⊢
  cases c <;> first | decide | cases h

theorem isLetter_of_beginIdentifier (h : action mode.state (CharClass.of b) = .beginIdentifier) :
    IsLetter b := by
  unfold IsLetter
  generalize CharClass.of b = c at h ⊢
  cases mode <;> cases c <;> first | decide | cases h

/-- A word ends as a label only where one has been begun. -/
theorem eq_identifier_of_label {c : CharClass} (h : action mode.state c = .label) :
    ∃ word, mode = .identifier word := by
  cases mode with
  | identifier word => exact ⟨word, rfl⟩
  | _ => cases c <;> cases h

/-- A step from what is spelled leads to what is spelled. -/
theorem step_spelled (hmode : mode.Spelled) (b : UInt8) : (s.step mode b).Spelled := by
  unfold step
  split
  case h_1 hact =>
    cases mode with
    | identifier word => exact IsWord.push hmode (isWordByte_of_accumulate hact)
    | held => exact hmode
    | _ => trivial
  case h_2 hact => exact isWord_singleton (isLetter_of_beginIdentifier hact)
  case h_3 | h_4 => trivial
  case h_5 | h_6 | h_7 =>
    split
    next lexeme hcomplete => exact Mode.spelled_of_complete hmode hcomplete
    next => trivial
  case h_8 hact =>
    obtain ⟨word, rfl⟩ := eq_identifier_of_label hact
    exact hmode
  case h_9 | h_10 =>
    split
    next token htoken =>
      cases mode <;> cases htoken
      exact hmode
    next => trivial
  case h_11 => exact hmode
  case h_12 =>
    unfold endLine
    split
    · trivial
    · dsimp only
      split
      · trivial
      · exact hmode
  case h_13 =>
    unfold comment
    split
    · trivial
    · exact hmode
  case h_14 =>
    unfold literal
    split <;> trivial
  case h_15 | h_16 => trivial

theorem spelled_of_finish (hmode : mode.Spelled) (hresting : mode.resting = false)
    (h : s.finish mode = (.ok token, s')) : token.lexeme.Spelled := by
  cases mode with
  | held =>
    cases h
    exact hmode
  | initial | skipping | exhausted => cases hresting
  | _ =>
    unfold finish at h
    dsimp only at h
    split at h
    next lexeme hcomplete =>
      cases h
      exact Mode.spelled_of_complete hmode hcomplete
    · cases h

/-- Every token that a scanner answers is spelled. -/
theorem Yields.spelled {answers : List (Except Error Token)} (h : Yields s mode answers)
    (hmode : mode.Spelled) : ∀ token, .ok token ∈ answers → token.lexeme.Spelled := by
  induction h with
  | finish => simp
  | @last s s' mode token hpending hresting hfinish =>
    intro other hmem
    obtain rfl : other = token := by simpa using hmem
    exact spelled_of_finish hmode hresting hfinish
  | @more s s' mode mode' b rest answers hpending hstep h ih =>
    have hspelled := step_spelled (s := { s with source := ⟨none, rest⟩ }) hmode b
    rw [hstep] at hspelled
    exact ih hspelled
  | @emit s s' mode b rest token answers hpending hstep h ih =>
    have hspelled := step_spelled (s := { s with source := ⟨none, rest⟩ }) hmode b
    rw [hstep] at hspelled
    intro other hmem
    rcases List.mem_cons.mp hmem with hfirst | hmem
    · rw [Except.ok.inj hfirst]
      exact hspelled
    · exact ih trivial other hmem
  | @unknown s s' mode b rest e answers hpending hstep hfatal h ih =>
    intro other hmem
    rcases List.mem_cons.mp hmem with hfirst | hmem
    · cases hfirst
    · apply ih _ other hmem
      split <;> trivial

/-- The token that ends a request is spelled. -/
theorem spelled_resume (hmode : mode.Spelled) (h : (s.resume mode).1 = .ok token) :
    token.lexeme.Spelled := by
  fun_induction resume s mode with
  | case1 s mode source hread =>
    by_cases hresting : mode.resting = true
    · -- nothing has been begun, so the end of the file is answered
      cases mode <;> cases hresting <;> cases h <;> trivial
    · exact spelled_of_finish hmode (Bool.not_eq_true _ ▸ hresting) (Prod.ext h rfl)
  | case2 => cases h
  | case3 s mode b source hread mode' s' hstep ih =>
    have hspelled := step_spelled (s := { s with source }) hmode b
    rw [hstep] at hspelled
    exact ih hspelled h
  | case4 s mode b source hread token' mode' s' hstep =>
    have hspelled := step_spelled (s := { s with source }) hmode b
    rw [hstep] at hspelled
    cases h
    exact hspelled
  | case5 => cases h

/-- Every token that a scanner answers is spelled, also if reads fail or a lexeme is refused. -/
theorem spelled_answers (hs : s.mode.resting = true) :
    ∀ token, .ok token ∈ s.answers → token.lexeme.Spelled := by
  induction hn : s.source.pending.length using Nat.strong_induction_on generalizing s with
  | h n ih =>
    intro token hmem
    rw [answers_eq hs, answersBehind] at hmem
    split at hmem
    · cases hmem
    next hend =>
      rcases List.mem_cons.mp hmem with hfirst | hlater
      · have hmode : s.mode.Spelled := by
          cases hmode : s.mode <;> first | trivial | simp [hmode, Mode.resting] at hs
        exact spelled_resume hmode hfirst.symm
      · have hlt := length_scan_lt hs (Bool.not_eq_true _ ▸ hend)
        exact ih _ (hn ▸ hlt) (resting_read hs) rfl token hlater

end Scanner

/-! ## Literals -/

namespace Literal

/-- A way to write each byte of a literal so that it is read back. -/
structure Escaping where
  /-- The bytes that are written for a byte. -/
  spell : UInt8 → List UInt8
  /-- They are read as that byte, whatever follows. -/
  body_spell : ∀ b rest, body ((spell b).map .byte ++ rest) = prepend b (body rest)

theorem ofUInt8_injective {b c : UInt8} (h : Char.ofUInt8 b = Char.ofUInt8 c) : b = c := by
  have hval : b.toUInt32.toNat = c.toUInt32.toNat := congrArg Char.toNat h
  rw [UInt8.toNat_toUInt32, UInt8.toNat_toUInt32] at hval
  exact UInt8.toNat_inj.mp hval

/-- An escape behind a backslash stands for what it is decoded to. -/
theorem body_of_escape {input rest : List Signal} {decoded : UInt8}
    (h : escape input = (.ok decoded, rest)) :
    body (.byte 0x5C :: input) = prepend decoded (body rest) := by
  rw [body, if_neg (by decide), if_neg (by decide), if_pos (by decide)]
  split
  next heq =>
    rw [h] at heq
    cases heq
  next heq =>
    rw [h] at heq
    cases heq
    rfl

/-- A byte behind a backslash that is an escape of one letter. -/
theorem body_escaped {b decoded : UInt8} (hx : Char.ofUInt8 b ≠ 'x') (hline : isLineEnd b = false)
    (h : escaped? b = some decoded) (rest : List Signal) :
    body (.byte 0x5C :: .byte b :: rest) = prepend decoded (body rest) := by
  apply body_of_escape
  rw [escape, if_neg hx, hline, if_neg Bool.false_ne_true, h]

/-- A byte that is no quote, no backslash and no end of a line stands for itself. -/
theorem body_plain {b : UInt8} (hquote : b ≠ 0x22) (hbackslash : b ≠ 0x5C)
    (hline : isLineEnd b = false) (rest : List Signal) :
    body (.byte b :: rest) = prepend b (body rest) := by
  have hquote' : Char.ofUInt8 b ≠ '"' := fun h => hquote (ofUInt8_injective h)
  have hbackslash' : Char.ofUInt8 b ≠ '\\' := fun h => hbackslash (ofUInt8_injective h)
  rw [body, if_neg hquote', hline, if_neg Bool.false_ne_true, if_neg hbackslash']

/-- Only what cannot stand for itself is escaped: a quote, a backslash and the ends of lines. -/
def Escaping.sparing : Escaping where
  spell b :=
    if b = 0x22 then [0x5C, 0x22]
    else if b = 0x5C then [0x5C, 0x5C]
    else if b = 0x0A then [0x5C, 0x6E]
    else if b = 0x0D then [0x5C, 0x72]
    else [b]
  body_spell b rest := by
    split
    next h =>
      subst h
      exact body_escaped (by decide) (by decide) (by decide) rest
    split
    next h =>
      subst h
      exact body_escaped (by decide) (by decide) (by decide) rest
    split
    next h =>
      subst h
      exact body_escaped (by decide) (by decide) (by decide) rest
    split
    next h =>
      subst h
      exact body_escaped (by decide) (by decide) (by decide) rest
    next hquote hbackslash hfeed hreturn =>
      exact body_plain hquote hbackslash (by simp [isLineEnd, hfeed, hreturn]) rest

/-- If each element of a list is written so that it is read as its value, the list is read as its
values up to a closing quote. -/
theorem body_flatMap {α : Type} (spell : α → List UInt8) (value : α → UInt8)
    (h : ∀ a rest, body ((spell a).map .byte ++ rest) = prepend (value a) (body rest))
    (elements : List α) (rest : List Signal) :
    body ((elements.flatMap spell).map .byte ++ .byte 0x22 :: rest) =
      (.ok (elements.map value), rest) := by
  induction elements with
  | nil =>
    rw [List.flatMap_nil, List.map_nil, List.nil_append, body]
    rfl
  | cons element more ih =>
    rw [List.flatMap_cons, List.map_append, List.append_assoc, h, ih]
    rfl

theorem read_flatMap {α : Type} (spell : α → List UInt8) (value : α → UInt8)
    (h : ∀ a rest, body ((spell a).map .byte ++ rest) = prepend (value a) (body rest))
    {elements : List α} {text : String} (htext : elements.map value = utf8 text)
    (rest : List Signal) :
    read ((elements.flatMap spell).map .byte ++ .byte 0x22 :: rest) = (.ok text, rest) := by
  rw [read, body_flatMap spell value h, htext]
  dsimp only
  rw [fromUTF8?_utf8]

namespace Escaping

theorem read_flatMap (e : Escaping) (text : String) (rest : List Signal) :
    read (((utf8 text).flatMap e.spell).map .byte ++ .byte 0x22 :: rest) = (.ok text, rest) :=
  Literal.read_flatMap e.spell id e.body_spell (List.map_id _) rest

end Escaping

end Literal

namespace Scanner

theorem step_quote (s : Scanner) : s.step .initial 0x22 = s.literal := by
  rw [step, show CharClass.of 0x22 = .doubleQuote by decide]
  rfl

end Scanner

end AsmLinker
