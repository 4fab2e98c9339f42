import Mathlib
import AsmLinker.Proofs.Program.Concatenation
import AsmLinker.Proofs.Token.Scanning

/-!
# Unknown characters between lexemes

An unknown character is reported and skipped. Put between two blanks in a source that can be
assembled, it changes nothing but the number of warnings, with one exception: it must not come
between an operand and the comma behind it. The token of the operand waits for its comma only over
blanks, so that the comma is lost and the instruction is refused
(`Assembly.assemble_unknown_character`).

The answers to a source with such a character are those to the source without it, one error more,
and possibly a token that has lost its comma (`Dissection.partAnswers_append`). Only operands depend
on their commas in a source that can be assembled (`Assembly.Takes.withoutComma`), and whether a
token is an operand can be seen from the mnemonics on its line (`Assembly.isOperands_of_feedAll`).
-/

namespace AsmLinker

open Rendering

/-- Whether the lexeme is a mnemonic. -/
def Lexeme.isOpcode : Lexeme → Bool
  | .opcode _ => true
  | _ => false

namespace Dissection

variable {before after : List Part} {tail : List UInt8} {b b₁ b₂ u : UInt8} {hb : IsBlank b}

/-! ## An unknown character in place of a blank -/

theorem StopsAt.replace {P : UInt8 → Prop} {bytes rest rest₁ : List UInt8} (hP : P b → P b₁)
    (h : StopsAt P (bytes ++ b :: rest)) : StopsAt P (bytes ++ b₁ :: rest₁) := by
  cases bytes with
  | nil => exact stopsAt_cons.mpr (hP (stopsAt_cons.mp h))
  | cons d more => exact stopsAt_cons.mpr (stopsAt_cons.mp h)

/-- What ends before a blank ends before any other blank. -/
theorem Part.Ends.replace {part : Part} {bytes rest rest₁ : List UInt8} (hb : IsBlank b)
    (hb₁ : IsBlank b₁) (h : part.Ends (bytes ++ b :: rest)) : part.Ends (bytes ++ b₁ :: rest₁) := by
  have hline := not_isLineEnd_of_isBlank hb
  have hline₁ := not_isLineEnd_of_isBlank hb₁
  cases part with
  | item => exact h.imp_right (StopsAt.replace fun _ => .inl hb₁)
  | malformed => exact StopsAt.replace (fun _ => .inl (.inl hb₁)) h
  | comment => exact StopsAt.replace (fun hends => absurd hends hline) h
  | lineEnd t =>
    cases t with
    | carriageReturn => exact StopsAt.replace (fun _ hfeed => hline₁ (.inl hfeed)) h
    | lineFeed | both => trivial
  | blank | comma | unknown => trivial

/-- A blank can be replaced by an unknown character between blanks. -/
theorem Joined.replace (hb₁ : IsBlank b₁) (hb₂ : IsBlank b₂)
    (hu : action .initial (CharClass.of u) = .unknown)
    (h : Joined (before ++ .blank b hb :: after) tail) :
    Joined (before ++ .blank b₁ hb₁ :: .unknown u hu :: .blank b₂ hb₂ :: after) tail := by
  induction before with
  | nil => exact ⟨trivial, trivial, trivial, h.2⟩
  | cons part rest ih =>
    obtain ⟨hends, hrest⟩ := h
    refine ⟨?_, ih hrest⟩
    -- a part looks at one byte behind it, which is the blank itself only if it comes last
    rw [List.append_eq, render_append, List.append_assoc] at hends ⊢
    exact Part.Ends.replace hb hb₁ hends

/-- The parts are blanks. -/
def AllBlank (parts : List Part) : Prop :=
  ∀ part ∈ parts, ∃ b h, part = .blank b h

theorem commaFirst_of_allBlank {blanks : List Part} (h : AllBlank blanks) (comma : Bool) :
    commaFirst comma blanks = comma := by
  induction blanks with
  | nil => rfl
  | cons part rest ih =>
    obtain ⟨⟨b, hb, rfl⟩, hrest⟩ := List.forall_mem_cons.mp h
    exact ih hrest

theorem partAnswers_of_allBlank {blanks : List Part} (h : AllBlank blanks) (c : Cursor)
    (comma : Bool) : partAnswers c comma blanks = [] := by
  induction blanks with
  | nil => rfl
  | cons part rest ih =>
    obtain ⟨⟨b, hb, rfl⟩, hrest⟩ := List.forall_mem_cons.mp h
    exact ih hrest

/-- A comma behind an item and blanks is the comma of the item. -/
theorem partAnswers_item {blanks : List Part} (h : AllBlank blanks) (c : Cursor) (comma : Bool)
    (parts : List Part) (i : Item) :
    partAnswers c comma (parts ++ .item i :: blanks) = partAnswers c false parts ++
      [.ok { lexeme := lexeme i, comma, line := (c.pastAll parts).line }] := by
  rw [partAnswers_append, partAnswers, partAnswers_of_allBlank h, commaFirst_of_allBlank h]
  rfl

/-- A comma behind parts is that of an item, or it makes no difference. -/
theorem exists_item_or_eq (parts : List Part) :
    (∃ first i blanks, parts = first ++ .item i :: blanks ∧ AllBlank blanks) ∨
      ∀ c, partAnswers c true parts = partAnswers c false parts := by
  -- the last part decides, and blanks are looked over
  induction parts using List.reverseRecOn with
  | nil => exact .inr fun _ => rfl
  | append_singleton rest part ih =>
    cases part with
    | item i => exact .inl ⟨rest, i, [], rfl, by simp [AllBlank]⟩
    | blank b hb =>
      refine ih.imp ?_ fun hsame c => ?_
      · rintro ⟨first, i, blanks, rfl, hblanks⟩
        refine ⟨first, i, blanks ++ [.blank b hb], by simp, ?_⟩
        exact List.forall_mem_append.mpr ⟨hblanks, List.forall_mem_singleton.mpr ⟨b, hb, rfl⟩⟩
      · rw [partAnswers_append, partAnswers_append]
        exact congrArg (· ++ []) (hsame c)
    | comma | lineEnd | comment | unknown | malformed =>
      exact .inr fun c => by rw [partAnswers_append, partAnswers_append]; rfl

/-! ## Instructions -/

/-- Whether a part leaves the source inside of an instruction: a mnemonic begins one, and the line
ends it. -/
def staysInside (inside : Bool) : Part → Bool
  | .item i => inside || (lexeme i).isOpcode
  | .lineEnd _ => false
  | _ => inside

/-- Behind these parts, a mnemonic stands on the line. -/
def insideInstruction (parts : List Part) : Bool :=
  parts.foldl staysInside false

/-- What stands between these parts separates an operand from its comma: an item inside of an
instruction comes last before it and a comma first behind it, blanks aside. -/
def SplitsOperand (before after : List Part) : Prop :=
  commaFirst false after = true ∧ ∃ parts i blanks, before = parts ++ .item i :: blanks ∧
    AllBlank blanks ∧ insideInstruction parts = true

end Dissection

namespace Context

/-- Whether the context is inside of an instruction. -/
def isOperands : Context → Bool
  | .operands .. => true
  | _ => false

end Context

namespace Assembly

open Dissection

variable {a a' b : Assembly} {context next : Context} {token : Token} {n : Nat}
  {answers : List (Except Error Token)}

/-! ## Commas -/

/-- A mnemonic leads into an instruction, and only the end of a line leads out of it. -/
theorem Takes.isOperands_eq (h : Takes a context token (.ok next) a') : next.isOperands =
    (!token.endsLine && (context.isOperands || token.lexeme.isOpcode)) := by
  generalize hresult : (Except.ok next : Except Error Context) = result at h
  cases h with
  | blank hends | instruction hends | close hends =>
    cases hresult
    rw [hends]
    rfl
  | activate hlexeme | announce hlexeme | label hlexeme | operation hlexeme | declaration hlexeme
  | await hlexeme =>
    cases hresult
    rw [Token.endsLine, hlexeme]
    rfl
  | directiveLiteral hlexeme | declarationLiteral hlexeme =>
    obtain ⟨-, rfl⟩ := literalOutcome_eq_ok hresult.symm
    rw [Token.endsLine, hlexeme]
    rfl
  | @operand _ _ slot _ _ _ hfits =>
    cases hresult
    -- the ends of lines and of the source are no operands
    have hends : token.endsLine = false := by
      cases hlexeme : token.lexeme with
      | endOfLine | endOfFile =>
        rw [hlexeme] at hfits
        cases slot <;> cases hfits
      | _ => rw [Token.endsLine, hlexeme]
    rw [hends]
    rfl
  | refuse | refuseBound => cases hresult

/-- Outside of instructions, a token that is accepted is accepted without its comma. -/
theorem Takes.withoutComma (h : Takes a context token (.ok next) a')
    (hcontext : context.isOperands = false) :
    Takes a context { token with comma := false } (.ok next) a' := by
  -- a literal is accepted only without a comma
  have hliteral : literalOutcome token = .ok next → { token with comma := false } = token := by
    intro houtcome
    rw [← (literalOutcome_eq_ok houtcome).1]
  generalize hresult : (Except.ok next : Except Error Context) = result at h
  cases h with
  | blank hends => cases hresult; exact .blank hends
  | activate hlexeme hname => cases hresult; exact .activate hlexeme hname
  | announce hlexeme hword hpending => cases hresult; exact .announce hlexeme hword hpending
  | label hlexeme hfresh => cases hresult; exact .label hlexeme hfresh
  | operation hlexeme hactive hcomma => cases hresult; exact .operation hlexeme hactive rfl
  | declaration hlexeme hactive => cases hresult; exact .declaration hlexeme hactive
  | await hlexeme => cases hresult; exact .await hlexeme
  | directiveLiteral hlexeme hactive =>
    rw [hliteral hresult.symm]
    exact .directiveLiteral hlexeme hactive
  | declarationLiteral hlexeme hactive hfresh =>
    rw [hliteral hresult.symm]
    exact .declarationLiteral hlexeme hactive hfresh
  | close hends => cases hresult; exact .close hends
  | operand | instruction => cases hcontext
  | refuse | refuseBound => cases hresult

/-- A sequence that is accepted begins with a token that is. -/
theorem takes_of_feedAll (h : a.feedAll context (.ok token :: answers) = (.ok next, a')) :
    ∃ context' b, Takes a context token (.ok context') b ∧
      b.feedAll context' answers = (.ok next, a') := by
  obtain ⟨_, _, context', b, hnil, htakes, hrest⟩ := @feedAll_split _ _ _ _ [] _ _ h
  cases hnil
  exact ⟨context', b, htakes, hrest⟩

/-- Behind parts of a source, the context is inside of an instruction if a mnemonic stands on the
line. -/
theorem isOperands_of_feedAll {parts : List Part} {comma : Bool} {c : Cursor}
    (hlineEnds : c.lineEnds = true) (hopen : context.isOperands = true → c.isOpen = true)
    (h : a.feedAll context (partAnswers c comma parts) = (.ok next, a')) :
    next.isOperands = parts.foldl staysInside context.isOperands := by
  induction parts generalizing a context c with
  | nil =>
    cases h
    rfl
  | cons part rest ih =>
    rw [partAnswers] at h
    rw [List.foldl_cons]
    cases part with
    | blank | comma | comment | unknown | malformed => exact ih hlineEnds hopen h
    | item i =>
      obtain ⟨context', b, htakes, hrest⟩ := takes_of_feedAll h
      have hends := (readAs_lexeme i).endsLine_eq (commaFirst comma rest) c.line
      have hcontext := htakes.isOperands_eq
      rw [hends] at hcontext
      rw [ih (c := c.past (.item i)) hlineEnds (fun _ => rfl) hrest, hcontext]
      rfl
    | lineEnd t =>
      rw [Part.answers, hlineEnds] at h
      cases hisOpen : c.isOpen with
      | true =>
        rw [hisOpen] at h
        obtain ⟨context', b, htakes, hrest⟩ := takes_of_feedAll h
        have hcontext : context'.isOperands = false := htakes.isOperands_eq
        rw [ih (c := c.past (.lineEnd t)) hlineEnds (by simp [hcontext]) hrest, hcontext]
        rfl
      | false =>
        -- the line has no tokens, so that no instruction can have begun on it
        rw [hisOpen] at h
        have hcontext : context.isOperands = false := by
          rw [← Bool.not_eq_true]
          intro hinside
          rw [hopen hinside] at hisOpen
          cases hisOpen
        rw [ih (c := c.past (.lineEnd t)) hlineEnds (by simp [hcontext]) h, hcontext]
        rfl

/-- Behind the last operand and a comma, nothing is accepted any more. -/
theorem run_trailingComma (ins : Instruction) :
    a.run (.operands ins [] true) answers ≠ (.ok (), a') := by
  intro h
  induction answers generalizing a with
  | nil => simp [run_nil, feed, endOperation] at h
  | cons answer rest ih =>
    cases answer with
    | ok token => simp [run, feed, endOperation] at h
    | error e =>
      -- what is skipped only puts it off
      rw [run] at h
      split at h
      · cases h
      · exact ih h

/-- A token with a comma inside of an instruction is an operand, and leads behind it. -/
theorem Takes.exists_operand (h : Takes a context token (.ok next) a')
    (hcontext : context.isOperands = true) (hends : token.endsLine = false) :
    ∃ ins slot slots comma operand, context = .operands ins (slot :: slots) comma ∧
      Operand.ofLexeme? slot token.lexeme = some operand ∧
      next = .operands (ins.addOperand slot operand) slots token.comma := by
  generalize hresult : (Except.ok next : Except Error Context) = result at h
  cases h with
  | operand hfits => exact ⟨_, _, _, _, _, rfl, hfits, Except.ok.inj hresult⟩
  | instruction hline =>
    rw [hline] at hends
    cases hends
  | refuse | refuseBound => cases hresult
  | blank | activate | announce | label | operation | declaration | await | directiveLiteral
  | declarationLiteral | close => cases hcontext

/-- A run that goes well accepts every beginning of its answers and goes on behind it. -/
theorem feedAll_of_run_append {first second : List (Except Error Token)}
    (h : a.run context (first ++ second) = (.ok (), a')) :
    ∃ next m, a.feedAll context first = (.ok next, m) ∧ m.run next second = (.ok (), a') := by
  rcases hall : a.feedAll context first with ⟨e | next, m⟩
  · obtain ⟨rest, hrun⟩ := run_of_feedAll_error (feedAll_append_error second hall)
    rw [hrun] at h
    cases h
  · exact ⟨next, m, rfl, (run_append second hall).symm.trans h⟩

/-! ## Further warnings -/

/-- The assembly with another rest of its input and other warnings. -/
def reframed (a : Assembly) (rest : List (Except Error Token)) (warnings : List Error) : Assembly :=
  { a with input := { a.input with answers := rest }, warnings }

/-- A token is taken in the same way whatever is left of the source and has been skipped of it. -/
theorem Takes.reframed (h : Takes a context token (.ok next) a') (rest : List (Except Error Token))
    (warnings : List Error) :
    Takes (a.reframed rest warnings) context token (.ok next) (a'.reframed rest warnings) := by
  have hframed := h.framed a'.showPath { a'.input with answers := rest } warnings
  rw [h.showPath_eq, h.input_eq] at hframed
  have hsame : a'.reframed rest warnings =
      { a' with showPath := a.showPath, input := { a.input with answers := rest }, warnings } := by
    rw [Assembly.reframed, h.input_eq, ← h.showPath_eq]
  rw [hsame]
  exact hframed

/-- The assembly is the same but for what is left of the source and for some more warnings. -/
def Alike (n : Nat) (a b : Assembly) : Prop :=
  ∃ rest warnings, b = a.reframed rest warnings ∧ warnings.length = a.warnings.length + n

namespace Alike

theorem takes (h : Alike n a b) (htakes : Takes a context token (.ok next) a') :
    ∃ b', Takes b context token (.ok next) b' ∧ Alike n a' b' := by
  obtain ⟨rest, warnings, rfl, hlength⟩ := h
  refine ⟨a'.reframed rest warnings, htakes.reframed rest warnings, rest, warnings, rfl, ?_⟩
  rw [htakes.warnings_eq]
  exact hlength

/-- Both are warned. -/
theorem warned (h : Alike n a b) (e : Error) :
    Alike n { a with warnings := a.warnings ++ [e] } { b with warnings := b.warnings ++ [e] } := by
  obtain ⟨rest, warnings, rfl, hlength⟩ := h
  refine ⟨rest, warnings ++ [e], rfl, ?_⟩
  simp only [List.length_append, List.length_singleton, hlength]
  omega

/-- Only one of them is warned. -/
theorem warned_right (h : Alike n a b) (e : Error) :
    Alike (n + 1) a { b with warnings := b.warnings ++ [e] } := by
  obtain ⟨rest, warnings, rfl, hlength⟩ := h
  refine ⟨rest, warnings ++ [e], rfl, ?_⟩
  simp only [List.length_append, List.length_singleton, hlength]
  omega

theorem feedAll (h : Alike n a b) (hall : a.feedAll context answers = (.ok next, a')) :
    ∃ b', b.feedAll context answers = (.ok next, b') ∧ Alike n a' b' := by
  fun_induction Assembly.feedAll a context answers generalizing b with
  | case1 a context =>
    cases hall
    exact ⟨b, rfl, h⟩
  | case2 => cases hall
  | case3 a context e rest hfatal ih =>
    obtain ⟨b', hrest, halike⟩ := ih (h.warned e) hall
    exact ⟨b', by rw [Assembly.feedAll, if_neg hfatal, hrest], halike⟩
  | case4 => cases hall
  | case5 a context token rest next' a₁ hfeed ih =>
    have htakes := takes_feed a context token
    rw [hfeed] at htakes
    obtain ⟨b₁, htakes', halike₁⟩ := h.takes htakes
    obtain ⟨b', hrest, halike⟩ := ih halike₁ hall
    exact ⟨b', (feedAll_ok_cons htakes'.feed_eq).trans hrest, halike⟩

/-- A run that goes well goes well from there, too, and comes to the same unit. -/
theorem run (h : Alike n a b) (hrun : a.run context answers = (.ok (), a')) :
    ∃ b', b.run context answers = (.ok (), b') ∧ Alike n a' b' := by
  obtain ⟨last, m, hall, hend⟩ := feedAll_of_run_ok hrun
  obtain ⟨m', hall', rest, warnings, rfl, hlength⟩ := h.feedAll hall
  -- the end of the file is taken like any other token
  have halike : Alike n (m.withRest []) ((m.reframed rest warnings).withRest []) :=
    ⟨[], warnings, rfl, hlength⟩
  obtain ⟨b', hend', halike'⟩ := halike.takes hend
  refine ⟨b', ?_, halike'⟩
  have hfeed : ((m.reframed rest warnings).withRest []).feed last
      (.endOfFile (m.reframed rest warnings).input.endLine) = (.ok .statement, b') := hend'.feed_eq
  rw [run_of_feedAll_ok hall', run_nil, hfeed]

end Alike

/-! ## Sources -/

/-- Two sources that end on the same line are alike before their first token. -/
theorem alike_ofSource {path : String} {source source' : Source}
    (h : (ofSource path source).input.endLine = (ofSource path source').input.endLine) :
    Alike 0 (ofSource path source) (ofSource path source') := by
  refine ⟨(ofSource path source').input.answers, [], ?_, rfl⟩
  exact congrArg (fun line => { ofSource path source with
    input := ⟨(ofSource path source').input.answers, line⟩ }) h.symm

/-- What is taken from a source that is cut into parts to its end. -/
theorem input_ofSource {parts : List Part} (path : String) (hjoined : Joined parts []) :
    (ofSource path (.ofBytes (render parts))).input =
      ⟨partAnswers .start false parts, 1 + parts.countP Part.isLineEnd⟩ :=
  ofScanner_start path hjoined

/-- What is taken from a source up to a blank and behind it. -/
theorem input_blank {before after : List Part} {c : UInt8} {hc : IsBlank c} (path : String)
    (hjoined : Joined (before ++ .blank c hc :: after) []) :
    (ofSource path (.ofBytes (render before ++ c :: render after))).input =
      ⟨partAnswers .start (commaFirst false after) before ++
          partAnswers (Cursor.start.pastAll before) false after,
        1 + (before ++ after).countP Part.isLineEnd⟩ := by
  have hbytes : render before ++ c :: render after = render (before ++ .blank c hc :: after) := by
    simp [Part.bytes]
  rw [hbytes, input_ofSource path hjoined, partAnswers_append]
  simp [Part.isLineEnd, partAnswers, commaFirst, Part.answers, Cursor.past]

/-- An unknown character in place of the blank is answered between them, and hides a comma that
comes first behind it. -/
theorem input_unknown {before after : List Part} {c c₁ c₂ u : UInt8} {hc : IsBlank c}
    (path : String) (hc₁ : IsBlank c₁) (hc₂ : IsBlank c₂)
    (hu : action .initial (CharClass.of u) = .unknown)
    (hjoined : Joined (before ++ .blank c hc :: after) []) :
    (ofSource path (.ofBytes (render before ++ c₁ :: u :: c₂ :: render after))).input =
      ⟨partAnswers .start false before ++
          .error (.lexical (Cursor.start.pastAll before).line (Char.ofUInt8 u)) ::
            partAnswers (Cursor.start.pastAll before) false after,
        1 + (before ++ after).countP Part.isLineEnd⟩ := by
  have hbytes : render before ++ c₁ :: u :: c₂ :: render after =
      render (before ++ .blank c₁ hc₁ :: .unknown u hu :: .blank c₂ hc₂ :: after) := by
    simp [Part.bytes]
  rw [hbytes, input_ofSource path (hjoined.replace hc₁ hc₂ hu), partAnswers_append]
  simp [Part.isLineEnd, partAnswers, commaFirst, Part.answers, Cursor.past]

/-- A source that can be assembled is cut into parts to its end. -/
theorem ending_of_assemble {path : String} {d : Dissection}
    (h : (ofSource path (.ofBytes d.bytes)).assemble = (.ok (), a)) : d.ending = .file := by
  have htranscript := transcript_start path d
  rw [Scanner.transcript_of_fine rfl (fine_of_assemble h)] at htranscript
  have hlast := (List.append_inj' htranscript rfl).2
  cases hending : d.ending with
  | file => rfl
  | numeral | period | literal => simp [hending, Ending.answer] at hlast

/-- Up to the character and behind it, the work goes well without the comma that comes first behind
it, if the character does not separate it from an operand. -/
theorem feedAll_before {c : Cursor} {before after : List Part} (hlineEnds : c.lineEnds = true)
    (hsplits : ¬ SplitsOperand before after)
    (h : a.feedAll .statement (partAnswers c (commaFirst false after) before) = (.ok next, a')) :
    a.feedAll .statement (partAnswers c false before) = (.ok next, a') := by
  cases hcomma : commaFirst false after with
  | false =>
    rw [hcomma] at h
    exact h
  | true =>
    rw [hcomma] at h
    obtain ⟨parts, i, blanks, rfl, hblanks⟩ | hsame := exists_item_or_eq before
    · rw [partAnswers_item hblanks] at h ⊢
      obtain ⟨context, m, context', m', hparts, htakes, hnil⟩ := feedAll_split h
      cases hnil
      -- the token that loses its comma stands outside of an instruction
      have hcontext : context.isOperands = false := by
        rw [isOperands_of_feedAll hlineEnds (by simp [Context.isOperands]) hparts,
          ← Bool.not_eq_true]
        exact fun hinside => hsplits ⟨hcomma, parts, i, blanks, rfl, hblanks, hinside⟩
      rw [feedAll_append hparts, feedAll_ok_cons (htakes.withoutComma hcontext).feed_eq]
      rfl
    · rw [← hsame]
      exact h

/-- Without the comma behind it, an operand is refused if the instruction could be assembled. -/
theorem feedAll_operand {c : Cursor} {parts blanks : List Part} {i : Item}
    (hlineEnds : c.lineEnds = true) (hblanks : AllBlank blanks)
    (hinside : insideInstruction parts = true) (halike : Alike n a b)
    (h : a.run .statement (partAnswers c true (parts ++ .item i :: blanks) ++ answers) =
      (.ok (), a')) :
    ∃ line index op m, b.feedAll .statement (partAnswers c false (parts ++ .item i :: blanks)) =
      (.error (.source line (.commaMissing index op)), m) := by
  rw [partAnswers_item hblanks] at h ⊢
  obtain ⟨next, m, hall, hrun⟩ := feedAll_of_run_append h
  obtain ⟨context, m₁, context', m₂, hparts, htakes, hnil⟩ := feedAll_split hall
  cases hnil
  have hcontext : context.isOperands = true := by
    rw [isOperands_of_feedAll hlineEnds (by simp [Context.isOperands]) hparts]
    exact hinside
  obtain ⟨ins, slot, slots, comma, operand, rfl, hfits, rfl⟩ :=
    htakes.exists_operand hcontext ((readAs_lexeme i).endsLine_eq true _)
  -- with its comma it was not the last operand, since nothing may follow that
  have hslots : slots ≠ [] := by
    rintro rfl
    exact run_trailingComma _ hrun
  obtain ⟨m', hparts', -⟩ := halike.feedAll hparts
  refine ⟨(c.pastAll parts).line, ins.operands.length, ins.op, m', ?_⟩
  rw [feedAll_append hparts']
  simp [Assembly.feedAll, feed, Assembly.operand, hfits, hslots, refuse]

/-- An unknown character in place of a blank. A source can be assembled, and a blank in it that
stands in no literal and in no comment is replaced by an unknown character between two blanks.
* The source can still be assembled, into the same unit and with one more warning, if the blank does
  not stand between an operand and its comma.
* Otherwise it cannot: the comma is missed behind the operand. -/
theorem assemble_unknown_character {path : String} {d : Dissection} {before after : List Part}
    {c c₁ c₂ u : UInt8} {hc : IsBlank c} (hparts : d.parts = before ++ .blank c hc :: after)
    (hc₁ : IsBlank c₁) (hc₂ : IsBlank c₂) (hu : action .initial (CharClass.of u) = .unknown)
    (h : (ofSource path (.ofBytes d.bytes)).assemble = (.ok (), a)) :
    let changed := ofSource path
      (.ofBytes (render before ++ c₁ :: u :: c₂ :: (render after ++ d.ending.bytes)))
    d.bytes = render before ++ c :: (render after ++ d.ending.bytes) ∧
      (¬ SplitsOperand before after → ∃ a', changed.assemble = (.ok (), a') ∧ a'.unit = a.unit ∧
        a'.warnings.length = a.warnings.length + 1) ∧
      (SplitsOperand before after → ∃ line index op a',
        changed.assemble = (.error (.source line (.commaMissing index op)), a')) := by
  intro changed
  have hending := ending_of_assemble h
  obtain ⟨_, ending, hjoined⟩ := d
  obtain rfl : ending = .file := hending
  obtain rfl := hparts
  have hbytes : render (before ++ .blank c hc :: after) ++ [] =
      render before ++ c :: (render after ++ []) := by
    simp [Part.bytes]
  refine ⟨hbytes, ?_⟩
  -- the answers to both sources up to the character and behind it
  have hinput := input_blank path hjoined
  have hinput' := input_unknown path hc₁ hc₂ hu hjoined
  have halike := alike_ofSource ((congrArg TokenStream.endLine hinput).trans
    (congrArg TokenStream.endLine hinput').symm)
  have hrun : (ofSource path (.ofBytes (render before ++ c :: render after))).assemble =
      (.ok (), a) := by
    rw [← h, Dissection.bytes, Ending.bytes, hbytes, List.append_nil]
  rw [assemble, hinput] at hrun
  simp only [changed, Ending.bytes, List.append_nil, assemble, hinput']
  constructor
  · intro hsplits
    obtain ⟨next, m, hall, hrest⟩ := feedAll_of_run_append hrun
    obtain ⟨m', hall', halike'⟩ := halike.feedAll (feedAll_before rfl hsplits hall)
    -- the character is skipped with a warning, and the rest is as it was
    obtain ⟨_, hrest', left, warnings, rfl, hlength⟩ := (halike'.warned_right _).run hrest
    refine ⟨a.reframed left warnings, ?_, rfl, hlength⟩
    rw [run_append _ hall', run, if_neg (by simp [Error.isFatal])]
    exact hrest'
  · rintro ⟨hcomma, parts, i, blanks, rfl, hblanks, hinside⟩
    rw [hcomma] at hrun
    obtain ⟨line, index, op, m, hrefused⟩ := feedAll_operand rfl hblanks hinside halike hrun
    obtain ⟨left, hfailed⟩ := run_of_feedAll_error (feedAll_append_error _ hrefused)
    exact ⟨line, index, op, m.withRest left, hfailed⟩

/-- A comma behind a label belongs to no operand. The label loses it to the character, and the unit
stays as it is. -/
theorem assemble_unknown_character_behind_label :
    ∃ a a', (ofSource "unit" (.ofBytes (utf8 "f: , ret\n"))).assemble = (.ok (), a) ∧
      (ofSource "unit" (.ofBytes (utf8 "f:\t$ , ret\n"))).assemble = (.ok (), a') ∧
      a'.unit = a.unit ∧ a'.warnings.length = a.warnings.length + 1 := by
  let label : Name :=
    { first := 0x66, rest := [], first_start := by decide, rest_name := by simp }
  let mnemonic : Name :=
    { first := 0x72, rest := [0x65, 0x74], first_start := by decide
      rest_name := by decide +kernel }
  let after : List Part :=
    [.comma, .blank 0x20 (.inl rfl), .item (.word mnemonic), .lineEnd .lineFeed]
  let d : Dissection :=
    { parts := .item (.label label) :: .blank 0x20 (.inl rfl) :: after
      ending := .file
      joined := ⟨.inl rfl, trivial, trivial, trivial, .inr (stopsAt_cons.mpr (by decide)), trivial,
        trivial⟩ }
  have hbytes : d.bytes = utf8 "f: , ret\n" := by decide +kernel
  have hassembled : (ofSource "unit" (.ofBytes d.bytes)).assemble =
      (.ok (), (ofSource "unit" (.ofBytes d.bytes)).assemble.2) :=
    Prod.ext (by rw [hbytes]; decide +kernel) rfl
  -- no mnemonic stands before the label
  have hsplits : ¬ SplitsOperand [.item (.label label)] after := by
    rintro ⟨-, parts, i, blanks, hparts, -, hinside⟩
    cases parts with
    | nil => cases hinside
    | cons part rest => simp at hparts
  obtain ⟨-, hsame, -⟩ := @assemble_unknown_character _ "unit" d [.item (.label label)] after _ 0x09
    0x20 0x24 _ rfl (.inr rfl) (.inl rfl) (by decide) hassembled
  obtain ⟨a', hchanged, hunit, hwarnings⟩ := hsame hsplits
  rw [hbytes] at hassembled
  exact ⟨_, a', hassembled, hchanged, hunit, hwarnings⟩

/-- Between an operand and its comma, the character is not skipped with a warning: the instruction
is refused. -/
theorem assemble_refuses_unknown_character_before_comma :
    (ofSource "unit" (.ofBytes (utf8 "mov x0 , 1\n"))).assemble.1 = .ok () ∧
      (ofSource "unit" (.ofBytes (utf8 "mov x0 $ , 1\n"))).assemble.1 =
        .error (.source 1 (.commaMissing 0 .mov)) := by
  decide +kernel

end Assembly

end AsmLinker
