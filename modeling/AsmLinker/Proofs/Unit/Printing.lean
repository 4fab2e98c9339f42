import Mathlib
import AsmLinker.Proofs.Program.Concatenation
import AsmLinker.Proofs.Token.Wording
import AsmLinker.Proofs.Unit.Grammar

/-!
# Printing a unit as a source

`SourceUnit.print` writes a unit section by section. In each section the instructions or the data
stand in their order, and in front of each of them the labels of its position that have not been
printed; the labels that are left stand at the end.

What is printed are lines, and lines say what they mean: `Line.tokens` are the tokens that are
written on a line (`Line.spells`), `Laid` says that lines stand at the positions that their labels
and data have, and lines that are laid in this way are assembled to exactly what stands on them
(`assemble_sections`).
-/

namespace AsmLinker

/-! ## The text of a unit -/

/-- The word of the directive that declares data in the encoding. -/
def Encoding.word : Encoding → String
  | .raw => "ascii"
  | .zeroTerminated => "asciz"

/-- A line of a printed source. -/
inductive Line where
  /-- A section becomes active. -/
  | activate (home : Section)
  /-- A label. -/
  | label (l : Label)
  /-- An instruction. -/
  | instruction (ins : Instruction)
  /-- Data with its name. -/
  | data (d : Declaration)

/-- The bytes of a line, those of data escaped. -/
def Line.bytes (e : Literal.Escaping) : Line → List UInt8
  | .activate home => utf8 home.directive
  | .label l => utf8 (l.name ++ ":")
  | .instruction ins => utf8 ins.text
  | .data d =>
    utf8 (d.name ++ ": ." ++ d.encoding.word ++ " \"") ++ d.bytes.flatMap e.spell ++ utf8 "\""

/-- Labels among lines that stand at positions: in front of each line those of its position, and at
the end those that are left. -/
def weave (labels : List Label) : List (Nat × Line) → List Line
  | [] => labels.map .label
  | (offset, line) :: rest =>
    (labels.filter (·.offset = offset)).map .label ++
      line :: weave (labels.filter (·.offset ≠ offset)) rest

/-- The bytes of sections, each behind the line that makes it active. -/
def printSections (e : Literal.Escaping) (lines : Section → List Line) : List UInt8 :=
  (Section.all.flatMap fun home => .activate home :: lines home).flatMap
    fun line => line.bytes e ++ [0x0A]

namespace SourceUnit

/-- The instructions or the data of a section with their positions, in order. -/
def placed (u : SourceUnit) : Section → List (Nat × Line)
  | .text => u.instructions.zipIdx.map fun (ins, i) => (Record.size * i, .instruction ins)
  | home => (u.data.declarationsIn home).map fun d => (d.offset, .data d)

/-- The labels of a section that are printed on a line of their own: all those of the text section,
and of any other section those that name no data. -/
def loose (u : SourceUnit) (home : Section) : List Label :=
  (u.labels.values.filter (·.home = home)).filter fun l => home = .text ∨ l.name ∉ u.data.keys

/-- The lines of a section. -/
def lines (u : SourceUnit) (home : Section) : List Line :=
  weave (u.loose home) (u.placed home)

/-- A unit as a source. -/
def print (e : Literal.Escaping) (u : SourceUnit) : List UInt8 :=
  printSections e u.lines

end SourceUnit

/-! ## The tokens of a line -/

/-- The lexeme that the text of an operand is read as. The text of an address is not read as an
operand. -/
def Operand.lexeme : Operand → Lexeme
  | .register index => .register index
  | .literal value => .digits (toString value.toNat) value
  | .label name => .identifier name
  | .address _ => .endOfFile

/-- The tokens of operands with commas between them. -/
def Operand.tokens : List Operand → List Token
  | [] => []
  | operand :: rest =>
    { lexeme := operand.lexeme, comma := !rest.isEmpty, line := 0 } :: tokens rest

/-- The text whose bytes are declared. -/
def Declaration.text (d : Declaration) : String :=
  (String.fromUTF8? ⟨d.bytes.toArray⟩).getD ""

theorem Declaration.text_eq {d : Declaration} {text : String} (h : d.bytes = utf8 text) :
    d.text = text := by
  rw [Declaration.text, h, fromUTF8?_utf8]
  rfl

/-- The tokens of a line, without its end. -/
def Line.tokens : Line → List Token
  | .activate home => [{ lexeme := .directive home.name, line := 0 }]
  | .label l => [{ lexeme := .label l.name, line := 0 }]
  | .instruction ins => { lexeme := .opcode ins.op, line := 0 } :: Operand.tokens ins.operands
  | .data d =>
    [{ lexeme := .label d.name, line := 0 }, { lexeme := .directive d.encoding.word, line := 0 },
      { lexeme := .ascii d.text, line := 0 }]

/-- The operand is read back from its text. -/
def Operand.Spelled : Operand → Prop
  | .register index => index.toNat < 10
  | .literal _ => True
  | .label name => IsWord name ∧ Lexeme.ofWord name = .identifier name
  | .address _ => False

/-- The instruction is read back from its text. -/
structure Instruction.Spelled (ins : Instruction) : Prop where
  /-- Its operands are read back from their texts. -/
  operands : ∀ operand ∈ ins.operands, operand.Spelled
  /-- They fit the slots of the operation. -/
  fits : Operands ins.op.slots (Operand.tokens ins.operands) ins.operands
  /-- Nothing but its operation and its operands make the instruction. -/
  built : Instruction.addOperands { op := ins.op, line := 0 } ins.op.slots ins.operands =
    ins.unlined

/-- The line is read back from its bytes. -/
def Line.Spelled : Line → Prop
  | .activate _ => True
  | .label l => IsWord l.name
  | .instruction ins => ins.Spelled
  | .data d => IsWord d.name ∧ utf8 d.text = d.bytes

open Dissection (Lexes Spells lexes_word lexes_label lexes_directive lexes_numeral lexes_literal)

theorem Operand.lexes {operand : Operand} (h : operand.Spelled) :
    Lexes (utf8 operand.text) operand.lexeme := by
  cases operand with
  | register index =>
    -- there are ten registers
    have hall : ∀ n : Fin 10, isWordBytes (utf8 ("x" ++ toString n.val)) = true ∧
        Lexeme.ofWord ("x" ++ toString n.val) = .register (UInt8.ofNat n.val) := by
      decide +kernel
    obtain ⟨hword, hlexeme⟩ := hall ⟨index.toNat, h⟩
    have hlexes := lexes_word (isWord_of_isWordBytes hword)
    rw [hlexeme, UInt8.ofNat_toNat] at hlexes
    exact hlexes
  | literal value => exact lexes_numeral value
  | label name =>
    have hlexes := lexes_word h.1
    rw [h.2] at hlexes
    exact hlexes
  | address => exact h.elim

/-- Operands are read back from their texts. -/
theorem Operand.spells_intercalate {operand : Operand} {rest : List Operand}
    (h : ∀ other ∈ operand :: rest, other.Spelled) :
    Spells (utf8 (", ".intercalate ((operand :: rest).map Operand.text)))
      (Operand.tokens (operand :: rest)) := by
  induction rest generalizing operand with
  | nil =>
    have hlexes := Operand.lexes (h operand List.mem_cons_self)
    simp only [List.map_cons, List.map_nil, String.intercalate_singleton]
    exact .last hlexes
  | cons next rest ih =>
    obtain ⟨hoperand, hrest⟩ := List.forall_mem_cons.mp h
    have hsplit : utf8 (", ".intercalate ((operand :: next :: rest).map Operand.text)) =
        utf8 operand.text ++ 0x2C :: 0x20 ::
          utf8 (", ".intercalate ((next :: rest).map Operand.text)) := by
      rw [List.map_cons, List.map_cons, String.intercalate_cons_cons, utf8_append, utf8_append,
        List.append_assoc]
      rfl
    rw [hsplit]
    exact .comma (Operand.lexes hoperand) (ih hrest)

theorem Opcode.lexes (op : Opcode) : Lexes (utf8 op.mnemonic) (.opcode op) := by
  have hword : isWordBytes (utf8 op.mnemonic) = true := by
    cases op <;> decide +kernel
  have hlexeme : Lexeme.ofWord op.mnemonic = .opcode op := by
    cases op <;> decide +kernel
  have hlexes := lexes_word (isWord_of_isWordBytes hword)
  rw [hlexeme] at hlexes
  exact hlexes

theorem Instruction.spells {ins : Instruction} (h : ins.Spelled) :
    Spells (utf8 ins.text)
      ({ lexeme := .opcode ins.op, line := 0 } :: Operand.tokens ins.operands) := by
  have hoperands := h.operands
  rw [Instruction.text]
  cases hlist : ins.operands with
  | nil => exact .last ins.op.lexes
  | cons operand rest =>
    rw [hlist] at hoperands
    dsimp only
    rw [utf8_append, utf8_append, List.append_assoc]
    exact .blank ins.op.lexes (Operand.spells_intercalate hoperands)

theorem Encoding.lexes (encoding : Encoding) :
    Lexes (utf8 ("." ++ encoding.word)) (.directive encoding.word) := by
  apply lexes_directive
  apply isWord_of_isWordBytes
  cases encoding <;> decide +kernel

/-- A line spells its tokens. -/
theorem Line.spells (e : Literal.Escaping) {line : Line} (h : line.Spelled) :
    Spells (line.bytes e) line.tokens := by
  cases line with
  | activate home =>
    have hword : IsWord home.name := by
      apply isWord_of_isWordBytes
      cases home <;> decide +kernel
    exact .last (lexes_directive hword)
  | label l => exact .last (lexes_label h)
  | instruction ins => exact Instruction.spells h
  | data d =>
    obtain ⟨hname, htext⟩ := h
    have hbytes : (Line.data d).bytes e = utf8 (d.name ++ ":") ++ 0x20 ::
        (utf8 ("." ++ d.encoding.word) ++ 0x20 ::
          (0x22 :: ((utf8 d.text).flatMap e.spell ++ [0x22]))) := by
      rw [Line.bytes, htext, utf8_append, utf8_append, utf8_append, utf8_append, utf8_append]
      simp only [List.append_assoc]
      rfl
    rw [hbytes]
    exact .blank (lexes_label hname) (.blank d.encoding.lexes (.last (lexes_literal e d.text)))

/-! ## Lines at their positions -/

/-- The line takes up the positions of a section from one up to another, and they are those of what
stands on it. -/
def Line.Occupies (home : Section) (start stop : Nat) : Line → Prop
  | .activate _ => False
  | .label l => l.home = home ∧ l.offset = start ∧ start = stop
  | .instruction _ => home = .text ∧ start + Record.size = stop
  | .data d => home ≠ .text ∧ d.home = home ∧ d.offset = start ∧ d.stop = stop

/-- Lines take up the positions of a section from one up to another, one behind the other. -/
def Laid (home : Section) : Nat → List Line → Nat → Prop
  | start, [], stop => start = stop
  | start, line :: rest, stop =>
    ∃ next, line.Occupies home start next ∧ Laid home next rest stop

/-- The statements that a line makes in a section. -/
def Line.statements (home : Section) : Line → List Statement
  | .activate _ => []
  | .label l => [.label l.name home 0]
  | .instruction ins => [.instruction ins.unlined]
  | .data d => [.label d.name home 0, .data d.name home d.encoding d.text]

variable {home : Section} {line : Line} {rest : List Token} {statements : List Statement}
  {start stop next : Nat}

/-- The tokens of a line make its statements, whatever label waits. -/
theorem Line.grammar (h : line.Spelled) (hplace : line.Occupies home start stop)
    (hrest : ∀ pending, Grammar home pending rest statements) (pending : Option String) :
    Grammar home pending (line.tokens ++ .lineEnd :: rest)
      (line.statements home ++ statements) := by
  cases line with
  | activate => exact hplace.elim
  | label l => exact .label rfl (.blank rfl (hrest _))
  | instruction ins =>
    -- reading the operands makes the instruction again
    obtain ⟨rfl, -⟩ := hplace
    rw [Line.statements, ← h.built]
    exact .instruction rfl rfl h.fits (.line rfl) (hrest none)
  | data d =>
    obtain ⟨hhome, -⟩ := hplace
    have hword : Assembly.Announces d.encoding.word d.encoding := by
      cases d.encoding with
      | raw => exact .inl ⟨rfl, rfl⟩
      | zeroTerminated => exact .inr ⟨rfl, rfl⟩
    have hliteral : ClosingLiteral ({ lexeme := .ascii d.text, line := 0 } :: .lineEnd :: rest)
        d.text rest := .mk rfl rfl (.line rfl)
    have hblanks : ∀ blank ∈ ([] : List Token), blank.lexeme = .endOfLine := by simp
    have hdata : Grammar home (some d.name)
        ({ lexeme := .directive d.encoding.word, line := 0 } ::
          ([] ++ { lexeme := .ascii d.text, line := 0 } :: .lineEnd :: rest))
        (.data d.name home d.encoding d.text :: statements) :=
      .directive hhome rfl hword hblanks hliteral (hrest none)
    exact .label rfl hdata

theorem Laid.grammar {lines : List Line} (h : Laid home start lines stop)
    (hspelled : ∀ line ∈ lines, line.Spelled)
    (hrest : ∀ pending, Grammar home pending rest statements) (pending : Option String) :
    Grammar home pending ((lines.flatMap fun line => line.tokens ++ [.lineEnd]) ++ rest)
      (lines.flatMap (Line.statements home) ++ statements) := by
  induction lines generalizing start pending with
  | nil => exact hrest pending
  | cons line more ih =>
    obtain ⟨next, hplace, hmore⟩ := h
    obtain ⟨hline, hothers⟩ := List.forall_mem_cons.mp hspelled
    have hgrammar := line.grammar hline hplace (ih hmore hothers) pending
    rw [List.flatMap_cons, List.flatMap_cons, List.append_assoc, List.append_assoc,
      List.append_assoc]
    exact hgrammar

/-- The tokens of sections make the statements of their lines. -/
theorem grammar_sections {lines : Section → List Line} {stop : Section → Nat}
    (hspelled : ∀ home, ∀ line ∈ lines home, line.Spelled)
    (hlaid : ∀ home, Laid home 0 (lines home) (stop home)) (homes : List Section)
    (active : Section) (pending : Option String) :
    Grammar active pending
      ((homes.flatMap fun home => .activate home :: lines home).flatMap
        fun line => line.tokens ++ [.lineEnd])
      (homes.flatMap fun home => (lines home).flatMap (Line.statements home)) := by
  induction homes generalizing active pending with
  | nil => exact .done
  | cons home more ih =>
    have hlines := (hlaid home).grammar (hspelled home) (ih home) none
    rw [List.flatMap_cons, List.flatMap_append, List.flatMap_cons, List.flatMap_cons,
      List.append_assoc]
    exact .activate rfl (.blank rfl hlines)

/-! ## What lines contribute -/

/-- The labels that a line defines, its data being named by one. -/
def Line.labels : Line → List (String × Label)
  | .label l => [(l.name, l.unlined)]
  | .data d => [(d.name, { name := d.name, home := d.home, offset := d.offset, line := 0 })]
  | _ => []

/-- The data on a line. -/
def Line.declarations : Line → List (String × Declaration)
  | .data d => [(d.name, d)]
  | _ => []

/-- The instruction on a line. -/
def Line.instructions : Line → List Instruction
  | .instruction ins => [ins.unlined]
  | _ => []

/-- The labels and the instructions of lines have no lines of their own. -/
theorem Line.map_unlined_labels (line : Line) :
    line.labels.map (fun entry => (entry.1, entry.2.unlined)) = line.labels := by
  cases line <;> rfl

theorem Line.map_unlined_instructions (line : Line) :
    line.instructions.map Instruction.unlined = line.instructions := by
  cases line <;> rfl

variable {α : Type} {contribution : PerSection Nat → Statement → List α} {share : Line → List α}
  {offsets : PerSection Nat}

/-- The statements of a line that stands at its positions contribute what is on it. -/
def Contributes (contribution : PerSection Nat → Statement → List α) (share : Line → List α) :
    Prop :=
  ∀ {home : Section} {offsets : PerSection Nat} {line : Line} {next : Nat}, line.Spelled →
    line.Occupies home (offsets.get home) next →
    Statement.collect contribution offsets (line.statements home) = share line

theorem Line.declaration_eq {d : Declaration} (h : (Line.data d).Spelled)
    (hplace : (Line.data d).Occupies home (offsets.get home) next) :
    Statement.declaration d.name home d.encoding d.text offsets = d := by
  obtain ⟨-, rfl, hoffset, -⟩ := hplace
  have hbytes : d.text.toUTF8.data.toList = d.bytes := h.2
  rw [Statement.declaration, ← hoffset, hbytes]

theorem contributes_labels : Contributes Statement.labels Line.labels := by
  intro home offsets line next hline hplace
  cases line with
  | activate => exact hplace.elim
  | label l =>
    obtain ⟨rfl, hoffset, -⟩ := hplace
    rw [Line.statements, Statement.collect, Statement.labels, ← hoffset]
    rfl
  | instruction => rfl
  | data d =>
    obtain ⟨-, rfl, hoffset, -⟩ := hplace
    rw [Line.statements, Statement.collect, Statement.labels, ← hoffset]
    rfl

theorem contributes_declarations : Contributes Statement.declarations Line.declarations := by
  intro home offsets line next hline hplace
  cases line with
  | activate => exact hplace.elim
  | label => rfl
  | instruction => rfl
  | data d =>
    have hsame := Line.declaration_eq hline hplace
    change [(d.name, Statement.declaration d.name home d.encoding d.text offsets)] = _
    rw [hsame]
    rfl

theorem contributes_instructions : Contributes Statement.instructions Line.instructions := by
  intro home offsets line next hline hplace
  cases line with
  | activate => exact hplace.elim
  | label => rfl
  | instruction => rfl
  | data => rfl

/-- Behind a line its section has been filled up to its last position. -/
theorem Line.foldl_advance (h : line.Spelled)
    (hplace : line.Occupies home (offsets.get home) next) :
    (line.statements home).foldl Statement.advance offsets = offsets.set home next := by
  cases line with
  | activate => exact hplace.elim
  | label l =>
    obtain ⟨-, -, rfl⟩ := hplace
    cases home <;> rfl
  | instruction ins =>
    obtain ⟨rfl, rfl⟩ := hplace
    rfl
  | data d =>
    have hsame := Line.declaration_eq h hplace
    obtain ⟨-, -, -, rfl⟩ := hplace
    change offsets.set home (Statement.declaration d.name home d.encoding d.text offsets).stop = _
    rw [hsame]

theorem PerSection.set_set (p : PerSection α) (s : Section) (a b : α) :
    (p.set s a).set s b = p.set s b := by
  cases s <;> rfl

theorem Laid.foldl_advance {lines : List Line} (h : Laid home (offsets.get home) lines stop)
    (hspelled : ∀ line ∈ lines, line.Spelled) :
    (lines.flatMap (Line.statements home)).foldl Statement.advance offsets =
      offsets.set home stop := by
  induction lines generalizing offsets with
  | nil =>
    obtain rfl := h
    cases home <;> rfl
  | cons line more ih =>
    obtain ⟨next, hplace, hmore⟩ := h
    obtain ⟨hline, hothers⟩ := List.forall_mem_cons.mp hspelled
    rw [List.flatMap_cons, List.foldl_append, line.foldl_advance hline hplace]
    rw [← PerSection.get_set_self offsets home next] at hmore
    rw [ih hmore hothers, PerSection.set_set]

theorem Laid.collect_eq (hshare : Contributes contribution share) {lines : List Line}
    (h : Laid home (offsets.get home) lines stop) (hspelled : ∀ line ∈ lines, line.Spelled) :
    Statement.collect contribution offsets (lines.flatMap (Line.statements home)) =
      lines.flatMap share := by
  induction lines generalizing offsets with
  | nil => rfl
  | cons line more ih =>
    obtain ⟨next, hplace, hmore⟩ := h
    obtain ⟨hline, hothers⟩ := List.forall_mem_cons.mp hspelled
    rw [← PerSection.get_set_self offsets home next] at hmore
    rw [List.flatMap_cons, Statement.collect_append, hshare hline hplace,
      line.foldl_advance hline hplace, ih hmore hothers, List.flatMap_cons]

/-- The statements of sections contribute what is on their lines. -/
theorem collect_sections (hshare : Contributes contribution share) {lines : Section → List Line}
    {stop : Section → Nat} (hspelled : ∀ home, ∀ line ∈ lines home, line.Spelled)
    (hlaid : ∀ home, Laid home 0 (lines home) (stop home)) {homes : List Section}
    (hnodup : homes.Nodup) (hstart : ∀ home ∈ homes, offsets.get home = 0) :
    Statement.collect contribution offsets
        (homes.flatMap fun home => (lines home).flatMap (Line.statements home)) =
      homes.flatMap fun home => (lines home).flatMap share := by
  induction homes generalizing offsets with
  | nil => rfl
  | cons home more ih =>
    obtain ⟨hnew, hmore⟩ := List.nodup_cons.mp hnodup
    obtain ⟨hhome, hothers⟩ := List.forall_mem_cons.mp hstart
    have hlines := hlaid home
    rw [← hhome] at hlines
    -- the sections that follow have not been touched
    have huntouched : ∀ other ∈ more, (offsets.set home (stop home)).get other = 0 := by
      intro other hother
      have hne : other ≠ home := fun hsame => hnew (hsame ▸ hother)
      rw [PerSection.get_set_of_ne _ _ hne]
      exact hothers other hother
    rw [List.flatMap_cons, Statement.collect_append, hlines.collect_eq hshare (hspelled home),
      hlines.foldl_advance (hspelled home), ih hmore huntouched, List.flatMap_cons]

/-! ## Assembling lines -/

namespace Assembly

variable {a a' b : Assembly} {context : Context} {token : Token} {result : Except Error Context}

theorem warnings_feed (a : Assembly) (context : Context) (token : Token) :
    (a.feed context token).2.warnings = a.warnings :=
  (takes_feed a context token).warnings_eq

/-- A run over tokens warns of nothing. -/
theorem warnings_run (a : Assembly) (context : Context) {answers : List (Except Error Token)}
    {tokens : List Token}
    (h : answers.map TokenStream.unlined = tokens.map fun token => .ok token.unlined) :
    (a.run context answers).2.warnings = a.warnings := by
  induction tokens generalizing a context answers with
  | nil =>
    obtain rfl := List.map_eq_nil_iff.mp h
    rw [run_nil_snd, warnings_feed]
    rfl
  | cons token rest ih =>
    obtain ⟨token', rest', rfl, -, hrest⟩ := TokenStream.exists_cons_of_unlined h
    have hfeed := warnings_feed a context token'
    rw [run]
    rcases hnext : a.feed context token' with ⟨e | next, b⟩
    · rw [hnext] at hfeed
      exact hfeed
    · rw [hnext] at hfeed
      exact (ih b next hrest).trans hfeed

/-- Two assemblies that have taken the same from the beginning have the same unit, lines aside. -/
theorem Onto.unlined_eq (h : Onto {} b a) : a.unit.unlined = b.unit.unlined := by
  -- nothing moves behind an empty program
  have hsizes : ∀ home, ({} : Program).sizes.get home = 0 := by
    intro home
    cases home <;> rfl
  have hlabels : a.unit.labels.mapValues Label.unlined =
      b.unit.labels.mapValues Label.unlined := by
    apply Table.eq_of_entries
    rw [h.labels]
    simp only [Program.placeLabel, hsizes]
    rfl
  have hdata : a.unit.data = b.unit.data := by
    apply Table.eq_of_entries
    rw [h.data]
    simp only [Program.placeData, hsizes]
    exact List.map_id _
  change SourceUnit.mk _ _ _ = SourceUnit.mk _ _ _
  rw [SourceUnit.mk.injEq]
  exact ⟨h.instructions, hlabels, hdata⟩

/-- An assembly takes from tokens what it takes from the same tokens on other lines. -/
theorem exists_run_of_unlined {answers : List (Except Error Token)} {tokens : List Token}
    (path : String) (source : Source)
    (h : answers.map TokenStream.unlined = tokens.map fun token => .ok token.unlined)
    (hrun : (ofSource path source).run .statement (tokens.map .ok) = (.ok (), b)) :
    ∃ a', (ofSource path source).run .statement answers = (.ok (), a') ∧
      a'.unit.unlined = b.unit.unlined := by
  have hsame : (tokens.map Except.ok).map TokenStream.unlined =
      answers.map TokenStream.unlined := by
    rw [h, List.map_map]
    rfl
  rcases (tracks_ofSource path path source source).run hsame hrun with
    ⟨a', hrun', htracks⟩ | ⟨name, line, he, hshared⟩
  · exact ⟨a', hrun', htracks.unlined_eq⟩
  · exact (not_clashes_empty ⟨name, line, rfl, hshared⟩).elim

/-- Lines that stand at their positions and define no name twice are assembled to what is on
them. -/
theorem assemble_sections (e : Literal.Escaping) (path : String) {lines : Section → List Line}
    {stop : Section → Nat} (hspelled : ∀ home, ∀ line ∈ lines home, line.Spelled)
    (hlaid : ∀ home, Laid home 0 (lines home) (stop home))
    (hnodup : ((Section.all.flatMap fun home => (lines home).flatMap Line.labels).map
      Prod.fst).Nodup) :
    ∃ b, (ofSource path (.ofBytes (printSections e lines))).assemble = (.ok (), b) ∧
      b.warnings = [] ∧
      b.unit.unlined.labels.entries =
        (Section.all.flatMap fun home => (lines home).flatMap Line.labels) ∧
      b.unit.data.entries =
        (Section.all.flatMap fun home => (lines home).flatMap Line.declarations) ∧
      b.unit.unlined.instructions =
        Section.all.flatMap fun home => (lines home).flatMap Line.instructions := by
  let source : Source := .ofBytes (printSections e lines)
  let printed := Section.all.flatMap fun home => .activate home :: lines home
  let statements := Section.all.flatMap fun home => (lines home).flatMap (Line.statements home)
  let tokens := printed.flatMap fun line => line.tokens ++ [Token.lineEnd]
  have hanswers : (ofSource path source).input.answers.map TokenStream.unlined =
      tokens.map fun token => .ok token.unlined := by
    have hlines : ∀ line ∈ printed.map fun line => (line.bytes e, line.tokens),
        Spells line.1 line.2 := by
      intro pair hpair
      obtain ⟨line, hline, rfl⟩ := List.mem_map.mp hpair
      obtain ⟨home, -, hmem⟩ := List.mem_flatMap.mp hline
      have hread : line.Spelled := by
        rcases List.mem_cons.mp hmem with rfl | hmem
        · trivial
        · exact hspelled home line hmem
      exact line.spells e hread
    have hlined := Dissection.answers_lines path hlines
    rw [List.flatMap_map, List.flatMap_map] at hlined
    exact hlined
  have hcollect {α : Type} {contribution : PerSection Nat → Statement → List α}
      {share : Line → List α} (hshare : Contributes contribution share) :
      Statement.collect contribution (.const 0) statements =
        Section.all.flatMap fun home => (lines home).flatMap share :=
    collect_sections hshare hspelled hlaid (by decide) fun home _ => PerSection.get_const 0 home
  -- the tokens are taken as they would be if all stood on one line
  have htokens : TokenStream.tokens (tokens.map .ok) = tokens := by
    rw [TokenStream.tokens, List.filterMap_map]
    exact List.filterMap_some
  have hgrammar : Grammar .text none (TokenStream.tokens (tokens.map .ok)) statements := by
    rw [htokens]
    exact grammar_sections hspelled hlaid Section.all .text none
  have hfine : TokenStream.Fine (tokens.map .ok) := by
    intro answer hmem
    obtain ⟨token, -, rfl⟩ := List.mem_map.mp hmem
    rfl
  rw [← hcollect contributes_labels] at hnodup
  obtain ⟨b, hrun, houtlook⟩ :=
    run_of_closes (consistent_ofSource path source).coherent hfine hgrammar hnodup
  have hholds := holds_of_outlook houtlook
  obtain ⟨a', hrun', hunit⟩ := exists_run_of_unlined path source hanswers hrun
  have hwarnings : a'.warnings = [] := by
    have hkept := warnings_run (ofSource path source) .statement hanswers
    rw [hrun'] at hkept
    exact hkept
  refine ⟨a', hrun', hwarnings, ?_, ?_, ?_⟩
  · rw [hunit]
    change (b.unit.labels.mapValues Label.unlined).entries = _
    rw [Table.entries_mapValues, hholds.labels, hcollect contributes_labels]
    simp only [List.map_flatMap, Line.map_unlined_labels]
  · change a'.unit.unlined.data.entries = _
    rw [hunit]
    change b.unit.data.entries = _
    rw [hholds.data, hcollect contributes_declarations]
  · rw [hunit]
    change b.unit.instructions.map Instruction.unlined = _
    rw [hholds.instructions, hcollect contributes_instructions]
    simp only [List.map_flatMap, Line.map_unlined_instructions]

end Assembly

end AsmLinker
