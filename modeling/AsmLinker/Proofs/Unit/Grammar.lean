import Mathlib
import AsmLinker.Proofs.Token.Answers
import AsmLinker.Proofs.Unit.Invariant

/-!
# The grammar of a source

`Grammar` says which sequences of tokens are a source, item by item, and which statements they
make: labels, instructions and data, each with the section it belongs to. `Statement.collect` says
what a sequence of statements comes to, position by position, without looking at an assembly.

Assembling accepts exactly the sources of the grammar that define no name twice, and the unit holds
the labels, the data and the instructions of the statements, all of them and in their order
(`Assembly.assemble_ok_iff`). `Context.Closes` carries this through a statement: it says what the
remaining tokens must be for each context, and a token is taken exactly if it leads from one such
context to another.
-/

namespace AsmLinker

/-! ## Operands -/

/-- The lexeme is this operand in the slot. -/
inductive Slot.Fits : Slot → Lexeme → Operand → Prop
  | register {slot : Slot} (h : slot = .register ∨ slot = .registerOrLiteral) (index : UInt8) :
      Fits slot (.register index) (.register index)
  | literal {slot : Slot} (h : slot ≠ .register) (text : String) (value : UInt64) :
      Fits slot (.digits text value) (.literal value)
  | label {slot : Slot} (h : slot ≠ .register) (name : String) :
      Fits slot (.identifier name) (.label name)

theorem Slot.fits_iff {slot : Slot} {lexeme : Lexeme} {operand : Operand} :
    slot.Fits lexeme operand ↔ Operand.ofLexeme? slot lexeme = some operand := by
  constructor
  · intro h
    cases h with
    | register h index => rcases h with rfl | rfl <;> rfl
    | literal h | label h =>
      cases slot with
      | register => exact absurd rfl h
      | literal | address | registerOrLiteral => rfl
  · intro h
    cases slot <;> cases lexeme <;> cases h
    all_goals first
      | exact .register (by decide) _
      | exact .literal (by decide) _ _
      | exact .label (by decide) _

/-- The tokens are operands for the slots: each fits its slot, and a comma follows each of them but
the last. -/
inductive Operands : List Slot → List Token → List Operand → Prop
  | nil : Operands [] [] []
  | cons {slot : Slot} {slots : List Slot} {token : Token} {tokens : List Token}
      {operand : Operand} {operands : List Operand} (hfits : slot.Fits token.lexeme operand)
      (hcomma : token.comma = !slots.isEmpty) (h : Operands slots tokens operands) :
      Operands (slot :: slots) (token :: tokens) (operand :: operands)

/-- Adds operands to an instruction, one for each slot. -/
def Instruction.addOperands (ins : Instruction) : List Slot → List Operand → Instruction
  | slot :: slots, operand :: operands => (ins.addOperand slot operand).addOperands slots operands
  | _, _ => ins

/-! ## Statements -/

/-- What a source says. -/
inductive Statement where
  /-- A name for the current position of a section. -/
  | label (name : String) (home : Section) (line : Nat)
  /-- An instruction at the end of the text section. -/
  | instruction (ins : Instruction)
  /-- Data at the end of a section. -/
  | data (name : String) (home : Section) (encoding : Encoding) (text : String)

namespace Statement

/-- The data of a statement at the current position of its section. -/
def declaration (name : String) (home : Section) (encoding : Encoding) (text : String)
    (offsets : PerSection Nat) : Declaration :=
  { name, home, encoding, offset := offsets.get home, bytes := text.toUTF8.data.toList }

/-- The current positions behind a statement. -/
def advance (offsets : PerSection Nat) : Statement → PerSection Nat
  | .label .. => offsets
  | .instruction _ => offsets.set .text (offsets.text + Record.size)
  | .data name home encoding text =>
    offsets.set home (declaration name home encoding text offsets).stop

/-- The label that a statement defines. -/
def labels (offsets : PerSection Nat) : Statement → List (String × Label)
  | .label name home line => [(name, { name, home, offset := offsets.get home, line })]
  | _ => []

/-- The data that a statement declares. -/
def declarations (offsets : PerSection Nat) : Statement → List (String × Declaration)
  | .data name home encoding text => [(name, declaration name home encoding text offsets)]
  | _ => []

/-- The instruction that a statement is. -/
def instructions (_ : PerSection Nat) : Statement → List Instruction
  | .instruction ins => [ins]
  | _ => []

/-- What statements contribute, each at the positions behind those before it. -/
def collect {α : Type} (contribution : PerSection Nat → Statement → List α) :
    PerSection Nat → List Statement → List α
  | _, [] => []
  | offsets, statement :: rest =>
    contribution offsets statement ++ collect contribution (statement.advance offsets) rest

/-- Further statements contribute at the positions behind those before them. -/
theorem collect_append {α : Type} (contribution : PerSection Nat → Statement → List α)
    (offsets : PerSection Nat) (first second : List Statement) :
    collect contribution offsets (first ++ second) =
      collect contribution offsets first ++
        collect contribution (first.foldl advance offsets) second := by
  induction first generalizing offsets with
  | nil => rfl
  | cons statement rest ih => rw [List.cons_append, collect, collect, ih, List.append_assoc]; rfl

/-- The name that a statement defines. -/
def defined? : Statement → Option String
  | .label name _ _ => some name
  | _ => none

/-- The labels that statements define have the names that they define. -/
theorem map_fst_collect_labels (offsets : PerSection Nat) (statements : List Statement) :
    (collect labels offsets statements).map Prod.fst = statements.filterMap defined? := by
  induction statements generalizing offsets with
  | nil => rfl
  | cons statement rest ih =>
    rw [collect, List.map_append, ih]
    cases statement <;> rfl

end Statement

/-- A unit holds what statements contribute: nothing else, nothing less, and in their order. -/
structure SourceUnit.Holds (u : SourceUnit) (statements : List Statement) : Prop where
  /-- The labels. -/
  labels : u.labels.entries = Statement.collect Statement.labels (.const 0) statements
  /-- The data. -/
  data : u.data.entries = Statement.collect Statement.declarations (.const 0) statements
  /-- The instructions. -/
  instructions : u.instructions = Statement.collect Statement.instructions (.const 0) statements

/-! ## Sources -/

/-- The line ends, or the source does. -/
inductive LineEnds : List Token → List Token → Prop
  | line {token : Token} {rest : List Token} (hlexeme : token.lexeme = .endOfLine) :
      LineEnds (token :: rest) rest
  | file : LineEnds [] []

/-- A literal without a comma, which ends its line. -/
inductive ClosingLiteral : List Token → String → List Token → Prop
  | mk {token : Token} {tail rest : List Token} {text : String}
      (hlexeme : token.lexeme = .ascii text) (hcomma : token.comma = false)
      (hends : LineEnds tail rest) : ClosingLiteral (token :: tail) text rest

/-- The tokens make these statements where a section is active and a label may wait for its data. -/
inductive Grammar : Section → Option String → List Token → List Statement → Prop
  | done {active : Section} {pending : Option String} : Grammar active pending [] []
  /-- The end of a line. -/
  | blank {active : Section} {pending : Option String} {token : Token} {rest : List Token}
      {statements : List Statement} (hlexeme : token.lexeme = .endOfLine)
      (h : Grammar active pending rest statements) :
      Grammar active pending (token :: rest) statements
  /-- A section becomes active. -/
  | activate {active home : Section} {pending : Option String} {token : Token}
      {rest : List Token} {statements : List Statement}
      (hlexeme : token.lexeme = .directive home.name) (h : Grammar home none rest statements) :
      Grammar active pending (token :: rest) statements
  /-- A label. -/
  | label {active : Section} {pending : Option String} {token : Token} {name : String}
      {rest : List Token} {statements : List Statement} (hlexeme : token.lexeme = .label name)
      (h : Grammar active (some name) rest statements) :
      Grammar active pending (token :: rest) (.label name active token.line :: statements)
  /-- An instruction with its operands, which ends its line. -/
  | instruction {pending : Option String} {token : Token} {op : Opcode}
      {tokens tail rest : List Token} {operands : List Operand} {statements : List Statement}
      (hlexeme : token.lexeme = .opcode op) (hcomma : token.comma = false)
      (hoperands : Operands op.slots tokens operands) (hends : LineEnds tail rest)
      (h : Grammar .text none rest statements) :
      Grammar .text pending (token :: (tokens ++ tail))
        (.instruction (Instruction.addOperands { op, line := token.line } op.slots operands) ::
          statements)
  /-- Data for the label before it, the literal on the same line or a later one. -/
  | directive {active : Section} {token : Token} {word name text : String} {encoding : Encoding}
      {blanks tail rest : List Token} {statements : List Statement} (hactive : active ≠ .text)
      (hlexeme : token.lexeme = .directive word) (hword : Assembly.Announces word encoding)
      (hblanks : ∀ blank ∈ blanks, blank.lexeme = .endOfLine)
      (hliteral : ClosingLiteral tail text rest) (h : Grammar active none rest statements) :
      Grammar active (some name) (token :: (blanks ++ tail))
        (.data name active encoding text :: statements)
  /-- A name and its data, with a terminator. -/
  | declaration {active : Section} {pending : Option String} {token : Token} {name text : String}
      {tail rest : List Token} {statements : List Statement} (hactive : active ≠ .text)
      (hlexeme : token.lexeme = .identifier name) (hliteral : ClosingLiteral tail text rest)
      (h : Grammar active none rest statements) :
      Grammar active pending (token :: tail)
        (.label name active token.line :: .data name active .zeroTerminated text :: statements)

theorem Grammar.eq_nil {active : Section} {pending : Option String} {statements : List Statement}
    (h : Grammar active pending [] statements) : statements = [] := by
  cases h
  rfl

/-- A section is activated by its name. -/
theorem Section.ofName?_eq_some_iff {name : String} {home : Section} :
    Section.ofName? name = some home ↔ name = home.name := by
  constructor
  · intro h
    unfold Section.ofName? at h
    split at h <;> cases h <;> rfl
  · rintro rfl
    cases home <;> rfl

/-- What the remaining tokens must be in a context, and the statements that they complete. -/
def Context.Closes (active : Section) (pending : Option String) :
    Context → List Token → List Statement → Prop
  | .statement, tokens, statements => Grammar active pending tokens statements
  | .directive _ encoding name, tokens, statements =>
    active ≠ .text ∧ ∃ blanks tail text rest after, tokens = blanks ++ tail ∧
      (∀ blank ∈ blanks, blank.lexeme = .endOfLine) ∧ ClosingLiteral tail text rest ∧
      Grammar active pending rest after ∧ statements = .data name active encoding text :: after
  | .declaration name line, tokens, statements =>
    active ≠ .text ∧ ∃ text rest after, ClosingLiteral tokens text rest ∧
      Grammar active pending rest after ∧
      statements = .label name active line :: .data name active .zeroTerminated text :: after
  | .operands ins slots comma, tokens, statements =>
    (slots = [] → comma = false) ∧ ∃ arguments operands tail rest after,
      tokens = arguments ++ tail ∧ Operands slots arguments operands ∧ LineEnds tail rest ∧
      Grammar active pending rest after ∧
      statements = .instruction (ins.addOperands slots operands) :: after
  | .closing, tokens, statements =>
    ∃ rest, LineEnds tokens rest ∧ Grammar active pending rest statements

namespace Assembly

variable {a a' b : Assembly} {context next : Context} {token : Token} {tokens : List Token}
  {statements : List Statement}

/-- What a unit will hold when further statements have been assembled. -/
structure Outlook where
  /-- The labels by name. -/
  labels : List (String × Label)
  /-- The data by name. -/
  declarations : List (String × Declaration)
  /-- The instructions. -/
  instructions : List Instruction

/-- What the unit of an assembly will hold when further statements have been assembled. -/
def outlook (a : Assembly) (statements : List Statement) : Outlook where
  labels := a.unit.labels.entries ++ Statement.collect Statement.labels a.offsets statements
  declarations :=
    a.unit.data.entries ++ Statement.collect Statement.declarations a.offsets statements
  instructions :=
    a.unit.instructions ++ Statement.collect Statement.instructions a.offsets statements

theorem outlook_bind {name : String} (line : Nat) (hfresh : name ∉ a.unit.labels.keys)
    (statements : List Statement) :
    (a.bind name line).outlook statements =
      a.outlook (.label name a.active line :: statements) := by
  have hentries : (a.bind name line).unit.labels.entries =
      a.unit.labels.entries ++ Statement.labels a.offsets (.label name a.active line) :=
    Table.entries_insert_of_not_mem _ hfresh
  rw [outlook, outlook, hentries, List.append_assoc]
  rfl

theorem outlook_record {name : String} (encoding : Encoding) (text : String)
    (hfresh : name ∉ a.unit.data.keys) (statements : List Statement) :
    (a.record name encoding text).outlook statements =
      a.outlook (.data name a.active encoding text :: statements) := by
  have hentries : (a.record name encoding text).unit.data.entries = a.unit.data.entries ++
      Statement.declarations a.offsets (.data name a.active encoding text) :=
    Table.entries_insert_of_not_mem _ hfresh
  rw [outlook, outlook, hentries, List.append_assoc]
  rfl

theorem outlook_append (ins : Instruction) (statements : List Statement) :
    (a.append ins).outlook statements = a.outlook (.instruction ins :: statements) := by
  have hinstructions : (a.append ins).unit.instructions =
      a.unit.instructions ++ Statement.instructions a.offsets (.instruction ins) := rfl
  rw [outlook, outlook, hinstructions, List.append_assoc]
  rfl

/-! ## One token -/

/-- If the tokens behind an accepted token complete statements, so do the token and they. -/
theorem Takes.exists_closes (h : Takes a context token (.ok next) b) (hc : Coherent context a)
    (htoken : token.lexeme ≠ .endOfFile)
    (hcloses : next.Closes b.active b.pending tokens statements) :
    ∃ before, context.Closes a.active a.pending (token :: tokens) before ∧
      a.outlook before = b.outlook statements := by
  -- the end of the source is no token here, so that only the end of a line ends a line
  have hendOfLine : token.endsLine = true → token.lexeme = .endOfLine := by
    unfold Token.endsLine
    intro hends
    split at hends
    next hlexeme => exact hlexeme
    next hlexeme => exact absurd hlexeme htoken
    next => cases hends
  generalize hresult : (Except.ok next : Except Error Context) = result at h
  cases h with
  | blank hends =>
    cases hresult
    exact ⟨statements, .blank (hendOfLine hends) hcloses, rfl⟩
  | activate hlexeme hname =>
    cases hresult
    obtain rfl := Section.ofName?_eq_some_iff.mp hname
    exact ⟨statements, .activate hlexeme hcloses, rfl⟩
  | announce hlexeme hword hpending =>
    cases hresult
    obtain ⟨hactive, blanks, tail, text, rest, after, rfl, hblanks, hliteral, hafter, rfl⟩ :=
      hcloses
    refine ⟨_, ?_, rfl⟩
    rw [hpending]
    exact .directive hactive hlexeme hword hblanks hliteral hafter
  | label hlexeme hfresh =>
    cases hresult
    exact ⟨_, .label hlexeme hcloses, (outlook_bind token.line hfresh statements).symm⟩
  | operation hlexeme hactive hcomma =>
    cases hresult
    obtain ⟨-, arguments, operands, tail, rest, after, rfl, hoperands, hends, hafter, rfl⟩ :=
      hcloses
    refine ⟨_, ?_, rfl⟩
    change Grammar a.active a.pending _ _
    change Grammar a.active none rest after at hafter
    rw [hactive] at hafter ⊢
    exact .instruction hlexeme hcomma hoperands hends hafter
  | declaration hlexeme hactive =>
    cases hresult
    obtain ⟨-, text, rest, after, hliteral, hafter, rfl⟩ := hcloses
    exact ⟨_, .declaration hactive hlexeme hliteral hafter, rfl⟩
  | await hlexeme =>
    cases hresult
    obtain ⟨hactive, blanks, tail, text, rest, after, rfl, hblanks, hliteral, hafter, rfl⟩ :=
      hcloses
    refine ⟨_, ⟨hactive, token :: blanks, tail, text, rest, after, rfl, ?_, hliteral, hafter, rfl⟩,
      rfl⟩
    exact List.forall_mem_cons.mpr ⟨hlexeme, hblanks⟩
  | directiveLiteral hlexeme hactive =>
    obtain ⟨hcomma, rfl⟩ := literalOutcome_eq_ok hresult.symm
    obtain ⟨rest, hends, hafter⟩ := hcloses
    obtain ⟨-, -, -, -, hfresh⟩ := hc.announced _ _ _ rfl
    refine ⟨_, ⟨hactive, [], token :: tokens, _, rest, statements, rfl, by simp, ?_, hafter, rfl⟩,
      (outlook_record _ _ hfresh statements).symm⟩
    exact .mk hlexeme hcomma hends
  | @declarationLiteral _ name text line hlexeme hactive hfresh =>
    obtain ⟨hcomma, rfl⟩ := literalOutcome_eq_ok hresult.symm
    obtain ⟨rest, hends, hafter⟩ := hcloses
    refine ⟨_, ⟨hactive, text, rest, statements, .mk hlexeme hcomma hends, hafter, rfl⟩, ?_⟩
    have hdata : name ∉ (a.bind name line).unit.data.keys := hc.not_mem_data hfresh
    rw [outlook_record _ _ hdata, outlook_bind line hfresh]
    rfl
  | @operand _ ins slot slots comma operand hfits hcomma =>
    cases hresult
    obtain ⟨hlast, arguments, operands, tail, rest, after, rfl, hoperands, hends, hafter, rfl⟩ :=
      hcloses
    refine ⟨_, ⟨by simp, token :: arguments, operand :: operands, tail, rest, after, rfl, ?_, hends,
      hafter, rfl⟩, rfl⟩
    refine .cons (Slot.fits_iff.mpr hfits) ?_ hoperands
    -- a comma must follow if there are more slots, and none may follow the last operand
    cases slots with
    | nil => exact hlast rfl
    | cons slot slots => simpa using hcomma
  | instruction hends =>
    cases hresult
    refine ⟨_, ⟨fun _ => rfl, [], [], token :: tokens, tokens, statements, rfl, .nil,
      .line (hendOfLine hends), hcloses, rfl⟩, (outlook_append _ statements).symm⟩
  | close hends =>
    cases hresult
    exact ⟨statements, ⟨tokens, .line (hendOfLine hends), hcloses⟩, rfl⟩
  | refuse => cases hresult
  | refuseBound => cases hresult

/-- A name that will be defined is new if no name is defined twice. -/
theorem not_mem_of_nodup {name : String} {home : Section} {line : Nat}
    (h : ((a.outlook (.label name home line :: statements)).labels.map Prod.fst).Nodup) :
    name ∉ a.unit.labels.keys := by
  intro hmem
  rw [outlook, List.map_append] at h
  exact (List.nodup_append.mp h).2.2 name hmem name List.mem_cons_self rfl

/-- A token that goes on with statements, none of which defines a name again, is accepted. -/
theorem exists_takes_of_closes (hc : Coherent context a)
    (hcloses : context.Closes a.active a.pending (token :: tokens) statements)
    (hnodup : ((a.outlook statements).labels.map Prod.fst).Nodup) :
    ∃ next b after, Takes a context token (.ok next) b ∧
      next.Closes b.active b.pending tokens after ∧ b.outlook after = a.outlook statements := by
  have hends : token.lexeme = .endOfLine → token.endsLine = true := by
    intro hlexeme
    rw [Token.endsLine, hlexeme]
  cases context with
  | statement =>
    -- each item of the grammar begins with a token that a rule takes
    generalize hactive : a.active = active at hcloses
    generalize hpending : a.pending = pending at hcloses
    cases hcloses with
    | blank hlexeme h =>
      subst hactive hpending
      exact ⟨_, _, _, .blank (hends hlexeme), h, rfl⟩
    | activate hlexeme h =>
      exact ⟨_, _, _, .activate hlexeme (Section.ofName?_eq_some_iff.mpr rfl), h, rfl⟩
    | label hlexeme h =>
      subst hactive
      have hfresh := not_mem_of_nodup hnodup
      exact ⟨_, _, _, .label hlexeme hfresh, h, outlook_bind token.line hfresh _⟩
    | instruction hlexeme hcomma hoperands hlast h =>
      refine ⟨_, _, _, .operation hlexeme hactive hcomma,
        ⟨fun _ => rfl, _, _, _, _, _, rfl, hoperands, hlast, ?_, rfl⟩, rfl⟩
      change Grammar a.active none _ _
      rw [hactive]
      exact h
    | directive htext hlexeme hword hblanks hliteral h =>
      subst hactive
      exact ⟨_, _, _, .announce hlexeme hword hpending,
        ⟨htext, _, _, _, _, _, rfl, hblanks, hliteral, h, rfl⟩, rfl⟩
    | declaration htext hlexeme hliteral h =>
      subst hactive
      exact ⟨_, _, _, .declaration hlexeme htext, ⟨htext, _, _, _, hliteral, h, rfl⟩, rfl⟩
  | directive word encoding name =>
    obtain ⟨hactive, blanks, tail, text, rest, after, htokens, hblanks, hliteral, h, rfl⟩ := hcloses
    cases blanks with
    | nil =>
      obtain ⟨hlexeme, hcomma, hlast⟩ := hliteral
      cases htokens
      obtain ⟨-, -, -, -, hfresh⟩ := hc.announced _ _ _ rfl
      have htakes : Takes a (.directive word encoding name) token (literalOutcome token)
          (a.record name encoding text) := .directiveLiteral hlexeme hactive
      rw [literalOutcome_of_comma hcomma] at htakes
      exact ⟨_, _, _, htakes, ⟨_, hlast, h⟩, outlook_record _ _ hfresh _⟩
    | cons blank blanks =>
      cases htokens
      obtain ⟨hlexeme, hblanks⟩ := List.forall_mem_cons.mp hblanks
      exact ⟨_, _, _, .await hlexeme, ⟨hactive, _, _, _, _, _, rfl, hblanks, hliteral, h, rfl⟩, rfl⟩
  | declaration name line =>
    obtain ⟨hactive, text, rest, after, hliteral, h, rfl⟩ := hcloses
    obtain ⟨hlexeme, hcomma, hlast⟩ := hliteral
    have hfresh := not_mem_of_nodup hnodup
    have hdata : name ∉ (a.bind name line).unit.data.keys := hc.not_mem_data hfresh
    have htakes : Takes a (.declaration name line) token (literalOutcome token)
        ((a.bind name line).record name .zeroTerminated text) :=
      .declarationLiteral hlexeme hactive hfresh
    rw [literalOutcome_of_comma hcomma] at htakes
    refine ⟨_, _, _, htakes, ⟨_, hlast, h⟩, ?_⟩
    rw [outlook_record _ _ hdata]
    exact outlook_bind line hfresh _
  | operands ins slots comma =>
    obtain ⟨hlast, arguments, operands, tail, rest, after, htokens, hoperands, hline, h, rfl⟩ :=
      hcloses
    cases hoperands with
    | nil =>
      cases htokens
      cases hline with
      | line hlexeme =>
        rw [hlast rfl]
        exact ⟨_, _, _, .instruction (hends hlexeme), h, outlook_append _ _⟩
    | @cons slot slots _ arguments operand operands hfits hcomma hoperands =>
      cases htokens
      refine ⟨_, _, _, .operand (Slot.fits_iff.mp hfits) ?_,
        ⟨?_, _, _, _, _, _, rfl, hoperands, hline, h, rfl⟩, rfl⟩
      · cases slots with
        | nil => exact .inl rfl
        | cons => exact .inr hcomma
      · rintro rfl
        exact hcomma
  | closing =>
    obtain ⟨rest, hline, h⟩ := hcloses
    cases hline with
    | line hlexeme => exact ⟨_, _, _, .close (hends hlexeme), h, rfl⟩

/-- The end of the source is accepted where no further token is needed. -/
theorem Takes.exists_closes_nil {line : Nat}
    (h : Takes a context (.endOfFile line) (.ok .statement) a') :
    ∃ statements, context.Closes a.active a.pending [] statements ∧
      a.outlook statements = a'.outlook [] := by
  generalize hresult : (Except.ok .statement : Except Error Context) = result at h
  cases h with
  | blank => exact ⟨[], .done, rfl⟩
  | instruction =>
    exact ⟨_, ⟨fun _ => rfl, [], [], [], [], [], rfl, .nil, .file, .done, rfl⟩,
      (outlook_append _ []).symm⟩
  | close => exact ⟨[], ⟨[], .file, .done⟩, rfl⟩
  | operand | refuse | refuseBound => cases hresult
  | activate hlexeme | announce hlexeme | label hlexeme | operation hlexeme | declaration hlexeme
  | await hlexeme | directiveLiteral hlexeme | declarationLiteral hlexeme => cases hlexeme

theorem takes_endOfFile_of_closes (line : Nat)
    (hcloses : context.Closes a.active a.pending [] statements) :
    ∃ a', Takes a context (.endOfFile line) (.ok .statement) a' ∧
      a'.outlook [] = a.outlook statements := by
  cases context with
  | statement =>
    obtain rfl := Grammar.eq_nil hcloses
    exact ⟨a, .blank rfl, rfl⟩
  | directive word encoding name =>
    obtain ⟨-, blanks, tail, text, rest, after, htokens, -, hliteral, -⟩ := hcloses
    obtain ⟨-, rfl⟩ := List.append_eq_nil_iff.mp htokens.symm
    cases hliteral
  | declaration name line =>
    obtain ⟨-, text, rest, after, hliteral, -⟩ := hcloses
    cases hliteral
  | operands ins slots comma =>
    obtain ⟨hlast, arguments, operands, tail, rest, after, htokens, hoperands, hline, h, rfl⟩ :=
      hcloses
    obtain ⟨rfl, rfl⟩ := List.append_eq_nil_iff.mp htokens.symm
    cases hoperands
    cases hline
    obtain rfl := h.eq_nil
    rw [hlast rfl]
    exact ⟨_, .instruction rfl, outlook_append ins []⟩
  | closing =>
    obtain ⟨rest, hline, h⟩ := hcloses
    cases hline
    obtain rfl := h.eq_nil
    exact ⟨a, .close rfl, rfl⟩

end Assembly

/-! ## Whole sources -/

namespace TokenStream

/-- The tokens among answers of the scanner. -/
def tokens (answers : List (Except Error Token)) : List Token :=
  answers.filterMap Except.toOption

theorem mem_tokens {token : Token} {answers : List (Except Error Token)} :
    token ∈ tokens answers ↔ .ok token ∈ answers := by
  rw [tokens, List.mem_filterMap]
  constructor
  · rintro ⟨e | other, hmem, htoken⟩
    · cases htoken
    · cases htoken
      exact hmem
  · exact fun hmem => ⟨.ok token, hmem, rfl⟩

/-- The end of the file is not among the answers of a stream. -/
theorem lexeme_ne_endOfFile (line : Nat) (readings : List Reading) :
    ∀ token ∈ tokens (ofReadings line readings).answers, token.lexeme ≠ .endOfFile := by
  intro token hmem
  rw [mem_tokens] at hmem
  induction readings generalizing line with
  | nil => cases hmem
  | cons reading rest ih =>
    rw [ofReadings] at hmem
    rcases hend : reading.isEnd with _ | _
    · rw [hend, if_neg Bool.false_ne_true] at hmem
      rcases List.mem_cons.mp hmem with hanswer | hrest
      · -- a reading of the end of the file would have ended the stream
        intro hlexeme
        rw [Reading.isEnd, ← hanswer] at hend
        simp [Token.kind, hlexeme, Lexeme.kind] at hend
      · exact ih _ hrest
    · rw [hend, if_pos rfl] at hmem
      cases hmem

end TokenStream

namespace Assembly

variable {a a' : Assembly} {context : Context} {statements : List Statement}
  {answers : List (Except Error Token)}

/-- A run that goes well has read statements, and nothing was refused. -/
theorem exists_closes_of_run (hc : Coherent context a)
    (hend : ∀ token ∈ TokenStream.tokens answers, token.lexeme ≠ .endOfFile)
    (h : a.run context answers = (.ok (), a')) :
    TokenStream.Fine answers ∧
      ∃ statements, context.Closes a.active a.pending (TokenStream.tokens answers) statements ∧
        a.outlook statements = a'.outlook [] := by
  induction answers generalizing a context with
  | nil =>
    obtain ⟨next, b, hall, htakes⟩ := feedAll_of_run_ok h
    cases hall
    obtain ⟨statements, hcloses, houtlook⟩ := htakes.exists_closes_nil
    exact ⟨by simp [TokenStream.Fine], statements, hcloses, houtlook⟩
  | cons answer rest ih =>
    cases answer with
    | error e =>
      rw [run] at h
      split at h
      · cases h
      next hfatal =>
        obtain ⟨hfine, hcloses⟩ := ih (coherent_invariant.warned _ hc) hend h
        refine ⟨?_, hcloses⟩
        exact List.forall_mem_cons.mpr ⟨Bool.not_eq_true _ ▸ hfatal, hfine⟩
    | ok token =>
      have htakes := takes_feed a context token
      rw [run] at h
      rcases hfeed : a.feed context token with ⟨e | next, b⟩
      · rw [hfeed] at h
        cases h
      · rw [hfeed] at h htakes
        -- what the rest completes in the next context, the token and the rest complete in this one
        obtain ⟨htoken, hrest⟩ := List.forall_mem_cons.mp hend
        obtain ⟨hfine, after, hcloses, houtlook⟩ := ih (htakes.coherent hc) hrest h
        obtain ⟨before, hbefore, hsame⟩ := htakes.exists_closes hc htoken hcloses
        exact ⟨List.forall_mem_cons.mpr ⟨rfl, hfine⟩, before, hbefore, hsame.trans houtlook⟩

/-- A run over statements, none of which defines a name again, goes well. -/
theorem run_of_closes (hc : Coherent context a) (hfine : TokenStream.Fine answers)
    (hcloses : context.Closes a.active a.pending (TokenStream.tokens answers) statements)
    (hnodup : ((a.outlook statements).labels.map Prod.fst).Nodup) :
    ∃ a', a.run context answers = (.ok (), a') ∧ a'.outlook [] = a.outlook statements := by
  induction answers generalizing a context statements with
  | nil =>
    obtain ⟨a', htakes, houtlook⟩ :=
      takes_endOfFile_of_closes (a := a.withRest []) a.input.endLine hcloses
    refine ⟨a', ?_, houtlook⟩
    rw [run_nil, htakes.feed_eq]
  | cons answer rest ih =>
    obtain ⟨hanswer, hrest⟩ := List.forall_mem_cons.mp hfine
    cases answer with
    | error e =>
      -- an unknown character is skipped, and is no token
      have hfatal : e.isFatal = false := hanswer
      rw [run, hfatal, if_neg Bool.false_ne_true]
      exact ih (coherent_invariant.warned _ hc) hrest hcloses hnodup
    | ok token =>
      obtain ⟨next, b, after, htakes, hafter, hsame⟩ := exists_takes_of_closes hc hcloses hnodup
      rw [run, htakes.feed_eq]
      obtain ⟨a', hrun, houtlook⟩ := ih (htakes.coherent hc) hrest hafter (hsame ▸ hnodup)
      exact ⟨a', hrun, houtlook.trans hsame⟩

/-- What was to be expected before the first token is what the unit holds at the end. -/
theorem holds_of_outlook {path : String} {source : Source}
    (h : a'.outlook [] = (ofSource path source).outlook statements) : a'.unit.Holds statements where
  labels := (List.append_nil _).symm.trans (congrArg Outlook.labels h)
  data := (List.append_nil _).symm.trans (congrArg Outlook.declarations h)
  instructions := (List.append_nil _).symm.trans (congrArg Outlook.instructions h)

/-- A source that is assembled consists of statements, and its unit holds them. -/
theorem exists_grammar_of_assemble {path : String} {source : Source}
    (h : (ofSource path source).assemble = (.ok (), a')) :
    TokenStream.Fine (ofSource path source).input.answers ∧ ∃ statements,
      Grammar .text none (TokenStream.tokens (ofSource path source).input.answers) statements ∧
      a'.unit.Holds statements := by
  have hend := TokenStream.lexeme_ne_endOfFile 1
    (Scanner.readings { source, origin := path, lineEnds := true })
  obtain ⟨hfine, statements, hgrammar, houtlook⟩ :=
    exists_closes_of_run (consistent_ofSource path source).coherent hend h
  exact ⟨hfine, statements, hgrammar, holds_of_outlook houtlook.symm⟩

/-- Statements that define no name twice are assembled. -/
theorem assemble_of_grammar {path : String} {source : Source}
    (hfine : TokenStream.Fine (ofSource path source).input.answers)
    (hgrammar : Grammar .text none (TokenStream.tokens (ofSource path source).input.answers)
      statements)
    (hnodup : (statements.filterMap Statement.defined?).Nodup) :
    ∃ a', (ofSource path source).assemble = (.ok (), a') ∧ a'.unit.Holds statements := by
  rw [← Statement.map_fst_collect_labels (.const 0)] at hnodup
  obtain ⟨a', hrun, houtlook⟩ :=
    run_of_closes (consistent_ofSource path source).coherent hfine hgrammar hnodup
  exact ⟨a', hrun, holds_of_outlook houtlook⟩

/-- A source is assembled exactly if the scanner refuses nothing in it but unknown characters, its
tokens are statements of the grammar, and no name is defined twice. Its unit then holds these
statements. -/
theorem assemble_ok_iff (path : String) (source : Source) :
    let a := ofSource path source
    let tokens := TokenStream.tokens a.input.answers
    (a.assemble.1 = .ok () ↔ TokenStream.Fine a.input.answers ∧ ∃ statements,
      Grammar .text none tokens statements ∧ (statements.filterMap Statement.defined?).Nodup) ∧
    ∀ statements, TokenStream.Fine a.input.answers → Grammar .text none tokens statements →
      (statements.filterMap Statement.defined?).Nodup → a.assemble.2.unit.Holds statements := by
  intro a tokens
  refine ⟨⟨?_, ?_⟩, ?_⟩
  · intro hok
    have hassemble : a.assemble = (.ok (), a.assemble.2) := Prod.ext hok rfl
    obtain ⟨hfine, statements, hgrammar, hholds⟩ := exists_grammar_of_assemble hassemble
    refine ⟨hfine, statements, hgrammar, ?_⟩
    -- the names are those of a table
    rw [← Statement.map_fst_collect_labels (.const 0), ← hholds.labels]
    exact a.assemble.2.unit.labels.nodup
  · rintro ⟨hfine, statements, hgrammar, hnodup⟩
    obtain ⟨a', hassemble, -⟩ := assemble_of_grammar hfine hgrammar hnodup
    rw [hassemble]
  · intro statements hfine hgrammar hnodup
    obtain ⟨a', hassemble, hholds⟩ := assemble_of_grammar hfine hgrammar hnodup
    rw [hassemble]
    exact hholds

/-- A label and an instruction on one line, and a literal that stands behind the line of its label
and behind that of its directive. -/
theorem assemble_ok_iff_of_late_literal :
    let a := ofSource "unit"
      (.ofBytes "f: mov x0, 7\n.data\nd:\n.ascii\n\"a\"".toUTF8.data.toList)
    let mov : Instruction :=
      { op := .mov, flags := 9, operands := [.register 0, .literal 7], line := 1 }
    a.assemble.1 = .ok () ∧ a.assemble.2.unit.Holds
      [.label "f" .text 1, .instruction mov, .label "d" .data 3, .data "d" .data .raw "a"] := by
  intro a mov
  have htokens : TokenStream.tokens a.input.answers =
      [{ lexeme := .label "f", line := 1 }, { lexeme := .opcode .mov, line := 1 },
        { lexeme := .register 0, comma := true, line := 1 }, { lexeme := .digits "7" 7, line := 1 },
        { lexeme := .endOfLine, line := 1 }, { lexeme := .directive "data", line := 2 },
        { lexeme := .endOfLine, line := 2 }, { lexeme := .label "d", line := 3 },
        { lexeme := .endOfLine, line := 3 }, { lexeme := .directive "ascii", line := 4 },
        { lexeme := .endOfLine, line := 4 }, { lexeme := .ascii "a", line := 5 }] := by
    decide +kernel
  have hfine : ∀ answer ∈ a.input.answers, TokenStream.refused answer = false := by
    decide +kernel
  have hoperands : Operands Opcode.mov.slots
      [{ lexeme := .register 0, comma := true, line := 1 }, { lexeme := .digits "7" 7, line := 1 }]
      [.register 0, .literal 7] :=
    .cons (.register (.inl rfl) 0) rfl (.cons (.literal (by decide) "7" 7) rfl .nil)
  have hblank : ∀ blank ∈ [({ lexeme := .endOfLine, line := 4 } : Token)],
      blank.lexeme = .endOfLine := by
    simp
  have hliteral : ClosingLiteral [{ lexeme := .ascii "a", line := 5 }] "a" [] := .mk rfl rfl .file
  have hgrammar : Grammar .text none (TokenStream.tokens a.input.answers)
      [.label "f" .text 1, .instruction mov, .label "d" .data 3, .data "d" .data .raw "a"] := by
    rw [htokens]
    apply Grammar.label rfl
    apply Grammar.instruction rfl rfl hoperands (.line rfl)
    apply Grammar.activate (show _ = Lexeme.directive Section.data.name from rfl)
    apply Grammar.blank rfl
    apply Grammar.label rfl
    apply Grammar.blank rfl
    exact .directive (by decide) rfl (.inl ⟨rfl, rfl⟩) hblank hliteral .done
  obtain ⟨hok, hholds⟩ := assemble_ok_iff "unit"
    (.ofBytes "f: mov x0, 7\n.data\nd:\n.ascii\n\"a\"".toUTF8.data.toList)
  exact ⟨hok.mpr ⟨hfine, _, hgrammar, by decide⟩, hholds _ hfine hgrammar (by decide)⟩

end Assembly

end AsmLinker
