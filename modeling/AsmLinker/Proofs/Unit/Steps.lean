import Mathlib
import AsmLinker.Proofs.Table
import AsmLinker.Unit.Assembly

/-!
# Steps and runs of an assembly

`Takes` says once what an assembly can do with a token: one rule for each way in which a statement
goes on, and two rules for a refusal. Everything that holds along a run is derived from it, case by
case, and no other proof opens the functions that take tokens.

`feedAll` takes a sequence of answers of the scanner, and `calls` is the work after a number of
calls. `Invariant` packages the induction: what holds at the start and is kept by every token holds
after any number of calls, whether they went well or not. `InvariantOver` does the same for what is
kept by the tokens of some kind only.
-/

namespace AsmLinker.Assembly

/-- The assembly with a name bound to the current position of the active section. -/
def bind (a : Assembly) (name : String) (line : Nat) : Assembly :=
  { a with unit := { a.unit with
      labels := a.unit.labels.insert name
        { name, home := a.active, offset := a.offsets.get a.active, line } } }

/-- The assembly with an instruction at the end of the text section. -/
def append (a : Assembly) (ins : Instruction) : Assembly :=
  { a with
    offsets := a.offsets.set .text (a.offsets.text + Record.size)
    unit := { a.unit with instructions := a.unit.instructions ++ [ins] } }

/-- What comes of a literal that was recorded: a comma behind it is refused. -/
def literalOutcome (token : Token) : Except Error Context :=
  if token.comma then .error (.source token.line .trailingComma) else .ok .closing

/-- The word behind a period announces a literal with this encoding. -/
def Announces (word : String) (encoding : Encoding) : Prop :=
  (word = "ascii" ∧ encoding = .raw) ∨ (word = "asciz" ∧ encoding = .zeroTerminated)

variable {a a' : Assembly} {token : Token} {context : Context} {result : Except Error Context}

theorem literalOutcome_of_comma (h : token.comma = false) :
    literalOutcome token = .ok .closing := by
  rw [literalOutcome, h, if_neg Bool.false_ne_true]

theorem literalOutcome_eq_ok {next : Context} (h : literalOutcome token = .ok next) :
    token.comma = false ∧ next = .closing := by
  unfold literalOutcome at h
  split at h
  · cases h
  next hcomma =>
    cases h
    exact ⟨Bool.not_eq_true _ ▸ hcomma, rfl⟩

/-- What an assembly does with a token in a context. -/
inductive Takes (a : Assembly) : Context → Token → Except Error Context → Assembly → Prop
  /-- A line ends, or the source does. -/
  | blank {token : Token} (hends : token.endsLine = true) :
      Takes a .statement token (.ok .statement) a
  /-- A section becomes active. -/
  | activate {token : Token} {name : String} {home : Section}
      (hlexeme : token.lexeme = .directive name) (hname : Section.ofName? name = some home) :
      Takes a .statement token (.ok .statement) { a with active := home, pending := none }
  /-- A literal is announced for the label before it. -/
  | announce {token : Token} {word name : String} {encoding : Encoding}
      (hlexeme : token.lexeme = .directive word) (hword : Announces word encoding)
      (hpending : a.pending = some name) :
      Takes a .statement token (.ok (.directive word encoding name)) { a with pending := none }
  /-- A new name is bound. -/
  | label {token : Token} {name : String}
      (hlexeme : token.lexeme = .label name) (hfresh : name ∉ a.unit.labels.keys) :
      Takes a .statement token (.ok .statement) { a.bind name token.line with pending := some name }
  /-- An instruction begins. -/
  | operation {token : Token} {op : Opcode}
      (hlexeme : token.lexeme = .opcode op) (hactive : a.active = .text)
      (hcomma : token.comma = false) :
      Takes a .statement token (.ok (.operands { op, line := token.line } op.slots false))
        { a with pending := none }
  /-- A declaration begins. -/
  | declaration {token : Token} {name : String}
      (hlexeme : token.lexeme = .identifier name) (hactive : a.active ≠ .text) :
      Takes a .statement token (.ok (.declaration name token.line)) { a with pending := none }
  /-- The literal of a directive stands on a later line. -/
  | await {token : Token} {word name : String} {encoding : Encoding}
      (hlexeme : token.lexeme = .endOfLine) :
      Takes a (.directive word encoding name) token (.ok (.directive word encoding name)) a
  /-- The literal of a directive. -/
  | directiveLiteral {token : Token} {word name text : String} {encoding : Encoding}
      (hlexeme : token.lexeme = .ascii text) (hactive : a.active ≠ .text) :
      Takes a (.directive word encoding name) token (literalOutcome token)
        (a.record name encoding text)
  /-- The literal of a declaration, whose name is new. -/
  | declarationLiteral {token : Token} {name text : String} {line : Nat}
      (hlexeme : token.lexeme = .ascii text) (hactive : a.active ≠ .text)
      (hfresh : name ∉ a.unit.labels.keys) :
      Takes a (.declaration name line) token (literalOutcome token)
        ((a.bind name line).record name .zeroTerminated text)
  /-- An operand that fits its slot. -/
  | operand {token : Token} {ins : Instruction} {slot : Slot} {slots : List Slot} {comma : Bool}
      {operand : Operand} (hfits : Operand.ofLexeme? slot token.lexeme = some operand)
      (hcomma : slots = [] ∨ token.comma = true) :
      Takes a (.operands ins (slot :: slots) comma) token
        (.ok (.operands (ins.addOperand slot operand) slots token.comma)) a
  /-- An instruction ends. -/
  | instruction {token : Token} {ins : Instruction} (hends : token.endsLine = true) :
      Takes a (.operands ins [] false) token (.ok .statement) (a.append ins)
  /-- A declaration ends. -/
  | close {token : Token} (hends : token.endsLine = true) :
      Takes a .closing token (.ok .statement) a
  /-- A token is refused; at most the waiting label is forgotten. -/
  | refuse {context : Context} {token : Token} {e : Error} {pending : Option String}
      (hpending : pending = a.pending ∨ pending = none) :
      Takes a context token (.error e) { a with pending }
  /-- A declaration is refused in the text section, when its name has been bound. -/
  | refuseBound {token : Token} {name : String} {line : Nat} {e : Error}
      (hactive : a.active = .text) (hfresh : name ∉ a.unit.labels.keys) :
      Takes a (.declaration name line) token (.error e) (a.bind name line)

/-! ## Taking a token follows the rules -/

theorem takes_unchanged (a : Assembly) (context : Context) (token : Token) (e : Error) :
    Takes a context token (.error e) a :=
  .refuse (.inl rfl)

theorem define_of_not_mem {name : String} (line : Nat) (h : name ∉ a.unit.labels.keys) :
    a.define name line = .ok (a.bind name line) := by
  simp [define, bind, h]

theorem define_of_mem {name : String} (line : Nat) (h : name ∈ a.unit.labels.keys) :
    a.define name line = .error (.duplicateLabel (some line) name) := by
  simp [define, h]

theorem declare_of_active (name : String) (encoding : Encoding) (text : String) (token : Token)
    (h : a.active ≠ .text) :
    a.declare name encoding text token = (literalOutcome token, a.record name encoding text) := by
  unfold declare literalOutcome
  rw [if_neg h]
  by_cases hcomma : token.comma = true <;> simp [hcomma, refuse]

theorem declare_of_text (name : String) (encoding : Encoding) (text : String) (token : Token)
    (h : a.active = .text) :
    a.declare name encoding text token = (.error (.source token.line .dataInText), a) := by
  simp [declare, h, refuse]

theorem takes_directive {name : String} (hlexeme : token.lexeme = .directive name) :
    Takes a .statement token (a.directive name token.line).1 (a.directive name token.line).2 := by
  unfold directive
  split
  next home hname => exact .activate hlexeme hname
  next =>
    dsimp only
    split
    · exact takes_unchanged ..
    · rename_i encoding hencoding
      have hword : Announces name encoding := by
        unfold Announces
        split at hencoding <;> simp_all
      split
      · exact takes_unchanged ..
      next label hpending => exact .announce hlexeme hword hpending

theorem takes_label {name : String} (hlexeme : token.lexeme = .label name) :
    Takes a .statement token (a.label name token.line).1 (a.label name token.line).2 := by
  unfold label
  by_cases h : name ∈ a.unit.labels.keys
  · rw [define_of_mem _ h]
    exact takes_unchanged ..
  · rw [define_of_not_mem _ h]
    exact .label hlexeme h

theorem takes_operation {op : Opcode} (hlexeme : token.lexeme = .opcode op) :
    Takes a .statement token (a.operation op token).1 (a.operation op token).2 := by
  unfold operation
  split
  · exact takes_unchanged ..
  next hactive =>
    split
    · exact takes_unchanged ..
    next hcomma => exact .operation hlexeme (not_not.mp hactive) (by simpa using hcomma)

theorem takes_declaration {name : String} (hlexeme : token.lexeme = .identifier name) :
    Takes a .statement token (a.declaration name token.line).1
      (a.declaration name token.line).2 := by
  unfold declaration
  dsimp only
  split
  · exact .refuse (.inr rfl)
  next hactive => exact .declaration hlexeme hactive

theorem takes_begin (a : Assembly) (token : Token) :
    Takes a .statement token (a.begin token).1 (a.begin token).2 := by
  unfold begin
  split
  · next h => exact .blank (by simp [Token.endsLine, h])
  · next h => exact .blank (by simp [Token.endsLine, h])
  · next h => exact takes_directive h
  · next h => exact takes_label h
  · next h => exact takes_operation h
  · next h => exact takes_declaration h
  · exact takes_unchanged ..
  · exact takes_unchanged ..
  · exact takes_unchanged ..

theorem takes_operand (a : Assembly) (ins : Instruction) (slot : Slot) (slots : List Slot)
    (comma : Bool) (token : Token) :
    Takes a (.operands ins (slot :: slots) comma) token (a.operand ins slot slots token).1
      (a.operand ins slot slots token).2 := by
  unfold operand
  split
  · exact takes_unchanged ..
  next operand hfits =>
    split
    · exact takes_unchanged ..
    next hcomma => exact .operand hfits (by simpa [or_iff_not_imp_left] using hcomma)

theorem takes_endOperation (a : Assembly) (ins : Instruction) (comma : Bool) (token : Token) :
    Takes a (.operands ins [] comma) token (a.endOperation ins comma token).1
      (a.endOperation ins comma token).2 := by
  unfold endOperation
  split
  next h =>
    obtain ⟨hends, rfl⟩ : token.endsLine = true ∧ comma = false := by simpa using h
    exact .instruction hends
  · exact takes_unchanged ..

theorem takes_declarationLiteral {name text : String} {line : Nat}
    (hlexeme : token.lexeme = .ascii text) :
    Takes a (.declaration name line) token (a.feed (.declaration name line) token).1
      (a.feed (.declaration name line) token).2 := by
  simp only [feed, hlexeme]
  by_cases h : name ∈ a.unit.labels.keys
  · rw [define_of_mem _ h]
    exact takes_unchanged ..
  · rw [define_of_not_mem _ h]
    dsimp only
    by_cases hactive : a.active = .text
    · rw [declare_of_text _ _ _ _ (show (a.bind name line).active = .text from hactive)]
      exact .refuseBound hactive h
    · rw [declare_of_active _ _ _ _ (show (a.bind name line).active ≠ .text from hactive)]
      exact .declarationLiteral hlexeme hactive h

/-- Whatever the token and the context, taking it is one of the rules. -/
theorem takes_feed (a : Assembly) (context : Context) (token : Token) :
    Takes a context token (a.feed context token).1 (a.feed context token).2 := by
  cases context with
  | statement => exact takes_begin a token
  | directive word encoding name =>
    unfold feed
    dsimp only
    split
    · next h => exact .await h
    · next text h =>
      by_cases hactive : a.active = .text
      · rw [declare_of_text _ _ _ _ hactive]
        exact takes_unchanged ..
      · rw [declare_of_active _ _ _ _ hactive]
        exact .directiveLiteral h hactive
    · exact takes_unchanged ..
  | declaration name line =>
    cases h : token.lexeme with
    | ascii text => exact takes_declarationLiteral h
    | _ =>
      simp only [feed, h]
      exact takes_unchanged ..
  | operands ins slots comma =>
    cases slots with
    | nil => exact takes_endOperation a ins comma token
    | cons slot slots => exact takes_operand a ins slot slots comma token
  | closing =>
    unfold feed
    dsimp only
    split
    next h => exact .close h
    · exact takes_unchanged ..

/-- A rule by which a token is accepted is what taking the token does. -/
theorem Takes.feed_eq {next : Context} (h : Takes a context token (.ok next) a') :
    a.feed context token = (.ok next, a') := by
  generalize hresult : (Except.ok next : Except Error Context) = result at h
  cases h with
  | blank hends =>
    cases hlexeme : token.lexeme <;> simp_all [Token.endsLine, feed, begin]
  | activate hlexeme hname => simp [feed, begin, hlexeme, directive, hname]
  | announce hlexeme hword hpending =>
    rcases hword with ⟨rfl, rfl⟩ | ⟨rfl, rfl⟩ <;>
      simp [feed, begin, hlexeme, directive, Section.ofName?, hpending]
  | label hlexeme hfresh => simp [feed, begin, hlexeme, Assembly.label, define_of_not_mem _ hfresh]
  | operation hlexeme hactive hcomma =>
    simp [feed, begin, hlexeme, Assembly.operation, hactive, hcomma]
  | declaration hlexeme hactive => simp [feed, begin, hlexeme, Assembly.declaration, hactive]
  | await hlexeme => simp [feed, hlexeme]
  | directiveLiteral hlexeme hactive =>
    simp [feed, hlexeme, declare_of_active _ _ _ _ hactive]
  | @declarationLiteral _ name _ line hlexeme hactive hfresh =>
    have hactive' : (a.bind name line).active ≠ .text := hactive
    simp [feed, hlexeme, define_of_not_mem _ hfresh, declare_of_active _ _ _ _ hactive']
  | operand hfits hcomma =>
    rcases hcomma with rfl | hcomma <;> simp_all [feed, Assembly.operand]
  | instruction hends => simp [feed, endOperation, hends, append]
  | close hends => simp [feed, hends]
  | refuse => cases hresult
  | refuseBound => cases hresult

theorem Takes.showPath_eq (h : Takes a context token result a') : a'.showPath = a.showPath := by
  cases h <;> rfl

theorem Takes.input_eq (h : Takes a context token result a') : a'.input = a.input := by
  cases h <;> rfl

/-- Taking a token warns of nothing. -/
theorem Takes.warnings_eq (h : Takes a context token result a') : a'.warnings = a.warnings := by
  cases h <;> rfl

/-- No rule looks at what is left of the source, at the unknown characters that were skipped, or at
whether diagnostics show the path. -/
theorem Takes.framed (h : Takes a context token result a') (shows : Bool) (input : TokenStream)
    (warnings : List Error) :
    Takes { a with showPath := shows, input, warnings } context token result
      { a' with showPath := shows, input, warnings } := by
  cases h with
  | blank hends => exact .blank hends
  | activate hlexeme hname => exact .activate hlexeme hname
  | announce hlexeme hword hpending => exact .announce hlexeme hword hpending
  | label hlexeme hfresh => exact .label hlexeme hfresh
  | operation hlexeme hactive hcomma => exact .operation hlexeme hactive hcomma
  | declaration hlexeme hactive => exact .declaration hlexeme hactive
  | await hlexeme => exact .await hlexeme
  | directiveLiteral hlexeme hactive => exact .directiveLiteral hlexeme hactive
  | declarationLiteral hlexeme hactive hfresh => exact .declarationLiteral hlexeme hactive hfresh
  | operand hfits hcomma => exact .operand hfits hcomma
  | instruction hends => exact .instruction hends
  | close hends => exact .close hends
  | refuse hpending => exact .refuse hpending
  | refuseBound hactive hfresh => exact .refuseBound hactive hfresh

/-- The end of the source is accepted only where a statement may begin behind it, and the end of a
line is accepted there in the same way. -/
theorem Takes.of_endOfFile {line : Nat} {next : Context}
    (h : Takes a context (.endOfFile line) (.ok next) a') : next = .statement ∧
      ∀ token : Token, token.endsLine = true → Takes a context token (.ok .statement) a' := by
  generalize hresult : (Except.ok next : Except Error Context) = result at h
  cases h with
  | blank => exact ⟨Except.ok.inj hresult, fun _ hends => .blank hends⟩
  | instruction => exact ⟨Except.ok.inj hresult, fun _ hends => .instruction hends⟩
  | close => exact ⟨Except.ok.inj hresult, fun _ hends => .close hends⟩
  | operand hfits =>
    rename_i slot _ _ _ _
    cases slot <;> cases hfits
  | refuse => cases hresult
  | refuseBound => cases hresult
  | activate hlexeme | announce hlexeme | label hlexeme | operation hlexeme | declaration hlexeme
  | await hlexeme | directiveLiteral hlexeme | declarationLiteral hlexeme => cases hlexeme

/-! ## Tokens are taken without regard to the input

`Takes.framed` leaves open with which error a token is refused. It is the same one, too. -/

/-- The assembly with another input. -/
def withInput (a : Assembly) (input : TokenStream) : Assembly :=
  { a with input }

theorem declare_withInput (a : Assembly) (input : TokenStream) (name : String) (encoding : Encoding)
    (text : String) (token : Token) :
    (a.withInput input).declare name encoding text token =
      Prod.map id (withInput · input) (a.declare name encoding text token) := by
  unfold declare
  simp only [apply_ite (Prod.map id (withInput · input))]
  rfl

theorem define_withInput (a : Assembly) (input : TokenStream) (name : String) (line : Nat) :
    (a.withInput input).define name line = (a.define name line).map (withInput · input) := by
  unfold define
  simp only [apply_ite (Except.map (withInput · input))]
  rfl

theorem directive_withInput (a : Assembly) (input : TokenStream) (name : String) (line : Nat) :
    (a.withInput input).directive name line =
      Prod.map id (withInput · input) (a.directive name line) := by
  unfold directive
  cases Section.ofName? name with
  | some home => rfl
  | none =>
    have hpending : (a.withInput input).pending = a.pending := rfl
    dsimp only
    rw [hpending]
    split <;> cases a.pending <;> rfl

theorem begin_withInput (a : Assembly) (input : TokenStream) (token : Token) :
    (a.withInput input).begin token = Prod.map id (withInput · input) (a.begin token) := by
  unfold begin
  cases token.lexeme with
  | directive name => exact directive_withInput a input name token.line
  | label name =>
    dsimp only [label]
    rw [define_withInput]
    cases a.define name token.line <;> rfl
  | opcode op =>
    dsimp only [operation]
    simp only [apply_ite (Prod.map id (withInput · input))]
    rfl
  | identifier name =>
    dsimp only [declaration]
    simp only [apply_ite (Prod.map id (withInput · input))]
    rfl
  | endOfFile | endOfLine | register | digits | ascii => rfl

theorem feed_withInput (a : Assembly) (input : TokenStream) (context : Context) (token : Token) :
    (a.withInput input).feed context token =
      Prod.map id (withInput · input) (a.feed context token) := by
  unfold feed
  cases context with
  | statement => exact begin_withInput a input token
  | directive word encoding label =>
    cases token.lexeme with
    | ascii text => exact declare_withInput a input label encoding text token
    | _ => rfl
  | declaration name line =>
    cases token.lexeme with
    | ascii text =>
      dsimp only
      rw [define_withInput]
      cases a.define name line with
      | error e => rfl
      | ok b => exact declare_withInput b input name .zeroTerminated text token
    | _ => rfl
  | operands ins slots comma =>
    cases slots with
    | nil =>
      dsimp only [endOperation]
      simp only [apply_ite (Prod.map id (withInput · input))]
      rfl
    | cons slot slots =>
      dsimp only [operand]
      cases Operand.ofLexeme? slot token.lexeme with
      | none => rfl
      | some operand =>
        simp only [apply_ite (Prod.map id (withInput · input))]
        rfl
  | closing =>
    dsimp only
    simp only [apply_ite (Prod.map id (withInput · input))]
    rfl

/-! ## Sequences of answers -/

/-- Takes answers of the scanner, up to the first error that is not an unknown character. -/
def feedAll (a : Assembly) (context : Context) :
    List (Except Error Token) → Except Error Context × Assembly
  | [] => (.ok context, a)
  | .error e :: rest =>
    if e.isFatal then (.error e, a)
    else feedAll { a with warnings := a.warnings ++ [e] } context rest
  | .ok token :: rest =>
    match a.feed context token with
    | (.error e, a) => (.error e, a)
    | (.ok context, a) => feedAll a context rest

/-- The assembly with the given rest of its input. -/
def withRest (a : Assembly) (rest : List (Except Error Token)) : Assembly :=
  { a with input := { a.input with answers := rest } }

/-- The context in which work goes on: behind an error, before a new statement. -/
def resumed : Except Error Context → Context
  | .ok context => context
  | .error _ => .statement

@[simp] theorem resumed_ok (next : Context) : resumed (.ok next) = next := rfl

@[simp] theorem resumed_error (e : Error) : resumed (.error e) = .statement := rfl

/-- The assembly after a number of calls. -/
def calls (a : Assembly) : Nat → Assembly
  | 0 => a
  | n + 1 => (a.calls n).assemble.2

theorem feedAll_ok_cons {rest : List (Except Error Token)} {next : Context}
    (h : a.feed context token = (.ok next, a')) :
    a.feedAll context (.ok token :: rest) = a'.feedAll next rest := by
  simp [feedAll, h]

/-- An accepted sequence can be taken in two parts. -/
theorem feedAll_append {first second : List (Except Error Token)} {next : Context}
    (h : a.feedAll context first = (.ok next, a')) :
    a.feedAll context (first ++ second) = a'.feedAll next second := by
  fun_induction feedAll a context first with
  | case1 a context => cases h; rfl
  | case2 => cases h
  | case3 a context e rest hfatal ih => simpa [feedAll, hfatal] using ih h
  | case4 => cases h
  | case5 a context token rest next' a'' hfeed ih => simpa [feedAll, hfeed] using ih h

/-- A sequence that is refused is refused with anything behind it. -/
theorem feedAll_append_error {first : List (Except Error Token)} {e : Error}
    (second : List (Except Error Token)) (h : a.feedAll context first = (.error e, a')) :
    a.feedAll context (first ++ second) = (.error e, a') := by
  fun_induction feedAll a context first with
  | case1 => cases h
  | case2 a context e' rest hfatal => simpa [feedAll, hfatal] using h
  | case3 a context e rest hfatal ih => simpa [feedAll, hfatal] using ih h
  | case4 a context token rest e a'' hfeed => simpa [feedAll, hfeed] using h
  | case5 a context token rest next' a'' hfeed ih => simpa [feedAll, hfeed] using ih h

/-- Answers are taken in the same way whatever stands behind them. -/
theorem feedAll_withInput (a : Assembly) (input : TokenStream) (context : Context)
    (answers : List (Except Error Token)) :
    (a.withInput input).feedAll context answers =
      Prod.map id (withInput · input) (a.feedAll context answers) := by
  fun_induction feedAll a context answers with
  | case1 => rfl
  | case2 a context e rest hfatal => simp [feedAll, hfatal]
  | case3 a context e rest hfatal ih =>
    rw [feedAll, if_neg hfatal]
    exact ih
  | case4 a context token rest e a' hfeed => simp [feedAll, feed_withInput, hfeed]
  | case5 a context token rest next a' hfeed ih =>
    rw [feedAll, feed_withInput, hfeed]
    exact ih

theorem input_feedAll (a : Assembly) (context : Context) (answers : List (Except Error Token)) :
    (a.feedAll context answers).2.input = a.input :=
  congrArg (fun result => result.2.input) (feedAll_withInput a a.input context answers)

/-- An accepted sequence was accepted up to each of its tokens, with the token, and behind it. -/
theorem feedAll_split {before after : List (Except Error Token)} {last : Context}
    (h : a.feedAll context (before ++ .ok token :: after) = (.ok last, a')) :
    ∃ next b next' b', a.feedAll context before = (.ok next, b) ∧
      Takes b next token (.ok next') b' ∧ b'.feedAll next' after = (.ok last, a') := by
  rcases hbefore : a.feedAll context before with ⟨e | next, b⟩
  · rw [feedAll_append_error _ hbefore] at h
    cases h
  · rw [feedAll_append hbefore] at h
    have htakes := takes_feed b next token
    rcases hfeed : b.feed next token with ⟨e | next', b'⟩
    · simp [feedAll, hfeed] at h
    · rw [hfeed] at htakes
      rw [feedAll_ok_cons hfeed] at h
      exact ⟨next, b, next', b', rfl, htakes, h⟩

/-- A run over a sequence that is refused ends with the same error. -/
theorem run_of_feedAll_error {answers : List (Except Error Token)} {e : Error}
    (h : a.feedAll context answers = (.error e, a')) :
    ∃ rest, a.run context answers = (.error e, a'.withRest rest) := by
  fun_induction feedAll a context answers with
  | case1 => cases h
  | case2 a context e' rest hfatal =>
    cases h
    exact ⟨rest, by simp [run, hfatal, withRest]⟩
  | case3 a context e rest hfatal ih => simpa [run, hfatal] using ih h
  | case4 a context token rest e a'' hfeed =>
    cases h
    exact ⟨rest, by simp [run, hfeed, withRest]⟩
  | case5 a context token rest next' a'' hfeed ih => simpa [run, hfeed] using ih h

/-- A run goes on behind an accepted sequence. -/
theorem run_append {first : List (Except Error Token)} {next : Context}
    (second : List (Except Error Token)) (h : a.feedAll context first = (.ok next, a')) :
    a.run context (first ++ second) = a'.run next second := by
  fun_induction feedAll a context first with
  | case1 => cases h; rfl
  | case2 => cases h
  | case3 a context e rest hfatal ih => simpa [run, hfatal] using ih h
  | case4 => cases h
  | case5 a context token rest next' a'' hfeed ih => simpa [run, hfeed] using ih h

/-- A run over an accepted sequence ends with the end of the source. -/
theorem run_of_feedAll_ok {answers : List (Except Error Token)} {next : Context}
    (h : a.feedAll context answers = (.ok next, a')) :
    a.run context answers = a'.run next [] := by
  have hrun := run_append [] h
  rwa [List.append_nil] at hrun

/-- At the end of the answers the end of the source is taken. -/
theorem run_nil (a : Assembly) (context : Context) :
    a.run context [] =
      match (a.withRest []).feed context (.endOfFile a.input.endLine) with
      | (.error e, a') => (.error e, a')
      | (.ok _, a') => (.ok (), a') := rfl

/-- The assembly at the end of the answers is the one behind the end of the source. -/
theorem run_nil_snd (a : Assembly) (context : Context) :
    (a.run context []).2 = ((a.withRest []).feed context (.endOfFile a.input.endLine)).2 := by
  rw [run_nil]
  split <;> simp_all

/-- A run takes its answers and then the end of the source, as if that were one of them. -/
theorem exists_run_eq (a : Assembly) (context : Context) (answers : List (Except Error Token)) :
    ∃ input, a.run context answers =
      ((a.feedAll context (answers ++ [.ok (.endOfFile a.input.endLine)])).1.map fun _ => (),
        (a.feedAll context (answers ++ [.ok (.endOfFile a.input.endLine)])).2.withInput input) := by
  rcases hall : a.feedAll context answers with ⟨e | next, b⟩
  · obtain ⟨rest, hrun⟩ := run_of_feedAll_error hall
    rw [hrun, feedAll_append_error _ hall]
    exact ⟨_, rfl⟩
  · have hinput : b.input = a.input := by
      have hkept := input_feedAll a context answers
      rwa [hall] at hkept
    have hrest : b.withRest [] = b.withInput ⟨[], b.input.endLine⟩ := rfl
    rw [run_of_feedAll_ok hall, run_nil, feedAll_append hall, feedAll, hrest, feed_withInput,
      hinput]
    rcases b.feed next (.endOfFile a.input.endLine) with ⟨e | last, b'⟩ <;> exact ⟨_, rfl⟩

/-- A run that goes well accepts all answers and then the end of the source. -/
theorem feedAll_of_run_ok {answers : List (Except Error Token)}
    (h : a.run context answers = (.ok (), a')) :
    ∃ next b, a.feedAll context answers = (.ok next, b) ∧
      Takes (b.withRest []) next (.endOfFile b.input.endLine) (.ok .statement) a' := by
  rcases hall : a.feedAll context answers with ⟨e | next, b⟩
  · obtain ⟨rest, hrun⟩ := run_of_feedAll_error hall
    rw [hrun] at h
    cases h
  · refine ⟨next, b, rfl, ?_⟩
    have htakes := takes_feed (b.withRest []) next (.endOfFile b.input.endLine)
    rw [run_of_feedAll_ok hall, run_nil] at h
    rcases hfeed : (b.withRest []).feed next (.endOfFile b.input.endLine) with ⟨e | last, b'⟩
    · rw [hfeed] at h
      cases h
    · rw [hfeed] at h htakes
      cases h
      obtain rfl := htakes.of_endOfFile.1
      exact htakes

/-! ## Invariants of runs -/

/-- A property of the work on a source that every token of some kind keeps, and that does not look
at the input or at the unknown characters that were skipped. -/
structure InvariantOver (Q : Token → Prop) (P : Context → Assembly → Prop) : Prop where
  /-- The end of the source, which every run takes last, is of that kind. -/
  ends : ∀ line, Q (.endOfFile line)
  /-- Every such token keeps the property; behind an error it holds before a new statement. -/
  takes : ∀ {a a' : Assembly} {context : Context} {token : Token} {result : Except Error Context},
    Takes a context token result a' → Q token → P context a → P (resumed result) a'
  /-- The property does not look at the rest of the input. -/
  withRest : ∀ {a : Assembly} {context : Context} (rest : List (Except Error Token)),
    P context a → P context (a.withRest rest)
  /-- The property does not look at the warnings. -/
  warned : ∀ {a : Assembly} {context : Context} (warnings : List Error),
    P context a → P context { a with warnings }

namespace InvariantOver

variable {Q : Token → Prop} {P : Context → Assembly → Prop}

/-- An invariant holds behind every sequence of answers whose tokens are of its kind. -/
theorem feedAll (hP : InvariantOver Q P) {answers : List (Except Error Token)}
    (hQ : ∀ token, .ok token ∈ answers → Q token) (h : P context a) :
    P (resumed (a.feedAll context answers).1) (a.feedAll context answers).2 := by
  fun_induction Assembly.feedAll a context answers with
  | case1 => exact h
  | case2 a context e rest hfatal =>
    exact hP.takes (takes_unchanged a context (.endOfFile 0) e) (hP.ends 0) h
  | case3 a context e rest hfatal ih =>
    exact ih (fun token hmem => hQ token (List.mem_cons_of_mem _ hmem)) (hP.warned _ h)
  | case4 a context token rest e a' hfeed =>
    have htakes := takes_feed a context token
    rw [hfeed] at htakes
    exact hP.takes htakes (hQ token List.mem_cons_self) h
  | case5 a context token rest next a' hfeed ih =>
    have htakes := takes_feed a context token
    rw [hfeed] at htakes
    refine ih (fun token hmem => hQ token (List.mem_cons_of_mem _ hmem)) ?_
    exact hP.takes htakes (hQ token List.mem_cons_self) h

/-- An invariant holds, before a new statement, behind every run over tokens of its kind. -/
theorem run (hP : InvariantOver Q P) {answers : List (Except Error Token)}
    (hQ : ∀ token, .ok token ∈ answers → Q token) (h : P context a) :
    P .statement (a.run context answers).2 := by
  have hfed := hP.feedAll hQ h
  rcases hall : a.feedAll context answers with ⟨e | next, b⟩
  · obtain ⟨rest, hrun⟩ := run_of_feedAll_error hall
    rw [hall] at hfed
    rw [hrun]
    exact hP.withRest rest hfed
  · rw [hall] at hfed
    rw [run_of_feedAll_ok hall, run_nil_snd]
    have htakes := takes_feed (b.withRest []) next (.endOfFile b.input.endLine)
    have hlast := hP.takes htakes (hP.ends _) (hP.withRest [] hfed)
    -- an error leads before a new statement, and the end of the source is accepted only there
    rcases hresult : ((b.withRest []).feed next (.endOfFile b.input.endLine)).1 with e | last
    · rw [hresult] at hlast
      exact hlast
    · rw [hresult] at htakes hlast
      obtain rfl := htakes.of_endOfFile.1
      exact hlast

end InvariantOver

/-- A property of the work on a source that every token keeps, and that does not look at the input
or at the unknown characters that were skipped. -/
structure Invariant (P : Context → Assembly → Prop) : Prop where
  /-- Every token keeps the property; behind an error it holds before a new statement. -/
  takes : ∀ {a a' : Assembly} {context : Context} {token : Token} {result : Except Error Context},
    Takes a context token result a' → P context a → P (resumed result) a'
  /-- The property does not look at the rest of the input. -/
  withRest : ∀ {a : Assembly} {context : Context} (rest : List (Except Error Token)),
    P context a → P context (a.withRest rest)
  /-- The property does not look at the warnings. -/
  warned : ∀ {a : Assembly} {context : Context} (warnings : List Error),
    P context a → P context { a with warnings }

namespace Invariant

variable {P : Context → Assembly → Prop}

/-- An invariant is one over all tokens. -/
theorem overAll (hP : Invariant P) : InvariantOver (fun _ => True) P where
  ends _ := trivial
  takes htakes _ h := hP.takes htakes h
  withRest := hP.withRest
  warned := hP.warned

/-- An invariant holds behind every sequence of answers. -/
theorem feedAll (hP : Invariant P) (answers : List (Except Error Token)) (h : P context a) :
    P (resumed (a.feedAll context answers).1) (a.feedAll context answers).2 :=
  hP.overAll.feedAll (fun _ _ => trivial) h

/-- An invariant holds, before a new statement, behind every run. -/
theorem run (hP : Invariant P) {answers : List (Except Error Token)} (h : P context a) :
    P .statement (a.run context answers).2 :=
  hP.overAll.run (fun _ _ => trivial) h

/-- An invariant that holds at the start holds after any number of calls. -/
theorem calls (hP : Invariant P) (h : P .statement a) (n : Nat) : P .statement (a.calls n) := by
  induction n with
  | zero => exact h
  | succ n ih => exact hP.run ih

end Invariant

end AsmLinker.Assembly
