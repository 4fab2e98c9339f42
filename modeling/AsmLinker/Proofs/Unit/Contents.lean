import Mathlib
import AsmLinker.Proofs.Unit.Invariant

/-!
# What a unit holds

Three views of the contents of a unit, for those who link it:

* every instruction was built operand by operand along the slots of its opcode
  (`Instruction.Built`);
* a unit on its own is well formed: its sections have the sizes that its contents fill, and its
  labels and data lie in them (`SourceUnit.WellFormed`);
* in a source that was assembled, a label lies behind as many instructions as there are mnemonics
  before it (`AssembledSource.get?_of_definesAt`).
-/

namespace AsmLinker

/-! ## Instructions are built along the slots -/

/-- The instruction has had an operand for each of the slots. -/
inductive Instruction.Built : Instruction → List Slot → Prop
  | bare (op : Opcode) (line : Nat) : Built { op, line } []
  | add {ins : Instruction} {slots : List Slot} {slot : Slot} {lexeme : Lexeme} {operand : Operand}
      (hbuilt : Built ins slots) (hfits : Operand.ofLexeme? slot lexeme = some operand) :
      Built (ins.addOperand slot operand) (slots ++ [slot])

theorem Instruction.Built.length_operands {ins : Instruction} {slots : List Slot}
    (h : Instruction.Built ins slots) : ins.operands.length = slots.length := by
  induction h with
  | bare => rfl
  | add _ _ ih => simp [Instruction.addOperand, ih]

/-- No opcode has more slots than a record has words. -/
theorem Opcode.length_slots_le (op : Opcode) : op.slots.length ≤ 3 := by
  cases op <;> decide

namespace Assembly

variable {a a' : Assembly} {context : Context} {token : Token} {result : Except Error Context}

/-- Every instruction of the unit is complete, and the one that is being read has had operands for
the slots that are no longer open. -/
def InstructionsBuilt (context : Context) (a : Assembly) : Prop :=
  (∀ ins ∈ a.unit.instructions, ins.Built ins.op.slots) ∧
    ∀ ins slots comma, context = .operands ins slots comma →
      ∃ filled, ins.Built filled ∧ filled ++ slots = ins.op.slots

/-- Outside of an instruction only the complete ones matter. -/
theorem instructionsBuilt_of_not_operands (h : ∀ ins ∈ a.unit.instructions, ins.Built ins.op.slots)
    (hcontext : ∀ ins slots comma, context ≠ .operands ins slots comma) :
    InstructionsBuilt context a :=
  ⟨h, fun ins slots comma hsame => absurd hsame (hcontext ins slots comma)⟩

theorem Takes.instructionsBuilt (h : Takes a context token result a')
    (hb : InstructionsBuilt context a) : InstructionsBuilt (resumed result) a' := by
  cases h with
  | blank | activate | announce | label | declaration | await | close | refuse | refuseBound =>
    exact instructionsBuilt_of_not_operands hb.1 (by simp)
  | directiveLiteral | declarationLiteral =>
    refine instructionsBuilt_of_not_operands hb.1 ?_
    unfold literalOutcome
    split <;> simp
  | operation =>
    refine ⟨hb.1, ?_⟩
    rintro _ _ _ ⟨⟩
    exact ⟨[], .bare _ _, rfl⟩
  | operand hfits =>
    refine ⟨hb.1, ?_⟩
    rintro _ _ _ ⟨⟩
    obtain ⟨filled, hbuilt, hslots⟩ := hb.2 _ _ _ rfl
    refine ⟨_, hbuilt.add hfits, ?_⟩
    rw [List.append_assoc]
    exact hslots
  | instruction =>
    -- no slot is open any more: the operands that it has had are all
    refine instructionsBuilt_of_not_operands ?_ (by simp)
    intro ins hmem
    obtain hold | rfl : ins ∈ a.unit.instructions ∨ ins = _ := by simpa [append] using hmem
    · exact hb.1 ins hold
    · obtain ⟨filled, hbuilt, hslots⟩ := hb.2 _ _ _ rfl
      rw [List.append_nil] at hslots
      rwa [hslots] at hbuilt

theorem instructionsBuilt_invariant : Invariant InstructionsBuilt where
  takes h hb := h.instructionsBuilt hb
  withRest _ h := h
  warned _ h := h

end Assembly

/-! ## Units on their own -/

namespace SourceUnit

/-- The unit is what an assembly holds after some number of calls on some source, be they successful
or not. -/
def Assembled (u : SourceUnit) : Prop :=
  ∃ path source n, ((Assembly.ofSource path source).calls n).unit = u

/-- The sizes of the sections of a unit. -/
def sizes (u : SourceUnit) : PerSection Nat :=
  { data := Declaration.total (u.data.declarationsIn .data)
    text := Record.size * u.instructions.length
    string := Declaration.total (u.data.declarationsIn .string) }

/-- What a linker can rely on in a unit. -/
structure WellFormed (u : SourceUnit) : Prop where
  /-- The data of each section lies one behind the other, from the start of the section on. -/
  data_filled : ∀ home, home ≠ .text →
    Declaration.Tiles 0 (u.data.declarationsIn home) (u.sizes.get home)
  /-- No data lies in the text section. -/
  data_home : ∀ name d, u.data.get? name = some d → d.home ≠ .text
  /-- The name of data is a label of its position. -/
  data_label : ∀ name d, u.data.get? name = some d →
    ∃ label, u.labels.get? name = some label ∧ label.home = d.home ∧ label.offset = d.offset
  /-- No label lies behind its section. -/
  label_le : ∀ name label, u.labels.get? name = some label → label.offset ≤ u.sizes.get label.home
  /-- Every instruction has an operand for each slot. -/
  arity : ∀ ins ∈ u.instructions, ins.operands.length = ins.op.slots.length

end SourceUnit

/-- Values for the sections that agree on each section are the same. -/
theorem PerSection.ext_get {α : Type} {p q : PerSection α} (h : ∀ home, p.get home = q.get home) :
    p = q := by
  obtain ⟨data, text, string⟩ := p
  obtain ⟨data', text', string'⟩ := q
  obtain rfl : data = data' := h .data
  obtain rfl : text = text' := h .text
  obtain rfl : string = string' := h .string
  rfl

/-- The sections of an assembly have been filled as far as its unit has contents. -/
theorem Assembly.Consistent.offsets_eq {a : Assembly} (h : a.Consistent) :
    a.offsets = a.unit.sizes := by
  apply PerSection.ext_get
  intro home
  cases home with
  | data => exact (h.data_filled .data (by decide)).stop_eq.trans (Nat.zero_add _)
  | text => exact h.text_filled
  | string => exact (h.data_filled .string (by decide)).stop_eq.trans (Nat.zero_add _)

theorem Assembly.Consistent.wellFormed {a : Assembly} {context : Context} (h : a.Consistent)
    (hb : InstructionsBuilt context a) : a.unit.WellFormed where
  data_filled := h.offsets_eq ▸ h.data_filled
  data_home := h.data_home
  data_label := h.data_label
  label_le := h.offsets_eq ▸ h.label_le
  arity ins hmem := (hb.1 ins hmem).length_operands

/-- Whatever an assembly has read, its unit is well formed. -/
theorem Assembly.wellFormed_calls (path : String) (source : Source) (n : Nat) :
    ((ofSource path source).calls n).unit.WellFormed := by
  have hcoherent := coherent_invariant.calls (consistent_ofSource path source).coherent n
  have hstart : InstructionsBuilt .statement (ofSource path source) :=
    instructionsBuilt_of_not_operands (by simp [ofSource]) (by simp)
  exact hcoherent.toConsistent.wellFormed (instructionsBuilt_invariant.calls hstart n)

theorem SourceUnit.Assembled.wellFormed {u : SourceUnit} (h : u.Assembled) : u.WellFormed := by
  obtain ⟨path, source, n, rfl⟩ := h
  exact Assembly.wellFormed_calls path source n

/-! ## Labels in terms of tokens -/

namespace TokenStream

/-- The answer is a mnemonic. -/
def isMnemonic : Except Error Token → Bool
  | .ok token => token.kind == .opcode
  | .error _ => false

/-- The section that is active behind an answer. -/
def activeBehind (home : Section) : Except Error Token → Section
  | .ok { lexeme := .directive name, .. } => (Section.ofName? name).getD home
  | _ => home

/-- The name is defined as a label behind `count` mnemonics, with the given section active. -/
def DefinesAt (answers : List (Except Error Token)) (name : String) (home : Section)
    (count : Nat) : Prop :=
  ∃ before token after, answers = before ++ .ok token :: after ∧ token.lexeme = .label name ∧
    before.foldl activeBehind .text = home ∧ before.countP isMnemonic = count

end TokenStream

namespace Assembly

variable {a a' : Assembly} {context : Context} {token : Token} {result : Except Error Context}

/-- One for an instruction whose mnemonic has been read but which is not complete. -/
def openInstructions : Context → Nat
  | .operands _ _ _ => 1
  | _ => 0

/-- A token that is accepted changes the active section as the token says, and each mnemonic opens
one instruction. -/
theorem Takes.active_and_count {next : Context} (h : Takes a context token (.ok next) a') :
    a'.active = TokenStream.activeBehind a.active (.ok token) ∧
      a'.unit.instructions.length + openInstructions next =
        a.unit.instructions.length + openInstructions context +
          if TokenStream.isMnemonic (.ok token) then 1 else 0 := by
  have hends : token.endsLine = true →
      token.lexeme = .endOfLine ∨ token.lexeme = .endOfFile := by
    intro h
    cases hlexeme : token.lexeme <;> simp_all [Token.endsLine]
  obtain ⟨lexeme, comma, line⟩ := token
  generalize hresult : (Except.ok next : Except Error Context) = result at h
  cases h with
  | blank h =>
    cases hresult
    rcases hends h with h | h <;> cases h <;> exact ⟨rfl, rfl⟩
  | close h =>
    cases hresult
    rcases hends h with h | h <;> cases h <;> exact ⟨rfl, rfl⟩
  | activate h hname =>
    cases hresult
    cases h
    exact ⟨by simp [TokenStream.activeBehind, hname], rfl⟩
  | announce h hword =>
    cases hresult
    cases h
    rcases hword with ⟨rfl, -⟩ | ⟨rfl, -⟩ <;> exact ⟨rfl, rfl⟩
  | label h => cases hresult; cases h; exact ⟨rfl, rfl⟩
  | operation h => cases hresult; cases h; exact ⟨rfl, rfl⟩
  | declaration h => cases hresult; cases h; exact ⟨rfl, rfl⟩
  | await h => cases hresult; cases h; exact ⟨rfl, rfl⟩
  | directiveLiteral h | declarationLiteral h =>
    obtain ⟨-, rfl⟩ := literalOutcome_eq_ok hresult.symm
    cases h
    exact ⟨rfl, rfl⟩
  | @operand _ _ slot _ _ _ h =>
    cases hresult
    cases slot <;> cases lexeme <;> first | exact ⟨rfl, rfl⟩ | cases h
  | instruction h =>
    cases hresult
    rcases hends h with h | h <;> cases h <;> exact ⟨rfl, by simp [append, openInstructions]; rfl⟩
  | refuse => cases hresult
  | refuseBound => cases hresult

/-- The same for a sequence of answers. -/
theorem feedAll_active_and_count {answers : List (Except Error Token)} {next : Context}
    (h : a.feedAll context answers = (.ok next, a')) :
    a'.active = answers.foldl TokenStream.activeBehind a.active ∧
      a'.unit.instructions.length + openInstructions next =
        a.unit.instructions.length + openInstructions context +
          answers.countP TokenStream.isMnemonic := by
  fun_induction feedAll a context answers with
  | case1 => cases h; exact ⟨rfl, rfl⟩
  | case2 => cases h
  | case3 a context e rest hfatal ih =>
    simpa [TokenStream.activeBehind, TokenStream.isMnemonic] using ih h
  | case4 => cases h
  | case5 a context token rest next' b hfeed ih =>
    have htakes := takes_feed a context token
    rw [hfeed] at htakes
    obtain ⟨hactive, hcount⟩ := htakes.active_and_count
    obtain ⟨hactive', hcount'⟩ := ih h
    refine ⟨by rw [hactive', hactive, List.foldl_cons], ?_⟩
    rw [hcount', hcount, List.countP_cons]
    omega

/-- A label that is accepted is bound to the position where it stands. -/
theorem Takes.of_label {next : Context} {name : String}
    (h : Takes a context token (.ok next) a') (hlexeme : token.lexeme = .label name) :
    context = .statement ∧ name ∉ a.unit.labels.keys ∧
      a' = { a.bind name token.line with pending := some name } := by
  generalize hresult : (Except.ok next : Except Error Context) = result at h
  cases h with
  | blank hends => simp [Token.endsLine, hlexeme] at hends
  | close hends => simp [Token.endsLine, hlexeme] at hends
  | instruction hends => simp [Token.endsLine, hlexeme] at hends
  | label hlexeme' hfresh =>
    rw [hlexeme] at hlexeme'
    cases hlexeme'
    exact ⟨rfl, hfresh, rfl⟩
  | @operand _ _ slot _ _ _ hfits =>
    rw [hlexeme] at hfits
    cases slot <;> cases hfits
  | refuse => cases hresult
  | refuseBound => cases hresult
  | activate hlexeme' | announce hlexeme' | operation hlexeme' | declaration hlexeme' =>
    rw [hlexeme] at hlexeme'
    cases hlexeme'
  | await hlexeme' | directiveLiteral hlexeme' | declarationLiteral hlexeme' =>
    rw [hlexeme] at hlexeme'
    cases hlexeme'

end Assembly

/-- A source that was assembled without an error, in one call. -/
structure AssembledSource where
  /-- The path of the source. -/
  path : String
  /-- Where its bytes come from. -/
  source : Source
  /-- The assembly afterwards. -/
  result : Assembly
  /-- The call went well. -/
  assembled : (Assembly.ofSource path source).assemble = (.ok (), result)

namespace AssembledSource

/-- A source given as text. -/
def ofText (text : String)
    (h : (Assembly.ofSource "unit" (.ofBytes text.toUTF8.data.toList)).assemble.1 = .ok ()) :
    AssembledSource :=
  { path := "unit"
    source := .ofBytes text.toUTF8.data.toList
    result := (Assembly.ofSource "unit" (.ofBytes text.toUTF8.data.toList)).assemble.2
    assembled := Prod.ext h rfl }

/-- The unit of the source. -/
def unit (s : AssembledSource) : SourceUnit :=
  s.result.unit

/-- The answers of the scanner on the source, up to its end. -/
def answers (s : AssembledSource) : List (Except Error Token) :=
  (Assembly.ofSource s.path s.source).input.answers

theorem unit_assembled (s : AssembledSource) : s.unit.Assembled := by
  refine ⟨s.path, s.source, 1, ?_⟩
  change (Assembly.ofSource s.path s.source).assemble.2.unit = s.unit
  rw [s.assembled]
  rfl

/-- A label lies in the section that is active where it stands. In the text section it lies behind
one record for each mnemonic before it. -/
theorem get?_of_definesAt (s : AssembledSource) {name : String} {home : Section} {count : Nat}
    (h : TokenStream.DefinesAt s.answers name home count) :
    ∃ label, s.unit.labels.get? name = some label ∧ label.home = home ∧
      (home = .text → label.offset = Record.size * count) := by
  obtain ⟨before, token, after, hanswers, hlexeme, rfl, rfl⟩ := h
  have hstart := (Assembly.consistent_ofSource s.path s.source).coherent
  have hrun : (Assembly.ofSource s.path s.source).run .statement s.answers = (.ok (), s.result) :=
    s.assembled
  have hextends := Assembly.feedAll_extends_run hstart s.answers
  obtain ⟨last, c, hall, -⟩ := Assembly.feedAll_of_run_ok hrun
  rw [hrun, hall] at hextends
  rw [hanswers] at hall
  obtain ⟨next, b, next', b', hbefore, htakes, hafter⟩ := Assembly.feedAll_split hall
  have hb := Assembly.coherent_invariant.feedAll before hstart
  rw [hbefore] at hb
  have hkept := Assembly.extends_feedAll (htakes.coherent hb) after
  rw [Assembly.resumed_ok, hafter] at hkept
  obtain ⟨rfl, hfresh, rfl⟩ := htakes.of_label hlexeme
  have hbound := Assembly.get?_labels_bind token.line hfresh name
  rw [if_pos rfl] at hbound
  obtain ⟨hactive, hcount⟩ := Assembly.feedAll_active_and_count hbefore
  refine ⟨_, Table.get?_of_prefix (hkept.trans hextends).labels hbound, hactive, ?_⟩
  intro htext
  -- no instruction is open where a label stands, so the mnemonics before it are all complete
  have hinstructions : b.unit.instructions.length = before.countP TokenStream.isMnemonic := by
    simpa [Assembly.openInstructions, Assembly.ofSource] using hcount
  have hhome : b.active = .text := hactive.trans htext
  change b.offsets.get b.active = _
  rw [hhome, ← hinstructions]
  exact hb.text_filled

end AssembledSource

end AsmLinker
