import Mathlib
import AsmLinker.Proofs.Program.Merge
import AsmLinker.Proofs.Token.Concatenation
import AsmLinker.Proofs.Unit.Contents

/-!
# Linking and concatenation

Merging the units of two sources gives what is assembled from one source that holds both, with a
line `.text` between them: the same labels, data and instructions, line numbers aside, or the same
name that is defined twice.

An assembly that goes on from a program is compared with one that begins afresh (`Assembly.Onto`):
it takes every token in the same way, with all positions shifted by the sizes of the program, until
a name is bound that the program has (`Assembly.Tracks.feedAll`).
-/

namespace AsmLinker

/-! ## Line numbers aside -/

/-- The table with its values changed. -/
def Table.mapValues {α β : Type} (f : α → β) (t : Table α) : Table β where
  entries := t.entries.map fun entry => (entry.1, f entry.2)
  nodup := by simpa [Function.comp_def] using t.nodup

theorem Table.entries_mapValues {α β : Type} (f : α → β) (t : Table α) :
    (t.mapValues f).entries = t.entries.map fun entry => (entry.1, f entry.2) := rfl

theorem Table.keys_mapValues {α β : Type} (f : α → β) (t : Table α) :
    (t.mapValues f).keys = t.keys := by
  unfold keys
  rw [entries_mapValues, List.map_map]
  rfl

/-- A label without its line. -/
def Label.unlined (label : Label) : Label :=
  { label with line := 0 }

/-- An instruction without its line. -/
def Instruction.unlined (ins : Instruction) : Instruction :=
  { ins with line := 0 }

/-- A unit without line numbers. -/
def SourceUnit.unlined (u : SourceUnit) : SourceUnit :=
  { instructions := u.instructions.map Instruction.unlined
    labels := u.labels.mapValues Label.unlined
    data := u.data }

theorem Instruction.unlined_addOperand {ins ins' : Instruction} (h : ins.unlined = ins'.unlined)
    (slot : Slot) (operand : Operand) :
    (ins.addOperand slot operand).unlined = (ins'.addOperand slot operand).unlined := by
  change ins.unlined.addOperand slot operand = ins'.unlined.addOperand slot operand
  rw [h]

/-- The contexts are the same, lines aside. -/
inductive Context.Same : Context → Context → Prop
  | statement : Same .statement .statement
  | directive (word : String) (encoding : Encoding) (name : String) :
      Same (.directive word encoding name) (.directive word encoding name)
  | declaration (name : String) (line line' : Nat) :
      Same (.declaration name line) (.declaration name line')
  | operands {ins ins' : Instruction} (hins : ins.unlined = ins'.unlined) (slots : List Slot)
      (comma : Bool) : Same (.operands ins slots comma) (.operands ins' slots comma)
  | closing : Same .closing .closing

/-- The name is the first of the unit's labels that the program has. -/
def Program.FirstShared (p : Program) (u : SourceUnit) (name : String) : Prop :=
  ∃ label, u.labels.entries.find? (fun entry => p.labels.contains entry.1) = some (name, label)

/-- A unit that goes on where another one ends has the same first label in common. -/
theorem Program.FirstShared.extends {p : Program} {u v : SourceUnit} {name : String}
    (h : p.FirstShared u name) (huv : u.Extends v) : p.FirstShared v name := by
  obtain ⟨label, hfind⟩ := h
  obtain ⟨more, hmore⟩ := huv.labels
  refine ⟨label, ?_⟩
  rw [← hmore, List.find?_append, hfind, Option.some_or]

namespace Assembly

variable {base : Program} {a a' b b' : Assembly} {context context' next : Context}
  {token token' : Token} {name : String}

/-! ## Going on from a program -/

/-- The assembly `a` has taken, behind what the program holds, what `b` has taken from the
beginning. -/
structure Onto (base : Program) (b a : Assembly) : Prop where
  /-- The same section is active. -/
  active : a.active = b.active
  /-- The same label waits. -/
  pending : a.pending = b.pending
  /-- Each section has been filled behind what the program has in it. -/
  offsets : ∀ home, a.offsets.get home = base.sizes.get home + b.offsets.get home
  /-- The labels are those of the program and those of `b`, at their positions in the program. -/
  labels : (a.unit.labels.mapValues Label.unlined).entries =
    (base.labels.mapValues Label.unlined).entries ++
      b.unit.labels.entries.map fun entry =>
        (entry.1, (Program.placeLabel base.sizes entry.2).unlined)
  /-- The data is that of the program and that of `b`, at its positions in the program. -/
  data : a.unit.data.entries = base.data.entries ++
    b.unit.data.entries.map fun entry => (entry.1, Program.placeData base.sizes entry.2)
  /-- The instructions are those of the program and those of `b`. -/
  instructions : a.unit.instructions.map Instruction.unlined =
    (base.instructions ++ b.unit.instructions).map Instruction.unlined

namespace Onto

/-- The names are those of the program and those of `b`. -/
theorem keys_labels (h : Onto base b a) :
    a.unit.labels.keys = base.labels.keys ++ b.unit.labels.keys := by
  have hkeys := congrArg (List.map Prod.fst) h.labels
  rw [List.map_append, List.map_map] at hkeys
  rw [← Table.keys_mapValues Label.unlined, ← Table.keys_mapValues Label.unlined base.labels]
  exact hkeys

/-- No name of `b` is one of the program. -/
theorem disjoint (h : Onto base b a) : base.labels.Disjoint b.unit.labels := by
  -- the table that holds both has no name twice
  have hnodup : a.unit.labels.keys.Nodup := a.unit.labels.nodup
  rw [h.keys_labels] at hnodup
  exact fun name hb hbase => hnodup.disjoint hbase hb

/-- A name that is new to `b` is new unless the program has it. -/
theorem not_mem_labels (h : Onto base b a) (hb : name ∉ b.unit.labels.keys)
    (hbase : name ∉ base.labels.keys) : name ∉ a.unit.labels.keys := by
  rw [h.keys_labels, List.mem_append]
  exact fun hname => hname.elim hbase hb

theorem mem_labels (h : Onto base b a) (hbase : name ∈ base.labels.keys) :
    name ∈ a.unit.labels.keys := by
  rw [h.keys_labels]
  exact List.mem_append_left _ hbase

/-- Both may activate a section, and both may forget the label that waits or let one wait. -/
theorem activate (h : Onto base b a) (home : Section) (pending : Option String) :
    Onto base { b with active := home, pending } { a with active := home, pending } :=
  ⟨rfl, rfl, h.offsets, h.labels, h.data, h.instructions⟩

theorem wait (h : Onto base b a) (pending : Option String) :
    Onto base { b with pending } { a with pending } :=
  ⟨h.active, rfl, h.offsets, h.labels, h.data, h.instructions⟩

/-- Both may bind a name that is new to both. -/
theorem bind (h : Onto base b a) (line line' : Nat) (hb : name ∉ b.unit.labels.keys)
    (ha : name ∉ a.unit.labels.keys) : Onto base (b.bind name line) (a.bind name line') := by
  refine ⟨h.active, h.pending, h.offsets, ?_, h.data, h.instructions⟩
  change ((a.unit.labels.insert name _).mapValues Label.unlined).entries = _ ++
    (b.unit.labels.insert name _).entries.map _
  rw [Table.entries_mapValues, Table.entries_insert_of_not_mem _ ha,
    Table.entries_insert_of_not_mem _ hb, List.map_append, List.map_append, ← List.append_assoc,
    ← h.labels, h.active, h.offsets]
  simp only [Table.entries_mapValues, List.map_cons, List.map_nil, Label.unlined,
    Program.placeLabel, Nat.add_comm]

/-- Both may record data under a name without any. -/
theorem record (h : Onto base b a) (encoding : Encoding) (text : String)
    (hb : name ∉ b.unit.data.keys) (ha : name ∉ a.unit.data.keys) :
    Onto base (b.record name encoding text) (a.record name encoding text) := by
  have hplaced : a.recorded name encoding text =
      Program.placeData base.sizes (b.recorded name encoding text) := by
    simp only [recorded, Program.placeData, h.active, h.offsets, Nat.add_comm]
  refine ⟨h.active, h.pending, ?_, h.labels, ?_, h.instructions⟩
  · intro home
    rw [offsets_record, offsets_record, hplaced, h.active]
    by_cases hhome : home = b.active
    · subst hhome
      rw [PerSection.get_set_self, PerSection.get_set_self]
      change b.offsets.get b.active + base.sizes.get b.active + _ =
        base.sizes.get b.active + (b.offsets.get b.active + _)
      rw [Nat.add_comm (b.offsets.get b.active), Nat.add_assoc]
      rfl
    · rw [PerSection.get_set_of_ne _ _ hhome, PerSection.get_set_of_ne _ _ hhome, h.offsets]
  · change (a.unit.data.insert name (a.recorded name encoding text)).entries = _ ++
      (b.unit.data.insert name (b.recorded name encoding text)).entries.map _
    rw [Table.entries_insert_of_not_mem _ ha, Table.entries_insert_of_not_mem _ hb, h.data,
      List.map_append, ← List.append_assoc, hplaced]
    rfl

/-- Both may append an instruction. -/
theorem append (h : Onto base b a) {ins ins' : Instruction} (hins : ins.unlined = ins'.unlined) :
    Onto base (b.append ins) (a.append ins') := by
  refine ⟨h.active, h.pending, ?_, h.labels, h.data, ?_⟩
  · intro home
    rw [offsets_append_get, offsets_append_get]
    split
    next hhome =>
      have htext := h.offsets .text
      subst hhome
      change a.offsets.text = _ + b.offsets.text at htext
      rw [htext, Nat.add_assoc]
    · exact h.offsets home
  · change (a.unit.instructions ++ [ins']).map Instruction.unlined =
      (base.instructions ++ (b.unit.instructions ++ [ins])).map Instruction.unlined
    rw [← List.append_assoc, List.map_append, List.map_append, h.instructions, List.map_singleton,
      List.map_singleton, hins]

/-- A name that `b` binds and the program has is the first that they share. -/
theorem firstShared_bind (h : Onto base b a) (line : Nat) (hb : name ∉ b.unit.labels.keys)
    (hbase : name ∈ base.labels.keys) : base.FirstShared (b.bind name line).unit name := by
  refine ⟨⟨name, b.active, b.offsets.get b.active, line⟩, ?_⟩
  change (b.unit.labels.insert name _).entries.find? _ = _
  rw [Table.entries_insert_of_not_mem _ hb, List.find?_append,
    Program.find?_eq_none_iff_disjoint.mpr h.disjoint, Option.none_or]
  exact List.find?_cons_of_pos (Table.contains_eq_true.mpr hbase)

end Onto

/-! ## Taking the same tokens -/

/-- A label that is defined already is refused. -/
theorem feed_label_of_mem (hlexeme : token.lexeme = .label name)
    (h : name ∈ a.unit.labels.keys) :
    (a.feed .statement token).1 = .error (.duplicateLabel (some token.line) name) := by
  simp [feed, begin, hlexeme, label, define_of_mem _ h]

/-- A declaration under a name that is defined already is refused. -/
theorem feed_declaration_of_mem {text : String} (line : Nat) (hlexeme : token.lexeme = .ascii text)
    (h : name ∈ a.unit.labels.keys) :
    (a.feed (.declaration name line) token).1 = .error (.duplicateLabel (some line) name) := by
  simp [feed, hlexeme, define_of_mem _ h]

/-- The assembly that goes on from the program is in the same place of a statement. -/
structure Tracks (base : Program) (context context' : Context) (b a : Assembly) : Prop
    extends Onto base b a where
  /-- Both have read the statement as far. -/
  same : context.Same context'
  /-- The invariant holds of the one that began afresh. -/
  coherent : Coherent context b
  /-- The invariant holds of the one that goes on. -/
  coherent' : Coherent context' a

/-- One name is refused because the program has it, and it is the first such name of the unit. -/
def Clashes (base : Program) (u : SourceUnit) (e : Except Error Context) : Prop :=
  ∃ name line, e = .error (.duplicateLabel (some line) name) ∧ base.FirstShared u name

namespace Tracks

/-- What the assembly that began afresh does with a token it accepts, the one that goes on does as
well, unless a name is bound that the program has. -/
theorem takes (h : Tracks base context context' b a) (htoken : token.unlined = token'.unlined)
    (htakes : Takes b context token (.ok next) b') :
    (∃ next' a', a.feed context' token' = (.ok next', a') ∧ Tracks base next next' b' a') ∨
      Clashes base b'.unit (a.feed context' token').1 := by
  obtain ⟨hlexeme', hcomma'⟩ := Token.unlined_eq_iff.mp htoken
  have hends' : token'.endsLine = token.endsLine := by
    rw [Token.endsLine, Token.endsLine, hlexeme']
  -- it is enough to name a rule by which the token is accepted
  have haccept : ∀ {next' a'}, Takes a context' token' (.ok next') a' → next.Same next' →
      Onto base b' a' → (∃ next' a', a.feed context' token' = (.ok next', a') ∧
        Tracks base next next' b' a') ∨ Clashes base b'.unit (a.feed context' token').1 := by
    intro next' a' htakes' hsame honto
    exact .inl ⟨next', a', htakes'.feed_eq, honto, hsame, htakes.coherent h.coherent,
      htakes'.coherent h.coherent'⟩
  have honto := h.toOnto
  have hsame := h.same
  generalize hresult : (Except.ok next : Except Error Context) = result at htakes
  cases htakes with
  | blank hends =>
    cases hsame
    cases hresult
    exact haccept (.blank (hends'.trans hends)) .statement honto
  | activate hlexeme hname =>
    cases hsame
    cases hresult
    exact haccept (.activate (hlexeme' ▸ hlexeme) hname) .statement (honto.activate _ none)
  | announce hlexeme hword hpending =>
    cases hsame
    cases hresult
    exact haccept (.announce (hlexeme' ▸ hlexeme) hword (honto.pending.trans hpending))
      (.directive ..) (honto.wait none)
  | @label _ name hlexeme hfresh =>
    cases hsame
    cases hresult
    -- here the two may part: the name may be one of the program
    by_cases hbase : name ∈ base.labels.keys
    · exact .inr ⟨name, _, feed_label_of_mem (hlexeme' ▸ hlexeme) (honto.mem_labels hbase),
        honto.firstShared_bind _ hfresh hbase⟩
    · have hnew := honto.not_mem_labels hfresh hbase
      exact haccept (.label (hlexeme' ▸ hlexeme) hnew) .statement
        ((honto.bind _ _ hfresh hnew).wait _)
  | operation hlexeme hactive hcomma =>
    cases hsame
    cases hresult
    exact haccept (.operation (hlexeme' ▸ hlexeme) (honto.active.trans hactive) (hcomma' ▸ hcomma))
      (.operands (by rfl) _ _) (honto.wait none)
  | declaration hlexeme hactive =>
    cases hsame
    cases hresult
    exact haccept (.declaration (hlexeme' ▸ hlexeme) (honto.active ▸ hactive)) (.declaration ..)
      (honto.wait none)
  | await hlexeme =>
    cases hsame
    cases hresult
    exact haccept (.await (hlexeme' ▸ hlexeme)) (.directive ..) honto
  | @directiveLiteral _ word name text encoding hlexeme hactive =>
    cases hsame
    obtain ⟨hcomma, rfl⟩ := literalOutcome_eq_ok hresult.symm
    obtain ⟨-, -, -, -, hb⟩ := h.coherent.announced _ _ _ rfl
    obtain ⟨-, -, -, -, ha⟩ := h.coherent'.announced _ _ _ rfl
    have htakes' : Takes a (.directive word encoding name) token' (literalOutcome token')
        (a.record name encoding text) :=
      .directiveLiteral (hlexeme' ▸ hlexeme) (honto.active ▸ hactive)
    rw [literalOutcome_of_comma (hcomma' ▸ hcomma)] at htakes'
    exact haccept htakes' .closing (honto.record encoding text hb ha)
  | @declarationLiteral _ name text line hlexeme hactive hfresh =>
    cases hsame with | declaration _ _ line' =>
    obtain ⟨hcomma, rfl⟩ := literalOutcome_eq_ok hresult.symm
    by_cases hbase : name ∈ base.labels.keys
    · exact .inr ⟨name, line', feed_declaration_of_mem line' (hlexeme' ▸ hlexeme)
        (honto.mem_labels hbase), honto.firstShared_bind line hfresh hbase⟩
    · have hnew := honto.not_mem_labels hfresh hbase
      have htakes' : Takes a (.declaration name line') token' (literalOutcome token')
          ((a.bind name line').record name .zeroTerminated text) :=
        .declarationLiteral (hlexeme' ▸ hlexeme) (honto.active ▸ hactive) hnew
      rw [literalOutcome_of_comma (hcomma' ▸ hcomma)] at htakes'
      exact haccept htakes' .closing ((honto.bind line line' hfresh hnew).record _ text
        (h.coherent.not_mem_data hfresh) (h.coherent'.not_mem_data hnew))
  | operand hfits hcomma =>
    rcases hsame with - | - | - | ⟨hins⟩
    cases hresult
    rw [hlexeme'] at hfits
    rw [hcomma'] at hcomma
    exact haccept (.operand hfits hcomma)
      (by rw [hcomma']; exact .operands (Instruction.unlined_addOperand hins ..) _ _) honto
  | instruction hends =>
    rcases hsame with - | - | - | ⟨hins⟩
    cases hresult
    exact haccept (.instruction (hends'.trans hends)) .statement (honto.append hins)
  | close hends =>
    cases hsame
    cases hresult
    exact haccept (.close (hends'.trans hends)) .statement honto
  | refuse => cases hresult
  | refuseBound => cases hresult

/-- The rest of the input and the warnings do not matter. -/
theorem withRest (h : Tracks base context context' b a) (rest rest' : List (Except Error Token)) :
    Tracks base context context' (b.withRest rest) (a.withRest rest') :=
  ⟨⟨h.active, h.pending, h.offsets, h.labels, h.data, h.instructions⟩, h.same,
    coherent_invariant.withRest rest h.coherent, coherent_invariant.withRest rest' h.coherent'⟩

theorem warned (h : Tracks base context context' b a) (warnings warnings' : List Error) :
    Tracks base context context' { b with warnings } { a with warnings := warnings' } :=
  ⟨⟨h.active, h.pending, h.offsets, h.labels, h.data, h.instructions⟩, h.same,
    coherent_invariant.warned warnings h.coherent, coherent_invariant.warned warnings' h.coherent'⟩

end Tracks

/-- A refused token ends a sequence. -/
theorem feedAll_error_cons {e : Error} (h : (a.feed context token).1 = .error e)
    (rest : List (Except Error Token)) :
    (a.feedAll context (.ok token :: rest)).1 = .error e := by
  rcases hfeed : a.feed context token with ⟨result, a'⟩
  rw [hfeed] at h
  obtain rfl : result = .error e := h
  simp [feedAll, hfeed]

/-- A whole sequence of answers is taken in the same way, until a name is bound that the program
has. -/
theorem Tracks.feedAll {answers answers' : List (Except Error Token)}
    (h : Tracks base context context' b a)
    (hanswers : answers.map TokenStream.unlined = answers'.map TokenStream.unlined)
    (hb : b.feedAll context answers = (.ok next, b')) :
    (∃ next' a', a.feedAll context' answers' = (.ok next', a') ∧ Tracks base next next' b' a') ∨
      Clashes base b'.unit (a.feedAll context' answers').1 := by
  fun_induction Assembly.feedAll b context answers generalizing a context' answers' with
  | case1 b context =>
    cases hb
    obtain rfl : answers' = [] := List.map_eq_nil_iff.mp hanswers.symm
    exact .inl ⟨context', a, rfl, h⟩
  | case2 => cases hb
  | case3 b context e rest hfatal ih =>
    obtain ⟨answer, rest', rfl, hanswer, hrest⟩ := List.map_eq_cons_iff.mp hanswers.symm
    cases answer with
    | ok token => exact absurd hanswer.symm (TokenStream.unlined_error_ne_ok e token.unlined)
    | error e' =>
      have hsame : e'.isFatal = e.isFatal := by
        have hrefused := congrArg TokenStream.refused hanswer
        rwa [TokenStream.refused_unlined, TokenStream.refused_unlined] at hrefused
      rw [← hsame] at hfatal
      have htaken : a.feedAll context' (.error e' :: rest') =
          Assembly.feedAll { a with warnings := a.warnings ++ [e'] } context' rest' := by
        rw [Assembly.feedAll, if_neg hfatal]
      rw [htaken]
      exact ih (h.warned _ _) hrest.symm hb
  | case4 => cases hb
  | case5 b context token rest next₁ b₁ hfeed ih =>
    obtain ⟨token', rest', rfl, htoken, hrest⟩ := TokenStream.exists_cons_of_unlined hanswers.symm
    have htakes := takes_feed b context token
    rw [hfeed] at htakes
    rcases h.takes htoken.symm htakes with ⟨next', a', hok, h'⟩ | ⟨name, line, he, hshared⟩
    · rw [feedAll_ok_cons hok]
      exact ih h' hrest.symm hb
    · have hextends := extends_feedAll (htakes.coherent h.coherent) rest
      rw [resumed_ok, hb] at hextends
      exact .inr ⟨name, line, feedAll_error_cons he rest', hshared.extends hextends⟩

/-- A whole run goes in the same way, until a name is bound that the program has. -/
theorem Tracks.run {answers answers' : List (Except Error Token)}
    (h : Tracks base context context' b a)
    (hanswers : answers.map TokenStream.unlined = answers'.map TokenStream.unlined)
    (hb : b.run context answers = (.ok (), b')) :
    (∃ a', a.run context' answers' = (.ok (), a') ∧ Tracks base .statement .statement b' a') ∨
      ∃ name line, (a.run context' answers').1 = .error (.duplicateLabel (some line) name) ∧
        base.FirstShared b'.unit name := by
  obtain ⟨next, b₁, hall, hend⟩ := feedAll_of_run_ok hb
  rcases h.feedAll hanswers hall with ⟨next', a₁, hall', h₁⟩ | ⟨name, line, he, hshared⟩
  · have htoken : (Token.endOfFile b₁.input.endLine).unlined =
        (Token.endOfFile a₁.input.endLine).unlined := rfl
    rw [run_of_feedAll_ok hall', run_nil]
    rcases (h₁.withRest [] []).takes htoken hend with
      ⟨_, a', hfeed, h'⟩ | ⟨name, line, he, hshared⟩
    · rw [hfeed]
      have hsame := h'.same
      cases hsame
      exact .inl ⟨a', rfl, h'⟩
    · refine .inr ⟨name, line, ?_, hshared⟩
      rcases hfeed : (a₁.withRest []).feed next' (.endOfFile a₁.input.endLine) with ⟨result, a₂⟩
      rw [hfeed] at he
      obtain rfl : result = _ := he
      rfl
  · rcases hall' : a.feedAll context' answers' with ⟨result, a'⟩
    rw [hall'] at he
    obtain rfl : result = _ := he
    obtain ⟨rest, hrun⟩ := run_of_feedAll_error hall'
    have hextends := feedAll_extends_run h.coherent answers
    rw [hall, hb] at hextends
    exact .inr ⟨name, line, by rw [hrun], hshared.extends hextends⟩

/-! ## Between two sources -/

/-- Nothing clashes with an empty program. -/
theorem not_clashes_empty {u : SourceUnit} {e : Except Error Context} : ¬ Clashes {} u e := by
  rintro ⟨name, line, -, label, hfind⟩
  have hmem := List.find?_some hfind
  rw [Table.contains_eq_true] at hmem
  cases hmem

/-- Behind the end of a line a statement begins, or the literal of a directive is awaited. -/
theorem Takes.of_endOfLine (h : Takes a context token (.ok next) a')
    (hlexeme : token.lexeme = .endOfLine) :
    next = .statement ∨ ∃ word encoding name, next = .directive word encoding name := by
  generalize hresult : (Except.ok next : Except Error Context) = result at h
  cases h with
  | blank | instruction | close | activate | label => exact .inl (Except.ok.inj hresult)
  | await => exact .inr ⟨_, _, _, Except.ok.inj hresult⟩
  | operand hfits =>
    rename_i slot _ _ _ _
    rw [hlexeme] at hfits
    cases slot <;> cases hfits
  | refuse => cases hresult
  | refuseBound => cases hresult
  | announce h | operation h | declaration h | directiveLiteral h | declarationLiteral h =>
    rw [hlexeme] at h
    cases h

/-- On a line without tokens no statement has been begun, except a directive that awaits its
literal. -/
theorem context_of_lineOpen {answers : List (Except Error Token)} {isOpen : Bool}
    (h : a.feedAll context answers = (.ok next, a'))
    (hcontext : isOpen = false →
      context = .statement ∨ ∃ word encoding name, context = .directive word encoding name)
    (hopen : TokenStream.lineOpen isOpen answers = false) :
    next = .statement ∨ ∃ word encoding name, next = .directive word encoding name := by
  fun_induction Assembly.feedAll a context answers generalizing isOpen with
  | case1 =>
    cases h
    exact hcontext hopen
  | case2 => cases h
  | case3 a context e rest hfatal ih => exact ih h hcontext hopen
  | case4 => cases h
  | case5 a context token rest next₁ a₁ hfeed ih =>
    have htakes := takes_feed a context token
    rw [hfeed] at htakes
    refine ih h (fun hline => htakes.of_endOfLine ?_) hopen
    simpa using hline

theorem endsLine_of_unlined (h : token.unlined = .lineEnd) : token.endsLine = true := by
  have hlexeme : token.lexeme = .endOfLine := congrArg Token.lexeme h
  rw [Token.endsLine, hlexeme]

/-- At the end of a source, the end of the line is accepted if the line is open. The source has then
been assembled. -/
theorem Tracks.endLine {ends : List (Except Error Token)} {isOpen : Bool} {line : Nat}
    (h : Tracks {} context context' b a)
    (hend : Takes (b.withRest []) context (.endOfFile line) (.ok .statement) b')
    (hopen : isOpen = false →
      context = .statement ∨ ∃ word encoding name, context = .directive word encoding name)
    (hends : ends.map TokenStream.unlined = if isOpen then [.ok .lineEnd] else []) :
    ∃ a', a.feedAll context' ends = (.ok .statement, a') ∧
      Tracks {} .statement .statement b' a' := by
  have h' := h.withRest [] a.input.answers
  cases isOpen with
  | true =>
    obtain ⟨token, rest, rfl, htoken, hrest⟩ := TokenStream.exists_cons_of_unlined hends
    obtain rfl : rest = [] := List.map_eq_nil_iff.mp hrest
    have hendsLine := endsLine_of_unlined htoken
    have htakes := hend.of_endOfFile.2 token hendsLine
    rcases h'.takes rfl htakes with ⟨next, a', hfeed, htracks⟩ | hclash
    · have hsame := htracks.same
      cases hsame
      exact ⟨a', feedAll_ok_cons hfeed, htracks⟩
    · exact absurd hclash not_clashes_empty
  | false =>
    -- a directive that awaits its literal would have refused the end of the source
    obtain rfl : ends = [] := List.map_eq_nil_iff.mp hends
    rcases hopen rfl with rfl | ⟨word, encoding, name, rfl⟩
    · have hsame := h.same
      cases hsame
      have hfeed := hend.feed_eq
      cases hfeed
      exact ⟨a, rfl, h'⟩
    · cases hend.feed_eq

/-- The line between two sources makes the text section active, and no label waits behind it. -/
theorem feedAll_text {answers : List (Except Error Token)}
    (h : answers.map TokenStream.unlined =
      [.ok { lexeme := .directive "text", line := 0 }, .ok .lineEnd]) :
    a.feedAll .statement answers =
      (.ok .statement, { a with active := .text, pending := none }) := by
  obtain ⟨token, _, rfl, htoken, hrest⟩ := TokenStream.exists_cons_of_unlined h
  obtain ⟨lineEnd, _, rfl, hlineEnd, hrest⟩ := TokenStream.exists_cons_of_unlined hrest
  obtain rfl := List.map_eq_nil_iff.mp hrest
  have hlexeme : token.lexeme = .directive "text" := congrArg Token.lexeme htoken
  have hname : Section.ofName? "text" = some .text := rfl
  have hactivate := Takes.activate (a := a) hlexeme hname
  rw [feedAll_ok_cons hactivate.feed_eq,
    feedAll_ok_cons (Takes.blank (endsLine_of_unlined hlineEnd)).feed_eq]
  rfl

namespace Onto

variable {q : Program}

/-- A program into which the unit has been merged holds what the assembly that goes on has
assembled. -/
theorem contents_eq (h : Onto base b a) (hmerged : base.Merged b.unit q) :
    q.contents.unlined = a.unit.unlined := by
  have hlabels : q.labels.mapValues Label.unlined = a.unit.labels.mapValues Label.unlined := by
    apply Table.eq_of_entries
    rw [h.labels, Table.entries_mapValues, hmerged.labels, List.map_append, List.map_map]
    rfl
  have hdata : q.data = a.unit.data := Table.eq_of_entries (hmerged.data.trans h.data.symm)
  have hinstructions : q.instructions.map Instruction.unlined =
      a.unit.instructions.map Instruction.unlined := by
    rw [hmerged.instructions, h.instructions]
  change SourceUnit.mk _ _ _ = SourceUnit.mk _ _ _
  rw [SourceUnit.mk.injEq]
  exact ⟨hinstructions, hlabels, hdata⟩

/-- The sections of such a program are filled as far. -/
theorem sizes_eq (h : Onto base b a) (hmerged : base.Merged b.unit q) (hb : b.Consistent) :
    q.sizes = a.offsets := by
  apply PerSection.ext_get
  intro home
  rw [hmerged.sizes, h.offsets, hb.offsets_eq]

/-- Behind the line between two sources, the assembly goes on from such a program. -/
theorem rebase (h : Onto base b a) (hmerged : base.Merged b.unit q) (hb : b.Consistent)
    (path : String) (source : Source) :
    Onto q (ofSource path source) { a with active := .text, pending := none } := by
  have hcontents := h.contents_eq hmerged
  refine ⟨rfl, rfl, ?_, ?_, ?_, ?_⟩
  · intro home
    rw [h.sizes_eq hmerged hb]
    cases home <;> rfl
  · have hlabels := congrArg (fun u => u.labels.entries) hcontents
    exact hlabels.symm.trans (List.append_nil _).symm
  · have hdata := congrArg (fun u => u.data.entries) hcontents
    exact hdata.symm.trans (List.append_nil _).symm
  · have hinstructions := congrArg SourceUnit.instructions hcontents
    change a.unit.instructions.map _ = (q.instructions ++ []).map _
    rw [List.append_nil]
    exact hinstructions.symm

end Onto

/-! ## Two sources -/

/-- Where a sequence of answers is accepted, nothing is refused in it. -/
theorem fine_of_feedAll {answers : List (Except Error Token)}
    (h : a.feedAll context answers = (.ok next, a')) : TokenStream.Fine answers := by
  fun_induction Assembly.feedAll a context answers with
  | case1 => simp [TokenStream.Fine]
  | case2 => cases h
  | case3 a context e rest hfatal ih =>
    exact List.forall_mem_cons.mpr ⟨Bool.not_eq_true _ ▸ hfatal, ih h⟩
  | case4 => cases h
  | case5 a context token rest next₁ a₁ hfeed ih => exact List.forall_mem_cons.mpr ⟨rfl, ih h⟩

theorem fine_of_assemble (h : a.assemble = (.ok (), a')) : TokenStream.Fine a.input.answers := by
  obtain ⟨next, b, hall, -⟩ := feedAll_of_run_ok h
  exact fine_of_feedAll hall

/-- Two sources are alike before their first token. -/
theorem tracks_ofSource (path path' : String) (source source' : Source) :
    Tracks {} .statement .statement (ofSource path source) (ofSource path' source') where
  active := rfl
  pending := rfl
  offsets home := by cases home <;> rfl
  labels := rfl
  data := rfl
  instructions := rfl
  same := .statement
  coherent := (consistent_ofSource path source).coherent
  coherent' := (consistent_ofSource path' source').coherent

/-- Behind a source that is assembled and the line that makes the text section active, the work on
the second source goes on from the program into which the first unit has been merged. -/
theorem assemble_append {first second : List UInt8} {q : Program} (path path₁ path₂ : String)
    (hfirst : (ofSource path₁ (.ofBytes first)).assemble = (.ok (), b))
    (hsecond : TokenStream.Fine (ofSource path₂ (.ofBytes second)).input.answers)
    (hmerged : Program.Merged {} b.unit q) :
    ∃ a answers, (ofSource path (.ofBytes (first ++ Scanner.textLine ++ second))).assemble =
        a.run .statement answers ∧
      (ofSource path₂ (.ofBytes second)).input.answers.map TokenStream.unlined =
        answers.map TokenStream.unlined ∧
      Tracks q .statement .statement (ofSource path₂ (.ofBytes second)) a := by
  obtain ⟨next, b₁, hall, hend⟩ := feedAll_of_run_ok hfirst
  have hfine₁ : TokenStream.Fine (Scanner.begin path₁ (first.map .byte)).answers :=
    fine_of_feedAll hall
  have hfine₂ : TokenStream.Fine (Scanner.begin path₂ (second.map .byte)).answers := hsecond
  have hanswers := Scanner.answers_append_textLine path path₁ path₂ hfine₁ hfine₂
  rw [← List.map_append, ← List.map_append] at hanswers
  obtain ⟨front, behind, hsplit, hfront, hbehind⟩ := List.map_eq_append_iff.mp hanswers
  obtain ⟨answers₁, ends, rfl, hanswers₁, hends⟩ := List.map_eq_append_iff.mp hfront
  obtain ⟨text, answers₂, rfl, htext, hanswers₂⟩ := List.map_eq_append_iff.mp hbehind
  -- the first source, up to the end of its last line
  have hstart := tracks_ofSource path₁ path (.ofBytes first)
    (.ofBytes (first ++ Scanner.textLine ++ second))
  obtain ⟨next', a₁, hall', htracks₁⟩ :=
    (hstart.feedAll hanswers₁.symm hall).resolve_right not_clashes_empty
  obtain ⟨a₂, hends', htracks₂⟩ := htracks₁.endLine hend
    (context_of_lineOpen hall fun _ => .inl rfl) hends
  -- the line between the sources
  refine ⟨{ a₂ with active := .text, pending := none }, answers₂, ?_, hanswers₂.symm, ?_⟩
  · change run _ .statement (Scanner.answers (.begin path _)) = _
    rw [hsplit, List.append_assoc answers₁, run_append _ hall', run_append _ hends',
      run_append _ (feedAll_text htext)]
  · exact ⟨htracks₂.rebase hmerged htracks₂.coherent.toConsistent path₂ _, .statement,
      (consistent_ofSource path₂ _).coherent, (htracks₂.coherent'.activate .text).coherent⟩

end Assembly

namespace Program

/-- Merging two units is merging the second one when the first one has been merged. -/
theorem mergeAll_pair {p q : Program} {u v : SourceUnit} (h : p.merge u = (.ok (), q)) :
    p.mergeAll [u, v] = q.merge v := by
  rw [mergeAll, h]
  dsimp only
  rw [mergeAll]
  rcases q.merge v with ⟨_ | _, r⟩
  · rfl
  · rfl

/-- Linking agrees with concatenation. Of two sources that can be assembled, with a line between
them that makes the text section active, one unit can be assembled exactly when their units can be
merged. It is then what the program holds, line numbers aside, and its sections have the sizes of
the program's. Otherwise the same name is reported as defined twice. -/
theorem mergeAll_agrees_with_concatenation (path path₁ path₂ : String) {first second : List UInt8}
    {r₁ r₂ : Assembly}
    (h₁ : (Assembly.ofSource path₁ (.ofBytes first)).assemble = (.ok (), r₁))
    (h₂ : (Assembly.ofSource path₂ (.ofBytes second)).assemble = (.ok (), r₂)) :
    let joined := (Assembly.ofSource path
      (.ofBytes (first ++ "\n.text\n".toUTF8.data.toList ++ second))).assemble
    let merged := ({} : Program).mergeAll [r₁.unit, r₂.unit]
    (joined.1 = .ok () ↔ merged.1 = .ok ()) ∧
      (merged.1 = .ok () → merged.2.contents.unlined = joined.2.unit.unlined ∧
        merged.2.sizes = joined.2.offsets ∧ merged.2.sizes = joined.2.unit.sizes) ∧
      (merged.1 ≠ .ok () → ∃ name line line',
        joined.1 = .error (.duplicateLabel (some line) name) ∧
        merged.1 = .error (.duplicateLabel (some line') name)) := by
  intro joined merged
  have hu₁ : r₁.unit.WellFormed := (AssembledSource.mk path₁ _ r₁ h₁).unit_assembled.wellFormed
  have hu₂ : r₂.unit.WellFormed := (AssembledSource.mk path₂ _ r₂ h₂).unit_assembled.wellFormed
  obtain ⟨q, hmerge, hmerged⟩ := merge_of_disjoint wellFormed_empty.contents hu₁
    (fun name _ hname => by cases hname)
  have hq := (hmerged.wellFormed wellFormed_empty hu₁).contents
  obtain ⟨a, answers, hassemble, hanswers, htracks⟩ := Assembly.assemble_append path path₁ path₂ h₁
    (Assembly.fine_of_assemble h₂) hmerged
  have hjoined : joined = a.run .statement answers := hassemble
  have hmergeAll : merged = q.merge r₂.unit := mergeAll_pair hmerge
  rw [hjoined, hmergeAll]
  rcases htracks.run hanswers h₂ with ⟨a', hrun, htracks'⟩ | ⟨name, line, hrun, label, hshared⟩
  · obtain ⟨q', hmerge', hmerged'⟩ := merge_of_disjoint hq hu₂ htracks'.disjoint
    -- both went well: the program holds what the one unit holds
    have hsizes := htracks'.sizes_eq hmerged' htracks'.coherent.toConsistent
    rw [hrun, hmerge']
    refine ⟨Iff.rfl, fun _ => ⟨htracks'.contents_eq hmerged', hsizes, ?_⟩, ?_⟩
    case refine_2 => exact fun hne => absurd rfl hne
    rw [hsizes, htracks'.coherent'.offsets_eq]
  · -- the name that was refused is the first that merging finds
    rw [merge_of_shared hshared, hrun]
    exact ⟨by simp, by simp, fun _ => ⟨name, line, label.line, rfl, rfl⟩⟩

/-- Two sources of which the first one ends in a comment behind an instruction, and the second one
with a carriage return; and one that defines a name of the first one again. -/
theorem mergeAll_agrees_with_concatenation_of_open_line :
    let first := ".data\nmsg: .asciz \"hi\"\n.text\nmain: call f # no line feed"
    let second := "f: ret\n.data\nbye: .ascii\n\"!\"\r"
    let third := "g: ret\nmain: ret"
    let assembled (text : String) :=
      (Assembly.ofSource "unit" (.ofBytes text.toUTF8.data.toList)).assemble
    let joined (text : String) := (Assembly.ofSource "joined"
      (.ofBytes (first.toUTF8.data.toList ++ "\n.text\n".toUTF8.data.toList ++
        text.toUTF8.data.toList))).assemble
    let merged (text : String) :=
      ({} : Program).mergeAll [(assembled first).2.unit, (assembled text).2.unit]
    (assembled first).1 = .ok () ∧ (assembled second).1 = .ok () ∧ (assembled third).1 = .ok () ∧
      (joined second).1 = .ok () ∧
      (merged second).2.contents.unlined = (joined second).2.unit.unlined ∧
      (merged third).1 = .error (.duplicateLabel (some 2) "main") ∧
      ∃ line, (joined third).1 = .error (.duplicateLabel (some line) "main") := by
  intro first second third assembled joined merged
  have hfirst : (assembled first).1 = .ok () := by decide +kernel
  have hsecond : (assembled second).1 = .ok () := by decide +kernel
  have hthird : (assembled third).1 = .ok () := by decide +kernel
  have hmerged : (merged second).1 = .ok () := by decide +kernel
  have hclash : (merged third).1 = .error (.duplicateLabel (some 2) "main") := by decide +kernel
  obtain ⟨hiff, hsame, -⟩ := mergeAll_agrees_with_concatenation "joined" "unit" "unit"
    (Prod.ext hfirst rfl) (Prod.ext hsecond rfl)
  obtain ⟨-, -, hboth⟩ := mergeAll_agrees_with_concatenation "joined" "unit" "unit"
    (Prod.ext hfirst rfl) (Prod.ext hthird rfl)
  obtain ⟨name, line, line', hjoined, hname⟩ := hboth (by decide +kernel)
  obtain ⟨-, rfl⟩ : some 2 = some line' ∧ "main" = name :=
    Error.duplicateLabel.inj (Except.error.inj (hclash.symm.trans hname))
  exact ⟨hfirst, hsecond, hthird, hiff.mpr hmerged, (hsame hmerged).1, hclash, line, hjoined⟩

end Program

end AsmLinker
