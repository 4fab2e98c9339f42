import Mathlib
import AsmLinker.Proofs.Unit.Printing

/-!
# Printing and assembling again

A unit that was assembled can be printed and assembled again, and nothing of it is lost
(`Assembly.assemble_print`): the instructions are the same, and every name has the same label and
the same data.

Three facts about assembled units carry this. Their names, operands and texts can be read back
(`Statement.Spelled`). Each label of a section stands at a piece of data, at an instruction or at
the end (`Statement.aligned`), so that printing puts every line where it belongs (`weave_laid`). And
a name of data is a label of the same position, so that the lines define each name once
(`lines_labels_perm`).
-/

namespace AsmLinker

/-! ## Statements that can be read back -/

section

variable {slots : List Slot} {tokens : List Token} {operands : List Operand}

/-- The operands of an instruction are those that were added. -/
theorem Operands.operands_addOperands (h : Operands slots tokens operands) (ins : Instruction) :
    (ins.addOperands slots operands).operands = ins.operands ++ operands := by
  induction h generalizing ins with
  | nil => exact (List.append_nil _).symm
  | @cons slot slots token tokens operand operands hfits hcomma h ih =>
    have hrest := ih (ins.addOperand slot operand)
    exact hrest.trans (List.append_assoc ins.operands [operand] operands)

theorem Operands.op_addOperands (h : Operands slots tokens operands) (ins : Instruction) :
    (ins.addOperands slots operands).op = ins.op := by
  induction h generalizing ins with
  | nil => rfl
  | cons hfits hcomma h ih => exact ih _

theorem Operands.unlined_addOperands (h : Operands slots tokens operands) (ins : Instruction) :
    (ins.addOperands slots operands).unlined = ins.unlined.addOperands slots operands := by
  induction h generalizing ins with
  | nil => rfl
  | cons hfits hcomma h ih => exact ih _

/-- An operand that was read can be read back. -/
theorem Slot.Fits.spelled {slot : Slot} {lexeme : Lexeme} {operand : Operand}
    (h : slot.Fits lexeme operand) (hlexeme : lexeme.Spelled) :
    operand.Spelled ∧ slot.Fits operand.lexeme operand := by
  cases h with
  | register h index => exact ⟨hlexeme, .register h index⟩
  | literal h text value => exact ⟨trivial, .literal h _ value⟩
  | label h name => exact ⟨hlexeme, .label h name⟩

theorem Operands.spelled (h : Operands slots tokens operands)
    (htokens : ∀ token ∈ tokens, token.lexeme.Spelled) :
    (∀ operand ∈ operands, operand.Spelled) ∧
      Operands slots (Operand.tokens operands) operands := by
  induction h with
  | nil => exact ⟨by simp, .nil⟩
  | @cons slot slots token tokens operand operands hfits hcomma h ih =>
    obtain ⟨htoken, hothers⟩ := List.forall_mem_cons.mp htokens
    obtain ⟨hoperands, hrest⟩ := ih hothers
    obtain ⟨hoperand, hfits'⟩ := hfits.spelled htoken
    -- a comma is printed where one was read: behind every operand but the last
    have hends : slots.isEmpty = operands.isEmpty := by
      cases h <;> rfl
    exact ⟨List.forall_mem_cons.mpr ⟨hoperand, hoperands⟩, .cons hfits' (by rw [hends]) hrest⟩

/-- An instruction that was read can be read back. -/
theorem Operands.instruction_spelled {op : Opcode} (h : Operands op.slots tokens operands)
    (htokens : ∀ token ∈ tokens, token.lexeme.Spelled) (line : Nat) :
    (Instruction.addOperands { op, line } op.slots operands).Spelled := by
  obtain ⟨hoperands, hfits⟩ := h.spelled htokens
  have hop := h.op_addOperands { op, line }
  have hall := h.operands_addOperands { op, line }
  rw [List.nil_append] at hall
  refine ⟨by rwa [hall], by rwa [hall, hop], ?_⟩
  rw [hall, hop, h.unlined_addOperands]
  rfl

end

/-- The statement can be read back. -/
def Statement.Spelled : Statement → Prop
  | .label name _ _ => IsWord name
  | .instruction ins => ins.Spelled
  | .data .. => True

theorem LineEnds.subset {tail rest : List Token} (h : LineEnds tail rest) : rest ⊆ tail := by
  cases h with
  | line => exact List.subset_cons_self _ _
  | file => exact List.Subset.refl _

theorem ClosingLiteral.subset {tail rest : List Token} {text : String}
    (h : ClosingLiteral tail text rest) : rest ⊆ tail := by
  cases h with
  | mk hlexeme hcomma hends => exact List.subset_cons_of_subset _ hends.subset

theorem Grammar.spelled {active : Section} {pending : Option String} {tokens : List Token}
    {statements : List Statement} (h : Grammar active pending tokens statements)
    (htokens : ∀ token ∈ tokens, token.lexeme.Spelled) :
    ∀ statement ∈ statements, statement.Spelled := by
  induction h with
  | done => simp
  | blank hlexeme h ih => exact ih (List.forall_mem_cons.mp htokens).2
  | activate hlexeme h ih => exact ih (List.forall_mem_cons.mp htokens).2
  | label hlexeme h ih =>
    obtain ⟨htoken, hothers⟩ := List.forall_mem_cons.mp htokens
    rw [hlexeme] at htoken
    exact List.forall_mem_cons.mpr ⟨htoken, ih hothers⟩
  | instruction hlexeme hcomma hoperands hends h ih =>
    obtain ⟨-, hothers⟩ := List.forall_mem_cons.mp htokens
    obtain ⟨harguments, htail⟩ := List.forall_mem_append.mp hothers
    refine List.forall_mem_cons.mpr ⟨hoperands.instruction_spelled harguments _, ih ?_⟩
    exact fun token hmem => htail token (hends.subset hmem)
  | directive hactive hlexeme hword hblanks hliteral h ih =>
    obtain ⟨-, hothers⟩ := List.forall_mem_cons.mp htokens
    obtain ⟨-, htail⟩ := List.forall_mem_append.mp hothers
    refine List.forall_mem_cons.mpr ⟨trivial, ih ?_⟩
    exact fun token hmem => htail token (hliteral.subset hmem)
  | declaration hactive hlexeme hliteral h ih =>
    obtain ⟨htoken, htail⟩ := List.forall_mem_cons.mp htokens
    rw [hlexeme] at htoken
    refine List.forall_mem_cons.mpr ⟨htoken.1, List.forall_mem_cons.mpr ⟨trivial, ih ?_⟩⟩
    exact fun token hmem => htail token (hliteral.subset hmem)

/-! ## Where labels stand -/

/-- A range that is filled begins with data, or there is nothing in it. -/
theorem Declaration.Tiles.eq_or_exists {start stop : Nat} {ds : List Declaration}
    (h : Tiles start ds stop) : start = stop ∨ ∃ d ∈ ds, d.offset = start := by
  cases ds with
  | nil => exact .inl h
  | cons d rest => exact .inr ⟨d, List.mem_cons_self, h.1⟩

namespace Statement

variable {home : Section} {offsets : PerSection Nat} {statements : List Statement}

/-- The data that statements declare in a section, in order. -/
def declarationsIn (home : Section) (offsets : PerSection Nat) (statements : List Statement) :
    List Declaration :=
  ((collect declarations offsets statements).map Prod.snd).filter (·.home = home)

theorem declarationsIn_data (name : String) (other : Section) (encoding : Encoding)
    (text : String) (rest : List Statement) :
    declarationsIn home offsets (.data name other encoding text :: rest) =
      (if other = home then [declaration name other encoding text offsets] else []) ++
        declarationsIn home (advance offsets (.data name other encoding text)) rest := by
  unfold declarationsIn
  rw [collect, List.map_append, List.filter_append]
  by_cases hsame : other = home <;> simp [declarations, declaration, hsame]

/-- The data of a section fills it, whatever else is stated in between. -/
theorem tiles_declarationsIn (hhome : home ≠ .text) (offsets : PerSection Nat)
    (statements : List Statement) :
    Declaration.Tiles (offsets.get home) (declarationsIn home offsets statements)
      ((statements.foldl advance offsets).get home) := by
  induction statements generalizing offsets with
  | nil => rfl
  | cons statement rest ih =>
    cases statement with
    | label name other line => exact ih offsets
    | instruction ins =>
      -- only the text section grows
      have hrest := ih (offsets.set .text (offsets.text + Record.size))
      rw [PerSection.get_set_of_ne _ _ hhome] at hrest
      exact hrest
    | data name other encoding text =>
      have hrest := ih (advance offsets (.data name other encoding text))
      rw [List.foldl_cons, declarationsIn_data]
      by_cases hsame : other = home
      · subst hsame
        rw [advance, PerSection.get_set_self] at hrest
        rw [if_pos rfl]
        exact ⟨rfl, hrest⟩
      · rw [advance, PerSection.get_set_of_ne _ _ (Ne.symm hsame)] at hrest
        rw [if_neg hsame]
        exact hrest

/-- A label of a section stands at data of the section or at its end. -/
theorem aligned (hhome : home ≠ .text) {name : String} {l : Label}
    (h : (name, l) ∈ collect labels offsets statements) (hl : l.home = home) :
    l.offset = (statements.foldl advance offsets).get home ∨
      ∃ d ∈ declarationsIn home offsets statements, d.offset = l.offset := by
  induction statements generalizing offsets with
  | nil => cases h
  | cons statement rest ih =>
    rcases List.mem_append.mp h with hhere | hlater
    · -- the label of this statement stands where the rest of the section begins
      cases statement with
      | label other place line =>
        obtain ⟨rfl, rfl⟩ : name = other ∧ l = ⟨other, place, offsets.get place, line⟩ := by
          simpa [labels] using hhere
        obtain rfl : place = home := hl
        exact (tiles_declarationsIn hhome offsets _).eq_or_exists
      | instruction => cases hhere
      | data => cases hhere
    · -- data that is declared later is declared
      rcases ih hlater with hend | ⟨d, hd, hoffset⟩
      · exact .inl hend
      · refine .inr ⟨d, ?_, hoffset⟩
        rw [declarationsIn, collect, List.map_append, List.filter_append]
        exact List.mem_append_right _ hd

end Statement

/-! ## Woven lines -/

section

variable {home : Section} {start stop : Nat} {labels : List Label} {items : List (Nat × Line)}

/-- Lines with positions take up the positions of a section from one up to another, each from its
own. -/
def Placed (home : Section) : Nat → List (Nat × Line) → Nat → Prop
  | start, [], stop => start = stop
  | start, (offset, line) :: rest, stop =>
    offset = start ∧ ∃ next, line.Occupies home start next ∧ Placed home next rest stop

theorem laid_labels {rest : List Line} (h : ∀ l ∈ labels, l.home = home ∧ l.offset = start)
    (hrest : Laid home start rest stop) : Laid home start (labels.map .label ++ rest) stop := by
  induction labels with
  | nil => exact hrest
  | cons l more ih =>
    obtain ⟨⟨hhome, hoffset⟩, hmore⟩ := List.forall_mem_cons.mp h
    exact ⟨start, ⟨hhome, hoffset, rfl⟩, ih hmore⟩

/-- Labels that stand at a line or at the end are woven in at their positions. -/
theorem weave_laid (h : Placed home start items stop)
    (hlabels : ∀ l ∈ labels, l.home = home ∧
      (l.offset = stop ∨ ∃ item ∈ items, item.1 = l.offset)) :
    Laid home start (weave labels items) stop := by
  induction items generalizing start labels with
  | nil =>
    obtain rfl : start = stop := h
    rw [weave, ← List.append_nil (labels.map Line.label)]
    apply laid_labels _ (show Laid home start [] start from rfl)
    intro l hl
    simpa using hlabels l hl
  | cons item rest ih =>
    obtain ⟨offset, line⟩ := item
    obtain ⟨rfl, next, hplace, hrest⟩ := h
    rw [weave]
    apply laid_labels
    · -- the labels of this position
      intro l hl
      obtain ⟨hmem, hoffset⟩ := List.mem_filter.mp hl
      exact ⟨(hlabels l hmem).1, by simpa using hoffset⟩
    · refine ⟨next, hplace, ih hrest ?_⟩
      intro l hl
      obtain ⟨hmem, hoffset⟩ := List.mem_filter.mp hl
      obtain ⟨hhome, hend | ⟨item, hitem, hposition⟩⟩ := hlabels l hmem
      · exact ⟨hhome, .inl hend⟩
      · -- it does not stand at this line, so it stands at a later one
        rcases List.mem_cons.mp hitem with rfl | hlater
        · exact absurd hposition.symm (by simpa using hoffset)
        · exact ⟨hhome, .inr ⟨item, hlater, hposition⟩⟩

open scoped List in
/-- Weaving loses no label and no line, and adds none. -/
theorem weave_perm (labels : List Label) (items : List (Nat × Line)) :
    (weave labels items).Perm (labels.map .label ++ items.map Prod.snd) := by
  induction items generalizing labels with
  | nil => simp [weave]
  | cons item rest ih =>
    obtain ⟨offset, line⟩ := item
    -- the labels in front of the line and those behind it are all
    have hsplit := List.filter_append_perm (fun l : Label => decide (l.offset = offset)) labels
    simp only [← decide_not] at hsplit
    calc weave labels ((offset, line) :: rest)
      _ = (labels.filter (·.offset = offset)).map .label ++
            line :: weave (labels.filter (·.offset ≠ offset)) rest := rfl
      _ ~ (labels.filter (·.offset = offset)).map .label ++
            line :: ((labels.filter (·.offset ≠ offset)).map .label ++ rest.map Prod.snd) :=
          ((ih _).cons line).append_left _
      _ ~ (labels.filter (·.offset = offset)).map .label ++
            ((labels.filter (·.offset ≠ offset)).map .label ++ line :: rest.map Prod.snd) :=
          List.perm_middle.symm.append_left _
      _ = (labels.filter (·.offset = offset) ++ labels.filter (·.offset ≠ offset)).map .label ++
            line :: rest.map Prod.snd := by
          rw [List.map_append, List.append_assoc]
      _ ~ labels.map .label ++ line :: rest.map Prod.snd := (hsplit.map _).append_right _

/-- What labels have no share in is left as it is by weaving them in. -/
theorem flatMap_weave {α : Type} {share : Line → List α} (h : ∀ l, share (.label l) = []) :
    (weave labels items).flatMap share = items.flatMap fun item => share item.2 := by
  have hlabels (labels : List Label) : (labels.map Line.label).flatMap share = [] := by
    simp [List.flatMap_map, h]
  induction items generalizing labels with
  | nil => exact hlabels labels
  | cons item rest ih =>
    rw [weave, List.flatMap_append, hlabels, List.nil_append, List.flatMap_cons, ih]
    rfl

end

/-! ## The lines of an assembled unit -/

/-- Instructions take up one record each. -/
theorem placed_instructions (instructions : List Instruction) (k : Nat) :
    Placed .text (Record.size * k)
      ((instructions.zipIdx k).map fun (ins, i) => (Record.size * i, .instruction ins))
      (Record.size * (k + instructions.length)) := by
  induction instructions generalizing k with
  | nil => rfl
  | cons ins rest ih =>
    have hrest := ih (k + 1)
    rw [Nat.add_right_comm, Nat.add_assoc] at hrest
    exact ⟨rfl, Record.size * (k + 1), ⟨rfl, rfl⟩, hrest⟩

/-- Data that fills a section takes up the bytes that it holds. -/
theorem Declaration.Tiles.placed {home : Section} {start stop : Nat} {ds : List Declaration}
    (h : Tiles start ds stop) (hhome : home ≠ .text) (hds : ∀ d ∈ ds, d.home = home) :
    Placed home start (ds.map fun d => (d.offset, .data d)) stop := by
  induction ds generalizing start with
  | nil => exact h
  | cons d rest ih =>
    obtain ⟨hoffset, hrest⟩ := h
    obtain ⟨hd, hothers⟩ := List.forall_mem_cons.mp hds
    exact ⟨hoffset, d.stop, ⟨hhome, hd, hoffset, rfl⟩, ih hrest hothers⟩

theorem SourceUnit.placed_of_ne (u : SourceUnit) {home : Section} (h : home ≠ .text) :
    u.placed home = (u.data.declarationsIn home).map fun d => (d.offset, .data d) := by
  cases home with
  | text => exact absurd rfl h
  | data => rfl
  | string => rfl

theorem SourceUnit.exists_of_mem_loose {u : SourceUnit} {home : Section} {l : Label}
    (h : l ∈ u.loose home) : (∃ name, u.labels.get? name = some l) ∧ l.home = home := by
  obtain ⟨hvalue, hhome⟩ := List.mem_filter.mp (List.mem_filter.mp h).1
  exact ⟨Table.mem_values.mp hvalue, of_decide_eq_true hhome⟩

/-- What is on the lines of the text section is on those of the instructions. -/
theorem SourceUnit.flatMap_placed_text {α : Type} (u : SourceUnit) (share : Line → List α) :
    ((u.placed .text).flatMap fun item => share item.2) =
      u.instructions.flatMap fun ins => share (.instruction ins) := by
  have hfst := List.zipIdx_map_fst 0 u.instructions
  rw [placed, List.flatMap_map]
  nth_rewrite 2 [← hfst]
  rw [List.flatMap_map]

/-- What is on the lines of any other section is on those of its data. -/
theorem SourceUnit.flatMap_placed_of_ne {α : Type} (u : SourceUnit) {home : Section}
    (hhome : home ≠ .text) (share : Line → List α) :
    ((u.placed home).flatMap fun item => share item.2) =
      (u.data.declarationsIn home).flatMap fun d => share (.data d) := by
  rw [u.placed_of_ne hhome, List.flatMap_map]

theorem Statement.exists_of_mem_collect {α : Type} {x : α}
    {contribution : PerSection Nat → Statement → List α} {offsets : PerSection Nat}
    {statements : List Statement} (h : x ∈ collect contribution offsets statements) :
    ∃ statement ∈ statements, ∃ offsets', x ∈ contribution offsets' statement := by
  induction statements generalizing offsets with
  | nil => cases h
  | cons statement rest ih =>
    rcases List.mem_append.mp h with hhere | hlater
    · exact ⟨statement, List.mem_cons_self, offsets, hhere⟩
    · obtain ⟨other, hmem, hother⟩ := ih hlater
      exact ⟨other, List.mem_cons_of_mem _ hmem, hother⟩

namespace SourceUnit.Holds

variable {u : SourceUnit} {statements : List Statement}

theorem declarationsIn_eq (h : u.Holds statements) (home : Section) :
    u.data.declarationsIn home = Statement.declarationsIn home (.const 0) statements := by
  unfold Table.declarationsIn Statement.declarationsIn Table.values
  rw [h.data]

/-- The name of a label is a word. -/
theorem isWord (h : u.Holds statements) (hspelled : ∀ statement ∈ statements, statement.Spelled)
    {name : String} {l : Label} (hl : u.labels.get? name = some l) : IsWord name := by
  have hmem := Table.get?_eq_some_iff.mp hl
  rw [h.labels] at hmem
  obtain ⟨statement, hstatement, offsets, hlabel⟩ := Statement.exists_of_mem_collect hmem
  cases statement with
  | label other home line =>
    obtain ⟨rfl, -⟩ : name = other ∧ _ := by simpa [Statement.labels] using hlabel
    exact hspelled _ hstatement
  | instruction => cases hlabel
  | data => cases hlabel

theorem instruction_spelled (h : u.Holds statements)
    (hspelled : ∀ statement ∈ statements, statement.Spelled) {ins : Instruction}
    (hins : ins ∈ u.instructions) : ins.Spelled := by
  rw [h.instructions] at hins
  obtain ⟨statement, hstatement, offsets, hmem⟩ := Statement.exists_of_mem_collect hins
  cases statement with
  | label => cases hmem
  | instruction other =>
    obtain rfl : ins = other := by simpa [Statement.instructions] using hmem
    exact hspelled _ hstatement
  | data => cases hmem

/-- The bytes of data are those of a text. -/
theorem utf8_text (h : u.Holds statements) {name : String} {d : Declaration}
    (hd : u.data.get? name = some d) : utf8 d.text = d.bytes := by
  have hmem := Table.get?_eq_some_iff.mp hd
  rw [h.data] at hmem
  obtain ⟨statement, hstatement, offsets, hdeclared⟩ := Statement.exists_of_mem_collect hmem
  cases statement with
  | label => cases hdeclared
  | instruction => cases hdeclared
  | data other home encoding text =>
    obtain ⟨-, rfl⟩ : name = other ∧
        d = Statement.declaration other home encoding text offsets := by
      simpa [Statement.declarations] using hdeclared
    rw [Declaration.text_eq (show _ = utf8 text from rfl)]
    rfl

end SourceUnit.Holds

namespace Assembly.Consistent

variable {a : Assembly} {statements : List Statement}

/-- The lines of an assembled unit can be read back. -/
theorem lines_spelled (hc : a.Consistent) (hholds : a.unit.Holds statements)
    (hspelled : ∀ statement ∈ statements, statement.Spelled) (home : Section) :
    ∀ line ∈ a.unit.lines home, line.Spelled := by
  intro line hline
  rcases List.mem_append.mp ((weave_perm _ _).mem_iff.mp hline) with hlabel | hitem
  · obtain ⟨l, hl, rfl⟩ := List.mem_map.mp hlabel
    obtain ⟨⟨name, hget⟩, -⟩ := SourceUnit.exists_of_mem_loose hl
    have hword := hholds.isWord hspelled hget
    rwa [← hc.label_name name l hget] at hword
  · by_cases hhome : home = .text
    · subst hhome
      rw [SourceUnit.placed, List.map_map] at hitem
      obtain ⟨⟨ins, i⟩, hins, rfl⟩ := List.mem_map.mp hitem
      exact hholds.instruction_spelled hspelled (List.fst_mem_of_mem_zipIdx hins)
    · rw [SourceUnit.placed_of_ne _ hhome, List.map_map] at hitem
      obtain ⟨d, hd, rfl⟩ := List.mem_map.mp hitem
      obtain ⟨⟨name, hget⟩, -⟩ := Table.mem_declarationsIn.mp hd
      obtain ⟨l, hl, -⟩ := hc.data_label name d hget
      have hword := hholds.isWord hspelled hl
      rw [← hc.data_name name d hget] at hword
      exact ⟨hword, hholds.utf8_text hget⟩

/-- In the text section a label lies between two records. -/
theorem exists_laid_text (hc : a.Consistent) :
    ∃ stop, Laid .text 0 (a.unit.lines .text) stop := by
  refine ⟨_, weave_laid (placed_instructions a.unit.instructions 0) ?_⟩
  intro l hl
  obtain ⟨⟨name, hget⟩, hhome⟩ := SourceUnit.exists_of_mem_loose hl
  refine ⟨hhome, ?_⟩
  obtain ⟨i, hi⟩ := hc.text_label name l hget hhome
  have hle : i ≤ a.unit.instructions.length := by
    have hbound := hc.label_le name l hget
    rw [hhome, PerSection.get, hc.text_filled, hi] at hbound
    exact Nat.le_of_mul_le_mul_left hbound (by decide)
  rcases Nat.lt_or_eq_of_le hle with hlt | rfl
  · refine .inr ⟨(Record.size * i, .instruction a.unit.instructions[i]), ?_, hi.symm⟩
    refine List.mem_map.mpr ⟨(a.unit.instructions[i], i), ?_, rfl⟩
    exact List.mem_zipIdx_iff_getElem?.mpr (List.getElem?_eq_getElem hlt)
  · left
    rw [hi, Nat.zero_add]

/-- In any other section a label stands at data or at the end. -/
theorem exists_laid_of_ne {home : Section} (hholds : a.unit.Holds statements)
    (hhome : home ≠ .text) : ∃ stop, Laid home 0 (a.unit.lines home) stop := by
  have htiles := Statement.tiles_declarationsIn hhome (.const 0) statements
  rw [PerSection.get_const, ← hholds.declarationsIn_eq] at htiles
  have hplaced := htiles.placed hhome fun d hd => (Table.mem_declarationsIn.mp hd).2
  rw [← a.unit.placed_of_ne hhome] at hplaced
  refine ⟨_, weave_laid hplaced ?_⟩
  intro l hl
  obtain ⟨⟨name, hget⟩, hl⟩ := SourceUnit.exists_of_mem_loose hl
  refine ⟨hl, ?_⟩
  have hmem := Table.get?_eq_some_iff.mp hget
  rw [hholds.labels] at hmem
  rcases Statement.aligned hhome hmem hl with hend | ⟨d, hd, hoffset⟩
  · exact .inl hend
  · rw [← hholds.declarationsIn_eq] at hd
    rw [SourceUnit.placed_of_ne _ hhome]
    exact .inr ⟨(d.offset, .data d), List.mem_map.mpr ⟨d, hd, rfl⟩, hoffset⟩

/-- The lines of an assembled unit stand at their positions. -/
theorem exists_laid (hc : a.Consistent) (hholds : a.unit.Holds statements) (home : Section) :
    ∃ stop, Laid home 0 (a.unit.lines home) stop := by
  by_cases hhome : home = .text
  · subst hhome
    exact hc.exists_laid_text
  · exact exists_laid_of_ne hholds hhome

/-! ## What is on the lines -/

/-- The labels by name are the labels, each with its own name. -/
theorem entries_labels (hc : a.Consistent) :
    a.unit.unlined.labels.entries = a.unit.labels.values.map fun l => (l.name, l.unlined) := by
  change a.unit.labels.entries.map _ = (a.unit.labels.entries.map _).map _
  rw [List.map_map]
  apply List.map_congr_left
  intro entry hentry
  have hname := hc.label_name entry.1 entry.2 (Table.get?_eq_some_iff.mpr hentry)
  change (entry.1, _) = (entry.2.name, _)
  rw [hname]

/-- The data by name is the data, each with its own name. -/
theorem entries_data (hc : a.Consistent) :
    a.unit.data.entries = a.unit.data.values.map fun d => (d.name, d) := by
  rw [Table.values, List.map_map]
  refine (List.map_id _).symm.trans (List.map_congr_left ?_)
  intro entry hentry
  have hname := hc.data_name entry.1 entry.2 (Table.get?_eq_some_iff.mpr hentry)
  change (entry.1, entry.2) = (entry.2.name, _)
  rw [hname]

theorem nodup_labels (hc : a.Consistent) : (a.unit.labels.values.map Label.name).Nodup := by
  have hnodup := a.unit.unlined.labels.nodup
  rw [hc.entries_labels, List.map_map] at hnodup
  exact hnodup

theorem nodup_data (hc : a.Consistent) : (a.unit.data.values.map Declaration.name).Nodup := by
  have hnodup := a.unit.data.nodup
  rw [hc.entries_data, List.map_map] at hnodup
  exact hnodup

/-- A label that names data has the position of the data. -/
theorem label_of_data (hc : a.Consistent) {name : String} {l : Label} {d : Declaration}
    (hl : a.unit.labels.get? name = some l) (hd : a.unit.data.get? name = some d) :
    l.home = d.home ∧ (l.name, l.unlined) =
      (d.name, { name := d.name, home := d.home, offset := d.offset, line := 0 }) := by
  obtain ⟨other, hother, hhome, hoffset⟩ := hc.data_label name d hd
  obtain rfl : l = other := Option.some.inj (hl.symm.trans hother)
  refine ⟨hhome, ?_⟩
  rw [Label.unlined, hc.label_name name l hl, hc.data_name name d hd, hhome, hoffset]

/-- The labels that are printed with their data are those that have no line of their own. -/
theorem placed_labels_perm (hc : a.Consistent) {home : Section} (hhome : home ≠ .text) :
    ((a.unit.placed home).flatMap fun item => item.2.labels).Perm
      (((a.unit.labels.values.filter (·.home = home)).filter
        fun l => !decide (home = .text ∨ l.name ∉ a.unit.data.keys)).map
          fun l => (l.name, l.unlined)) := by
  rw [a.unit.flatMap_placed_of_ne hhome Line.labels]
  change ((a.unit.data.declarationsIn home).flatMap fun d => [(d.name, _)]).Perm _
  rw [← List.map_eq_flatMap]
  apply (List.perm_ext_iff_of_nodup ?_ ?_).mpr
  · -- data has a label of its name, at its position, and no other label has that name
    rintro ⟨name, l⟩
    simp only [List.mem_map, List.mem_filter, Table.mem_declarationsIn, Table.mem_values,
      decide_eq_true_eq, hhome, false_or, Bool.not_eq_true', decide_eq_false_iff_not, not_not]
    constructor
    · rintro ⟨d, ⟨⟨key, hd⟩, hin⟩, heq⟩
      obtain ⟨label, hlabel, -⟩ := hc.data_label key d hd
      obtain ⟨hplace, hentry⟩ := hc.label_of_data hlabel hd
      refine ⟨label, ⟨⟨⟨key, hlabel⟩, hplace.trans hin⟩, ?_⟩, hentry.trans heq⟩
      rw [hc.label_name key label hlabel]
      exact Table.mem_keys_of_mem (Table.get?_eq_some_iff.mp hd)
    · rintro ⟨label, ⟨⟨⟨key, hlabel⟩, hin⟩, hkey⟩, heq⟩
      rw [hc.label_name key label hlabel] at hkey
      obtain ⟨d, hmem⟩ := Table.mem_keys_iff.mp hkey
      have hd := Table.get?_eq_some_iff.mpr hmem
      obtain ⟨hplace, hentry⟩ := hc.label_of_data hlabel hd
      exact ⟨d, ⟨⟨key, hd⟩, hplace.symm.trans hin⟩, hentry.symm.trans heq⟩
  · apply List.Nodup.of_map Prod.fst
    rw [List.map_map]
    exact hc.nodup_data.sublist (List.filter_sublist.map _)
  · apply List.Nodup.of_map Prod.fst
    rw [List.map_map]
    exact hc.nodup_labels.sublist ((List.filter_sublist.trans List.filter_sublist).map _)

/-- The lines of a section define its labels, each of them once. -/
theorem lines_labels_perm (hc : a.Consistent) (home : Section) :
    ((a.unit.lines home).flatMap Line.labels).Perm
      (a.unit.unlined.labels.entries.filter (·.2.home = home)) := by
  have hwoven : ((a.unit.lines home).flatMap Line.labels).Perm
      ((a.unit.loose home).map (fun l => (l.name, l.unlined)) ++
        (a.unit.placed home).flatMap fun item => item.2.labels) := by
    have hlines := (weave_perm (a.unit.loose home) (a.unit.placed home)).flatMap_right Line.labels
    rw [List.flatMap_append, List.flatMap_map, List.flatMap_map] at hlines
    rw [List.map_eq_flatMap]
    exact hlines
  have hsplit := (List.filter_append_perm
    (fun l : Label => decide (home = .text ∨ l.name ∉ a.unit.data.keys))
    (a.unit.labels.values.filter (·.home = home))).map fun l => (l.name, l.unlined)
  rw [List.map_append] at hsplit
  rw [hc.entries_labels, List.filter_map]
  refine hwoven.trans (List.Perm.trans ?_ hsplit)
  apply List.Perm.append_left
  by_cases hhome : home = .text
  · -- every label of the text section has a line of its own
    subst hhome
    rw [a.unit.flatMap_placed_text Line.labels]
    simp [Line.labels]
  · exact hc.placed_labels_perm hhome

/-- The lines of a section declare its data in order. -/
theorem lines_declarations (hc : a.Consistent) (home : Section) :
    (a.unit.lines home).flatMap Line.declarations =
      a.unit.data.entries.filter (·.2.home = home) := by
  rw [SourceUnit.lines, flatMap_weave fun _ => rfl, hc.entries_data, List.filter_map]
  by_cases hhome : home = .text
  · -- no data lies in the text section
    subst hhome
    have hnone : a.unit.data.declarationsIn .text = [] := by
      rw [List.eq_nil_iff_forall_not_mem]
      intro d hd
      obtain ⟨⟨name, hget⟩, hhome⟩ := Table.mem_declarationsIn.mp hd
      exact hc.data_home name d hget hhome
    change _ = (a.unit.data.declarationsIn .text).map _
    rw [hnone, a.unit.flatMap_placed_text Line.declarations]
    exact List.flatMap_eq_nil_iff.mpr fun _ _ => rfl
  · rw [a.unit.flatMap_placed_of_ne hhome Line.declarations, List.map_eq_flatMap]
    rfl

end Assembly.Consistent

/-- The lines of the text section hold the instructions in order, and no others do. -/
theorem SourceUnit.lines_instructions (u : SourceUnit) :
    (Section.all.flatMap fun home => (u.lines home).flatMap Line.instructions) =
      u.unlined.instructions := by
  have hdata (home : Section) (hhome : home ≠ .text) :
      (u.lines home).flatMap Line.instructions = [] := by
    rw [lines, flatMap_weave fun _ => rfl, u.flatMap_placed_of_ne hhome Line.instructions]
    exact List.flatMap_eq_nil_iff.mpr fun _ _ => rfl
  have htext : (u.lines .text).flatMap Line.instructions =
      u.instructions.map Instruction.unlined := by
    rw [lines, flatMap_weave fun _ => rfl, u.flatMap_placed_text Line.instructions,
      List.map_eq_flatMap]
    rfl
  simp only [Section.all, List.flatMap_cons, List.flatMap_nil, htext, hdata .data (by decide),
    hdata .string (by decide), List.nil_append, List.append_nil]
  rfl

/-- What belongs to the sections is everything. -/
theorem Section.flatMap_filter_perm {α : Type} (home : α → Section) (xs : List α) :
    (Section.all.flatMap fun s => xs.filter (home · = s)).Perm xs := by
  induction xs with
  | nil => exact .refl _
  | cons x rest ih =>
    simp only [Section.all, List.flatMap_cons, List.flatMap_nil, List.append_nil] at ih ⊢
    have hcons := ih.cons x
    cases hx : home x with
    | data => simpa [List.filter_cons, hx] using hcons
    | text =>
      simp only [List.filter_cons, hx]
      exact List.perm_middle.trans hcons
    | string =>
      simp only [List.filter_cons, hx]
      exact (List.perm_middle.append_left _).trans (List.perm_middle.trans hcons)

namespace Assembly

/-- A unit that was assembled can be printed, with any escaping, and assembled again: nothing is
warned of, the instructions are the same, and every name has the same label and the same data, lines
aside. -/
theorem assemble_print (e : Literal.Escaping) (path path' : String) {source : Source} {a : Assembly}
    (h : (ofSource path source).assemble = (.ok (), a)) :
    ∃ b, (ofSource path' (.ofBytes (a.unit.print e))).assemble = (.ok (), b) ∧ b.warnings = [] ∧
      b.unit.unlined.instructions = a.unit.unlined.instructions ∧
      ∀ name, b.unit.unlined.labels.get? name = a.unit.unlined.labels.get? name ∧
        b.unit.data.get? name = a.unit.data.get? name := by
  obtain ⟨hfine, statements, hgrammar, hholds⟩ := exists_grammar_of_assemble h
  have hspelled : ∀ statement ∈ statements, statement.Spelled := by
    apply hgrammar.spelled
    have hyields := Scanner.yields_answers rfl hfine
    intro token htoken
    apply hyields.spelled trivial
    exact TokenStream.mem_tokens.mp htoken
  have hc : a.Consistent := by
    have hcalls := coherent_invariant.calls (consistent_ofSource path source).coherent 1
    rw [calls, calls, h] at hcalls
    exact hcalls.toConsistent
  choose stop hlaid using hc.exists_laid hholds
  -- what the lines define is what the unit defines, section by section
  have hlabels : (Section.all.flatMap fun home => (a.unit.lines home).flatMap Line.labels).Perm
      a.unit.unlined.labels.entries :=
    (List.Perm.flatMap_left _ fun home _ => hc.lines_labels_perm home).trans
      (Section.flatMap_filter_perm (fun entry : String × Label => entry.2.home) _)
  have hdata : (Section.all.flatMap fun home => (a.unit.lines home).flatMap Line.declarations).Perm
      a.unit.data.entries := by
    simp only [hc.lines_declarations]
    exact Section.flatMap_filter_perm (fun entry : String × Declaration => entry.2.home) _
  -- so they define no name twice, and are assembled to what stands on them
  have hnodup := (hlabels.map Prod.fst).nodup_iff.mpr a.unit.unlined.labels.nodup
  obtain ⟨b, hassemble, hwarnings, hlabels', hdata', hinstructions⟩ :=
    assemble_sections e path' (hc.lines_spelled hholds hspelled) hlaid hnodup
  refine ⟨b, hassemble, hwarnings, ?_, fun name => ⟨?_, ?_⟩⟩
  · rw [hinstructions, SourceUnit.lines_instructions]
  · exact Table.get?_eq_of_perm (hlabels' ▸ hlabels) name
  · exact Table.get?_eq_of_perm (hdata' ▸ hdata) name

/-- A name that spells a mnemonic, data without bytes, a label behind all data, escapes, a character
of two bytes and the greatest literal. -/
theorem assemble_print_of_mnemonic_name :
    let source : Source := .ofBytes (utf8
      (".data\nfirst: mov: .ascii \"\"\nd \"\\x22\\né\\\\\"\nlast:\n" ++
        ".text\nmain: mov x0, 18446744073709551615\n call end\nend:"))
    let a := (ofSource "unit" source).assemble.2
    a.unit.print .sparing = utf8
        (".data\nfirst:\nmov: .ascii \"\"\nd: .asciz \"\\\"\\né\\\\\"\nlast:\n" ++
          ".text\nmain:\nmov x0, 18446744073709551615\ncall end\nend:\n.string\n") ∧
      ∃ b, (ofSource "again" (.ofBytes (a.unit.print .sparing))).assemble = (.ok (), b) ∧
        b.warnings = [] ∧ b.unit.unlined.instructions = a.unit.unlined.instructions ∧
        ∀ name, b.unit.unlined.labels.get? name = a.unit.unlined.labels.get? name ∧
          b.unit.data.get? name = a.unit.data.get? name := by
  intro source a
  have hok : (ofSource "unit" source).assemble.1 = .ok () := by decide +kernel
  have h : (ofSource "unit" source).assemble = (.ok (), a) := Prod.ext hok rfl
  exact ⟨by decide +kernel, assemble_print .sparing "unit" "again" h⟩

end Assembly

end AsmLinker
