import Mathlib
import AsmLinker.Proofs.Unit.Steps

/-!
# What holds of an assembly at every moment

The sections of a unit are filled without gaps: the text section holds one record for each
instruction, and the data of each other section lies one behind the other. Every name that has data
is a label of the position of the data, and a label that waits for a directive is a label of the
current position that has no data yet. `Consistent` says this of an assembly between two statements,
and `Coherent` adds what is known inside one.

Both hold after any number of calls, whatever the tokens are and wherever a call stopped, and
nothing that a unit holds is ever replaced (`SourceUnit.Extends`).
-/

namespace AsmLinker

/-! ## Data without gaps -/

namespace Declaration

/-- The number of bytes of declarations as they are stored. -/
def total (ds : List Declaration) : Nat :=
  (ds.map length).sum

/-- The declarations fill the positions from `start` up to `stop`: the first lies at `start`, each
further one where the one before it stops, and the last stops at `stop`. -/
def Tiles : Nat → List Declaration → Nat → Prop
  | start, [], stop => start = stop
  | start, d :: rest, stop => d.offset = start ∧ Tiles d.stop rest stop

@[simp] theorem total_nil : total [] = 0 := rfl

@[simp] theorem total_cons (d : Declaration) (ds : List Declaration) :
    total (d :: ds) = d.length + total ds := by
  simp [total]

@[simp] theorem total_append (ds es : List Declaration) :
    total (ds ++ es) = total ds + total es := by
  simp [total]

/-- The end of a filled range is its start and the number of bytes. -/
theorem Tiles.stop_eq {start stop : Nat} {ds : List Declaration} (h : Tiles start ds stop) :
    stop = start + total ds := by
  induction ds generalizing start with
  | nil => simpa [Tiles] using h.symm
  | cons d rest ih =>
    obtain ⟨hoffset, hrest⟩ := h
    rw [ih hrest, total_cons, Declaration.stop, hoffset]
    omega

/-- Two ranges of which the second begins where the first ends. -/
theorem tiles_append_iff {start stop : Nat} {ds es : List Declaration} :
    Tiles start (ds ++ es) stop ↔
      Tiles start ds (start + total ds) ∧ Tiles (start + total ds) es stop := by
  induction ds generalizing start with
  | nil => simp [Tiles]
  | cons d rest ih =>
    rw [List.cons_append, Tiles, Tiles, ih, total_cons, and_assoc]
    refine and_congr_right fun hoffset => ?_
    rw [Declaration.stop, hoffset, Nat.add_assoc]

/-- In a filled range every declaration lies behind the bytes of those before it. -/
theorem Tiles.offset_eq {start stop : Nat} {before after : List Declaration} {d : Declaration}
    (h : Tiles start (before ++ d :: after) stop) : d.offset = start + total before :=
  (tiles_append_iff.mp h).2.1

end Declaration

/-- The declarations of a section, in order of declaration. -/
def Table.declarationsIn (t : Table Declaration) (home : Section) : List Declaration :=
  t.values.filter (·.home = home)

theorem Table.mem_declarationsIn {t : Table Declaration} {home : Section} {d : Declaration} :
    d ∈ t.declarationsIn home ↔ (∃ name, t.get? name = some d) ∧ d.home = home := by
  simp [declarationsIn, values, get?_eq_some_iff]

theorem Table.declarationsIn_insert {t : Table Declaration} {name : String} (d : Declaration)
    (h : name ∉ t.keys) (home : Section) :
    (t.insert name d).declarationsIn home =
      t.declarationsIn home ++ if d.home = home then [d] else [] := by
  unfold declarationsIn values
  rw [entries_insert_of_not_mem d h]
  by_cases hhome : d.home = home <;> simp [hhome]

namespace SourceUnit

/-- A unit holds everything that another one holds, in the same places. -/
structure Extends (u v : SourceUnit) : Prop where
  /-- The labels are kept. -/
  labels : u.labels.entries <+: v.labels.entries
  /-- The data is kept. -/
  data : u.data.entries <+: v.data.entries
  /-- The instructions are kept. -/
  instructions : u.instructions <+: v.instructions

theorem Extends.refl (u : SourceUnit) : u.Extends u :=
  ⟨List.prefix_rfl, List.prefix_rfl, List.prefix_rfl⟩

theorem Extends.trans {u v w : SourceUnit} (h : u.Extends v) (h' : v.Extends w) : u.Extends w :=
  ⟨h.labels.trans h'.labels, h.data.trans h'.data, h.instructions.trans h'.instructions⟩

end SourceUnit

namespace Assembly

variable {a a' : Assembly} {context : Context} {token : Token} {result : Except Error Context}

/-! ## The invariant -/

/-- The name is a label of the current position of the active section, and has no data. -/
def Current (a : Assembly) (name : String) : Prop :=
  ∃ label, a.unit.labels.get? name = some label ∧ label.home = a.active ∧
    label.offset = a.offsets.get a.active ∧ name ∉ a.unit.data.keys

/-- What holds of an assembly before a statement. -/
structure Consistent (a : Assembly) : Prop where
  /-- The text section is filled by the records of the instructions. -/
  text_filled : a.offsets.text = Record.size * a.unit.instructions.length
  /-- Every other section is filled by its declarations, in order and from its start on. -/
  data_filled : ∀ home, home ≠ .text →
    Declaration.Tiles 0 (a.unit.data.declarationsIn home) (a.offsets.get home)
  /-- A label is held under its own name. -/
  label_name : ∀ name label, a.unit.labels.get? name = some label → label.name = name
  /-- Data is held under its own name. -/
  data_name : ∀ name d, a.unit.data.get? name = some d → d.name = name
  /-- No data lies in the text section. -/
  data_home : ∀ name d, a.unit.data.get? name = some d → d.home ≠ .text
  /-- The name of data is a label of its position. -/
  data_label : ∀ name d, a.unit.data.get? name = some d →
    ∃ label, a.unit.labels.get? name = some label ∧ label.home = d.home ∧ label.offset = d.offset
  /-- No label lies behind the filled part of its section. -/
  label_le : ∀ name label, a.unit.labels.get? name = some label →
    label.offset ≤ a.offsets.get label.home
  /-- Every label of the text section lies between two records. -/
  text_label : ∀ name label, a.unit.labels.get? name = some label → label.home = .text →
    Record.size ∣ label.offset
  /-- A label that waits for a directive is one of the current position, without data. -/
  pending_current : ∀ name, a.pending = some name → a.Current name

/-- What holds of an assembly in a context. -/
structure Coherent (context : Context) (a : Assembly) : Prop extends Consistent a where
  /-- Inside a statement no label waits. -/
  idle : context ≠ .statement → a.pending = none
  /-- The label for which a directive has announced data is one of the current position. -/
  announced : ∀ word encoding name, context = .directive word encoding name → a.Current name

theorem Consistent.not_mem_data (h : a.Consistent) {name : String}
    (hfresh : name ∉ a.unit.labels.keys) : name ∉ a.unit.data.keys := by
  intro hmem
  obtain ⟨d, hd⟩ := Table.mem_keys_iff.mp hmem
  obtain ⟨label, hlabel, -⟩ := h.data_label name d (Table.get?_eq_some_iff.mpr hd)
  exact hfresh (Table.mem_keys_of_mem (Table.get?_eq_some_iff.mp hlabel))

/-- A new section may become active when no label waits. -/
theorem Consistent.activate (h : a.Consistent) (home : Section) :
    Consistent { a with active := home, pending := none } where
  text_filled := h.text_filled
  data_filled := h.data_filled
  label_name := h.label_name
  data_name := h.data_name
  data_home := h.data_home
  data_label := h.data_label
  label_le := h.label_le
  text_label := h.text_label
  pending_current := by simp

/-- A waiting label may be forgotten. -/
theorem Consistent.forget (h : a.Consistent) : Consistent { a with pending := none } :=
  h.activate a.active

/-! ## Binding a name -/

theorem get?_labels_bind {name : String} (line : Nat) (hfresh : name ∉ a.unit.labels.keys)
    (other : String) :
    (a.bind name line).unit.labels.get? other =
      if other = name then some ⟨name, a.active, a.offsets.get a.active, line⟩
      else a.unit.labels.get? other :=
  Table.get?_insert_of_not_mem _ hfresh other

/-- What was bound before is still bound. -/
theorem get?_labels_bind_of_some {name other : String} {label : Label} (line : Nat)
    (hfresh : name ∉ a.unit.labels.keys) (h : a.unit.labels.get? other = some label) :
    (a.bind name line).unit.labels.get? other = some label := by
  have hne : other ≠ name := by
    rintro rfl
    exact hfresh (Table.mem_keys_of_mem (Table.get?_eq_some_iff.mp h))
  rw [get?_labels_bind line hfresh, if_neg hne, h]

/-- A name that was just bound is a label of the current position. -/
theorem Consistent.current_bind (h : a.Consistent) {name : String} (line : Nat)
    (hfresh : name ∉ a.unit.labels.keys) : (a.bind name line).Current name :=
  ⟨_, by rw [get?_labels_bind line hfresh, if_pos rfl], rfl, rfl, h.not_mem_data hfresh⟩

theorem Consistent.bind (h : a.Consistent) {name : String} (line : Nat)
    (hfresh : name ∉ a.unit.labels.keys) : (a.bind name line).Consistent where
  text_filled := h.text_filled
  data_filled := h.data_filled
  label_name other label hlabel := by
    rw [get?_labels_bind line hfresh] at hlabel
    split at hlabel
    next hsame =>
      cases hlabel
      exact hsame.symm
    · exact h.label_name other label hlabel
  data_name := h.data_name
  data_home := h.data_home
  data_label other d hd := by
    obtain ⟨label, hlabel, hplace⟩ := h.data_label other d hd
    exact ⟨label, get?_labels_bind_of_some line hfresh hlabel, hplace⟩
  label_le other label hlabel := by
    rw [get?_labels_bind line hfresh] at hlabel
    split at hlabel
    · cases hlabel
      exact le_rfl
    · exact h.label_le other label hlabel
  text_label other label hlabel hhome := by
    rw [get?_labels_bind line hfresh] at hlabel
    split at hlabel
    · cases hlabel
      simp only at hhome
      rw [hhome, PerSection.get, h.text_filled]
      exact Nat.dvd_mul_right _ _
    · exact h.text_label other label hlabel hhome
  pending_current other hpending := by
    obtain ⟨label, hlabel, hplace⟩ := h.pending_current other hpending
    exact ⟨label, get?_labels_bind_of_some line hfresh hlabel, hplace⟩

/-! ## Recording data -/

/-- The declaration that is recorded under a name. -/
def recorded (a : Assembly) (name : String) (encoding : Encoding) (text : String) : Declaration :=
  { name, home := a.active, encoding, offset := a.offsets.get a.active,
    bytes := text.toUTF8.data.toList }

theorem offsets_record (name : String) (encoding : Encoding) (text : String) :
    (a.record name encoding text).offsets =
      a.offsets.set a.active (a.recorded name encoding text).stop := rfl

/-- Recording only moves the end of the active section, and never back. -/
theorem offsets_le_record (name : String) (encoding : Encoding) (text : String) (home : Section) :
    a.offsets.get home ≤ (a.record name encoding text).offsets.get home := by
  rw [offsets_record]
  by_cases hhome : home = a.active
  · subst hhome
    rw [PerSection.get_set_self]
    exact Nat.le_add_right _ _
  · rw [PerSection.get_set_of_ne _ _ hhome]

theorem get?_data_record {name : String} (encoding : Encoding) (text : String)
    (hfresh : name ∉ a.unit.data.keys) (other : String) :
    (a.record name encoding text).unit.data.get? other =
      if other = name then some (a.recorded name encoding text)
      else a.unit.data.get? other :=
  Table.get?_insert_of_not_mem _ hfresh other

/-- Data may be recorded outside of the text section for a label of the current position, when no
label waits. -/
theorem Consistent.record (h : a.Consistent) {name : String} (encoding : Encoding) (text : String)
    (hcurrent : a.Current name) (hactive : a.active ≠ .text) (hpending : a.pending = none) :
    (a.record name encoding text).Consistent := by
  obtain ⟨label, hlabel, hhome, hoffset, hfresh⟩ := hcurrent
  -- only the active section is filled, which is not the text section
  have htext : (a.record name encoding text).offsets.text = a.offsets.text :=
    PerSection.get_set_of_ne a.offsets (s := a.active) (t := .text) _ hactive.symm
  refine ⟨?_, ?_, h.label_name, ?_, ?_, ?_, ?_, h.text_label, ?_⟩
  · rw [htext]
    exact h.text_filled
  · intro home hne
    have hold := h.data_filled home hne
    change Declaration.Tiles 0
      ((a.unit.data.insert name (a.recorded name encoding text)).declarationsIn home) _
    rw [Table.declarationsIn_insert _ hfresh, offsets_record]
    by_cases hsame : a.active = home
    · subst hsame
      rw [if_pos (show (a.recorded name encoding text).home = a.active from rfl),
        PerSection.get_set_self, Declaration.tiles_append_iff]
      have hstop := hold.stop_eq
      refine ⟨hstop ▸ hold, ?_, rfl⟩
      exact hstop
    · rw [if_neg (show (a.recorded name encoding text).home ≠ home from hsame), List.append_nil,
        PerSection.get_set_of_ne _ _ (Ne.symm hsame)]
      exact hold
  · intro other d hd
    rw [get?_data_record encoding text hfresh] at hd
    split at hd
    next hsame =>
      cases hd
      exact hsame.symm
    · exact h.data_name other d hd
  · intro other d hd
    rw [get?_data_record encoding text hfresh] at hd
    split at hd
    · cases hd
      exact hactive
    · exact h.data_home other d hd
  · intro other d hd
    rw [get?_data_record encoding text hfresh] at hd
    split at hd
    next hsame =>
      cases hd
      exact ⟨label, hsame ▸ hlabel, hhome, hoffset⟩
    · exact h.data_label other d hd
  · intro other label' hlabel'
    exact (h.label_le other label' hlabel').trans (offsets_le_record ..)
  · intro other hother
    rw [show (a.record name encoding text).pending = none from hpending] at hother
    cases hother

/-! ## Appending an instruction -/

theorem offsets_append_get (ins : Instruction) (home : Section) :
    (a.append ins).offsets.get home =
      if home = .text then a.offsets.text + Record.size else a.offsets.get home := by
  cases home <;> rfl

/-- An instruction may be appended when no label waits. -/
theorem Consistent.append (h : a.Consistent) (ins : Instruction) (hpending : a.pending = none) :
    (a.append ins).Consistent where
  text_filled := by
    have hnew : (a.append ins).offsets.text = a.offsets.text + Record.size := rfl
    have hinstructions : (a.append ins).unit.instructions = a.unit.instructions ++ [ins] := rfl
    rw [hnew, hinstructions, h.text_filled, List.length_append, List.length_singleton, Nat.mul_succ]
  data_filled home hne := by
    rw [offsets_append_get, if_neg hne]
    exact h.data_filled home hne
  label_name := h.label_name
  data_name := h.data_name
  data_home := h.data_home
  data_label := h.data_label
  label_le other label hlabel := by
    have hle := h.label_le other label hlabel
    rw [offsets_append_get]
    split
    next hhome =>
      rw [hhome] at hle
      exact hle.trans (Nat.le_add_right _ _)
    · exact hle
  text_label := h.text_label
  pending_current other hother := by
    rw [show (a.append ins).pending = none from hpending] at hother
    cases hother

/-! ## Steps and runs -/

/-- Between two statements nothing is known beyond consistency. -/
theorem Consistent.coherent (h : a.Consistent) : Coherent .statement a where
  toConsistent := h
  idle := by simp
  announced := by simp

/-- Inside a statement that has announced no data. -/
theorem Consistent.coherent_of_idle (h : a.Consistent) (hpending : a.pending = none)
    (hcontext : ∀ word encoding name, context ≠ .directive word encoding name) :
    Coherent context a where
  toConsistent := h
  idle := fun _ => hpending
  announced word encoding name hsame := absurd hsame (hcontext word encoding name)

theorem coherent_literalOutcome (h : a.Consistent) (hpending : a.pending = none) :
    Coherent (resumed (literalOutcome token)) a := by
  unfold literalOutcome
  split
  · exact h.coherent
  · exact h.coherent_of_idle hpending (by simp)

/-- Every token keeps the invariant. -/
theorem Takes.coherent (h : Takes a context token result a') (hc : Coherent context a) :
    Coherent (resumed result) a' := by
  cases h with
  | blank => exact hc
  | activate => exact (hc.activate _).coherent
  | announce _ _ hpending =>
    refine ⟨hc.forget, fun _ => rfl, ?_⟩
    rintro _ _ _ ⟨⟩
    exact hc.pending_current _ hpending
  | label _ hfresh =>
    have hbound := hc.bind token.line hfresh
    refine Consistent.coherent { hbound with pending_current := ?_ }
    rintro name ⟨⟩
    exact hc.current_bind token.line hfresh
  | operation => exact hc.forget.coherent_of_idle rfl (by simp)
  | declaration => exact hc.forget.coherent_of_idle rfl (by simp)
  | await => exact hc
  | directiveLiteral _ hactive =>
    have hpending := hc.idle (by simp)
    exact coherent_literalOutcome
      (hc.record _ _ (hc.announced _ _ _ rfl) hactive hpending) hpending
  | @declarationLiteral _ name _ line _ hactive hfresh =>
    have hpending : (a.bind name line).pending = none := hc.idle (by simp)
    exact coherent_literalOutcome
      ((hc.bind line hfresh).record _ _ (hc.current_bind line hfresh) hactive hpending) hpending
  | operand => exact hc.coherent_of_idle (hc.idle (by simp)) (by simp)
  | instruction => exact (hc.append _ (hc.idle (by simp))).coherent
  | close => exact hc.coherent
  | refuse hpending =>
    rcases hpending with rfl | rfl
    · exact hc.toConsistent.coherent
    · exact hc.forget.coherent
  | refuseBound _ hfresh => exact (hc.bind _ hfresh).coherent

theorem coherent_invariant : Invariant Coherent where
  takes h hc := h.coherent hc
  withRest _ h := ⟨⟨h.text_filled, h.data_filled, h.label_name, h.data_name, h.data_home,
    h.data_label, h.label_le, h.text_label, h.pending_current⟩, h.idle, h.announced⟩
  warned _ h := ⟨⟨h.text_filled, h.data_filled, h.label_name, h.data_name, h.data_home,
    h.data_label, h.label_le, h.text_label, h.pending_current⟩, h.idle, h.announced⟩

/-- The work on a source that has not begun is consistent. -/
theorem consistent_ofSource (path : String) (source : Source) :
    (ofSource path source).Consistent where
  text_filled := rfl
  data_filled home _ := by cases home <;> rfl
  label_name := by simp [ofSource, Table.get?]
  data_name := by simp [ofSource, Table.get?]
  data_home := by simp [ofSource, Table.get?]
  data_label := by simp [ofSource, Table.get?]
  label_le := by simp [ofSource, Table.get?]
  text_label := by simp [ofSource, Table.get?]
  pending_current := by simp [ofSource]

/-! ## Nothing is replaced -/

theorem extends_bind {name : String} (line : Nat) (hfresh : name ∉ a.unit.labels.keys) :
    a.unit.Extends (a.bind name line).unit where
  labels := by
    change _ <+: (a.unit.labels.insert name _).entries
    rw [Table.entries_insert_of_not_mem _ hfresh]
    exact List.prefix_append _ _
  data := List.prefix_rfl
  instructions := List.prefix_rfl

theorem extends_record {name : String} (encoding : Encoding) (text : String)
    (hfresh : name ∉ a.unit.data.keys) :
    a.unit.Extends (a.record name encoding text).unit where
  labels := List.prefix_rfl
  data := by
    change _ <+: (a.unit.data.insert name _).entries
    rw [Table.entries_insert_of_not_mem _ hfresh]
    exact List.prefix_append _ _
  instructions := List.prefix_rfl

/-- A token adds to a unit and replaces nothing in it. -/
theorem Takes.extends (h : Takes a context token result a') (hc : Coherent context a) :
    a.unit.Extends a'.unit := by
  cases h with
  | blank | activate | announce | operation | declaration | await | operand | close | refuse =>
    exact SourceUnit.Extends.refl _
  | label _ hfresh => exact extends_bind token.line hfresh
  | directiveLiteral =>
    obtain ⟨_, -, -, -, hfresh⟩ := hc.announced _ _ _ rfl
    exact extends_record _ _ hfresh
  | @declarationLiteral _ name _ line _ _ hfresh =>
    have hdata : name ∉ (a.bind name line).unit.data.keys := hc.not_mem_data hfresh
    exact (extends_bind line hfresh).trans (extends_record _ _ hdata)
  | instruction => exact ⟨List.prefix_rfl, List.prefix_rfl, List.prefix_append _ _⟩
  | refuseBound _ hfresh => exact extends_bind _ hfresh

theorem extends_feed (hc : Coherent context a) (token : Token) :
    a.unit.Extends (a.feed context token).2.unit :=
  (takes_feed a context token).extends hc

/-- A sequence of answers adds to a unit and replaces nothing in it. -/
theorem extends_feedAll (hc : Coherent context a) (answers : List (Except Error Token)) :
    a.unit.Extends (a.feedAll context answers).2.unit := by
  fun_induction feedAll a context answers with
  | case1 => exact SourceUnit.Extends.refl _
  | case2 => exact SourceUnit.Extends.refl _
  | case3 a context e rest hfatal ih => exact ih (coherent_invariant.warned _ hc)
  | case4 a context token rest e a' hfeed =>
    have hstep := extends_feed hc token
    rwa [hfeed] at hstep
  | case5 a context token rest next a' hfeed ih =>
    have htakes := takes_feed a context token
    rw [hfeed] at htakes
    exact (htakes.extends hc).trans (ih (htakes.coherent hc))

/-- What is assembled at a moment is still there at a later one. -/
theorem feedAll_extends_append (hc : Coherent context a) (taken rest : List (Except Error Token)) :
    (a.feedAll context taken).2.unit.Extends (a.feedAll context (taken ++ rest)).2.unit := by
  have hb := coherent_invariant.feedAll taken hc
  rcases htaken : a.feedAll context taken with ⟨e | next, b⟩
  · rw [feedAll_append_error rest htaken]
    exact SourceUnit.Extends.refl _
  · rw [htaken] at hb
    rw [feedAll_append htaken]
    exact extends_feedAll hb rest

/-- What is assembled behind the answers of a run is still there at its end. -/
theorem feedAll_extends_run (hc : Coherent context a) (answers : List (Except Error Token)) :
    (a.feedAll context answers).2.unit.Extends (a.run context answers).2.unit := by
  have hb := coherent_invariant.feedAll answers hc
  rcases hall : a.feedAll context answers with ⟨e | next, b⟩
  · obtain ⟨rest, hrun⟩ := run_of_feedAll_error hall
    rw [hrun]
    exact SourceUnit.Extends.refl _
  · rw [hall] at hb
    rw [run_of_feedAll_ok hall, run_nil_snd]
    exact extends_feed (coherent_invariant.withRest [] hb) (.endOfFile b.input.endLine)

/-- After any number of calls, wherever they stopped and whatever reads failed, an assembly is
consistent; and the unit at any moment of the next call is kept to its end, so that no label, no
declaration and no instruction is ever replaced. -/
theorem calls_consistent (path : String) (source : Source) (n : Nat) :
    ((ofSource path source).calls n).Consistent ∧
      ∀ taken rest, ((ofSource path source).calls n).input.answers = taken ++ rest →
        (((ofSource path source).calls n).feedAll .statement taken).2.unit.Extends
          ((ofSource path source).calls (n + 1)).unit := by
  have hcoherent := coherent_invariant.calls (consistent_ofSource path source).coherent n
  refine ⟨hcoherent.toConsistent, fun taken rest hanswers => ?_⟩
  have hcall := feedAll_extends_append hcoherent taken rest
  rw [← hanswers] at hcall
  exact hcall.trans (feedAll_extends_run hcoherent _)

end Assembly

end AsmLinker
