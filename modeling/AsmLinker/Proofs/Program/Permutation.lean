import Mathlib
import AsmLinker.Proofs.Program.Incremental

/-!
# The order of units

Units are merged one after the other, each behind what came before it, so that two orders give
programs that hold everything in other places. What decides whether linking works is the same in
both: the units can be merged exactly if no two of them share a label
(`Program.mergeAll_ok_iff`), the sizes of the sections are the sums of those of the units
(`Program.get_sizes_of_mergeAll`), and the merged program can be resolved exactly if the modules can
be loaded and every reference of a unit is defined by a unit or exported by a module
(`Program.resolve_merged_ok_iff`). None of these conditions speaks of an order.
-/

namespace AsmLinker

theorem Table.Disjoint.symm {α β : Type} {t : Table α} {u : Table β} (h : t.Disjoint u) :
    u.Disjoint t :=
  fun key hkey hmem => h key hmem hkey

namespace Program

variable {σ : Type} [SymbolProvider σ] {p q : Program} {units units' : List SourceUnit}
  {modules : List String} {provider : σ} {name : String}

/-! ## Merging in any order -/

/-- Units that were all merged share no label with the program or with each other. -/
theorem disjoint_of_mergeAll (hp : p.WellFormed) (hunits : ∀ u ∈ units, u.WellFormed)
    (h : p.mergeAll units = (.ok (), q)) :
    (∀ u ∈ units, p.labels.Disjoint u.labels) ∧
      units.Pairwise fun u v => u.labels.Disjoint v.labels := by
  induction units generalizing p with
  | nil => exact ⟨by simp, .nil⟩
  | cons u rest ih =>
    obtain ⟨hu, hrest⟩ := List.forall_mem_cons.mp hunits
    obtain ⟨p', hmerge, hall⟩ := mergeAll_cons_ok h
    obtain ⟨hdisjoint, hmerged⟩ := disjoint_and_merged_of_merge hp.contents hu hmerge
    obtain ⟨hfresh, hpairwise⟩ := ih (hmerged.wellFormed hp hu) hrest hall
    -- what is new to the program with the unit is new to the program and to the unit
    have hboth : ∀ v ∈ rest, p.labels.Disjoint v.labels ∧ u.labels.Disjoint v.labels := by
      intro v hv
      refine ⟨?_, ?_⟩
      · intro key hkey hmem
        exact hfresh v hv key hkey ((hmerged.mem_labels key).mpr (.inl hmem))
      · intro key hkey hmem
        exact hfresh v hv key hkey ((hmerged.mem_labels key).mpr (.inr hmem))
    refine ⟨List.forall_mem_cons.mpr ⟨hdisjoint, fun v hv => (hboth v hv).1⟩, ?_⟩
    exact List.pairwise_cons.mpr ⟨fun v hv => (hboth v hv).2, hpairwise⟩

/-- Units are merged into an empty program exactly if no two of them share a label. -/
theorem mergeAll_ok_iff (hunits : ∀ u ∈ units, u.WellFormed) :
    (({} : Program).mergeAll units).1 = .ok () ↔
      units.Pairwise fun u v => u.labels.Disjoint v.labels := by
  constructor
  · intro hok
    exact (disjoint_of_mergeAll wellFormed_empty hunits (Prod.ext hok rfl)).2
  · intro hpairwise
    obtain ⟨q, hq⟩ := exists_mergeAll_of_pairwise wellFormed_empty hunits
      (fun u _ key _ => List.not_mem_nil) hpairwise
    rw [hq]

/-- Each section has grown by the sum of its sizes in the units. -/
theorem get_sizes_of_mergeAll (hp : p.WellFormed) (hunits : ∀ u ∈ units, u.WellFormed)
    (h : p.mergeAll units = (.ok (), q)) (home : Section) :
    q.sizes.get home = p.sizes.get home + (units.map fun u => u.sizes.get home).sum := by
  induction units generalizing p with
  | nil =>
    cases h
    simp
  | cons u rest ih =>
    obtain ⟨hu, hrest⟩ := List.forall_mem_cons.mp hunits
    obtain ⟨p', hmerge, hall⟩ := mergeAll_cons_ok h
    obtain ⟨-, hmerged⟩ := disjoint_and_merged_of_merge hp.contents hu hmerge
    rw [ih (hmerged.wellFormed hp hu) hrest hall, hmerged.sizes, List.map_cons, List.sum_cons,
      Nat.add_assoc]

/-- A label of the merged program lies in the section in which one of the units defines it. -/
theorem exists_label_iff (hunits : ∀ u ∈ units, u.WellFormed)
    (h : ({} : Program).mergeAll units = (.ok (), q)) (home : Section) :
    (∃ label, q.labels.get? name = some label ∧ label.home = home) ↔
      ∃ u ∈ units, ∃ label, u.labels.get? name = some label ∧ label.home = home := by
  have hall := mergedAll_of_mergeAll wellFormed_empty hunits h
  -- each unit keeps its labels in their sections, wherever it is placed
  have hplaced : ∀ u ∈ units, ∀ label, u.labels.get? name = some label →
      ∃ placed, q.labels.get? name = some placed ∧ placed.home = label.home := by
    intro u hu label hlabel
    obtain ⟨before, after, rfl⟩ := List.append_of_mem hu
    obtain ⟨sizes, -, hlabels, -⟩ := exists_base_of_mergeAll hunits h
    exact ⟨_, hlabels name label hlabel, rfl⟩
  constructor
  · rintro ⟨label, hlabel, rfl⟩
    have hmem : name ∈ q.labels.keys :=
      Table.mem_keys_of_mem (Table.get?_eq_some_iff.mp hlabel)
    obtain hnone | ⟨u, hu, hname⟩ := (hall.mem_labels name).mp hmem
    · cases hnone
    · obtain ⟨source, hsource⟩ := Table.mem_keys_iff.mp hname
      have hget := Table.get?_eq_some_iff.mpr hsource
      obtain ⟨placed, hfound, hhome⟩ := hplaced u hu source hget
      obtain rfl : label = placed := Option.some.inj (hlabel.symm.trans hfound)
      exact ⟨u, hu, source, hget, hhome.symm⟩
  · rintro ⟨u, hu, label, hlabel, rfl⟩
    exact hplaced u hu label hlabel

/-! ## Resolving what was merged -/

/-- The modules can be loaded, and every reference of a unit is defined by one of the units or
exported by one of the modules. -/
structure Linkable (units : List SourceUnit) (modules : List String) (provider : σ) : Prop where
  /-- Loading the modules goes well. -/
  loads : (search modules provider).1.outcome = .ok ()
  /-- Every reference has a definition. -/
  defined : ∀ u ∈ units, ∀ ins ∈ u.instructions, ∀ name, .label name ∈ ins.operands →
    (∃ v ∈ units, name ∈ v.labels.keys) ∨ ∃ value, exported modules provider name = some value

/-- Whether units can be linked does not depend on their order. -/
theorem Linkable.perm (h : Linkable units modules provider) (hperm : units.Perm units') :
    Linkable units' modules provider where
  loads := h.loads
  defined u hu ins hins name hlabel := by
    obtain ⟨v, hv, hname⟩ | hexported := h.defined u (hperm.mem_iff.mpr hu) ins hins name hlabel
    · exact .inl ⟨v, hperm.mem_iff.mp hv, hname⟩
    · exact .inr hexported

/-- A name is found exactly if the program has a label of that name or a module exports it. -/
theorem exists_finds_iff : (∃ value, p.finds modules provider name = some value) ↔
    name ∈ p.labels.keys ∨ ∃ value, exported modules provider name = some value := by
  rw [finds]
  cases hlabel : p.labels.get? name with
  | none =>
    have hnot := Table.get?_eq_none_iff.mp hlabel
    simp [hnot]
  | some label =>
    have hmem := Table.mem_keys_of_mem (Table.get?_eq_some_iff.mp hlabel)
    simp [hmem]

/-- A program is resolved exactly if the modules can be loaded and every name is found. -/
theorem resolve_ok_iff : (p.resolve modules provider).outcome = .ok () ↔
    (search modules provider).1.outcome = .ok () ∧
      ∀ ins ∈ p.instructions, ∀ name, .label name ∈ ins.operands →
        ∃ value, p.finds modules provider name = some value := by
  constructor
  · intro hok
    refine ⟨search_of_resolve hok, ?_⟩
    have hresolves := resolve_resolves p modules provider
    rw [hok] at hresolves
    generalize (p.resolve modules provider).program = q at hresolves
    cases hresolves with
    | bound _ hbind => exact (Instruction.bindAll_ok hbind).2
  · rintro ⟨hload, hfound⟩
    apply resolve_of_found hload
    intro i j name hoperand
    obtain ⟨ins, hins, hlabel⟩ := exists_mem_of_operand? hoperand
    exact hfound ins hins name hlabel

/-- The program of merged units is resolved exactly if the units can be linked. -/
theorem resolve_merged_ok_iff (hunits : ∀ u ∈ units, u.WellFormed)
    (h : ({} : Program).mergeAll units = (.ok (), q)) :
    (q.resolve modules provider).outcome = .ok () ↔ Linkable units modules provider := by
  have hall := mergedAll_of_mergeAll wellFormed_empty hunits h
  -- the instructions are those of the units, and so are the names
  have hinstructions : ∀ ins, ins ∈ q.instructions ↔ ∃ u ∈ units, ins ∈ u.instructions := by
    intro ins
    rw [hall.instructions, List.nil_append, List.mem_flatMap]
  have hfinds : ∀ name, (∃ value, q.finds modules provider name = some value) ↔
      (∃ v ∈ units, name ∈ v.labels.keys) ∨
        ∃ value, exported modules provider name = some value := by
    intro name
    rw [exists_finds_iff, hall.mem_labels]
    simp
  rw [resolve_ok_iff]
  constructor
  · rintro ⟨hload, hfound⟩
    refine ⟨hload, ?_⟩
    intro u hu ins hins name hlabel
    exact (hfinds name).mp (hfound ins ((hinstructions ins).mpr ⟨u, hu, hins⟩) name hlabel)
  · rintro ⟨hload, hdefined⟩
    refine ⟨hload, ?_⟩
    intro ins hins name hlabel
    obtain ⟨u, hu, hmem⟩ := (hinstructions ins).mp hins
    exact (hfinds name).mpr (hdefined u hu ins hmem name hlabel)

/-- A module that cannot be loaded is reported, whatever the program. -/
theorem resolve_of_search_error {e : Error} (h : (search modules provider).1.outcome = .error e) :
    (p.resolve modules provider).outcome = .error e := by
  have hresolves := resolve_resolves p modules provider
  generalize (p.resolve modules provider).program = q at hresolves
  generalize (p.resolve modules provider).outcome = outcome at hresolves ⊢
  cases hresolves with
  | unloaded hload => exact hload.symm.trans h
  | unbound hload | bound hload =>
    rw [hload] at h
    cases h

/-- What a program is when it has been resolved, in terms of what is found. -/
theorem program_of_resolve (h : (p.resolve modules provider).outcome = .ok ()) :
    (p.resolve modules provider).program =
      { p with
        instructions := p.instructions.map (Instruction.bound (p.finds modules provider))
        dependencies := (search modules provider).2
        layout := some (.ofSizes p.sizes) } := by
  have hresolves := resolve_resolves p modules provider
  rw [h] at hresolves
  generalize (p.resolve modules provider).program = q at hresolves ⊢
  cases hresolves with
  | bound _ hbind => rw [(Instruction.bindAll_ok hbind).1]

/-- A program that was resolved has an entry exactly if it has the entry label in its text. -/
theorem isSome_entry?_iff (h : (p.resolve modules provider).outcome = .ok ()) :
    (p.resolve modules provider).program.entry?.isSome = true ↔
      ∃ label, p.labels.get? entryLabel = some label ∧ label.home = .text := by
  rw [program_of_resolve h, entry?]
  dsimp only
  cases hlabel : p.labels.get? entryLabel with
  | none => simp
  | some label =>
    by_cases htext : label.home = .text <;> simp [htext]

/-! ## Two orders -/

/-- The program that units come to when they are merged in order and resolved. -/
structure LinkedInOrder (units : List SourceUnit) (modules : List String) (provider : σ)
    (p : Program) (find : String → Option UInt64) : Prop where
  /-- The sections have the sums of their sizes in the units, and lie one behind the other. -/
  layout : ∃ sizes : PerSection Nat, p.layout = some (.ofSizes sizes) ∧
    ∀ home, sizes.get home = (units.map fun u => u.sizes.get home).sum
  /-- The modules that were loaded are remembered. -/
  dependencies : p.dependencies = (search modules provider).2
  /-- There is an entry if one of the units defines the entry label in its text. -/
  entry : p.entry?.isSome = true ↔
    ∃ u ∈ units, ∃ label, u.labels.get? entryLabel = some label ∧ label.home = .text
  /-- Each instruction of the units is bound to what is found for its names. -/
  instructions : p.instructions =
    units.flatMap fun u => u.instructions.map (Instruction.bound find)
  /-- A name that no unit defines is found in the modules. -/
  external : ∀ name, (∀ u ∈ units, name ∉ u.labels.keys) →
    find name = exported modules provider name

theorem linkedInOrder_of_resolve (hunits : ∀ u ∈ units, u.WellFormed)
    (h : ({} : Program).mergeAll units = (.ok (), q))
    (hok : (q.resolve modules provider).outcome = .ok ()) :
    LinkedInOrder units modules provider (q.resolve modules provider).program
      (q.finds modules provider) := by
  have hall := mergedAll_of_mergeAll wellFormed_empty hunits h
  have hprogram := program_of_resolve hok
  refine ⟨⟨q.sizes, by rw [hprogram], ?_⟩, by rw [hprogram], ?_, ?_, ?_⟩
  · intro home
    rw [get_sizes_of_mergeAll wellFormed_empty hunits h home]
    cases home <;> exact Nat.zero_add _
  · rw [isSome_entry?_iff hok]
    exact exists_label_iff hunits h .text
  · rw [hprogram, hall.instructions, List.nil_append, List.map_flatMap]
  · intro name hundefined
    have hnone : q.labels.get? name = none := by
      rw [Table.get?_eq_none_iff, hall.mem_labels]
      rintro (hmem | ⟨u, hu, hname⟩)
      · cases hmem
      · exact hundefined u hu hname
    rw [finds, hnone]

/-- Sums over the units do not depend on their order, so that the sections have the same layout. -/
theorem LinkedInOrder.layout_eq {p' : Program} {find find' : String → Option UInt64}
    (h : LinkedInOrder units modules provider p find)
    (h' : LinkedInOrder units' modules provider p' find') (hperm : units.Perm units') :
    p.layout = p'.layout := by
  obtain ⟨sizes, hlayout, hsizes⟩ := h.layout
  obtain ⟨sizes', hlayout', hsizes'⟩ := h'.layout
  have hsame : sizes = sizes' := by
    apply PerSection.ext_get
    intro home
    rw [hsizes, hsizes', (hperm.map _).sum_eq]
  rw [hlayout, hlayout', hsame]

/-- The order of assembled units does not decide whether linking works.
* They can be merged in either order exactly if no two of them share a label.
* Then the merged program is resolved in both orders or in none, and a module that cannot be loaded
  is reported in the same way in both.
* If it is resolved, the layout and the dependencies are the same, there is an entry in both orders
  or in none, and each reference that no unit defines is bound to the same exported value. -/
theorem linking_perm (modules : List String) (provider : σ) (hperm : units.Perm units')
    (hunits : ∀ u ∈ units, u.Assembled) :
    let merged := ({} : Program).mergeAll units
    let merged' := ({} : Program).mergeAll units'
    let r := merged.2.resolve modules provider
    let r' := merged'.2.resolve modules provider
    (merged.1 = .ok () ↔ units.Pairwise fun u v => u.labels.Disjoint v.labels) ∧
    (merged.1 = .ok () ↔ merged'.1 = .ok ()) ∧
    (merged.1 = .ok () →
      (r.outcome = .ok () ↔ r'.outcome = .ok ()) ∧
      (∀ e, (search modules provider).1.outcome = .error e →
        r.outcome = .error e ∧ r'.outcome = .error e) ∧
      (r.outcome = .ok () →
        (∃ layout, r.program.layout = some layout ∧ r'.program.layout = some layout) ∧
        r.program.dependencies = r'.program.dependencies ∧
        r.program.entry?.isSome = r'.program.entry?.isSome ∧
        ∃ find find' : String → Option UInt64,
          (r.program.instructions =
            units.flatMap fun u => u.instructions.map (Instruction.bound find)) ∧
          (r'.program.instructions =
            units'.flatMap fun u => u.instructions.map (Instruction.bound find')) ∧
          ∀ u ∈ units, ∀ ins ∈ u.instructions, ∀ name, .label name ∈ ins.operands →
            (∀ v ∈ units, name ∉ v.labels.keys) →
            ∃ value, exported modules provider name = some value ∧
              find name = some value ∧ find' name = some value)) := by
  intro merged merged' r r'
  have hwell : ∀ u ∈ units, u.WellFormed := fun u hu => (hunits u hu).wellFormed
  have hwell' : ∀ u ∈ units', u.WellFormed := fun u hu => hwell u (hperm.mem_iff.mpr hu)
  have hiff := mergeAll_ok_iff hwell
  have hpairwise := hperm.pairwise_iff
    (R := fun u v : SourceUnit => u.labels.Disjoint v.labels) Table.Disjoint.symm
  have hboth : merged.1 = .ok () ↔ merged'.1 = .ok () :=
    hiff.trans (hpairwise.trans (mergeAll_ok_iff hwell').symm)
  refine ⟨hiff, hboth, ?_⟩
  intro hmerged
  have hall : ({} : Program).mergeAll units = (.ok (), merged.2) := Prod.ext hmerged rfl
  have hall' : ({} : Program).mergeAll units' = (.ok (), merged'.2) :=
    Prod.ext (hboth.mp hmerged) rfl
  have hresolved : r.outcome = .ok () ↔ r'.outcome = .ok () := by
    rw [resolve_merged_ok_iff hwell hall, resolve_merged_ok_iff hwell' hall']
    exact ⟨fun h => h.perm hperm, fun h => h.perm hperm.symm⟩
  refine ⟨hresolved, fun e he => ⟨resolve_of_search_error he, resolve_of_search_error he⟩, ?_⟩
  intro hok
  have hlinked := linkedInOrder_of_resolve hwell hall hok
  have hlinked' := linkedInOrder_of_resolve hwell' hall' (hresolved.mp hok)
  have hlinkable := (resolve_merged_ok_iff hwell hall).mp hok
  obtain ⟨sizes, hlayout, -⟩ := hlinked.layout
  refine ⟨⟨_, hlayout, (hlinked.layout_eq hlinked' hperm).symm.trans hlayout⟩,
    hlinked.dependencies.trans hlinked'.dependencies.symm, ?_,
    _, _, hlinked.instructions, hlinked'.instructions, ?_⟩
  · rw [Bool.eq_iff_iff, hlinked.entry, hlinked'.entry]
    simp only [hperm.mem_iff]
  · intro u hu ins hins name hlabel hundefined
    -- a reference that no unit defines is exported, and both orders look it up in the modules
    obtain ⟨v, hv, hname⟩ | ⟨value, hvalue⟩ := hlinkable.defined u hu ins hins name hlabel
    · exact absurd hname (hundefined v hv)
    · refine ⟨value, hvalue, (hlinked.external name hundefined).trans hvalue, ?_⟩
      exact (hlinked'.external name fun v hv => hundefined v (hperm.mem_iff.mpr hv)).trans hvalue

/-- A unit with the entry label that calls into a library, and one with data and code. In the other
order the entry lies elsewhere, while the call is bound to the same value. -/
theorem linking_perm_of_two_units :
    let unit (text : String) : SourceUnit :=
      ((Assembly.ofSource "unit" (.ofBytes text.toUTF8.data.toList)).calls 1).unit
    let first := unit "main: call print\ncall f"
    let second := unit ".data\nmsg: .ascii \"abc\"\n.text\nf: ret"
    let library := ({} : MemoryModules).add "std" "print" 0x100
    let r := (({} : Program).mergeAll [first, second]).2.resolve [] library
    let r' := (({} : Program).mergeAll [second, first]).2.resolve [] library
    r.program.entry? = some 3 ∧ r'.program.entry? = some 35 ∧
      r.outcome = .ok () ∧ r'.outcome = .ok () ∧
      (∃ layout, r.program.layout = some layout ∧ r'.program.layout = some layout) ∧
      r.program.dependencies = r'.program.dependencies := by
  intro unit first second library r r'
  have hunits : ∀ u ∈ [first, second], u.Assembled := by
    simp only [List.forall_mem_cons]
    exact ⟨⟨_, _, _, rfl⟩, ⟨_, _, _, rfl⟩, by simp⟩
  have hmerged : (({} : Program).mergeAll [first, second]).1 = .ok () := by decide +kernel
  have hok : r.outcome = .ok () := by decide +kernel
  obtain ⟨-, -, hlink⟩ := linking_perm [] library (List.Perm.swap second first []) hunits
  obtain ⟨hboth, -, hsame⟩ := hlink hmerged
  obtain ⟨hlayout, hdependencies, -⟩ := hsame hok
  exact ⟨by decide +kernel, by decide +kernel, hok, hboth.mp hok, hlayout, hdependencies⟩

end Program

end AsmLinker
