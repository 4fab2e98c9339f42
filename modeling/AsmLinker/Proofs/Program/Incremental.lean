import Mathlib
import AsmLinker.Proofs.Program.Settling

/-!
# Linking incrementally

A session is a sequence of calls on one program: units are merged into it, and in between it is
resolved. It is compared with linking at once, where the same units are merged into a fresh program
that is resolved a single time.

The labels, the data, the sizes, the layout and the entry point agree. The operands need not. A call
of `resolve` replaces a reference by the address that its name has at that time, and no later call
takes it back, although a unit that is merged later can move the label, or define a name that a
library module gave before. Each reference holds the address that its name had when it was bound,
and so the two programs agree exactly if every name that an earlier call bound had its final address
already (`Program.session_agrees_iff`).
-/

namespace AsmLinker

/-! ## Lists that are related member by member -/

section Related

variable {α β : Type}

theorem forall₂_getElem? {R : α → β → Prop} {xs : List α} {ys : List β}
    (h : List.Forall₂ R xs ys) (i : Nat) : Option.Rel R xs[i]? ys[i]? := by
  induction h generalizing i with
  | nil => exact .none
  | cons hhead _ ih =>
    cases i with
    | zero => exact .some hhead
    | succ i => exact ih i

theorem forall₂_trans {R : α → α → Prop} (hR : ∀ x y z, R x y → R y z → R x z)
    {xs ys zs : List α} (h : List.Forall₂ R xs ys) (h' : List.Forall₂ R ys zs) :
    List.Forall₂ R xs zs := by
  induction h generalizing zs with
  | nil => exact h'
  | cons hhead _ ih =>
    obtain _ | ⟨hhead', htail'⟩ := h'
    exact .cons (hR _ _ _ hhead hhead') (ih htail')

/-- Lists are related as by a function if this holds of the members that the second one has. -/
theorem eq_map_of_forall₂ {R : α → β → Prop} {f : α → β} {xs : List α} {ys : List β}
    (h : List.Forall₂ R xs ys) (hf : ∀ x, ∀ y ∈ ys, R x y → y = f x) : ys = xs.map f := by
  induction h with
  | nil => rfl
  | cons hhead _ ih =>
    rw [List.map_cons, ← hf _ _ (List.mem_cons_self) hhead,
      ← ih fun x y hmem => hf x y (List.mem_cons_of_mem _ hmem)]

end Related

/-! ## Settling step by step -/

section Settling

variable {given given' : String → UInt64 → Prop} {find : String → Option UInt64}

namespace Operand

variable {operand operand' operand'' : Operand}

theorem Settles.trans (h : operand.Settles given operand') (h' : operand'.Settles given operand'') :
    operand.Settles given operand'' := by
  cases h with
  | kept => exact h'
  | bound hgiven =>
    cases h'
    exact .bound hgiven

theorem Settles.imp (h : operand.Settles given operand')
    (hgiven : ∀ name value, given name value → given' name value) :
    operand.Settles given' operand' := by
  cases h with
  | kept => exact .kept operand
  | bound h => exact .bound (hgiven _ _ h)

/-- A label that is left over was that label before. -/
theorem Settles.eq_label {name : String} (h : operand.Settles given (.label name)) :
    operand = .label name := by
  cases h
  rfl

/-- An address stays as it is. -/
theorem Settles.eq_address {value : UInt64} (h : Settles given (.address value) operand) :
    operand = .address value := by
  cases h
  rfl

/-- A label has become an address only if the address was given for it. -/
theorem Settles.given_of_address {name : String} {value : UInt64}
    (h : Settles given (.label name) (.address value)) : given name value := by
  cases h with
  | bound hgiven => exact hgiven

/-- An operand that has settled and is no label any more is bound. -/
theorem Settles.eq_bound (h : operand.Settles (fun name value => find name = some value) operand')
    (hlabel : ∀ name, operand' ≠ .label name) : operand' = operand.bound find := by
  cases h with
  | kept =>
    cases operand with
    | label name => exact absurd rfl (hlabel name)
    | register _ | literal _ | address _ => rfl
  | bound hfind => rw [Operand.bound, hfind]

end Operand

namespace Instruction

variable {ins ins' ins'' : Instruction}

theorem Settles.trans (h : ins.Settles given ins') (h' : ins'.Settles given ins'') :
    ins.Settles given ins'' where
  rest := h'.rest.trans (by rw [h.rest])
  operands := forall₂_trans (fun _ _ _ h h' => h.trans h') h.operands h'.operands

theorem Settles.imp (h : ins.Settles given ins')
    (hgiven : ∀ name value, given name value → given' name value) : ins.Settles given' ins' where
  rest := h.rest
  operands := h.operands.imp fun _ _ hsettles => hsettles.imp hgiven

/-- An instruction that has settled and has no label any more is bound. -/
theorem Settles.eq_bound (h : ins.Settles (fun name value => find name = some value) ins')
    (hlabel : ∀ name, .label name ∉ ins'.operands) : ins' = ins.bound find := by
  have hoperands : ins'.operands = ins.operands.map (Operand.bound find) := by
    apply eq_map_of_forall₂ h.operands
    rintro operand operand' hmem hsettles
    exact hsettles.eq_bound fun name hname => hlabel name (hname ▸ hmem)
  rw [h.rest, hoperands]
  rfl

/-- If binding stops, then at a label that is not found. -/
theorem exists_missing_of_bindAll {e : Error} {instructions bound : List Instruction}
    (h : bindAll find instructions = (.error e, bound)) :
    ∃ ins ∈ instructions, ∃ name, .label name ∈ ins.operands ∧ find name = none := by
  obtain ⟨earlier, ins, later, left, name, right, rfl, hoperands, hnone, -⟩ := bindAll_error h
  exact ⟨ins, by simp, name, by simp [hoperands], hnone⟩

end Instruction

end Settling

namespace Program

variable {σ : Type} [SymbolProvider σ] {given given' : String → UInt64 → Prop}
  {find : String → Option UInt64} {p q r : Program} {u : SourceUnit} {modules : List String}
  {provider fresh : σ}

/-! ## Operands by position -/

/-- The operand at a position of an instruction. -/
def operand? (p : Program) (i j : Nat) : Option Operand :=
  p.instructions[i]?.bind fun ins => ins.operands[j]?

/-- A reference to the name in the first program is an address in the second. -/
def Binds (p q : Program) (name : String) : Prop :=
  ∃ i j value, p.operand? i j = some (.label name) ∧ q.operand? i j = some (.address value)

/-- No reference is left. -/
def Closed (p : Program) : Prop :=
  ∀ ins ∈ p.instructions, ∀ name, .label name ∉ ins.operands

theorem exists_mem_of_operand? {i j : Nat} {operand : Operand}
    (h : p.operand? i j = some operand) : ∃ ins ∈ p.instructions, operand ∈ ins.operands := by
  obtain ⟨ins, hins, hoperand⟩ := Option.bind_eq_some_iff.mp h
  exact ⟨ins, List.mem_of_getElem? hins, List.mem_of_getElem? hoperand⟩

theorem exists_operand?_of_mem {ins : Instruction} {operand : Operand}
    (hins : ins ∈ p.instructions) (hoperand : operand ∈ ins.operands) :
    ∃ i j, p.operand? i j = some operand := by
  obtain ⟨i, hi⟩ := List.mem_iff_getElem?.mp hins
  obtain ⟨j, hj⟩ := List.mem_iff_getElem?.mp hoperand
  exact ⟨i, j, Option.bind_eq_some_iff.mpr ⟨ins, hi, hj⟩⟩

/-- Instructions that are appended do not move the operands before them. -/
theorem operand?_of_initial {i j : Nat} {operand : Operand}
    (hinitial : p.instructions <+: q.instructions) (h : p.operand? i j = some operand) :
    q.operand? i j = some operand := by
  obtain ⟨ins, hins, hoperand⟩ := Option.bind_eq_some_iff.mp h
  obtain ⟨hi, rfl⟩ := List.getElem?_eq_some_iff.mp hins
  exact Option.bind_eq_some_iff.mpr ⟨_, List.prefix_iff_getElem?.mp hinitial i hi, hoperand⟩

theorem Settles.operand? (h : p.Settles given q) (i j : Nat) :
    Option.Rel (Operand.Settles given) (p.operand? i j) (q.operand? i j) := by
  unfold Program.operand?
  have hins := forall₂_getElem? h.instructions i
  generalize p.instructions[i]? = before at hins ⊢
  generalize q.instructions[i]? = after at hins ⊢
  cases hins with
  | none => exact .none
  | some hins => exact forall₂_getElem? hins.operands j

theorem Settles.trans (h : p.Settles given q) (h' : q.Settles given r) : p.Settles given r where
  labels := h'.labels.trans h.labels
  data := h'.data.trans h.data
  sizes := h'.sizes.trans h.sizes
  instructions := forall₂_trans (fun _ _ _ h h' => h.trans h') h.instructions h'.instructions

theorem Settles.imp (h : p.Settles given q)
    (hgiven : ∀ name value, given name value → given' name value) : p.Settles given' q :=
  { h with instructions := h.instructions.imp fun _ _ hsettles => hsettles.imp hgiven }

/-- A reference that has become an address was bound. -/
theorem Settles.binds (h : p.Settles given q) :
    p.Settles (fun name value => given name value ∧ p.Binds q name) q := by
  refine { h with instructions := List.forall₂_iff_get.mpr ⟨h.instructions.length_eq, ?_⟩ }
  intro i hi hi'
  have hins := h.instructions.get hi hi'
  refine ⟨hins.rest, List.forall₂_iff_get.mpr ⟨hins.operands.length_eq, ?_⟩⟩
  intro j hj hj'
  have hbefore : p.operand? i j = some ((p.instructions.get ⟨i, hi⟩).operands.get ⟨j, hj⟩) := by
    simp [Program.operand?, hi]
  have hafter : q.operand? i j = some ((q.instructions.get ⟨i, hi'⟩).operands.get ⟨j, hj'⟩) := by
    simp [Program.operand?, hi']
  have hoperand := hins.operands.get hj hj'
  generalize (p.instructions.get ⟨i, hi⟩).operands.get ⟨j, hj⟩ = operand at hoperand hbefore ⊢
  generalize (q.instructions.get ⟨i, hi'⟩).operands.get ⟨j, hj'⟩ = operand' at hoperand hafter ⊢
  cases hoperand with
  | kept => exact .kept operand
  | bound hgiven => exact .bound ⟨hgiven, i, j, _, hbefore, hafter⟩

/-- A program that has settled and has no reference any more is bound. -/
theorem Settles.instructions_eq (h : p.Settles (fun name value => find name = some value) q)
    (hclosed : q.Closed) : q.instructions = p.instructions.map (Instruction.bound find) := by
  apply eq_map_of_forall₂ h.instructions
  intro ins ins' hmem hsettles
  exact hsettles.eq_bound (hclosed ins' hmem)

/-! ## Resolving closes a program -/

/-- A program that was resolved has no reference any more. -/
theorem closed_of_resolve (h : (p.resolve modules provider).outcome = .ok ()) :
    (p.resolve modules provider).program.Closed := by
  have hresolves := resolve_resolves p modules provider
  rw [h] at hresolves
  generalize (p.resolve modules provider).program = q at hresolves ⊢
  cases hresolves with
  | bound hload hbind =>
    obtain ⟨rfl, hfound⟩ := Instruction.bindAll_ok hbind
    intro ins' hmem' name hlabel
    obtain ⟨ins, hmem, rfl⟩ := List.mem_map.mp hmem'
    obtain ⟨operand, hoperand, hbound⟩ := List.mem_map.mp hlabel
    cases operand with
    | label name' =>
      -- the name was found, so that its reference is an address
      obtain ⟨value, hvalue⟩ := hfound ins hmem name' hoperand
      rw [Operand.bound, hvalue] at hbound
      cases hbound
    | register _ | literal _ | address _ => cases hbound

/-- A reference becomes an address that was given, if no reference is left. -/
theorem Settles.exists_given (h : p.Settles given q) (hclosed : q.Closed) {i j : Nat}
    {name : String} (hlabel : p.operand? i j = some (.label name)) :
    ∃ value, given name value ∧ q.operand? i j = some (.address value) := by
  have hoperand := h.operand? i j
  rw [hlabel] at hoperand
  rcases hafter : q.operand? i j with _ | operand
  · rw [hafter] at hoperand
    cases hoperand
  · rw [hafter] at hoperand
    cases hoperand with
    | some hsettles =>
      cases hsettles with
      | kept =>
        obtain ⟨ins, hins, hmem⟩ := exists_mem_of_operand? hafter
        exact absurd hmem (hclosed ins hins name)
      | bound hgiven => exact ⟨_, hgiven, rfl⟩

theorem search_of_resolve (h : (p.resolve modules provider).outcome = .ok ()) :
    (search modules provider).1.outcome = .ok () := by
  have hresolves := resolve_resolves p modules provider
  rw [h] at hresolves
  generalize (p.resolve modules provider).program = q at hresolves
  cases hresolves with
  | bound hload => exact hload

/-- A program of which every name is found is resolved, if the modules can be loaded. -/
theorem resolve_of_found (hload : (search modules provider).1.outcome = .ok ())
    (hfound : ∀ i j name, p.operand? i j = some (.label name) →
      ∃ value, p.finds modules provider name = some value) :
    (p.resolve modules provider).outcome = .ok () := by
  have hresolves := resolve_resolves p modules provider
  generalize (p.resolve modules provider).program = q at hresolves
  generalize (p.resolve modules provider).outcome = outcome at hresolves ⊢
  cases hresolves with
  | unloaded hfailed =>
    rw [hload] at hfailed
    cases hfailed
  | unbound _ hbind =>
    obtain ⟨ins, hmem, name, hlabel, hmissing⟩ := Instruction.exists_missing_of_bindAll hbind
    obtain ⟨i, j, hoperand⟩ := exists_operand?_of_mem hmem hlabel
    obtain ⟨value, hvalue⟩ := hfound i j name hoperand
    rw [hmissing] at hvalue
    cases hvalue
  | bound => rfl

/-! ## Merging -/

/-- A program that has settled takes a unit as it would have before. -/
theorem Settles.merge (h : p.Settles given q) (hp : p.WellFormed) (hu : u.WellFormed)
    (hmerge : p.merge u = (.ok (), r)) : r.Settles given (q.merge u).2 := by
  obtain ⟨hdisjoint, hmerged⟩ := disjoint_and_merged_of_merge hp.contents hu hmerge
  rw [← h.labels] at hdisjoint
  obtain ⟨r', hmerge', hmerged'⟩ :=
    merge_of_disjoint (h.wellFormed hp).contents hu hdisjoint
  rw [hmerge']
  refine ⟨?_, ?_, ?_, ?_⟩
  · apply Table.eq_of_entries
    rw [hmerged'.labels, hmerged.labels, h.labels, h.sizes]
  · apply Table.eq_of_entries
    rw [hmerged'.data, hmerged.data, h.data, h.sizes]
  · apply PerSection.ext_get
    intro home
    rw [hmerged'.sizes, hmerged.sizes, h.sizes]
  · rw [hmerged'.instructions, hmerged.instructions]
    exact List.rel_append h.instructions (Instruction.settles_refl u.instructions)

/-- Well-formed units of which no two share a label are all merged. -/
theorem exists_mergeAll_of_pairwise {units : List SourceUnit} (hp : p.WellFormed)
    (hunits : ∀ u ∈ units, u.WellFormed) (hfresh : ∀ u ∈ units, p.labels.Disjoint u.labels)
    (hdisjoint : units.Pairwise fun u v => u.labels.Disjoint v.labels) :
    ∃ q, p.mergeAll units = (.ok (), q) := by
  induction units generalizing p with
  | nil => exact ⟨p, rfl⟩
  | cons u rest ih =>
    have hu : u.WellFormed := hunits u List.mem_cons_self
    obtain ⟨p', hmerge, hmerged⟩ :=
      merge_of_disjoint hp.contents hu (hfresh u List.mem_cons_self)
    obtain ⟨hhead, htail⟩ := List.pairwise_cons.mp hdisjoint
    rw [mergeAll, hmerge]
    apply ih (hmerged.wellFormed hp hu) (fun v hv => hunits v (List.mem_cons_of_mem _ hv)) _ htail
    -- a name of a later unit is neither in the program nor in the unit just merged
    intro v hv name hname hmem
    rcases (hmerged.mem_labels name).mp hmem with hold | hnew
    · exact hfresh v (List.mem_cons_of_mem _ hv) name hname hold
    · exact hhead v hv name hname hnew

/-! ## Sessions -/

/-- A call on a program. -/
inductive Call (σ : Type) where
  /-- A unit is merged into the program. -/
  | merge (unit : SourceUnit)
  /-- The program is resolved with what a provider knows at the time. -/
  | resolve (provider : σ)

/-- The unit that a call merges. -/
def Call.unit? : Call σ → Option SourceUnit
  | .merge unit => some unit
  | .resolve _ => none

/-- A program after a call, whatever this came to. -/
def call (modules : List String) (p : Program) : Call σ → Program
  | .merge unit => (p.merge unit).2
  | .resolve provider => (p.resolve modules provider).program

/-- A program that was empty, after calls. -/
def after (modules : List String) (calls : List (Call σ)) : Program :=
  calls.foldl (call modules) {}

/-- The units that calls merge, in order. -/
def units (calls : List (Call σ)) : List SourceUnit :=
  calls.filterMap Call.unit?

/-- Two providers answer alike about the modules that are searched. -/
structure Alike (modules : List String) (provider provider' : σ) : Prop where
  /-- Loading the modules ends alike. -/
  outcome : (search modules provider).1.outcome = (search modules provider').1.outcome
  /-- The same modules are loaded, in the same order. -/
  loaded : (search modules provider).2 = (search modules provider').2
  /-- They give the same values to names. -/
  exported : exported modules provider = exported modules provider'

/-- One of the calls bound a reference to the name, which had the value then. -/
def Gave (modules : List String) (calls : List (Call σ)) (name : String) (value : UInt64) : Prop :=
  ∃ before provider rest, calls = before ++ .resolve provider :: rest ∧
    (after modules before).Binds (after modules (before ++ [.resolve provider])) name ∧
    (after modules before).finds modules provider name = some value

theorem after_concat (modules : List String) (calls : List (Call σ)) (c : Call σ) :
    after modules (calls ++ [c]) = call modules (after modules calls) c := by
  rw [after, List.foldl_append]
  rfl

theorem Gave.append {calls : List (Call σ)} {name : String} {value : UInt64}
    (h : Gave modules calls name value) (more : List (Call σ)) :
    Gave modules (calls ++ more) name value := by
  obtain ⟨before, provider, rest, rfl, hbinds, hfinds⟩ := h
  exact ⟨before, provider, rest ++ more, by simp, hbinds, hfinds⟩

variable {calls rest : List (Call σ)} {merged : Program}

theorem after_reachable (hunits : ∀ u ∈ units calls, u.Assembled) :
    (after modules calls).Reachable := by
  induction calls using List.reverseRecOn with
  | nil => exact .empty
  | append_singleton before c ih =>
    rw [units, List.filterMap_append] at hunits
    have hbefore := ih fun u hu => hunits u (List.mem_append_left _ hu)
    rw [after_concat]
    cases c with
    | merge unit => exact hbefore.merge (hunits unit (by simp [Call.unit?]))
    | resolve provider => exact hbefore.resolve modules provider

/-- In a session, the program is the one that was only merged, with each reference kept or bound by
one of the calls. -/
theorem after_settles (hunits : ∀ u ∈ units calls, u.Assembled)
    (hmerged : ({} : Program).mergeAll (units calls) = (.ok (), merged)) :
    merged.Settles (Gave modules calls) (after modules calls) := by
  induction calls using List.reverseRecOn generalizing merged with
  | nil =>
    cases hmerged
    exact .refl _
  | append_singleton before c ih =>
    rw [units, List.filterMap_append] at hunits hmerged
    have hbefore : ∀ u ∈ units before, u.Assembled := fun u hu =>
      hunits u (List.mem_append_left _ hu)
    obtain ⟨m, hm, hlast⟩ := mergeAll_append hmerged
    have hsettles : m.Settles (Gave modules (before ++ [c])) (after modules before) :=
      (ih hbefore hm).imp fun name value h => h.append [c]
    rw [after_concat]
    cases c with
    | merge unit =>
      have hunit : unit.Assembled := hunits unit (by simp [Call.unit?])
      obtain ⟨m', hmerge, hnil⟩ := mergeAll_cons_ok hlast
      cases hnil
      have hall := mergedAll_of_mergeAll wellFormed_empty
        (fun u hu => (hbefore u hu).wellFormed) hm
      exact hsettles.merge hall.wellFormed hunit.wellFormed hmerge
    | resolve provider =>
      cases hlast
      apply hsettles.trans
      have hresolve := (resolve_settles (after modules before) modules provider).binds
      apply hresolve.imp
      rintro name value ⟨hfinds, hbinds⟩
      refine ⟨before, provider, [], rfl, ?_, hfinds⟩
      rw [after_concat]
      exact hbinds

/-- A call does not move or change an operand that is an address. -/
theorem operand?_call (hp : p.WellFormed) {c : Call σ} (hc : ∀ u ∈ c.unit?, u.WellFormed)
    {i j : Nat} {value : UInt64} (h : p.operand? i j = some (.address value)) :
    (call modules p c).operand? i j = some (.address value) := by
  cases c with
  | merge unit =>
    change (p.merge unit).2.operand? i j = _
    rcases merge_eq_or_merged hp (hc unit rfl) with hsame | hmerged
    · rw [hsame]
      exact h
    · apply operand?_of_initial _ h
      rw [hmerged.instructions]
      exact List.prefix_append _ _
  | resolve provider =>
    have hsettles := (resolve_settles p modules provider).operand? i j
    rw [h] at hsettles
    change (p.resolve modules provider).program.operand? i j = _
    generalize (p.resolve modules provider).program.operand? i j = operand at hsettles ⊢
    cases hsettles with
    | some hsettles => rw [hsettles.eq_address]

/-- What is bound in a session stays as it is. -/
theorem operand?_after (hunits : ∀ u ∈ units (calls ++ rest), u.Assembled) {i j : Nat}
    {value : UInt64} (h : (after modules calls).operand? i j = some (.address value)) :
    (after modules (calls ++ rest)).operand? i j = some (.address value) := by
  induction rest using List.reverseRecOn with
  | nil =>
    rw [List.append_nil]
    exact h
  | append_singleton more c ih =>
    rw [← List.append_assoc] at hunits ⊢
    rw [units, List.filterMap_append] at hunits
    have hmore : ∀ u ∈ units (calls ++ more), u.Assembled := fun u hu =>
      hunits u (List.mem_append_left _ hu)
    rw [after_concat]
    apply operand?_call (after_reachable hmore).wellFormed _ (ih hmore)
    intro u hu
    exact (hunits u (List.mem_append_right _ (by simp [Option.mem_def.mp hu]))).wellFormed

/-! ## Sessions and linking at once -/

/-- The program at a point of a session holds what was merged so far, which stays in its place when
the remaining units are merged. -/
theorem exists_merged_before {before : List (Call σ)} (modules : List String)
    (hunits : ∀ u ∈ units (before ++ rest), u.Assembled)
    (hmerged : ({} : Program).mergeAll (units (before ++ rest)) = (.ok (), merged)) :
    ∃ m : Program, m.Settles (Gave modules before) (after modules before) ∧
      m.contents.Extends merged.contents := by
  rw [units, List.filterMap_append] at hunits hmerged
  have hbefore : ∀ u ∈ units before, u.Assembled := fun u hu =>
    hunits u (List.mem_append_left _ hu)
  obtain ⟨m, hm, hrest⟩ := mergeAll_append hmerged
  have hfirst := mergedAll_of_mergeAll wellFormed_empty (fun u hu => (hbefore u hu).wellFormed) hm
  have hall := mergedAll_of_mergeAll hfirst.wellFormed
    (fun u hu => (hunits u (List.mem_append_right _ hu)).wellFormed) hrest
  exact ⟨m, after_settles hbefore hm, hall.extends_contents⟩

/-- A name that was found in a session is found at the end, though perhaps elsewhere. -/
theorem exists_finds_of_before {before : List (Call σ)}
    (hunits : ∀ u ∈ units (before ++ rest), u.Assembled)
    (hmerged : ({} : Program).mergeAll (units (before ++ rest)) = (.ok (), merged))
    (halike : Alike modules provider fresh) {name : String} {value : UInt64}
    (h : (after modules before).finds modules provider name = some value) :
    ∃ value', merged.finds modules fresh name = some value' := by
  obtain ⟨m, hsettles, hextends⟩ := exists_merged_before modules hunits hmerged
  rw [finds, hsettles.labels] at h
  rw [finds]
  rcases hlabel : merged.labels.get? name with _ | label
  · -- a name without a label had none before, and the modules have not changed
    have hnone : m.labels.get? name = none := by
      apply Option.eq_none_iff_forall_ne_some.mpr
      intro label hold
      have hkept : merged.labels.get? name = some label :=
        Table.get?_of_prefix hextends.labels hold
      rw [hlabel] at hkept
      cases hkept
    rw [hnone] at h
    dsimp only at h
    rw [halike.exported] at h
    exact ⟨value, h⟩
  · exact ⟨_, rfl⟩

/-- A reference that is left at a point of a session is one of the merged units. -/
theorem operand?_of_before {before : List (Call σ)}
    (hunits : ∀ u ∈ units (before ++ rest), u.Assembled)
    (hmerged : ({} : Program).mergeAll (units (before ++ rest)) = (.ok (), merged))
    {i j : Nat} {name : String}
    (h : (after modules before).operand? i j = some (.label name)) :
    merged.operand? i j = some (.label name) := by
  obtain ⟨m, hsettles, hextends⟩ := exists_merged_before modules hunits hmerged
  apply operand?_of_initial hextends.instructions
  have hoperand := hsettles.operand? i j
  rw [h] at hoperand
  generalize m.operand? i j = operand at hoperand ⊢
  cases hoperand with
  | some hkept => rw [hkept.eq_label]

/-- A program that has settled finds what it would have found before. -/
theorem Settles.finds_eq {final : σ} (h : p.Settles given q) (halike : Alike modules final fresh) :
    q.finds modules final = p.finds modules fresh := by
  funext name
  rw [finds, finds, h.labels, h.sizes, halike.exported]

/-- What the program of a session and the program that is linked at once have in common. -/
theorem session_eq {final : σ} (hsettles : merged.Settles given p)
    (halike : Alike modules final fresh)
    (hsession : (p.resolve modules final).outcome = .ok ())
    (honce : (merged.resolve modules fresh).outcome = .ok ()) :
    (p.resolve modules final).program =
      { (merged.resolve modules fresh).program with
        instructions := (p.resolve modules final).program.instructions } := by
  have hresolves := resolve_resolves p modules final
  have hresolves' := resolve_resolves merged modules fresh
  rw [hsession] at hresolves
  rw [honce] at hresolves'
  generalize (p.resolve modules final).program = session at hresolves ⊢
  generalize (merged.resolve modules fresh).program = once at hresolves' ⊢
  cases hresolves
  cases hresolves'
  dsimp only
  rw [hsettles.labels, hsettles.data, hsettles.sizes, halike.loaded]

/-- A call in a session that goes well at the end gave a name the address that it has when all units
are linked at once, if the two programs have the same instructions. -/
theorem finds_eq_of_instructions_eq {before : List (Call σ)}
    (hunits : ∀ u ∈ units (before ++ .resolve provider :: rest), u.Assembled)
    (hmerged : ({} : Program).mergeAll (units (before ++ .resolve provider :: rest)) =
      (.ok (), merged))
    (hsame : (after modules (before ++ .resolve provider :: rest)).instructions =
      (merged.resolve modules fresh).program.instructions) {name : String}
    (hbinds : (after modules before).Binds (after modules (before ++ [.resolve provider])) name) :
    (after modules before).finds modules provider name = merged.finds modules fresh name := by
  obtain ⟨i, j, value, hlabel, haddress⟩ := hbinds
  -- the call gave the value
  have hgave := (resolve_settles (after modules before) modules provider).operand? i j
  rw [after_concat] at haddress
  change ((after modules before).resolve modules provider).program.operand? i j = _ at haddress
  rw [hlabel, haddress] at hgave
  -- the operand still has it at the end
  have hkept : (after modules (before ++ .resolve provider :: rest)).operand? i j =
      some (.address value) := by
    rw [List.append_cons] at hunits ⊢
    apply operand?_after hunits
    rw [after_concat]
    exact haddress
  -- linking at once gives the operand the address of the same reference
  have honce := (resolve_settles merged modules fresh).operand? i j
  have hmeets : (merged.resolve modules fresh).program.operand? i j = some (.address value) := by
    rw [operand?, ← hsame]
    exact hkept
  rw [operand?_of_before hunits hmerged hlabel, hmeets] at honce
  cases hgave with
  | some hgave =>
    cases honce with
    | some honce => rw [hgave.given_of_address, honce.given_of_address]

/-- Units without a common label are merged one by one while the program is resolved in between,
with outcomes of any kind, by providers that know what a fresh one knows. If the last call goes
well, then linking the units at once goes well too, and the two programs compare as follows.
* They have the same labels, data, sizes, dependencies, layout and entry point.
* Each reference of the units holds, in the session, the address that its name had at the call that
  bound it, and, linked at once, the address that its name has among all the units. That is the
  start of the section and the offset of the label, if it is one of theirs.
* So the instructions are the same exactly if each name that a call before the last one bound had
  its final address already. -/
theorem session_agrees_iff {final : σ} (hunits : ∀ u ∈ units calls, u.Assembled)
    (hdisjoint : (units calls).Pairwise fun u v => u.labels.Disjoint v.labels)
    (halike : ∀ provider, .resolve provider ∈ calls ++ [.resolve final] →
      Alike modules provider fresh)
    (hok : ((after modules calls).resolve modules final).outcome = .ok ()) :
    ∃ merged, ({} : Program).mergeAll (units calls) = (.ok (), merged) ∧
      (merged.resolve modules fresh).outcome = .ok () ∧
      let session := ((after modules calls).resolve modules final).program
      let once := (merged.resolve modules fresh).program
      session = { once with instructions := session.instructions } ∧
      session.layout = once.layout ∧ session.entry? = once.entry? ∧
      (session.Closed ∧ merged.Settles (Gave modules (calls ++ [.resolve final])) session) ∧
      (once.Closed ∧
        merged.Settles (fun name value => merged.finds modules fresh name = some value) once) ∧
      (∀ i j name label, merged.operand? i j = some (.label name) →
        merged.labels.get? name = some label → ∃ layout, once.layout = some layout ∧
          once.operand? i j = some (.address (layout.address label))) ∧
      (session.instructions = once.instructions ↔
        ∀ before provider rest, calls = before ++ .resolve provider :: rest → ∀ name,
          (after modules before).Binds (after modules (before ++ [.resolve provider])) name →
          (after modules before).finds modules provider name =
            merged.finds modules fresh name) := by
  -- the calls with the last one among them
  have hunits' : units (calls ++ [.resolve final]) = units calls := by
    rw [units, List.filterMap_append]
    exact List.append_nil _
  obtain ⟨merged, hmerged⟩ := exists_mergeAll_of_pairwise wellFormed_empty
    (fun u hu => (hunits u hu).wellFormed) (fun u _ name _ => List.not_mem_nil) hdisjoint
  have hall : ∀ u ∈ units (calls ++ [.resolve final]), u.Assembled := hunits' ▸ hunits
  have hmerged' : ({} : Program).mergeAll (units (calls ++ [.resolve final])) = (.ok (), merged) :=
    hunits' ▸ hmerged
  have hsession : merged.Settles (Gave modules (calls ++ [.resolve final]))
      ((after modules calls).resolve modules final).program := by
    have hsettles : merged.Settles (Gave modules (calls ++ [.resolve final]))
        (after modules (calls ++ [.resolve final])) := after_settles hall hmerged'
    rw [after_concat] at hsettles
    exact hsettles
  have hclosed := closed_of_resolve hok
  -- each name was found at the call that bound it, so that it is found again
  have hfinal : Alike modules final fresh := halike final (by simp)
  have honce : (merged.resolve modules fresh).outcome = .ok () := by
    apply resolve_of_found
    · rw [← hfinal.outcome]
      exact search_of_resolve hok
    · intro i j name hlabel
      obtain ⟨value, ⟨before, provider, rest, hcalls, -, hfinds⟩, -⟩ :=
        hsession.exists_given hclosed hlabel
      rw [hcalls] at hall hmerged' halike
      exact exists_finds_of_before hall hmerged' (halike provider (by simp)) hfinds
  have hbound := resolve_settles merged modules fresh
  have heq := session_eq (after_settles hunits hmerged) hfinal hok honce
  refine ⟨merged, hmerged, honce, heq, ?_, ?_, ⟨hclosed, hsession⟩,
    ⟨closed_of_resolve honce, hbound⟩, ?_, ?_, ?_⟩
  · rw [heq]
  · rw [heq]
    rfl
  · intro i j name label hreference hlabel
    obtain ⟨value, hfinds, haddress⟩ :=
      hbound.exists_given (closed_of_resolve honce) hreference
    refine ⟨.ofSizes merged.sizes, by rw [(resolve_ok honce).1], ?_⟩
    rw [finds, hlabel] at hfinds
    rw [haddress, Option.some.inj hfinds]
  · intro hsame before provider rest hcalls name hbinds
    rw [hcalls, List.append_assoc, List.cons_append] at hall hmerged'
    apply finds_eq_of_instructions_eq hall hmerged' _ hbinds
    rw [← hsame, ← List.cons_append, ← List.append_assoc, ← hcalls, after_concat]
    rfl
  · intro hgave
    -- both programs settle what was merged to the same addresses
    have hright : merged.Settles (fun name value => merged.finds modules fresh name = some value)
        ((after modules calls).resolve modules final).program := by
      apply hsession.imp
      rintro name value ⟨before, provider, rest, hcalls, hbinds, hfinds⟩
      rcases List.eq_nil_or_concat rest with rfl | ⟨rest, last, rfl⟩
      · obtain ⟨rfl, hlast⟩ := List.append_inj' hcalls rfl
        cases hlast
        rw [← (after_settles hunits hmerged).finds_eq hfinal]
        exact hfinds
      · rw [List.concat_eq_append, ← List.cons_append, ← List.append_assoc] at hcalls
        obtain ⟨hcalls, -⟩ := List.append_inj' hcalls rfl
        rw [← hgave before provider rest hcalls name hbinds]
        exact hfinds
    rw [hright.instructions_eq hclosed, hbound.instructions_eq (closed_of_resolve honce)]

/-- A call is bound to address 32, the data that is merged later moves its target to address 35, and
the call stays as it is. -/
theorem session_differs_of_moved_label :
    let unit (text : String) : SourceUnit :=
      ((Assembly.ofSource "unit" (.ofBytes text.toUTF8.data.toList)).calls 1).unit
    let code := unit "call f\nf: ret"
    let data := unit ".data\nd: .ascii \"abc\""
    let calls : List (Call MemoryModules) := [.merge code, .resolve {}, .merge data]
    let session := (after [] calls).resolve [] ({} : MemoryModules)
    let once := (({} : Program).mergeAll [code, data]).2.resolve [] ({} : MemoryModules)
    session.outcome = .ok () ∧ once.outcome = .ok () ∧
      session.program.layout = once.program.layout ∧
      session.program.operand? 0 0 = some (.address 32) ∧
      once.program.operand? 0 0 = some (.address 35) := by
  decide +kernel

/-- The theorem says of that session that the instructions differ because a call gave a name an
address that is not its final one. -/
theorem session_agrees_iff_of_moved_label :
    let unit (text : String) : SourceUnit :=
      ((Assembly.ofSource "unit" (.ofBytes text.toUTF8.data.toList)).calls 1).unit
    let code := unit "call f\nf: ret"
    let data := unit ".data\nd: .ascii \"abc\""
    let calls : List (Call MemoryModules) := [.merge code, .resolve {}, .merge data]
    let merged := (({} : Program).mergeAll [code, data]).2
    ((after [] calls).resolve [] ({} : MemoryModules)).program.entry? =
        (merged.resolve [] ({} : MemoryModules)).program.entry? ∧
      ∃ before provider rest name, calls = before ++ .resolve provider :: rest ∧
        (after [] before).Binds (after [] (before ++ [.resolve provider])) name ∧
        (after [] before).finds [] provider name ≠ merged.finds [] ({} : MemoryModules) name := by
  intro unit code data calls merged
  have hunits : ∀ u ∈ units calls, u.Assembled := by
    change ∀ u ∈ [code, data], u.Assembled
    simp only [List.forall_mem_cons]
    exact ⟨⟨_, _, _, rfl⟩, ⟨_, _, _, rfl⟩, by simp⟩
  have hdisjoint : (units calls).Pairwise fun u v =>
      ∀ key ∈ v.labels.keys, key ∉ u.labels.keys := by
    decide +kernel
  have halike : ∀ provider, .resolve provider ∈ calls ++ [.resolve {}] →
      Alike [] provider ({} : MemoryModules) := by
    intro provider hmem
    obtain rfl : provider = {} := by simpa [calls] using hmem
    exact ⟨rfl, rfl, rfl⟩
  have hok : ((after [] calls).resolve [] ({} : MemoryModules)).outcome = .ok () := by
    decide +kernel
  obtain ⟨merged', hmerged, -, -, -, hentry, -, -, -, hiff⟩ :=
    session_agrees_iff hunits hdisjoint halike hok
  obtain rfl : merged = merged' := congrArg Prod.snd hmerged
  refine ⟨hentry, ?_⟩
  have hdiffer : ((after [] calls).resolve [] ({} : MemoryModules)).program.instructions ≠
      (merged.resolve [] ({} : MemoryModules)).program.instructions := by
    decide +kernel
  by_contra hnone
  apply hdiffer
  apply hiff.mpr
  intro before provider rest hcalls name hbinds
  by_contra hne
  exact hnone ⟨before, provider, rest, name, hcalls, hbinds, hne⟩

end Program

end AsmLinker
