import Mathlib
import AsmLinker.Proofs.Program.Resolved
import AsmLinker.Proofs.Unit.Conformance

/-!
# What a record tells the machine

A record has no field for the kind of an operand. The kinds are in the flags, which were set before
any reference was bound, and there is one address flag for all operands together. A decoder can
still tell them apart, because the table of opcodes has only four shapes of slots: an instruction
that was assembled and resolved has one of six forms (`Instruction.Form`), and of each form the
flags name the kinds.

The one thing that a record does not tell is how the target of a jump was written, as a number or as
a name (`Operand.inSlot`). So two instructions have the same record exactly if they have the same
opcode and agree slot by slot up to this (`Program.record_eq_iff_agree`).
-/

namespace AsmLinker

/-! ## Decoding -/

/-- The opcode with the given code. -/
def Opcode.ofCode? (code : UInt8) : Option Opcode :=
  all.find? (·.code == code)

@[simp] theorem Opcode.ofCode?_code (op : Opcode) : ofCode? op.code = some op := by
  cases op <;> decide

namespace Record

/-- The operand at a position, of which the record has the flags and the word. -/
def operandAt (flags : UInt8) (index : Nat) (word : UInt64) : Operand :=
  let register := if index = 0 then Flag.destRegister else Flag.srcRegister
  if flags &&& register ≠ 0 then .register word.toUInt8
  else if flags &&& Flag.address ≠ 0 then .address word
  else .literal word

/-- The operands of a record. -/
def operands (r : Record) : List Operand :=
  (r.words.take r.count.toNat).mapIdx (operandAt r.flags)

/-- The opcode and the operands of an instruction, from the bytes of its record. -/
def decode (bytes : List UInt8) : Option (Opcode × List Operand) :=
  let r := (read bytes).1
  (Opcode.ofCode? r.code).map fun op => (op, r.operands)

theorem decode_toBytes {r : Record} {op : Opcode} (h : r.code = op.code) :
    decode r.toBytes = some (op, r.operands) := by
  have hread := read_toBytes r []
  rw [List.append_nil] at hread
  simp [decode, hread, h]

/-- The words of the operands stand in front. -/
theorem Holds.take_words {r : Record} {ins : Instruction} (h : r.Holds ins) :
    (r.words.take r.count.toNat).map some = ins.operands.map Operand.word? := by
  rw [List.map_take, h.words, h.count, List.take_left' (by simp)]

/-- The code, the flags and the operand words make a record. -/
theorem Holds.eq_of_words {r r' : Record} {ins ins' : Instruction} (h : r.Holds ins)
    (h' : r'.Holds ins') (hcode : ins.op.code = ins'.op.code) (hflags : ins.flags = ins'.flags)
    (hwords : ins.operands.map Operand.word? = ins'.operands.map Operand.word?) : r = r' := by
  have hlength : ins.operands.length = ins'.operands.length := by
    simpa using congrArg List.length hwords
  have hcount : r.count = r'.count := UInt8.toNat_inj.mp (by rw [h.count, h'.count, hlength])
  have hsame : r.words = r'.words := by
    refine List.map_injective_iff.mpr (Option.some_injective _) ?_
    rw [h.words, h'.words, hwords, hlength]
  obtain ⟨code, flags, count, words, _⟩ := r
  obtain ⟨code', flags', count', words', _⟩ := r'
  obtain rfl : code = code' := h.code.trans (hcode.trans h'.code.symm)
  obtain rfl : flags = flags' := h.flags.trans (hflags.trans h'.flags.symm)
  obtain rfl : count = count' := hcount
  obtain rfl : words = words' := hsame
  rfl

end Record

/-! ## What can be known of an operand in its slot -/

/-- The slot can hold the operand when nothing waits for the linker any more. -/
def Slot.Carries : Slot → Operand → Prop
  | .register, .register _ => True
  | .address, .literal _ | .address, .address _ => True
  | .registerOrLiteral, .register _ | .registerOrLiteral, .literal _
  | .registerOrLiteral, .address _ => True
  | _, _ => False

/-- What the machine can know of an operand in a slot: whether a target was written as a number is
not recorded. -/
def Operand.inSlot : Slot → Operand → Operand
  | .address, .literal value => .address value
  | _, operand => operand

/-- The operands are the same in the slot: the same register, or the same value of something else,
which in a slot for registers or literals must also have been written in the same way. -/
inductive Slot.Agree : Slot → Operand → Operand → Prop
  | registers {slot : Slot} (index : UInt8) : Agree slot (.register index) (.register index)
  | literals (value : UInt64) : Agree .registerOrLiteral (.literal value) (.literal value)
  | addresses (value : UInt64) : Agree .registerOrLiteral (.address value) (.address value)
  | values {slot : Slot} {operand operand' : Operand} {value : UInt64}
      (hslot : slot ≠ .registerOrLiteral)
      (hother : operand.isRegister = false) (hother' : operand'.isRegister = false)
      (hvalue : operand.word? = some value) (hvalue' : operand'.word? = some value) :
      Agree slot operand operand'

namespace Operand

variable {slot : Slot} {operand operand' : Operand}

@[simp] theorem word?_inSlot (slot : Slot) (operand : Operand) :
    (inSlot slot operand).word? = operand.word? := by
  cases slot <;> cases operand <;> rfl

/-- Operands of a slot agree exactly if the machine can know the same of them. -/
theorem inSlot_eq_iff (h : slot.Carries operand) (h' : slot.Carries operand') :
    inSlot slot operand = inSlot slot operand' ↔ slot.Agree operand operand' := by
  constructor
  · intro heq
    cases slot with
    | literal => cases operand <;> cases h
    | register =>
      cases operand <;> cases h
      cases operand' <;> cases h'
      cases heq
      exact .registers _
    | address =>
      cases operand <;> cases h <;> cases operand' <;> cases h' <;> cases heq <;>
        exact .values (by decide) rfl rfl rfl rfl
    | registerOrLiteral =>
      cases operand <;> cases h <;> cases operand' <;> cases h' <;> cases heq
      · exact .registers _
      · exact .literals _
      · exact .addresses _
  · intro hagree
    cases hagree with
    | registers | literals | addresses => rfl
    | values hslot hother hother' hvalue hvalue' =>
      -- in a slot for registers no value of something else is carried
      cases slot <;> cases operand <;> cases h <;> cases operand' <;> cases h' <;>
        simp_all [inSlot, word?, isRegister]

/-- The words of operands do not depend on what can be known of them. -/
theorem map_word?_inSlot {slots : List Slot} {operands : List Operand}
    (h : List.Forall₂ Slot.Carries slots operands) :
    (List.zipWith inSlot slots operands).map word? = operands.map word? := by
  induction h with
  | nil => rfl
  | cons _ _ ih => rw [List.zipWith_cons_cons, List.map_cons, List.map_cons, ih, word?_inSlot]

/-- The same for the operands of all slots. -/
theorem zipWith_inSlot_eq_iff {slots : List Slot} {operands operands' : List Operand}
    (h : List.Forall₂ Slot.Carries slots operands)
    (h' : List.Forall₂ Slot.Carries slots operands') :
    List.zipWith Operand.inSlot slots operands =
        List.zipWith Operand.inSlot slots operands' ↔
      List.Forall₂ (fun slot pair => slot.Agree pair.1 pair.2) slots (operands.zip operands') := by
  induction h generalizing operands' with
  | nil =>
    cases h'
    simp
  | cons hfirst _ ih =>
    cases h' with
    | cons hfirst' hrest' =>
      rw [List.zipWith_cons_cons, List.zipWith_cons_cons, List.zip_cons_cons, List.cons.injEq,
        List.forall₂_cons, inSlot_eq_iff hfirst hfirst', ih hrest']

end Operand

/-! ## The forms of an instruction -/

/-- The slots, flags and operands that an instruction can have when it was assembled and nothing
waits for the linker any more. -/
inductive Instruction.Form : List Slot → UInt8 → List Operand → Prop
  | bare {flags : UInt8} (hflags : flags = 0) : Form [] flags []
  | register {flags : UInt8} (hflags : flags = Flag.destRegister) (index : UInt8) :
      Form [.register] flags [.register index]
  | target {flags : UInt8} (hflags : flags = Flag.destLiteral ||| Flag.address)
      {operand : Operand} (hoperand : Slot.Carries .address operand) :
      Form [.address] flags [operand]
  | registers {flags : UInt8} (hflags : flags = Flag.destRegister ||| Flag.srcRegister)
      (index index' : UInt8) :
      Form [.register, .registerOrLiteral] flags [.register index, .register index']
  | literal {flags : UInt8} (hflags : flags = Flag.destRegister ||| Flag.srcLiteral)
      (index : UInt8) (value : UInt64) :
      Form [.register, .registerOrLiteral] flags [.register index, .literal value]
  | address {flags : UInt8}
      (hflags : flags = Flag.destRegister ||| Flag.srcLiteral ||| Flag.address)
      (index : UInt8) (value : UInt64) :
      Form [.register, .registerOrLiteral] flags [.register index, .address value]

/-- The shapes of slots in the table of opcodes. -/
theorem Opcode.slots_cases (op : Opcode) : op.slots = [] ∨ op.slots = [.register] ∨
    op.slots = [.address] ∨ op.slots = [.register, .registerOrLiteral] := by
  cases op <;> decide

/-- An operand that was read in a slot is a register, a number, or a name, which has been bound. -/
theorem Slot.Fits.settled {slot : Slot} {lexeme : Lexeme} {before after : Operand}
    {given : String → UInt64 → Prop} (h : slot.Fits lexeme before)
    (hsettles : before.Settles given after) (hclosed : ∀ name, .label name ≠ after) :
    (∃ index, before = .register index ∧ after = .register index ∧ slot ≠ .address) ∨
      (∃ value, before = .literal value ∧ after = .literal value ∧ slot ≠ .register) ∨
      ∃ name value, before = .label name ∧ after = .address value ∧ slot ≠ .register := by
  cases h with
  | register hslot index =>
    cases hsettles
    exact .inl ⟨index, rfl, rfl, by rintro rfl; simp at hslot⟩
  | literal hslot text value =>
    cases hsettles
    exact .inr (.inl ⟨value, rfl, rfl, hslot⟩)
  | label hslot name =>
    cases hsettles with
    | kept => exact absurd rfl (hclosed name)
    | @bound _ value => exact .inr (.inr ⟨name, value, rfl, rfl, hslot⟩)

namespace Instruction

variable {ins ins' written : Instruction} {given : String → UInt64 → Prop}
  {slots : List Slot} {flags : UInt8} {operands : List Operand}

theorem Form.carries (h : Form slots flags operands) :
    List.Forall₂ Slot.Carries slots operands := by
  cases h with
  | bare => exact .nil
  | register => exact .cons trivial .nil
  | target _ hoperand => exact .cons hoperand .nil
  | registers | literal | address => exact .cons trivial (.cons trivial .nil)

/-- Each operand of an instruction that was built was read in its slot. -/
theorem Built.fits (h : written.Built slots) :
    List.Forall₂ (fun slot operand => ∃ lexeme, slot.Fits lexeme operand) slots
      written.operands := by
  induction h with
  | bare => exact .nil
  | @add _ _ _ lexeme _ _ hfits ih =>
    exact List.rel_append ih (.cons ⟨lexeme, Slot.fits_iff.mpr hfits⟩ .nil)

/-- An instruction that was built has one of the forms once its references are bound. -/
theorem Built.form (h : written.Built written.op.slots) (hsettles : written.Settles given ins)
    (hclosed : ∀ name, .label name ∉ ins.operands) :
    Form ins.op.slots ins.flags ins.operands := by
  have hop : ins.op = written.op := by rw [hsettles.rest]
  have hflags : ins.flags = Flag.ofOperands written.op.slots written.operands := by
    rw [hsettles.rest, ← h.flags_eq]
  have hfits := h.fits
  have hoperands := hsettles.operands
  rw [hop, hflags]
  generalize written.operands = before at hfits hoperands ⊢
  generalize ins.operands = operands at hclosed hoperands ⊢
  rcases written.op.slots_cases with hslots | hslots | hslots | hslots <;> rw [hslots] at hfits ⊢
  · cases hfits
    cases hoperands
    exact .bare (by cbv)
  · obtain _ | ⟨⟨_, hfirst⟩, _ | _⟩ := hfits
    obtain _ | ⟨hsettled, _ | _⟩ := hoperands
    rcases hfirst.settled hsettled (by simpa using hclosed) with
      ⟨index, rfl, rfl, -⟩ | ⟨-, -, -, hslot⟩ | ⟨-, -, -, -, hslot⟩
    · exact .register (by cbv) index
    · exact absurd rfl hslot
    · exact absurd rfl hslot
  · obtain _ | ⟨⟨_, hfirst⟩, _ | _⟩ := hfits
    obtain _ | ⟨hsettled, _ | _⟩ := hoperands
    rcases hfirst.settled hsettled (by simpa using hclosed) with
      ⟨-, -, -, hslot⟩ | ⟨value, rfl, rfl, -⟩ | ⟨name, value, rfl, rfl, -⟩
    · exact absurd rfl hslot
    · exact .target (by cbv) trivial
    · exact .target (by cbv) trivial
  · obtain _ | ⟨⟨_, hfirst⟩, _ | ⟨⟨_, hsecond⟩, _ | _⟩⟩ := hfits
    obtain _ | ⟨hsettled, _ | ⟨hsettled', _ | _⟩⟩ := hoperands
    obtain ⟨hclosed, hclosed'⟩ := by simpa [forall_and] using hclosed
    rcases hfirst.settled hsettled hclosed with
      ⟨index, rfl, rfl, -⟩ | ⟨-, -, -, hslot⟩ | ⟨-, -, -, -, hslot⟩
    · -- the second operand decides the form
      rcases hsecond.settled hsettled' hclosed' with
        ⟨index', rfl, rfl, -⟩ | ⟨value, rfl, rfl, -⟩ | ⟨name, value, rfl, rfl, -⟩
      · exact .registers (by cbv) index index'
      · exact .literal (by cbv) index value
      · exact .address (by cbv) index value
    · exact absurd rfl hslot
    · exact absurd rfl hslot

/-- What can be known of the operands decides the flags. -/
theorem Form.flags_eq {flags' : UInt8} {operands' : List Operand} (h : Form slots flags operands)
    (h' : Form slots flags' operands')
    (hknown : List.zipWith Operand.inSlot slots operands =
      List.zipWith Operand.inSlot slots operands') : flags = flags' := by
  cases h <;> cases h' <;> simp_all [Operand.inSlot]

/-- The decoder finds out what can be known of the operands. -/
theorem Form.operands_eq {r : Record} (h : Form ins.op.slots ins.flags ins.operands)
    (hholds : r.Holds ins) :
    r.operands = List.zipWith Operand.inSlot ins.op.slots ins.operands := by
  have hwords := hholds.take_words
  unfold Record.operands
  rw [hholds.flags]
  generalize r.words.take r.count.toNat = words at hwords ⊢
  generalize ins.op.slots = slots at h ⊢
  generalize ins.flags = flags at h ⊢
  generalize ins.operands = operands at h hwords ⊢
  -- words are known as soon as those of the operands are
  have hsame : ∀ other : List UInt64, words.map some = other.map some → words = other :=
    fun other hmap => List.map_injective_iff.mpr (Option.some_injective _) hmap
  cases h with
  | bare hflags =>
    obtain rfl := hsame [] hwords
    rfl
  | register hflags index =>
    obtain rfl := hsame [index.toUInt64] hwords
    simp +decide [hflags, Record.operandAt, Operand.inSlot]
  | @target _ hflags operand hoperand =>
    cases operand with
    | register | label => cases hoperand
    | literal value | address value =>
      obtain rfl := hsame [value] hwords
      simp +decide [hflags, Record.operandAt, Operand.inSlot]
  | registers hflags index index' =>
    obtain rfl := hsame [index.toUInt64, index'.toUInt64] hwords
    simp +decide [hflags, Record.operandAt, Operand.inSlot]
  | literal hflags index value =>
    obtain rfl := hsame [index.toUInt64, value] hwords
    simp +decide [hflags, Record.operandAt, Operand.inSlot]
  | address hflags index value =>
    obtain rfl := hsame [index.toUInt64, value] hwords
    simp +decide [hflags, Record.operandAt, Operand.inSlot]

/-- Instructions of the forms have the same record exactly if they have the same opcode and their
operands agree slot by slot. -/
theorem Form.toBytes_eq_iff {r r' : Record} (h : Form ins.op.slots ins.flags ins.operands)
    (h' : Form ins'.op.slots ins'.flags ins'.operands) (hr : r.Holds ins) (hr' : r'.Holds ins') :
    r.toBytes = r'.toBytes ↔ ins.op = ins'.op ∧
      List.Forall₂ (fun slot pair => slot.Agree pair.1 pair.2) ins.op.slots
        (ins.operands.zip ins'.operands) := by
  constructor
  · intro hbytes
    have hdecode := Record.decode_toBytes hr.code
    rw [hbytes, Record.decode_toBytes hr'.code] at hdecode
    obtain ⟨hop, hoperands⟩ := Prod.mk.inj (Option.some.inj hdecode)
    rw [h.operands_eq hr, h'.operands_eq hr', hop] at hoperands
    refine ⟨hop.symm, (Operand.zipWith_inSlot_eq_iff h.carries ?_).mp hoperands.symm⟩
    rw [← hop]
    exact h'.carries
  · rintro ⟨hop, hagree⟩
    rw [← hop] at h'
    have hknown := (Operand.zipWith_inSlot_eq_iff h.carries h'.carries).mpr hagree
    have hwords : ins.operands.map Operand.word? = ins'.operands.map Operand.word? := by
      rw [← Operand.map_word?_inSlot h.carries, hknown, Operand.map_word?_inSlot h'.carries]
    rw [hr.eq_of_words hr' (congrArg Opcode.code hop) (h.flags_eq h' hknown) hwords]

end Instruction

/-! ## Programs whose instructions were assembled -/

namespace Program

variable {σ τ : Type} [SymbolProvider σ] [SymbolProvider τ] {p q : Program} {ins : Instruction}

/-- A program that was reached from the empty one by merging any labels, any data and instructions
of assembled sources, and by resolving it against any modules of any provider, in any order and
whatever each call came to. -/
inductive OfSources : Program → Prop
  | empty : OfSources {}
  | labels {p : Program} (h : OfSources p) (labels : Table Label) :
      OfSources (p.taking (p.mergeLabels labels))
  | data {p : Program} (h : OfSources p) (data : Table Declaration) :
      OfSources (p.taking (p.mergeData data))
  | instructions {p : Program} (h : OfSources p) {u : SourceUnit} (hu : u.Assembled)
      {instructions : List Instruction} (hsubset : instructions ⊆ u.instructions) :
      OfSources (p.mergeInstructions instructions)
  | resolve {p : Program} {σ : Type} [SymbolProvider σ] (h : OfSources p) (modules : List String)
      (provider : σ) : OfSources (p.resolve modules provider).program

theorem instructions_mergeLabels {labels : Table Label} (h : p.mergeLabels labels = .ok q) :
    q.instructions = p.instructions := by
  rw [mergeLabels] at h
  split at h <;> cases h
  rfl

theorem instructions_mergeData {data : Table Declaration} (h : p.mergeData data = .ok q) :
    q.instructions = p.instructions := by
  rw [mergeData] at h
  split at h <;> cases h
  rfl

/-- A part that brings no instructions leaves them as they are. -/
theorem instructions_taking {result : Except Error Program}
    (h : ∀ q, result = .ok q → q.instructions = p.instructions) :
    (p.taking result).instructions = p.instructions := by
  cases result with
  | error e => rfl
  | ok q => exact h q rfl

/-- An instruction of a program that has settled was there before. -/
theorem Settles.exists_of_mem {given : String → UInt64 → Prop} (h : p.Settles given q)
    (hins : ins ∈ q.instructions) : ∃ before ∈ p.instructions, before.Settles given ins := by
  obtain ⟨i, hi, rfl⟩ := List.getElem_of_mem hins
  obtain ⟨hlength, hget⟩ := List.forall₂_iff_get.mp h.instructions
  exact ⟨_, List.get_mem _ _, hget i (hlength ▸ hi) hi⟩

/-- Each instruction of the program was built along the slots of its opcode, and has settled
since. -/
theorem OfSources.exists_written (h : p.OfSources) : ∀ ins ∈ p.instructions,
    ∃ written : Instruction, written.Built written.op.slots ∧
      written.Settles (fun _ _ => True) ins := by
  induction h with
  | empty => simp
  | labels _ labels ih =>
    rw [instructions_taking fun _ => instructions_mergeLabels]
    exact ih
  | data _ data ih =>
    rw [instructions_taking fun _ => instructions_mergeData]
    exact ih
  | @instructions p _ u hu instructions hsubset ih =>
    intro ins hins
    rcases List.mem_append.mp hins with hold | hnew
    · exact ih ins hold
    · obtain ⟨path, source, n, rfl⟩ := hu
      have hbuilt := Assembly.instructionsBuilt_invariant.calls
        (Assembly.instructionsBuilt_of_not_operands (a := Assembly.ofSource path source)
          (by simp [Assembly.ofSource]) (by simp)) n
      exact ⟨ins, hbuilt.1 ins (hsubset hnew), rfl, Operand.settles_refl _⟩
  | resolve _ modules provider ih =>
    intro ins hins
    obtain ⟨before, hbefore, hsettles⟩ := (resolve_settles _ modules provider).exists_of_mem hins
    obtain ⟨written, hbuilt, hwritten⟩ := ih before hbefore
    exact ⟨written, hbuilt, hwritten.trans (hsettles.imp fun _ _ _ => trivial)⟩

/-- An instruction of such a program that is resolved has one of the forms and a record. -/
theorem OfSources.form_and_record {modules : List String} {provider : σ} (h : p.OfSources)
    (hresolved : (p.resolve modules provider).outcome = .ok ())
    (hins : ins ∈ (p.resolve modules provider).program.instructions) :
    Instruction.Form ins.op.slots ins.flags ins.operands ∧
      ∃ r, ins.lower = .ok r ∧ r.Holds ins := by
  have hclosed := closed_of_resolve hresolved ins hins
  obtain ⟨written, hbuilt, hsettles⟩ := (h.resolve modules provider).exists_written ins hins
  have hform := hbuilt.form hsettles hclosed
  refine ⟨hform, Instruction.lower_ok ?_ ?_⟩
  · rw [← hform.carries.length_eq]
    exact ins.op.length_slots_le
  · intro operand hmem
    exact Operand.isSome_word? fun name hname => hclosed name (hname ▸ hmem)

/-- Of instructions that were assembled from any sources and resolved by any calls that went well,
two have the same record exactly if they have the same opcode and their operands agree slot by slot:
they are the same register, or no registers and of the same value, and in a slot for registers or
literals both are literals or both were labels. The record can be decoded to the opcode and to the
kind and the value of each operand. -/
theorem record_eq_iff_agree {modules modules' : List String} {provider : σ} {provider' : τ}
    {ins' : Instruction} (hp : p.OfSources) (hq : q.OfSources)
    (hresolved : (p.resolve modules provider).outcome = .ok ())
    (hresolved' : (q.resolve modules' provider').outcome = .ok ())
    (hins : ins ∈ (p.resolve modules provider).program.instructions)
    (hins' : ins' ∈ (q.resolve modules' provider').program.instructions) :
    ∃ r r', ins.lower = .ok r ∧ ins'.lower = .ok r' ∧
      (r.toBytes = r'.toBytes ↔ ins.op = ins'.op ∧
        List.Forall₂ (fun slot pair => slot.Agree pair.1 pair.2) ins.op.slots
          (ins.operands.zip ins'.operands)) ∧
      Record.decode r.toBytes =
        some (ins.op, List.zipWith Operand.inSlot ins.op.slots ins.operands) := by
  obtain ⟨hform, r, hlower, hholds⟩ := hp.form_and_record hresolved hins
  obtain ⟨hform', r', hlower', hholds'⟩ := hq.form_and_record hresolved' hins'
  refine ⟨r, r', hlower, hlower', hform.toBytes_eq_iff hform' hholds hholds', ?_⟩
  rw [Record.decode_toBytes hholds.code, hform.operands_eq hholds]

/-- A jump to a name and one to the number that is its address have the same record. A move of the
name and one of the number do not. -/
theorem record_eq_iff_agree_of_jump_and_move :
    let unit := ((Assembly.ofSource "unit"
      (.ofBytes (utf8 "jmp f\nf: jmp 32\nmov x7, f\nmov x7, 32"))).calls 1).unit
    let start : Program := {}
    let p := (start.taking (start.mergeLabels unit.labels)).mergeInstructions unit.instructions
    let resolved := p.resolve [] ({} : MemoryModules)
    let jump (operand : Operand) (label : Option String) (line : Nat) : Instruction :=
      { op := .jmp, flags := Flag.destLiteral ||| Flag.address, operands := [operand], label, line }
    let byName : Instruction :=
      { op := .mov, flags := Flag.destRegister ||| Flag.srcLiteral ||| Flag.address
        operands := [.register 7, .address 32], label := some "f", line := 3 }
    let byNumber : Instruction :=
      { op := .mov, flags := Flag.destRegister ||| Flag.srcLiteral
        operands := [.register 7, .literal 32], line := 4 }
    resolved.outcome = .ok () ∧
      resolved.program.instructions =
        [jump (.address 32) (some "f") 1, jump (.literal 32) none 2, byName, byNumber] ∧
      (∃ r r', (jump (.address 32) (some "f") 1).lower = .ok r ∧
        (jump (.literal 32) none 2).lower = .ok r' ∧ r.toBytes = r'.toBytes) ∧
      ∃ r r', byName.lower = .ok r ∧ byNumber.lower = .ok r' ∧ r.toBytes ≠ r'.toBytes ∧
        Record.decode r.toBytes = some (.mov, [.register 7, .address 32]) := by
  intro unit start p resolved jump byName byNumber
  have hp : p.OfSources := .instructions (.labels .empty unit.labels) ⟨_, _, _, rfl⟩
    (List.Subset.refl unit.instructions)
  obtain ⟨hok, hinstructions⟩ : resolved.outcome = .ok () ∧ resolved.program.instructions =
      [jump (.address 32) (some "f") 1, jump (.literal 32) none 2, byName, byNumber] := by
    decide +kernel
  have hmem : ∀ ins ∈ [jump (.address 32) (some "f") 1, jump (.literal 32) none 2, byName,
      byNumber], ins ∈ resolved.program.instructions := by
    rw [hinstructions]
    exact fun _ h => h
  refine ⟨hok, hinstructions, ?_, ?_⟩
  · obtain ⟨r, r', hlower, hlower', hiff, -⟩ := record_eq_iff_agree hp hp hok hok
      (hmem (jump (.address 32) (some "f") 1) (by simp))
      (hmem (jump (.literal 32) none 2) (by simp))
    refine ⟨r, r', hlower, hlower', hiff.mpr ⟨rfl, ?_⟩⟩
    exact .cons (.values (by decide) rfl rfl rfl rfl) .nil
  · obtain ⟨r, r', hlower, hlower', hiff, hdecode⟩ := record_eq_iff_agree hp hp hok hok
      (hmem byName (by simp)) (hmem byNumber (by simp))
    refine ⟨r, r', hlower, hlower', fun hsame => ?_, hdecode⟩
    obtain ⟨-, hagree⟩ := hiff.mp hsame
    rcases hagree with _ | ⟨-, hsecond⟩
    rcases hsecond with _ | ⟨hsecond, -⟩
    rcases hsecond with _ | _ | _ | ⟨hslot⟩
    exact hslot rfl

end Program

end AsmLinker
