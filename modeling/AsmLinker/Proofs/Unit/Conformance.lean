import Mathlib
import AsmLinker.Proofs.Unit.Progress
import AsmLinker.Proofs.Unit.RoundTrip

/-!
# Assembled instructions conform to the table of opcodes

Whatever a source holds, and however many calls it took to get through its errors, each instruction
of the unit is what the table of opcodes says of its opcode (`Instruction.Conforms`): it has one
operand for each slot, which the slot accepts, and its flags and its label can be read off its
operands.

The proof has two parts. An instruction is built operand by operand along its slots, which decides
its flags and its label (`Instruction.Built.flags_eq`, `Instruction.Built.label_eq`). The operands
come from tokens, and a scanner answers only tokens that are spelled (`Scanner.spelled_answers`), so
that registers have one digit and a name is no register and no mnemonic
(`Assembly.operandsSpelled_invariant`).
-/

namespace AsmLinker

/-! ## What the table says -/

/-- The slot accepts the operand. -/
def Slot.Accepts : Slot → Operand → Prop
  | .register, .register index => index.toNat < 10
  | .literal, .literal _ | .literal, .label _ => True
  | .address, .literal _ | .address, .label _ => True
  | .registerOrLiteral, .register index => index.toNat < 10
  | .registerOrLiteral, .literal _ | .registerOrLiteral, .label _ => True
  | _, _ => False

/-- The flag of an operand position: which one depends on whether a register stands there, and there
is none if nothing does. -/
def Flag.ofPosition (register other : UInt8) : Option Operand → UInt8
  | none => 0
  | some operand => if operand.isRegister then register else other

/-- The flags of operands in slots. -/
def Flag.ofOperands (slots : List Slot) (operands : List Operand) : UInt8 :=
  Flag.ofPosition Flag.destRegister Flag.destLiteral operands[0]? |||
    Flag.ofPosition Flag.srcRegister Flag.srcLiteral operands[1]? |||
    if .address ∈ slots ∨ operands.any Operand.isLabel then Flag.address else 0

/-- The name to which an operand refers. -/
def Operand.name? : Operand → Option String
  | .label name => some name
  | _ => none

/-- The instruction is as the table of opcodes has it. -/
structure Instruction.Conforms (ins : Instruction) : Prop where
  /-- There is one operand for each slot of the opcode. -/
  arity : ins.operands.length = ins.op.slots.length
  /-- Each slot accepts its operand. -/
  accepts : List.Forall₂ Slot.Accepts ins.op.slots ins.operands
  /-- The flags are those of the operands. -/
  flags : ins.flags = Flag.ofOperands ins.op.slots ins.operands
  /-- The label is the last name to which an operand refers. -/
  label : ins.label = (ins.operands.filterMap Operand.name?).getLast?
  /-- Each such name is neither a register nor a mnemonic. -/
  names : ∀ name, .label name ∈ ins.operands →
    (∀ digit : Fin 10, name ≠ "x" ++ toString digit.val) ∧ ∀ op : Opcode, name ≠ op.mnemonic

/-! ## Instructions that were built along their slots -/

/-- A flag that is set for one of two reasons is set for the first or together with what the second
one sets. -/
theorem Flag.or_ite (first second flag : UInt8) (p q : Prop) [Decidable p] [Decidable q] :
    (first ||| second ||| if p ∨ q then flag else 0) =
      (first ||| if p then flag else 0) ||| if q then second ||| flag else second := by
  by_cases hp : p <;> by_cases hq : q
  · rw [if_pos (.inl hp), if_pos hp, if_pos hq]
    rw [UInt8.or_assoc first flag, UInt8.or_comm second, ← UInt8.or_assoc flag, UInt8.or_self,
      UInt8.or_assoc, UInt8.or_comm second]
  · rw [if_pos (.inl hp), if_pos hp, if_neg hq, UInt8.or_assoc, UInt8.or_comm second,
      UInt8.or_assoc]
  · rw [if_pos (.inr hq), if_neg hp, if_pos hq, UInt8.or_zero, UInt8.or_assoc]
  · rw [if_neg (not_or.mpr ⟨hp, hq⟩), if_neg hp, if_neg hq, UInt8.or_zero, UInt8.or_zero]

/-- One more operand adds its own flags. -/
theorem Flag.ofOperands_concat (slots : List Slot) (slot : Slot) (operands : List Operand)
    (operand : Operand) : Flag.ofOperands (slots ++ [slot]) (operands ++ [operand]) =
      Flag.ofOperands slots operands ||| operand.flags operands.length slot := by
  have haddress : (.address ∈ slots ++ [slot] ∨ (operands ++ [operand]).any Operand.isLabel) ↔
      (.address ∈ slots ∨ operands.any Operand.isLabel) ∨ slot = .address ∨ operand.isLabel := by
    rw [List.mem_append, List.mem_singleton, List.any_append, Bool.or_eq_true, List.any_cons,
      List.any_nil, Bool.or_false, eq_comm (a := slot)]
    tauto
  unfold Flag.ofOperands Operand.flags
  dsimp only
  rw [if_congr haddress rfl rfl, ← Flag.or_ite]
  congr 1
  -- only the first two positions have a flag of their own
  match operands with
  | [] => cases hkind : operand.isRegister <;> simp [Flag.ofPosition, hkind]
  | [first] => cases hkind : operand.isRegister <;> simp [Flag.ofPosition, hkind]
  | first :: second :: rest => simp

namespace Instruction.Built

variable {ins : Instruction} {slots : List Slot}

/-- The flags of an instruction that was built are those of its operands. -/
theorem flags_eq (h : Instruction.Built ins slots) :
    ins.flags = Flag.ofOperands slots ins.operands := by
  induction h with
  | bare => simp [Flag.ofOperands, Flag.ofPosition]
  | @add ins slots slot lexeme operand hbuilt hfits ih =>
    show ins.flags ||| operand.flags ins.operands.length slot =
      Flag.ofOperands (slots ++ [slot]) (ins.operands ++ [operand])
    rw [Flag.ofOperands_concat, ih]

/-- The label of an instruction that was built is the last name in its operands. -/
theorem label_eq (h : Instruction.Built ins slots) :
    ins.label = (ins.operands.filterMap Operand.name?).getLast? := by
  induction h with
  | bare => rfl
  | @add ins slots slot lexeme operand hbuilt hfits ih =>
    -- a label takes the place of the name before it, and any other operand keeps that name
    have hlast : (ins.addOperand slot operand).label = operand.name?.or ins.label := by
      cases operand <;> rfl
    have hoperands : (ins.addOperand slot operand).operands = ins.operands ++ [operand] := rfl
    rw [hlast, hoperands, List.filterMap_append, List.getLast?_append, ← ih]
    cases operand <;> rfl

/-- Each slot along which an instruction was built accepts its operand, if that can be spelled. -/
theorem accepts (h : Instruction.Built ins slots)
    (hspelled : ∀ operand ∈ ins.operands, operand.Spelled) :
    List.Forall₂ Slot.Accepts slots ins.operands := by
  induction h with
  | bare => exact .nil
  | @add ins slots slot lexeme operand hbuilt hfits ih =>
    have hlast : slot.Accepts operand := by
      have hoperand : operand.Spelled := hspelled operand (by simp [addOperand])
      cases Slot.fits_iff.mpr hfits with
      | register hslot index => rcases hslot with rfl | rfl <;> exact hoperand
      | literal hslot | label hslot => cases slot <;> trivial
    have hbefore := ih fun other hother => hspelled other (List.mem_append_left _ hother)
    exact List.rel_append hbefore (.cons hlast .nil)

end Instruction.Built

/-! ## Operands that were read -/

/-- A word that is an identifier is neither a register nor a mnemonic. -/
theorem Lexeme.not_reserved {name : String} (h : ofWord name = .identifier name) :
    (∀ digit : Fin 10, name ≠ "x" ++ toString digit.val) ∧ ∀ op : Opcode, name ≠ op.mnemonic := by
  have hopcode : ∀ op : Opcode, ofWord op.mnemonic = .opcode op := by
    intro op
    cases op <;> decide +kernel
  constructor
  · rintro digit rfl
    rw [ofWord_register] at h
    cases h
  · rintro op rfl
    rw [hopcode] at h
    cases h

namespace Assembly

variable {a a' : Assembly} {context : Context} {token : Token} {result : Except Error Context}

/-- The operands of every instruction of the unit, and of the one that is being read, can be
spelled. -/
def OperandsSpelled (context : Context) (a : Assembly) : Prop :=
  (∀ ins ∈ a.unit.instructions, ∀ operand ∈ ins.operands, operand.Spelled) ∧
    ∀ ins slots comma, context = .operands ins slots comma →
      ∀ operand ∈ ins.operands, operand.Spelled

/-- A token that is spelled keeps the operands spelled. -/
theorem Takes.operandsSpelled (h : Takes a context token result a')
    (htoken : token.lexeme.Spelled) (ho : OperandsSpelled context a) :
    OperandsSpelled (resumed result) a' := by
  cases h with
  | blank | activate | announce | label | declaration | await | close | refuse | refuseBound =>
    -- no instruction is being read behind these, and none has been added
    exact ⟨ho.1, by simp⟩
  | directiveLiteral | declarationLiteral =>
    refine ⟨ho.1, ?_⟩
    unfold literalOutcome
    split <;> simp
  | operation =>
    refine ⟨ho.1, ?_⟩
    rintro _ _ _ ⟨⟩
    simp
  | operand hfits =>
    refine ⟨ho.1, ?_⟩
    rintro _ _ _ ⟨⟩
    -- the token is the new operand, and those before it are as they were
    have hnew := ((Slot.fits_iff.mpr hfits).spelled htoken).1
    have hold := ho.2 _ _ _ rfl
    simpa [Instruction.addOperand, or_imp, forall_and] using ⟨hold, hnew⟩
  | instruction =>
    -- the instruction that was being read is now one of the unit
    refine ⟨?_, by simp⟩
    intro ins hmem
    obtain hold | rfl : ins ∈ a.unit.instructions ∨ ins = _ := by simpa [append] using hmem
    · exact ho.1 ins hold
    · exact ho.2 _ _ _ rfl

theorem operandsSpelled_invariant :
    InvariantOver (fun token => token.lexeme.Spelled) OperandsSpelled where
  ends _ := trivial
  takes h htoken ho := h.operandsSpelled htoken ho
  withRest _ h := h
  warned _ h := h

/-- Whatever a source holds, also where reads of it fail, and after any number of calls that went
well or not, each instruction of the unit conforms to the table of opcodes and so has at most three
operands. -/
theorem assembled_instructions_conform (path : String) (source : Source) (n : Nat) :
    ∀ ins ∈ ((ofSource path source).calls n).unit.instructions,
      ins.Conforms ∧ ins.operands.length ≤ 3 := by
  have hbuilt : InstructionsBuilt .statement ((ofSource path source).calls n) :=
    instructionsBuilt_invariant.calls
      (instructionsBuilt_of_not_operands (by simp [ofSource]) (by simp)) n
  have hspelled : OperandsSpelled .statement ((ofSource path source).calls n) :=
    operandsSpelled_invariant.calls (Scanner.spelled_answers rfl) ⟨by simp [ofSource], by simp⟩ n
  intro ins hins
  -- how it was built decides its shape, and what was read decides its registers and names
  have hins' := hbuilt.1 ins hins
  have hoperands := hspelled.1 ins hins
  have harity := hins'.length_operands
  refine ⟨⟨harity, hins'.accepts hoperands, hins'.flags_eq, hins'.label_eq, ?_⟩, ?_⟩
  · intro name hlabel
    exact Lexeme.not_reserved (hoperands _ hlabel).2
  · rw [harity]
    exact ins.op.length_slots_le

/-- Two calls, of which the first one stops at an operand too many: the instruction before it has a
register, a name and three flags. -/
theorem assembled_instructions_conform_of_two_calls :
    let source : Source := .ofBytes (utf8 "mov x0, end\nret x1\nend: call 7")
    let ins : Instruction :=
      { op := .mov, flags := Flag.destRegister ||| Flag.srcLiteral ||| Flag.address
        operands := [.register 0, .label "end"], label := some "end", line := 1 }
    (ofSource "unit" source).assemble.1 ≠ .ok () ∧
      ins ∈ ((ofSource "unit" source).calls 2).unit.instructions ∧ ins.Conforms := by
  intro source ins
  have hmem : ins ∈ ((ofSource "unit" source).calls 2).unit.instructions := by decide +kernel
  exact ⟨by decide +kernel, hmem, (assembled_instructions_conform "unit" source 2 ins hmem).1⟩

end Assembly

end AsmLinker
