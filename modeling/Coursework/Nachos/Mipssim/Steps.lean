import Coursework.Nachos.Mipssim.OneInstruction
import Coursework.Nachos.Mipssim.Translate

/-!
# How an instruction ends

An instruction that goes through writes at most one general register, which its opcode tells, or
loads one. Any other ends at an exception with nothing changed, at an assertion or at a division
that the host cannot do.
-/
namespace Coursework.Nachos.Mipssim
open Mips (Word Reg)

namespace Instruction

/-- The general register that the instruction writes or loads. -/
def target (i : Instruction) : Option Reg :=
  match i.opCode with
  | .add | .addu | .and | .jalr | .mfhi | .mflo | .nor | .or | .sll | .sllv | .slt | .sltu
  | .sra | .srav | .srl | .srlv | .sub | .subu | .xor => some i.rd
  | .addi | .addiu | .andi | .lui | .ori | .slti | .sltiu | .xori => some i.rt
  | .lb | .lbu | .lh | .lhu | .lw | .lwl | .lwr => some i.rt
  | .bgezal | .bltzal | .jal => some R31
  | _ => none

def isLoad (i : Instruction) : Bool :=
  match i.opCode with
  | .lb | .lbu | .lh | .lhu | .lw | .lwl | .lwr => true
  | _ => false

/-- `LWL`, `LWR`, `SWL` and `SWR`. -/
def isPartial (i : Instruction) : Bool :=
  match i.opCode with
  | .lwl | .lwr | .swl | .swr => true
  | _ => false

/-- The address of a load or store. -/
def address (i : Instruction) (m : Machine) : Word := m.registers.gpr i.rs + i.extra

/-- The address that an exception of the instruction reports. -/
def reported (i : Instruction) (m : Machine) : Word :=
  match i.opCode with
  | .lb | .lbu | .lh | .lhu | .lw | .lwl | .lwr | .sb | .sh | .sw | .swl | .swr => i.address m
  | _ => 0

end Instruction

/-- What an instruction did that went through. -/
inductive Did (i : Instruction) (m : Machine) : Executed → Prop where
  | write {r : Reg} (v pcAfter : Word) (ht : i.target = some r) (hload : i.isLoad = false) :
      Did i m ⟨m.set r v, pcAfter, 0, 0⟩
  | setHiLo (hi lo : Word) (ht : i.target = none) : Did i m (m.setHiLo hi lo).next
  | branch (pcAfter : Word) (ht : i.target = none) : Did i m ⟨m, pcAfter, 0, 0⟩
  | load {m' : Machine} (v : Word) (hm : m.Alike m') (ht : i.target = some i.rt)
      (hload : i.isLoad = true) : Did i m (m'.load i.rt v)
  | store {m' : Machine} (hm : m'.registers = m.registers) (ht : i.target = none) :
      Did i m m'.next

/-- Why an instruction did not go through. -/
inductive Stopped (i : Instruction) (m : Machine) : Stop → Prop where
  | exception {m' : Machine} (which : ExceptionType) (hm : m.Alike m') :
      Stopped i m (m'.raiseException which (i.reported m))
  | unaligned (hop : i.isPartial = true) (haddr : i.address m &&& 0x3 ≠ 0) :
      Stopped i m .assertFailed
  | unknown (hop : i.opCode = .rfe ∨ i.opCode = .special ∨ i.opCode = .bcond) :
      Stopped i m .assertFailed
  | translation {m' : Machine} {addr : Word} {size : ℕ} {writing : Bool} (hm : m.Alike m')
      (hsize : size = 1 ∨ size = 2 ∨ size = 4)
      (h : m'.translate addr size writing = .error none) : Stopped i m .assertFailed
  | trap (hop : i.opCode = .div) (hrs : m.registers.gpr i.rs = signBit)
      (hrt : m.registers.gpr i.rt = -1) : Stopped i m .hostTrap

def Ends (i : Instruction) (m : Machine) : Except Stop Executed → Prop
  | .ok x => Did i m x
  | .error stop => Stopped i m stop

variable {i : Instruction} {m m' : Machine} {addr v : Word} {size : ℕ}

theorem load_ends (hload : i.isLoad = true) (ht : i.target = some i.rt)
    (hreported : i.reported m = addr) (hsize : size = 1 ∨ size = 2 ∨ size = 4)
    (f : Word × Machine → Word) :
    Ends i m (do
      let r ← m.readMem addr size
      pure (r.2.load i.rt (f r))) := by
  cases hread : m.readMem addr size with
  | ok r => exact Did.load _ (Machine.readMem_alike hread) ht hload
  | error stop =>
    rcases Machine.readMem_error hsize hread with ⟨e, rfl⟩ | ⟨rfl, htr⟩
    · rw [← hreported]
      exact Stopped.exception e (.refl m)
    · exact Stopped.translation (.refl m) hsize htr

theorem store_ends (hm : m.Alike m') (ht : i.target = none) (hreported : i.reported m = addr)
    (hsize : size = 1 ∨ size = 2 ∨ size = 4) :
    Ends i m (do
      let m ← m'.writeMem addr size v
      pure m.next) := by
  cases hwrite : m'.writeMem addr size v with
  | ok m₂ => exact Did.store ((Machine.writeMem_registers hwrite).trans hm.registers) ht
  | error stop =>
    rcases Machine.writeMem_error hsize hwrite with ⟨e, rfl⟩ | ⟨rfl, htr⟩
    · rw [← hreported]
      exact Stopped.exception e hm
    · exact Stopped.translation hm hsize htr

/-- The word is read, changed and written. -/
theorem readStore_ends (ht : i.target = none) (hreported : i.reported m = addr)
    (f : Word × Machine → Word) :
    Ends i m (do
      let r ← m.readMem addr 4
      let m ← r.2.writeMem addr 4 (f r)
      pure m.next) := by
  cases hread : m.readMem addr 4 with
  | ok r => exact store_ends (Machine.readMem_alike hread) ht hreported (.inr (.inr rfl))
  | error stop =>
    rcases Machine.readMem_error (.inr (.inr rfl)) hread with ⟨e, rfl⟩ | ⟨rfl, htr⟩
    · rw [← hreported]
      exact Stopped.exception e (.refl m)
    · exact Stopped.translation (.refl m) (.inr (.inr rfl)) htr

theorem aligned_and_not (h : addr &&& 0x3 = 0) : addr &&& ~~~0x3 = addr := by
  apply BitVec.eq_of_getLsbD_eq
  intro j hj
  have hbit := congrArg (fun w : Word => w.getLsbD j) h
  simp only [BitVec.getLsbD_and] at hbit
  rw [BitVec.getLsbD_and, BitVec.getLsbD_not]
  cases ha : addr.getLsbD j
  · rfl
  · rw [ha, Bool.true_and] at hbit
    rw [hbit, decide_eq_true hj]
    simp

/-- Every instruction ends in one of these ways. -/
theorem execute_ends (i : Instruction) (m : Machine) : Ends i m (execute i m) := by
  rcases i with ⟨op, rs, rt, rd, extra⟩
  cases op
  case addiu | addu | and | andi | jalr | lui | mfhi | mflo | nor | or | ori | sll | sllv | slt
    | slti | sltiu | sltu | sra | srav | srl | srlv | subu | xor | xori | jal =>
    exact Did.write _ _ rfl rfl
  case add | addi | sub =>
    rw [execute]
    simp only
    split_ifs
    · exact Stopped.exception _ (.refl m)
    · exact Did.write _ _ rfl rfl
  case bgezal | bltzal =>
    rw [execute]
    simp only
    split_ifs <;> exact Did.write _ _ rfl rfl
  case beq | bgez | bgtz | blez | bltz | bne =>
    rw [execute]
    simp only
    split_ifs <;> exact Did.branch _ rfl
  case j | jr => exact Did.branch _ rfl
  case div =>
    rw [execute]
    simp only
    split_ifs with hzero htrap
    · exact Did.setHiLo _ _ rfl
    · exact Stopped.trap rfl htrap.1 htrap.2
    · exact Did.setHiLo _ _ rfl
  case divu =>
    rw [execute]
    simp only
    split_ifs <;> exact Did.setHiLo _ _ rfl
  case mthi | mtlo | mult | multu => exact Did.setHiLo _ _ rfl
  case lb | lbu =>
    rw [execute]
    simp only
    exact load_ends rfl rfl rfl (.inl rfl) _
  case lh | lhu =>
    rw [execute]
    simp only
    split_ifs
    · exact Stopped.exception _ (.refl m)
    · exact load_ends rfl rfl rfl (.inr (.inl rfl)) _
  case lw =>
    rw [execute]
    simp only
    split_ifs
    · exact Stopped.exception _ (.refl m)
    · exact load_ends rfl rfl rfl (.inr (.inr rfl)) Prod.fst
  case lwl | lwr =>
    rw [execute]
    simp only
    split_ifs with halign
    · exact Stopped.unaligned rfl halign
    · exact load_ends rfl rfl rfl (.inr (.inr rfl)) _
  case sb => exact store_ends (.refl m) rfl rfl (.inl rfl)
  case sh => exact store_ends (.refl m) rfl rfl (.inr (.inl rfl))
  case sw => exact store_ends (.refl m) rfl rfl (.inr (.inr rfl))
  case swl | swr =>
    rw [execute]
    simp only
    split_ifs with halign
    · exact Stopped.unaligned rfl halign
    · rw [aligned_and_not (not_not.mp halign)]
      exact readStore_ends rfl rfl _
  case syscall | unimp | res => exact Stopped.exception _ (.refl m)
  case rfe => exact Stopped.unknown (.inl rfl)
  case special => exact Stopped.unknown (.inr (.inl rfl))
  case bcond => exact Stopped.unknown (.inr (.inr rfl))

end Coursework.Nachos.Mipssim
