import Coursework.Nachos.Mipssim

/-!
# `OneInstruction`

What the `switch` over the opcodes does to the machine, and the end of an instruction.
-/
namespace Coursework.Nachos.Mipssim
open Mips (Word Reg)

/-- `int` is read as the bits of the word. -/
def signBit : Word := 0x80000000

def R31 : Reg := 31

def indexToAddr (x : Word) : Word := x <<< 2

/-- The loop of `Mult`, for the rounds that are left. -/
def multLoop : ℕ → (a bHi bLo hi lo : Word) → Word × Word
  | 0, _, _, _, hi, lo => (hi, lo)
  | rounds + 1, a, bHi, bLo, hi, lo =>
    let lo' := if a &&& 1 ≠ 0 then lo + bLo else lo
    let hi' := if a &&& 1 ≠ 0 then (if lo' < bLo then hi + 1 else hi) + bHi else hi
    if a &&& 1 ≠ 0 ∧ a &&& 0xfffffffe = 0 then (hi', lo')
    else
      let bHi := bHi <<< 1
      let bHi := if bLo &&& 0x80000000 ≠ 0 then bHi ||| 1 else bHi
      multLoop rounds (a.sshiftRight 1) bHi (bLo <<< 1) hi' lo'

/-- The words `*hiPtr` and `*loPtr`. -/
def mult (a b : Word) (signedArith : Bool) : Word × Word :=
  if a = 0 ∨ b = 0 then (0, 0)
  else
    let negative := signedArith && (decide (a.toInt < 0) ^^ decide (b.toInt < 0))
    let a := if signedArith ∧ a.toInt < 0 then -a else a
    let b := if signedArith ∧ b.toInt < 0 then -b else b
    let (hi, lo) := multLoop 32 a 0 b 0 0
    if negative then
      let lo := ~~~lo + 1
      (if lo = 0 then ~~~hi + 1 else ~~~hi, lo)
    else (hi, lo)

/-- The machine behind the `switch`, and the local variables that are used there. -/
structure Executed where
  machine : Machine
  pcAfter : Word
  nextLoadReg : Reg
  nextLoadValue : Word

namespace Machine

/-- There is no branch and no load. -/
def next (m : Machine) : Executed := ⟨m, m.registers.nextPC + 4, 0, 0⟩

def branch (m : Machine) (i : Instruction) : Executed :=
  { m.next with pcAfter := m.registers.nextPC + indexToAddr i.extra }

def load (m : Machine) (r : Reg) (value : Word) : Executed :=
  { m.next with nextLoadReg := r, nextLoadValue := value }

def setHiLo (m : Machine) (hi lo : Word) : Machine :=
  { m with registers.hi := hi, registers.lo := lo }

/-- The value that a load of register `r` will leave there. -/
def pending (m : Machine) (r : Reg) : Word :=
  if m.registers.loadReg = r then m.registers.loadValue else m.registers.gpr r

end Machine

/-- The `switch` over the opcodes. -/
def execute (i : Instruction) (m : Machine) : Except Stop Executed :=
  let rs := m.registers.gpr i.rs
  let rt := m.registers.gpr i.rt
  let tmp := rs + i.extra
  match i.opCode with
  | .add =>
    let sum := rs + rt
    if ¬ (rs ^^^ rt) &&& signBit ≠ 0 ∧ (rs ^^^ sum) &&& signBit ≠ 0 then
      throw (m.raiseException .overflow 0)
    else pure (m.set i.rd sum).next
  | .addi =>
    let sum := rs + i.extra
    if ¬ (rs ^^^ i.extra) &&& signBit ≠ 0 ∧ (i.extra ^^^ sum) &&& signBit ≠ 0 then
      throw (m.raiseException .overflow 0)
    else pure (m.set i.rt sum).next
  | .addiu => pure (m.set i.rt (rs + i.extra)).next
  | .addu => pure (m.set i.rd (rs + rt)).next
  | .and => pure (m.set i.rd (rs &&& rt)).next
  | .andi => pure (m.set i.rt (rs &&& (i.extra &&& 0xffff))).next
  | .beq => pure (if rs = rt then m.branch i else m.next)
  | .bgezal =>
    let m := m.set R31 (m.registers.nextPC + 4)
    pure (if ¬ m.registers.gpr i.rs &&& signBit ≠ 0 then m.branch i else m.next)
  | .bgez => pure (if ¬ rs &&& signBit ≠ 0 then m.branch i else m.next)
  | .bgtz => pure (if rs.toInt > 0 then m.branch i else m.next)
  | .blez => pure (if rs.toInt ≤ 0 then m.branch i else m.next)
  | .bltzal =>
    let m := m.set R31 (m.registers.nextPC + 4)
    pure (if m.registers.gpr i.rs &&& signBit ≠ 0 then m.branch i else m.next)
  | .bltz => pure (if rs &&& signBit ≠ 0 then m.branch i else m.next)
  | .bne => pure (if rs ≠ rt then m.branch i else m.next)
  | .div =>
    if rt = 0 then pure (m.setHiLo 0 0).next
    -- the quotient of the least `int` and -1 does not fit
    else if rs = signBit ∧ rt = -1 then throw .hostTrap
    else pure (m.setHiLo (rs.srem rt) (rs.sdiv rt)).next
  | .divu =>
    if rt = 0 then pure (m.setHiLo 0 0).next
    else pure (m.setHiLo (rs % rt) (rs / rt)).next
  | .jal =>
    let m := m.set R31 (m.registers.nextPC + 4)
    pure { m.next with pcAfter := m.next.pcAfter &&& 0xf0000000 ||| indexToAddr i.extra }
  | .j => pure { m.next with pcAfter := m.next.pcAfter &&& 0xf0000000 ||| indexToAddr i.extra }
  | .jalr =>
    let m := m.set i.rd (m.registers.nextPC + 4)
    pure { m.next with pcAfter := m.registers.gpr i.rs }
  | .jr => pure { m.next with pcAfter := rs }
  | .lb | .lbu => do
    let (value, m) ← m.readMem tmp 1
    let value := if value &&& 0x80 ≠ 0 ∧ i.opCode = .lb then value ||| 0xffffff00
      else value &&& 0xff
    pure (m.load i.rt value)
  | .lh | .lhu => do
    if tmp &&& 0x1 ≠ 0 then throw (m.raiseException .addressError tmp)
    let (value, m) ← m.readMem tmp 2
    let value := if value &&& 0x8000 ≠ 0 ∧ i.opCode = .lh then value ||| 0xffff0000
      else value &&& 0xffff
    pure (m.load i.rt value)
  | .lui => pure (m.set i.rt (i.extra <<< 16)).next
  | .lw => do
    if tmp &&& 0x3 ≠ 0 then throw (m.raiseException .addressError tmp)
    let (value, m) ← m.readMem tmp 4
    pure (m.load i.rt value)
  | .lwl => do
    if tmp &&& 0x3 ≠ 0 then throw .assertFailed
    let (value, m) ← m.readMem tmp 4
    let nextLoadValue := match (tmp &&& 0x3).toNat with
      | 0 => value
      | 1 => m.pending i.rt &&& 0xff ||| value <<< 8
      | 2 => m.pending i.rt &&& 0xffff ||| value <<< 16
      | _ => m.pending i.rt &&& 0xffffff ||| value <<< 24
    pure (m.load i.rt nextLoadValue)
  | .lwr => do
    if tmp &&& 0x3 ≠ 0 then throw .assertFailed
    let (value, m) ← m.readMem tmp 4
    let nextLoadValue := match (tmp &&& 0x3).toNat with
      | 0 => m.pending i.rt &&& 0xffffff00 ||| value.sshiftRight 24 &&& 0xff
      | 1 => m.pending i.rt &&& 0xffff0000 ||| value.sshiftRight 16 &&& 0xffff
      | 2 => m.pending i.rt &&& 0xff000000 ||| value.sshiftRight 8 &&& 0xffffff
      | _ => value
    pure (m.load i.rt nextLoadValue)
  | .mfhi => pure (m.set i.rd m.registers.hi).next
  | .mflo => pure (m.set i.rd m.registers.lo).next
  | .mthi => pure (m.setHiLo rs m.registers.lo).next
  | .mtlo => pure (m.setHiLo m.registers.hi rs).next
  | .mult =>
    let (hi, lo) := mult rs rt true
    pure (m.setHiLo hi lo).next
  | .multu =>
    let (hi, lo) := mult rs rt false
    pure (m.setHiLo hi lo).next
  | .nor => pure (m.set i.rd (~~~(rs ||| rt))).next
  -- `rs` on both sides
  | .or => pure (m.set i.rd (rs ||| rs)).next
  | .ori => pure (m.set i.rt (rs ||| (i.extra &&& 0xffff))).next
  | .sb => do
    let m ← m.writeMem tmp 1 rt
    pure m.next
  | .sh => do
    let m ← m.writeMem tmp 2 rt
    pure m.next
  | .sll => pure (m.set i.rd (rt <<< i.extra.toNat)).next
  | .sllv => pure (m.set i.rd (rt <<< (rs &&& 0x1f).toNat)).next
  | .slt => pure (m.set i.rd (if rs.toInt < rt.toInt then 1 else 0)).next
  | .slti => pure (m.set i.rt (if rs.toInt < i.extra.toInt then 1 else 0)).next
  | .sltiu => pure (m.set i.rt (if rs < i.extra then 1 else 0)).next
  | .sltu => pure (m.set i.rd (if rs < rt then 1 else 0)).next
  | .sra => pure (m.set i.rd (rt.sshiftRight i.extra.toNat)).next
  | .srav => pure (m.set i.rd (rt.sshiftRight (rs &&& 0x1f).toNat)).next
  -- `tmp` is an `int`, so the sign is shifted in
  | .srl => pure (m.set i.rd (rt.sshiftRight i.extra.toNat)).next
  | .srlv => pure (m.set i.rd (rt.sshiftRight (rs &&& 0x1f).toNat)).next
  | .sub =>
    let diff := rs - rt
    if (rs ^^^ rt) &&& signBit ≠ 0 ∧ (rs ^^^ diff) &&& signBit ≠ 0 then
      throw (m.raiseException .overflow 0)
    else pure (m.set i.rd diff).next
  | .subu => pure (m.set i.rd (rs - rt)).next
  | .sw => do
    let m ← m.writeMem tmp 4 rt
    pure m.next
  | .swl => do
    if tmp &&& 0x3 ≠ 0 then throw .assertFailed
    let (value, m) ← m.readMem (tmp &&& ~~~0x3) 4
    let value := match (tmp &&& 0x3).toNat with
      | 0 => rt
      | 1 => value &&& 0xff000000 ||| rt.sshiftRight 8 &&& 0xffffff
      | 2 => value &&& 0xffff0000 ||| rt.sshiftRight 16 &&& 0xffff
      | _ => value &&& 0xffffff00 ||| rt.sshiftRight 24 &&& 0xff
    let m ← m.writeMem (tmp &&& ~~~0x3) 4 value
    pure m.next
  | .swr => do
    if tmp &&& 0x3 ≠ 0 then throw .assertFailed
    let (value, m) ← m.readMem (tmp &&& ~~~0x3) 4
    let value := match (tmp &&& 0x3).toNat with
      | 0 => value &&& 0xffffff ||| rt <<< 24
      | 1 => value &&& 0xffff ||| rt <<< 16
      | 2 => value &&& 0xff ||| rt <<< 8
      | _ => rt
    let m ← m.writeMem (tmp &&& ~~~0x3) 4 value
    pure m.next
  | .syscall => throw (m.raiseException .syscall 0)
  | .xor => pure (m.set i.rd (rs ^^^ rt)).next
  | .xori => pure (m.set i.rt (rs ^^^ (i.extra &&& 0xffff))).next
  | .res | .unimp => throw (m.raiseException .illegalInstr 0)
  | .rfe | .special | .bcond => throw .assertFailed

/-- The end of an instruction. -/
def Executed.commit (x : Executed) : Machine :=
  let m := x.machine.delayedLoad x.nextLoadReg x.nextLoadValue
  { m with
    registers.prevPC := m.registers.pc
    registers.pc := m.registers.nextPC
    registers.nextPC := x.pcAfter }

/-- The word at `PCReg`. -/
def Machine.fetch (m : Machine) : Except Stop (Word × Machine) := m.readMem m.registers.pc 4

def oneInstruction (m : Machine) : Except Stop Machine := do
  let (raw, m) ← m.fetch
  let x ← execute (decode raw) m
  pure x.commit

end Coursework.Nachos.Mipssim
