import Mathlib.Algebra.Order.Ring.Int
import Mathlib.Data.Int.Notation
import Mathlib.Data.Nat.Notation
import Mathlib.Logic.Function.Basic
import Mathlib.Tactic.SplitIfs

/-!
# Arithmetic of the MIPS I architecture

The instructions that compute in registers: how they are encoded in a word, and what they write.
Sums and quotients are those of the integers that the words stand for, and only `ADD`, `ADDI` and
`SUB` see to it that the result fits.
-/
namespace Coursework.Mips

abbrev Word := BitVec 32

/-- The number of a general register. -/
abbrev Reg := BitVec 5

/-- From the registers `rs` and `rt`. -/
inductive RegOp where
  | add
  | addu
  | sub
  | subu
  | and
  | or
  | xor
  | nor
  | slt
  | sltu
  | sllv
  | srlv
  | srav
  deriving DecidableEq

/-- From the register `rs` and an immediate. -/
inductive ImmOp where
  | addi
  | addiu
  | slti
  | sltiu
  | andi
  | ori
  | xori
  | lui
  deriving DecidableEq

/-- From the register `rt` and an amount. -/
inductive ShiftOp where
  | sll
  | srl
  | sra
  deriving DecidableEq

inductive Arith where
  | reg (op : RegOp) (rd rs rt : Reg)
  | imm (op : ImmOp) (rt rs : Reg) (immediate : BitVec 16)
  | shift (op : ShiftOp) (rd rt : Reg) (shamt : BitVec 5)
  | mfhi (rd : Reg)
  | mflo (rd : Reg)
  | mthi (rs : Reg)
  | mtlo (rs : Reg)
  | div (rs rt : Reg)
  | divu (rs rt : Reg)
  deriving DecidableEq

/-! ### Encoding -/

def opField (w : Word) : BitVec 6 := w.extractLsb' 26 6
def rsField (w : Word) : Reg := w.extractLsb' 21 5
def rtField (w : Word) : Reg := w.extractLsb' 16 5
def rdField (w : Word) : Reg := w.extractLsb' 11 5
def shamtField (w : Word) : BitVec 5 := w.extractLsb' 6 5
def functField (w : Word) : BitVec 6 := w.extractLsb' 0 6
def immediateField (w : Word) : BitVec 16 := w.extractLsb' 0 16

/-- Instructions whose opcode is `SPECIAL`. -/
def decodeSpecial (w : Word) : Option Arith :=
  let reg (op : RegOp) := some (Arith.reg op (rdField w) (rsField w) (rtField w))
  let shift (op : ShiftOp) := some (Arith.shift op (rdField w) (rtField w) (shamtField w))
  match (functField w).toNat with
  | 0x00 => shift .sll
  | 0x02 => shift .srl
  | 0x03 => shift .sra
  | 0x04 => reg .sllv
  | 0x06 => reg .srlv
  | 0x07 => reg .srav
  | 0x10 => some (.mfhi (rdField w))
  | 0x11 => some (.mthi (rsField w))
  | 0x12 => some (.mflo (rdField w))
  | 0x13 => some (.mtlo (rsField w))
  | 0x1a => some (.div (rsField w) (rtField w))
  | 0x1b => some (.divu (rsField w) (rtField w))
  | 0x20 => reg .add
  | 0x21 => reg .addu
  | 0x22 => reg .sub
  | 0x23 => reg .subu
  | 0x24 => reg .and
  | 0x25 => reg .or
  | 0x26 => reg .xor
  | 0x27 => reg .nor
  | 0x2a => reg .slt
  | 0x2b => reg .sltu
  | _ => none

/-- `none` for an instruction that does not compute in registers. -/
def decode (w : Word) : Option Arith :=
  let imm (op : ImmOp) := some (Arith.imm op (rtField w) (rsField w) (immediateField w))
  match (opField w).toNat with
  | 0x00 => decodeSpecial w
  | 0x08 => imm .addi
  | 0x09 => imm .addiu
  | 0x0a => imm .slti
  | 0x0b => imm .sltiu
  | 0x0c => imm .andi
  | 0x0d => imm .ori
  | 0x0e => imm .xori
  | 0x0f => imm .lui
  | _ => none

/-! ### Meaning -/

/-- The integer fits a word with a sign. -/
abbrev Fits (x : ℤ) : Prop := -2 ^ 31 ≤ x ∧ x < 2 ^ 31

/-- A result that must fit; `none` is an overflow. -/
def checked (x : ℤ) : Option Word := if Fits x then some (.ofInt 32 x) else none

def ofBool (b : Bool) : Word := if b then 1 else 0

def RegOp.eval (op : RegOp) (s t : Word) : Option Word :=
  match op with
  | .add => checked (s.toInt + t.toInt)
  | .addu => some (.ofNat 32 (s.toNat + t.toNat))
  | .sub => checked (s.toInt - t.toInt)
  | .subu => some (.ofInt 32 (s.toNat - t.toNat))
  | .and => some (s &&& t)
  | .or => some (s ||| t)
  | .xor => some (s ^^^ t)
  | .nor => some (~~~(s ||| t))
  | .slt => some (ofBool (s.toInt < t.toInt))
  | .sltu => some (ofBool (s.toNat < t.toNat))
  | .sllv => some (t <<< (s.toNat % 32))
  | .srlv => some (t >>> (s.toNat % 32))
  | .srav => some (t.sshiftRight (s.toNat % 32))

def ImmOp.eval (op : ImmOp) (s : Word) (immediate : BitVec 16) : Option Word :=
  match op with
  | .addi => checked (s.toInt + immediate.toInt)
  | .addiu => some (.ofInt 32 (s.toInt + immediate.toInt))
  | .slti => some (ofBool (s.toInt < immediate.toInt))
  | .sltiu => some (ofBool (s.toNat < (immediate.signExtend 32).toNat))
  | .andi => some (s &&& immediate.setWidth 32)
  | .ori => some (s ||| immediate.setWidth 32)
  | .xori => some (s ^^^ immediate.setWidth 32)
  | .lui => some (immediate ++ 0#16)

def ShiftOp.eval (op : ShiftOp) (t : Word) (shamt : ℕ) : Word :=
  match op with
  | .sll => t <<< shamt
  | .srl => t >>> shamt
  | .sra => t.sshiftRight shamt

/-- The registers of the architecture. -/
structure Regs where
  gpr : Reg → Word
  hi : Word
  lo : Word

/-- Register 0 stays zero. -/
def Regs.write (R : Regs) (r : Reg) (v : Word) : Regs :=
  { R with gpr := Function.update (Function.update R.gpr r v) 0 0 }

/-- The registers after an instruction; `none` is an overflow exception. -/
def Arith.exec (R : Regs) : Arith → Option Regs
  | .reg op rd rs rt => (op.eval (R.gpr rs) (R.gpr rt)).map (R.write rd)
  | .imm op rt rs immediate => (op.eval (R.gpr rs) immediate).map (R.write rt)
  | .shift op rd rt shamt => some (R.write rd (op.eval (R.gpr rt) shamt.toNat))
  | .mfhi rd => some (R.write rd R.hi)
  | .mflo rd => some (R.write rd R.lo)
  | .mthi rs => some { R.write 0 0 with hi := R.gpr rs }
  | .mtlo rs => some { R.write 0 0 with lo := R.gpr rs }
  | .div rs rt => some { R.write 0 0 with
      lo := .ofInt 32 ((R.gpr rs).toInt.tdiv (R.gpr rt).toInt)
      hi := .ofInt 32 ((R.gpr rs).toInt.tmod (R.gpr rt).toInt) }
  | .divu rs rt => some { R.write 0 0 with
      lo := .ofNat 32 ((R.gpr rs).toNat / (R.gpr rt).toNat)
      hi := .ofNat 32 ((R.gpr rs).toNat % (R.gpr rt).toNat) }

/-- Divisions whose result the architecture defines. -/
def Arith.Defined (R : Regs) : Arith → Prop
  | .div rs rt => R.gpr rt ≠ 0 ∧ Fits ((R.gpr rs).toInt.tdiv (R.gpr rt).toInt)
  | .divu _ rt => R.gpr rt ≠ 0
  | _ => True

end Coursework.Mips
