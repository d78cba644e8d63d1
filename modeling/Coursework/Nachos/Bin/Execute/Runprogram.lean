import Coursework.Lib.Memory
import Coursework.Nachos.Bin.Execute

/-!
# The other interpreter

`runprogram` decodes a word where it executes it, and a branch changes `npc` behind the next
instruction. Registers are written at once, loads too. The array `mem` stands at `memoffset` in
the addresses of the program. What C leaves undefined has no result: a shift by 32 and more, a
division that has no quotient, and an address outside `mem`.
-/
namespace Coursework.Nachos.Execute
open Mips (Word Reg)

def memSize : ℕ := 2 ^ 24
def memOffset : ℕ := 0x10000000

/-- The global variables, and `pc` and `npc` of `runprogram`. -/
structure Cpu where
  reg : Reg → Word
  hi : Word
  lo : Word
  pc : Word
  npc : Word
  mem : Mem

/-- Where the loop is left. -/
inductive Stop where
  /-- `exit(2)` -/
  | exit
  /-- `system_trap` is called, for `I_SYSCALL` and `I_BREAK` -/
  | system (c : Cpu)
  | undefined

/-! ### Fields of an instruction -/

def rd (i : Word) : Reg := (i.sshiftRight 11 &&& 0x1f).setWidth 5
def rt (i : Word) : Reg := (i.sshiftRight 16 &&& 0x1f).setWidth 5
def rs (i : Word) : Reg := (i.sshiftRight 21 &&& 0x1f).setWidth 5
def shamt (i : Word) : Word := i.sshiftRight 6 &&& 0x1f
def immed (i : Word) : Word := if i &&& 0x8000 ≠ 0 then i ||| 0xffff8000 else i &&& 0x7fff

namespace Cpu

/-- `Reg[r] = v`. -/
def set (c : Cpu) (r : Reg) (v : Word) : Cpu := { c with reg := Function.update c.reg r v }

/-! ### Memory -/

/-- The place in `mem`. -/
def place (addr : Word) (size : ℕ) : Except Stop ℕ :=
  if memOffset ≤ addr.toNat ∧ addr.toNat + size ≤ memOffset + memSize then
    .ok (addr.toNat - memOffset)
  else .error .undefined

def fetch (c : Cpu) (addr : Word) : Except Stop Word := do
  let p ← place addr 4
  pure (c.mem.word p)

def sfetch (c : Cpu) (addr : Word) : Except Stop Word := do
  let p ← place addr 2
  pure (((c.mem.word p).setWidth 16).signExtend 32)

def usfetch (c : Cpu) (addr : Word) : Except Stop Word := do
  let p ← place addr 2
  pure (((c.mem.word p).setWidth 16).setWidth 32)

def cfetch (c : Cpu) (addr : Word) : Except Stop Word := do
  let p ← place addr 1
  pure ((c.mem p).toBitVec.signExtend 32)

def ucfetch (c : Cpu) (addr : Word) : Except Stop Word := do
  let p ← place addr 1
  pure ((c.mem p).toBitVec.setWidth 32)

/-- `store`, `sstore` and `cstore`, by the size. -/
def store (c : Cpu) (addr : Word) (size : ℕ) (i : Word) : Except Stop Cpu := do
  let p ← place addr size
  pure { c with mem := c.mem.copy p size (byteOf i) }

/-! ### Instructions -/

/-- The target of a branch that is taken. -/
def branch (c : Cpu) (instr xpc : Word) (taken : Bool) : Cpu :=
  if taken then { c with npc := xpc + 4 + immed instr <<< 2 } else c

/-- The target of a jump. -/
def jump (c : Cpu) (instr xpc : Word) : Cpu :=
  { c with npc := xpc &&& 0xf0000000 ||| (instr &&& 0x03ffffff) <<< 2 }

/-- The case `I_SPECIAL`. -/
def special (c : Cpu) (instr xpc : Word) : Except Stop Cpu :=
  let s := c.reg (rs instr)
  let t := c.reg (rt instr)
  match (instr &&& 0x3f).toNat with
  | 0x00 => pure (c.set (rd instr) (t <<< (shamt instr).toNat))
  | 0x02 => pure (c.set (rd instr) (t >>> (shamt instr).toNat))
  | 0x03 => pure (c.set (rd instr) (t.sshiftRight (shamt instr).toNat))
  | 0x04 => if s.toNat < 32 then pure (c.set (rd instr) (t <<< s.toNat)) else throw .undefined
  | 0x06 => if s.toNat < 32 then pure (c.set (rd instr) (t >>> s.toNat)) else throw .undefined
  | 0x07 =>
    if s.toNat < 32 then pure (c.set (rd instr) (t.sshiftRight s.toNat)) else throw .undefined
  | 0x08 => pure { c with npc := s }
  | 0x09 => pure ({ c with npc := s }.set (rd instr) (xpc + 8))
  | 0x0c | 0x0d => throw (.system c)
  | 0x10 => pure (c.set (rd instr) c.hi)
  | 0x11 => pure { c with hi := s }
  | 0x12 => pure (c.set (rd instr) c.lo)
  | 0x13 => pure { c with lo := s }
  | 0x18 => pure { c with hi := (mult s t).1, lo := (mult s t).2 }
  | 0x19 => pure { c with hi := (multu s t).1, lo := (multu s t).2 }
  | 0x1a =>
    -- the quotient of the least `int` and -1 does not fit
    if t = 0 ∨ s = 0x80000000 ∧ t = -1 then throw .undefined
    else pure { c with lo := s.sdiv t, hi := s.srem t }
  | 0x1b => if t = 0 then throw .undefined else pure { c with lo := s / t, hi := s % t }
  | 0x20 | 0x21 => pure (c.set (rd instr) (s + t))
  | 0x22 | 0x23 => pure (c.set (rd instr) (s - t))
  | 0x24 => pure (c.set (rd instr) (s &&& t))
  | 0x25 => pure (c.set (rd instr) (s ||| t))
  | 0x26 => pure (c.set (rd instr) (s ^^^ t))
  | 0x27 => pure (c.set (rd instr) (~~~(s ||| t)))
  | 0x2a => pure (c.set (rd instr) (if s.toInt < t.toInt then 1 else 0))
  | 0x2b => pure (c.set (rd instr) (if s < t then 1 else 0))
  | _ => throw .exit

/-- The case `I_BCOND`: the register `rt` encodes the instruction. -/
def bcond (c : Cpu) (instr xpc : Word) : Except Stop Cpu :=
  match (rt instr).toNat with
  | 0x00 => pure (c.branch instr xpc ((c.reg (rs instr)).toInt < 0))
  | 0x01 => pure (c.branch instr xpc ((c.reg (rs instr)).toInt ≥ 0))
  | 0x10 =>
    let c := c.set 31 (xpc + 8)
    pure (c.branch instr xpc ((c.reg (rs instr)).toInt < 0))
  | 0x11 =>
    let c := c.set 31 (xpc + 8)
    pure (c.branch instr xpc ((c.reg (rs instr)).toInt ≥ 0))
  | _ => throw .exit

/-- The `switch` over the opcodes. -/
def instruction (c : Cpu) (instr xpc : Word) : Except Stop Cpu :=
  let s := c.reg (rs instr)
  let t := c.reg (rt instr)
  let i := s + immed instr
  match (instr.sshiftRight 26 &&& 0x3f).toNat with
  | 0x00 => c.special instr xpc
  | 0x01 => c.bcond instr xpc
  | 0x02 => pure (c.jump instr xpc)
  | 0x03 => pure ((c.set 31 (xpc + 8)).jump instr xpc)
  | 0x04 => pure (c.branch instr xpc (s = t))
  | 0x05 => pure (c.branch instr xpc (s ≠ t))
  | 0x06 => pure (c.branch instr xpc (s.toInt ≤ 0))
  | 0x07 => pure (c.branch instr xpc (s.toInt > 0))
  | 0x08 | 0x09 => pure (c.set (rt instr) (s + immed instr))
  | 0x0a => pure (c.set (rt instr) (if s.toInt < (immed instr).toInt then 1 else 0))
  | 0x0b => pure (c.set (rt instr) (if s < immed instr then 1 else 0))
  | 0x0c => pure (c.set (rt instr) (s &&& immed instr))
  | 0x0d => pure (c.set (rt instr) (s ||| immed instr))
  | 0x0e => pure (c.set (rt instr) (s ^^^ immed instr))
  | 0x0f => pure (c.set (rt instr) (instr <<< 16))
  | 0x20 => do
    let v ← c.cfetch i
    pure (c.set (rt instr) v)
  | 0x21 => do
    let v ← c.sfetch i
    pure (c.set (rt instr) v)
  | 0x22 => do
    -- the sign of -1 is shifted in, so that no byte is cleared
    let kept := t &&& (-1 : Word).sshiftRight (8 * (-i &&& 0x3).toNat)
    let v ← c.fetch (i &&& 0xfffffffc)
    pure (c.set (rt instr) (kept ||| v <<< (8 * (i &&& 0x3).toNat)))
  | 0x23 => do
    let v ← c.fetch i
    pure (c.set (rt instr) v)
  | 0x24 => do
    let v ← c.ucfetch i
    pure (c.set (rt instr) v)
  | 0x25 => do
    let v ← c.usfetch i
    pure (c.set (rt instr) v)
  | 0x26 => do
    let kept := t &&& (-1 : Word) <<< (8 * (i &&& 0x3).toNat)
    let kept := if i &&& 0x3 = 0 then 0 else kept
    let v ← c.fetch (i &&& 0xfffffffc)
    pure (c.set (rt instr) (kept ||| v.sshiftRight (8 * (-i &&& 0x3).toNat)))
  | 0x28 => c.store i 1 t
  | 0x29 => c.store i 2 t
  | 0x2b => c.store i 4 t
  -- `SWL`, `SWR`, the coprocessors and unknown opcodes
  | _ => throw .exit

/-- One round of the loop. -/
def step (c : Cpu) : Except Stop Cpu := do
  let instr ← c.fetch c.pc
  let next := { c with pc := c.npc, npc := c.npc + 4 }.set 0 0
  if instr = 0 then pure next else next.instruction instr c.pc

end Cpu
end Coursework.Nachos.Execute
