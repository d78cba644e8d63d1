import Mathlib.Data.Nat.Notation
import Mathlib.Logic.Function.Basic
import Mathlib.Tactic.SplitIfs

/-!
# A little of the 80386

Moves of words between registers and memory, pushes and the return. Memory has a word at each
address that is a multiple of four. A procedure that follows the calling convention returns behind
its call with the stack pointer and the registers of its caller.
-/
namespace Coursework.I386

abbrev Word := BitVec 32

inductive Reg where
  | eax | ebx | ecx | edx | esi | edi | ebp | esp
  deriving DecidableEq

structure State where
  reg : Reg → Word
  eip : Word
  mem : Word → Word

namespace State

def setReg (s : State) (r : Reg) (v : Word) : State := { s with reg := Function.update s.reg r v }

def store (s : State) (addr v : Word) : State := { s with mem := Function.update s.mem addr v }

@[simp] theorem setReg_reg (s : State) (r : Reg) (v : Word) :
    (s.setReg r v).reg = Function.update s.reg r v := rfl

@[simp] theorem setReg_eip (s : State) (r : Reg) (v : Word) : (s.setReg r v).eip = s.eip := rfl

@[simp] theorem setReg_mem (s : State) (r : Reg) (v : Word) : (s.setReg r v).mem = s.mem := rfl

@[simp] theorem store_reg (s : State) (addr v : Word) : (s.store addr v).reg = s.reg := rfl

@[simp] theorem store_eip (s : State) (addr v : Word) : (s.store addr v).eip = s.eip := rfl

@[simp] theorem store_mem (s : State) (addr v : Word) :
    (s.store addr v).mem = Function.update s.mem addr v := rfl

end State

/-- A register, a word in memory, or a variable. -/
inductive Operand where
  | reg (r : Reg)
  | mem (offset : Word) (base : Reg)
  | var (addr : Word)

def Operand.read (s : State) : Operand → Word
  | .reg r => s.reg r
  | .mem offset base => s.mem (s.reg base + offset)
  | .var addr => s.mem addr

def Operand.write (s : State) (v : Word) : Operand → State
  | .reg r => s.setReg r v
  | .mem offset base => s.store (s.reg base + offset) v
  | .var addr => s.store addr v

inductive Insn where
  | movl (src dst : Operand)
  | pushl (r : Reg)
  | ret

/-- The word goes below the top of the stack. -/
def push (s : State) (v : Word) : State := (s.setReg .esp (s.reg .esp - 4)).store (s.reg .esp - 4) v

def exec (s : State) : Insn → State
  | .movl src dst => dst.write s (src.read s)
  | .pushl r => push s (s.reg r)
  | .ret => { s.setReg .esp (s.reg .esp + 4) with eip := s.mem (s.reg .esp) }

def run (s : State) (code : List Insn) : State := code.foldl exec s

@[simp] theorem run_nil (s : State) : run s [] = s := rfl

@[simp] theorem run_cons (s : State) (i : Insn) (code : List Insn) :
    run s (i :: code) = run (exec s i) code := rfl

theorem run_append (s : State) (code code' : List Insn) :
    run s (code ++ code') = run (run s code) code' := List.foldl_append

/-! ### Procedures -/

/-- The state in which the procedure is entered that a register points to. -/
def call (s : State) (r : Reg) (returnAddress : Word) : State :=
  { push s returnAddress with eip := s.reg r }

/-- A procedure that was entered in state `s` returns to its caller, with the registers that belong
to it. -/
structure Returns (s s' : State) : Prop where
  eip : s'.eip = s.mem (s.reg .esp)
  esp : s'.reg .esp = s.reg .esp + 4
  kept {r : Reg} (hr : r = .ebx ∨ r = .esi ∨ r = .edi ∨ r = .ebp) : s'.reg r = s.reg r

section
variable {s s' : State} {q r : Reg} {returnAddress : Word}

theorem call_reg (hr : r ≠ .esp) : (call s q returnAddress).reg r = s.reg r :=
  Function.update_of_ne hr _ _

theorem call_esp : (call s q returnAddress).reg .esp = s.reg .esp - 4 := by
  simp [call, push]

theorem call_mem {a : Word} (ha : a ≠ s.reg .esp - 4) :
    (call s q returnAddress).mem a = s.mem a :=
  Function.update_of_ne ha _ _

theorem Returns.call_esp (h : Returns (call s q returnAddress) s') :
    s'.reg .esp = s.reg .esp := by
  rw [h.esp, I386.call_esp]
  exact BitVec.sub_add_cancel _ _

theorem Returns.call_kept (h : Returns (call s q returnAddress) s')
    (hr : r = .ebx ∨ r = .esi ∨ r = .edi ∨ r = .ebp) : s'.reg r = s.reg r := by
  rw [h.kept hr, call_reg]
  rcases hr with rfl | rfl | rfl | rfl <;> decide

end

end Coursework.I386
