import Coursework.Nachos.Mipssim.Steps

/-!
# Precise exceptions

When the kernel is entered, the machine is as before the instruction, but for the pending load,
which is carried out, and the use and dirty bits. The instruction can be started again.
-/
namespace Coursework.Nachos.Mipssim
open Mips (Word Reg)

/-- The address that the instruction at the program counter reports when it raises an exception. -/
def Machine.reported (m : Machine) : Word :=
  match m.fetch with
  | .ok (w, m₁) => (decode w).reported m₁
  | .error _ => m.registers.pc

/-- The kernel is entered in `m'`, in the middle of an instruction that started in `m`. -/
structure Entered (m m' : Machine) (addr : Word) : Prop extends m.SameMemory m' where
  pc : m'.registers.pc = m.registers.pc
  nextPC : m'.registers.nextPC = m.registers.nextPC
  prevPC : m'.registers.prevPC = m.registers.prevPC
  hi : m'.registers.hi = m.registers.hi
  lo : m'.registers.lo = m.registers.lo
  gpr : m'.registers.gpr = Function.update
    (Function.update m.registers.gpr m.registers.loadReg m.registers.loadValue) 0 0
  loadReg : m'.registers.loadReg = 0
  badVAddr : m'.registers.badVAddr = addr

variable {m m' m₁ : Machine} {addr w : Word} {stop : Stop} {which : ExceptionType}

theorem raise_entered (h : m.Alike m') (addr : Word) : Entered m (m'.raise addr) addr where
  mainMemory := h.mainMemory
  tlb := h.tlb
  pageTable := h.pageTable
  pc := (congrArg Registers.pc h.registers :)
  nextPC := (congrArg Registers.nextPC h.registers :)
  prevPC := (congrArg Registers.prevPC h.registers :)
  hi := (congrArg Registers.hi h.registers :)
  lo := (congrArg Registers.lo h.registers :)
  gpr := by
    rw [← h.registers]
    rfl
  loadReg := rfl
  badVAddr := rfl

/-- How an instruction stops, from the fetch on. -/
theorem oneInstruction_stops (h : oneInstruction m = .error stop) :
    m.fetch = .error stop ∨ ∃ w m₁, m.fetch = .ok (w, m₁) ∧ Stopped (decode w) m₁ stop := by
  rw [oneInstruction] at h
  cases hfetch : m.fetch with
  | error e =>
    rw [hfetch] at h
    cases h
    exact .inl rfl
  | ok r =>
    obtain ⟨w, m₁⟩ := r
    rw [hfetch] at h
    have hends := execute_ends (decode w) m₁
    cases hexecute : execute (decode w) m₁ with
    | error e =>
      simp only [bind, Except.bind, hexecute] at h
      cases h
      rw [hexecute] at hends
      exact .inr ⟨w, m₁, rfl, hends⟩
    | ok x =>
      simp only [bind, Except.bind, hexecute] at h
      cases h

/-- The kernel is entered with the instruction undone, and the instruction is fetched again. -/
theorem exception_precise (h : oneInstruction m = .error (.raised which m')) :
    Entered m m' m.reported ∧
      ∀ w m₁, m.fetch = .ok (w, m₁) → ∃ m₂, m'.fetch = .ok (w, m₂) := by
  have hentered : Entered m m' m.reported := by
    rcases oneInstruction_stops h with hfetch | ⟨w, m₁, hfetch, hstopped⟩
    · rcases Machine.readMem_error (.inr (.inr rfl)) hfetch with ⟨e, hraised⟩ | ⟨hassert, _⟩
      · cases hraised
        rw [Machine.reported, hfetch]
        exact raise_entered (.refl m) _
      · cases hassert
    · rw [Machine.reported, hfetch]
      cases hstopped with
      | exception which hm => exact raise_entered ((Machine.readMem_alike hfetch).trans hm) _
  refine ⟨hentered, fun w m₁ hfetch => ?_⟩
  rw [Machine.fetch, hentered.pc]
  exact hentered.toSameMemory.readMem hfetch

/-- `SYSCALL` behind a load of register 1. -/
def syscallProgram : Machine :=
  { Machine.start [0x0000000c] fun _ => 0 with
    registers.loadReg := 1
    registers.loadValue := 7 }

theorem exception_precise_syscallProgram :
    ∃ m', oneInstruction syscallProgram = .error (.raised .syscall m') ∧
      Entered syscallProgram m' syscallProgram.reported :=
  ⟨_, rfl, (exception_precise rfl).1⟩

end Coursework.Nachos.Mipssim
