import Coursework.Nachos.AddrSpace
import Coursework.Nachos.Mipssim.Confined

/-!
# A process, after `StartProcess` and `exception.cc`

A program that fits is loaded, its registers are set, and it runs until the kernel is entered,
where it halts the machine or an assertion fails. What it does depends on the file alone, and the
memory beyond its pages is as it was before the program was loaded.
-/
namespace Coursework.Nachos.AddrSpace
open Mips (Word Reg)
open Mipssim (Registers ExceptionType oneInstruction addrSpace pageSize numPhysPages)

def stackReg : Reg := 29
def scHalt : Word := 0

/-- The registers that `InitRegisters` writes. -/
def initRegisters (space : AddrSpace) : Registers where
  gpr := Function.update (fun _ => 0) stackReg (.ofNat 32 (space.numPages * pageSize) - 16)
  hi := 0
  lo := 0
  pc := 0
  nextPC := 4
  prevPC := 0
  loadReg := 0
  loadValue := 0
  badVAddr := 0

/-- The machine when `StartProcess` calls `Run`; there is no TLB, and `RestoreState` has put the
page table in its place. -/
def machine (space : AddrSpace) : Mipssim.Machine where
  registers := space.initRegisters
  mainMemory p := space.mainMemory p
  tlb := none
  pageTable := some space.pageTable

/-- The process between two instructions, after `Halt`, or after a failed `ASSERT` or a trap of
the host. -/
inductive Process where
  | running (m : Mipssim.Machine)
  | halted (m : Mipssim.Machine)
  | aborted

def exceptionHandler (which : ExceptionType) (m : Mipssim.Machine) : Process :=
  if which = .syscall ∧ m.registers.gpr 2 = scHalt then .halted m else .aborted

def Process.ofResult : Except Mipssim.Stop Mipssim.Machine → Process
  | .ok m => .running m
  | .error (.raised which m) => exceptionHandler which m
  | .error .assertFailed | .error .hostTrap => .aborted

/-- `Run`, for at most `n` instructions. -/
def run (space : AddrSpace) (n : ℕ) : Process :=
  .ofResult (steps oneInstruction n space.machine)

/-! ### What a process can see -/

/-- The machines are the same but for the memory from `bound` on. -/
structure SameBelow (bound : ℕ) (m m' : Mipssim.Machine) : Prop where
  registers : m'.registers = m.registers
  tlb : m'.tlb = m.tlb
  pageTable : m'.pageTable = m.pageTable
  mainMemory : ∀ p < bound, m'.mainMemory p = m.mainMemory p

inductive Process.Same (bound : ℕ) : Process → Process → Prop where
  | running {m m' : Mipssim.Machine} (h : SameBelow bound m m') :
    Same bound (.running m) (.running m')
  | halted {m m' : Mipssim.Machine} (h : SameBelow bound m m') : Same bound (.halted m) (.halted m')
  | aborted : Same bound .aborted .aborted

/-- The memory from `bound` on is this. -/
def Process.Keeps (bound : ℕ) (mem : ℤ → UInt8) : Process → Prop
  | .running m | .halted m => ∀ p : ℕ, bound ≤ p → m.mainMemory p = mem p
  | .aborted => True

def Process.withRest (bound : ℕ) (rest : Mem) : Process → Process
  | .running m => .running (m.withRest (· < bound) rest)
  | .halted m => .halted (m.withRest (· < bound) rest)
  | .aborted => .aborted

variable {executable : Executable} {noffH : NoffHeader} {seg : Segment} {space space' : AddrSpace}
  {garbage garbage' : ℕ → Mem} {mainMemory mainMemory' : ℤ → UInt8} {buf rest : Mem}
  {bigEndian bigEndian' : Bool} {bound n : ℕ} {process : Process} {mem : ℤ → UInt8}

theorem ofResult_withRest (result : Except Mipssim.Stop Mipssim.Machine) :
    Process.ofResult (relabel (Mipssim.Machine.withRest (· < bound) rest)
      (Mipssim.Stop.withRest (· < bound) rest) result) =
      (Process.ofResult result).withRest bound rest := by
  cases result with
  | ok m => rfl
  | error stop =>
    cases stop with
    | raised which m =>
      simp only [relabel_error, Mipssim.Stop.withRest, Process.ofResult, exceptionHandler]
      exact Eq.trans rfl (apply_ite (Process.withRest bound rest)
        (which = .syscall ∧ m.registers.gpr 2 = scHalt) (.halted m) .aborted).symm
    | assertFailed => rfl
    | hostTrap => rfl

theorem same_withRest (process : Process) (rest : Mem) :
    Process.Same bound process (process.withRest bound rest) := by
  have hsame (m : Mipssim.Machine) : SameBelow bound m (m.withRest (· < bound) rest) :=
    ⟨rfl, rfl, rfl, fun p hp => if_pos hp⟩
  cases process with
  | running m => exact .running (hsame m)
  | halted m => exact .halted (hsame m)
  | aborted => exact .aborted

theorem keeps_withRest (process : Process) (h : ∀ p : ℕ, bound ≤ p → rest p = mem p) :
    (process.withRest bound rest).Keeps bound mem := by
  cases process with
  | running m => exact fun p hp => (if_neg (not_lt.mpr hp)).trans (h p hp)
  | halted m => exact fun p hp => (if_neg (not_lt.mpr hp)).trans (h p hp)
  | aborted => trivial

/-! ### A process and the memory around it -/

/-- The pages are what the file says. -/
theorem Loaded.same (h : space.Loaded executable noffH) (h' : space'.Loaded executable noffH)
    (hnum : space'.numPages = space.numPages) {i : ℤ} (h0 : 0 ≤ i)
    (hi : i < space.numPages * pageSize) : space'.mainMemory i = space.mainMemory i := by
  by_cases hcode : noffH.code.Covers i
  · rw [(h.code i hcode).2.2.2.2, (h'.code i hcode).2.2.2.2]
  · by_cases hdata : noffH.initData.Covers i
    · rw [(h.initData i hdata).2.2.2.2, (h'.initData i hdata).2.2.2.2]
    · rw [h.zero i h0 hi hcode hdata, h'.zero i h0 (by rwa [hnum]) hcode hdata]

theorem machine_inSpace (hpt : space.pageTable = addrSpace space.numPages) :
    space.machine.InSpace space.numPages := by
  refine ⟨rfl, ?_⟩
  rw [machine, hpt]
  rfl

/-- A run does not depend on the memory beyond the pages. -/
theorem run_withRest (hpt : space.pageTable = addrSpace space.numPages)
    (hpages : space.numPages ≤ numPhysPages) (rest : Mem) (n : ℕ) :
    .ofResult (steps oneInstruction n
      (space.machine.withRest (· < space.numPages * pageSize) rest)) =
      (space.run n).withRest (space.numPages * pageSize) rest := by
  rw [(Mipssim.oneInstruction_untouched hpages rest).steps_put n (machine_inSpace hpt),
    ofResult_withRest]
  rfl

theorem fits_fourBytes : Fits fourBytesOnDisk fourBytes := by
  refine ⟨fun _ => ?_, fun h => absurd h (by decide), fun i _ hdata => ?_⟩
  · exact (by decide : (0 : ℤ) ≤ 40 ∧ (40 + 4 : ℤ) ≤ 44 ∧ (0 : ℤ) ≤ 0 ∧ (0 + 4 : ℤ) ≤ (9 : ℕ) * 128)
  · have hlow : (0 : ℤ) ≤ i := hdata.1
    have hhigh : i < (0 + 0 : ℤ) := hdata.2
    omega

end Coursework.Nachos.AddrSpace
