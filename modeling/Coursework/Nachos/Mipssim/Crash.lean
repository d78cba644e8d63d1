import Coursework.Nachos.Mipssim.Exceptions
import Coursework.Nachos.Mipssim.Memory

/-!
# User programs that crash the simulator

Under a page table the only assertions that can fail are those of `LWL`, `LWR`, `SWL` and `SWR`,
and the only division that traps is that of the least `int` by -1.
-/
namespace Coursework.Nachos.Mipssim
open Mips (Word Reg)

variable {m m₁ : Machine} {i : Instruction} {addr w : Word} {size : ℕ} {writing : Bool}
  {pageTable : List TranslationEntry}

/-! ### What cannot happen -/

theorem getD_of_forall {α : Type} {l : List α} {d : α} {P : α → Prop} (hl : ∀ a ∈ l, P a)
    (hd : P d) (k : ℕ) : P (l.getD k d) := by
  rw [List.getD_eq_getElem?_getD]
  cases hk : l[k]? with
  | none => exact hd
  | some a => exact hl a (List.mem_of_getElem? hk)

/-- The `switch` has a case for every opcode that is decoded. -/
theorem decode_known (w : Word) :
    ¬ ((decode w).opCode = .rfe ∨ (decode w).opCode = .special ∨ (decode w).opCode = .bcond) := by
  have hop (k : ℕ) : (opTable.getD k ⟨.res, .ifmt⟩).opCode ≠ .rfe :=
    getD_of_forall (P := fun info : OpInfo => info.opCode ≠ .rfe) (by decide) (by decide) k
  have hspecial (k : ℕ) :
      ¬ (specialTable.getD k .res = .rfe ∨ specialTable.getD k .res = .special ∨
        specialTable.getD k .res = .bcond) :=
    getD_of_forall (P := fun op : OpCode => ¬ (op = .rfe ∨ op = .special ∨ op = .bcond))
      (by decide) (by decide) k
  rw [decode]
  simp only
  split_ifs with h1 h2
  · exact hspecial _
  all_goals first | decide | exact fun h => h.elim (hop _) fun h => h.elim h1 h2

/-! ### What can happen -/

/-- The simulator ends: an assertion of its own fails or the host traps. -/
def Machine.Crashes (m : Machine) : Prop :=
  oneInstruction m = .error .assertFailed ∨ oneInstruction m = .error .hostTrap

/-- `LWL`, `LWR`, `SWL` or `SWR` of an address that is not aligned, or `DIV` of the least `int`
by -1. -/
def Instruction.Fatal (i : Instruction) (m : Machine) : Prop :=
  i.isPartial = true ∧ i.address m &&& 0x3 ≠ 0 ∨
    i.opCode = .div ∧ m.registers.gpr i.rs = signBit ∧ m.registers.gpr i.rt = -1

/-- The instruction at the program counter. -/
def Machine.Fetches (m : Machine) (i : Instruction) : Prop :=
  ∃ w m₁, m.fetch = .ok (w, m₁) ∧ decode w = i

theorem execute_partial (hop : i.isPartial = true) (haddr : i.address m &&& 0x3 ≠ 0) :
    execute i m = .error .assertFailed := by
  rcases i with ⟨op, rs, rt, rd, extra⟩
  cases op
  case lwl | lwr | swl | swr =>
    rw [execute]
    simp only [if_pos (show m.registers.gpr rs + extra &&& 0x3 ≠ 0 from haddr)]
    rfl
  all_goals cases hop

theorem execute_trap (hop : i.opCode = .div) (hrs : m.registers.gpr i.rs = signBit)
    (hrt : m.registers.gpr i.rt = -1) : execute i m = .error .hostTrap := by
  rcases i with ⟨op, rs, rt, rd, extra⟩
  obtain rfl : op = .div := hop
  rw [execute]
  simp only at hrs hrt
  simp only [hrs, hrt]
  rfl

theorem fatal_alike (h : m.Alike m₁) (i : Instruction) : i.Fatal m₁ ↔ i.Fatal m := by
  rw [Instruction.Fatal, Instruction.Fatal, Instruction.address, Instruction.address, h.registers]

theorem translate_asserts_alike (htlb : m.tlb = none) (hpt : m.pageTable = some pageTable)
    (hsize : size = 1 ∨ size = 2 ∨ size = 4) (hm : m.Alike m₁) :
    m₁.translate addr size writing ≠ .error none := by
  intro h
  have hsame := hm.toSameMemory.translate addr size writing
  rw [h] at hsame
  cases htr : m.translate addr size writing with
  | ok r =>
    rw [htr] at hsame
    cases hsame
  | error e =>
    rw [htr] at hsame
    cases hsame
    exact translate_asserts (Machine.oneTable_of_pageTable htlb hpt) hsize htr

/-- Why the simulator ends in the middle of an instruction. -/
theorem stopped_fatal {stop : Stop} (htlb : m.tlb = none) (hpt : m.pageTable = some pageTable)
    (hm : m.Alike m₁) (hstop : stop = .assertFailed ∨ stop = .hostTrap)
    (h : Stopped (decode w) m₁ stop) : (decode w).Fatal m := by
  rw [← fatal_alike hm]
  cases h with
  | exception => rcases hstop with hstop | hstop <;> cases hstop
  | unaligned hop haddr => exact .inl ⟨hop, haddr⟩
  | unknown hop => exact absurd hop (decode_known w)
  | translation hm' hsize htr =>
    exact absurd htr (translate_asserts_alike htlb hpt hsize (hm.trans hm'))
  | trap hop hrs hrt => exact .inr ⟨hop, hrs, hrt⟩

theorem fetch_asserts (htlb : m.tlb = none) (hpt : m.pageTable = some pageTable) {stop : Stop}
    (hstop : stop = .assertFailed ∨ stop = .hostTrap) : m.fetch ≠ .error stop := by
  intro h
  rcases Machine.readMem_error (.inr (.inr rfl)) h with ⟨e, rfl⟩ | ⟨_, htr⟩
  · rcases hstop with hstop | hstop <;> cases hstop
  · exact translate_asserts (Machine.oneTable_of_pageTable htlb hpt) (.inr (.inr rfl)) htr

theorem fatal_crashes {m₁ : Machine} (hfetch : m.fetch = .ok (w, m₁))
    (hfatal : (decode w).Fatal m) : m.Crashes := by
  have hm := Machine.readMem_alike hfetch
  rw [Machine.Crashes, oneInstruction, hfetch]
  rcases (fatal_alike hm _).mpr hfatal with ⟨hop, haddr⟩ | ⟨hop, hrs, hrt⟩
  · refine .inl ?_
    simp only [bind, Except.bind, execute_partial hop haddr]
  · refine .inr ?_
    simp only [bind, Except.bind, execute_trap hop hrs hrt]

/-- Under a page table the simulator crashes at these instructions and no others. -/
theorem crashes_iff (htlb : m.tlb = none) (hpt : m.pageTable = some pageTable) :
    ¬ m.Crashes ↔ ∀ i, m.Fetches i → ¬ i.Fatal m := by
  constructor
  · rintro hcrash i ⟨w, m₁, hfetch, rfl⟩ hfatal
    exact hcrash (fatal_crashes hfetch hfatal)
  · intro hall hcrash
    have hends : ∃ stop, (stop = .assertFailed ∨ stop = .hostTrap) ∧
        oneInstruction m = .error stop :=
      hcrash.elim (fun h => ⟨_, .inl rfl, h⟩) fun h => ⟨_, .inr rfl, h⟩
    obtain ⟨stop, hstop, hone⟩ := hends
    rcases oneInstruction_stops hone with hfetch | ⟨w, m₁, hfetch, hstopped⟩
    · exact fetch_asserts htlb hpt hstop hfetch
    · exact hall _ ⟨w, m₁, hfetch, rfl⟩
        (stopped_fatal htlb hpt (Machine.readMem_alike hfetch) hstop hstopped)

/-- `LWL` of address 1. -/
def lwlProgram : Machine := .start [0x88010001] fun _ => 0

theorem lwlProgram_crashes : lwlProgram.Crashes := .inl rfl

/-- `LW` of address 1, which raises an exception. -/
def lwProgram : Machine := .start [0x8c010001] fun _ => 0

theorem crashes_iff_lwProgram : ¬ lwProgram.Crashes := by
  refine (crashes_iff rfl rfl).mpr ?_
  rintro _ ⟨w, m, hfetch, rfl⟩
  cases hfetch
  rintro (⟨hop, -⟩ | ⟨hop, -⟩) <;> cases hop

end Coursework.Nachos.Mipssim
