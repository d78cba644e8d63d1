import Coursework.Nachos.Bin.Execute.Architecture
import Coursework.Nachos.Mipssim.DelayedLoad
import Coursework.Nachos.Mipssim.Memory

/-!
# Two processors in the same state

The simulated machine and the other interpreter have the same registers when the load that is
pending is carried out, and the same byte at every address that is mapped. What the one does to a
register or to memory, the other does too.
-/
namespace Coursework.Nachos.Execute
open Mips (Word Reg)
open Mipssim (Executed loaded)

/-- The byte at each address that can be read is in `mem`, and different pages have different
frames. -/
structure SameBytes (m : Mipssim.Machine) (mem : Mem) : Prop where
  oneToOne : m.OneToOne
  byte {addr : Word} {pa : ℕ} (h : m.Physical addr 1 false pa) :
    memOffset ≤ addr.toNat ∧ addr.toNat < memOffset + memSize ∧
      mem (addr.toNat - memOffset) = m.mainMemory pa

/-- The same state between two instructions. -/
structure Follows (m : Mipssim.Machine) (c : Cpu) : Prop where
  pc : c.pc = m.registers.pc
  npc : c.npc = m.registers.nextPC
  reg {r : Reg} (hr : r ≠ 0) : c.reg r = m.registers.carriedOut r
  hi : c.hi = m.registers.hi
  lo : c.lo = m.registers.lo
  mem : SameBytes m c.mem

/-- The same state where the `switch` is entered. -/
structure During (m : Mipssim.Machine) (c : Cpu) : Prop where
  pc : c.pc = m.registers.nextPC
  npc : c.npc = m.registers.nextPC + 4
  reg (r : Reg) : c.reg r = m.registers.carriedOut r
  hi : c.hi = m.registers.hi
  lo : c.lo = m.registers.lo
  mem : SameBytes m c.mem

variable {m m₁ : Mipssim.Machine} {c : Cpu} {addr v v' : Word} {size pa : ℕ} {r : Reg}
  {pcAfter : Word}

/-! ### Memory -/

theorem SameBytes.of_memory {mem : Mem} (h : SameBytes m mem) (hm : m.SameMemory m₁) :
    SameBytes m₁ mem where
  oneToOne := h.oneToOne.congr hm.tlb hm.pageTable
  byte hpa := by
    rw [hm.mainMemory]
    exact h.byte ((Mipssim.physical_congr hm.tlb hm.pageTable).mp hpa)

/-- The place of an access, and the bytes there. -/
theorem SameBytes.access {mem : Mem} (h : SameBytes m mem)
    (hsize : size = 1 ∨ size = 2 ∨ size = 4) (hpa : m.Physical addr size false pa) :
    Cpu.place addr size = .ok (addr.toNat - memOffset) ∧ memOffset ≤ addr.toNat ∧
      ∀ i < size, mem (addr.toNat - memOffset + i) = m.mainMemory (pa + i) := by
  obtain ⟨frame, _, _, _, hpage⟩ := Mipssim.physical_frame hsize hpa
  have hbyte : ∀ i < size, memOffset ≤ addr.toNat + i ∧ addr.toNat + i < memOffset + memSize ∧
      mem (addr.toNat + i - memOffset) = m.mainMemory (pa + i) := by
    intro i hi
    have hi' := h.byte (Mipssim.physical_byte hsize hpa hi)
    rwa [Mipssim.toNat_byte hpage hi] at hi'
  have hfirst := (hbyte 0 (by omega)).1
  have hlast := hbyte (size - 1) (by omega)
  refine ⟨if_pos ⟨by omega, by omega⟩, by omega, fun i hi => ?_⟩
  rw [← (hbyte i hi).2.2]
  exact congrArg mem (by omega)

/-- What the machine reads stands at its place in `mem`. -/
theorem SameBytes.read {mem : Mem} (h : SameBytes m mem) (hsize : size = 1 ∨ size = 2 ∨ size = 4)
    (hread : m.readMem addr size = .ok (v, m₁)) :
    ∃ p, Cpu.place addr size = .ok p ∧ loaded mem p size = v := by
  obtain ⟨pa, hpa, rfl⟩ := (Mipssim.readMem_iff hsize).mp ⟨m₁, hread⟩
  obtain ⟨hplace, _, hbytes⟩ := h.access hsize hpa
  exact ⟨_, hplace, Mipssim.loaded_congr hsize hbytes⟩

/-- What is written to the one memory and to the other. -/
theorem SameBytes.written (h : SameBytes m c.mem) (hsize : size = 1 ∨ size = 2 ∨ size = 4)
    (hwrite : m.writeMem addr size v = .ok m₁) :
    ∃ mem, c.store addr size v = .ok { c with mem := mem } ∧ SameBytes m₁ mem := by
  obtain ⟨pa, hpa, hmem, hphysical⟩ := Mipssim.writeMem_ok hsize hwrite
  obtain ⟨hplace, hlow, _⟩ := h.access hsize (Mipssim.physical_read hsize hpa)
  refine ⟨c.mem.copy (addr.toNat - memOffset) size (byteOf v), ?_,
    Mipssim.writeMem_oneToOne h.oneToOne hwrite, fun {b pb} hpb => ?_⟩
  · rw [Cpu.store, hplace]
    rfl
  · rw [hphysical] at hpb
    obtain ⟨hbyte, hend, hold⟩ := h.byte hpb
    refine ⟨hbyte, hend, ?_⟩
    rw [hmem]
    by_cases hb : b.toNat < addr.toNat ∨ addr.toNat + size ≤ b.toNat
    · rw [Mem.copy_of_not_mem (by omega), hold,
        Mem.copy_of_not_mem (Mipssim.physical_elsewhere h.oneToOne hsize hpa hpb hb)]
    · obtain ⟨i, hi, hbi⟩ : ∃ i < size, b.toNat = addr.toNat + i :=
        ⟨b.toNat - addr.toNat, by omega, by omega⟩
      obtain ⟨frame, _, _, _, hpage⟩ := Mipssim.physical_frame hsize hpa
      have hbi' : b = addr + .ofNat 32 i :=
        BitVec.eq_of_toNat_eq (by rw [hbi, Mipssim.toNat_byte hpage hi])
      have hpi := Mipssim.physical_byte hsize (Mipssim.physical_read hsize hpa) hi
      rw [← hbi'] at hpi
      obtain rfl : pb = pa + i := Except.ok.inj (hpb.symm.trans hpi)
      rw [Mem.copy_of_mem (by omega) (by omega), Mem.copy_of_mem (by omega) (by omega), hbi]
      exact congrArg (byteOf v) (by omega)

/-! ### What an instruction does to both -/

/-- The end of an instruction carries the pending load out and leaves the next one pending. -/
theorem commit_carriedOut (x : Executed) :
    x.commit.registers.carriedOut =
      Function.update
        (Function.update x.machine.registers.carriedOut x.nextLoadReg x.nextLoadValue) 0 0 := rfl

theorem follows_commit {x : Executed} (hpc : c.pc = x.machine.registers.nextPC)
    (hnpc : c.npc = x.pcAfter)
    (hreg : ∀ r ≠ 0, c.reg r =
      Function.update x.machine.registers.carriedOut x.nextLoadReg x.nextLoadValue r)
    (hhi : c.hi = x.machine.registers.hi) (hlo : c.lo = x.machine.registers.lo)
    (hmem : SameBytes x.machine c.mem) : Follows x.commit c where
  pc := hpc
  npc := hnpc
  reg {r} hr := by
    rw [hreg r hr, commit_carriedOut, Function.update_of_ne hr]
  hi := hhi
  lo := hlo
  mem := hmem.of_memory ⟨rfl, rfl, rfl⟩

/-- An instruction that loads nothing. -/
theorem follows_quiet (hpc : c.pc = m.registers.nextPC)
    (hreg : ∀ r ≠ 0, c.reg r = m.registers.carriedOut r) (hhi : c.hi = m.registers.hi)
    (hlo : c.lo = m.registers.lo) (hmem : SameBytes m c.mem) (hnpc : c.npc = pcAfter) :
    Follows (⟨m, pcAfter, 0, 0⟩ : Executed).commit c :=
  follows_commit hpc hnpc (fun r hr => (hreg r hr).trans (Function.update_of_ne hr _ _).symm)
    hhi hlo hmem

variable (h : During m c)
include h

/-- Between two instructions of which the second has been fetched. -/
theorem During.fetched (hm : m.Alike m₁) : During m₁ c where
  pc := by rw [hm.registers, h.pc]
  npc := by rw [hm.registers, h.npc]
  reg r := by rw [hm.registers, h.reg]
  hi := by rw [hm.registers, h.hi]
  lo := by rw [hm.registers, h.lo]
  mem := h.mem.of_memory hm.toSameMemory

theorem follows_branch (pcAfter : Word) :
    Follows (⟨m, pcAfter, 0, 0⟩ : Executed).commit { c with npc := pcAfter } :=
  follows_quiet h.pc (fun r _ => h.reg r) h.hi h.lo h.mem rfl

theorem follows_hiLo (hi lo : Word) :
    Follows (m.setHiLo hi lo).next.commit { c with hi := hi, lo := lo } :=
  follows_quiet (m := m.setHiLo hi lo) h.pc (fun r _ => h.reg r) rfl rfl
    (h.mem.of_memory ⟨rfl, rfl, rfl⟩) h.npc

/-- A register is written that is not being loaded. -/
theorem follows_write (hr : m.registers.loadReg ≠ 0 → r ≠ m.registers.loadReg)
    (hv : r ≠ 0 → v' = v) (pcAfter : Word) :
    Follows (⟨m.set r v, pcAfter, 0, 0⟩ : Executed).commit { c.set r v' with npc := pcAfter } := by
  have hcarried := Mipssim.carriedOut_write m.registers v hr
  refine follows_commit h.pc rfl (fun r' hr' => ?_) h.hi h.lo (h.mem.of_memory ⟨rfl, rfl, rfl⟩)
  change Function.update c.reg r v' r' = Function.update
    ({ m.registers with gpr := Function.update m.registers.gpr r v } :
      Mipssim.Registers).carriedOut 0 0 r'
  rw [← hcarried, Function.update_of_ne hr', Function.update_of_ne hr']
  by_cases hrr : r' = r
  · rw [hrr, Function.update_self, Function.update_self, hv (hrr ▸ hr')]
  · rw [Function.update_of_ne hrr, Function.update_of_ne hrr, h.reg]

theorem follows_load (hm : m.Alike m₁) (hv : r ≠ 0 → v' = v) :
    Follows (m₁.load r v).commit (c.set r v') := by
  have h₁ := h.fetched hm
  refine follows_commit h₁.pc h₁.npc (fun r' hr' => ?_) h₁.hi h₁.lo h₁.mem
  change Function.update c.reg r v' r' = Function.update m₁.registers.carriedOut r v r'
  by_cases hrr : r' = r
  · rw [hrr, Function.update_self, Function.update_self, hv (hrr ▸ hr')]
  · rw [Function.update_of_ne hrr, Function.update_of_ne hrr, h₁.reg]

theorem follows_store (hsize : size = 1 ∨ size = 2 ∨ size = 4)
    (hwrite : m.writeMem addr size v = .ok m₁) :
    ∃ c', c.store addr size v = .ok c' ∧ Follows m₁.next.commit c' := by
  obtain ⟨mem, hstore, hmem⟩ := h.mem.written hsize hwrite
  have hregs := Mipssim.Machine.writeMem_registers hwrite
  refine ⟨_, hstore, follows_quiet ?_ (fun r _ => ?_) ?_ ?_ hmem ?_⟩
  · rw [hregs, h.pc]
  · rw [hregs, h.reg]
  · rw [hregs, h.hi]
  · rw [hregs, h.lo]
  · rw [hregs, h.npc]

end Coursework.Nachos.Execute
