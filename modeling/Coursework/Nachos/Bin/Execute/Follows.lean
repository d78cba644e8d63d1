import Coursework.Nachos.Bin.Execute.Shared
import Mathlib.Tactic.IntervalCases

/-!
# A program in both processors

Every instruction that is shared keeps the processors in the same state, so that a program of such
instructions does the same in both.
-/
namespace Coursework.Nachos.Execute
open Mips (Word Reg opField rsField rtField rdField immediateField)
open Mipssim (Executed loaded)

variable {m m₁ : Mipssim.Machine} {c : Cpu} {w v : Word} {x : Executed} {r : Reg} {addr : Word}
  {size : ℕ}

/-! ### Loads and stores -/

theorem load_follows (h : During m c) (hsize : size = 1 ∨ size = 2 ∨ size = 4) (f : Word → Word)
    (hx : (do
      let p ← m.readMem addr size
      pure (p.2.load r (f p.1))) = Except.ok x) :
    ∃ p, Cpu.place addr size = .ok p ∧
      ∀ v', v' = f (loaded c.mem p size) → Follows x.commit (c.set r v') := by
  cases hread : m.readMem addr size with
  | error stop =>
    rw [hread] at hx
    cases hx
  | ok q =>
    obtain ⟨v, m₁⟩ := q
    rw [hread] at hx
    cases hx
    obtain ⟨p, hplace, hv⟩ := h.mem.read hsize hread
    refine ⟨p, hplace, fun v' hv' =>
      follows_load h (Mipssim.Machine.readMem_alike hread) fun _ => ?_⟩
    rw [hv', hv]

theorem store_follows (h : During m c) (hsize : size = 1 ∨ size = 2 ∨ size = 4)
    (hx : (do
      let m ← m.writeMem addr size v
      pure m.next) = Except.ok x) :
    ∃ c', c.store addr size v = .ok c' ∧ Follows x.commit c' := by
  cases hwrite : m.writeMem addr size v with
  | error stop =>
    rw [hwrite] at hx
    cases hx
  | ok m₁ =>
    rw [hwrite] at hx
    cases hx
    exact follows_store h hsize hwrite

/-- The sign of a byte is there already. -/
theorem byte_signed (b : BitVec 8) : (b.signExtend 32 : Word) =
    if b.signExtend 32 &&& 0x80 ≠ (0 : Word) then b.signExtend 32 ||| 0xffffff00
      else b.signExtend 32 &&& 0xff := by
  revert b
  decide +kernel

theorem byte_unsigned (b : BitVec 8) : (b.setWidth 32 : Word) = b.signExtend 32 &&& 0xff := by
  revert b
  decide +kernel

theorem immediateField_half (b : BitVec 16) : immediateField (b.setWidth 32) = b := by
  rw [immediateField, BitVec.extractLsb'_setWidth_of_le (by decide)]
  exact BitVec.extractLsb'_eq_self

theorem half_low (b : BitVec 16) : b.setWidth 32 &&& 0xffff = (b.setWidth 32 : Word) := by
  rw [Mipssim.immediate_low, immediateField_half]

theorem half_signed (b : BitVec 16) : (b.signExtend 32 : Word) =
    if b.setWidth 32 &&& 0x8000 ≠ (0 : Word) then b.setWidth 32 ||| 0xffff0000
      else b.setWidth 32 &&& 0xffff := by
  have hextra := Mipssim.immediate_extra (b.setWidth 32)
  rw [immediateField_half, half_low] at hextra
  rw [half_low, hextra]

/-! ### Every instruction -/

theorem other_opcodes : ∀ k < 64, k ∉ [0x00, 0x01, 0x02, 0x03, 0x04, 0x05, 0x06, 0x07, 0x08, 0x09,
    0x0a, 0x0b, 0x0c, 0x0d, 0x0e, 0x0f, 0x20, 0x21, 0x22, 0x23, 0x24, 0x25, 0x26, 0x28, 0x29,
    0x2b] → ∃ op ∈ [Mipssim.OpCode.res, .unimp, .swl, .swr],
      Mipssim.opTable[k]? = some ⟨op, .ifmt⟩ := by
  intro k hk hother
  interval_cases k <;> first
    | exact absurd (by decide) hother
    | exact ⟨.res, by decide, rfl⟩
    | exact ⟨.unimp, by decide, rfl⟩
    | exact ⟨.swl, by decide, rfl⟩
    | exact ⟨.swr, by decide, rfl⟩

theorem extra_msb (w : Word) :
    ((immediateField w).signExtend 32).msb = (immediateField w).msb := by
  rw [BitVec.msb_signExtend]
  rfl

theorem instruction_follows (h : During m c) (hzero : m.registers.gpr 0 = 0)
    (hclear : SlotClear (Mipssim.decode w) m) (hshared : Shared (Mipssim.decode w) m)
    (hx : Mipssim.execute (Mipssim.decode w) m = .ok x) :
    ∃ c', c.instruction w m.registers.pc = .ok c' ∧ Follows x.commit c' := by
  rw [Cpu.instruction, opcode_field]
  simp only [rs_eq, rt_eq]
  split <;> rename_i hop
  case h_1 => exact special_follows h hzero hop hclear hshared hx
  case h_2 => exact bcond_follows h hzero hop hclear hshared hx
  case h_27 =>
    obtain ⟨op, hmem, hrow⟩ := other_opcodes (opField w).toNat (opField w).isLt (by
      simp only [List.mem_cons, List.not_mem_nil, or_false, not_or]
      constructorm* _ ∧ _ <;> assumption)
    simp only [List.mem_cons, List.not_mem_nil, or_false] at hmem
    rcases hmem with rfl | rfl | rfl | rfl <;>
      rw [Mipssim.decode_ifmt rfl hrow (by decide) (by decide)] at hx hshared
    · cases hx
    · cases hx
    · exact hshared.elim
    · exact hshared.elim
  case h_3 =>
    rw [decode_jfmt hop rfl (by decide) (by decide)] at hx hshared
    cases hx
    refine ⟨_, rfl, ?_⟩
    rw [Cpu.jump, jump_target hshared.1 hshared.2]
    exact follows_branch h _
  case h_4 =>
    rw [decode_jfmt hop rfl (by decide) (by decide)] at hx hclear hshared
    cases hx
    refine ⟨_, rfl, ?_⟩
    rw [Cpu.jump, jump_target hshared.1 hshared.2]
    exact follows_write h (hclear.target rfl rfl) (fun _ => hshared.1.link) _
  all_goals
    rw [Mipssim.decode_ifmt hop rfl (by decide) (by decide)] at hx hclear hshared
  case h_5 | h_6 =>
    have hs := h.rs hzero hclear (.head _)
    have ht := h.rt hzero hclear (.tail _ (.head _))
    cases hx
    refine ⟨_, rfl, branch_follows h hshared (immed_eq w).symm ?_⟩
    rw [decide_eq_true_iff, hs, ht]
  case h_7 | h_8 =>
    have hs := h.rs hzero hclear (.head _)
    cases hx
    refine ⟨_, rfl, branch_follows h hshared (immed_eq w).symm ?_⟩
    rw [decide_eq_true_iff, hs]
  case h_9 =>
    have hs := h.rs hzero hclear (.head _)
    obtain ⟨_, hx⟩ := Mipssim.ite_error_eq_ok.mp hx
    cases hx
    exact ⟨_, rfl, write_follows h hclear rfl rfl fun _ => by rw [hs, immed_eq]⟩
  case h_10 | h_11 | h_12 =>
    have hs := h.rs hzero hclear (.head _)
    cases hx
    exact ⟨_, rfl, write_follows h hclear rfl rfl fun _ => by rw [hs, immed_eq]⟩
  case h_13 =>
    have hs := h.rs hzero hclear (.head _)
    cases hx
    refine ⟨_, rfl, write_follows h hclear rfl rfl fun hr => ?_⟩
    rw [hs, immed_eq, Mipssim.immediate_zero_extended]
    exact ((andi_iff _ _).mpr (extra_msb w ▸ Or.resolve_left hshared hr)).symm
  case h_14 =>
    have hs := h.rs hzero hclear (.head _)
    cases hx
    refine ⟨_, rfl, write_follows h hclear rfl rfl fun hr => ?_⟩
    rw [hs, immed_eq, Mipssim.immediate_zero_extended]
    exact ((ori_iff _ _).mpr (extra_msb w ▸ Or.resolve_left hshared hr)).symm
  case h_15 =>
    have hs := h.rs hzero hclear (.head _)
    cases hx
    refine ⟨_, rfl, write_follows h hclear rfl rfl fun hr => ?_⟩
    rw [hs, immed_eq, Mipssim.immediate_zero_extended]
    exact ((xori_iff _ _).mpr (extra_msb w ▸ Or.resolve_left hshared hr)).symm
  case h_16 =>
    cases hx
    refine ⟨_, rfl, write_follows h hclear rfl rfl fun _ => ?_⟩
    rw [Mipssim.immediate_upper, immediate_upper]
  case h_17 =>
    have hs := h.rs hzero hclear (.head _)
    obtain ⟨p, hplace, hload⟩ := load_follows h (.inl rfl)
      (fun v =>
        if v &&& 0x80 ≠ 0 ∧ Mipssim.OpCode.lb = .lb then v ||| 0xffffff00 else v &&& 0xff) hx
    rw [hs, immed_eq, Cpu.cfetch, hplace]
    refine ⟨_, rfl, hload _ ?_⟩
    simp only [and_true]
    exact byte_signed _
  case h_18 =>
    have hs := h.rs hzero hclear (.head _)
    obtain ⟨_, hx⟩ := Mipssim.ite_error_eq_ok.mp hx
    obtain ⟨p, hplace, hload⟩ := load_follows h (.inr (.inl rfl))
      (fun v => if v &&& 0x8000 ≠ 0 ∧ Mipssim.OpCode.lh = .lh then v ||| 0xffff0000
        else v &&& 0xffff) hx
    rw [hs, immed_eq, Cpu.sfetch, hplace]
    refine ⟨_, rfl, hload _ ?_⟩
    simp only [and_true]
    exact half_signed _
  case h_19 | h_23 => exact hshared.elim
  case h_20 =>
    have hs := h.rs hzero hclear (.head _)
    obtain ⟨_, hx⟩ := Mipssim.ite_error_eq_ok.mp hx
    obtain ⟨p, hplace, hload⟩ := load_follows h (.inr (.inr rfl)) id hx
    rw [hs, immed_eq, Cpu.fetch, hplace]
    exact ⟨_, rfl, hload _ rfl⟩
  case h_21 =>
    have hs := h.rs hzero hclear (.head _)
    obtain ⟨p, hplace, hload⟩ := load_follows h (.inl rfl)
      (fun v => if v &&& 0x80 ≠ 0 ∧ Mipssim.OpCode.lbu = .lb then v ||| 0xffffff00
        else v &&& 0xff) hx
    rw [hs, immed_eq, Cpu.ucfetch, hplace]
    refine ⟨_, rfl, hload _ ?_⟩
    simp only [reduceCtorEq, and_false, if_false]
    exact byte_unsigned _
  case h_22 =>
    have hs := h.rs hzero hclear (.head _)
    obtain ⟨_, hx⟩ := Mipssim.ite_error_eq_ok.mp hx
    obtain ⟨p, hplace, hload⟩ := load_follows h (.inr (.inl rfl))
      (fun v => if v &&& 0x8000 ≠ 0 ∧ Mipssim.OpCode.lhu = .lh then v ||| 0xffff0000
        else v &&& 0xffff) hx
    rw [hs, immed_eq, Cpu.usfetch, hplace]
    refine ⟨_, rfl, hload _ ?_⟩
    simp only [reduceCtorEq, and_false, if_false]
    exact (half_low _).symm
  case h_24 =>
    have hs := h.rs hzero hclear (.head _)
    have ht := h.rt hzero hclear (.tail _ (.head _))
    rw [hs, ht, immed_eq]
    exact store_follows h (.inl rfl) hx
  case h_25 =>
    have hs := h.rs hzero hclear (.head _)
    have ht := h.rt hzero hclear (.tail _ (.head _))
    rw [hs, ht, immed_eq]
    exact store_follows h (.inr (.inl rfl)) hx
  case h_26 =>
    have hs := h.rs hzero hclear (.head _)
    have ht := h.rt hzero hclear (.tail _ (.head _))
    rw [hs, ht, immed_eq]
    exact store_follows h (.inr (.inr rfl)) hx

/-! ### Runs -/

/-- The next instruction is shared. -/
def Common (m : Mipssim.Machine) : Prop :=
  ∀ w m₁, m.fetch = .ok (w, m₁) →
    SlotClear (Mipssim.decode w) m ∧ Shared (Mipssim.decode w) m

def simulator : Coursework.Machine Mipssim.Machine Unit where
  init m := m.registers.gpr 0 = 0
  step m _ := (Mipssim.oneInstruction m).toOption

def interpreter : Coursework.Machine Cpu Unit where
  init _ := True
  step c _ := c.step.toOption

theorem toOption_eq_some {ε α : Type} {e : Except ε α} {a : α} :
    e.toOption = some a ↔ e = .ok a := by
  cases e <;> simp [Except.toOption]

theorem oneInstruction_ok {m' : Mipssim.Machine} (h : Mipssim.oneInstruction m = .ok m') :
    ∃ w m₁ x, m.fetch = .ok (w, m₁) ∧ Mipssim.execute (Mipssim.decode w) m₁ = .ok x ∧
      m' = x.commit := by
  rw [Mipssim.oneInstruction] at h
  cases hfetch : m.fetch with
  | error stop =>
    rw [hfetch] at h
    cases h
  | ok r =>
    obtain ⟨w, m₁⟩ := r
    rw [hfetch] at h
    cases hexecute : Mipssim.execute (Mipssim.decode w) m₁ with
    | error stop =>
      simp only [bind, Except.bind, hexecute] at h
      cases h
    | ok x =>
      simp only [bind, Except.bind, hexecute] at h
      cases h
      exact ⟨w, m₁, x, rfl, hexecute, rfl⟩

theorem shared_congr {i : Mipssim.Instruction} (h : m₁.registers = m.registers) :
    SlotClear i m₁ ∧ Shared i m₁ ↔ SlotClear i m ∧ Shared i m := by
  simp only [SlotClear, Shared, Straight, h]

theorem Follows.during (h : Follows m c) (hm : m.Alike m₁) : During m₁ c.next where
  pc := by rw [hm.registers, ← h.npc]; rfl
  npc := by rw [hm.registers, ← h.npc]; rfl
  reg r := by
    rw [hm.registers]
    by_cases hr : r = 0
    · rw [hr, next_zero, Mipssim.carriedOut_zero]
    · rw [← h.reg hr]
      exact Function.update_of_ne hr _ _
  hi := by rw [hm.registers, ← h.hi]; rfl
  lo := by rw [hm.registers, ← h.lo]; rfl
  mem := h.mem.of_memory hm.toSameMemory

/-- What one instruction that is shared does. -/
theorem step_follows {m' : Mipssim.Machine} (h : Follows m c) (hzero : m.registers.gpr 0 = 0)
    (hcommon : Common m) (hstep : Mipssim.oneInstruction m = .ok m') :
    ∃ c', c.step = .ok c' ∧ Follows m' c' ∧ m'.registers.gpr 0 = 0 := by
  obtain ⟨w, m₁, x, hfetch, hexecute, rfl⟩ := oneInstruction_ok hstep
  have halike := Mipssim.Machine.readMem_alike hfetch
  obtain ⟨hclear, hshared⟩ := (shared_congr halike.registers).mpr (hcommon w m₁ hfetch)
  obtain ⟨p, hplace, hword⟩ := h.mem.read (.inr (.inr rfl)) hfetch
  have hfetch' : c.fetch c.pc = .ok w := by
    rw [Cpu.fetch, h.pc, hplace, ← hword]
    rfl
  obtain ⟨c', hinstr, hfollows⟩ := instruction_follows (h.during halike)
    (halike.registers ▸ hzero) hclear hshared hexecute
  refine ⟨c', ?_, hfollows, Mipssim.carriedOut_zero x.machine.registers⟩
  rw [step_eq hfetch', h.pc, ← halike.registers, hinstr]

/-- A program of shared instructions runs in both processors alike: the other interpreter takes the
same number of steps, and registers and memory are the same at the end. -/
theorem runprogram_follows {m' : Mipssim.Machine} {es : List Unit} (h : Follows m c)
    (hzero : m.registers.gpr 0 = 0) (hcommon : simulator.Meets (fun m _ => Common m) m es)
    (hrun : simulator.run m es = some m') :
    ∃ c', interpreter.run c es = some c' ∧ Follows m' c' := by
  have hstep : ∀ m c (e : Unit) m', (Follows m c ∧ m.registers.gpr 0 = 0) → Common m →
      simulator.step m e = some m' →
        ∃ c', interpreter.step c e = some c' ∧ Follows m' c' ∧ m'.registers.gpr 0 = 0 := by
    rintro m c _ m' ⟨h, hzero⟩ hcommon hstep
    obtain ⟨c', hc', hkept⟩ := step_follows h hzero hcommon (toOption_eq_some.mp hstep)
    exact ⟨c', toOption_eq_some.mpr hc', hkept⟩
  obtain ⟨c', hc', hfollows, _⟩ := hcommon.simulated hstep ⟨h, hzero⟩ hrun
  exact ⟨c', hc', hfollows⟩

/-- Register 1 is loaded from address 16 of the page and stored at 20, behind the slot. -/
def copyWords : List Word := [0x3c021000, 0x8c410010, 0x3c030005, 0xac410014, 9]

/-- The page at `memoffset` has the first frame. -/
def copyMachine : Mipssim.Machine where
  registers :=
    { gpr := fun _ => 0, hi := 0, lo := 0, pc := 0x10000000, nextPC := 0x10000004, prevPC := 0
      loadReg := 0, loadValue := 0, badVAddr := 0 }
  mainMemory := Mem.words copyWords
  tlb := some [⟨0x200000, 0, true, false, false, false⟩]
  pageTable := none

def copyCpu : Cpu where
  reg := fun _ => 0
  hi := 0
  lo := 0
  pc := 0x10000000
  npc := 0x10000004
  mem := Mem.words copyWords

theorem copyMachine_maps {vpn : ℕ} {frame : Word} (h : copyMachine.Maps vpn frame) :
    vpn = 0x200000 ∧ frame = 0 := by
  obtain ⟨entry, _, rfl, ⟨tlb, htlb, hmem, rfl⟩ | ⟨pageTable, hpt, _⟩⟩ := h
  · cases htlb
    obtain rfl := List.mem_singleton.mp hmem
    exact ⟨rfl, rfl⟩
  · cases hpt

theorem copy_follows : Follows copyMachine copyCpu where
  pc := rfl
  npc := rfl
  reg hr := (Mipssim.carriedOut_of_ne (R := copyMachine.registers) rfl hr).symm
  hi := rfl
  lo := rfl
  mem :=
    { oneToOne :=
        { oneTable := iff_of_true rfl rfl
          distinct := fun h h' => (copyMachine_maps h).1.trans (copyMachine_maps h').1.symm }
      byte := fun {addr pa} h => by
        obtain ⟨frame, hmaps, _, rfl, _⟩ := Mipssim.physical_frame (.inl rfl) h
        obtain ⟨hvpn, rfl⟩ := copyMachine_maps hmaps
        rw [Mipssim.pageSize] at hvpn ⊢
        have hlow : memOffset ≤ addr.toNat ∧ addr.toNat < memOffset + memSize := by
          rw [memOffset, memSize]
          omega
        refine ⟨hlow.1, hlow.2, congrArg (Mem.words copyWords) ?_⟩
        rw [memOffset, toNat_zero_word]
        omega }

theorem copyMachine_run : ∃ m, simulator.run copyMachine [(), (), (), ()] = some m ∧
    m.mainMemory.word 20 = 9 := ⟨_, rfl, rfl⟩

theorem copyMachine_common :
    simulator.Meets (fun m _ => Common m) copyMachine [(), (), (), ()] := by
  refine fun m₁ h₁ => ⟨?_, fun m₂ h₂ => ⟨?_, fun m₃ h₃ => ⟨?_, fun m₄ h₄ => ⟨?_, trivial⟩⟩⟩⟩
  · intro w m hfetch
    cases hfetch
    exact ⟨fun h => absurd rfl h, trivial⟩
  · cases h₁
    intro w m hfetch
    cases hfetch
    exact ⟨fun h => absurd rfl h, trivial⟩
  · cases h₁
    cases h₂
    intro w m hfetch
    cases hfetch
    exact ⟨fun h => ⟨by decide, by decide⟩, trivial⟩
  · cases h₁
    cases h₂
    cases h₃
    intro w m hfetch
    cases hfetch
    exact ⟨fun h => absurd rfl h, trivial⟩

theorem runprogram_follows_copyCpu :
    ∃ m c, simulator.run copyMachine [(), (), (), ()] = some m ∧
      interpreter.run copyCpu [(), (), (), ()] = some c ∧ Follows m c ∧
        m.mainMemory.word 20 = 9 := by
  obtain ⟨m, hrun, hword⟩ := copyMachine_run
  obtain ⟨c, hc, hfollows⟩ := runprogram_follows copy_follows rfl copyMachine_common hrun
  exact ⟨m, c, hrun, hc, hfollows, hword⟩

end Coursework.Nachos.Execute
