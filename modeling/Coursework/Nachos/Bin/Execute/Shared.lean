import Coursework.Nachos.Bin.Execute.Lockstep

/-!
# Instructions that both processors share

Left out are the instructions that one of the two gets wrong, a branch behind a branch, and the use
of a register that is still being loaded. Any other instruction keeps the processors in the same
state, first of all those of `SPECIAL` and `BCOND`.
-/
namespace Coursework.Nachos.Execute
open Mips (Word Reg opField rsField rtField rdField shamtField functField immediateField)
open Mipssim (Executed Instruction loaded magnitude)

/-- The general registers that the instruction reads. -/
def sources (i : Instruction) : List Reg :=
  match i.opCode with
  | .add | .addu | .and | .beq | .bne | .div | .divu | .mult | .multu | .nor | .or | .sb | .sh
  | .sllv | .slt | .sltu | .srav | .srlv | .sub | .subu | .sw | .swl | .swr | .xor => [i.rs, i.rt]
  | .addi | .addiu | .andi | .bgez | .bgezal | .bgtz | .blez | .bltz | .bltzal | .jalr | .jr | .lb
  | .lbu | .lh | .lhu | .lw | .lwl | .lwr | .mthi | .mtlo | .ori | .slti | .sltiu | .xori => [i.rs]
  | .sll | .sra | .srl => [i.rt]
  | _ => []

/-- The register that is being loaded is not read, and it is written by a load only. -/
def SlotClear (i : Instruction) (m : Mipssim.Machine) : Prop :=
  m.registers.loadReg ≠ 0 → m.registers.loadReg ∉ sources i ∧
    (i.isLoad = false → i.target ≠ some m.registers.loadReg)

/-- The instruction is not in the slot behind a branch that is taken. -/
def Straight (m : Mipssim.Machine) : Prop := m.registers.nextPC = m.registers.pc + 4

/-- The instruction does the same in both processors. -/
def Shared (i : Instruction) (m : Mipssim.Machine) : Prop :=
  let s := m.registers.gpr i.rs
  let t := m.registers.gpr i.rt
  match i.opCode with
  | .andi => i.rt = 0 ∨ i.extra.msb = false ∨ s.toNat < 2 ^ 16
  | .ori => i.rt = 0 ∨ i.extra.msb = false ∨ 2 ^ 32 - 2 ^ 16 ≤ s.toNat
  | .xori => i.rt = 0 ∨ i.extra.msb = false
  | .or => i.rd = 0 ∨ s ||| t = s
  | .srl => i.rd = 0 ∨ i.extra = 0 ∨ t.msb = false
  | .srlv => s.toNat < 32 ∧ (i.rd = 0 ∨ s = 0 ∨ t.msb = false)
  | .sllv | .srav => s.toNat < 32
  | .div | .divu => t ≠ 0
  | .mult => NoCarry (magnitude true s).toNat (magnitude true t).toNat
  | .multu => NoCarry s.toNat t.toNat
  | .beq | .bne | .blez | .bgtz | .bltz | .bgez | .bltzal | .bgezal => Straight m
  | .j | .jal =>
    Straight m ∧ (m.registers.pc + 8) &&& 0xf0000000 = m.registers.pc &&& 0xf0000000
  | .jalr => Straight m ∧ i.rd ≠ i.rs
  | .lwl | .lwr | .swl | .swr => False
  | _ => True

variable {m m₁ : Mipssim.Machine} {c : Cpu} {w v : Word} {x : Executed} {i : Instruction} {r : Reg}

/-! ### Registers -/

/-- A register that is not being loaded. -/
theorem During.source (h : During m c) (hzero : m.registers.gpr 0 = 0)
    (hr : m.registers.loadReg ≠ 0 → m.registers.loadReg ≠ r) : c.reg r = m.registers.gpr r := by
  rw [h.reg]
  by_cases hload : m.registers.loadReg = r
  · have h0 : r = 0 := by
      by_contra hne
      exact hr (fun h0 => hne (hload ▸ h0)) hload
    rw [h0, hzero, Mipssim.carriedOut_zero]
  · exact Mipssim.carriedOut_of_ne hzero fun heq => hload heq.symm

theorem During.rs (h : During m c) (hzero : m.registers.gpr 0 = 0) (hclear : SlotClear i m)
    (hi : i.rs ∈ sources i) : c.reg i.rs = m.registers.gpr i.rs :=
  h.source hzero fun hload heq => (hclear hload).1 (heq ▸ hi)

theorem During.rt (h : During m c) (hzero : m.registers.gpr 0 = 0) (hclear : SlotClear i m)
    (hi : i.rt ∈ sources i) : c.reg i.rt = m.registers.gpr i.rt :=
  h.source hzero fun hload heq => (hclear hload).1 (heq ▸ hi)

/-- A register that is written is not being loaded. -/
theorem SlotClear.target (hclear : SlotClear i m) (hload : i.isLoad = false)
    (ht : i.target = some r) : m.registers.loadReg ≠ 0 → r ≠ m.registers.loadReg := by
  rintro hpending rfl
  exact (hclear hpending).2 hload ht

/-! ### The case `I_SPECIAL` -/

theorem special_other : ∀ k < 64, k ∉ [0x00, 0x02, 0x03, 0x04, 0x06, 0x07, 0x08, 0x09, 0x0c, 0x0d,
    0x10, 0x11, 0x12, 0x13, 0x18, 0x19, 0x1a, 0x1b, 0x20, 0x21, 0x22, 0x23, 0x24, 0x25, 0x26, 0x27,
    0x2a, 0x2b] → Mipssim.specialTable[k]? = some .res := by
  decide

/-- A general register is written. -/
theorem write_follows (h : During m c) (hclear : SlotClear i m) (hload : i.isLoad = false)
    (ht : i.target = some r) {v' : Word} (hv : r ≠ 0 → v' = v) :
    Follows (m.set r v).next.commit (c.set r v') := by
  have hnext : (m.set r v).next = ⟨m.set r v, c.npc, 0, 0⟩ := by
    rw [h.npc]
    rfl
  rw [hnext]
  exact follows_write h (hclear.target hload ht) hv c.npc

/-- Both leave the address behind the slot. -/
theorem Straight.link (hstraight : Straight m) :
    m.registers.pc + 8 = m.registers.nextPC + 4 := by
  rw [hstraight, BitVec.add_assoc]
  rfl

theorem special_follows (h : During m c) (hzero : m.registers.gpr 0 = 0)
    (hop : (opField w).toNat = 0) (hclear : SlotClear (Mipssim.decode w) m)
    (hshared : Shared (Mipssim.decode w) m)
    (hx : Mipssim.execute (Mipssim.decode w) m = .ok x) :
    ∃ c', c.special w m.registers.pc = .ok c' ∧ Follows x.commit c' := by
  have hfield : (w &&& 0x3f).toNat = (functField w).toNat := Mipssim.functField_toNat w
  rw [Cpu.special, hfield]
  simp only [rd_eq, rs_eq, rt_eq, shamt_toNat]
  split <;> rename_i hfunct
  case h_29 =>
    have hrow := special_other (functField w).toNat (functField w).isLt (by
      simp only [List.mem_cons, List.not_mem_nil, or_false, not_or]
      constructorm* _ ∧ _ <;> assumption)
    rw [Mipssim.decode_special hop rfl hrow] at hx
    cases hx
  all_goals
    rw [Mipssim.decode_special hop hfunct rfl] at hx hclear hshared
  case h_1 | h_3 =>
    have ht := h.rt hzero hclear (.head _)
    cases hx
    refine ⟨_, rfl, write_follows h hclear rfl rfl fun _ => ?_⟩
    rw [ht, Mipssim.shamt_amount]
  case h_2 =>
    have ht := h.rt hzero hclear (.head _)
    cases hx
    refine ⟨_, rfl, write_follows h hclear rfl rfl fun hr => ?_⟩
    rw [ht, Mipssim.shamt_amount, Mipssim.shift_eq_iff]
    refine (Or.resolve_left hshared hr).imp_left fun hextra => ?_
    rw [← Mipssim.shamt_amount]
    exact congrArg BitVec.toNat hextra
  case h_4 | h_6 =>
    have hs := h.rs hzero hclear (.head _)
    have ht := h.rt hzero hclear (.tail _ (.head _))
    have hlt : (m.registers.gpr (rsField w)).toNat < 32 := hshared
    cases hx
    refine ⟨_, if_pos (hs ▸ hlt), write_follows h hclear rfl rfl fun _ => ?_⟩
    rw [hs, ht, Mipssim.shift_amount, Nat.mod_eq_of_lt hlt]
  case h_5 =>
    have hs := h.rs hzero hclear (.head _)
    have ht := h.rt hzero hclear (.tail _ (.head _))
    obtain ⟨hlt, hright⟩ : (m.registers.gpr (rsField w)).toNat < 32 ∧ _ := hshared
    cases hx
    refine ⟨_, if_pos (hs ▸ hlt), write_follows h hclear rfl rfl fun hr => ?_⟩
    rw [hs, ht, Mipssim.shift_amount, Nat.mod_eq_of_lt hlt, Mipssim.shift_eq_iff]
    exact (hright.resolve_left hr).imp_left (congrArg BitVec.toNat)
  case h_7 =>
    have hs := h.rs hzero hclear (.head _)
    cases hx
    exact ⟨_, rfl, hs ▸ follows_branch h _⟩
  case h_8 =>
    have hs := h.rs hzero hclear (.head _)
    obtain ⟨hstraight, hne⟩ : Straight m ∧ rdField w ≠ rsField w := hshared
    have hread : (m.set (rdField w) (m.registers.nextPC + 4)).registers.gpr (rsField w) =
        m.registers.gpr (rsField w) := Function.update_of_ne hne.symm _ _
    cases hx
    refine ⟨_, rfl, ?_⟩
    rw [hs, ← hread]
    exact follows_write h (hclear.target rfl rfl) (fun _ => hstraight.link) _
  case h_9 | h_10 => cases hx
  case h_11 =>
    cases hx
    exact ⟨_, rfl, write_follows h hclear rfl rfl fun _ => h.hi⟩
  case h_13 =>
    cases hx
    exact ⟨_, rfl, write_follows h hclear rfl rfl fun _ => h.lo⟩
  case h_12 =>
    have hs := h.rs hzero hclear (.head _)
    cases hx
    exact ⟨_, rfl, hs ▸ h.lo ▸ follows_hiLo h _ c.lo⟩
  case h_14 =>
    have hs := h.rs hzero hclear (.head _)
    cases hx
    exact ⟨_, rfl, hs ▸ h.hi ▸ follows_hiLo h c.hi _⟩
  case h_15 =>
    have hs := h.rs hzero hclear (.head _)
    have ht := h.rt hzero hclear (.tail _ (.head _))
    cases hx
    refine ⟨_, rfl, ?_⟩
    rw [hs, ht, (execute_agrees _ _).1.mpr hshared]
    exact follows_hiLo h _ _
  case h_16 =>
    have hs := h.rs hzero hclear (.head _)
    have ht := h.rt hzero hclear (.tail _ (.head _))
    cases hx
    refine ⟨_, rfl, ?_⟩
    rw [hs, ht, (execute_agrees _ _).2.mpr hshared]
    exact follows_hiLo h _ _
  case h_17 =>
    have hs : c.reg (rsField w) = m.registers.gpr (rsField w) := h.rs hzero hclear (.head _)
    have ht : c.reg (rtField w) = m.registers.gpr (rtField w) :=
      h.rt hzero hclear (.tail _ (.head _))
    have hdivisor : m.registers.gpr (rtField w) ≠ 0 := hshared
    rw [Mipssim.execute] at hx
    simp only [if_neg hdivisor] at hx
    obtain ⟨htrap, hx⟩ := Mipssim.ite_error_eq_ok.mp hx
    cases hx
    rw [hs, ht]
    exact ⟨_, if_neg (not_or.mpr ⟨hdivisor, htrap⟩), follows_hiLo h _ _⟩
  case h_18 =>
    have hs := h.rs hzero hclear (.head _)
    have ht := h.rt hzero hclear (.tail _ (.head _))
    have hdivisor : m.registers.gpr (rtField w) ≠ 0 := hshared
    rw [Mipssim.execute] at hx
    simp only [if_neg hdivisor] at hx
    cases hx
    rw [hs, ht, if_neg hdivisor]
    exact ⟨_, rfl, follows_hiLo h _ _⟩
  case h_19 | h_21 =>
    have hs := h.rs hzero hclear (.head _)
    have ht := h.rt hzero hclear (.tail _ (.head _))
    obtain ⟨_, hx⟩ := Mipssim.ite_error_eq_ok.mp hx
    cases hx
    exact ⟨_, rfl, write_follows h hclear rfl rfl fun _ => by rw [hs, ht]⟩
  case h_24 =>
    have hs := h.rs hzero hclear (.head _)
    have ht := h.rt hzero hclear (.tail _ (.head _))
    cases hx
    refine ⟨_, rfl, write_follows h hclear rfl rfl fun hr => ?_⟩
    rw [hs, ht, BitVec.or_self]
    exact Or.resolve_left hshared hr
  all_goals
    have hs := h.rs hzero hclear (.head _)
    have ht := h.rt hzero hclear (.tail _ (.head _))
    cases hx
    exact ⟨_, rfl, write_follows h hclear rfl rfl fun _ => by rw [hs, ht]⟩

/-! ### Branches -/

variable {p : Prop} [Decidable p] {taken : Bool}

/-- The target of a branch that is not behind another one. -/
theorem Straight.target (hstraight : Straight m) (offset : Word) :
    m.registers.pc + 4 + offset <<< 2 = m.registers.nextPC + Mipssim.indexToAddr offset := by
  rw [hstraight]
  rfl

theorem branch_follows (h : During m c) (hstraight : Straight m) (hi : i.extra = immed w)
    (htaken : taken = true ↔ p) :
    Follows (if p then m.branch i else m.next).commit (c.branch w m.registers.pc taken) := by
  by_cases hp : p
  · rw [if_pos hp, Cpu.branch, if_pos (htaken.mpr hp), hstraight.target, ← hi]
    exact follows_branch h _
  · rw [if_neg hp, Cpu.branch, if_neg fun ht => hp (htaken.mp ht)]
    rw [Mipssim.Machine.next, ← h.npc]
    exact follows_branch h c.npc

theorem link_follows (h : During m c) (hclear : SlotClear i m) (ht : i.target = some Mipssim.R31)
    (hload : i.isLoad = false) (hstraight : Straight m) (hi : i.extra = immed w)
    (htaken : taken = true ↔ p) :
    Follows (if p then (m.set Mipssim.R31 (m.registers.nextPC + 4)).branch i
        else (m.set Mipssim.R31 (m.registers.nextPC + 4)).next).commit
      ((c.set 31 (m.registers.pc + 8)).branch w m.registers.pc taken) := by
  by_cases hp : p
  · rw [if_pos hp, Cpu.branch, if_pos (htaken.mpr hp), hstraight.target, ← hi]
    exact follows_write h (hclear.target hload ht) (fun _ => hstraight.link) _
  · rw [if_neg hp, Cpu.branch, if_neg fun ht => hp (htaken.mp ht)]
    exact write_follows h hclear hload ht fun _ => hstraight.link

/-- The register that a branch tests may be the one that is written. -/
theorem link_source (hstraight : Straight m) (hr : c.reg r = m.registers.gpr r) :
    (c.set 31 (m.registers.pc + 8)).reg r =
      (m.set Mipssim.R31 (m.registers.nextPC + 4)).registers.gpr r := by
  change Function.update c.reg 31 _ r = Function.update m.registers.gpr 31 _ r
  rw [Function.update_apply, Function.update_apply, hr, hstraight.link]

theorem sign_taken (s : Word) : decide (s.toInt < 0) = true ↔ s &&& Mipssim.signBit ≠ 0 := by
  rw [Mipssim.signBit_ne_zero, BitVec.msb_eq_toInt]

theorem noSign_taken (s : Word) :
    decide (s.toInt ≥ 0) = true ↔ ¬ s &&& Mipssim.signBit ≠ 0 := by
  rw [← sign_taken, decide_eq_true_iff, decide_eq_true_iff, not_lt]

theorem and_shiftLeft (w mask : Word) (k : ℕ) :
    w &&& mask <<< k = (w >>> k &&& mask) <<< k := by
  apply BitVec.eq_of_getLsbD_eq
  intro j hj
  simp only [BitVec.getLsbD_and, BitVec.getLsbD_shiftLeft, BitVec.getLsbD_ushiftRight,
    decide_eq_true hj, Bool.true_and]
  by_cases hlow : j < k
  · simp [hlow]
  · have hadd : k + (j - k) = j := by omega
    simp [hlow, hadd]

/-- The field that tells these branches apart. -/
theorem bcond_field (w : Word) : (w &&& 0x1f0000).toNat = (rtField w).toNat * 2 ^ 16 := by
  have hshift : (w &&& 0x1f0000 : Word) = (w >>> 16 &&& 0x1f) <<< 16 := and_shiftLeft w 0x1f 16
  have hlt := (w.extractLsb' 16 5).isLt
  rw [hshift, BitVec.toNat_shiftLeft, Mipssim.mask_field, Nat.shiftLeft_eq, rtField]
  exact Nat.mod_eq_of_lt (by omega)

theorem bcond_field_eq {k : ℕ} (w : Word) (hk : k < 32) :
    w &&& 0x1f0000 = .ofNat 32 (k * 2 ^ 16) ↔ (rtField w).toNat = k := by
  rw [← BitVec.toNat_inj, bcond_field, BitVec.toNat_ofNat, Nat.mod_eq_of_lt (by omega)]
  omega

/-- An instruction whose opcode is `BCOND`. -/
theorem decode_bcond (h : (opField w).toNat = 1) :
    Mipssim.decode w =
      ⟨if (rtField w).toNat = 0 then .bltz else if (rtField w).toNat = 1 then .bgez
        else if (rtField w).toNat = 16 then .bltzal else if (rtField w).toNat = 17 then .bgezal
        else .unimp, rsField w, rtField w, rdField w, (immediateField w).signExtend 32⟩ := by
  have hrow : Mipssim.opTable[1]? = some ⟨.bcond, .ifmt⟩ := rfl
  have h0 : w &&& 0x1f0000 = 0 ↔ _ := bcond_field_eq w (k := 0) (by decide)
  have h1 : w &&& 0x1f0000 = 0x10000 ↔ _ := bcond_field_eq w (k := 1) (by decide)
  have h16 : w &&& 0x1f0000 = 0x100000 ↔ _ := bcond_field_eq w (k := 16) (by decide)
  have h17 : w &&& 0x1f0000 = 0x110000 ↔ _ := bcond_field_eq w (k := 17) (by decide)
  rw [Mipssim.decode, Mipssim.opField_toNat, h, List.getD_eq_getElem?_getD, hrow]
  simp only [Option.getD_some, reduceCtorEq, if_false, if_true, Mipssim.immediate_extra,
    Mipssim.reg_field, h0, h1, h16, h17]
  rfl

/-- An instruction that jumps. -/
theorem decode_jfmt {op : Mipssim.OpCode} {k : ℕ} (h : (opField w).toNat = k)
    (hrow : Mipssim.opTable[k]? = some ⟨op, .jfmt⟩) (hspecial : op ≠ .special)
    (hbcond : op ≠ .bcond) :
    Mipssim.decode w = ⟨op, rsField w, rtField w, rdField w, w &&& 0x3ffffff⟩ := by
  rw [Mipssim.decode, Mipssim.opField_toNat, h, List.getD_eq_getElem?_getD, hrow]
  simp only [Option.getD_some, if_neg hspecial, if_neg hbcond, Mipssim.reg_field]
  rfl

theorem bcond_follows (h : During m c) (hzero : m.registers.gpr 0 = 0)
    (hop : (opField w).toNat = 1) (hclear : SlotClear (Mipssim.decode w) m)
    (hshared : Shared (Mipssim.decode w) m)
    (hx : Mipssim.execute (Mipssim.decode w) m = .ok x) :
    ∃ c', c.bcond w m.registers.pc = .ok c' ∧ Follows x.commit c' := by
  rw [decode_bcond hop] at hx hclear hshared
  rw [Cpu.bcond, rt_eq, rs_eq]
  split <;> rename_i hrt
  case h_5 _ h0 h1 h16 =>
    rw [if_neg h0, if_neg h1, if_neg h16, if_neg hrt] at hx
    cases hx
  all_goals
    simp only [hrt, Nat.reduceEqDiff, if_true, if_false] at hx hclear hshared
  case h_1 =>
    have hs := h.rs hzero hclear (.head _)
    cases hx
    exact ⟨_, rfl, branch_follows h hshared (immed_eq w).symm (hs ▸ sign_taken _)⟩
  case h_2 =>
    have hs := h.rs hzero hclear (.head _)
    cases hx
    exact ⟨_, rfl, branch_follows h hshared (immed_eq w).symm (hs ▸ noSign_taken _)⟩
  case h_3 =>
    have hs := link_source hshared (h.rs hzero hclear (.head _))
    cases hx
    exact ⟨_, rfl, link_follows h hclear rfl rfl hshared (immed_eq w).symm (hs ▸ sign_taken _)⟩
  case h_4 =>
    have hs := link_source hshared (h.rs hzero hclear (.head _))
    cases hx
    exact ⟨_, rfl, link_follows h hclear rfl rfl hshared (immed_eq w).symm (hs ▸ noSign_taken _)⟩

/-- The region of the target is that of the branch itself. -/
theorem jump_target (hstraight : Straight m)
    (hregion : (m.registers.pc + 8) &&& 0xf0000000 = m.registers.pc &&& 0xf0000000) (w : Word) :
    m.registers.pc &&& 0xf0000000 ||| (w &&& 0x03ffffff) <<< 2 =
      (m.registers.nextPC + 4) &&& 0xf0000000 ||| Mipssim.indexToAddr (w &&& 0x3ffffff) := by
  rw [← hstraight.link, hregion]
  rfl

end Coursework.Nachos.Execute
