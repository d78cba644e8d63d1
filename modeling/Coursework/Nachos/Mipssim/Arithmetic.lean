import Coursework.Nachos.Mipssim.Decode
import Coursework.Nachos.Mipssim.OneInstruction
import Coursework.Nachos.Mipssim.Translate

/-!
# The simulator and the architecture

An instruction that computes in registers leaves the registers that the architecture defines, but
for `OR`, which takes `rs` for both operands, and for the logical shifts to the right, which shift
the sign in.
-/
namespace Coursework.Nachos.Mipssim
open Mips (Word Reg Fits checked)

/-! ### The bits of a result -/

theorem signBit_ne_zero (a : Word) : a &&& signBit ≠ 0 ↔ a.msb = true := by
  rw [ne_eq, signBit, and_top_eq_zero, Bool.not_eq_false]

/-- The operands of a sum that does not fit have one sign, and the sum has another. -/
theorem sum_overflow (s t : Word) :
    (¬ (s ^^^ t) &&& signBit ≠ 0 ∧ (s ^^^ (s + t)) &&& signBit ≠ 0) ↔
      ¬ Fits (s.toInt + t.toInt) := by
  have hs := s.toInt_lt
  have hs' := s.le_toInt
  have ht := t.toInt_lt
  have ht' := t.le_toInt
  rw [signBit_ne_zero, signBit_ne_zero, BitVec.msb_xor, BitVec.msb_xor]
  simp only [BitVec.msb_eq_toInt, BitVec.toInt_add, Int.bmod_def, decide_eq_decide, bne_iff_ne,
    ne_eq, Fits] at hs hs' ht ht' ⊢
  split_ifs <;> omega

/-- The operands of a difference that does not fit have two signs, and the difference has the
second one. -/
theorem difference_overflow (s t : Word) :
    ((s ^^^ t) &&& signBit ≠ 0 ∧ (s ^^^ (s - t)) &&& signBit ≠ 0) ↔
      ¬ Fits (s.toInt - t.toInt) := by
  have hs := s.toInt_lt
  have hs' := s.le_toInt
  have ht := t.toInt_lt
  have ht' := t.le_toInt
  rw [signBit_ne_zero, signBit_ne_zero, BitVec.msb_xor, BitVec.msb_xor]
  simp only [BitVec.msb_eq_toInt, BitVec.toInt_sub, Int.bmod_def, decide_eq_decide, bne_iff_ne,
    ne_eq, Fits] at hs hs' ht ht' ⊢
  split_ifs <;> omega

theorem ofInt_toInt_add (s t : Word) : .ofInt 32 (s.toInt + t.toInt) = s + t := by
  rw [BitVec.ofInt_add, BitVec.ofInt_toInt, BitVec.ofInt_toInt]

theorem ofInt_toInt_sub (s t : Word) : .ofInt 32 (s.toInt - t.toInt) = s - t := by
  rw [Int.sub_eq_add_neg, BitVec.ofInt_add, BitVec.ofInt_neg, BitVec.ofInt_toInt,
    BitVec.ofInt_toInt, BitVec.sub_eq_add_neg]

theorem ofNat_toNat (s : Word) : .ofNat 32 s.toNat = s := by
  rw [BitVec.ofNat_toNat, BitVec.setWidth_eq]

theorem ofNat_toNat_add (s t : Word) : .ofNat 32 (s.toNat + t.toNat) = s + t := by
  rw [BitVec.ofNat_add, ofNat_toNat, ofNat_toNat]

theorem ofInt_toNat_sub (s t : Word) : .ofInt 32 ((s.toNat : ℤ) - t.toNat) = s - t := by
  rw [Int.sub_eq_add_neg, BitVec.ofInt_add, BitVec.ofInt_neg, BitVec.ofInt_natCast,
    BitVec.ofInt_natCast, ofNat_toNat, ofNat_toNat, BitVec.sub_eq_add_neg]

/-- The one quotient that does not fit is left out. -/
theorem ofInt_tdiv {s t : Word} (h : ¬ (s = signBit ∧ t = -1)) :
    .ofInt 32 (s.toInt.tdiv t.toInt) = s.sdiv t := by
  rw [← BitVec.toInt_sdiv_of_ne_or_ne s t (not_and_or.mp h), BitVec.ofInt_toInt]

theorem ofInt_tmod (s t : Word) : .ofInt 32 (s.toInt.tmod t.toInt) = s.srem t := by
  rw [← BitVec.toInt_srem, BitVec.ofInt_toInt]

theorem ofNat_div (s t : Word) : .ofNat 32 (s.toNat / t.toNat) = s / t := by
  rw [← BitVec.toNat_udiv, ofNat_toNat]

theorem ofNat_mod (s t : Word) : .ofNat 32 (s.toNat % t.toNat) = s % t := by
  rw [← BitVec.toNat_umod, ofNat_toNat]

theorem immediate_zero_extended (immediate : BitVec 16) :
    immediate.signExtend 32 &&& 0xffff = immediate.setWidth 32 := by
  have hlow : (immediate.signExtend 32 &&& 0xffff).toNat = _ :=
    toNat_and_low (immediate.signExtend 32) (k := 16) (by decide)
  have hlt := immediate.isLt
  apply BitVec.eq_of_toNat_eq
  rw [hlow, BitVec.toNat_signExtend, BitVec.toNat_setWidth]
  split_ifs <;> omega

theorem immediate_upper (immediate : BitVec 16) :
    immediate.signExtend 32 <<< 16 = immediate ++ 0#16 := by
  apply BitVec.eq_of_getLsbD_eq
  intro j hj
  rw [BitVec.getLsbD_shiftLeft, BitVec.getLsbD_append, BitVec.getLsbD_signExtend]
  by_cases hlow : j < 16
  · simp [hlow]
  · have hlt : j - 16 < 16 := by omega
    have hlt' : j - 16 < 32 := by omega
    simp [hlow, hlt, hj, hlt']

theorem shift_amount (s : Word) : (s &&& 0x1f).toNat = s.toNat % 32 :=
  toNat_and_low s (k := 5) (by decide)

theorem shamt_amount (shamt : BitVec 5) : (shamt.setWidth 32 : Word).toNat = shamt.toNat := by
  have hlt := shamt.isLt
  rw [BitVec.toNat_setWidth]
  omega

theorem ofBool_decide (p : Prop) [Decidable p] : Mips.ofBool p = if p then 1 else 0 := by
  by_cases h : p
  · rw [if_pos h, decide_eq_true h]
    rfl
  · rw [if_neg h, decide_eq_false h]
    rfl

/-! ### What an instruction leaves -/

/-- The registers that the architecture has. -/
def Registers.arch (R : Registers) : Mips.Regs := ⟨R.gpr, R.hi, R.lo⟩

/-- The instruction ends with these registers, or at an overflow that writes none. -/
def Gives (R : Mips.Regs) (result : Option Mips.Regs) : Except Stop Machine → Prop
  | .ok m => result = some m.registers.arch
  | .error (.raised .overflow m) => result = none ∧ m.registers.arch = R.write 0 0
  | .error _ => False

/-- What the simulator computes instead. -/
def computed (R : Mips.Regs) : Mips.Arith → Option Mips.Regs
  | .reg .or rd rs _ => some (R.write rd (R.gpr rs))
  | .reg .srlv rd rs rt => some (R.write rd ((R.gpr rt).sshiftRight ((R.gpr rs).toNat % 32)))
  | .shift .srl rd rt shamt => some (R.write rd ((R.gpr rt).sshiftRight shamt.toNat))
  | i => i.exec R

variable {R : Mips.Regs} {result result' : Option Mips.Regs} {e : Except Stop Machine}

/-- There is one result. -/
theorem Gives.iff (h : Gives R result e) : Gives R result' e ↔ result' = result := by
  rcases e with stop | m
  · rcases stop with ⟨which, m⟩ | _ | _
    · cases which
      case overflow =>
        rw [h.1]
        exact ⟨And.left, fun hnone => ⟨hnone, h.2⟩⟩
      all_goals cases h
    · cases h
    · cases h
  · rw [show result = some m.registers.arch from h]
    rfl

variable {m : Machine} {r : Reg} {v : Word} {x : ℤ} {c : Prop} [Decidable c]

/-- A load that is not pending is to register 0. -/
theorem delayedLoad_arch (hload : m.registers.loadReg = 0) (nextReg : Reg) (nextValue : Word) :
    (m.delayedLoad nextReg nextValue).registers.arch =
      ⟨Function.update m.registers.gpr 0 0, m.registers.hi, m.registers.lo⟩ := by
  rw [Machine.delayedLoad, Registers.arch]
  simp only
  rw [hload, Function.update_idem]

theorem gives_write (hload : m.registers.loadReg = 0) (r : Reg) (v : Word) :
    Gives m.registers.arch (some (m.registers.arch.write r v)) (.ok (m.set r v).next.commit) :=
  congrArg some (delayedLoad_arch (m := m.set r v) hload 0 0).symm

theorem gives_setHiLo (hload : m.registers.loadReg = 0) (hi lo : Word) :
    Gives m.registers.arch (some { m.registers.arch.write 0 0 with hi := hi, lo := lo })
      (.ok (m.setHiLo hi lo).next.commit) := by
  have harch := delayedLoad_arch (m := m.setHiLo hi lo) hload 0 0
  refine congrArg some (Eq.trans ?_ harch.symm)
  rw [Mips.Regs.write, Function.update_idem]
  rfl

theorem gives_overflow (hload : m.registers.loadReg = 0) :
    Gives m.registers.arch none (.error (m.raiseException .overflow 0)) := by
  refine ⟨rfl, Eq.trans (delayedLoad_arch (m := { m with registers.badVAddr := 0 }) hload 0 0) ?_⟩
  rw [Mips.Regs.write, Function.update_idem]
  rfl

/-- The register has the value that the instruction is for. -/
theorem gives_value (hload : m.registers.loadReg = 0) {r : Reg} {v v' : Word} (hv : v = v') :
    Gives m.registers.arch (some (m.registers.arch.write r v)) (.ok (m.set r v').next.commit) :=
  hv ▸ gives_write hload r v

/-- A result that must fit. -/
theorem gives_checked (hload : m.registers.loadReg = 0) (hc : c ↔ ¬ Fits x)
    (hv : .ofInt 32 x = v) :
    Gives m.registers.arch ((checked x).map (m.registers.arch.write r))
      (Except.map Executed.commit
        (if c then throw (m.raiseException .overflow 0) else pure (m.set r v).next)) := by
  by_cases hfits : Fits x
  · rw [checked, if_pos hfits, if_neg (fun h => hc.mp h hfits), hv]
    exact gives_write hload r v
  · rw [checked, if_neg hfits, if_pos (hc.mpr hfits)]
    exact gives_overflow hload

/-! ### Every instruction -/

variable {i : Instruction}

theorem execute_reg {op : Mips.RegOp} {rd rs rt : Reg} (hload : m.registers.loadReg = 0)
    (hi : Decodes i (.reg op rd rs rt)) :
    Gives m.registers.arch (computed m.registers.arch (.reg op rd rs rt))
      ((execute i m).map Executed.commit) := by
  rcases i with ⟨opCode, irs, irt, ird, extra⟩
  obtain ⟨rfl, rfl, rfl, rfl⟩ := hi
  cases op with
  | add => exact gives_checked hload (sum_overflow _ _) (ofInt_toInt_add _ _)
  | sub => exact gives_checked hload (difference_overflow _ _) (ofInt_toInt_sub _ _)
  | addu => exact gives_value hload (ofNat_toNat_add _ _)
  | subu => exact gives_value hload (ofInt_toNat_sub _ _)
  | and | xor | nor => exact gives_value hload rfl
  | or => exact gives_value hload BitVec.or_self.symm
  | slt | sltu => exact gives_value hload (ofBool_decide _)
  | sllv | srlv | srav => exact gives_value hload (by rw [shift_amount]; rfl)

theorem execute_imm {op : Mips.ImmOp} {rt rs : Reg} {immediate : BitVec 16}
    (hload : m.registers.loadReg = 0) (hi : Decodes i (.imm op rt rs immediate)) :
    Gives m.registers.arch (computed m.registers.arch (.imm op rt rs immediate))
      ((execute i m).map Executed.commit) := by
  rcases i with ⟨opCode, irs, irt, ird, extra⟩
  obtain ⟨rfl, rfl, rfl, rfl⟩ := hi
  have hsigned : (immediate.signExtend 32).toInt = immediate.toInt :=
    BitVec.toInt_signExtend_of_le (by decide)
  cases op with
  | addi =>
    have hoverflow := sum_overflow (immediate.signExtend 32) (m.registers.gpr irs)
    rw [BitVec.xor_comm (immediate.signExtend 32) (m.registers.gpr irs), BitVec.add_comm,
      Int.add_comm, hsigned] at hoverflow
    exact gives_checked hload hoverflow (hsigned ▸ ofInt_toInt_add _ _)
  | addiu => exact gives_value hload (hsigned ▸ ofInt_toInt_add _ _)
  | slti => exact gives_value hload (hsigned ▸ ofBool_decide _)
  | sltiu => exact gives_value hload (ofBool_decide _)
  | andi | ori | xori => exact gives_value hload (by rw [immediate_zero_extended]; rfl)
  | lui => exact gives_value hload (immediate_upper immediate).symm

theorem execute_shift {op : Mips.ShiftOp} {rd rt : Reg} {shamt : BitVec 5}
    (hload : m.registers.loadReg = 0) (hi : Decodes i (.shift op rd rt shamt)) :
    Gives m.registers.arch (computed m.registers.arch (.shift op rd rt shamt))
      ((execute i m).map Executed.commit) := by
  rcases i with ⟨opCode, irs, irt, ird, extra⟩
  obtain ⟨rfl, rfl, rfl, rfl⟩ := hi
  cases op with
  | sll | srl | sra => exact gives_value hload (by rw [shamt_amount]; rfl)

/-- The quotient is stored where the divisor is not zero and the host can divide. -/
theorem execute_div {rs rt : Reg} (hload : m.registers.loadReg = 0) (hi : Decodes i (.div rs rt))
    (hdefined : (Mips.Arith.div rs rt).Defined m.registers.arch) :
    Gives m.registers.arch (computed m.registers.arch (.div rs rt))
      ((execute i m).map Executed.commit) := by
  rcases i with ⟨opCode, irs, irt, ird, extra⟩
  obtain ⟨rfl, rfl, rfl⟩ := hi
  obtain ⟨hzero, hfits⟩ := hdefined
  have htrap : ¬ (m.registers.gpr irs = signBit ∧ m.registers.gpr irt = -1) := by
    rintro ⟨hs, ht⟩
    rw [show m.registers.arch.gpr irs = signBit from hs,
      show m.registers.arch.gpr irt = -1 from ht] at hfits
    exact absurd hfits (by decide)
  rw [execute]
  simp only [if_neg (show ¬ m.registers.gpr irt = 0 from hzero), if_neg htrap]
  rw [← ofInt_tmod, ← ofInt_tdiv htrap]
  exact gives_setHiLo hload _ _

theorem execute_divu {rs rt : Reg} (hload : m.registers.loadReg = 0) (hi : Decodes i (.divu rs rt))
    (hdefined : (Mips.Arith.divu rs rt).Defined m.registers.arch) :
    Gives m.registers.arch (computed m.registers.arch (.divu rs rt))
      ((execute i m).map Executed.commit) := by
  rcases i with ⟨opCode, irs, irt, ird, extra⟩
  obtain ⟨rfl, rfl, rfl⟩ := hi
  rw [execute]
  simp only [if_neg (show ¬ m.registers.gpr irt = 0 from hdefined)]
  rw [← ofNat_mod, ← ofNat_div]
  exact gives_setHiLo hload _ _

theorem execute_arith {a : Mips.Arith} (hload : m.registers.loadReg = 0) (hi : Decodes i a)
    (hdefined : a.Defined m.registers.arch) :
    Gives m.registers.arch (computed m.registers.arch a) ((execute i m).map Executed.commit) := by
  cases a with
  | reg => exact execute_reg hload hi
  | imm => exact execute_imm hload hi
  | shift => exact execute_shift hload hi
  | div => exact execute_div hload hi hdefined
  | divu => exact execute_divu hload hi hdefined
  | mfhi rd | mflo rd =>
    rcases i with ⟨opCode, irs, irt, ird, extra⟩
    obtain ⟨rfl, rfl⟩ := hi
    exact gives_write hload ird _
  | mthi rs | mtlo rs =>
    rcases i with ⟨opCode, irs, irt, ird, extra⟩
    obtain ⟨rfl, rfl⟩ := hi
    exact gives_setHiLo hload _ _

/-- The instruction that is fetched is executed in the registers. -/
theorem oneInstruction_arith {w : Word} {m₁ : Machine} {a : Mips.Arith}
    (hfetch : m.fetch = .ok (w, m₁)) (hload : m.registers.loadReg = 0)
    (hdecode : Mips.decode w = some a) (hdefined : a.Defined m.registers.arch) :
    Gives m.registers.arch (computed m.registers.arch a) (oneInstruction m) := by
  have hregs : m₁.registers = m.registers := (Machine.readMem_alike hfetch).registers
  have hone : oneInstruction m = (execute (decode w) m₁).map Executed.commit := by
    rw [oneInstruction, hfetch]
    rfl
  rw [hone, ← hregs]
  exact execute_arith (hregs ▸ hload) (decodes_arith hdecode) (hregs ▸ hdefined)

/-! ### The results that differ -/

/-- The instructions whose result is the right one. -/
def Right (R : Mips.Regs) : Mips.Arith → Prop
  | .reg .or rd rs rt => rd = 0 ∨ R.gpr rs ||| R.gpr rt = R.gpr rs
  | .reg .srlv rd rs rt => rd = 0 ∨ (R.gpr rs).toNat % 32 = 0 ∨ (R.gpr rt).msb = false
  | .shift .srl rd rt shamt => rd = 0 ∨ shamt = 0 ∨ (R.gpr rt).msb = false
  | _ => True

theorem write_eq_iff (R : Mips.Regs) (r : Reg) (v v' : Word) :
    R.write r v = R.write r v' ↔ r = 0 ∨ v = v' := by
  constructor
  · intro h
    by_cases hr : r = 0
    · exact .inl hr
    · have hgpr := congrArg (fun R : Mips.Regs => R.gpr r) h
      simp only [Mips.Regs.write, Function.update_of_ne hr, Function.update_self] at hgpr
      exact .inr hgpr
  · rintro (rfl | rfl)
    · simp only [Mips.Regs.write, Function.update_idem]
    · rfl

/-- The sign is shifted in. -/
theorem shift_eq_iff (t : Word) (n : ℕ) :
    t >>> n = t.sshiftRight n ↔ n = 0 ∨ t.msb = false := by
  constructor
  · intro h
    have hsign := congrArg BitVec.msb h
    rw [BitVec.msb_ushiftRight, BitVec.msb_sshiftRight] at hsign
    by_cases hn : n = 0
    · exact .inl hn
    · rw [decide_eq_true (Nat.pos_of_ne_zero hn), Bool.not_true, Bool.false_and] at hsign
      exact .inr hsign.symm
  · rintro (rfl | hsign)
    · rw [BitVec.ushiftRight_zero, BitVec.sshiftRight_zero]
    · exact (BitVec.sshiftRight_eq_of_msb_false hsign).symm

theorem exec_eq_computed_iff (R : Mips.Regs) (a : Mips.Arith) :
    a.exec R = computed R a ↔ Right R a := by
  cases a with
  | reg op rd rs rt =>
    cases op
    case or => exact Option.some_inj.trans (write_eq_iff R rd _ _)
    case srlv =>
      exact Option.some_inj.trans ((write_eq_iff R rd _ _).trans
        (or_congr_right (shift_eq_iff _ _)))
    all_goals exact iff_of_true rfl trivial
  | shift op rd rt shamt =>
    cases op
    case srl =>
      have hzero : shamt.toNat = 0 ↔ shamt = 0 := BitVec.toNat_inj (y := 0)
      exact Option.some_inj.trans ((write_eq_iff R rd _ _).trans
        (or_congr_right ((shift_eq_iff _ _).trans (or_congr_left hzero))))
    all_goals exact iff_of_true rfl trivial
  | _ => exact iff_of_true rfl trivial

/-- The instruction does what the architecture defines. -/
theorem arithmetic_iff {w : Word} {m₁ : Machine} {a : Mips.Arith}
    (hfetch : m.fetch = .ok (w, m₁)) (hload : m.registers.loadReg = 0)
    (hdecode : Mips.decode w = some a) (hdefined : a.Defined m.registers.arch) :
    Gives m.registers.arch (a.exec m.registers.arch) (oneInstruction m) ↔
      Right m.registers.arch a :=
  (oneInstruction_arith hfetch hload hdecode hdefined).iff.trans (exec_eq_computed_iff _ a)

/-- `OR` of registers 1 and 2 into register 3. -/
def orProgram : Machine := .start [0x00221825] fun r => if r = 1 then 1 else if r = 2 then 2 else 0

theorem orProgram_fetch : ∃ m₁, orProgram.fetch = .ok (0x00221825, m₁) := ⟨_, rfl⟩

theorem orProgram_decode : Mips.decode 0x00221825 = some (.reg .or 3 1 2) := rfl

theorem orProgram_not_right : ¬ Right orProgram.registers.arch (.reg .or 3 1 2) := by
  change ¬ ((3 : Reg) = 0 ∨ (1 : Word) ||| 2 = 1)
  decide

/-- The result has the bits of register 1 only. -/
theorem orProgram_wrong :
    ¬ Gives orProgram.registers.arch
      ((Mips.Arith.reg .or 3 1 2).exec orProgram.registers.arch) (oneInstruction orProgram) := by
  obtain ⟨m₁, hfetch⟩ := orProgram_fetch
  rw [(oneInstruction_arith hfetch rfl orProgram_decode trivial).iff, exec_eq_computed_iff]
  exact orProgram_not_right

/-- The same instruction where register 1 has the bits of register 2. -/
def orSubset : Machine := .start [0x00221825] fun r => if r = 1 then 3 else if r = 2 then 2 else 0

theorem arithmetic_iff_orSubset :
    Gives orSubset.registers.arch ((Mips.Arith.reg .or 3 1 2).exec orSubset.registers.arch)
      (oneInstruction orSubset) := by
  obtain ⟨m₁, hfetch⟩ : ∃ m₁, orSubset.fetch = .ok (0x00221825, m₁) := ⟨_, rfl⟩
  refine (arithmetic_iff hfetch rfl orProgram_decode trivial).mpr ?_
  change (3 : Reg) = 0 ∨ (3 : Word) ||| 2 = 3
  decide

end Coursework.Nachos.Mipssim
