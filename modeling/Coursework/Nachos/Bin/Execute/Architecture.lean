import Coursework.Nachos.Bin.Execute.Runprogram
import Coursework.Nachos.Mipssim.Arithmetic

/-!
# The other interpreter and the architecture

Where an instruction computes in registers, `runprogram` takes no notice of an overflow, extends
the sign of every immediate, and shifts by the whole register. It leaves the registers that the
architecture defines exactly where none of this matters.
-/
namespace Coursework.Nachos.Execute
open Mips (Word Reg Fits checked opField rsField rtField rdField shamtField functField
  immediateField)

variable {w : Word} {k n : ℕ}

/-! ### Fields -/

theorem getLsbD_low {j : ℕ} (hj : j < 32) (n : ℕ) :
    (BitVec.ofNat 32 (2 ^ n - 1)).getLsbD j = decide (j < n) := by
  rw [BitVec.getLsbD_ofNat, Nat.testBit_two_pow_sub_one, decide_eq_true hj, Bool.true_and]

/-- The bits that a mask leaves are not copies of the sign. -/
theorem masked_field (w : Word) (h : k + n ≤ 32) :
    (w.sshiftRight k &&& .ofNat 32 (2 ^ n - 1)).toNat = (w.extractLsb' k n).toNat := by
  have hshift : w.sshiftRight k &&& .ofNat 32 (2 ^ n - 1) = w >>> k &&& .ofNat 32 (2 ^ n - 1) := by
    apply BitVec.eq_of_getLsbD_eq
    intro j hj
    rw [BitVec.getLsbD_and, BitVec.getLsbD_and, BitVec.getLsbD_ushiftRight,
      BitVec.getLsbD_sshiftRight, decide_eq_false (not_le.mpr hj), getLsbD_low hj]
    by_cases hn : j < n
    · rw [if_pos (by omega)]
      rfl
    · rw [decide_eq_false hn, Bool.and_false, Bool.and_false]
  rw [hshift, BitVec.extractLsb'_toNat, ← BitVec.toNat_ushiftRight]
  exact toNat_and_low _ (by omega)

theorem opcode_field (w : Word) : (w.sshiftRight 26 &&& 0x3f).toNat = (opField w).toNat :=
  masked_field w (k := 26) (n := 6) (by decide)

theorem register_field (w : Word) (h : k + 5 ≤ 32) :
    (w.sshiftRight k &&& 0x1f).setWidth 5 = w.extractLsb' k 5 := by
  have hmask : (w.sshiftRight k &&& 0x1f).toNat = (w.extractLsb' k 5).toNat := masked_field w h
  apply BitVec.eq_of_toNat_eq
  rw [BitVec.toNat_setWidth, hmask, Nat.mod_eq_of_lt (BitVec.isLt _)]

@[simp] theorem rd_eq (w : Word) : rd w = rdField w := register_field w (by decide)

@[simp] theorem rt_eq (w : Word) : rt w = rtField w := register_field w (by decide)

@[simp] theorem rs_eq (w : Word) : rs w = rsField w := register_field w (by decide)

@[simp] theorem shamt_toNat (w : Word) : (shamt w).toNat = (shamtField w).toNat :=
  masked_field w (k := 6) (n := 5) (by decide)

@[simp] theorem immed_eq (w : Word) : immed w = (immediateField w).signExtend 32 := by
  have hsign : w &&& 0xffff &&& 0x8000 ≠ 0 ↔ w &&& 0x8000 ≠ 0 := by
    rw [BitVec.and_assoc]
    rfl
  have hbit : w &&& 0xffff &&& 0x8000 ≠ 0 ↔ w.getLsbD 15 = true := by
    rw [Mipssim.immediate_sign, BitVec.msb_eq_getLsbD_last, immediateField,
      BitVec.getLsbD_extractLsb']
    simp
  have h15 : ∀ {j}, j < 32 → (0x7fff : Word).getLsbD j = decide (j < 15) :=
    fun hj => getLsbD_low hj 15
  have h16 : ∀ {j}, j < 32 → (0xffff : Word).getLsbD j = decide (j < 16) :=
    fun hj => getLsbD_low hj 16
  rw [← Mipssim.immediate_extra, immed, show (0xffff8000 : Word) = ~~~0x7fff from rfl,
    show (0xffff0000 : Word) = ~~~0xffff from rfl]
  -- the masks differ in bit 15
  by_cases h : w.getLsbD 15 = true
  · rw [if_pos (hsign.mp (hbit.mpr h)), if_pos (hbit.mpr h)]
    apply BitVec.eq_of_getLsbD_eq
    intro j hj
    simp only [BitVec.getLsbD_or, BitVec.getLsbD_and, BitVec.getLsbD_not, h15 hj, h16 hj]
    grind
  · rw [if_neg fun hw => h (hbit.mp (hsign.mpr hw)), if_neg fun hw => h (hbit.mp hw)]
    apply BitVec.eq_of_getLsbD_eq
    intro j hj
    simp only [BitVec.getLsbD_and, h15 hj, h16 hj]
    grind

/-- All bits but those of the immediate are shifted out. -/
theorem immediate_upper (w : Word) : immediateField w ++ 0#16 = w <<< 16 := by
  apply BitVec.eq_of_getLsbD_eq
  intro j hj
  rw [BitVec.getLsbD_shiftLeft, BitVec.getLsbD_append, immediateField, BitVec.getLsbD_extractLsb']
  by_cases hlow : j < 16
  · simp [hlow]
  · have hlt : j - 16 < 16 := by omega
    simp [hlow, hlt, hj]

/-! ### What an instruction leaves -/

/-- The registers that the architecture has. -/
def Cpu.arch (c : Cpu) : Mips.Regs := ⟨Function.update c.reg 0 0, c.hi, c.lo⟩

/-- What `runprogram` computes; `none` where C does not define it. -/
def computed (R : Mips.Regs) : Mips.Arith → Option Mips.Regs
  | .reg .add rd rs rt => some (R.write rd (R.gpr rs + R.gpr rt))
  | .reg .sub rd rs rt => some (R.write rd (R.gpr rs - R.gpr rt))
  | .reg .sllv rd rs rt =>
    if (R.gpr rs).toNat < 32 then some (R.write rd (R.gpr rt <<< (R.gpr rs).toNat)) else none
  | .reg .srlv rd rs rt =>
    if (R.gpr rs).toNat < 32 then some (R.write rd (R.gpr rt >>> (R.gpr rs).toNat)) else none
  | .reg .srav rd rs rt =>
    if (R.gpr rs).toNat < 32 then
      some (R.write rd ((R.gpr rt).sshiftRight (R.gpr rs).toNat))
    else none
  | .imm .addi rt rs immediate => some (R.write rt (R.gpr rs + immediate.signExtend 32))
  | .imm .andi rt rs immediate => some (R.write rt (R.gpr rs &&& immediate.signExtend 32))
  | .imm .ori rt rs immediate => some (R.write rt (R.gpr rs ||| immediate.signExtend 32))
  | .imm .xori rt rs immediate => some (R.write rt (R.gpr rs ^^^ immediate.signExtend 32))
  | a => a.exec R

/-- The registers are `result` afterwards, and nothing else has changed. -/
def Gives (c : Cpu) (result : Option Mips.Regs) : Except Stop Cpu → Prop
  | .ok c' => result = some c'.arch ∧ c'.pc = c.pc ∧ c'.npc = c.npc ∧ c'.mem = c.mem
  | .error _ => result = none

variable {c : Cpu} {r : Reg} {v v' : Word} {a : Mips.Arith} {xpc : Word}

theorem arch_eq (hzero : c.reg 0 = 0) : c.arch = ⟨c.reg, c.hi, c.lo⟩ := by
  rw [Cpu.arch, Function.update_eq_self_iff.mpr hzero.symm]

theorem gives_write (hzero : c.reg 0 = 0) (hv : v = v') :
    Gives c (some (c.arch.write r v)) (.ok (c.set r v')) := by
  subst hv
  refine ⟨?_, rfl, rfl, rfl⟩
  rw [arch_eq hzero]
  rfl

theorem gives_hilo (hzero : c.reg 0 = 0) (hi lo : Word) :
    Gives c (some { c.arch.write 0 0 with hi := hi, lo := lo })
      (.ok { c with hi := hi, lo := lo }) := by
  refine ⟨?_, rfl, rfl, rfl⟩
  rw [Mips.Regs.write, Function.update_idem, arch_eq hzero]
  rfl

theorem gives_shift (hzero : c.reg 0 = 0) {p : Prop} [Decidable p] {stop : Stop} :
    Gives c (if p then some (c.arch.write r v) else none)
      (if p then pure (c.set r v) else throw stop) := by
  by_cases hp : p
  · rw [if_pos hp, if_pos hp]
    exact gives_write hzero rfl
  · rw [if_neg hp, if_neg hp]
    rfl

theorem gives_div (hzero : c.reg 0 = 0) {rs rt : Reg}
    (hdefined : (Mips.Arith.div rs rt).Defined c.arch) :
    Gives c (computed c.arch (.div rs rt))
      (if c.arch.gpr rt = 0 ∨ c.arch.gpr rs = 0x80000000 ∧ c.arch.gpr rt = -1 then
        throw Stop.undefined
      else pure { c with
        lo := (c.arch.gpr rs).sdiv (c.arch.gpr rt)
        hi := (c.arch.gpr rs).srem (c.arch.gpr rt) }) := by
  obtain ⟨hdivisor, hfits⟩ := hdefined
  have htrap : ¬ (c.arch.gpr rs = 0x80000000 ∧ c.arch.gpr rt = -1) := by
    rintro ⟨hs, ht⟩
    rw [hs, ht] at hfits
    exact absurd hfits (by decide)
  rw [if_neg (not_or.mpr ⟨hdivisor, htrap⟩), ← Mipssim.ofInt_tmod, ← Mipssim.ofInt_tdiv htrap]
  exact gives_hilo hzero _ _

theorem gives_divu (hzero : c.reg 0 = 0) {rs rt : Reg}
    (hdefined : (Mips.Arith.divu rs rt).Defined c.arch) :
    Gives c (computed c.arch (.divu rs rt))
      (if c.arch.gpr rt = 0 then throw Stop.undefined
      else pure { c with
        lo := c.arch.gpr rs / c.arch.gpr rt, hi := c.arch.gpr rs % c.arch.gpr rt }) := by
  rw [if_neg hdefined, ← Mipssim.ofNat_mod, ← Mipssim.ofNat_div]
  exact gives_hilo hzero _ _

/-- The case `I_SPECIAL` of an instruction that computes in registers. -/
theorem special_arith (hzero : c.reg 0 = 0) (ha : Mips.decodeSpecial w = some a)
    (hdefined : a.Defined c.arch) : Gives c (computed c.arch a) (c.special w xpc) := by
  have harch : ∀ r, c.arch.gpr r = c.reg r := fun r => by rw [arch_eq hzero]
  have hfield : (w &&& 0x3f).toNat = (functField w).toNat := Mipssim.functField_toNat w
  rw [Mips.decodeSpecial] at ha
  split at ha <;> rename_i hfunct <;> cases ha
  all_goals
    rw [Cpu.special, hfield, hfunct]
    simp only [rd_eq, rs_eq, rt_eq, shamt_toNat, ← harch]
  case h_1 | h_2 | h_3 => exact gives_write hzero rfl
  case h_4 | h_5 | h_6 => exact gives_shift hzero
  case h_7 | h_9 => exact gives_write hzero rfl
  case h_8 | h_10 => exact gives_hilo hzero _ _
  case h_11 => exact gives_div hzero hdefined
  case h_12 => exact gives_divu hzero hdefined
  case h_14 => exact gives_write hzero (Mipssim.ofNat_toNat_add _ _)
  case h_16 => exact gives_write hzero (Mipssim.ofInt_toNat_sub _ _)
  case h_21 | h_22 => exact gives_write hzero (Mipssim.ofBool_decide _)
  all_goals exact gives_write hzero rfl

theorem instruction_arith (hzero : c.reg 0 = 0) (ha : Mips.decode w = some a)
    (hdefined : a.Defined c.arch) : Gives c (computed c.arch a) (c.instruction w xpc) := by
  have harch : ∀ r, c.arch.gpr r = c.reg r := fun r => by rw [arch_eq hzero]
  have hsigned : ((immediateField w).signExtend 32).toInt = (immediateField w).toInt :=
    BitVec.toInt_signExtend_of_le (by decide)
  rw [Mips.decode] at ha
  split at ha <;> rename_i hop
  case h_1 =>
    rw [Cpu.instruction, opcode_field, hop]
    exact special_arith hzero ha hdefined
  all_goals cases ha
  all_goals
    rw [Cpu.instruction, opcode_field, hop]
    simp only [rs_eq, rt_eq, immed_eq, ← harch]
  case h_3 => exact gives_write hzero (hsigned ▸ Mipssim.ofInt_toInt_add _ _)
  case h_4 => exact gives_write hzero (hsigned ▸ Mipssim.ofBool_decide _)
  case h_5 => exact gives_write hzero (Mipssim.ofBool_decide _)
  case h_9 => exact gives_write hzero (immediate_upper w)
  all_goals exact gives_write hzero rfl

/-- The registers that the instruction leaves are the right ones. -/
def Right (R : Mips.Regs) : Mips.Arith → Prop
  | .reg .add _ rs rt => Fits ((R.gpr rs).toInt + (R.gpr rt).toInt)
  | .reg .sub _ rs rt => Fits ((R.gpr rs).toInt - (R.gpr rt).toInt)
  | .reg .sllv _ rs _ | .reg .srlv _ rs _ | .reg .srav _ rs _ => (R.gpr rs).toNat < 32
  | .imm .addi _ rs immediate => Fits ((R.gpr rs).toInt + immediate.toInt)
  | .imm .andi rt rs immediate => rt = 0 ∨ immediate.msb = false ∨ (R.gpr rs).toNat < 2 ^ 16
  | .imm .ori rt rs immediate =>
    rt = 0 ∨ immediate.msb = false ∨ 2 ^ 32 - 2 ^ 16 ≤ (R.gpr rs).toNat
  | .imm .xori rt _ immediate => rt = 0 ∨ immediate.msb = false
  | _ => True

variable {R : Mips.Regs} {x : ℤ}

/-- Some result is both the one of the architecture and the one that is computed. -/
def Agrees (R : Mips.Regs) (a : Mips.Arith) : Prop :=
  ∃ R', a.exec R = some R' ∧ computed R a = some R'

theorem agrees_checked (f : Word → Mips.Regs) (hv : .ofInt 32 x = v) :
    (∃ R', (checked x).map f = some R' ∧ some (f v) = some R') ↔ Fits x := by
  rw [checked]
  by_cases hfits : Fits x
  · rw [if_pos hfits, hv]
    exact iff_of_true ⟨_, rfl, rfl⟩ hfits
  · rw [if_neg hfits]
    refine iff_of_false ?_ hfits
    rintro ⟨R', h, -⟩
    cases h

theorem agrees_shift {n : ℕ} (f : ℕ → Mips.Regs) :
    (∃ R', some (f (n % 32)) = some R' ∧ (if n < 32 then some (f n) else none) = some R') ↔
      n < 32 := by
  by_cases hn : n < 32
  · rw [if_pos hn, Nat.mod_eq_of_lt hn]
    exact iff_of_true ⟨_, rfl, rfl⟩ hn
  · rw [if_neg hn]
    refine iff_of_false ?_ hn
    rintro ⟨R', -, h⟩
    cases h

theorem agrees_write : (∃ R', some (R.write r v) = some R' ∧ some (R.write r v') = some R') ↔
    r = 0 ∨ v = v' := by
  rw [← Mipssim.write_eq_iff R r v v']
  constructor
  · rintro ⟨R', h, h'⟩
    exact Option.some.inj (h.trans h'.symm)
  · intro h
    exact ⟨_, rfl, congrArg some h.symm⟩

/-! ### Immediates with a sign -/

/-- The upper half of the word is zero. -/
theorem upper_zero (s : Word) : s.toNat < 2 ^ 16 ↔ ∀ j < 32, 16 ≤ j → s.getLsbD j = false := by
  constructor
  · intro h j _ hj
    exact Nat.testBit_lt_two_pow (h.trans_le (Nat.pow_le_pow_right (by decide) hj))
  · intro h
    apply Nat.lt_pow_two_of_testBit
    intro j hj
    by_cases hlt : j < 32
    · exact h j hlt hj
    · exact BitVec.getLsbD_of_ge s j (not_lt.mp hlt)

variable (immediate : BitVec 16) (s : Word)

theorem signExtend_bit {j : ℕ} (hj : j < 32) :
    (immediate.signExtend 32).getLsbD j =
      (if j < 16 then (immediate.setWidth 32).getLsbD j else immediate.msb) := by
  rw [BitVec.getLsbD_signExtend, decide_eq_true hj, Bool.true_and, BitVec.getLsbD_setWidth,
    decide_eq_true hj, Bool.true_and]

theorem setWidth_bit {j : ℕ} (hj : 16 ≤ j) : (immediate.setWidth 32 : Word).getLsbD j = false := by
  rw [BitVec.getLsbD_setWidth, BitVec.getLsbD_of_ge immediate j hj, Bool.and_false]

theorem andi_iff : s &&& immediate.setWidth 32 = s &&& immediate.signExtend 32 ↔
    immediate.msb = false ∨ s.toNat < 2 ^ 16 := by
  rw [upper_zero]
  constructor
  · intro h
    by_cases hsign : immediate.msb = false
    · exact .inl hsign
    · refine .inr fun j hj hhigh => ?_
      have hbit := congrArg (fun w : Word => w.getLsbD j) h
      simp only [BitVec.getLsbD_and, signExtend_bit immediate hj, setWidth_bit immediate hhigh,
        if_neg (not_lt.mpr hhigh), Bool.not_eq_false _ ▸ hsign] at hbit
      grind
  · intro h
    apply BitVec.eq_of_getLsbD_eq
    intro j hj
    rw [BitVec.getLsbD_and, BitVec.getLsbD_and, signExtend_bit immediate hj]
    by_cases hlow : j < 16
    · rw [if_pos hlow]
    · rw [if_neg hlow, setWidth_bit immediate (not_lt.mp hlow)]
      rcases h with hsign | hhigh
      · rw [hsign]
      · rw [hhigh j hj (not_lt.mp hlow), Bool.false_and, Bool.false_and]

theorem or_eq_or_iff (s a b : Word) : s ||| a = s ||| b ↔ ~~~s &&& a = ~~~s &&& b := by
  constructor <;> intro h <;> apply BitVec.eq_of_getLsbD_eq <;> intro j hj <;>
    have hbit := congrArg (fun w : Word => w.getLsbD j) h <;>
    simp only [BitVec.getLsbD_or, BitVec.getLsbD_and, BitVec.getLsbD_not, decide_eq_true hj,
      Bool.true_and] at hbit ⊢ <;>
    grind

theorem ori_iff : s ||| immediate.setWidth 32 = s ||| immediate.signExtend 32 ↔
    immediate.msb = false ∨ 2 ^ 32 - 2 ^ 16 ≤ s.toNat := by
  have hs := s.isLt
  rw [or_eq_or_iff, andi_iff, BitVec.toNat_not]
  exact or_congr_right (by omega)

theorem xori_iff : s ^^^ immediate.setWidth 32 = s ^^^ immediate.signExtend 32 ↔
    immediate.msb = false := by
  have hall := andi_iff immediate (BitVec.allOnes 32)
  rw [BitVec.allOnes_and, BitVec.allOnes_and, BitVec.toNat_allOnes] at hall
  rw [BitVec.xor_right_inj, hall]
  exact or_iff_left (by decide)

/-! ### The results that differ -/

theorem agrees_iff (R : Mips.Regs) (a : Mips.Arith) : Agrees R a ↔ Right R a := by
  cases a with
  | reg op rd rs rt =>
    cases op
    case add => exact agrees_checked _ (Mipssim.ofInt_toInt_add _ _)
    case sub => exact agrees_checked _ (Mipssim.ofInt_toInt_sub _ _)
    case sllv => exact agrees_shift fun n => R.write rd (R.gpr rt <<< n)
    case srlv => exact agrees_shift fun n => R.write rd (R.gpr rt >>> n)
    case srav => exact agrees_shift fun n => R.write rd ((R.gpr rt).sshiftRight n)
    all_goals exact iff_of_true ⟨_, rfl, rfl⟩ trivial
  | imm op rt rs immediate =>
    have hsigned : (immediate.signExtend 32).toInt = immediate.toInt :=
      BitVec.toInt_signExtend_of_le (by decide)
    cases op
    case addi => exact agrees_checked _ (hsigned ▸ Mipssim.ofInt_toInt_add _ _)
    case andi => exact agrees_write.trans (or_congr_right (andi_iff immediate _))
    case ori => exact agrees_write.trans (or_congr_right (ori_iff immediate _))
    case xori => exact agrees_write.trans (or_congr_right (xori_iff immediate _))
    all_goals exact iff_of_true ⟨_, rfl, rfl⟩ trivial
  | _ => exact iff_of_true ⟨_, rfl, rfl⟩ trivial

/-! ### One round of the loop -/

/-- The state in which the `switch` is entered. -/
def Cpu.next (c : Cpu) : Cpu := { c with pc := c.npc, npc := c.npc + 4 }.set 0 0

theorem next_zero (c : Cpu) : c.next.reg 0 = 0 := by
  simp [Cpu.next, Cpu.set]

@[simp] theorem next_arch (c : Cpu) : c.next.arch = c.arch := by
  rw [Cpu.arch, Cpu.arch, Cpu.next, Cpu.set]
  simp only [Function.update_idem]

/-- The word that is left out is a shift of register 0, which would change nothing. -/
theorem nop_instruction (c : Cpu) (xpc : Word) : c.next.instruction 0 xpc = .ok c.next := by
  have hshift : c.next.instruction 0 xpc = .ok (c.next.set 0 (c.next.reg 0 <<< 0)) := rfl
  rw [hshift, next_zero, Cpu.set, Function.update_eq_self_iff.mpr]
  rw [next_zero]
  rfl

theorem step_eq (hfetch : c.fetch c.pc = .ok w) : c.step = c.next.instruction w c.pc := by
  have hstep : c.step = if w = 0 then .ok c.next else c.next.instruction w c.pc := by
    rw [Cpu.step, hfetch]
    rfl
  rw [hstep]
  split_ifs with hw
  · rw [hw, nop_instruction]
  · rfl

theorem step_arith (hfetch : c.fetch c.pc = .ok w) (ha : Mips.decode w = some a)
    (hdefined : a.Defined c.arch) : Gives c.next (computed c.arch a) c.step := by
  rw [step_eq hfetch, ← next_arch]
  exact instruction_arith (next_zero c) ha (next_arch c ▸ hdefined)

/-- The instruction leaves the registers that the architecture defines, and the next one follows. -/
def Computes (c c' : Cpu) (a : Mips.Arith) : Prop :=
  a.exec c.arch = some c'.arch ∧ c'.pc = c.npc ∧ c'.npc = c.npc + 4 ∧ c'.mem = c.mem

/-- An instruction that computes in registers does what the architecture defines exactly where no
overflow, no immediate with a sign and no shift by 32 and more stands against it. -/
theorem runprogram_arith_iff (hfetch : c.fetch c.pc = .ok w) (ha : Mips.decode w = some a)
    (hdefined : a.Defined c.arch) :
    (∃ c', c.step = .ok c' ∧ Computes c c' a) ↔ Right c.arch a := by
  have hgives := step_arith hfetch ha hdefined
  rw [← agrees_iff]
  constructor
  · rintro ⟨c', hstep, hexec, _⟩
    rw [hstep] at hgives
    exact ⟨c'.arch, hexec, hgives.1⟩
  · rintro ⟨R', hexec, hcomputed⟩
    cases hstep : c.step with
    | error stop =>
      rw [hstep] at hgives
      exact nomatch hcomputed.symm.trans hgives
    | ok c' =>
      rw [hstep] at hgives
      exact ⟨c', rfl, hexec.trans (hcomputed.symm.trans hgives.1), hgives.2⟩

/-- `ORI` of -1 into register 1. -/
def oriProgram : Cpu where
  reg := fun _ => 0
  hi := 0
  lo := 0
  pc := 0x10000000
  npc := 0x10000004
  mem := Mem.words [0x3401ffff]

theorem oriProgram_fetch : oriProgram.fetch oriProgram.pc = .ok 0x3401ffff := rfl

theorem oriProgram_decode : Mips.decode 0x3401ffff = some (.imm .ori 1 0 0xffff) := rfl

theorem oriProgram_not_right : ¬ Right oriProgram.arch (.imm .ori 1 0 0xffff) := by
  change ¬ ((1 : Reg) = 0 ∨ (0xffff : BitVec 16).msb = false ∨ 2 ^ 32 - 2 ^ 16 ≤ (0 : Word).toNat)
  decide

/-- The sign goes into the upper half of register 1. -/
theorem runprogram_arith_iff_oriProgram :
    ¬ ∃ c', oriProgram.step = .ok c' ∧ Computes oriProgram c' (.imm .ori 1 0 0xffff) := by
  rw [runprogram_arith_iff oriProgram_fetch oriProgram_decode trivial]
  exact oriProgram_not_right

end Coursework.Nachos.Execute
