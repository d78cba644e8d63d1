import Coursework.Lib.Bits
import Coursework.Nachos.Mipssim

/-!
# Decoding by the fields of a word

`Decode` masks and shifts; the architecture takes fields. The opcode depends on the opcode field
and, for `SPECIAL`, on the function field.
-/
namespace Coursework.Nachos.Mipssim
open Mips (Word Reg opField rsField rtField rdField shamtField functField immediateField)

variable {w : Word} {op : OpCode} {k : ℕ}

theorem opField_toNat (w : Word) : (w >>> 26 &&& 0x3f).toNat = (opField w).toNat := by
  rw [opField, BitVec.extractLsb'_toNat, ← BitVec.toNat_ushiftRight]
  exact toNat_and_low _ (k := 6) (by decide)

theorem functField_toNat (w : Word) : (w &&& 0x3f).toNat = (functField w).toNat := by
  rw [functField, BitVec.extractLsb'_toNat]
  exact toNat_and_low _ (k := 6) (by decide)

theorem mask_field (w : Word) (k : ℕ) : (w >>> k &&& 0x1f).toNat = (w.extractLsb' k 5).toNat := by
  rw [BitVec.extractLsb'_toNat, ← BitVec.toNat_ushiftRight]
  exact toNat_and_low _ (k := 5) (by decide)

/-- Five bits of a word. -/
theorem reg_field (w : Word) (k : ℕ) : (w >>> k &&& 0x1f).setWidth 5 = w.extractLsb' k 5 := by
  apply BitVec.eq_of_toNat_eq
  rw [BitVec.toNat_setWidth, mask_field, Nat.mod_eq_of_lt (BitVec.isLt _)]

theorem shamt_extra (w : Word) : w >>> 6 &&& 0x1f = (shamtField w).setWidth 32 := by
  apply BitVec.eq_of_toNat_eq
  rw [mask_field, BitVec.toNat_setWidth, shamtField]
  have hlt := (w.extractLsb' 6 5).isLt
  omega

theorem immediate_low (w : Word) : w &&& 0xffff = (immediateField w).setWidth 32 := by
  apply BitVec.eq_of_toNat_eq
  have hlow : (w &&& 0xffff).toNat = w.toNat % 2 ^ 16 := toNat_and_low _ (k := 16) (by decide)
  rw [hlow, BitVec.toNat_setWidth, immediateField, BitVec.extractLsb'_toNat, Nat.shiftRight_zero]
  omega

theorem immediate_sign (w : Word) :
    w &&& 0xffff &&& 0x8000 ≠ 0 ↔ (immediateField w).msb = true := by
  rw [BitVec.and_assoc, show (0xffff &&& 0x8000 : Word) = BitVec.twoPow 32 15 from rfl,
    BitVec.and_twoPow, BitVec.msb_eq_getLsbD_last, immediateField, BitVec.getLsbD_extractLsb']
  cases w.getLsbD 15 <;> decide

/-- The sign of an immediate is filled in. -/
theorem immediate_extra (w : Word) :
    (if w &&& 0xffff &&& 0x8000 ≠ 0 then w &&& 0xffff ||| 0xffff0000 else w &&& 0xffff) =
      (immediateField w).signExtend 32 := by
  simp only [immediate_sign]
  rw [immediate_low]
  cases hsign : (immediateField w).msb with
  | false => exact (BitVec.signExtend_eq_setWidth_of_msb_false hsign).symm
  | true =>
    have hdisjoint : (immediateField w).setWidth 32 &&& 0xffff0000 = 0 := by
      rw [← immediate_low, BitVec.and_assoc]
      exact BitVec.and_zero
    have hlt := (immediateField w).isLt
    apply BitVec.eq_of_toNat_eq
    rw [if_pos rfl, ← BitVec.add_eq_or_of_and_eq_zero _ _ hdisjoint, BitVec.toNat_add,
      BitVec.toNat_setWidth, BitVec.toNat_signExtend, hsign, BitVec.toNat_setWidth, if_pos rfl]
    have hmask : (0xffff0000 : Word).toNat = 2 ^ 32 - 2 ^ 16 := rfl
    omega

/-- An instruction with an immediate. -/
theorem decode_ifmt (h : (opField w).toNat = k) (hrow : opTable[k]? = some ⟨op, .ifmt⟩)
    (hspecial : op ≠ .special) (hbcond : op ≠ .bcond) :
    decode w = ⟨op, rsField w, rtField w, rdField w, (immediateField w).signExtend 32⟩ := by
  rw [decode, opField_toNat, h, List.getD_eq_getElem?_getD, hrow]
  simp only [Option.getD_some, if_neg hspecial, if_neg hbcond, immediate_extra, reg_field]
  rfl

/-- An instruction whose opcode is `SPECIAL`. -/
theorem decode_special (h : (opField w).toNat = 0) (hfunct : (functField w).toNat = k)
    (hrow : specialTable[k]? = some op) :
    decode w = ⟨op, rsField w, rtField w, rdField w, (shamtField w).setWidth 32⟩ := by
  have hspecial : opTable[0]? = some ⟨.special, .rfmt⟩ := rfl
  rw [decode, opField_toNat, h, functField_toNat, hfunct, List.getD_eq_getElem?_getD,
    List.getD_eq_getElem?_getD, hspecial, hrow]
  simp only [Option.getD_some, ↓reduceIte, shamt_extra, reg_field]
  rfl

/-! ### Instructions that compute in registers -/

def regOpCode : Mips.RegOp → OpCode
  | .add => .add
  | .addu => .addu
  | .sub => .sub
  | .subu => .subu
  | .and => .and
  | .or => .or
  | .xor => .xor
  | .nor => .nor
  | .slt => .slt
  | .sltu => .sltu
  | .sllv => .sllv
  | .srlv => .srlv
  | .srav => .srav

def immOpCode : Mips.ImmOp → OpCode
  | .addi => .addi
  | .addiu => .addiu
  | .slti => .slti
  | .sltiu => .sltiu
  | .andi => .andi
  | .ori => .ori
  | .xori => .xori
  | .lui => .lui

def shiftOpCode : Mips.ShiftOp → OpCode
  | .sll => .sll
  | .srl => .srl
  | .sra => .sra

/-- The fields that the instruction uses are decoded. -/
def Decodes (i : Instruction) : Mips.Arith → Prop
  | .reg op rd rs rt => i.opCode = regOpCode op ∧ i.rd = rd ∧ i.rs = rs ∧ i.rt = rt
  | .imm op rt rs immediate =>
    i.opCode = immOpCode op ∧ i.rt = rt ∧ i.rs = rs ∧ i.extra = immediate.signExtend 32
  | .shift op rd rt shamt =>
    i.opCode = shiftOpCode op ∧ i.rd = rd ∧ i.rt = rt ∧ i.extra = shamt.setWidth 32
  | .mfhi rd => i.opCode = .mfhi ∧ i.rd = rd
  | .mflo rd => i.opCode = .mflo ∧ i.rd = rd
  | .mthi rs => i.opCode = .mthi ∧ i.rs = rs
  | .mtlo rs => i.opCode = .mtlo ∧ i.rs = rs
  | .div rs rt => i.opCode = .div ∧ i.rs = rs ∧ i.rt = rt
  | .divu rs rt => i.opCode = .divu ∧ i.rs = rs ∧ i.rt = rt

variable {i : Mips.Arith}

theorem decodes_special (h : (opField w).toNat = 0) (hi : Mips.decodeSpecial w = some i) :
    Decodes (decode w) i := by
  rw [Mips.decodeSpecial] at hi
  split at hi <;> rename_i hfunct <;> cases hi
  all_goals
    rw [decode_special h hfunct rfl]
    simp [Decodes, regOpCode, shiftOpCode]

/-- `Decode` finds the instruction of the architecture. -/
theorem decodes_arith (hi : Mips.decode w = some i) : Decodes (decode w) i := by
  rw [Mips.decode] at hi
  split at hi <;> rename_i hop
  · exact decodes_special hop hi
  all_goals cases hi
  all_goals
    rw [decode_ifmt hop rfl (by decide) (by decide)]
    exact ⟨rfl, rfl, rfl, rfl⟩

end Coursework.Nachos.Mipssim
