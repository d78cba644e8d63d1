import Coursework.Lib.Bits
import Coursework.Nachos.Mipssim.OneInstruction
import Mathlib.Data.BitVec
import Mathlib.Tactic.Ring

/-!
# The product of two words

Each round of `Mult` adds the multiplicand, as a number of two words, if the lowest bit of the
multiplier is set, and doubles it. The rounds that are left add the multiplicand times the bits
that are left.
-/
namespace Coursework.Nachos.Mipssim
open Mips (Word)

/-- The bits of the multiplier that the rounds will look at. -/
def bitsLeft (rounds : ℕ) (a : Word) : BitVec 64 := .ofNat 64 (a.toNat % 2 ^ rounds)

variable {a b hi lo bHi bLo : Word} {rounds : ℕ}

/-- What is shifted in for the sign is above the bits that are left. -/
theorem sshiftRight_one_mod (hrounds : rounds ≤ 31) (a : Word) :
    (a.sshiftRight 1).toNat % 2 ^ rounds = a.toNat / 2 % 2 ^ rounds := by
  have ha := a.isLt
  cases hsign : a.msb with
  | false => rw [BitVec.toNat_sshiftRight_of_msb_false hsign, Nat.shiftRight_eq_div_pow, pow_one]
  | true =>
    have hshift : (a.sshiftRight 1).toNat = a.toNat / 2 + 2 ^ 31 := by
      rw [BitVec.toNat_sshiftRight_of_msb_true hsign, Nat.shiftRight_eq_div_pow]
      omega
    have hpow : 2 ^ 31 = 2 ^ (31 - rounds) * 2 ^ rounds := by
      rw [← pow_add, Nat.sub_add_cancel hrounds]
    rw [hshift, hpow, Nat.add_mul_mod_self_right]

theorem bitsLeft_succ (hrounds : rounds ≤ 31) (a : Word) :
    bitsLeft (rounds + 1) a =
      .ofNat 64 (a.toNat % 2) + 2 * bitsLeft rounds (a.sshiftRight 1) := by
  have hsplit : a.toNat % 2 ^ (rounds + 1) = a.toNat % 2 + 2 * (a.toNat / 2 % 2 ^ rounds) := by
    rw [pow_succ', Nat.mod_mul]
  rw [bitsLeft, bitsLeft, sshiftRight_one_mod hrounds, hsplit, BitVec.ofNat_add, BitVec.ofNat_mul]
  rfl

theorem bitsLeft_of_one (h : a.toNat = 1) : bitsLeft (rounds + 1) a = 1 := by
  have hlt : 1 < 2 ^ (rounds + 1) := Nat.one_lt_two_pow rounds.succ_ne_zero
  rw [bitsLeft, h, Nat.mod_eq_of_lt hlt]
  rfl

theorem bitsLeft_all (a : Word) : bitsLeft 32 a = .ofNat 64 a.toNat := by
  rw [bitsLeft, Nat.mod_eq_of_lt a.isLt]

theorem addRound_double (a bHi bLo hi lo : Word) :
    double
        (if a &&& 1 ≠ 0 then
          (if (if a &&& 1 ≠ 0 then lo + bLo else lo) < bLo then hi + 1 else hi) + bHi else hi)
        (if a &&& 1 ≠ 0 then lo + bLo else lo) =
      double hi lo + .ofNat 64 (a.toNat % 2) * double bHi bLo := by
  by_cases hodd : a &&& 1 ≠ 0
  · have hbit : a.toNat % 2 = 1 := by
      have := (and_one_eq_zero a).not.mp hodd
      omega
    simp only [if_pos hodd]
    rw [double_add, hbit, BitVec.one_mul]
  · have hbit : a.toNat % 2 = 0 := (and_one_eq_zero a).mp (not_not.mp hodd)
    simp only [if_neg hodd]
    rw [hbit, BitVec.zero_mul, BitVec.add_zero]

/-- The number in `*hiPtr` and `*loPtr` grows by the multiplicand times the bits that are left. -/
theorem multLoop_double (hrounds : rounds ≤ 32) (a bHi bLo hi lo : Word) :
    double (multLoop rounds a bHi bLo hi lo).1 (multLoop rounds a bHi bLo hi lo).2 =
      double hi lo + bitsLeft rounds a * double bHi bLo := by
  induction rounds generalizing a bHi bLo hi lo with
  | zero =>
    rw [multLoop, bitsLeft, pow_zero, Nat.mod_one, BitVec.zero_mul,
      BitVec.add_zero]
  | succ rounds ih =>
    have hadd := addRound_double a bHi bLo hi lo
    rw [multLoop]
    by_cases hlast : a &&& 1 ≠ 0 ∧ a &&& 0xfffffffe = 0
    · -- the lowest bit was the last one
      have hone : a.toNat = 1 := by
        have hbit := (and_one_eq_zero a).not.mp hlast.1
        have hlt := and_not_one_eq_zero a hlast.2
        omega
      simp only [if_pos hlast]
      rw [hadd, hone, bitsLeft_of_one hone]
      rfl
    · simp only [if_neg hlast]
      rw [ih (by omega), double_twice, hadd, bitsLeft_succ (by omega)]
      ring

theorem multLoop_all (a b : Word) :
    double (multLoop 32 a 0 b 0 0).1 (multLoop 32 a 0 b 0 0).2 = .ofInt 64 (a.toNat * b.toNat) := by
  rw [multLoop_double le_rfl, bitsLeft_all, double_zero, double_zero, toNat_zero_word,
    BitVec.zero_add, ← BitVec.ofNat_mul, ← Int.natCast_mul, BitVec.ofInt_natCast]

/-! ### Signs -/

/-- An operand without its sign. -/
def magnitude (signedArith : Bool) (a : Word) : Word :=
  if signedArith ∧ a.toInt < 0 then -a else a

/-- The product has a sign of its own. -/
def negative (signedArith : Bool) (a b : Word) : Bool :=
  signedArith && (decide (a.toInt < 0) ^^ decide (b.toInt < 0))

theorem magnitude_zero (signedArith : Bool) : magnitude signedArith 0 = 0 := by
  cases signedArith <;> rfl

/-- The product of the operands without their signs, and then the sign. -/
theorem mult_double (a b : Word) (signedArith : Bool) :
    double (mult a b signedArith).1 (mult a b signedArith).2 =
      let product := .ofInt 64 ((magnitude signedArith a).toNat * (magnitude signedArith b).toNat)
      if negative signedArith a b then -product else product := by
  rw [mult]
  by_cases hzero : a = 0 ∨ b = 0
  · rw [if_pos hzero]
    have hproduct : ((magnitude signedArith a).toNat * (magnitude signedArith b).toNat : ℤ) = 0 := by
      rcases hzero with rfl | rfl
      · rw [magnitude_zero, toNat_zero_word, Nat.cast_zero, Int.zero_mul]
      · rw [magnitude_zero, toNat_zero_word, Nat.cast_zero, Int.mul_zero]
    simp only [hproduct]
    cases negative signedArith a b <;> rfl
  · rw [if_neg hzero]
    simp only [← magnitude.eq_def, ← negative.eq_def]
    cases negative signedArith a b with
    | true =>
      simp only [↓reduceIte]
      rw [double_neg, multLoop_all]
    | false =>
      simp only [Bool.false_eq_true, ↓reduceIte]
      rw [multLoop_all]

/-- The integer that an operand stands for. -/
def operand (signedArith : Bool) (a : Word) : ℤ := if signedArith then a.toInt else a.toNat

/-- The absolute value of the least integer is a word without a sign. -/
theorem operand_eq (signedArith : Bool) (a : Word) :
    operand signedArith a =
      if signedArith ∧ a.toInt < 0 then -((-a).toNat : ℤ) else (a.toNat : ℤ) := by
  have ha := a.isLt
  cases signedArith with
  | false => rfl
  | true =>
    rw [operand, if_pos rfl, BitVec.toNat_neg, BitVec.toInt_eq_toNat_cond]
    simp only [true_and]
    split_ifs <;> omega

/-- The signs of the operands and of the product. -/
theorem operand_mul (signedArith : Bool) (a b : Word) :
    operand signedArith a * operand signedArith b =
      (if negative signedArith a b then -1 else 1) *
        ((magnitude signedArith a).toNat * (magnitude signedArith b).toNat : ℤ) := by
  rw [operand_eq, operand_eq, negative, magnitude, magnitude]
  cases signedArith with
  | false => simp
  | true => by_cases ha : a.toInt < 0 <;> by_cases hb : b.toInt < 0 <;> simp [ha, hb]

/-- The product of the integers that the operands stand for. -/
theorem mult_exact (a b : Word) (signedArith : Bool) :
    double (mult a b signedArith).1 (mult a b signedArith).2 =
      .ofInt 64 (operand signedArith a * operand signedArith b) := by
  rw [mult_double, operand_mul]
  cases negative signedArith a b with
  | true =>
    simp only [↓reduceIte]
    rw [neg_one_mul, BitVec.ofInt_neg]
  | false =>
    simp only [Bool.false_eq_true, ↓reduceIte]
    rw [one_mul]

end Coursework.Nachos.Mipssim
