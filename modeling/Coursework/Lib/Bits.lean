import Mathlib.Algebra.Order.Ring.Int
import Mathlib.Data.Nat.Notation
import Mathlib.Tactic.SplitIfs

/-!
# Words of 32 bits

Masks of one bit, and numbers of two words.
-/
namespace Coursework

variable (a hi lo bHi bLo : BitVec 32)

theorem toNat_zero_word : (0 : BitVec 32).toNat = 0 := rfl

theorem toNat_one_word : (1 : BitVec 32).toNat = 1 := rfl

/-! ### Masks -/

/-- The lowest `k` bits. -/
theorem toNat_and_low {k : ℕ} (hk : k ≤ 32) :
    (a &&& .ofNat 32 (2 ^ k - 1)).toNat = a.toNat % 2 ^ k := by
  have hpow : 2 ^ k ≤ 2 ^ 32 := Nat.pow_le_pow_right (by decide) hk
  rw [BitVec.toNat_and, BitVec.toNat_ofNat, Nat.mod_eq_of_lt (by omega),
    Nat.and_two_pow_sub_one_eq_mod]

theorem and_one_eq_zero : a &&& 1 = 0 ↔ a.toNat % 2 = 0 := by
  rw [← BitVec.toNat_inj, BitVec.toNat_and]
  exact Nat.and_one_is_mod a.toNat ▸ Iff.rfl

theorem and_top_eq_zero : a &&& 0x80000000 = 0 ↔ a.msb = false := by
  rw [show (0x80000000 : BitVec 32) = BitVec.twoPow 32 31 from rfl, BitVec.and_twoPow,
    BitVec.msb_eq_getLsbD_last]
  cases a.getLsbD (32 - 1) <;> decide

/-- No bit but the lowest. -/
theorem and_not_one_eq_zero (h : a &&& 0xfffffffe = 0) : a.toNat < 2 := by
  have hshift : (a &&& 0xfffffffe) >>> 1 = a >>> 1 := by
    rw [BitVec.ushiftRight_and_distrib]
    have hmask : (0xfffffffe : BitVec 32) >>> 1 = BitVec.allOnes 32 >>> 1 := by decide
    rw [hmask, ← BitVec.ushiftRight_and_distrib, BitVec.and_allOnes]
  have htoNat := congrArg BitVec.toNat hshift
  rw [h, BitVec.toNat_ushiftRight, BitVec.toNat_ushiftRight, Nat.shiftRight_eq_div_pow] at htoNat
  have hdiv : 0 = a.toNat / 2 := htoNat
  omega

/-! ### Half words -/

/-- The shift by half a word copies the sign into the high half. -/
theorem toNat_sshiftRight_half :
    (a.sshiftRight 16).toNat =
      a.toNat / 2 ^ 16 + if a.toNat < 2 ^ 31 then 0 else 2 ^ 32 - 2 ^ 16 := by
  have ha := a.isLt
  cases hsign : a.msb with
  | false =>
    rw [BitVec.msb_eq_false_iff_two_mul_lt] at hsign
    rw [BitVec.toNat_sshiftRight_of_msb_false (BitVec.msb_eq_false_iff_two_mul_lt.mpr hsign),
      Nat.shiftRight_eq_div_pow, if_pos (by omega), Nat.add_zero]
  | true =>
    have hge := BitVec.msb_eq_true_iff_two_mul_ge.mp hsign
    rw [BitVec.toNat_sshiftRight_of_msb_true hsign, Nat.shiftRight_eq_div_pow,
      if_neg (by omega)]
    omega

theorem toNat_and_half : (a &&& 0xffff).toNat = a.toNat % 2 ^ 16 :=
  toNat_and_low a (by decide : 16 ≤ 32)

theorem toNat_high_half : (a.sshiftRight 16 &&& 0xffff).toNat = a.toNat / 2 ^ 16 := by
  have ha := a.isLt
  rw [toNat_and_half, toNat_sshiftRight_half]
  split_ifs <;> omega

/-! ### Numbers of two words -/

def double (hi lo : BitVec 32) : BitVec 64 := hi ++ lo

theorem double_toNat : (double hi lo).toNat = hi.toNat * 2 ^ 32 + lo.toNat := by
  rw [double, BitVec.toNat_append, ← Nat.shiftLeft_add_eq_or_of_lt lo.isLt, Nat.shiftLeft_eq]

theorem double_inj {r r' : BitVec 32 × BitVec 32} :
    double r.1 r.2 = double r'.1 r'.2 ↔ r = r' := by
  have hlo := r.2.isLt
  have hlo' := r'.2.isLt
  refine ⟨fun h => ?_, fun h => by rw [h]⟩
  have htoNat := congrArg BitVec.toNat h
  rw [double_toNat, double_toNat] at htoNat
  apply Prod.ext
  · apply BitVec.eq_of_toNat_eq
    omega
  · apply BitVec.eq_of_toNat_eq
    omega

theorem double_zero : double 0 lo = .ofNat 64 lo.toNat := by
  have hlo := lo.isLt
  apply BitVec.eq_of_toNat_eq
  rw [double_toNat, BitVec.toNat_ofNat, toNat_zero_word]
  omega

/-- The carry into the high word is seen from the low word. -/
theorem double_add :
    double ((if lo + bLo < bLo then hi + 1 else hi) + bHi) (lo + bLo) =
      double hi lo + double bHi bLo := by
  have hlo := lo.isLt
  have hbLo := bLo.isLt
  apply BitVec.eq_of_toNat_eq
  rw [BitVec.toNat_add]
  simp only [double_toNat, BitVec.toNat_add, BitVec.lt_def]
  split_ifs with hcarry
  · rw [BitVec.toNat_add, toNat_one_word]
    omega
  · omega

theorem double_twice :
    double (if bLo &&& 0x80000000 ≠ 0 then bHi <<< 1 ||| 1 else bHi <<< 1) (bLo <<< 1) =
      2 * double bHi bLo := by
  have hhi : (bHi <<< 1).toNat = bHi.toNat * 2 % 2 ^ 32 := by
    rw [BitVec.toNat_shiftLeft, Nat.shiftLeft_eq]
  have hlo : (bLo <<< 1).toNat = bLo.toNat * 2 % 2 ^ 32 := by
    rw [BitVec.toNat_shiftLeft, Nat.shiftLeft_eq]
  have hbLo := bLo.isLt
  apply BitVec.eq_of_toNat_eq
  rw [BitVec.toNat_mul, double_toNat, double_toNat, hlo]
  have htwo : (2 : BitVec 64).toNat = 2 := rfl
  rw [htwo]
  split_ifs with htop
  · have heven : bHi <<< 1 &&& 1 = 0 := (and_one_eq_zero _).mpr (by omega)
    rw [← BitVec.add_eq_or_of_and_eq_zero _ _ heven, BitVec.toNat_add, hhi, toNat_one_word]
    rw [ne_eq, and_top_eq_zero, Bool.not_eq_false, BitVec.msb_eq_true_iff_two_mul_ge] at htop
    omega
  · rw [not_not, and_top_eq_zero, BitVec.msb_eq_false_iff_two_mul_lt] at htop
    rw [hhi]
    omega

theorem double_neg :
    double (if ~~~lo + 1 = 0 then ~~~hi + 1 else ~~~hi) (~~~lo + 1) = -double hi lo := by
  have hlo := lo.isLt
  have hhi := hi.isLt
  apply BitVec.eq_of_toNat_eq
  rw [BitVec.toNat_neg, double_toNat, double_toNat]
  split_ifs with hzero
  · have hlow := congrArg BitVec.toNat hzero
    rw [BitVec.toNat_add, BitVec.toNat_not, toNat_one_word,
      toNat_zero_word] at hlow
    rw [hzero, BitVec.toNat_add, BitVec.toNat_not, toNat_one_word,
      toNat_zero_word]
    omega
  · have hlow : (~~~lo + 1).toNat ≠ 0 := fun h => hzero (BitVec.eq_of_toNat_eq h)
    rw [BitVec.toNat_add, BitVec.toNat_not, toNat_one_word] at hlow ⊢
    rw [BitVec.toNat_not]
    omega

end Coursework
