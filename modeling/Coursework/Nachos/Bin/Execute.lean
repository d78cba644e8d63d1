import Coursework.Nachos.Mipssim.Mult

/-!
# Multiplication in the other interpreter

`runprogram` puts the high word of a product together from the products of half words. It leaves
out the carry of the low halves, and the shifts of the two products in the middle copy their top
bit. It computes the word that `Mult` computes exactly when there is no carry and no top bit.
-/
namespace Coursework.Nachos.Execute
open Mips (Word)
open Mipssim (magnitude negative)

/-- The word `HI` of both cases, before the sign. -/
def highWord (t1 t2 : Word) : Word :=
  let t1l := t1 &&& 0xffff
  let t1h := t1.sshiftRight 16 &&& 0xffff
  let t2l := t2 &&& 0xffff
  let t2h := t2.sshiftRight 16 &&& 0xffff
  t1h * t2h + (t1h * t2l).sshiftRight 16 + (t2h * t1l).sshiftRight 16

/-- The words `HI` and `LO` after `I_MULT`. -/
def mult (rs rt : Word) : Word × Word :=
  let neg := false
  let (t1, neg) := if rs.toInt < 0 then (-rs, !neg) else (rs, neg)
  let (t2, neg) := if rt.toInt < 0 then (-rt, !neg) else (rt, neg)
  let lo := t1 * t2
  let hi := highWord t1 t2
  if neg then
    let lo := ~~~lo + 1
    (if lo = 0 then ~~~hi + 1 else ~~~hi, lo)
  else (hi, lo)

/-- The words `HI` and `LO` after `I_MULTU`. -/
def multu (rs rt : Word) : Word × Word := (highWord rs rt, rs * rt)

/-- The products in the middle have no top bit, and the low halves do not carry into the high
word. -/
def NoCarry (t1 t2 : ℕ) : Prop :=
  t1 / 2 ^ 16 * (t2 % 2 ^ 16) < 2 ^ 31 ∧ t2 / 2 ^ 16 * (t1 % 2 ^ 16) < 2 ^ 31 ∧
    t1 / 2 ^ 16 * (t2 % 2 ^ 16) % 2 ^ 16 + t2 / 2 ^ 16 * (t1 % 2 ^ 16) % 2 ^ 16 +
      t1 % 2 ^ 16 * (t2 % 2 ^ 16) / 2 ^ 16 < 2 ^ 16

instance (t1 t2 : ℕ) : Decidable (NoCarry t1 t2) := inferInstanceAs (Decidable (_ ∧ _ ∧ _))

variable {t1 t2 : Word}

/-! ### Half words -/

theorem half_mul_lt {m n : ℕ} (hm : m < 2 ^ 16) (hn : n < 2 ^ 16) : m * n < 2 ^ 32 :=
  calc m * n < 2 ^ 16 * 2 ^ 16 := Nat.mul_lt_mul'' hm hn
    _ = 2 ^ 32 := by norm_num

theorem toNat_mul_half {a b : Word} (ha : a.toNat < 2 ^ 16) (hb : b.toNat < 2 ^ 16) :
    (a * b).toNat = a.toNat * b.toNat := by
  rw [BitVec.toNat_mul, Nat.mod_eq_of_lt (half_mul_lt ha hb)]

theorem toNat_highWord (t1 t2 : Word) :
    let p := t1.toNat / 2 ^ 16 * (t2.toNat % 2 ^ 16)
    let q := t2.toNat / 2 ^ 16 * (t1.toNat % 2 ^ 16)
    (highWord t1 t2).toNat = (t1.toNat / 2 ^ 16 * (t2.toNat / 2 ^ 16) +
      (p / 2 ^ 16 + if p < 2 ^ 31 then 0 else 2 ^ 32 - 2 ^ 16) +
      (q / 2 ^ 16 + if q < 2 ^ 31 then 0 else 2 ^ 32 - 2 ^ 16)) % 2 ^ 32 := by
  have ht1 := t1.isLt
  have ht2 := t2.isLt
  have hlow : ∀ t : Word, (t &&& 0xffff).toNat < 2 ^ 16 := fun t => by
    rw [toNat_and_half]
    omega
  have hhigh : ∀ t : Word, (t.sshiftRight 16 &&& 0xffff).toNat < 2 ^ 16 := fun t => hlow _
  simp only [highWord, BitVec.toNat_add, toNat_sshiftRight_half,
    toNat_mul_half (hhigh t1) (hlow t2), toNat_mul_half (hhigh t2) (hlow t1),
    toNat_mul_half (hhigh t1) (hhigh t2), toNat_high_half, Nat.mod_add_mod]
  rw [toNat_and_half, toNat_and_half]

/-- The product of two words from the products of their half words. -/
theorem mul_halves (m n : ℕ) :
    m * n = (m / 2 ^ 16 * (n / 2 ^ 16)) * 2 ^ 32 +
      (m / 2 ^ 16 * (n % 2 ^ 16) + n / 2 ^ 16 * (m % 2 ^ 16)) * 2 ^ 16 +
      m % 2 ^ 16 * (n % 2 ^ 16) := by
  have hm := Nat.div_add_mod m (2 ^ 16)
  have hn := Nat.div_add_mod n (2 ^ 16)
  generalize m / 2 ^ 16 = mh at *
  generalize m % 2 ^ 16 = ml at *
  generalize n / 2 ^ 16 = nh at *
  generalize n % 2 ^ 16 = nl at *
  subst hm hn
  ring

/-- The words are those of the product when nothing is lost, and only then. -/
theorem highWord_exact :
    double (highWord t1 t2) (t1 * t2) = .ofInt 64 (t1.toNat * t2.toNat) ↔
      NoCarry t1.toNat t2.toNat := by
  have ht1 := t1.isLt
  have ht2 := t2.isLt
  have hmul := mul_halves t1.toNat t2.toNat
  have hp : t1.toNat / 2 ^ 16 * (t2.toNat % 2 ^ 16) < 2 ^ 32 :=
    half_mul_lt (by omega) (by omega)
  have hq : t2.toNat / 2 ^ 16 * (t1.toNat % 2 ^ 16) < 2 ^ 32 :=
    half_mul_lt (by omega) (by omega)
  have hlow : t1.toNat % 2 ^ 16 * (t2.toNat % 2 ^ 16) < 2 ^ 32 :=
    half_mul_lt (by omega) (by omega)
  have hhigh : t1.toNat / 2 ^ 16 * (t2.toNat / 2 ^ 16) < 2 ^ 32 :=
    half_mul_lt (by omega) (by omega)
  have hproduct : t1.toNat * t2.toNat < 2 ^ 64 :=
    lt_of_lt_of_eq (Nat.mul_lt_mul'' ht1 ht2) (by norm_num)
  have hword := toNat_highWord t1 t2
  rw [← Int.natCast_mul, BitVec.ofInt_natCast, ← BitVec.toNat_inj, double_toNat, BitVec.toNat_mul,
    BitVec.toNat_ofNat, Nat.mod_eq_of_lt hproduct, hword, NoCarry]
  generalize t1.toNat * t2.toNat = product at *
  generalize t1.toNat / 2 ^ 16 * (t2.toNat % 2 ^ 16) = p at *
  generalize t2.toNat / 2 ^ 16 * (t1.toNat % 2 ^ 16) = q at *
  generalize t1.toNat % 2 ^ 16 * (t2.toNat % 2 ^ 16) = low at *
  generalize t1.toNat / 2 ^ 16 * (t2.toNat / 2 ^ 16) = high at *
  clear ht1 ht2 hword
  split_ifs <;> omega

/-! ### The sign -/

/-- The sign is put back the way `Mult` does it. -/
theorem mult_sign (rs rt : Word) :
    double (mult rs rt).1 (mult rs rt).2 =
      let product := double (highWord (magnitude true rs) (magnitude true rt))
        (magnitude true rs * magnitude true rt)
      if negative true rs rt then -product else product := by
  simp only [← double_neg]
  rw [mult, magnitude, magnitude, negative]
  by_cases hs : rs.toInt < 0 <;> by_cases ht : rt.toInt < 0 <;> simp [hs, ht]

/-- `I_MULT` and `I_MULTU` leave the words that `Mult` computes exactly for the operands whose
half words do not carry. -/
theorem execute_agrees (rs rt : Word) :
    (mult rs rt = Mipssim.mult rs rt true ↔
      NoCarry (magnitude true rs).toNat (magnitude true rt).toNat) ∧
    (multu rs rt = Mipssim.mult rs rt false ↔ NoCarry rs.toNat rt.toNat) := by
  constructor
  · rw [← highWord_exact, ← double_inj, mult_sign, Mipssim.mult_double]
    cases negative true rs rt with
    | true => exact neg_inj
    | false => exact Iff.rfl
  · rw [← highWord_exact, ← double_inj, Mipssim.mult_double]
    exact Iff.rfl

/-- Two carries are lost. -/
theorem execute_disagrees :
    mult 0x1ffff 0x1ffff = (1, 0xfffc0001) ∧
      Mipssim.mult 0x1ffff 0x1ffff true = (3, 0xfffc0001) := by
  decide

end Coursework.Nachos.Execute
