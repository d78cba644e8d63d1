import Mathlib.Data.Int.Notation
import Mathlib.Data.Option.Basic
import Mathlib.Algebra.Order.Ring.Int

/-!
# Values of type `int`

An expression of type `int` has the value of the same expression over the integers as
long as that fits 32 bits with a sign; otherwise its behaviour is undefined, and it is `none`
here. Where it wraps instead, its type is `Int32`, and what fits has the same value there.
-/
namespace Coursework

def intMax : ℤ := 2147483647

def int (x : ℤ) : Option ℤ := if -intMax - 1 ≤ x ∧ x ≤ intMax then some x else none

/-- `x % y`, with the sign of `x`. -/
def intMod (x y : ℤ) : Option ℤ :=
  if y = 0 then none else (int (x.tdiv y)).map fun _ => x.tmod y

variable {x : ℤ} {m n : ℕ}

theorem int_eq_some (hlow : -intMax - 1 ≤ x) (hhigh : x ≤ intMax) : int x = some x :=
  if_pos ⟨hlow, hhigh⟩

theorem eq_of_int {y : ℤ} (h : int x = some y) : y = x := by
  rw [int] at h
  split_ifs at h
  exact (Option.some.inj h).symm

/-- The quotient is rounded to zero. -/
theorem tdiv_cases (x y : ℤ) : 0 ≤ x ∧ x.tdiv y = x / y ∨ x < 0 ∧ x.tdiv y = -(-x / y) := by
  rcases le_or_gt 0 x with h | h
  · exact .inl ⟨h, Int.tdiv_eq_ediv_of_nonneg h⟩
  · right
    rw [← Int.tdiv_eq_ediv_of_nonneg (by omega), Int.neg_tdiv, neg_neg]
    exact ⟨h, rfl⟩

/-- Of numbers that are not negative the remainder is the one of division with floor. -/
theorem intMod_natCast (hm : (m : ℤ) ≤ intMax) (hn : 0 < n) :
    intMod m n = some ((m % n : ℕ) : ℤ) := by
  have hlow : (0 : ℤ) ≤ (m / n : ℕ) := Int.natCast_nonneg _
  have hhigh : ((m / n : ℕ) : ℤ) ≤ m := Int.ofNat_le.mpr (Nat.div_le_self m n)
  have hdiv : int ((m : ℤ).tdiv n) = some ((m / n : ℕ) : ℤ) := by
    rw [← Int.ofNat_tdiv]
    exact int_eq_some (le_trans (by decide) hlow) (hhigh.trans hm)
  rw [intMod, if_neg (by omega), hdiv, Option.map_some, Int.ofNat_tmod]

/-! ### Sums and products that wrap -/

variable {a b : Int32}

theorem le_toInt_le (a : Int32) : -intMax - 1 ≤ a.toInt ∧ a.toInt ≤ intMax := by
  have hlow := a.le_toInt
  have hhigh := a.toInt_lt
  unfold intMax
  omega

theorem toInt_add_of_le (hlow : -2 ^ 31 ≤ a.toInt + b.toInt) (hhigh : a.toInt + b.toInt < 2 ^ 31) :
    (a + b).toInt = a.toInt + b.toInt := by
  rw [Int32.toInt_add, Int.bmod_eq_of_le (by omega) (by omega)]

theorem toInt_sub_of_le (hlow : -2 ^ 31 ≤ a.toInt - b.toInt) (hhigh : a.toInt - b.toInt < 2 ^ 31) :
    (a - b).toInt = a.toInt - b.toInt := by
  rw [Int32.toInt_sub, Int.bmod_eq_of_le (by omega) (by omega)]

theorem toInt_mul_of_le (hlow : -2 ^ 31 ≤ a.toInt * b.toInt) (hhigh : a.toInt * b.toInt < 2 ^ 31) :
    (a * b).toInt = a.toInt * b.toInt := by
  rw [Int32.toInt_mul, Int.bmod_eq_of_le (by omega) (by omega)]

/-- A sum that does not fit comes out on the other side. -/
theorem toInt_add_of_lt (h : 2 ^ 31 ≤ a.toInt + b.toInt) :
    (a + b).toInt = a.toInt + b.toInt - 2 ^ 32 := by
  have ha := a.toInt_lt
  have hb := b.toInt_lt
  rw [Int32.toInt_add, ← Int.sub_bmod_right (a.toInt + b.toInt) (2 ^ 32),
    Int.bmod_eq_of_le (by omega) (by omega)]
  rfl

end Coursework
