import Mathlib.Algebra.Order.Ring.Int
import Mathlib.Data.List.Basic

/-!
# Numbers and strings as bytes

A number is written with its low byte first, and a string behind its length. What is read from the
front of a list of bytes leaves the rest.
-/
namespace Coursework.Wire

variable {n k : ℕ} {l rest : List UInt8}

/-- The low `k` bytes of a number, the lowest one first. -/
def le (n : ℕ) : ℕ → List UInt8
  | 0 => []
  | k + 1 => UInt8.ofNat n :: le (n / 256) k

def ofLe : List UInt8 → ℕ
  | [] => 0
  | b :: l => b.toNat + 256 * ofLe l

/-- A string behind its length, which takes `k` bytes. -/
def counted (k : ℕ) (b : List UInt8) : List UInt8 := le b.length k ++ b

/-- The elements from position `a` up to position `c`, as far as there are any. -/
def slice (l : List UInt8) (a c : ℕ) : List UInt8 := (l.drop a).take (c - a)

@[simp] theorem length_le (n k : ℕ) : (le n k).length = k := by
  induction k generalizing n with
  | zero => rfl
  | succ k ih => rw [le, List.length_cons, ih]

theorem ofLe_le (h : n < 256 ^ k) : ofLe (le n k) = n := by
  induction k generalizing n with
  | zero => exact (Nat.lt_one_iff.mp h).symm
  | succ k ih =>
    have hdiv : n / 256 < 256 ^ k := by
      rw [Nat.div_lt_iff_lt_mul (by decide)]
      rwa [Nat.pow_succ] at h
    rw [le, ofLe, ih hdiv, UInt8.toNat_ofNat']
    exact Nat.mod_add_div n 256

theorem ofLe_lt (l : List UInt8) : ofLe l < 256 ^ l.length := by
  induction l with
  | nil => exact Nat.one_pos
  | cons b l ih =>
    have hb := b.toNat_lt
    rw [ofLe, List.length_cons, Nat.pow_succ]
    omega

/-- What was read is written as it was. -/
theorem le_ofLe (l : List UInt8) : le (ofLe l) l.length = l := by
  induction l with
  | nil => rfl
  | cons b l ih =>
    have hb := b.toNat_lt
    have hlow : UInt8.ofNat (ofLe (b :: l)) = b := by
      apply UInt8.toNat_inj.mp
      rw [UInt8.toNat_ofNat', ofLe]
      omega
    have hhigh : ofLe (b :: l) / 256 = ofLe l := by
      rw [ofLe]
      omega
    rw [List.length_cons, le, hlow, hhigh, ih]

@[simp] theorem length_counted (k : ℕ) (b : List UInt8) : (counted k b).length = k + b.length := by
  rw [counted, List.length_append, length_le]

/-- The length says where the string ends. -/
theorem counted_append_inj {b b' rest' : List UInt8} (hb : b.length < 256 ^ k)
    (hb' : b'.length < 256 ^ k) (h : counted k b ++ rest = counted k b' ++ rest') :
    b = b' ∧ rest = rest' := by
  simp only [counted, List.append_assoc] at h
  have hhead := List.append_inj h (by rw [length_le, length_le])
  have hlength : b.length = b'.length := by rw [← ofLe_le hb, hhead.1, ofLe_le hb']
  exact List.append_inj hhead.2 hlength

theorem slice_append (h : l.length = n) : slice (l ++ rest) 0 n = l := by
  rw [slice, List.drop_zero, Nat.sub_zero, ← h, List.take_left]

/-- Behind `l`, positions are those of the rest. -/
theorem slice_append_right {a c : ℕ} (l rest : List UInt8) (ha : l.length ≤ a) :
    slice (l ++ rest) a c = slice rest (a - l.length) (c - l.length) := by
  rw [slice, slice, List.drop_append, List.drop_eq_nil_of_le ha, List.nil_append]
  congr 1
  omega

theorem length_slice (l : List UInt8) (a c : ℕ) :
    (slice l a c).length = min (c - a) (l.length - a) := by
  rw [slice, List.length_take, List.length_drop]

theorem slice_append_drop {a c : ℕ} (l : List UInt8) (h : a ≤ c) :
    slice l a c ++ l.drop c = l.drop a := by
  have hdrop : l.drop c = (l.drop a).drop (c - a) := by rw [List.drop_drop, Nat.add_sub_cancel' h]
  rw [slice, hdrop, List.take_append_drop]

/-- What is read from behind a length is the string, and then the rest. -/
theorem slice_counted (k : ℕ) (b rest : List UInt8) {a c : ℕ} (ha : k + b.length ≤ a) :
    slice (counted k b ++ rest) 0 k = le b.length k ∧
      slice (counted k b ++ rest) k (k + b.length) = b ∧
        slice (counted k b ++ rest) a c =
          slice rest (a - (k + b.length)) (c - (k + b.length)) := by
  refine ⟨?_, ?_, ?_⟩
  · rw [counted, List.append_assoc, slice_append (length_le _ _)]
  · have hk : (le b.length k).length ≤ k := Nat.le_of_eq (length_le _ _)
    rw [counted, List.append_assoc, slice_append_right _ _ hk, length_le, Nat.sub_self,
      Nat.add_sub_cancel_left, slice_append rfl]
  · have ha' : (counted k b).length ≤ a := by rwa [length_counted]
    rw [slice_append_right _ _ ha', length_counted]

end Coursework.Wire
