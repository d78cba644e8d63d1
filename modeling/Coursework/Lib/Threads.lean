import Mathlib.Data.Fintype.Basic
import Mathlib.Algebra.Order.BigOperators.Group.Finset
import Mathlib.Data.Finset.Card

/-!
# Sets of threads and sums over threads

The local states of the threads are a function, and one step of a thread
updates it at one place. These lemmas say what such an update does to the set
of threads in a given condition and to a weight summed over all threads.
-/
namespace Coursework
open Finset

variable {ι α : Type*} [Fintype ι] [DecidableEq ι]

/-- The threads whose local state satisfies `p`. -/
def having (p : α → Bool) (f : ι → α) : Finset ι :=
  univ.filter fun i => p (f i)

section Having
variable {p : α → Bool} {f : ι → α} {i : ι} {a : α}

omit [DecidableEq ι] in
@[simp] theorem mem_having {j : ι} : j ∈ having p f ↔ p (f j) = true := by
  simp [having]

theorem having_update_of_pos (h : p a = true) :
    having p (Function.update f i a) = insert i (having p f) := by
  ext j
  by_cases hj : j = i
  · subst hj
    simp [h]
  · simp [hj]

theorem having_update_of_neg (h : p a = false) :
    having p (Function.update f i a) = (having p f).erase i := by
  ext j
  by_cases hj : j = i
  · subst hj
    simp [h]
  · simp [hj]

/-- A step that keeps the condition of its own thread keeps the set. -/
theorem having_update_of_eq (h : p a = p (f i)) :
    having p (Function.update f i a) = having p f := by
  ext j
  by_cases hj : j = i
  · subst hj
    simp [h]
  · simp [hj]

end Having

/-- A summed weight loses the thread's old weight and gains its new one. -/
theorem sum_update {M : Type*} [AddCommMonoid M] (w : α → M) (f : ι → α) (i : ι) (a : α) :
    ∑ j, w (Function.update f i a j) + w (f i) = ∑ j, w (f j) + w a := by
  have hrest : ∑ j ∈ univ.erase i, w (Function.update f i a j) = ∑ j ∈ univ.erase i, w (f j) :=
    sum_congr rfl fun j hj => by rw [Function.update_of_ne (ne_of_mem_erase hj)]
  rw [← add_sum_erase univ _ (mem_univ i), ← add_sum_erase univ (fun j => w (f j)) (mem_univ i),
    hrest, Function.update_self]
  ac_rfl

omit [DecidableEq ι] in
theorem le_sum_weight (w : α → ℕ) (f : ι → α) (i : ι) : w (f i) ≤ ∑ j, w (f j) :=
  single_le_sum (f := fun j => w (f j)) (fun _ _ => Nat.zero_le _) (mem_univ i)

omit [DecidableEq ι] in
/-- Two threads of positive weight are the same thread when the weights sum to at most one. -/
theorem eq_of_sum_weight_le_one {w : α → ℕ} {f : ι → α} (h : ∑ j, w (f j) ≤ 1) {i j : ι}
    (hi : 0 < w (f i)) (hj : 0 < w (f j)) : i = j := by
  by_contra hne
  have hpair := add_le_sum (f := fun j => w (f j)) (fun _ _ => Nat.zero_le _)
    (mem_univ i) (mem_univ j) hne
  omega

end Coursework
