import Mathlib.Data.List.Count
import Mathlib.Logic.Function.Basic

/-!
# Elements that are in one list at most

A family of lists is described by the list that each element is in, if it is in one; the element
is there once.
-/
namespace Coursework

variable {ι κ : Type*} [DecidableEq ι] [DecidableEq κ]

def Placed (lists : κ → List ι) (home : ι → Option κ) : Prop :=
  ∀ i k, (lists k).count i = if home i = some k then 1 else 0

namespace Placed
variable {lists : κ → List ι} {home : ι → Option κ} {i : ι} {k : κ} {l : List ι}

theorem mem_iff (h : Placed lists home) : i ∈ lists k ↔ home i = some k := by
  rw [← List.count_pos_iff, h i k]
  split_ifs with hk
  · exact iff_of_true Nat.one_pos hk
  · exact iff_of_false (Nat.lt_irrefl 0) hk

theorem empty (h : ∀ k, lists k = []) : Placed lists fun _ => none := by
  intro i k
  rw [h k]
  rfl

/-- An element that is in no list goes to the end of one. -/
theorem append (h : Placed lists home) (hi : home i = none) (k : κ) :
    Placed (Function.update lists k (lists k ++ [i])) (Function.update home i (some k)) := by
  intro j m
  have hj := h j m
  by_cases hm : m = k
  · subst hm
    rw [Function.update_self, List.count_append, hj]
    by_cases hji : j = i
    · simp [hji, hi]
    · rw [Function.update_of_ne hji, List.count_eq_zero_of_not_mem (by simpa using hji)]
      rfl
  · rw [Function.update_of_ne hm, hj]
    by_cases hji : j = i
    · simp [hji, hi, Ne.symm hm]
    · rw [Function.update_of_ne hji]

/-- The first element of a list leaves it and is in no list then. -/
theorem pop (h : Placed lists home) (hk : lists k = i :: l) :
    Placed (Function.update lists k l) (Function.update home i none) := by
  have hhome : home i = some k := h.mem_iff.mp (hk ▸ List.mem_cons_self)
  intro j m
  have hj := h j m
  by_cases hm : m = k
  · subst hm
    rw [hk, List.count_cons] at hj
    rw [Function.update_self]
    by_cases hji : j = i
    · subst hji
      simpa [hhome] using hj
    · rw [Function.update_of_ne hji, ← hj]
      simp [Ne.symm hji]
  · rw [Function.update_of_ne hm, hj]
    by_cases hji : j = i
    · subst hji
      simp [hhome, Ne.symm hm]
    · rw [Function.update_of_ne hji]

theorem congr {lists' : κ → List ι} (h : Placed lists home) (hl : ∀ k, lists' k = lists k) :
    Placed lists' home := by
  intro i k
  rw [hl k]
  exact h i k

end Placed
end Coursework
