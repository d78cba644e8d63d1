import Mathlib.Algebra.Order.Ring.Int
import Mathlib.Data.Int.ModEq

/-!
# Slots that go round under a head

A wheel has `n` slots, and each is under the head for `period` ticks, one after another. A slot
passes from a time on when it goes by from its beginning to its end.
-/
namespace Coursework.Wheel

variable {period n slot : ℤ} {a b j k t u : ℤ}

/-- The slot under the head. -/
def under (period n t : ℤ) : ℤ := t / period % n

/-- The slot is under the head for a whole period that begins at `u`. -/
def PassesAt (period n slot u : ℤ) : Prop :=
  ∀ t, u ≤ t → t < u + period → under period n t = slot % n

/-- The next time from `t` on at which a slot begins. -/
def boundary (period t : ℤ) : ℤ := t + (if t % period > 0 then period - t % period else 0)

/-- When the slot has gone by for the first time from `a` on. -/
def passed (period n slot a : ℤ) : ℤ :=
  boundary period a + (slot - boundary period a / period) % n * period + period

theorem under_mul (hp : 0 < period) (h : k * period ≤ t) (hlt : t < (k + 1) * period) :
    under period n t = k % n := by
  have hk : t / period = k := by
    apply le_antisymm
    · exact Int.lt_add_one_iff.mp (Int.ediv_lt_of_lt_mul hp hlt)
    · exact (Int.le_ediv_iff_mul_le hp).mpr h
  rw [under, hk]

theorem passesAt_mul (hp : 0 < period) (hk : k % n = slot % n) :
    PassesAt period n slot (k * period) := by
  intro t hle hlt
  rw [under_mul hp hle (by rwa [add_mul, one_mul]), hk]

/-- With more than one slot, a whole period goes from one boundary to the next. -/
theorem passesAt_iff (hp : 0 < period) (hn : 1 < n) :
    PassesAt period n slot u ↔ ∃ k, u = k * period ∧ k % n = slot % n := by
  constructor
  · intro h
    have hle : u / period * period ≤ u := Int.ediv_mul_le u hp.ne'
    have hlt : u < (u / period + 1) * period := Int.lt_ediv_add_one_mul_self u hp
    have hfirst := h u le_rfl (by omega)
    rw [under_mul hp hle hlt] at hfirst
    refine ⟨u / period, ?_, hfirst⟩
    by_contra hne
    -- the period would end in the next slot
    have hend : (u / period + 1) * period < u + period := by
      rw [add_mul, one_mul]
      omega
    have hnext := h _ hlt.le hend
    rw [under_mul hp le_rfl (mul_lt_mul_of_pos_right (lt_add_one _) hp), ← hfirst] at hnext
    have hdvd := Int.ModEq.dvd (Eq.symm hnext)
    rw [add_sub_cancel_left] at hdvd
    exact absurd (Int.le_of_dvd one_pos hdvd) (not_le.mpr hn)
  · rintro ⟨k, rfl, hk⟩
    exact passesAt_mul hp hk

theorem boundary_eq (hp : 0 < period) : ∃ k, boundary period t = k * period ∧
    t ≤ k * period ∧ (k - 1) * period < t := by
  have hdiv := Int.ediv_mul_add_emod t period
  have hlow := Int.emod_nonneg t hp.ne'
  have hhigh := Int.emod_lt_of_pos t hp
  rw [boundary]
  split_ifs with hpos
  · refine ⟨t / period + 1, ?_, ?_, ?_⟩
    · rw [add_mul, one_mul]
      omega
    · rw [add_mul, one_mul]
      omega
    · rw [add_sub_cancel_right]
      omega
  · refine ⟨t / period, ?_, ?_, ?_⟩
    · omega
    · omega
    · rw [sub_mul, one_mul]
      omega

theorem le_boundary (hp : 0 < period) : t ≤ boundary period t := by
  obtain ⟨k, hk, hle, -⟩ := @boundary_eq _ t hp
  exact hk ▸ hle

theorem boundary_lt (hp : 0 < period) : boundary period t < t + period := by
  obtain ⟨k, hk, -, hlt⟩ := @boundary_eq _ t hp
  rw [sub_mul, one_mul] at hlt
  omega

/-- A boundary that is not before `t` is not before the next one. -/
theorem boundary_le_iff (hp : 0 < period) : boundary period t ≤ k * period ↔ t ≤ k * period := by
  obtain ⟨j, hj, hle, hlt⟩ := @boundary_eq _ t hp
  rw [hj]
  constructor
  · exact hle.trans
  · intro h
    have hjk := lt_of_mul_lt_mul_right (hlt.trans_le h) hp.le
    exact mul_le_mul_of_nonneg_right (by omega) hp.le

/-- A slot that begins before `t` ends by the next boundary. -/
theorem mul_lt_iff (hp : 0 < period) :
    k * period < t ↔ k * period + period ≤ boundary period t := by
  obtain ⟨j, hj, hle, hlt⟩ := @boundary_eq _ t hp
  rw [hj]
  constructor
  · intro h
    have hkj := lt_of_mul_lt_mul_right (h.trans_le hle) hp.le
    have hmul := mul_le_mul_of_nonneg_right (show k + 1 ≤ j by omega) hp.le
    rwa [add_mul, one_mul] at hmul
  · intro h
    have hmul : (k + 1) * period ≤ j * period := by rwa [add_mul, one_mul]
    have hkj := le_of_mul_le_mul_right hmul hp
    exact (mul_le_mul_of_nonneg_right (show k ≤ j - 1 by omega) hp.le).trans_lt hlt

/-- The slot has gone by when it has done so the first time. -/
theorem passed_eq (hp : 0 < period) (hn : 0 < n) :
    ∃ k, passed period n slot a = k * period + period ∧ k % n = slot % n ∧ a ≤ k * period ∧
      ∀ j, j % n = slot % n → a ≤ j * period → k ≤ j := by
  obtain ⟨i, hi, hle, hlt⟩ := @boundary_eq _ a hp
  have hmod : (i + (slot - i) % n) % n = slot % n := by
    rw [Int.add_emod_emod, add_sub_cancel]
  have hlow := Int.emod_nonneg (slot - i) hn.ne'
  have hhigh := Int.emod_lt_of_pos (slot - i) hn
  refine ⟨i + (slot - i) % n, ?_, hmod, ?_, ?_⟩
  · rw [passed, hi, Int.mul_ediv_cancel _ hp.ne', add_mul]
  · exact hle.trans (mul_le_mul_of_nonneg_right (by omega) hp.le)
  · intro j hj ha
    have hij : i ≤ j := by
      have hmul := (boundary_le_iff hp).mpr ha
      rw [hi] at hmul
      exact le_of_mul_le_mul_right hmul hp
    -- both are in the same class, and less than a round apart if `j` is smaller
    by_contra hlt
    have hdvd := Int.ModEq.dvd (hj.trans hmod.symm)
    have hround := Int.le_of_dvd (by omega) hdvd
    omega

theorem passed_le (hp : 0 < period) (hn : 1 < n) (h : PassesAt period n slot u) (ha : a ≤ u) :
    passed period n slot a ≤ u + period := by
  obtain ⟨k, hk, -, -, hleast⟩ := @passed_eq _ _ slot a hp (by omega : 0 < n)
  obtain ⟨j, rfl, hj⟩ := (passesAt_iff hp hn).mp h
  have hmul := mul_le_mul_of_nonneg_right (hleast j hj ha) hp.le
  omega

theorem passesAt_passed (hp : 0 < period) (hn : 0 < n) :
    ∃ u, passed period n slot a = u + period ∧ a ≤ u ∧ PassesAt period n slot u := by
  obtain ⟨k, hk, hmod, ha, -⟩ := @passed_eq _ _ slot a hp hn
  exact ⟨k * period, hk, ha, passesAt_mul hp hmod⟩

/-- The time until the slot has gone by is more than a period and at most another round. -/
theorem passed_bounds (hp : 0 < period) (hn : 0 < n) :
    a + period ≤ passed period n slot a ∧ passed period n slot a < a + (n + 1) * period := by
  have hle := @le_boundary _ a hp
  have hlt := @boundary_lt _ a hp
  have hlow := Int.emod_nonneg (slot - boundary period a / period) hn.ne'
  have hhigh := Int.emod_lt_of_pos (slot - boundary period a / period) hn
  have hzero := mul_nonneg hlow hp.le
  have hround := mul_le_mul_of_nonneg_right (Int.le_sub_one_of_lt hhigh) hp.le
  rw [passed, add_mul, one_mul]
  rw [sub_mul, one_mul] at hround
  constructor <;> omega

end Coursework.Wheel
